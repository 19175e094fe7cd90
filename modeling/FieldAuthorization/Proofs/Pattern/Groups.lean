import FieldAuthorization.Proofs.Pattern.Brackets

/-!
Whole expressions are read as they are whatever stands behind them.

Groups, repetitions and sequences are made of readers that do not depend on what stands behind the
text. A word boundary before an opening brace is the exception, since braces may name its kind; but
no sequence goes on from there.
-/

set_option autoImplicit false
set_option relaxedAutoImplicit false

namespace FieldAuthorization.Pattern

variable {α β : Type} {n k m : Nat} {worse : β → State → Prop}

private def isFreshName (names : List (List Char)) (name : List Char) : Bool :=
  ((name.take 1).any (isGroupNameChar true) && (name.drop 1).all (isGroupNameChar false)) &&
    !names.contains name

private theorem groupName_run (st : State) : groupName st =
    if isFreshName st.names (st.rest.takeWhile (· != '>')) then
      expect '>' ⟨st.rest.drop (st.rest.takeWhile (· != '>')).length, st.flags,
        st.rest.takeWhile (· != '>') :: st.names⟩
    else none := by
  rw [groupName, bind_of_eq (get_run _)]
  unfold isFreshName
  cases (st.rest.takeWhile (· != '>')).take 1 |>.any (isGroupNameChar true)
  case false => rfl
  cases (st.rest.takeWhile (· != '>')).drop 1 |>.all (isGroupNameChar false)
  case false => rfl
  cases st.names.contains (st.rest.takeWhile (· != '>'))
  case true => rfl
  have hend := skipText_guard_eq '>' (pure () : Reading Unit)
  have hpure : ∀ R : Reading Unit, (R >>= fun _ => (pure () : Reading Unit)) = R := bind_pure
  simp only [hpure] at hend
  exact congrFun hend _

private theorem local_groupName : Local 0 k groupName := by
  refine .of_map (fun {st a st'} h => ?_) fun st => ?_
  · rw [groupName_run] at h
    obtain ⟨-, h⟩ := Option.ite_none_right_eq_some.mp h
    have hsuffix := ((@local_expect 0 '>' (by decide)).suffix h).trans (List.drop_suffix _ _)
    obtain ⟨rest, -, rfl⟩ := expect_eq_some.mp h
    exact ⟨hsuffix, hsuffix.length_le, rfl⟩
  · rw [groupName_run, groupName_run, closed_rest]
    rcases takeWhile_append_closing (· != '>') st.rest with hall | ⟨hsame, hless⟩
    · -- without closing angle bracket there is no name
      have hall' : (st.rest ++ closing).takeWhile (· != '>') = st.rest ++ closing := by
        rw [List.takeWhile_append, hall, if_pos rfl]
        rfl
      rw [hall, hall', List.drop_length, List.drop_length]
      simp [expect]
    · rw [hsame, List.drop_append_of_le_length hless.le]
      show (if isFreshName st.names _ = true then expect '>' (State.closed ⟨_, _, _⟩) else none) = _
      rw [expect_closed (by decide)]
      split <;> rfl

private def isFlag (c : Char) : Bool :=
  c != ':' && c != ')'

private def groupFlags : Reading Bool := do
  let state ← get
  let letters := state.rest.takeWhile isFlag
  match applyFlags state.flags letters, state.rest.drop letters.length with
  | some flags, ':' :: rest =>
    set { state with rest := rest, flags := flags }
    return true
  | some flags, ')' :: rest =>
    guard (!letters.isEmpty)
    set { state with rest := rest, flags := flags }
    return false
  | _, _ => failure

private theorem groupFlags_eq_some {st st' : State} {opens : Bool} :
    groupFlags st = some (opens, st') ↔ ∃ flags rest,
      applyFlags st.flags (st.rest.takeWhile isFlag) = some flags ∧
      st' = ⟨rest, flags, st.names⟩ ∧
      (opens = true ∧ st.rest.drop (st.rest.takeWhile isFlag).length = ':' :: rest ∨
        opens = false ∧ (st.rest.takeWhile isFlag).isEmpty = false ∧
          st.rest.drop (st.rest.takeWhile isFlag).length = ')' :: rest) := by
  rw [groupFlags, bind_of_eq (get_run _)]
  generalize st.rest.takeWhile isFlag = letters
  generalize st.rest.drop letters.length = behind
  generalize applyFlags st.flags letters = found
  split
  case h_1 =>
    constructor
    · rintro ⟨⟩
      exact ⟨_, _, rfl, rfl, .inl ⟨rfl, rfl⟩⟩
    · rintro ⟨_, _, ⟨⟩, rfl, ⟨rfl, ⟨⟩⟩ | ⟨-, -, ⟨⟩⟩⟩
      rfl
  case h_2 =>
    cases letters.isEmpty with
    | true =>
      constructor
      · rintro ⟨⟩
      · rintro ⟨_, _, -, -, ⟨-, ⟨⟩⟩ | ⟨-, ⟨⟩, -⟩⟩
    | false =>
      constructor
      · rintro ⟨⟩
        exact ⟨_, _, rfl, rfl, .inr ⟨rfl, rfl, rfl⟩⟩
      · rintro ⟨_, _, ⟨⟩, rfl, ⟨-, ⟨⟩⟩ | ⟨rfl, -, ⟨⟩⟩⟩
        rfl
  case h_3 hcolon hparen =>
    constructor
    · rintro ⟨⟩
    · rintro ⟨flags, rest, hfound, -, ⟨-, hbehind⟩ | ⟨-, -, hbehind⟩⟩
      · exact (hcolon flags rest hfound hbehind).elim
      · exact (hparen flags rest hfound hbehind).elim

private theorem local_groupFlags : Local 0 0 groupFlags := by
  have hbehind : ∀ {st : State} {c : Char} {rest : List Char},
      st.rest.drop (st.rest.takeWhile isFlag).length = c :: rest → rest <:+ st.rest :=
    fun h => (h ▸ List.suffix_cons _ _ : _ <:+ _).trans (List.drop_suffix _ _)
  have hsuffix : ∀ {st a st'}, groupFlags st = some (a, st') → st'.rest <:+ st.rest := by
    intro st a st' h
    obtain ⟨_, rest, -, rfl, ⟨-, hrest⟩ | ⟨-, -, hrest⟩⟩ := groupFlags_eq_some.mp h
    · exact hbehind hrest
    · exact hbehind hrest
  have hletters : ∀ st : State, st.closed.rest.takeWhile isFlag = st.rest.takeWhile isFlag :=
    fun st => takeWhile_append_closing_of_not rfl st.rest
  have hdrop : ∀ st : State, st.closed.rest.drop (st.rest.takeWhile isFlag).length =
      st.rest.drop (st.rest.takeWhile isFlag).length ++ closing :=
    fun st => List.drop_append_of_le_length (List.takeWhile_prefix _).length_le
  refine ⟨hsuffix, fun h => (hsuffix h).length_le, fun {st a st'} h hend => ?calm,
    fun {st a st'} h => ?back, fun {st a st'} h => ?forth⟩
  case calm =>
    obtain ⟨_, rest, -, -, ⟨-, hrest⟩ | ⟨-, -, hrest⟩⟩ := groupFlags_eq_some.mp h
    all_goals
      rw [hend] at hrest
      cases hrest
  case back =>
    obtain ⟨flags, rest, hflags, rfl, hmore⟩ := groupFlags_eq_some.mp h
    rw [hletters, hdrop] at hmore
    rw [hletters] at hflags
    cases hinside : st.rest.drop (st.rest.takeWhile isFlag).length with
    | nil =>
      rw [hinside] at hmore
      obtain ⟨-, hrest⟩ | ⟨-, -, hrest⟩ := hmore
      · cases hrest
      · cases hrest
        exact .inl (Nat.lt_succ_self 1)
    | cons d inside =>
      rw [hinside] at hmore
      obtain rfl : rest = inside ++ closing := by
        obtain ⟨-, hrest⟩ | ⟨-, -, hrest⟩ := hmore
        all_goals exact (List.cons.inj hrest).2.symm
      refine .inr ⟨⟨inside, flags, st.names⟩, rfl, .inl (groupFlags_eq_some.mpr
        ⟨flags, inside, hflags, rfl, ?_⟩)⟩
      rw [hinside]
      exact hmore.imp (fun ⟨ha, hrest⟩ => ⟨ha, by rw [(List.cons.inj hrest).1]⟩)
        fun ⟨ha, hany, hrest⟩ => ⟨ha, hany, by rw [(List.cons.inj hrest).1]⟩
  case forth =>
    obtain ⟨flags, rest, hflags, rfl, hmore⟩ := groupFlags_eq_some.mp h
    refine .inl (groupFlags_eq_some.mpr ⟨flags, rest ++ closing, ?_, rfl, ?_⟩)
    · rw [hletters]
      exact hflags
    · rw [hletters, hdrop]
      exact hmore.imp (fun ⟨ha, hrest⟩ => ⟨ha, by rw [hrest]; rfl⟩)
        fun ⟨ha, hany, hrest⟩ => ⟨ha, hany, by rw [hrest]; rfl⟩

private theorem local_groupOpening : Local 0 0 groupOpening := by
  refine local_skipSpace.bind fun _ => (local_skipText (by decide)).bind fun _ => .ite
    (fun _ => local_groupName.bind fun _ => .pure _) fun _ => ?_
  refine (local_skipText (by decide)).bind fun _ => .ite
    (fun _ => local_groupName.bind fun _ => .pure _) fun _ => ?_
  refine (local_skipText (by decide)).bind fun _ => .ite (fun _ => ?_) fun _ => .pure _
  exact local_groupFlags

private theorem local_dropBlanks :
    Local 0 k (modify fun st => { st with rest := st.rest.dropWhile Text.isBlank }) := by
  refine .of_map (fun {st a st'} h => ?_) fun st => ?_
  · cases h
    exact ⟨List.dropWhile_suffix _, (List.dropWhile_suffix _).length_le, rfl⟩
  · have hdrop : (st.rest ++ closing).dropWhile Text.isBlank =
        st.rest.dropWhile Text.isBlank ++ closing := by
      rw [List.dropWhile_append]
      split
      · rename_i hnone
        rw [List.isEmpty_iff.mp hnone]
        rfl
      · rfl
    show some ((), _) = some ((), _)
    simp [State.closed, hdrop]

private theorem local_repetitionCount : Local 0 k repetitionCount := by
  refine local_dropBlanks.bind fun _ => (local_takeWhileSpaced (by decide)).bind fun digits => ?_
  refine local_dropBlanks.bind fun _ => local_skipSpace.bind fun _ => .ite (fun _ => .pure _)
    fun _ => ?_
  split
  · exact (LocalBut.guard _).bind fun _ => .pure _
  · exact .failure

private theorem local_repetitionBounds : Local 1 0 repetitionBounds := by
  have hend : ∀ bounds : Nat × Option Nat, Local 1 0 (do
      guard (← skipText ['\x7d'])
      skipSpace
      guard (bounds.2.all (fun most => bounds.1 ≤ most))
      return bounds) := by
    intro bounds
    rw [skipText_guard_eq]
    exact (local_expect (by decide)).bind fun _ => local_skipSpace.bind fun _ =>
      (LocalBut.guard _).bind fun _ => .pure _
  refine local_nextSpaced.bind fun _ => .loose ?_
  refine local_repetitionCount.andThen fun least => (local_skipText (by decide)).andThen fun _ =>
    .ite (fun _ => ?_) fun _ => ?_
  · refine local_skipSpace.andThen fun _ => local_notAtEnd.andThen fun _ => .peek (by simp) fun c =>
      .ite (fun _ => ?_) fun _ => ?_
    · split
      · exact hend _
      · exact .failure
    · refine local_repetitionCount.andThen fun most => ?_
      split
      · exact hend _
      · exact .failure
  · split
    · exact hend _
    · exact .failure

private theorem local_repeatLast (items : List Item) (bounds : Nat × Option Nat) :
    Local 0 k (repeatLast items bounds) := by
  refine (local_skipText (by decide)).bind fun _ => ?_
  split
  · exact .pure _
  · exact .failure

private theorem repetitionCount_end (flags : Flags) (names : List (List Char)) {s : List Char}
    (hs : s = [] ∨ s = closing) : repetitionCount ⟨s, flags, names⟩ =
      some (none, ⟨s, flags, names⟩) := by
  obtain ⟨_, _, _, _, _, spaced⟩ := flags
  rcases hs with rfl | rfl <;> cases spaced <;> rfl

private theorem repetitionBounds_stuck {st : State} (h : Stuck st) :
    repetitionBounds st.closed = none := by
  obtain ⟨text, flags, names⟩ := st
  obtain ⟨rest, rfl, hrest⟩ := h
  have hend : afterSpace flags (rest ++ closing) = [] ∨
      afterSpace flags (rest ++ closing) = closing := by
    rcases afterSpace_append_closing flags rest with happ | ⟨-, happ, -⟩
    · exact .inr (by rw [happ, hrest, List.nil_append])
    · exact .inl happ
  have hnext : nextSpaced ⟨'\x7b' :: (rest ++ closing), flags, names⟩ =
      some ('\x7b', ⟨afterSpace flags (rest ++ closing), flags, names⟩) := by
    rw [nextSpaced, bind_of_eq (next_run _ _ _ _), bind_of_eq (skipSpace_run _)]
    rfl
  show repetitionBounds ⟨'\x7b' :: (rest ++ closing), flags, names⟩ = none
  rw [repetitionBounds, bind_of_eq hnext, bind_of_eq (repetitionCount_end flags names hend)]
  have hcomma : skipText [','] ⟨afterSpace flags (rest ++ closing), flags, names⟩ =
      some (false, ⟨afterSpace flags (rest ++ closing), flags, names⟩) := by
    rcases hend with hend | hend <;> rw [hend] <;> rfl
  rw [bind_of_eq hcomma]
  rfl

private theorem local_lift (x : Option α) : Local 0 k (primitive.lift x) := by
  unfold primitive.lift
  split
  · exact .pure _
  · exact .failure

private theorem local_primitive : LocalBut (fun _ st => Stuck st) 1 0 primitive := by
  refine .get (fun _ => rfl) fun st => .peek rfl fun c => ?_
  split
  case h_1 =>
    refine local_escape.bindFrom (fun e => ?_) (Nat.zero_le _) ?_
    · split
      · exact (local_lift _).but
      · exact .pure _
      · exact .pure _
    · rintro _ st ⟨⟨a, rfl⟩, hstuck⟩ b st' ⟨⟩
      exact ⟨st, rfl, hstuck⟩
  case h_2 => exact local_next.bind fun _ => (local_lift _).bind fun _ => .pure _
  case h_3 => exact local_next.bind fun _ => .pure _
  case h_4 => exact local_next.bind fun _ => .pure _
  case h_5 => exact local_next.bind fun _ => (local_lift _).but

private theorem sequence_stuck {st : State} (h : Stuck st) (fuel : Nat) (items : List Item) :
    sequence fuel items st.closed = none := by
  cases fuel with
  | zero => rfl
  | succ fuel =>
    have hnone := repetitionBounds_stuck h
    obtain ⟨text, flags, names⟩ := st
    obtain ⟨rest, rfl, -⟩ := h
    have hspace : afterSpace flags ('\x7b' :: (rest ++ closing)) = '\x7b' :: (rest ++ closing) := by
      unfold afterSpace
      split <;> rfl
    show sequence (fuel + 1) items ⟨'\x7b' :: (rest ++ closing), flags, names⟩ = none
    rw [sequence, bind_of_eq (skipSpace_run _)]
    simp only [hspace]
    rw [bind_of_eq (peek_run _)]
    exact bind_of_none hnone

/-- The end of a group, where the flags in front of it are in force again. -/
def groupEnd (flags : Flags) (R : Reading β) : Reading β :=
  skipText [')'] >>= fun found => guard (found = true) >>= fun _ =>
    modify (fun st => { st with flags := flags }) >>= fun _ => R

theorem groupEnd_eq_some {flags : Flags} {R : Reading β} {st st' : State} {b : β} :
    groupEnd flags R st = some (b, st') ↔
      ∃ rest, st.rest = ')' :: rest ∧ R ⟨rest, flags, st.names⟩ = some (b, st') := by
  rw [groupEnd, skipText_guard_eq, bind_eq_some]
  constructor
  · rintro ⟨_, mid, hexpect, h⟩
    obtain ⟨rest, hst, rfl⟩ := expect_eq_some.mp hexpect
    exact ⟨rest, congrArg State.rest hst, h⟩
  · rintro ⟨rest, hrest, h⟩
    exact ⟨(), ⟨rest, st.flags, st.names⟩, expect_eq_some.mpr ⟨rest, by rw [← hrest], rfl⟩, h⟩

private theorem groupEnd_congr {flags : Flags} {R S : Reading β} {st : State}
    (h : ∀ mid : State, mid.rest.length < st.rest.length → R mid = S mid) :
    groupEnd flags R st = groupEnd flags S st := by
  rw [groupEnd, groupEnd, skipText_guard_eq, skipText_guard_eq]
  refine bind_congr_run rfl fun _ mid hexpect => ?_
  obtain ⟨rest, hst, rfl⟩ := expect_eq_some.mp hexpect
  exact h ⟨rest, flags, st.names⟩ (hst ▸ Nat.lt_succ_self rest.length)

private theorem local_groupEnd (flags : Flags) {R : Reading β} (hR : LocalBut worse 0 0 R) :
    LocalBut worse 1 0 (groupEnd flags R) := by
  refine ⟨fun {st b st'} h => ?suffix, fun {st b st'} h => ?takes, fun {st b st'} h hend => ?calm,
    fun {st b st'} h => ?back, fun {st b st'} h => ?forth⟩
  all_goals obtain ⟨rest, hrest, hread⟩ := groupEnd_eq_some.mp h
  case suffix =>
    rw [hrest]
    exact (hR.suffix hread).trans (List.suffix_cons _ _)
  case takes =>
    rw [hrest]
    exact Nat.succ_le_succ (hR.takes hread)
  case calm =>
    rw [hrest] at hend
    cases hend
  case back =>
    obtain ⟨text, old, names⟩ := st
    cases text with
    | nil =>
      cases hrest
      exact .inl (Nat.lt_succ_of_le (hR.takes hread))
    | cons c text =>
      cases hrest
      have hread : R (State.closed ⟨text, flags, names⟩) = some (b, st') := hread
      refine (hR.back hread).imp_right ?_
      rintro ⟨st₀, rfl, hread₀ | hbad⟩
      · exact ⟨st₀, rfl, .inl (groupEnd_eq_some.mpr ⟨text, rfl, hread₀⟩)⟩
      · exact ⟨st₀, rfl, .inr hbad⟩
  case forth =>
    refine (hR.forth hread).imp_left fun hclosed =>
      groupEnd_eq_some.mpr ⟨rest ++ closing, ?_, hclosed⟩
    rw [closed_rest, hrest]
    rfl

theorem local_expression (fuel : Nat) :
    Local 0 0 (alternatives fuel) ∧ ∀ items, Local 0 0 (sequence fuel items) := by
  induction fuel with
  | zero => exact ⟨.failure, fun _ => .failure⟩
  | succ fuel ih =>
    obtain ⟨halternatives, hsequence⟩ := ih
    constructor
    · refine (hsequence []).bind fun first => (local_skipText (by decide)).bind fun _ => .ite
        (fun _ => halternatives.bind fun _ => .pure _) fun _ => .pure _
    · intro items
      refine local_skipSpace.bind fun _ => .peek rfl fun c => ?_
      split
      case h_1 => exact .pure _
      case h_2 => exact .pure _
      case h_3 => exact .pure _
      case h_4 =>
        refine local_next.loose.bind fun _ => .get (fun _ => rfl) fun st => ?_
        refine local_groupOpening.bind fun _ => .ite (fun _ => ?_) fun _ => hsequence _
        exact halternatives.bind fun branches => (local_groupEnd st.flags (hsequence _)).loose
      case h_5 => exact local_bracketed.loose.bind fun _ => hsequence _
      case h_6 =>
        exact local_next.loose.bind fun _ => (local_repeatLast _ _).bind fun _ => hsequence _
      case h_7 =>
        exact local_next.loose.bind fun _ => (local_repeatLast _ _).bind fun _ => hsequence _
      case h_8 =>
        exact local_next.loose.bind fun _ => (local_repeatLast _ _).bind fun _ => hsequence _
      case h_9 =>
        exact local_repetitionBounds.loose.bind fun bounds => (local_repeatLast _ _).bind fun _ =>
          hsequence _
      case h_10 =>
        refine .loose (local_primitive.bindFrom (fun n => hsequence _) (Nat.zero_le _) ?_)
        intro n st hstuck b st' h
        rw [sequence_stuck hstuck] at h
        cases h

/-- Fuel beyond the length of the text makes no difference. -/
theorem expression_congr {n m : Nat} {st : State} :
    (2 * st.rest.length + 2 ≤ n → 2 * st.rest.length + 2 ≤ m →
      alternatives n st = alternatives m st) ∧
    (2 * st.rest.length + 1 ≤ n → 2 * st.rest.length + 1 ≤ m →
      ∀ items, sequence n items st = sequence m items st) := by
  induction n generalizing m st with
  | zero =>
    constructor
    all_goals
      intro hn
      omega
  | succ n ih =>
    constructor
    · intro hn hm
      obtain ⟨m, rfl⟩ : ∃ l, m = l + 1 := ⟨m - 1, by omega⟩
      refine bind_congr_run (ih.2 (by omega) (by omega) _) fun first mid hfirst => ?_
      have hmid := ((local_expression n).2 _).takes hfirst
      refine bind_congr_run rfl fun more mid' hmore => ?_
      cases more with
      | false => rfl
      | true =>
        have hless := takes_skipText hmore
        rw [List.length_singleton] at hless
        exact bind_congr_run (ih.1 (by omega) (by omega)) fun _ _ _ => rfl
    · intro hn hm items
      obtain ⟨m, rfl⟩ : ∃ l, m = l + 1 := ⟨m - 1, by omega⟩
      refine bind_congr_run rfl fun _ mid hspace => peek_bind_congr fun c => ?_
      have hmid := (@local_skipSpace 0).takes hspace
      have hrepeat : ∀ bounds : Nat × Option Nat, ∀ st : State,
          2 * st.rest.length + 1 ≤ n → 2 * st.rest.length + 1 ≤ m →
          (repeatLast items bounds >>= sequence n) st =
            (repeatLast items bounds >>= sequence m) st := by
        intro bounds st hn hm
        refine bind_congr_run rfl fun items' mid hrepeat => ?_
        have hmid := (@local_repeatLast 0 items bounds).takes hrepeat
        exact ih.2 (by omega) (by omega) _
      have hquantifier : ∀ bounds : Nat × Option Nat,
          (next >>= fun _ => repeatLast items bounds >>= sequence n) mid =
            (next >>= fun _ => repeatLast items bounds >>= sequence m) mid := by
        intro bounds
        refine bind_congr_run rfl fun _ mid' hnext => ?_
        have hmid' := (@local_next 0).takes hnext
        exact hrepeat bounds mid' (by omega) (by omega)
      split
      case h_1 => rfl
      case h_2 => rfl
      case h_3 => rfl
      case h_4 =>
        refine bind_congr_run rfl fun _ opened hnext => get_bind_congr fun old =>
          bind_congr_run rfl fun opens begun hopening => ?_
        have hopened := (@local_next 0).takes hnext
        have hbegun := local_groupOpening.takes hopening
        cases opens with
        | false => exact ih.2 (by omega) (by omega) _
        | true =>
          refine bind_congr_run (ih.1 (by omega) (by omega)) fun branches read hread => ?_
          have hread := (local_expression _).1.takes hread
          refine groupEnd_congr fun mid' hless => ?_
          exact ih.2 (by omega) (by omega) _
      case h_5 =>
        refine bind_congr_run rfl fun node mid' hnode => ?_
        have hmid' := local_bracketed.takes hnode
        exact ih.2 (by omega) (by omega) _
      case h_6 => exact hquantifier _
      case h_7 => exact hquantifier _
      case h_8 => exact hquantifier _
      case h_9 =>
        refine bind_congr_run rfl fun bounds mid' hbounds => ?_
        have hmid' := local_repetitionBounds.takes hbounds
        exact hrepeat bounds mid' (by omega) (by omega)
      case h_10 =>
        refine bind_congr_run rfl fun node mid' hnode => ?_
        have hmid' := local_primitive.takes hnode
        exact ih.2 (by omega) (by omega) _

private def Leaves (P : State → Prop) (R : Reading α) : Prop :=
  ∀ st a st', R st = some (a, st') → P st'

private theorem Leaves.bind {P : State → Prop} {R : Reading α} {f : α → Reading β}
    (h : ∀ a, Leaves P (f a)) : Leaves P (R >>= f) := by
  intro st b st' hread
  obtain ⟨a, mid, -, hread⟩ := bind_eq_some.mp hread
  exact h a _ _ _ hread

private def AtStop (st : State) : Prop :=
  st.rest.head? = none ∨ st.rest.head? = some ')' ∨ st.rest.head? = some '|'

private theorem leaves_sequence (fuel : Nat) (items : List Item) :
    Leaves AtStop (sequence fuel items) := by
  induction fuel generalizing items with
  | zero =>
    rintro st a st' ⟨⟩
  | succ fuel ih =>
    refine .bind fun _ st n st' hread => ?_
    rw [bind_of_eq (peek_run _)] at hread
    generalize hhead : st.rest.head? = c at hread
    split at hread
    case h_1 =>
      cases hread
      exact .inl hhead
    case h_2 =>
      cases hread
      exact .inr (.inl hhead)
    case h_3 =>
      cases hread
      exact .inr (.inr hhead)
    case h_4 =>
      refine Leaves.bind (fun _ => .bind fun old => .bind fun opens => ?_) _ _ _ hread
      cases opens with
      | false => exact ih _
      | true => exact .bind fun _ => .bind fun _ => .bind fun _ => .bind fun _ => ih _
    case h_5 => exact Leaves.bind (fun _ => ih _) _ _ _ hread
    case h_6 => exact Leaves.bind (fun _ => .bind fun _ => ih _) _ _ _ hread
    case h_7 => exact Leaves.bind (fun _ => .bind fun _ => ih _) _ _ _ hread
    case h_8 => exact Leaves.bind (fun _ => .bind fun _ => ih _) _ _ _ hread
    case h_9 => exact Leaves.bind (fun _ => .bind fun _ => ih _) _ _ _ hread
    case h_10 => exact Leaves.bind (fun _ => ih _) _ _ _ hread

theorem alternatives_stops {fuel : Nat} {st st' : State} {branches : List Node}
    (h : alternatives fuel st = some (branches, st')) :
    st'.rest = [] ∨ ∃ rest, st'.rest = ')' :: rest := by
  suffices hhead : st'.rest.head? = none ∨ st'.rest.head? = some ')' by
    exact hhead.imp List.head?_eq_none_iff.mp fun hparen => ⟨_, List.eq_cons_of_mem_head? hparen⟩
  induction fuel generalizing st branches with
  | zero => cases h
  | succ fuel ih =>
    obtain ⟨first, mid, hfirst, h⟩ := bind_eq_some.mp h
    obtain ⟨more, mid', hmore, h⟩ := bind_eq_some.mp h
    cases more with
    | true =>
      obtain ⟨_, _, hrest, ⟨⟩⟩ := bind_eq_some.mp h
      exact ih hrest
    | false =>
      cases h
      rw [skipText_run] at hmore
      simp only [Option.some.injEq, Prod.mk.injEq] at hmore
      obtain ⟨hbar, rfl⟩ := hmore
      rw [hbar]
      refine (leaves_sequence fuel [] _ _ _ hfirst).imp_right (Or.resolve_right · fun hhead => ?_)
      rw [List.eq_cons_of_mem_head? hhead] at hbar
      cases hbar

end FieldAuthorization.Pattern
