import FieldAuthorization.Proofs.Pattern.Locality

/-!
Classes in brackets are read as they are whatever stands behind them.

A class comes to its end before anything that stands behind the pattern, since a text that ends
inside brackets is refused, and a closing there would be taken into the class.
-/

set_option autoImplicit false
set_option relaxedAutoImplicit false

namespace FieldAuthorization.Pattern

variable {α β : Type} {n k m : Nat}

private theorem not_mem_of_ofAsciiName? {name : List Char} {a : CharClass}
    (h : CharClass.ofAsciiName? (String.ofList name) = some a) : ')' ∉ name := by
  unfold CharClass.ofAsciiName? at h
  split at h
  case h_15 => cases h
  all_goals
    rename_i heq
    have hname : (String.ofList name).toList = name := by simp
    rw [← hname, heq]
    decide

private def namedClass? (inside : List Char) : Option (CharClass × List Char) :=
  (CharClass.ofAsciiName? (String.ofList (inside.takeWhile (· != ':')))).bind fun a =>
    behindColon a (inside.drop (inside.takeWhile (· != ':')).length)
where
  behindColon (a : CharClass) (left : List Char) : Option (CharClass × List Char) :=
    if [':', ']'].isPrefixOf left then some (a, left.drop 2) else none

private theorem namedClass?_suffix {inside left : List Char} {a : CharClass}
    (h : namedClass? inside = some (a, left)) : left <:+ inside := by
  obtain ⟨b, -, h⟩ := Option.bind_eq_some_iff.mp h
  obtain ⟨-, h⟩ := Option.ite_none_right_eq_some.mp h
  cases h
  exact (List.drop_suffix _ _).trans (List.drop_suffix _ _)

private theorem namedClass?_append_closing (inside : List Char) :
    namedClass? (inside ++ closing) =
      (namedClass? inside).map fun (a, left) => (a, left ++ closing) := by
  unfold namedClass?
  rcases takeWhile_append_closing (· != ':') inside with hall | ⟨hsame, hlt⟩
  · have hclosed : (inside ++ closing).takeWhile (· != ':') = inside ++ closing := by
      rw [List.takeWhile_append, hall, if_pos rfl]
      rfl
    have hnone : CharClass.ofAsciiName? (String.ofList (inside ++ closing)) = none := by
      rw [Option.eq_none_iff_forall_ne_some]
      exact fun a ha => not_mem_of_ofAsciiName? ha (by simp [closing])
    rw [hall, hclosed, hnone, List.drop_length, List.drop_length]
    cases CharClass.ofAsciiName? (String.ofList inside) <;> rfl
  · rw [hsame, List.drop_append_of_le_length (Nat.le_of_lt hlt)]
    cases CharClass.ofAsciiName? (String.ofList (inside.takeWhile (· != ':'))) with
    | none => rfl
    | some a =>
      rw [Option.bind_some, Option.bind_some, namedClass?.behindColon, namedClass?.behindColon,
        isPrefixOf_append_closing (by decide)]
      split
      · rename_i hstarts
        have hlength : 2 ≤ _ := (List.isPrefixOf_iff_prefix.mp hstarts).length_le
        rw [List.drop_append_of_le_length hlength]
        rfl
      · rfl

private def afterCaret (rest : List Char) : List Char :=
  if ['^'].isPrefixOf rest then rest.drop 1 else rest

private theorem afterCaret_append_closing (rest : List Char) :
    afterCaret (rest ++ closing) = afterCaret rest ++ closing := by
  unfold afterCaret
  rw [isPrefixOf_append_closing (by decide)]
  cases rest with
  | nil => rfl
  | cons c rest =>
    split <;> rfl

private theorem afterCaret_suffix (rest : List Char) : afterCaret rest <:+ rest := by
  unfold afterCaret
  split
  · exact List.drop_suffix _ _
  · exact List.suffix_refl _

private theorem asciiClass?_none {st : State} (h : ['[', ':'].isPrefixOf st.rest = false) :
    asciiClass? st = some (none, st) := by
  rw [asciiClass?, bind_of_eq (get_run _), bind_of_eq (skipText_run _ _), h]
  rfl

private theorem asciiClass?_run (rest : List Char) (flags : Flags) (names : List (List Char)) :
    asciiClass? ⟨'[' :: ':' :: rest, flags, names⟩ =
      match namedClass? (afterCaret rest) with
      | some (a, left) => some (some (CharClass.negateIf (['^'].isPrefixOf rest)
          (if flags.ignoreCase then CharClass.ignoringCase flags.wide a else a)),
          ⟨left, flags, names⟩)
      | none => some (none, ⟨'[' :: ':' :: rest, flags, names⟩) := by
  have hskip : skipText ['[', ':'] ⟨'[' :: ':' :: rest, flags, names⟩ =
      some (true, ⟨rest, flags, names⟩) := rfl
  have hcaret : skipText ['^'] ⟨rest, flags, names⟩ =
      some (['^'].isPrefixOf rest, ⟨afterCaret rest, flags, names⟩) := skipText_run _ _
  rw [asciiClass?, bind_of_eq (get_run _), bind_of_eq hskip, if_pos rfl, bind_of_eq hcaret,
    bind_of_eq (get_run _), namedClass?]
  generalize afterCaret rest = inside
  dsimp only
  cases CharClass.ofAsciiName? (String.ofList (inside.takeWhile (· != ':'))) with
  | none => rfl
  | some a =>
    generalize inside.drop (inside.takeWhile (· != ':')).length = left
    have hcolon : skipText [':', ']'] ⟨left, flags, names⟩ = some ([':', ']'].isPrefixOf left,
        ⟨if [':', ']'].isPrefixOf left then left.drop 2 else left, flags, names⟩) :=
      skipText_run _ _
    have hset : (set (⟨left, flags, names⟩ : State) : Reading Unit)
        ⟨inside, flags, names⟩ = some ((), ⟨left, flags, names⟩) := rfl
    dsimp only
    rw [bind_of_eq hset, bind_of_eq hcolon, Option.bind_some, namedClass?.behindColon]
    cases [':', ']'].isPrefixOf left <;> rfl

private theorem local_asciiClass? : Local 0 k asciiClass? := by
  have hcases : ∀ st : State, (∃ rest, st.rest = '[' :: ':' :: rest) ∨
      (asciiClass? st = some (none, st) ∧ asciiClass? st.closed = some (none, st.closed)) := by
    intro st
    cases hstarts : ['[', ':'].isPrefixOf st.rest with
    | true =>
      obtain ⟨rest, hrest⟩ := List.isPrefixOf_iff_prefix.mp hstarts
      exact .inl ⟨rest, hrest.symm⟩
    | false =>
      refine .inr ⟨asciiClass?_none hstarts, asciiClass?_none ?_⟩
      rw [closed_rest, isPrefixOf_append_closing (by decide), hstarts]
  refine .of_map (fun {st a st'} h => ?_) fun st => ?_
  · rcases hcases st with ⟨rest, hrest⟩ | ⟨hnone, -⟩
    · obtain ⟨text, flags, names⟩ := st
      subst hrest
      rw [asciiClass?_run] at h
      split at h
      · rename_i left hclass
        cases h
        have hsuffix : left <:+ rest := (namedClass?_suffix hclass).trans (afterCaret_suffix rest)
        have hall : left <:+ '[' :: ':' :: rest :=
          hsuffix.trans ((List.suffix_cons _ _).trans (List.suffix_cons _ _))
        exact ⟨hall, hall.length_le, rfl⟩
      · cases h
        exact ⟨List.suffix_refl _, Nat.le_refl _, rfl⟩
    · rw [hnone] at h
      cases h
      exact ⟨List.suffix_refl _, Nat.le_refl _, rfl⟩
  · rcases hcases st with ⟨rest, hrest⟩ | ⟨hnone, hclosed⟩
    · obtain ⟨text, flags, names⟩ := st
      subst hrest
      have hrun := asciiClass?_run (rest ++ closing) flags names
      rw [afterCaret_append_closing, namedClass?_append_closing,
        isPrefixOf_append_closing (by decide)] at hrun
      refine hrun.trans ?_
      rw [asciiClass?_run]
      cases namedClass? (afterCaret rest) <;> rfl
    · rw [hnone, hclosed]
      rfl

private theorem local_classAtom : LocalBut (fun e _ => ∃ a, e = .assertion a) 1 0 classAtom := by
  refine .peek rfl fun c => .ite (fun _ => ?_) fun _ => ?_
  · exact local_escape.imp fun _ _ h => h.1
  · exact local_next.bind fun _ => .pure _

private theorem local_classChar (flags : Flags) (x : Escape) : Local 0 k (classChar flags x) := by
  cases x with
  | char c => exact (LocalBut.guard _).bind fun _ => .pure _
  | set _ | assertion _ => exact .failure

private theorem local_classOperator? : Local 0 k classOperator? := by
  refine (local_skipText (by decide)).bind fun _ => .ite (fun _ => .pure _) fun _ => ?_
  refine (local_skipText (by decide)).bind fun _ => .ite (fun _ => .pure _) fun _ => ?_
  exact (local_skipText (by decide)).bind fun _ => .ite (fun _ => .pure _) fun _ => .pure _

private theorem ample_leadingHyphens : Ample id leadingHyphens := by
  refine .of_step (fun n st hend => ?_) fun n m st ih => peek_bind_congr fun c => ?_
  · obtain ⟨_ | ⟨c, rest⟩, flags, names⟩ := st <;> cases hend
    cases n <;> rfl
  · split
    · refine bind_congr_run rfl fun c mid hnext => bind_congr_run rfl fun _ mid' hmore => ?_
      have hless := (@local_nextSpaced 0).takes hnext
      have hsame := local_notAtEnd.takes hmore
      exact bind_congr_run (ih mid' (by omega)) fun _ _ _ => rfl
    · rfl

private theorem local_leadingHyphens (m : Nat) : Local 0 1 (leadingHyphens m) := by
  induction m with
  | zero => exact .pure []
  | succ m ih =>
    refine .peek rfl fun c => .ite (fun _ => ?_) fun _ => .pure []
    exact local_nextSpaced.loose.bind fun _ => local_notAtEnd.bind fun _ => ih.bind fun _ => .pure _

private theorem local_classOpening : Local 0 1 classOpening := by
  refine local_skipSpace.bind fun _ => local_notAtEnd.bind fun _ => ?_
  refine (local_skipText (by decide)).bind fun negated => ?_
  refine local_skipSpace.bind fun _ => local_notAtEnd.bind fun _ => ?_
  have hhyphens : Local 0 1 (measured id leadingHyphens) :=
    .measured local_leadingHyphens ample_leadingHyphens fun _ => Nat.le_add_right _ _
  refine .measured_bind id hhyphens fun hyphens => .peek (by simp) fun c => .ite (fun _ => ?_)
    fun _ => .pure _
  exact local_nextSpaced.loose.bind fun _ => local_notAtEnd.bind fun _ => .pure _

private def standsAlone (st : State) : Bool :=
  st.rest.head? != some '-' || (afterSpace st.flags (st.rest.drop 1)).head? == some ']' ||
    (afterSpace st.flags (st.rest.drop 1)).head? == some '-'

private def rangeTail (flags : Flags) (first : Escape) : Reading ClassNode := do
  skipSpace
  notAtEnd
  if standsAlone (← get) then
    match first with
    | .set a => return ⟨a, 0⟩
    | x => return ⟨CharClass.single (← classChar flags x), 0⟩
  else
    let _ ← nextSpaced
    notAtEnd
    let last ← classAtom
    let first ← classChar flags first
    let last ← classChar flags last
    guard (first ≤ last)
    return ⟨CharClass.range first last, 0⟩

private theorem classRange_eq :
    classRange = MonadState.get >>= fun st => classAtom >>= rangeTail st.flags :=
  rfl

private theorem standsAlone_closed (st : State) : standsAlone st.closed = standsAlone st := by
  obtain ⟨_ | ⟨c, rest⟩, flags, names⟩ := st
  · rfl
  · have hdrop : State.rest (State.closed ⟨c :: rest, flags, names⟩) = c :: (rest ++ closing) := rfl
    simp only [standsAlone, hdrop, closed_flags, List.drop_one, List.tail_cons, List.head?_cons]
    rcases afterSpace_append_closing flags rest with h | ⟨h, h', -⟩
    · rw [h]
      cases afterSpace flags rest with
      | nil => rfl
      | cons d s => rfl
    · rw [h, h']

private theorem rangeTail_assertion {flags : Flags} {a : Assertion} {st : State} :
    rangeTail flags (.assertion a) st = none := by
  rw [Option.eq_none_iff_forall_ne_some]
  rintro ⟨b, st'⟩ h
  obtain ⟨-, mid, -, h⟩ := bind_eq_some.mp h
  obtain ⟨-, mid, -, h⟩ := bind_eq_some.mp h
  obtain ⟨alone, mid, -, h⟩ := bind_eq_some.mp h
  split at h
  · obtain ⟨n, mid, h, -⟩ := bind_eq_some.mp h
    cases h
  · obtain ⟨-, mid, -, h⟩ := bind_eq_some.mp h
    obtain ⟨-, mid, -, h⟩ := bind_eq_some.mp h
    obtain ⟨last, mid, -, h⟩ := bind_eq_some.mp h
    obtain ⟨n, mid, h, -⟩ := bind_eq_some.mp h
    cases h

private theorem local_rangeTail (flags : Flags) (first : Escape) :
    Local 0 1 (rangeTail flags first) := by
  refine local_skipSpace.bind fun _ => local_notAtEnd.bind fun _ => .get (fun st => ?_) fun st =>
    .ite (fun _ => ?alone) fun _ => ?range
  · rw [standsAlone_closed]
  case alone =>
    split
    · exact .pure _
    · exact (local_classChar _ _).bind fun _ => .pure _
  case range =>
    have hlast : ∀ last, Local 0 1 (classChar flags first >>= fun first =>
        classChar flags last >>= fun last => guard (first ≤ last) >>= fun _ =>
          Pure.pure (⟨CharClass.range first last, 0⟩ : ClassNode)) := fun last =>
      (local_classChar _ _).bind fun _ => (local_classChar _ _).bind fun _ =>
        (LocalBut.guard _).bind fun _ => .pure _
    refine local_nextSpaced.loose.bind fun _ => local_notAtEnd.bind fun _ => .loose ?_
    refine local_classAtom.bindFrom hlast (Nat.zero_le _) ?_
    rintro _ st ⟨a, rfl⟩ b st' h
    obtain ⟨n, mid, -, h⟩ := bind_eq_some.mp h
    obtain ⟨n, mid, h, -⟩ := bind_eq_some.mp h
    cases h

private theorem local_classRange : Local 1 1 classRange := by
  rw [classRange_eq]
  refine .get (fun _ => rfl) fun st => ?_
  refine local_classAtom.bindFrom (local_rangeTail st.flags) (Nat.zero_le _) ?_
  rintro _ st ⟨a, rfl⟩ b st' h
  rw [rangeTail_assertion] at h
  cases h

private theorem takes_asciiClass? {st st' : State} {a : CharClass}
    (h : asciiClass? st = some (some a, st')) : st'.rest.length < st.rest.length := by
  obtain ⟨text, flags, names⟩ := st
  cases hstarts : ['[', ':'].isPrefixOf text with
  | true =>
    obtain ⟨rest, rfl⟩ := List.isPrefixOf_iff_prefix.mp hstarts
    rw [List.cons_append, List.cons_append, List.nil_append, asciiClass?_run] at h
    split at h
    · rename_i left hclass
      cases h
      have hleft := ((namedClass?_suffix hclass).trans (afterCaret_suffix rest)).length_le
      simp only [List.length_append, List.length_cons, List.length_nil]
      omega
    · cases h
  | false =>
    rw [asciiClass?_none hstarts] at h
    cases h

private theorem takes_classOperator? {st st' : State} {operator : ClassOperator}
    (h : classOperator? st = some (some operator, st')) : st'.rest.length < st.rest.length := by
  -- each mark either is there and is passed over, or nothing is
  have hmark : ∀ {s : List Char} {x : ClassOperator} {R : Reading (Option ClassOperator)}
      {st : State}, s ≠ [] →
      (∀ mid, R mid = some (some operator, st') → st'.rest.length < mid.rest.length) →
      (skipText s >>= fun found => if found = true then return some x else R) st =
        some (some operator, st') → st'.rest.length < st.rest.length := by
    intro s x R st hs hR h
    obtain ⟨found, mid, hskip, h⟩ := bind_eq_some.mp h
    cases found with
    | true =>
      cases h
      have hless := takes_skipText hskip
      have hpos := List.length_pos_of_ne_nil hs
      omega
    | false =>
      have hmid : mid = st := by
        rw [skipText_run] at hskip
        simp only [Option.some.injEq, Prod.mk.injEq] at hskip
        rw [← hskip.2, hskip.1]
        rfl
      exact hmid ▸ hR mid h
  refine hmark (by decide) (fun _ h => ?_) h
  refine hmark (by decide) (fun _ h => ?_) h
  refine hmark (by decide) (fun _ h => ?_) h
  cases h

private theorem local_classBody (fuel : Nat) (nested : Bool) (items : List ClassNode)
    (pending : Option (ClassNode × ClassOperator)) :
    Local 1 0 (classBody fuel nested items pending) := by
  induction fuel generalizing nested items pending with
  | zero => exact .failure
  | succ fuel ih =>
    refine local_skipSpace.andThen fun _ => .get (fun _ => rfl) fun st =>
      .peekStrict (fun c => ?_) rfl
    split
    case h_1 => exact .failure
    case h_2 =>
      refine local_asciiClass?.andThen fun x => ?_
      split
      · exact ih _ _ _
      · refine local_next.bind fun _ => .loose (local_classOpening.andThen fun x => ?_)
        exact (ih _ _ _).bind fun inner => (ih _ _ _).loose
    case h_3 => exact local_next.bind fun _ => .pure _
    case h_4 =>
      refine local_classOperator?.andThen fun x => ?_
      split
      · exact ih _ _ _
      · exact local_classRange.loose.andThen fun item => ih _ _ _

private theorem classBody_congr {n m : Nat} {st : State} (hn : st.rest.length < n)
    (hm : st.rest.length < m) (nested : Bool) (items : List ClassNode)
    (pending : Option (ClassNode × ClassOperator)) :
    classBody n nested items pending st = classBody m nested items pending st := by
  induction n generalizing m st nested items pending with
  | zero => exact absurd hn (Nat.not_lt_zero _)
  | succ n ih =>
    obtain ⟨m, rfl⟩ := Nat.exists_eq_succ_of_ne_zero (Nat.ne_zero_of_lt hm)
    refine bind_congr_run rfl fun _ mid hspace => get_bind_congr fun old =>
      peek_bind_congr fun c => ?_
    have hmid := (@local_skipSpace 0).takes hspace
    split
    case h_1 => rfl
    case h_2 =>
      refine bind_congr_run rfl fun x mid' hclass => ?_
      split
      · have hless := takes_asciiClass? hclass
        exact ih (by omega) (by omega) _ _ _
      · refine bind_congr_run rfl fun _ opened hopen => bind_congr_run rfl fun x begun hbegin => ?_
        have hless := (@local_asciiClass? 0).takes hclass
        have hopened := (@local_next 0).takes hopen
        have hbegun := local_classOpening.takes hbegin
        refine bind_congr_run (ih (by omega) (by omega) _ _ _) fun inner closed hinner => ?_
        have hclosed := (local_classBody _ _ _ _).takes hinner
        exact ih (by omega) (by omega) _ _ _
    case h_3 => rfl
    case h_4 =>
      refine bind_congr_run rfl fun x mid' hoperator => ?_
      split
      · have hless := takes_classOperator? hoperator
        exact ih (by omega) (by omega) _ _ _
      · refine bind_congr_run rfl fun item mid'' hitem => ?_
        have hless := (@local_classOperator? 0).takes hoperator
        have hitem := local_classRange.takes hitem
        exact ih (by omega) (by omega) _ _ _

theorem local_bracketed : Local 1 0 bracketed := by
  have hbody : ∀ opening : List ClassNode, Local 1 0
      (measured (2 * · + 2) (fun fuel => classBody fuel false opening.reverse none)) := by
    intro opening
    refine .measured (fun fuel => local_classBody _ _ _ _) (fun st n m hn hm => ?_) fun l => ?_
    · exact classBody_congr (by omega) (by omega) _ _ _
    · omega
  refine .get (fun _ => rfl) fun st => local_next.bind fun _ => .loose ?_
  refine local_classOpening.andThen fun x => ?_
  refine .measured_bind (2 * · + 2) (hbody x.2) fun inner => ?_
  exact (LocalBut.guard _).bind fun _ => .pure _

end FieldAuthorization.Pattern
