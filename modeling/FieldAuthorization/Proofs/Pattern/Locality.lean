import Mathlib.Data.List.Infix
import Mathlib.Data.Option.Basic
import FieldAuthorization.Pattern.Parser

/-!
What stands behind an expression does not change how it is read.

A reader is run on a text and on the same text with a closing behind it, the closing parenthesis and
the end assertion that an anchored pattern ends with.
-/

set_option autoImplicit false
set_option relaxedAutoImplicit false

namespace FieldAuthorization.Pattern

def closing : List Char :=
  [')', '$']

/-- The state with a closing behind the rest of the text. -/
def State.closed (st : State) : State :=
  { st with rest := st.rest ++ closing }

/-- What a reader makes of a text with a closing behind it. It takes `n` characters at least; at the
end of the text it changes no flags. If it stops short of the closing, it has read the text as it
does without the closing, save for results that are `bad`; and whatever it reads without the closing
it reads with it, unless it has come to the end of the text in a comment. If `k` is one it may also
stop just at the end of the text where it would not do so without the closing, or the other way
round. -/
structure LocalBut {α : Type} (bad : α → State → Prop) (n k : Nat) (R : Reading α) : Prop where
  suffix : ∀ {st a st'}, R st = some (a, st') → st'.rest <:+ st.rest
  takes : ∀ {st a st'}, R st = some (a, st') → st'.rest.length + n ≤ st.rest.length
  calm : ∀ {st a st'}, R st = some (a, st') → st.rest = [] → st'.flags = st.flags
  back : ∀ {st a st'}, R st.closed = some (a, st') → st'.rest.length < 2 + k ∨
    ∃ st₀ : State, st' = st₀.closed ∧ (R st = some (a, st₀) ∨ bad a st₀)
  forth : ∀ {st a st'}, R st = some (a, st') → R st.closed = some (a, st'.closed) ∨
    st'.rest = [] ∧ (0 < k ∨ st'.flags.spaced = true)

abbrev Local {α : Type} (n k : Nat) (R : Reading α) : Prop :=
  LocalBut (fun _ _ => False) n k R

variable {α β : Type} {n k m : Nat} {bad : α → State → Prop} {worse : β → State → Prop}
  {R : Reading α} {f : α → Reading β} {st st' : State} {a : α} {b : β}

/-! ### Running readers -/

theorem bind_eq_some :
    (R >>= f) st = some (b, st') ↔ ∃ a mid, R st = some (a, mid) ∧ f a mid = some (b, st') := by
  show (R st).bind (fun p => f p.1 p.2) = _ ↔ _
  cases R st with
  | none => simp
  | some p => exact ⟨fun h => ⟨p.1, p.2, rfl, h⟩, fun ⟨_, _, hp, h⟩ => by cases hp; exact h⟩

theorem bind_of_eq {mid : State} (h : R st = some (a, mid)) : (R >>= f) st = f a mid := by
  show (R st).bind (fun p => f p.1 p.2) = _
  rw [h]
  rfl

theorem get_run (st : State) : (MonadState.get : Reading State) st = some (st, st) :=
  rfl

theorem peek_run (st : State) : peek st = some (st.rest.head?, st) :=
  rfl

theorem next_run (c : Char) (rest : List Char) (flags : Flags) (names : List (List Char)) :
    next ⟨c :: rest, flags, names⟩ = some (c, ⟨rest, flags, names⟩) :=
  rfl

theorem bind_of_none (h : R st = none) : (R >>= f) st = none := by
  show (R st).bind (fun p => f p.1 p.2) = _
  rw [h]
  rfl

@[simp] theorem closed_flags (st : State) : st.closed.flags = st.flags :=
  rfl

@[simp] theorem closed_rest (st : State) : st.closed.rest = st.rest ++ closing :=
  rfl

namespace LocalBut

theorem imp {bad' : α → State → Prop} (h : LocalBut bad n k R)
    (hbad : ∀ a st, bad a st → bad' a st) : LocalBut bad' n k R where
  suffix := h.suffix
  takes := h.takes
  calm := h.calm
  back hb := (h.back hb).imp_right fun ⟨st₀, heq, hR⟩ => ⟨st₀, heq, hR.imp_right (hbad _ _)⟩
  forth := h.forth

theorem but (h : Local n k R) : LocalBut bad n k R :=
  h.imp fun _ _ hbad => hbad.elim

theorem loose (h : LocalBut bad 1 k R) : LocalBut bad 0 k R where
  suffix := h.suffix
  takes hR := Nat.le_of_succ_le (h.takes hR)
  calm := h.calm
  back := h.back
  forth := h.forth

theorem failure : LocalBut bad n k (failure : Reading α) where
  suffix h := by cases h
  takes h := by cases h
  calm h := by cases h
  back h := by cases h
  forth h := by cases h

theorem pure (a : α) : LocalBut bad 0 k (pure a : Reading α) where
  suffix := by
    rintro st _ _ ⟨⟩
    exact List.suffix_refl _
  takes := by
    rintro st _ _ ⟨⟩
    exact Nat.le_refl _
  calm := by
    rintro st _ _ ⟨⟩ _
    rfl
  back := by
    rintro st _ _ ⟨⟩
    exact .inr ⟨st, rfl, .inl rfl⟩
  forth := by
    rintro st _ _ ⟨⟩
    exact .inl rfl

theorem ite {c : Prop} [Decidable c] {S : Reading α} (hR : c → LocalBut bad n k R)
    (hS : ¬ c → LocalBut bad n k S) : LocalBut bad n k (if c then R else S) := by
  split
  · exact hR ‹_›
  · exact hS ‹_›

theorem guard (c : Prop) [Decidable c] : Local 0 k (guard c : Reading Unit) :=
  .ite (fun _ => .pure ()) fun _ => .failure

private theorem bindBut {l j : Nat} (hR : LocalBut bad n l R) (hf : ∀ a, LocalBut worse m j (f a))
    (hweak : l ≤ j + m)
    (hbad : ∀ a st, bad a st → ∀ b st', f a st.closed = some (b, st') →
      ∃ st₀ : State, st' = st₀.closed ∧ worse b st₀) :
    LocalBut worse (n + m) j (R >>= f) where
  suffix h := by
    obtain ⟨a, mid, hfirst, hrest⟩ := bind_eq_some.mp h
    exact ((hf a).suffix hrest).trans (hR.suffix hfirst)
  takes h := by
    obtain ⟨a, mid, hfirst, hrest⟩ := bind_eq_some.mp h
    have h₁ := hR.takes hfirst
    have h₂ := (hf a).takes hrest
    omega
  calm h hend := by
    obtain ⟨a, mid, hfirst, hrest⟩ := bind_eq_some.mp h
    have hmid : mid.rest = [] := List.suffix_nil.mp (hend ▸ hR.suffix hfirst)
    rw [(hf a).calm hrest hmid, hR.calm hfirst hend]
  back h := by
    obtain ⟨a, mid, hfirst, hrest⟩ := bind_eq_some.mp h
    rcases hR.back hfirst with hlt | ⟨st₀, rfl, hread | hbad'⟩
    · have h₂ := (hf a).takes hrest
      exact .inl (by omega)
    · refine ((hf a).back hrest).imp_right ?_
      rintro ⟨st₁, rfl, hread' | hworse⟩
      · exact ⟨st₁, rfl, .inl (bind_eq_some.mpr ⟨a, st₀, hread, hread'⟩)⟩
      · exact ⟨st₁, rfl, .inr hworse⟩
    · obtain ⟨st₁, rfl, hworse⟩ := hbad a st₀ hbad' _ _ hrest
      exact .inr ⟨st₁, rfl, .inr hworse⟩
  forth h := by
    obtain ⟨a, mid, hfirst, hrest⟩ := bind_eq_some.mp h
    rcases hR.forth hfirst with hclosed | ⟨hend, hflags⟩
    · rw [bind_of_eq hclosed]
      exact (hf a).forth hrest
    · have h₂ := (hf a).takes hrest
      rw [hend, List.length_nil] at h₂
      refine .inr ⟨List.length_eq_zero_iff.mp (by omega), ?_⟩
      rw [(hf a).calm hrest hend]
      exact hflags.imp_left fun hl => by omega

theorem bindFrom {l j : Nat} (hR : LocalBut bad n l R) (hf : ∀ a, LocalBut worse 0 j (f a))
    (hweak : l ≤ j)
    (hbad : ∀ a st, bad a st → ∀ b st', f a st.closed = some (b, st') →
      ∃ st₀ : State, st' = st₀.closed ∧ worse b st₀) :
    LocalBut worse n j (R >>= f) :=
  hR.bindBut hf hweak hbad

theorem bind (hR : Local n k R) (hf : ∀ a, LocalBut worse 0 k (f a)) :
    LocalBut worse n k (R >>= f) :=
  hR.bindFrom hf (Nat.le_refl k) fun _ _ h => h.elim

theorem andThen (hR : Local 0 1 R) (hf : ∀ a, LocalBut worse 1 0 (f a)) :
    LocalBut worse 1 0 (R >>= f) :=
  hR.bindBut hf (Nat.le_refl 1) fun _ _ h => h.elim

theorem get {g : State → Reading β} (hg : ∀ st, g st.closed = g st)
    (h : ∀ st, LocalBut worse n k (g st)) : LocalBut worse n k (MonadState.get >>= g) where
  suffix {st _ _} hR := (h st).suffix hR
  takes {st _ _} hR := (h st).takes hR
  calm {st _ _} hR := (h st).calm hR
  back {st b st'} hR := by
    have hR : g st.closed st.closed = some (b, st') := hR
    rw [hg] at hR
    exact (h st).back hR
  forth {st b st'} hR := by
    show g st.closed st.closed = _ ∨ _
    rw [hg]
    exact (h st).forth hR

theorem peek {g : Option Char → Reading β} (hend : g (some ')') = g none)
    (h : ∀ c, LocalBut worse n k (g c)) : LocalBut worse n k (Pattern.peek >>= g) := by
  have hrun : ∀ st : State, g st.closed.rest.head? = g st.rest.head? := by
    rintro ⟨_ | ⟨c, rest⟩, flags, names⟩
    · exact hend
    · rfl
  exact @get _ _ _ _ (fun st => g st.rest.head?) hrun fun st => h _

private theorem peekTaking {g : Option Char → Reading β} (h : ∀ c, LocalBut worse n k (g c))
    (hclosing : LocalBut worse 1 k (g (some ')')))
    (hend : 0 < k ∨ g none = (Alternative.failure : Reading β)) :
    LocalBut worse n k (Pattern.peek >>= g) where
  suffix {st _ _} hR := (h st.rest.head?).suffix hR
  takes {st _ _} hR := (h st.rest.head?).takes hR
  calm {st _ _} hR := (h st.rest.head?).calm hR
  back {st b st'} hR := by
    rcases st with ⟨_ | ⟨c, rest⟩, flags, names⟩
    · have hlt := hclosing.takes (show g (some ')') _ = some (b, st') from hR)
      simp only [closed_rest, closing, List.nil_append, List.length_cons, List.length_nil] at hlt
      exact .inl (by omega)
    · exact (h (some c)).back hR
  forth {st b st'} hR := by
    rcases st with ⟨_ | ⟨c, rest⟩, flags, names⟩
    · have hR : g none _ = some (b, st') := hR
      rcases hend with hk | hnone
      · exact .inr ⟨List.suffix_nil.mp ((h none).suffix hR), .inl hk⟩
      · rw [hnone] at hR
        cases hR
    · exact (h (some c)).forth hR

theorem peekStrict {g : Option Char → Reading β} (h : ∀ c, LocalBut worse 1 k (g c))
    (hend : g none = (Alternative.failure : Reading β)) :
    LocalBut worse 1 k (Pattern.peek >>= g) :=
  .peekTaking h (h _) (.inr hend)

theorem of_map (hrest : ∀ {st a st'}, R st = some (a, st') →
      st'.rest <:+ st.rest ∧ st'.rest.length + n ≤ st.rest.length ∧ st'.flags = st.flags)
    (hclosed : ∀ st, R st.closed = (R st).map (fun p => (p.1, p.2.closed))) :
    LocalBut bad n k R where
  suffix h := (hrest h).1
  takes h := (hrest h).2.1
  calm h _ := (hrest h).2.2
  back h := by
    rw [hclosed] at h
    obtain ⟨p, hp, heq⟩ := Option.map_eq_some_iff.mp h
    cases heq
    exact .inr ⟨p.2, rfl, .inl hp⟩
  forth h := by
    rw [hclosed, h]
    exact .inl rfl

end LocalBut

/-! ### Characters, blanks and runs -/

theorem local_next : Local 1 k next where
  suffix {st a st'} h := by
    rcases st with ⟨_ | ⟨c, rest⟩, flags, names⟩
    · cases h
    · cases h
      exact List.suffix_cons _ _
  takes {st a st'} h := by
    rcases st with ⟨_ | ⟨c, rest⟩, flags, names⟩ <;> cases h
    exact Nat.le_refl _
  calm {st a st'} h hend := by
    rcases st with ⟨_ | ⟨c, rest⟩, flags, names⟩ <;> cases h
    cases hend
  back {st a st'} h := by
    rcases st with ⟨_ | ⟨c, rest⟩, flags, names⟩ <;> cases h
    · exact .inl (by simp only [List.length_singleton]; omega)
    · exact .inr ⟨⟨rest, flags, names⟩, rfl, .inl rfl⟩
  forth {st a st'} h := by
    rcases st with ⟨_ | ⟨c, rest⟩, flags, names⟩ <;> cases h
    exact .inl rfl

theorem skipText_run (s : List Char) (st : State) : skipText s st =
    some (s.isPrefixOf st.rest, { st with
      rest := if s.isPrefixOf st.rest then st.rest.drop s.length else st.rest }) := by
  cases hstarts : s.isPrefixOf st.rest <;> simp [skipText, hstarts]

theorem takes_skipText {s : List Char} (h : skipText s st = some (true, st')) :
    st'.rest.length + s.length = st.rest.length := by
  rw [skipText_run] at h
  simp only [Option.some.injEq, Prod.mk.injEq] at h
  obtain ⟨hstarts, rfl⟩ := h
  have hlength := (List.isPrefixOf_iff_prefix.mp hstarts).length_le
  simp only [hstarts, if_true, List.length_drop]
  omega

theorem isPrefixOf_append_closing {s rest : List Char} (hs : ')' ∉ s) :
    s.isPrefixOf (rest ++ closing) = s.isPrefixOf rest := by
  induction s generalizing rest with
  | nil => rfl
  | cons c s ih =>
    obtain ⟨hc, hs⟩ := not_or.mp (mt List.mem_cons.mpr hs)
    cases rest with
    | nil => simp [closing, List.isPrefixOf, Ne.symm hc]
    | cons d rest => rw [List.cons_append, List.isPrefixOf, List.isPrefixOf, ih hs]

theorem local_skipText {s : List Char} (hs : ')' ∉ s) : Local 0 k (skipText s) := by
  refine .of_map (fun {st a st'} h => ?_) fun st => ?_
  · unfold skipText at h
    split at h <;> cases h
    · exact ⟨List.drop_suffix _ _, by simp, rfl⟩
    · exact ⟨List.suffix_refl _, Nat.le_refl _, rfl⟩
  · unfold skipText
    rw [closed_rest, isPrefixOf_append_closing hs]
    split
    · rename_i hstarts
      have hlength := (List.isPrefixOf_iff_prefix.mp hstarts).length_le
      simp [State.closed, List.drop_append_of_le_length hlength]
    · rfl

def expect (c : Char) : Reading Unit := fun
  | ⟨[], _, _⟩ => none
  | ⟨d :: rest, flags, names⟩ => if d = c then some ((), ⟨rest, flags, names⟩) else none

theorem skipText_guard_eq (c : Char) (R : Reading β) :
    (skipText [c] >>= fun found => guard (found = true) >>= fun _ => R) =
      expect c >>= fun _ => R := by
  funext ⟨rest, flags, names⟩
  cases rest with
  | nil => rfl
  | cons d rest =>
    by_cases hd : d = c
    · subst hd
      have hskip : skipText [d] ⟨d :: rest, flags, names⟩ = some (true, ⟨rest, flags, names⟩) := by
        simp [skipText, List.isPrefixOf]
      have hexpect : expect d ⟨d :: rest, flags, names⟩ = some ((), ⟨rest, flags, names⟩) :=
        if_pos rfl
      rw [bind_of_eq hskip, bind_of_eq hexpect]
      rfl
    · have hskip : skipText [c] ⟨d :: rest, flags, names⟩ =
          some (false, ⟨d :: rest, flags, names⟩) := by
        simp [skipText, List.isPrefixOf, Ne.symm hd]
      have hexpect : expect c ⟨d :: rest, flags, names⟩ = none := if_neg hd
      rw [bind_of_eq hskip, bind_of_none hexpect]
      rfl

theorem expect_eq_some {c : Char} {u : Unit} : expect c st = some (u, st') ↔
    ∃ rest, st = ⟨c :: rest, st.flags, st.names⟩ ∧ st' = ⟨rest, st.flags, st.names⟩ := by
  rcases st with ⟨_ | ⟨d, rest⟩, flags, names⟩
  · simp [expect]
  · by_cases hd : d = c <;> simp [expect, hd, @eq_comm _ st']

theorem expect_closed {c : Char} (hc : c ≠ ')') (st : State) :
    expect c st.closed = (expect c st).map (fun p => (p.1, p.2.closed)) := by
  rcases st with ⟨_ | ⟨d, rest⟩, flags, names⟩
  · exact if_neg (Ne.symm hc)
  · by_cases hd : d = c <;> simp [expect, State.closed, hd]

theorem local_expect {c : Char} (hc : c ≠ ')') : Local 1 k (expect c) := by
  refine .of_map (fun {st a st'} h => ?_) (expect_closed hc)
  obtain ⟨rest, hst, rfl⟩ := expect_eq_some.mp h
  rw [hst]
  exact ⟨List.suffix_cons _ _, Nat.le_refl _, rfl⟩

private theorem dropSpace_suffix (inComment : Bool) (s : List Char) :
    dropSpace inComment s <:+ s := by
  induction s generalizing inComment with
  | nil => exact List.suffix_refl _
  | cons c s ih =>
    unfold dropSpace
    split
    · exact (ih _).trans (List.suffix_cons c s)
    · split
      · exact (ih _).trans (List.suffix_cons c s)
      · split
        · exact (ih _).trans (List.suffix_cons c s)
        · exact List.suffix_refl _

private theorem dropSpace_append_closing (inComment : Bool) (s : List Char) :
    dropSpace inComment (s ++ closing) = dropSpace inComment s ++ closing ∨
      dropSpace inComment s = [] ∧ dropSpace inComment (s ++ closing) = [] := by
  induction s generalizing inComment with
  | nil =>
    cases inComment with
    | false => exact .inl rfl
    | true => exact .inr ⟨rfl, rfl⟩
  | cons c s ih =>
    rw [List.cons_append, dropSpace, dropSpace]
    split
    · exact ih _
    · split
      · exact ih _
      · split
        · exact ih _
        · exact .inl rfl

/-- The text after blanks and comments that have no meaning. -/
def afterSpace (flags : Flags) (s : List Char) : List Char :=
  if flags.spaced then dropSpace false s else s

private theorem afterSpace_suffix (flags : Flags) (s : List Char) : afterSpace flags s <:+ s := by
  unfold afterSpace
  split
  · exact dropSpace_suffix _ _
  · exact List.suffix_refl _

theorem afterSpace_append_closing (flags : Flags) (s : List Char) :
    afterSpace flags (s ++ closing) = afterSpace flags s ++ closing ∨
      afterSpace flags s = [] ∧ afterSpace flags (s ++ closing) = [] ∧ flags.spaced = true := by
  unfold afterSpace
  cases flags.spaced with
  | false => exact .inl rfl
  | true => exact (dropSpace_append_closing false s).imp_right fun ⟨h, h'⟩ => ⟨h, h', rfl⟩

theorem skipSpace_run (st : State) :
    skipSpace st = some ((), { st with rest := afterSpace st.flags st.rest }) := by
  cases hspaced : st.flags.spaced <;> simp [skipSpace, modify, modifyGet, MonadStateOf.modifyGet,
    StateT.modifyGet, afterSpace, hspaced]

theorem local_skipSpace : Local 0 k skipSpace where
  suffix {st a st'} h := by
    rw [skipSpace_run] at h
    cases h
    exact afterSpace_suffix _ _
  takes {st a st'} h := by
    rw [skipSpace_run] at h
    cases h
    exact (afterSpace_suffix _ _).length_le
  calm {st a st'} h _ := by
    rw [skipSpace_run] at h
    cases h
    rfl
  back {st a st'} h := by
    rw [skipSpace_run] at h
    cases h
    rcases afterSpace_append_closing st.flags st.rest with h | ⟨-, h, -⟩
    · exact .inr ⟨_, by simp [State.closed, h], .inl (skipSpace_run st)⟩
    · refine .inl ?_
      simp only [closed_flags, closed_rest, h, List.length_nil]
      omega
  forth {st a st'} h := by
    rw [skipSpace_run] at h
    cases h
    rw [skipSpace_run]
    rcases afterSpace_append_closing st.flags st.rest with h | ⟨h, -, hspaced⟩
    · exact .inl (by simp [State.closed, h])
    · exact .inr ⟨h, .inr hspaced⟩

theorem local_nextSpaced : Local 1 k nextSpaced :=
  local_next.bind fun _ => local_skipSpace.bind fun _ => .pure _

theorem local_notAtEnd : Local 0 1 notAtEnd where
  suffix {st a st'} h := by
    rcases st with ⟨_ | ⟨c, rest⟩, flags, names⟩ <;> cases h
    exact List.suffix_refl _
  takes {st a st'} h := by
    rcases st with ⟨_ | ⟨c, rest⟩, flags, names⟩ <;> cases h
    exact Nat.le_refl _
  calm {st a st'} h hend := by
    rcases st with ⟨_ | ⟨c, rest⟩, flags, names⟩ <;> cases h
    cases hend
  back {st a st'} h := by
    rcases st with ⟨_ | ⟨c, rest⟩, flags, names⟩ <;> cases h
    · exact .inl (Nat.lt_succ_self 2)
    · exact .inr ⟨⟨c :: rest, flags, names⟩, rfl, .inl rfl⟩
  forth {st a st'} h := by
    rcases st with ⟨_ | ⟨c, rest⟩, flags, names⟩ <;> cases h
    exact .inl rfl

theorem takeWhile_append_closing (p : Char → Bool) (s : List Char) :
    s.takeWhile p = s ∨ (s ++ closing).takeWhile p = s.takeWhile p ∧
      (s.takeWhile p).length < s.length := by
  rw [List.takeWhile_append]
  by_cases hall : (s.takeWhile p).length = s.length
  · exact .inl ((List.takeWhile_prefix p).eq_of_length hall)
  · rw [if_neg hall]
    exact .inr ⟨rfl, Nat.lt_of_le_of_ne (List.takeWhile_prefix p).length_le hall⟩

/-- A reader that is given a bound by the length of the rest of the text. -/
def measured (bound : Nat → Nat) (L : Nat → Reading α) : Reading α := fun st =>
  L (bound st.rest.length) st

/-- A greater bound does as well. -/
def Ample (bound : Nat → Nat) (L : Nat → Reading α) : Prop :=
  ∀ st n m, bound st.rest.length ≤ n → bound st.rest.length ≤ m → L n st = L m st

namespace LocalBut

variable {bound : Nat → Nat} {L : Nat → Reading α}

theorem measured (hL : ∀ m, LocalBut bad n k (L m)) (hample : Ample bound L)
    (hmono : ∀ l, bound l ≤ bound (l + 2)) : LocalBut bad n k (measured bound L) := by
  have hclosed : ∀ st : State,
      Pattern.measured bound L st = L (bound st.closed.rest.length) st := by
    intro st
    refine hample st _ _ (Nat.le_refl _) ?_
    simpa [closing] using hmono st.rest.length
  refine ⟨(hL _).suffix, (hL _).takes, (hL _).calm, fun {st a st'} h => ?_, fun {st a st'} h => ?_⟩
  · rw [hclosed]
    exact (hL _).back h
  · rw [hclosed] at h
    exact (hL _).forth h

theorem measured_bind (bound : Nat → Nat) {g : α → Reading β}
    (hL : Local n k (Pattern.measured bound L)) (hg : ∀ a, LocalBut worse 0 k (g a)) :
    LocalBut worse n k (MonadState.get >>= fun st => L (bound st.rest.length) >>= g) :=
  hL.bind hg

end LocalBut

theorem takeWhile_append_closing_of_not {p : Char → Bool} (hp : p ')' = false) (s : List Char) :
    (s ++ closing).takeWhile p = s.takeWhile p := by
  rw [List.takeWhile_append]
  split
  · rename_i hall
    rw [(List.takeWhile_prefix p).eq_of_length hall]
    simp [closing, hp]
  · rfl

theorem bind_congr_run {S : Reading α} {g : α → Reading β} (hRS : R st = S st)
    (h : ∀ a mid, R st = some (a, mid) → f a mid = g a mid) : (R >>= f) st = (S >>= g) st := by
  cases hR : R st with
  | none => rw [bind_of_none hR, bind_of_none (hRS ▸ hR)]
  | some p => rw [bind_of_eq hR, bind_of_eq (hRS ▸ hR), h p.1 p.2 hR]

theorem get_bind_congr {f g : State → Reading β} (h : ∀ old, f old st = g old st) :
    (MonadState.get >>= f) st = (MonadState.get >>= g) st :=
  h st

theorem peek_bind_congr {f g : Option Char → Reading β} (h : ∀ c, f c st = g c st) :
    (peek >>= f) st = (peek >>= g) st :=
  h _

theorem Ample.of_step {L : Nat → Reading α} (hend : ∀ n st, st.rest = [] → L n st = L 0 st)
    (hstep : ∀ n m st, (∀ mid : State, mid.rest.length < st.rest.length → L n mid = L m mid) →
      L (n + 1) st = L (m + 1) st) : Ample id L := by
  intro st n m hn hm
  simp only [id] at hn hm
  induction n generalizing m st with
  | zero =>
    have hnil : st.rest = [] := List.length_eq_zero_iff.mp (Nat.le_zero.mp hn)
    exact (hend m st hnil).symm
  | succ n ih =>
    cases m with
    | zero => exact hend _ st (List.length_eq_zero_iff.mp (Nat.le_zero.mp hm))
    | succ m => exact hstep n m st fun mid hless => ih mid m (by omega) (by omega)

private theorem ample_takeSpaced (p : Char → Bool) : Ample id (takeSpaced p) := by
  refine .of_step (fun n st hend => ?_) fun n m st ih => peek_bind_congr fun c => ?_
  · obtain ⟨_ | ⟨c, rest⟩, flags, names⟩ := st <;> cases hend
    cases n <;> rfl
  · split
    · refine bind_congr_run rfl fun c mid hnext => ?_
      exact bind_congr_run (ih mid ((@local_nextSpaced 0).takes hnext)) fun _ _ _ => rfl
    · rfl

private theorem local_takeSpaced {p : Char → Bool} (hp : p ')' = false) (m : Nat) :
    Local 0 k (takeSpaced p m) := by
  induction m with
  | zero => exact .pure []
  | succ m ih =>
    refine .peek (by simp [hp]) fun c => .ite (fun _ => ?_) fun _ => .pure []
    exact local_nextSpaced.loose.bind fun c => ih.bind fun rest => .pure _

private theorem local_takeSpaced_weak (p : Char → Bool) (m : Nat) : Local 0 1 (takeSpaced p m) := by
  induction m with
  | zero => exact .pure []
  | succ m ih =>
    have hmore : Local 1 1 (nextSpaced >>= fun c => takeSpaced p m >>= fun rest =>
        Pure.pure (c :: rest)) :=
      local_nextSpaced.bind fun c => ih.bind fun rest => .pure _
    cases hp : p ')' with
    | false => exact local_takeSpaced hp (m + 1)
    | true =>
      refine .peekTaking (fun c => .ite (fun _ => hmore.loose) fun _ => .pure []) ?_
        (.inl Nat.one_pos)
      simpa [hp] using hmore

theorem local_takeWhileSpaced {p : Char → Bool} (hp : p ')' = false) :
    Local 0 k (takeWhileSpaced p) :=
  .measured (local_takeSpaced hp) (ample_takeSpaced p) fun _ => Nat.le_add_right _ _

private theorem local_takeWhileSpaced_weak (p : Char → Bool) : Local 0 1 (takeWhileSpaced p) :=
  .measured (local_takeSpaced_weak p) (ample_takeSpaced p) fun _ => Nat.le_add_right _ _

/-! ### Escapes -/

private theorem local_hexDigits (m : Nat) : Local 0 k (hexDigits m) := by
  induction m with
  | zero => exact .pure []
  | succ m ih =>
    exact local_nextSpaced.loose.bind fun c => (LocalBut.guard _).bind fun _ =>
      ih.bind fun rest => .pure _

private theorem local_hexEscape (width : Nat) : Local 0 0 (hexEscape width) := by
  refine local_skipSpace.bind fun _ => (local_skipText (by decide)).bind fun _ => .ite
    (fun _ => ?braced) fun _ => ?plain
  case braced =>
    refine local_skipSpace.bind fun _ => (local_takeWhileSpaced (by decide)).bind fun digits => ?_
    rw [skipText_guard_eq]
    refine (local_expect (by decide)).loose.bind fun _ => local_skipSpace.bind fun _ => ?_
    split
    · exact .pure _
    · exact .failure
  case plain =>
    refine (local_hexDigits width).bind fun digits => ?_
    split
    · exact .pure _
    · exact .failure

private theorem local_propertyClass : Local 0 0 propertyClass := by
  refine local_skipSpace.bind fun _ => (local_skipText (by decide)).bind fun _ => .ite
    (fun _ => ?braced) fun _ => ?plain
  case braced =>
    refine local_skipSpace.bind fun _ => .loose ?_
    refine (local_takeWhileSpaced_weak _).andThen fun name => ?_
    rw [skipText_guard_eq]
    refine (local_expect (by decide)).bind fun _ => ?_
    split
    · exact .pure _
    · exact .failure
  case plain =>
    refine local_nextSpaced.loose.bind fun c => (LocalBut.guard _).bind fun _ => ?_
    split
    · exact .pure _
    · exact .failure

/-- After an opening brace nothing comes but blanks and comments. -/
def Stuck (st : State) : Prop :=
  ∃ rest, st.rest = '\x7b' :: rest ∧ afterSpace st.flags rest = []

private def isKindChar (c : Char) : Bool :=
  c.isAlpha || c == '-'

private def kindName (wide : Bool) : Reading Assertion := do
  let kind ← takeWhileSpaced isKindChar
  guard (← skipText ['\x7d'])
  match String.ofList kind with
  | "start" => return .wordStart wide
  | "end" => return .wordEnd wide
  | "start-half" => return .wordStartHalf wide
  | "end-half" => return .wordEndHalf wide
  | _ => failure

private theorem local_kindName (wide : Bool) : Local 1 0 (kindName wide) := by
  refine (local_takeWhileSpaced_weak _).andThen fun kind => ?_
  rw [skipText_guard_eq]
  refine (local_expect (by decide)).bind fun _ => ?_
  split
  case h_5 => exact .failure
  all_goals exact .pure _

private theorem boundaryKind_brace (wide : Bool) (rest : List Char) (flags : Flags)
    (names : List (List Char)) : boundaryKind wide ⟨'\x7b' :: rest, flags, names⟩ =
      match afterSpace flags rest with
      | [] => none
      | c :: s =>
        if isKindChar c then kindName wide ⟨c :: s, flags, names⟩
        else some (.boundary wide, ⟨'\x7b' :: rest, flags, names⟩) := by
  have hskip : skipText ['\x7b'] ⟨'\x7b' :: rest, flags, names⟩ =
      some (true, ⟨rest, flags, names⟩) := rfl
  rw [boundaryKind, bind_of_eq (get_run _), bind_of_eq hskip, if_pos rfl,
    bind_of_eq (skipSpace_run _)]
  dsimp only
  generalize afterSpace flags rest = inside
  cases inside with
  | nil => rfl
  | cons c s =>
    have hmore : notAtEnd ⟨c :: s, flags, names⟩ = some ((), ⟨c :: s, flags, names⟩) := rfl
    have hany : Option.any (fun c => c.isAlpha || c == '-') (some c) = isKindChar c := rfl
    rw [bind_of_eq hmore, bind_of_eq (peek_run _)]
    simp only [List.head?_cons, hany]
    cases isKindChar c <;> rfl

private theorem boundaryKind_eq_some {wide : Bool} {a : Assertion} :
    boundaryKind wide st = some (a, st') ↔
      st.rest.head? ≠ some '\x7b' ∧ a = .boundary wide ∧ st' = st ∨
      ∃ rest c s, st.rest = '\x7b' :: rest ∧ afterSpace st.flags rest = c :: s ∧
        (isKindChar c = false ∧ a = .boundary wide ∧ st' = st ∨
          isKindChar c = true ∧ kindName wide ⟨c :: s, st.flags, st.names⟩ = some (a, st')) := by
  obtain ⟨text, flags, names⟩ := st
  by_cases hbrace : text.head? = some '\x7b'
  · obtain ⟨rest, rfl⟩ : ∃ rest, text = '\x7b' :: rest := by
      cases text with
      | nil => cases hbrace
      | cons c rest => exact ⟨rest, by simpa using hbrace⟩
    rw [boundaryKind_brace]
    cases hinside : afterSpace flags rest with
    | nil => simp [hinside]
    | cons c s =>
      simp only [List.head?_cons, ne_eq, not_true_eq_false, false_and, false_or, List.cons.injEq,
        true_and, exists_and_left, exists_eq_left', hinside]
      cases hkind : isKindChar c <;> simp [hkind, @eq_comm _ a, @eq_comm _ st']
  · have hrun : boundaryKind wide ⟨text, flags, names⟩ =
        some (.boundary wide, ⟨text, flags, names⟩) := by
      cases text with
      | nil => rfl
      | cons c rest =>
        have hc : c ≠ '\x7b' := by simpa using hbrace
        have hskip : skipText ['\x7b'] ⟨c :: rest, flags, names⟩ =
            some (false, ⟨c :: rest, flags, names⟩) := by
          simp [skipText, List.isPrefixOf, Ne.symm hc]
        rw [boundaryKind, bind_of_eq (get_run _), bind_of_eq hskip]
        rfl
    rw [hrun]
    constructor
    · rintro ⟨⟩
      exact .inl ⟨hbrace, rfl, rfl⟩
    · rintro (⟨-, rfl, rfl⟩ | ⟨rest, c, s, rfl, -⟩)
      · rfl
      · exact absurd rfl hbrace

private theorem local_boundaryKind (wide : Bool) :
    LocalBut (fun _ st => Stuck st) 0 0 (boundaryKind wide) := by
  have hinside {st : State} {rest s : List Char} {c : Char} (hrest : st.rest = '\x7b' :: rest)
      (h : afterSpace st.flags rest = c :: s) : c :: s <:+ st.rest := by
    rw [hrest, ← h]
    exact (afterSpace_suffix _ _).trans (List.suffix_cons _ _)
  refine ⟨fun {st a st'} h => ?suffix, fun {st a st'} h => ?takes, fun {st a st'} h hend => ?calm,
    fun {st a st'} h => ?back, fun {st a st'} h => ?forth⟩
  case suffix =>
    obtain ⟨-, -, rfl⟩ | ⟨rest, c, s, hrest, hc, ⟨-, -, rfl⟩ | ⟨-, hname⟩⟩ :=
      boundaryKind_eq_some.mp h
    · exact List.suffix_refl _
    · exact List.suffix_refl _
    · exact ((local_kindName wide).suffix hname).trans (hinside hrest hc)
  case takes =>
    obtain ⟨-, -, rfl⟩ | ⟨rest, c, s, hrest, hc, ⟨-, -, rfl⟩ | ⟨-, hname⟩⟩ :=
      boundaryKind_eq_some.mp h
    · exact Nat.le_refl _
    · exact Nat.le_refl _
    · exact ((local_kindName wide).loose.takes hname).trans (hinside hrest hc).length_le
  case calm =>
    obtain ⟨-, -, rfl⟩ | ⟨rest, c, s, hrest, -⟩ := boundaryKind_eq_some.mp h
    · rfl
    · rw [hend] at hrest
      cases hrest
  case back =>
    obtain ⟨hhead, rfl, rfl⟩ | ⟨r, c, s, hr, hc, hmore⟩ := boundaryKind_eq_some.mp h
    · refine .inr ⟨st, rfl, .inl (boundaryKind_eq_some.mpr (.inl ⟨?_, rfl, rfl⟩))⟩
      rcases st with ⟨_ | ⟨c, rest⟩, flags, names⟩
      · simp
      · exact hhead
    · obtain ⟨rest, hrest, rfl⟩ : ∃ rest, st.rest = '\x7b' :: rest ∧ r = rest ++ closing := by
        rcases st with ⟨_ | ⟨d, rest⟩, flags, names⟩
        · cases hr
        · simp only [closed_rest, List.cons_append, List.cons.injEq] at hr
          exact ⟨rest, by rw [hr.1], hr.2.symm⟩
      rcases afterSpace_append_closing st.flags rest with happ | ⟨-, happ, -⟩
      · rw [closed_flags, happ] at hc
        cases hin : afterSpace st.flags rest with
        | nil =>
          rw [hin] at hc
          cases hc
          obtain ⟨-, rfl, rfl⟩ | ⟨hkind, -⟩ := hmore
          · exact .inr ⟨st, rfl, .inr ⟨rest, hrest, hin⟩⟩
          · cases hkind
        | cons d t =>
          rw [hin] at hc
          cases hc
          obtain ⟨hkind, rfl, rfl⟩ | ⟨hkind, hname⟩ := hmore
          · exact .inr ⟨st, rfl, .inl (boundaryKind_eq_some.mpr
              (.inr ⟨rest, _, t, hrest, hin, .inl ⟨hkind, rfl, rfl⟩⟩))⟩
          · refine (@(local_kindName wide).back ⟨_ :: t, st.flags, st.names⟩ _ _ hname).imp_right ?_
            rintro ⟨st₀, rfl, hread | hbad⟩
            · exact ⟨st₀, rfl, .inl (boundaryKind_eq_some.mpr
                (.inr ⟨rest, _, t, hrest, hin, .inr ⟨hkind, hread⟩⟩))⟩
            · exact hbad.elim
      · rw [closed_flags, happ] at hc
        cases hc
  case forth =>
    obtain ⟨hhead, rfl, rfl⟩ | ⟨rest, c, s, hrest, hc, hmore⟩ := boundaryKind_eq_some.mp h
    · refine .inl (boundaryKind_eq_some.mpr (.inl ⟨?_, rfl, rfl⟩))
      rcases st' with ⟨_ | ⟨c, rest⟩, flags, names⟩
      · simp [closing]
      · exact hhead
    · have happ : afterSpace st.flags (rest ++ closing) = c :: (s ++ closing) := by
        rcases afterSpace_append_closing st.flags rest with happ | ⟨hnone, -⟩
        · rw [happ, hc, List.cons_append]
        · rw [hnone] at hc
          cases hc
      have hbrace : st.closed.rest = '\x7b' :: (rest ++ closing) := by rw [closed_rest, hrest]; rfl
      obtain ⟨hkind, rfl, rfl⟩ | ⟨hkind, hname⟩ := hmore
      · exact .inl (boundaryKind_eq_some.mpr
          (.inr ⟨_, _, _, hbrace, happ, .inl ⟨hkind, rfl, rfl⟩⟩))
      · refine ((local_kindName wide).forth hname).imp_left fun hclosed => ?_
        exact boundaryKind_eq_some.mpr (.inr ⟨_, _, _, hbrace, happ, .inr ⟨hkind, hclosed⟩⟩)

private theorem local_hexByte : Local 0 0 escape.hexByte := by
  refine local_skipSpace.bind fun _ => .peek rfl fun c => ?_
  exact (local_hexEscape 2).bind fun _ => .pure _

private theorem local_checkByte (flags : Flags) (x : Char × Bool) :
    Local 0 0 (escape.checkByte flags x) :=
  (LocalBut.guard _).bind fun _ => .pure _

theorem local_escape :
    LocalBut (fun e st => (∃ a, e = .assertion a) ∧ Stuck st) 1 0 escape := by
  refine local_next.bind fun _ => .get (fun _ => rfl) fun st => local_next.loose.bind fun c => ?_
  split
  · exact (LocalBut.guard _).bind fun _ => .pure _
  · split
    case h_1 =>
      exact local_hexByte.bind fun x => (local_checkByte _ x).bind fun _ => .pure _
    case h_2 => exact (local_hexEscape 4).bind fun _ => .pure _
    case h_3 => exact (local_hexEscape 8).bind fun _ => .pure _
    case h_4 =>
      exact (LocalBut.guard _).bind fun _ => local_propertyClass.bind fun _ => .pure _
    case h_5 =>
      exact (LocalBut.guard _).bind fun _ => local_propertyClass.bind fun _ => .pure _
    case h_14 =>
      refine (local_boundaryKind _).bindFrom (fun _ => .pure _) (Nat.le_refl 0) ?_
      rintro a st hstuck b st' ⟨⟩
      exact ⟨st, rfl, ⟨a, rfl⟩, hstuck⟩
    case h_18 => exact (LocalBut.guard _).bind fun _ => .pure _
    all_goals exact .pure _

end FieldAuthorization.Pattern
