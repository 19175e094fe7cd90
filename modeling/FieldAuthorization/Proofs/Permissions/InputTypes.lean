import Mathlib.Logic.Relation
import FieldAuthorization.Proofs.Document.Fragments
import FieldAuthorization.Proofs.Permissions.Coherence

/-!
Which input types are shown.

A type that an argument of a permitted field takes is shown, and so are the types that it takes in
turn. Showing stops at a type that is shown already, which is right for a type that was shown as an
input. A type that was passed before, as the condition of a fragment, say, was shown without the
types that it takes. Types of this kind are the only ones whose input fields may be missing.
-/

set_option autoImplicit false
set_option relaxedAutoImplicit false

namespace FieldAuthorization

def Schema.TakesInput (s : Schema) (type other : String) : Prop :=
  ∃ d, s.type? type = some d ∧ d.kind = .inputObject ∧ ∃ input ∈ d.inputs, input.type = other

/-- The number of types of a schema that are not shown. -/
def Schema.hidden (s : Schema) (p : PermissionSet) : Nat :=
  s.types.keys.countP fun type => !p.shows type

namespace PermissionSet

/-- An argument of a permitted field takes a type, itself or through input fields. -/
def Accepts (s : Schema) (p : PermissionSet) (type : String) : Prop :=
  ∃ parent field d, p.permits parent field = true ∧ s.field? parent field = some d ∧
    ∃ argument ∈ d.arguments, Relation.ReflTransGen s.TakesInput argument.type type

variable {s : Schema} {p q r : PermissionSet} {type other : String}

private theorem Accepts.step (h : p.Accepts s type) (hstep : s.TakesInput type other) :
    p.Accepts s other := by
  obtain ⟨parent, field, d, hpermits, hd, argument, hargument, hreach⟩ := h
  exact ⟨parent, field, d, hpermits, hd, argument, hargument, hreach.tail hstep⟩

theorem mem_keys_of_type? {d : TypeDef} (hd : s.type? type = some d) : type ∈ s.types.keys := by
  refine Std.ExtTreeMap.mem_keys.mpr (Std.ExtTreeMap.mem_iff_isSome_getElem?.mpr ?_)
  exact Option.isSome_of_eq_some hd

private theorem mem_keys_of_takesInput (h : s.TakesInput type other) : type ∈ s.types.keys := by
  obtain ⟨d, hd, -⟩ := h
  exact mem_keys_of_type? hd

private theorem hides_of_le (h : p ≤ q) (hq : (!q.shows type) = true) : (!p.shows type) = true := by
  cases hp : p.shows type with
  | false => rfl
  | true => simp [shows_of_le h hp] at hq

theorem hidden_le_size (s : Schema) (p : PermissionSet) : s.hidden p ≤ s.types.size :=
  Std.ExtTreeMap.length_keys (t := s.types) ▸ List.countP_le_length

theorem hidden_mono (h : p ≤ q) : s.hidden q ≤ s.hidden p :=
  List.countP_mono_left fun _ _ => hides_of_le h

theorem hidden_markVisible_lt (hkey : type ∈ s.types.keys) (hnew : p.shows type = false) :
    s.hidden (p.markVisible type).2 < s.hidden p := by
  have hmarked : (p.markVisible type).2.shows type = true :=
    (shows_markVisible p type type).mpr (.inl rfl)
  exact countP_lt hkey (fun _ _ => hides_of_le (le_markVisible p type)) (by simp [hmarked])
    (by simp [hnew])

theorem shows_of_hidden_eq_zero (h : s.hidden p = 0) (hkey : type ∈ s.types.keys) :
    p.shows type = true := by
  simpa using List.countP_eq_zero.mp h type hkey

/-- What the second set shows in addition to the first is shown with the types that it takes. -/
def Completes (s : Schema) (p q : PermissionSet) : Prop :=
  ∀ type other, s.TakesInput type other → q.shows type = true →
    p.shows type = true ∨ q.shows other = true

private theorem Completes.trans (h : Completes s p q) (h' : Completes s q r) (hle : q ≤ r) :
    Completes s p r := by
  intro type other htakes hshown
  rcases h' type other htakes hshown with hq | hr
  · exact (h type other htakes hq).imp_right (shows_of_le hle)
  · exact .inr hr

private theorem completes_markVisible (h : ∀ other, s.TakesInput type other → p.shows type = true) :
    Completes s p (p.markVisible type).2 := by
  intro type' other htakes hshown
  rcases (shows_markVisible p type type').mp hshown with rfl | hp
  · exact .inl (h other htakes)
  · exact .inl hp

private theorem completes_showInputs {depth : Nat}
    (h : ∀ type p, s.hidden p ≤ depth → Completes s p (showInput s depth type p))
    (inputs : List InputDef) (p : PermissionSet) (hdepth : s.hidden p ≤ depth) :
    Completes s p (inputs.foldl (fun p input => showInput s depth input.type p) p) := by
  induction inputs generalizing p with
  | nil => exact fun type other _ hshown => .inl hshown
  | cons input rest ih =>
    have hle : p ≤ showInput s depth input.type p := le_showInput s depth input.type p
    exact (h input.type p hdepth).trans (ih _ (Nat.le_trans (hidden_mono hle) hdepth))
      (le_showInputs s depth rest _)

theorem showInput_succ {d : TypeDef} (hd : s.type? type = some d) (depth : Nat)
    (p : PermissionSet) :
    showInput s (depth + 1) type p =
      if p.shows type = false ∧ d.kind = .inputObject then
        d.inputs.foldl (fun q input => showInput s depth input.type q) (p.markVisible type).2
      else (p.markVisible type).2 := by
  simp [showInput, hd, markVisible]

theorem completes_showInput (depth : Nat) (type : String) (p : PermissionSet)
    (hdepth : s.hidden p ≤ depth) : Completes s p (showInput s depth type p) := by
  -- the depth covers the types that are not shown yet
  induction depth generalizing type p with
  | zero =>
    refine completes_markVisible fun other htakes => ?_
    exact shows_of_hidden_eq_zero (Nat.le_zero.mp hdepth) (mem_keys_of_takesInput htakes)
  | succ depth ih =>
    cases hd : s.type? type with
    | none =>
      simp only [showInput, hd]
      refine completes_markVisible ?_
      rintro other ⟨d, hd', -⟩
      simp [hd] at hd'
    | some d =>
      rw [showInput_succ hd]
      by_cases hopens : p.shows type = false ∧ d.kind = .inputObject
      · rw [if_pos hopens]
        have hfewer : s.hidden (p.markVisible type).2 < s.hidden p :=
          hidden_markVisible_lt (mem_keys_of_type? hd) hopens.1
        have hinputs := completes_showInputs ih d.inputs (p.markVisible type).2 (by omega)
        intro type' other htakes hshown
        rcases hinputs type' other htakes hshown with hmarked | hshown'
        · rcases (shows_markVisible p type type').mp hmarked with rfl | hp
          · obtain ⟨d', hd', -, input, hinput, rfl⟩ := htakes
            obtain rfl : d = d' := Option.some.inj (hd.symm.trans hd')
            exact .inr (shows_showInputs s depth hinput _)
          · exact .inl hp
        · exact .inr hshown'
      · rw [if_neg hopens]
        refine completes_markVisible ?_
        rintro other ⟨d', hd', hkind, -⟩
        obtain rfl : d = d' := Option.some.inj (hd.symm.trans hd')
        simpa [hkind] using hopens

/-- Every type that is shown is shown with the types that it takes, unless it is among those that
were passed. -/
def CompleteBut (s : Schema) (passed : String → Prop) (p : PermissionSet) : Prop :=
  ∀ type other, s.TakesInput type other → p.shows type = true →
    passed type ∨ p.shows other = true

variable {passed : String → Prop}

private theorem completeBut_empty (s : Schema) (passed : String → Prop) :
    CompleteBut s passed .empty := by
  intro type other _ hshown
  simp [shows, empty] at hshown

private theorem CompleteBut.markVisible (h : CompleteBut s passed p) (hpassed : passed type) :
    CompleteBut s passed (p.markVisible type).2 := by
  intro type' other htakes hshown
  rcases (shows_markVisible p type type').mp hshown with rfl | hp
  · exact .inl hpassed
  · exact (h type' other htakes hp).imp_right (shows_of_le (le_markVisible p type))

private theorem CompleteBut.of_completes (h : CompleteBut s passed p) (hcompletes : Completes s p q)
    (hle : p ≤ q) : CompleteBut s passed q := by
  intro type other htakes hshown
  rcases hcompletes type other htakes hshown with hp | hq
  · exact (h type other htakes hp).imp_right (shows_of_le hle)
  · exact .inr hq

private theorem CompleteBut.permitField {rule : FieldDef} (h : CompleteBut s passed p)
    (hpassed : passed rule.type) (parent : String) :
    CompleteBut s passed (p.permitField s parent rule) := by
  have hreturned : CompleteBut s passed ((p.permit parent rule.name).2.markVisible rule.type).2 :=
    CompleteBut.markVisible (p := (p.permit parent rule.name).2) h hpassed
  exact hreturned.of_completes
    (completes_showInputs (completes_showInput s.types.size) rule.arguments _ (hidden_le_size s _))
    (le_showInputs s _ rule.arguments _)

end PermissionSet

private theorem Document.keeps_completeBut {d : Document} {s : Schema} {passed : String → Prop}
    (h : ∀ type, d.Passes s type → passed type) :
    d.Keeps s (PermissionSet.CompleteBut s passed) where
  pass _ _ hpasses hcomplete := hcomplete.markVisible (h _ hpasses)
  permit _ parent _ _ _ hvisits hmeta hrule _ hcomplete :=
    hcomplete.permitField (h _ (.field hvisits hmeta hrule)) parent

namespace Declaration

def Passed (s : Schema) (declarations : List String) (type : String) : Prop :=
  ∃ declaration ∈ declarations, ∃ d, Document.parse declaration = .ok d ∧ d.Passes s type

variable {s : Schema} {client : String} {declarations : List String} {p : PermissionSet}

theorem completeBut_of_compile (h : compile s client declarations = .ok p) :
    p.CompleteBut s (Passed s declarations) :=
  good_of_compile
    (fun declaration hdeclared d hparse => Document.keeps_completeBut fun _ hpasses =>
      ⟨declaration, hdeclared, d, hparse, hpasses⟩)
    (PermissionSet.completeBut_empty s _) h

/-- Compiled permissions show every type that an argument of a permitted field takes, itself or
through input fields, just if they show the types of the input fields of each such type that the
declarations also pass. -/
theorem shows_accepted_iff (h : compile s client declarations = .ok p) :
    (∀ type, p.Accepts s type → p.shows type = true) ↔
      ∀ type other, p.Accepts s type → Passed s declarations type → s.TakesInput type other →
        p.shows other = true := by
  constructor
  · intro hall type other haccepts _ htakes
    exact hall other (haccepts.step htakes)
  · rintro hpassed type ⟨parent, field, d, hpermits, hd, argument, hargument, hreach⟩
    obtain ⟨d', hd', -, -, harguments⟩ := coherent_of_compile h parent field hpermits
    obtain rfl : d = d' := Option.some.inj (hd.symm.trans hd')
    induction hreach with
    | refl => exact harguments argument hargument
    | @tail type other hreach htakes ih =>
      have haccepts : p.Accepts s type :=
        ⟨parent, field, d, hpermits, hd, argument, hargument, hreach⟩
      rcases completeBut_of_compile h type other htakes ih with hpass | hshown
      · exact hpassed type other haccepts hpass htakes
      · exact hshown

section Witness

private def searchSchema : Schema :=
  ⟨.ofList [("Query", ⟨"Query", .object, [⟨"search", "Int", [⟨"filter", "Filter"⟩]⟩], [], [], []⟩),
      ("Filter", ⟨"Filter", .inputObject, [], [⟨"range", "Range"⟩], [], []⟩),
      ("Range", ⟨"Range", .inputObject, [], [⟨"from", "String"⟩], [], []⟩)] compare,
    "Query", none, none⟩

private def argumentFirst : String :=
  "{ search ... on Filter { __typename } }"

private def fragmentFirst : String :=
  "{ ... on Filter { __typename } search }"

private theorem takesInput_searchSchema {type other : String}
    (h : searchSchema.TakesInput type other) :
    (type, other) ∈ [("Filter", "Range"), ("Range", "String")] := by
  obtain ⟨d, hd, hkind, input, hinput, rfl⟩ := h
  have htypes : searchSchema.types.toList =
      [("Filter", ⟨"Filter", .inputObject, [], [⟨"range", "Range"⟩], [], []⟩),
        ("Query", ⟨"Query", .object, [⟨"search", "Int", [⟨"filter", "Filter"⟩]⟩], [], [], []⟩),
        ("Range", ⟨"Range", .inputObject, [], [⟨"from", "String"⟩], [], []⟩)] := by rfl
  have hm := Std.ExtTreeMap.mem_toList_iff_getElem?_eq_some.mpr hd
  rw [htypes] at hm
  simp only [List.mem_cons, Prod.mk.injEq, List.not_mem_nil, or_false] at hm
  rcases hm with ⟨rfl, rfl⟩ | ⟨rfl, rfl⟩ | ⟨rfl, rfl⟩ <;> simp_all

private theorem compile_argumentFirst : compile searchSchema "staff" [argumentFirst] =
    .ok ⟨.ofList [⟨"Query", "search"⟩] compare,
      .ofList ["Query", "Int", "Filter", "Range", "String"] compare⟩ := by
  have hparse : Document.parse argumentFirst = .ok ⟨[.operation ⟨none, ⟨1, 1⟩, ⟨1, 39⟩,
      [.field ⟨⟨1, 3⟩, ⟨1, 3⟩, ⟨1, 3⟩, none, "search", [], []⟩ [],
        .inline ⟨⟨1, 14⟩, ⟨1, 24⟩, ⟨1, 37⟩, some "Filter", []⟩
          [.field ⟨⟨1, 26⟩, ⟨1, 26⟩, ⟨1, 26⟩, none, "__typename", [], []⟩ []]]⟩]⟩ := by cbv
  simp only [compile, List.foldlM_cons, grantText, hparse]
  rfl

private theorem compile_fragmentFirst : compile searchSchema "staff" [fragmentFirst] =
    .ok ⟨.ofList [⟨"Query", "search"⟩] compare, .ofList ["Query", "Int", "Filter"] compare⟩ := by
  have hparse : Document.parse fragmentFirst = .ok ⟨[.operation ⟨none, ⟨1, 1⟩, ⟨1, 39⟩,
      [.inline ⟨⟨1, 7⟩, ⟨1, 17⟩, ⟨1, 30⟩, some "Filter", []⟩
          [.field ⟨⟨1, 19⟩, ⟨1, 19⟩, ⟨1, 19⟩, none, "__typename", [], []⟩ []],
        .field ⟨⟨1, 32⟩, ⟨1, 32⟩, ⟨1, 32⟩, none, "search", [], []⟩ []]⟩]⟩ := by cbv
  simp only [compile, List.foldlM_cons, grantText, hparse]
  rfl

private theorem accepts_range {p : PermissionSet} (h : p.permits "Query" "search" = true) :
    p.Accepts searchSchema "Range" := by
  have htakes : searchSchema.TakesInput "Filter" "Range" :=
    ⟨_, by rfl, rfl, _, List.mem_singleton.mpr rfl, rfl⟩
  exact ⟨"Query", "search", _, h, by rfl, _, List.mem_singleton.mpr rfl, .single htakes⟩

/-- The type is passed, but what it takes has been shown by then. -/
theorem shows_accepted_of_argument_first :
    ∃ p, compile searchSchema "staff" [argumentFirst] = .ok p ∧
      p.Accepts searchSchema "Range" ∧
      ∀ type, p.Accepts searchSchema type → p.shows type = true := by
  refine ⟨_, compile_argumentFirst, accepts_range (by decide),
    (shows_accepted_iff compile_argumentFirst).mpr ?_⟩
  intro type other _ _ htakes
  have hm := takesInput_searchSchema htakes
  simp only [List.mem_cons, Prod.mk.injEq, List.not_mem_nil, or_false] at hm
  rcases hm with ⟨rfl, rfl⟩ | ⟨rfl, rfl⟩ <;> decide

/-- The same selections in another order leave out what the argument's type takes. -/
theorem exists_accepted_not_shown :
    ∃ p, compile searchSchema "staff" [fragmentFirst] = .ok p ∧
      p.Accepts searchSchema "Range" ∧ p.shows "Range" = false :=
  ⟨_, compile_fragmentFirst, accepts_range (by decide), by decide⟩

end Witness

end Declaration

end FieldAuthorization
