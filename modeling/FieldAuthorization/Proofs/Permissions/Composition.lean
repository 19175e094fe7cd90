import FieldAuthorization.Proofs.Permissions.Effects

/-!
Declarations compiled together and one by one.

Whether a declaration is faulty, and which fields it permits, does not depend on the declarations
before it, so neither order nor repetition matters to these. What it shows may be less than it shows
on its own: an input type that an earlier declaration has passed is not followed into its input
fields. Nothing is lost just if the types of these input fields are shown in another way.
-/

set_option autoImplicit false
set_option relaxedAutoImplicit false

namespace FieldAuthorization.Declaration

/-- The union of what the declarations of a client grant, each compiled on its own. -/
def compileApart (s : Schema) (client : String) (declarations : List String) :
    Except DeclarationError PermissionSet :=
  (declarations.mapM fun declaration => compile s client [declaration]).map fun sets =>
    sets.foldl PermissionSet.merge .empty

variable {s : Schema} {client : String} {declarations others : List String}
  {p q apart : PermissionSet} {effects : String → List Effect} {type : String}

private theorem performs_of_foldlM (h : declarations.foldlM (grantText s) p = .ok q) :
    ∀ declaration ∈ declarations, ∃ effects, Performs s declaration effects := by
  induction declarations generalizing p with
  | nil => simp
  | cons first rest ih =>
    obtain ⟨between, hfirst, hlater⟩ := exists_of_foldlM_cons h
    have hperforms : ∃ effects, Performs s first effects := by
      rcases performs_or_faulty s first with hperforms | ⟨fault, hfault⟩
      · exact hperforms
      · rw [hfault] at hfirst
        cases hfirst
    exact List.forall_mem_cons.mpr ⟨hperforms, ih hlater⟩

private theorem exists_performs_of_compile (h : compile s client declarations = .ok p) :
    ∃ effects : String → List Effect,
      ∀ declaration ∈ declarations, Performs s declaration (effects declaration) := by
  have heach := performs_of_foldlM (foldlM_of_compile h)
  choose! effects heffects using heach
  exact ⟨effects, heffects⟩

private theorem foldlM_of_performs
    (h : ∀ declaration ∈ declarations, Performs s declaration (effects declaration)) :
    declarations.foldlM (grantText s) p = .ok (p.applyAll s (declarations.flatMap effects)) := by
  induction declarations generalizing p with
  | nil => rfl
  | cons first rest ih =>
    obtain ⟨hfirst, hrest⟩ := List.forall_mem_cons.mp h
    rw [List.foldlM_cons, hfirst p, List.flatMap_cons, PermissionSet.applyAll_append]
    exact ih hrest

private theorem compile_of_performs
    (h : ∀ declaration ∈ declarations, Performs s declaration (effects declaration)) :
    compile s client declarations =
      .ok (PermissionSet.empty.applyAll s (declarations.flatMap effects)) := by
  rw [compile, foldlM_of_performs h]
  rfl

def unionOf (s : Schema) (effects : String → List Effect) (declarations : List String) :
    PermissionSet :=
  declarations.foldl
    (fun p declaration => p.merge (PermissionSet.empty.applyAll s (effects declaration))) .empty

private theorem compileApart_of_performs
    (h : ∀ declaration ∈ declarations, Performs s declaration (effects declaration)) :
    compileApart s client declarations = .ok (unionOf s effects declarations) := by
  have hsets : (declarations.mapM fun declaration => compile s client [declaration]) =
      .ok (declarations.map fun declaration =>
        PermissionSet.empty.applyAll s (effects declaration)) := by
    induction declarations with
    | nil => rfl
    | cons first rest ih =>
      obtain ⟨hfirst, hrest⟩ := List.forall_mem_cons.mp h
      have halone : compile s client [first] =
          .ok (PermissionSet.empty.applyAll s (effects first)) := by
        have hsingle : ∀ declaration ∈ [first], Performs s declaration (effects declaration) := by
          simpa using hfirst
        simpa using @compile_of_performs _ client _ _ hsingle
      rw [List.mapM_cons, halone, ih hrest]
      rfl
  rw [compileApart, hsets]
  exact congrArg Except.ok List.foldl_map

private theorem permits_unionOf (s : Schema) (effects : String → List Effect)
    (declarations : List String) (parent field : String) :
    (unionOf s effects declarations).permits parent field = true ↔
      ∃ declaration ∈ declarations, .permit parent field ∈ effects declaration := by
  rw [unionOf, PermissionSet.foldl_merge _ (·.permits parent field)
    fun p q => PermissionSet.permits_merge p q parent field]
  have hempty : PermissionSet.empty.permits parent field = false := by
    simp [PermissionSet.empty, PermissionSet.permits]
  simp [hempty, PermissionSet.permits_applyAll]

private theorem shows_unionOf (s : Schema) (effects : String → List Effect)
    (declarations : List String) (type : String) :
    (unionOf s effects declarations).shows type = true ↔
      ∃ declaration ∈ declarations, PermissionSet.ShownBy s (effects declaration) type := by
  rw [unionOf, PermissionSet.foldl_merge _ (·.shows type)
    fun p q => PermissionSet.shows_merge p q type]
  have hempty : PermissionSet.empty.shows type = false := by
    simp [PermissionSet.empty, PermissionSet.shows]
  simp [hempty, PermissionSet.shows_applyAll_iff]

private theorem exists_of_flatMap_eq {e : Effect} {before after : List Effect}
    (h : declarations.flatMap effects = before ++ e :: after) :
    ∃ declaration ∈ declarations, ∃ earlier later,
      effects declaration = earlier ++ e :: later ∧ earlier ⊆ before := by
  induction declarations generalizing before with
  | nil => simp at h
  | cons first rest ih =>
    rw [List.flatMap_cons, List.append_eq_append_iff] at h
    rcases h with ⟨between, rfl, hrest⟩ | ⟨between, hfirst, hrest⟩
    · obtain ⟨declaration, hm, earlier, later, hsplit, hsub⟩ := ih hrest
      have hsub' : earlier ⊆ effects first ++ between := fun x hx =>
        List.mem_append_right _ (hsub hx)
      exact ⟨declaration, List.mem_cons_of_mem first hm, earlier, later, hsplit, hsub'⟩
    · cases between with
      | nil =>
        obtain ⟨declaration, hm, earlier, later, hsplit, hsub⟩ := @ih [] hrest.symm
        have hnil : earlier = [] := List.subset_nil.mp hsub
        subst hnil
        exact ⟨declaration, List.mem_cons_of_mem first hm, [], later, hsplit, by simp⟩
      | cons x more =>
        obtain ⟨rfl, -⟩ := List.cons_eq_cons.mp hrest
        exact ⟨first, List.mem_cons_self, before, more, hfirst, List.Subset.refl _⟩

private theorem shownBy_of_flatMap
    (h : PermissionSet.ShownBy s (declarations.flatMap effects) type) :
    ∃ declaration ∈ declarations, PermissionSet.ShownBy s (effects declaration) type := by
  rcases h with hpass | ⟨before, start, after, hsplit, hpath⟩
  · obtain ⟨declaration, hm, hpass⟩ := List.mem_flatMap.mp hpass
    exact ⟨declaration, hm, .inl hpass⟩
  · obtain ⟨declaration, hm, earlier, later, heffects, hsub⟩ := exists_of_flatMap_eq hsplit
    exact ⟨declaration, hm, .inr ⟨earlier, start, later, heffects, hpath.mono fun _ hx => hsub hx⟩⟩

section Apart

variable (h : compile s client declarations = .ok p)
  (heffects : ∀ declaration ∈ declarations, Performs s declaration (effects declaration))

include h heffects

private theorem eq_applyAll_of_compile :
    p = PermissionSet.empty.applyAll s (declarations.flatMap effects) :=
  Except.ok.inj (h.symm.trans (compile_of_performs heffects))

private theorem permits_iff_unionOf (parent field : String) : p.permits parent field = true ↔
    (unionOf s effects declarations).permits parent field = true := by
  rw [eq_applyAll_of_compile h heffects, PermissionSet.permits_applyAll, permits_unionOf,
    List.mem_flatMap]
  simp [PermissionSet.empty, PermissionSet.permits]

private theorem rules_eq_unionOf : p.rules = (unionOf s effects declarations).rules :=
  Std.ExtTreeSet.ext_mem fun rule => permits_iff_unionOf h heffects rule.parent rule.field

private theorem le_unionOf : p ≤ unionOf s effects declarations := by
  refine ⟨fun parent field => (permits_iff_unionOf h heffects parent field).mp, ?_⟩
  intro type hshown
  rw [eq_applyAll_of_compile h heffects, PermissionSet.shows_applyAll_iff] at hshown
  exact (shows_unionOf s effects declarations type).mpr (shownBy_of_flatMap hshown)

private theorem shows_of_unionOf
    (hpassed : ∀ type other, Passed s declarations type → s.TakesInput type other →
      (unionOf s effects declarations).shows other = true → p.shows other = true)
    (hshown : (unionOf s effects declarations).shows type = true) : p.shows type = true := by
  have htogether := eq_applyAll_of_compile h heffects
  obtain ⟨declaration, hm, hshownBy⟩ := (shows_unionOf s effects declarations type).mp hshown
  rcases hshownBy with hpass | ⟨before, start, after, hsplit, hpath⟩
  · rw [htogether, PermissionSet.shows_applyAll_iff]
    exact .inl (List.mem_flatMap.mpr ⟨declaration, hm, hpass⟩)
  · clear hshown
    induction hpath with
    | refl =>
      have htake : Effect.take start ∈ declarations.flatMap effects :=
        List.mem_flatMap.mpr ⟨declaration, hm, by simp [hsplit]⟩
      obtain ⟨earlier, later, hall⟩ := List.append_of_mem htake
      rw [htogether, PermissionSet.shows_applyAll_iff]
      exact .inr ⟨earlier, start, later, hall, .refl⟩
    | @tail x y hpath hstep ih =>
      have hy : (unionOf s effects declarations).shows y = true :=
        (shows_unionOf s effects declarations y).mpr
          ⟨declaration, hm, .inr ⟨before, start, after, hsplit, hpath.tail hstep⟩⟩
      have htakes : s.TakesInput x y := hstep.2
      rcases completeBut_of_compile h x y htakes ih with hpass | hshown
      · exact hpassed x y hpass htakes hy
      · exact hshown

private theorem eq_unionOf_iff :
    p = unionOf s effects declarations ↔ ∀ type other, Passed s declarations type →
      s.TakesInput type other → (unionOf s effects declarations).shows other = true →
      p.shows other = true := by
  constructor
  · intro heq type other _ _ hshown
    rw [heq]
    exact hshown
  · intro hpassed
    refine le_antisymm (le_unionOf h heffects) ⟨?_, ?_⟩
    · intro parent field
      exact (permits_iff_unionOf h heffects parent field).mpr
    · intro type
      exact shows_of_unionOf h heffects hpassed

end Apart

private theorem unionOf_congr (hsame : ∀ x, x ∈ declarations ↔ x ∈ others) :
    unionOf s effects declarations = unionOf s effects others := by
  have hle {l l' : List String} (hsub : l ⊆ l') : unionOf s effects l ≤ unionOf s effects l' := by
    constructor
    · intro parent field hpermits
      obtain ⟨x, hx, heffect⟩ := (permits_unionOf s effects l parent field).mp hpermits
      exact (permits_unionOf s effects l' parent field).mpr ⟨x, hsub hx, heffect⟩
    · intro type hshown
      obtain ⟨x, hx, heffect⟩ := (shows_unionOf s effects l type).mp hshown
      exact (shows_unionOf s effects l' type).mpr ⟨x, hsub hx, heffect⟩
  exact le_antisymm (hle fun x => (hsame x).mp) (hle fun x => (hsame x).mpr)

private theorem exists_compile_of_same (hsame : ∀ x, x ∈ declarations ↔ x ∈ others)
    (h : ∃ p, compile s client declarations = .ok p) : ∃ q, compile s client others = .ok q := by
  obtain ⟨p, hp⟩ := h
  obtain ⟨effects, heffects⟩ := exists_performs_of_compile hp
  exact ⟨_, compile_of_performs fun x hx => heffects x ((hsame x).mpr hx)⟩

/-- Two lists of the same declarations, in whatever order and however often each is repeated, both
compile or both are faulty. What they compile to permits what the declarations permit apart, and
shows nothing that they do not show apart. Both compile to the union of what the declarations
compile to apart just if both show all that the union shows of the types that passed types take. -/
theorem compile_composes_iff (s : Schema) (client : String) {declarations others : List String}
    (hsame : ∀ x, x ∈ declarations ↔ x ∈ others) :
    ((∃ p, compile s client declarations = .ok p) ↔ ∃ q, compile s client others = .ok q) ∧
    ∀ p q, compile s client declarations = .ok p → compile s client others = .ok q →
      ∃ apart, compileApart s client declarations = .ok apart ∧
        compileApart s client others = .ok apart ∧
        p.rules = apart.rules ∧ q.rules = apart.rules ∧ p ≤ apart ∧ q ≤ apart ∧
        ((p = q ∧ p = apart) ↔ ∀ type other, Passed s declarations type →
          s.TakesInput type other → apart.shows other = true →
          p.shows other = true ∧ q.shows other = true) := by
  have hpassedSame : ∀ type, Passed s declarations type ↔ Passed s others type := by
    intro type
    simp only [Passed, hsame]
  refine ⟨⟨exists_compile_of_same hsame, exists_compile_of_same fun x => (hsame x).symm⟩, ?_⟩
  intro p q hp hq
  obtain ⟨effects, heffects⟩ := exists_performs_of_compile hp
  have heffects' : ∀ x ∈ others, Performs s x (effects x) := fun x hx =>
    heffects x ((hsame x).mpr hx)
  have hunion : unionOf s effects others = unionOf s effects declarations :=
    (unionOf_congr hsame).symm
  have hqrules := rules_eq_unionOf hq heffects'
  have hqle := le_unionOf hq heffects'
  have hqiff := eq_unionOf_iff hq heffects'
  have hpiff := eq_unionOf_iff hp heffects
  rw [hunion] at hqrules hqle hqiff
  refine ⟨unionOf s effects declarations, compileApart_of_performs heffects,
    hunion ▸ compileApart_of_performs heffects', rules_eq_unionOf hp heffects, hqrules,
    le_unionOf hp heffects, hqle, ?_⟩
  constructor
  · rintro ⟨rfl, hpapart⟩ type other hpassed htakes hshown
    have hpshown := hpiff.mp hpapart type other hpassed htakes hshown
    exact ⟨hpshown, hpshown⟩
  · intro hall
    have hpapart := hpiff.mpr fun type other hpassed htakes hshown =>
      (hall type other hpassed htakes hshown).1
    have hqapart := hqiff.mpr fun type other hpassed htakes hshown =>
      (hall type other ((hpassedSame type).mpr hpassed) htakes hshown).2
    exact ⟨hpapart.trans hqapart.symm, hpapart⟩

section Witness

private def keySchema : Schema :=
  ⟨.ofList [("Query", ⟨"Query", .object, [⟨"find", "Int", [⟨"by", "Key"⟩]⟩], [], [], []⟩),
      ("Key", ⟨"Key", .inputObject, [], [⟨"span", "Span"⟩], [], []⟩),
      ("Span", ⟨"Span", .inputObject, [], [⟨"to", "ID"⟩], [], []⟩)] compare,
    "Query", none, none⟩

private def takingText : String :=
  "{find}"

private def passingText : String :=
  "{...on Key{__typename}}"

private theorem takesInput_keySchema {type other : String}
    (h : keySchema.TakesInput type other) : (type, other) ∈ [("Key", "Span"), ("Span", "ID")] := by
  obtain ⟨d, hd, hkind, input, hinput, rfl⟩ := h
  have htypes : keySchema.types.toList =
      [("Key", ⟨"Key", .inputObject, [], [⟨"span", "Span"⟩], [], []⟩),
        ("Query", ⟨"Query", .object, [⟨"find", "Int", [⟨"by", "Key"⟩]⟩], [], [], []⟩),
        ("Span", ⟨"Span", .inputObject, [], [⟨"to", "ID"⟩], [], []⟩)] := by rfl
  have hm := Std.ExtTreeMap.mem_toList_iff_getElem?_eq_some.mpr hd
  rw [htypes] at hm
  simp only [List.mem_cons, Prod.mk.injEq, List.not_mem_nil, or_false] at hm
  rcases hm with ⟨rfl, rfl⟩ | ⟨rfl, rfl⟩ | ⟨rfl, rfl⟩ <;> simp_all

private theorem parse_takingText : Document.parse takingText = .ok
  ⟨[.operation ⟨none, ⟨1, 1⟩, ⟨1, 6⟩,
    [.field ⟨⟨1, 2⟩, ⟨1, 2⟩, ⟨1, 2⟩, none, "find", [], []⟩ []]⟩]⟩ := by
  cbv

private theorem parse_passingText : Document.parse passingText = .ok
  ⟨[.operation ⟨none, ⟨1, 1⟩, ⟨1, 23⟩,
    [.inline ⟨⟨1, 5⟩, ⟨1, 11⟩, ⟨1, 22⟩, some "Key", []⟩
      [.field ⟨⟨1, 12⟩, ⟨1, 12⟩, ⟨1, 12⟩, none, "__typename", [], []⟩ []]]⟩]⟩ := by
  cbv

private def wholePermissions : PermissionSet :=
  ⟨.ofList [⟨"Query", "find"⟩] compare, .ofList ["Query", "Int", "Key", "Span", "ID"] compare⟩

private theorem compile_takingFirst :
    compile keySchema "staff" [takingText, passingText] = .ok wholePermissions := by
  simp only [compile, List.foldlM_cons, grantText, parse_takingText, parse_passingText]
  rfl

private theorem compile_takingTwice :
    compile keySchema "staff" [takingText, passingText, takingText] = .ok wholePermissions := by
  simp only [compile, List.foldlM_cons, grantText, parse_takingText, parse_passingText]
  rfl

private theorem compile_passingFirst : compile keySchema "staff" [passingText, takingText] =
    .ok ⟨.ofList [⟨"Query", "find"⟩] compare, .ofList ["Query", "Int", "Key"] compare⟩ := by
  simp only [compile, List.foldlM_cons, grantText, parse_takingText, parse_passingText]
  rfl

/-- The type is passed, but what it takes has been shown by then. -/
theorem compile_composes_of_taking_first :
    (∀ x, x ∈ [takingText, passingText] ↔ x ∈ [takingText, passingText, takingText]) ∧
    compile keySchema "staff" [takingText, passingText] = .ok wholePermissions ∧
    compile keySchema "staff" [takingText, passingText, takingText] = .ok wholePermissions ∧
    compileApart keySchema "staff" [takingText, passingText] = .ok wholePermissions := by
  have hsame : ∀ x, x ∈ [takingText, passingText] ↔ x ∈ [takingText, passingText, takingText] := by
    intro x
    simp only [List.mem_cons, List.not_mem_nil, or_false]
    tauto
  obtain ⟨-, hboth⟩ := compile_composes_iff keySchema "staff" hsame
  obtain ⟨apart, hapart, -, -, -, -, -, hiff⟩ :=
    hboth _ _ compile_takingFirst compile_takingTwice
  have hwhole : wholePermissions = apart := by
    refine (hiff.mpr ?_).2
    intro type other _ htakes _
    have hm := takesInput_keySchema htakes
    simp only [List.mem_cons, Prod.mk.injEq, List.not_mem_nil, or_false] at hm
    rcases hm with ⟨rfl, rfl⟩ | ⟨rfl, rfl⟩ <;> decide
  exact ⟨hsame, compile_takingFirst, compile_takingTwice, hwhole ▸ hapart⟩

/-- In one order the declarations compile to less than in the other. -/
theorem exists_compile_ne :
    ∃ p q, compile keySchema "staff" [passingText, takingText] = .ok p ∧
      compile keySchema "staff" [takingText, passingText] = .ok q ∧ p ≠ q ∧
      p.shows "Span" = false ∧ q.shows "Span" = true := by
  refine ⟨_, _, compile_passingFirst, compile_takingFirst, ?_, by decide, by decide⟩
  intro heq
  have hspan := congrArg (fun p : PermissionSet => p.shows "Span") heq
  exact absurd hspan (by decide)

end Witness

end FieldAuthorization.Declaration
