import Mathlib.Data.List.Forall2
import FieldAuthorization.Proofs.Permissions.Inlining

/-!
What the compilation of declarations depends on.

It depends on the operations and on the fragments that they spread outside introspection, without
what is below fields of introspection. Whatever else a document holds grants nothing and is never
found wrong.
-/

set_option autoImplicit false
set_option relaxedAutoImplicit false

namespace FieldAuthorization

mutual

/-- The selection without what is below fields of introspection. -/
def Selection.bare : Selection → Selection
  | .field head items => .field head (if isMeta head.name then [] else Selection.bareAll items)
  | .spread head => .spread head
  | .inline head items => .inline head (Selection.bareAll items)

def Selection.bareAll : List Selection → List Selection
  | [] => []
  | item :: rest => item.bare :: Selection.bareAll rest

end

def Operation.bare (o : Operation) : Operation :=
  { o with items := Selection.bareAll o.items }

def Fragment.bare (f : Fragment) : Fragment :=
  { f with items := Selection.bareAll f.items }

namespace Document

/-- An operation spreads the name outside introspection, or the fragment of such a name does. -/
inductive Inlines (d : Document) : String → Prop
  | operation {o : Operation} {trail : List Enclosure} {head : Spread} :
      o ∈ d.operations → Occurs o.items trail (.spread head) → Exposed trail →
      Inlines d head.name
  | fragment {name : String} {f : Fragment} {trail : List Enclosure} {head : Spread} :
      Inlines d name → d.fragment? name = some f → Occurs f.items trail (.spread head) →
      Exposed trail → Inlines d head.name

/-- The documents differ at most in fragments that the operations of the first do not inline and
below fields of introspection. -/
structure Alike (d e : Document) : Prop where
  operations : List.Forall₂ (fun o o' => o.bare = o'.bare) d.operations e.operations
  fragments : ∀ name, d.Inlines name →
    (d.fragment? name).map Fragment.bare = (e.fragment? name).map Fragment.bare

end Document

namespace Declaration

variable {s : Schema} {d e : Document}

private theorem walkSelections_bareAll_of_forall {spread spread' : String → Step} {parent : String}
    {items : List Selection}
    (h : ∀ y ∈ items, walkSelection s spread parent y.bare = walkSelection s spread' parent y) :
    walkSelections s spread parent (Selection.bareAll items) =
      walkSelections s spread' parent items := by
  funext w
  induction items generalizing w with
  | nil => rfl
  | cons y rest ih =>
    obtain ⟨hy, hrest⟩ := List.forall_mem_cons.mp h
    rw [Selection.bareAll, walkSelections, walkSelections, hy]
    simp only [ih hrest]

private theorem walkSelection_bare {spread spread' : String → Step} {x : Selection}
    (h : EachSpread (fun name => spread name = spread' name) [x]) (parent : String) :
    walkSelection s spread parent x.bare = walkSelection s spread' parent x := by
  induction x generalizing parent with
  | field head items ih =>
    funext w
    rw [Selection.bare, walkSelection, walkSelection]
    cases hmeta : isMeta head.name with
    | true => rfl
    | false =>
      have hitems (type : String) : walkSelections s spread type (Selection.bareAll items) =
          walkSelections s spread' type items :=
        walkSelections_bareAll_of_forall fun y hy => ih y hy (h.of_field hmeta hy) type
      simp only [Bool.false_eq_true, if_false, hitems]
  | spread head =>
    funext w
    rw [Selection.bare, walkSelection, walkSelection, h.of_spread]
  | inline head items ih =>
    have hitems (type : String) : walkSelections s spread type (Selection.bareAll items) =
        walkSelections s spread' type items :=
      walkSelections_bareAll_of_forall fun y hy => ih y hy (h.of_inline hy) type
    funext w
    rw [Selection.bare, walkSelection, walkSelection]
    simp only [hitems]

private theorem walkSelections_congr {spread spread' : String → Step}
    {items items' : List Selection} (hbare : Selection.bareAll items = Selection.bareAll items')
    (h : EachSpread (fun name => spread name = spread' name) items) (parent : String) :
    walkSelections s spread parent items = walkSelections s spread' parent items' := by
  have hsame : walkSelections s spread' parent (Selection.bareAll items') =
      walkSelections s spread' parent items' :=
    walkSelections_bareAll_of_forall fun y _ => walkSelection_bare (fun _ _ _ _ => rfl) parent
  have hitems : walkSelections s spread' parent (Selection.bareAll items) =
      walkSelections s spread parent items :=
    walkSelections_bareAll_of_forall fun y hy => walkSelection_bare
      (fun trail head hoccurs hexposed => (h.of_mem hy trail head hoccurs hexposed).symm) parent
  rw [← hsame, ← hbare, hitems]

private theorem walkFragment_congr (h : d.Alike e) {depth depth' : Nat} {inProgress : List String}
    {name : String} (hname : d.Inlines name)
    (hdepth : unseen inProgress.contains d.fragments ≤ depth)
    (hdepth' : unseen inProgress.contains e.fragments ≤ depth') :
    walkFragment s d depth inProgress name = walkFragment s e depth' inProgress name := by
  induction depth using Nat.strongRecOn generalizing depth' inProgress name with
  | ind depth ih =>
  funext w
  have hfragment := (h.fragments name hname).symm
  cases hf : d.fragment? name with
  | none =>
    have hg : e.fragment? name = none := by simpa [hf] using hfragment
    rw [walkFragment_of_unknown hf, walkFragment_of_unknown hg]
  | some f =>
    obtain ⟨g, hg, hbare⟩ : ∃ g, e.fragment? name = some g ∧ f.bare = g.bare := by
      simpa [hf, eq_comm] using hfragment
    by_cases hprogress : name ∈ inProgress
    · rw [walkFragment_of_mem hf hprogress, walkFragment_of_mem hg hprogress]
    by_cases hinlined : name ∈ w.inlined
    · rw [walkFragment_of_inlined hf hprogress hinlined,
        walkFragment_of_inlined hg hprogress hinlined]
    have hfewer := Document.unseen_cons_lt hf hprogress
    have hfewer' := Document.unseen_cons_lt hg hprogress
    obtain ⟨less, rfl⟩ : ∃ less, depth = less + 1 := Nat.exists_eq_succ_of_ne_zero (by omega)
    obtain ⟨less', rfl⟩ : ∃ less', depth' = less' + 1 := Nat.exists_eq_succ_of_ne_zero (by omega)
    have hcondition : f.bare.condition = g.bare.condition := congrArg Fragment.condition hbare
    have hitems : f.bare.items = g.bare.items := congrArg Fragment.items hbare
    have hwalk : walkSelections s (walkFragment s d less (name :: inProgress)) f.condition f.items =
        walkSelections s (walkFragment s e less' (name :: inProgress)) f.condition g.items :=
      walkSelections_congr hitems (fun trail head hoccurs hexposed =>
        ih less (Nat.lt_succ_self less) (hname.fragment hf hoccurs hexposed) (by omega) (by omega))
        f.condition
    rw [walkFragment_of_not_mem hf hprogress hinlined,
      walkFragment_of_not_mem hg hprogress hinlined, hwalk]
    simp only [show f.condition = g.condition from hcondition]

private theorem walkOperation_congr (h : d.Alike e) {o o' : Operation} (ho : o ∈ d.operations)
    (hbare : o.bare = o'.bare) : walkOperation s d o = walkOperation s e o' := by
  have hkind : o.bare.kind = o'.bare.kind := congrArg Operation.kind hbare
  have hitems : o.bare.items = o'.bare.items := congrArg Operation.items hbare
  have hwalk (root : String) : walkSelections s (spread s d) root o.items =
      walkSelections s (spread s e) root o'.items :=
    walkSelections_congr hitems (fun trail head hoccurs hexposed => walkFragment_congr h
      (.operation ho hoccurs hexposed) (unseen_le_length _ _) (unseen_le_length _ _)) root
  funext w
  simp only [walkOperation, hwalk, show o.kind = o'.kind from hkind]

private theorem foldlM_eq_of_forall₂ {σ ε α β : Type} {f : σ → α → Except ε σ}
    {g : σ → β → Except ε σ} {l : List α} {l' : List β}
    (h : List.Forall₂ (fun x y => ∀ w, f w x = g w y) l l') (w : σ) :
    l.foldlM f w = l'.foldlM g w := by
  induction h generalizing w with
  | nil => rfl
  | cons hx _ ih =>
    rw [List.foldlM_cons, List.foldlM_cons, hx]
    exact congrArg _ (funext ih)

private theorem grant_congr (h : d.Alike e) (p : PermissionSet) : grant s d p = grant s e p := by
  have hoperations := (List.forall₂_and_left _ _).mpr
    ⟨fun o (ho : o ∈ d.operations) => ho, h.operations⟩
  unfold grant
  rw [foldlM_eq_of_forall₂ (hoperations.imp fun o o' hsame w =>
    congrFun (walkOperation_congr h hsame.1 hsame.2) w)]

def AlikeTexts (declaration other : String) : Prop :=
  ∃ d e, Document.parse declaration = .ok d ∧ Document.parse other = .ok e ∧ d.Alike e

/-- Compiling the declarations of a client fails just if inlining each fragment anew wherever it is
spread does, with the same fault, and otherwise permits just the fields that this reaches, which are
fields of the schema and none of introspection. Fragments that are not inlined and what is below
fields of introspection make no difference. -/
theorem compile_eq_inlining (s : Schema) (client : String) (declarations : List String) :
    (∀ fault, compile s client declarations = .error ⟨client, fault⟩ ↔
      reachEach (reachText s) declarations = .error fault) ∧
    (∀ rules, reachEach (reachText s) declarations = .ok rules →
      ∃ p, compile s client declarations = .ok p ∧
        (∀ parent field, p.permits parent field = true ↔ ⟨parent, field⟩ ∈ rules) ∧
        ∀ rule ∈ rules, isMeta rule.field = false ∧
          (s.field? rule.parent rule.field).isSome = true) ∧
    ∀ others, List.Forall₂ AlikeTexts declarations others →
      compile s client others = compile s client declarations := by
  have hrun : Answers id (fun _ => True) .empty (declarations.foldlM (grantText s) .empty)
      (reachEach (reachText s) declarations) :=
    Simulates.each declarations (fun declaration _ => grantText_simulates declaration) _ trivial
  have hwithin : Within s (reachEach (reachText s) declarations) :=
    within_reachEach fun declaration _ => within_reachText declaration
  refine ⟨fun fault => ?_, fun rules hrules => ?_, fun others hothers => ?_⟩
  · unfold compile
    generalize declarations.foldlM (grantText s) .empty = run at hrun
    generalize reachEach (reachText s) declarations = reached at hrun
    cases hrun <;> simp [Except.mapError]
  · unfold compile
    generalize declarations.foldlM (grantText s) .empty = run at hrun
    rw [hrules] at hrun
    cases hrun with
    | @ok p _ _ hgains =>
      refine ⟨p, rfl, fun parent field => ?_, hwithin rules hrules⟩
      simpa [PermissionSet.permits, PermissionSet.empty] using hgains parent field
  · unfold compile
    rw [foldlM_eq_of_forall₂ (hothers.imp fun declaration other halike p => ?_)]
    obtain ⟨d, e, hd, he, halike⟩ := halike
    simp only [grantText, hd, he, grant_congr halike]

section Witness

private def twiceText : String :=
  "{me{...F...F}}fragment F on Person{id}"

/-- The second fragment is on a type that the schema lacks. -/
private def ghostText : String :=
  "{me{...F...F}}fragment F on Person{id}fragment G on Ghost{id}"

private def twiceOperation : Operation :=
  ⟨none, ⟨1, 1⟩, ⟨1, 14⟩, [.field ⟨⟨1, 2⟩, ⟨1, 4⟩, ⟨1, 13⟩, none, "me", [], []⟩
    [.spread ⟨⟨1, 8⟩, "F", []⟩, .spread ⟨⟨1, 12⟩, "F", []⟩]]⟩

private def personFragment : Fragment :=
  ⟨⟨1, 15⟩, ⟨1, 35⟩, ⟨1, 38⟩, "F", "Person", [],
    [.field ⟨⟨1, 36⟩, ⟨1, 36⟩, ⟨1, 36⟩, none, "id", [], []⟩ []]⟩

private def ghostFragment : Fragment :=
  ⟨⟨1, 39⟩, ⟨1, 58⟩, ⟨1, 61⟩, "G", "Ghost", [],
    [.field ⟨⟨1, 59⟩, ⟨1, 59⟩, ⟨1, 59⟩, none, "id", [], []⟩ []]⟩

private def twiceDocument : Document :=
  ⟨[.operation twiceOperation, .fragment personFragment]⟩

private def ghostDocument : Document :=
  ⟨[.operation twiceOperation, .fragment personFragment, .fragment ghostFragment]⟩

private def personSchema : Schema :=
  ⟨.ofList [("Query", ⟨"Query", .object, [⟨"me", "Person", []⟩], [], [], []⟩),
      ("Person", ⟨"Person", .object, [⟨"id", "ID", []⟩], [], [], []⟩)] compare,
    "Query", none, none⟩

private theorem fragment?_twiceDocument : twiceDocument.fragment? "F" = some personFragment := by
  simp [Document.fragment?, Document.fragments, twiceDocument, personFragment]

private theorem fragment?_ghostDocument : ghostDocument.fragment? "F" = some personFragment := by
  simp [Document.fragment?, Document.fragments, ghostDocument, personFragment, ghostFragment]

private theorem name_of_inlines {name : String} (h : twiceDocument.Inlines name) : name = "F" := by
  induction h with
  | operation ho hoccurs _ =>
    obtain rfl := List.mem_singleton.mp ho
    rcases hoccurs with hm | ⟨hm, hinner⟩ | ⟨hm, -⟩ <;> simp [twiceOperation] at hm
    obtain ⟨-, rfl⟩ := hm
    rcases hinner with hm | ⟨hm, -⟩ | ⟨hm, -⟩ <;> simp at hm
    rcases hm with rfl | rfl <;> rfl
  | fragment _ hf hoccurs _ ih =>
    subst ih
    obtain rfl := Option.some.inj (fragment?_twiceDocument.symm.trans hf)
    rcases hoccurs with hm | ⟨hm, hinner⟩ | ⟨hm, -⟩ <;> simp [personFragment] at hm
    obtain ⟨-, rfl⟩ := hm
    exact absurd hinner not_occurs_nil

private theorem alike_twiceDocument : twiceDocument.Alike ghostDocument := by
  refine ⟨.cons rfl .nil, fun name hname => ?_⟩
  obtain rfl := name_of_inlines hname
  rw [fragment?_twiceDocument, fragment?_ghostDocument]

private theorem reachFragment_twiceDocument :
    reachFragment personSchema twiceDocument [] "F" = .ok [⟨"Person", "id"⟩] := by
  have hid : personSchema.field? "Person" "id" = some ⟨"id", "ID", []⟩ := by decide
  have htype : personSchema.types.contains "Person" = true := by decide
  have hmeta : isMeta "id" = false := by decide
  rw [reachFragment_of_not_mem fragment?_twiceDocument List.not_mem_nil]
  simp [personFragment, htype, reachSelections, reachSelection, hid, hmeta, Except.map]
  rfl

theorem compile_eq_inlining_of_person :
    reachEach (reachText personSchema) [twiceText] =
      .ok [⟨"Query", "me"⟩, ⟨"Person", "id"⟩, ⟨"Person", "id"⟩] ∧
    (∃ p, compile personSchema "staff" [twiceText] = .ok p ∧ ∀ parent field,
      p.permits parent field = true ↔
        (⟨parent, field⟩ : FieldRule) ∈ [⟨"Query", "me"⟩, ⟨"Person", "id"⟩, ⟨"Person", "id"⟩]) ∧
    compile personSchema "staff" [ghostText] = compile personSchema "staff" [twiceText] := by
  have hparse : Document.parse twiceText = .ok twiceDocument := by cbv
  have hghost : Document.parse ghostText = .ok ghostDocument := by cbv
  have hoperation : reachOperation personSchema twiceDocument twiceOperation =
      .ok [⟨"Query", "me"⟩, ⟨"Person", "id"⟩, ⟨"Person", "id"⟩] := by
    have hroot : personSchema.root? twiceOperation.kind = some "Query" := rfl
    have hme : personSchema.field? "Query" "me" = some ⟨"me", "Person", []⟩ := by decide
    have hmeta : isMeta "me" = false := by decide
    rw [reachOperation, hroot]
    simp only [twiceOperation, reachSelections, reachSelection, hme, hmeta,
      reachFragment_twiceDocument]
    rfl
  have hreach : reachEach (reachText personSchema) [twiceText] =
      .ok [⟨"Query", "me"⟩, ⟨"Person", "id"⟩, ⟨"Person", "id"⟩] := by
    have hoperations : twiceDocument.operations = [twiceOperation] := rfl
    simp only [reachEach, reachText, hparse, hoperations, hoperation]
    rfl
  have halike : AlikeTexts twiceText ghostText := ⟨_, _, hparse, hghost, alike_twiceDocument⟩
  obtain ⟨-, hpermits, hothers⟩ := compile_eq_inlining personSchema "staff" [twiceText]
  obtain ⟨p, hp, hrules, -⟩ := hpermits _ hreach
  exact ⟨hreach, ⟨p, hp, hrules⟩, hothers [ghostText] (.cons halike .nil)⟩

end Witness

end Declaration

end FieldAuthorization
