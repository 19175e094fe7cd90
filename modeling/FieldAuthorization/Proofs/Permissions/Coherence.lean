import FieldAuthorization.Proofs.Permissions.Visits

/-!
What is permitted leads only to what is shown.

A permitted field belongs to a type that is shown, returns a type that is shown, and takes only
types that are shown. Compiling declarations keeps this at every step, and so does the union of what
several clients are permitted.
-/

set_option autoImplicit false
set_option relaxedAutoImplicit false

namespace FieldAuthorization

namespace PermissionSet

/-- Every permitted field is one of the schema, and its own type, the type that it returns and the
types that its arguments take are shown. -/
def Coherent (s : Schema) (p : PermissionSet) : Prop :=
  ∀ parent field, p.permits parent field = true →
    ∃ d, s.field? parent field = some d ∧ p.shows parent = true ∧ p.shows d.type = true ∧
      ∀ argument ∈ d.arguments, p.shows argument.type = true

variable {s : Schema} {p q : PermissionSet}

private theorem coherent_empty (s : Schema) : Coherent s .empty := by
  intro parent field h
  simp [permits, empty] at h

private theorem Coherent.of_le {parent field : String} (h : p.Coherent s) (hle : p ≤ q)
    (hpermits : p.permits parent field = true) :
    ∃ d, s.field? parent field = some d ∧ q.shows parent = true ∧ q.shows d.type = true ∧
      ∀ argument ∈ d.arguments, q.shows argument.type = true := by
  obtain ⟨d, hd, hparent, htype, harguments⟩ := h parent field hpermits
  exact ⟨d, hd, shows_of_le hle hparent, shows_of_le hle htype,
    fun argument hm => shows_of_le hle (harguments argument hm)⟩

private theorem Coherent.markVisible (h : p.Coherent s) (type : String) :
    (p.markVisible type).2.Coherent s :=
  fun _ _ hpermits => h.of_le (le_markVisible p type) hpermits

private theorem Coherent.permitField {parent field : String} {rule : FieldDef} (h : p.Coherent s)
    (hrule : s.field? parent field = some rule) (hparent : p.shows parent = true) :
    (p.permitField s parent rule).Coherent s := by
  have hle := le_permitField p s parent rule
  intro parent' field' hpermits
  rcases (gains_permitField p s parent rule parent' field').mp hpermits with hbefore | hnew
  · exact h.of_le hle hbefore
  · obtain ⟨rfl, rfl⟩ := FieldRule.mk.inj (List.mem_singleton.mp hnew)
    rw [← Schema.name_of_field?_eq_some hrule] at hrule
    exact ⟨rule, hrule, shows_of_le hle hparent, shows_permitField p s parent' rule,
      fun argument hm => shows_showInputs s s.types.size hm _⟩

private theorem Coherent.merge (h : p.Coherent s) (h' : q.Coherent s) : (p.merge q).Coherent s := by
  intro parent field hpermits
  rw [permits_merge, Bool.or_eq_true] at hpermits
  rcases hpermits with hp | hq
  · exact h.of_le (le_merge_left p q) hp
  · exact h'.of_le (le_merge_right p q) hq

end PermissionSet

private theorem Document.keeps_coherent (d : Document) (s : Schema) :
    d.Keeps s (PermissionSet.Coherent s) where
  pass _ type _ h := h.markVisible type
  permit _ _ _ _ _ _ _ hrule hshown h := h.permitField hrule hshown

theorem Declaration.coherent_of_compile {s : Schema} {client : String}
    {declarations : List String} {p : PermissionSet}
    (h : compile s client declarations = .ok p) : p.Coherent s :=
  good_of_compile (fun _ _ d _ => d.keeps_coherent s) (PermissionSet.coherent_empty s) h

theorem Verifier.coherent_ofClients {s : Schema} {clients : List (String × PermissionSet)}
    (h : ∀ client ∈ clients, client.2.Coherent s) :
    (Verifier.ofClients clients).permissions.Coherent s := by
  have hunion : ∀ p : PermissionSet, p.Coherent s →
      (clients.foldl (fun p client => p.merge client.2) p).Coherent s := by
    induction clients with
    | nil => exact fun p hp => hp
    | cons client rest ih =>
      obtain ⟨hclient, hrest⟩ := List.forall_mem_cons.mp h
      exact fun p hp => ih hrest (p.merge client.2) (hp.merge hclient)
  exact hunion .empty (PermissionSet.coherent_empty s)

end FieldAuthorization
