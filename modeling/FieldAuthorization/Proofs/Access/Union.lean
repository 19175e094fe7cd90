import Mathlib.Data.List.Forall2
import FieldAuthorization.Access.ClientIndex
import FieldAuthorization.Proofs.Permissions.Order
import FieldAuthorization.Proofs.Redaction.Soundness

/-!
What a scope set allows is the union of what its clients declare.

An index holds the clients of the settings in ascending order, each with what its patterns and its
queries compile to. A scope set selects some of them, and its verifier allows and shows whatever one
of those permits or shows, and nothing else. So the verifier of two scope sets together allows and
shows what that of either does.
-/

set_option autoImplicit false
set_option relaxedAutoImplicit false

namespace FieldAuthorization

/-- The pattern can be compiled, and the scope matches it from start to end. -/
def ScopePattern.Accepts (source scope : String) : Prop :=
  ∃ p, compile? source = some p ∧ p.matchesScope scope = true

/-- Scopes select the client of an identifier: by the identifier itself if the client has no
patterns, else by a scope that one of the patterns accepts. -/
def Client.SelectedBy (id : String) (client : Client) (scopes : ScopeSet) : Prop :=
  (client.scopes = [] ∧ id ∈ scopes) ∨
    (client.scopes ≠ [] ∧ ∃ scope ∈ scopes, ∃ source ∈ client.scopes,
      ScopePattern.Accepts source scope)

private theorem forall₂_of_mapM_eq_ok {α β ε : Type} {f : α → Except ε β} {l : List α}
    {made : List β} (h : l.mapM f = .ok made) : List.Forall₂ (fun x y => f x = .ok y) l made := by
  induction l generalizing made with
  | nil =>
    rw [List.mapM_nil] at h
    cases h
    exact .nil
  | cons x rest ih =>
    rw [List.mapM_cons] at h
    cases hx : f x with
    | error e => simp [hx, bind, Except.bind] at h
    | ok y =>
      cases hrest : rest.mapM f with
      | error e => simp [hx, hrest, bind, Except.bind] at h
      | ok more =>
        have hmade : made = y :: more := by
          simpa [hx, hrest, bind, Except.bind, pure, Except.pure, eq_comm] using h
        rw [hmade]
        exact .cons hx (ih hrest)

private theorem exists_of_mem_left {α β : Type} {R : α → β → Prop} {l : List α} {made : List β}
    (h : List.Forall₂ R l made) {x : α} (hx : x ∈ l) : ∃ y ∈ made, R x y := by
  induction h with
  | nil => exact absurd hx List.not_mem_nil
  | cons hxy _ ih =>
    rcases List.mem_cons.mp hx with rfl | hx
    · exact ⟨_, List.mem_cons_self, hxy⟩
    · obtain ⟨y, hy, hR⟩ := ih hx
      exact ⟨y, List.mem_cons_of_mem _ hy, hR⟩

private theorem exists_of_mem_right {α β : Type} {R : α → β → Prop} {l : List α} {made : List β}
    (h : List.Forall₂ R l made) {y : β} (hy : y ∈ made) : ∃ x ∈ l, R x y :=
  exists_of_mem_left h.flip hy

private theorem map_eq_of_forall₂ {α β γ : Type} {R : α → β → Prop} {l : List α} {made : List β}
    {f : α → γ} {g : β → γ} (h : List.Forall₂ R l made) (hfg : ∀ x y, R x y → g y = f x) :
    made.map g = l.map f := by
  induction h with
  | nil => rfl
  | cons hxy _ ih => rw [List.map_cons, List.map_cons, hfg _ _ hxy, ih]

theorem ScopePattern.compileAll_eq_ok {sources : List String} {patterns : List ScopePattern}
    (h : compileAll sources = .ok patterns) :
    List.Forall₂ (fun source p => compile? source = some p) sources patterns := by
  refine (forall₂_of_mapM_eq_ok h).imp fun source p hp => ?_
  cases hsource : compile? source with
  | none => simp [hsource] at hp
  | some q => simpa [hsource] using hp

namespace IndexedClient

variable {s : Schema} {id : String} {client : Client} {c : IndexedClient}

theorem build_eq_ok (h : build s id client = .ok c) :
    c.id = id ∧ ScopePattern.compileAll client.scopes = .ok c.patterns ∧
      Declaration.compile s id client.queries = .ok c.permissions := by
  unfold build at h
  split at h
  · simp at h
  · split at h
    · simp at h
    · split at h
      · simp at h
      · simp only [Except.ok.injEq] at h
        subst h
        exact ⟨rfl, ‹_›, ‹_›⟩

private theorem selectedBy_eq_true (c : IndexedClient) (scopes : ScopeSet) :
    c.selectedBy scopes = true ↔ (c.patterns = [] ∧ c.id ∈ scopes) ∨
      (c.patterns ≠ [] ∧ ∃ scope ∈ scopes, ∃ p ∈ c.patterns, p.matchesScope scope = true) := by
  unfold selectedBy
  cases hpatterns : c.patterns with
  | nil => simp [Std.ExtTreeSet.contains_iff_mem]
  | cons p rest => simp [ScopePattern.find?, List.find?_isSome, Std.ExtTreeSet.mem_toList]

private theorem selectedBy_union (c : IndexedClient) (scopes more : ScopeSet) :
    c.selectedBy (scopes ∪ more) = (c.selectedBy scopes || c.selectedBy more) := by
  rw [Bool.eq_iff_iff, Bool.or_eq_true]
  simp only [selectedBy_eq_true, Std.ExtTreeSet.mem_union_iff]
  constructor
  · rintro (⟨hnil, hid | hid⟩ | ⟨hpatterns, scope, hscope | hscope, hp⟩)
    · exact .inl (.inl ⟨hnil, hid⟩)
    · exact .inr (.inl ⟨hnil, hid⟩)
    · exact .inl (.inr ⟨hpatterns, scope, hscope, hp⟩)
    · exact .inr (.inr ⟨hpatterns, scope, hscope, hp⟩)
  · rintro ((⟨hnil, hid⟩ | ⟨hpatterns, scope, hscope, hp⟩) |
      (⟨hnil, hid⟩ | ⟨hpatterns, scope, hscope, hp⟩))
    · exact .inl ⟨hnil, .inl hid⟩
    · exact .inr ⟨hpatterns, scope, .inl hscope, hp⟩
    · exact .inl ⟨hnil, .inr hid⟩
    · exact .inr ⟨hpatterns, scope, .inr hscope, hp⟩

private theorem selectedBy_iff (h : build s id client = .ok c) (scopes : ScopeSet) :
    c.selectedBy scopes = true ↔ client.SelectedBy id scopes := by
  obtain ⟨hid, hpatterns, -⟩ := build_eq_ok h
  have hcompiled := ScopePattern.compileAll_eq_ok hpatterns
  have hnil : c.patterns = [] ↔ client.scopes = [] := by
    rw [← List.length_eq_zero_iff, ← List.length_eq_zero_iff, hcompiled.length_eq]
  have hmatches (scope : String) : (∃ p ∈ c.patterns, p.matchesScope scope = true) ↔
      ∃ source ∈ client.scopes, ScopePattern.Accepts source scope := by
    constructor
    · rintro ⟨p, hp, hscope⟩
      obtain ⟨source, hsource, hcompile⟩ := exists_of_mem_right hcompiled hp
      exact ⟨source, hsource, p, hcompile, hscope⟩
    · rintro ⟨source, hsource, q, hq, hscope⟩
      obtain ⟨p, hp, hcompile⟩ := exists_of_mem_left hcompiled hsource
      obtain rfl : p = q := Option.some.inj (hcompile.symm.trans hq)
      exact ⟨p, hp, hscope⟩
  rw [selectedBy_eq_true, Client.SelectedBy, hid]
  simp only [hmatches, ne_eq, hnil]

end IndexedClient

namespace ClientIndex

variable {s : Schema} {clients : Clients} {x : ClientIndex}

private theorem build_eq_ok (h : build s clients = .ok x) :
    List.Forall₂ (fun (entry : String × Client) c => IndexedClient.build s entry.1 entry.2 = .ok c)
      clients.toList x.clients := by
  unfold build at h
  split at h
  · simp at h
  · cases hcompiled : clients.toList.mapM fun (id, client) => IndexedClient.build s id client with
    | error e => simp [hcompiled, Except.map] at h
    | ok made =>
      simp only [hcompiled, Except.map, Except.ok.injEq] at h
      subst h
      exact forall₂_of_mapM_eq_ok hcompiled

theorem mem_clients (h : build s clients = .ok x) {c : IndexedClient} :
    c ∈ x.clients ↔
      ∃ client, clients[c.id]? = some client ∧ IndexedClient.build s c.id client = .ok c := by
  constructor
  · intro hc
    obtain ⟨⟨id, client⟩, hentry, hbuild⟩ := exists_of_mem_right (build_eq_ok h) hc
    obtain ⟨rfl, -⟩ := IndexedClient.build_eq_ok hbuild
    exact ⟨client, Std.ExtTreeMap.mem_toList_iff_getElem?_eq_some.mp hentry, hbuild⟩
  · rintro ⟨client, hclient, hbuild⟩
    have hentry := Std.ExtTreeMap.mem_toList_iff_getElem?_eq_some.mpr hclient
    obtain ⟨c', hc', hbuild'⟩ := exists_of_mem_left (build_eq_ok h) hentry
    exact Except.ok.inj (hbuild.symm.trans hbuild') ▸ hc'

private theorem exists_of_getElem? (h : build s clients = .ok x) {id : String} {client : Client}
    (hclient : clients[id]? = some client) :
    ∃ c ∈ x.clients, c.id = id ∧ IndexedClient.build s id client = .ok c := by
  have hentry := Std.ExtTreeMap.mem_toList_iff_getElem?_eq_some.mpr hclient
  obtain ⟨c, hc, hbuild⟩ := exists_of_mem_left (build_eq_ok h) hentry
  exact ⟨c, hc, (IndexedClient.build_eq_ok hbuild).1, hbuild⟩

private theorem ids_pairwise (h : build s clients = .ok x) : x.ids.Pairwise (· < ·) := by
  have hids : x.ids = clients.toList.map Prod.fst :=
    map_eq_of_forall₂ (build_eq_ok h) fun _ _ hbuild => (IndexedClient.build_eq_ok hbuild).1
  have hkeys : clients.keys.Pairwise fun a b => compare a b = .lt := Std.ExtTreeMap.ordered_keys
  rw [hids, Std.ExtTreeMap.map_fst_toList_eq_keys]
  exact hkeys.imp fun hlt => compareOfLessAndEq_eq_lt.mp hlt

private theorem permissions?_eq_some (h : build s clients = .ok x) {id : String}
    {p : PermissionSet} :
    x.permissions? id = some p ↔ ∃ c ∈ x.clients, c.id = id ∧ c.permissions = p := by
  unfold permissions?
  rw [Option.map_eq_some_iff]
  constructor
  · rintro ⟨c, hfind, hp⟩
    have hid : c.id = id := by simpa using List.find?_some hfind
    exact ⟨c, List.mem_of_find?_eq_some hfind, hid, hp⟩
  · rintro ⟨c, hc, rfl, hp⟩
    obtain ⟨before, after, hsplit⟩ := List.append_of_mem hc
    have hids : (before.map IndexedClient.id ++ c.id :: after.map IndexedClient.id).Pairwise
        (· < ·) := by
      have hsorted := ids_pairwise h
      rwa [ids, hsplit, List.map_append, List.map_cons] at hsorted
    have hbefore : ∀ c' ∈ before, (!(c'.id == c.id)) = true := by
      intro c' hc'
      have hlt : c'.id < c.id :=
        (List.pairwise_append.mp hids).2.2 c'.id (List.mem_map_of_mem hc') c.id
          List.mem_cons_self
      have hne : c'.id ≠ c.id := fun heq => by simp [heq] at hlt
      simpa using hne
    refine ⟨c, List.find?_eq_some_iff_append.mpr ⟨by simp, before, after, hsplit, hbefore⟩, hp⟩

end ClientIndex

namespace ClientIndex

variable {s : Schema} {clients : Clients} {x : ClientIndex}

private theorem allows_verifier (x : ClientIndex) (scopes : ScopeSet) (parent field : String) :
    (x.verifier scopes).allows parent field =
      (x.selected scopes).any (·.permissions.permits parent field) := by
  unfold verifier Verifier.ofClients Verifier.allows
  rw [PermissionSet.foldl_merge Prod.snd (·.permits parent field)
    fun p q => PermissionSet.permits_merge p q parent field]
  simp [List.any_map, Function.comp_def, PermissionSet.empty, PermissionSet.permits]

private theorem showsType_verifier (x : ClientIndex) (scopes : ScopeSet) (type : String) :
    (x.verifier scopes).showsType type =
      (isMeta type || builtinScalars.contains type ||
        (x.selected scopes).any (·.permissions.shows type)) := by
  unfold verifier Verifier.ofClients Verifier.showsType
  rw [PermissionSet.foldl_merge Prod.snd (·.shows type)
    fun p q => PermissionSet.shows_merge p q type]
  simp [List.any_map, Function.comp_def, PermissionSet.empty, PermissionSet.shows]

private theorem clients_verifier (h : build s clients = .ok x) (scopes : ScopeSet) :
    (x.verifier scopes).clients = x.clientsFor scopes ∧
      (x.clientsFor scopes).Pairwise (· < ·) := by
  have hsublist : (x.clientsFor scopes).Sublist x.ids := List.filter_sublist.map _
  have hsorted : (x.clientsFor scopes).Pairwise (· < ·) := (ids_pairwise h).sublist hsublist
  have hselected : ((x.selected scopes).map fun c => (c.id, c.permissions)).map Prod.fst =
      x.clientsFor scopes := by
    rw [List.map_map]
    rfl
  refine ⟨?_, hsorted⟩
  unfold verifier Verifier.ofClients
  rw [hselected]
  refine List.mergeSort_of_pairwise (hsorted.imp fun hlt => ?_)
  exact decide_eq_true (Std.le_of_lt hlt)

private theorem any_selected_union (x : ClientIndex) (scopes more : ScopeSet)
    (asks : IndexedClient → Bool) :
    (x.selected (scopes ∪ more)).any asks =
      ((x.selected scopes).any asks || (x.selected more).any asks) := by
  simp only [selected, List.any_filter, IndexedClient.selectedBy_union]
  induction x.clients with
  | nil => rfl
  | cons c rest ih =>
    simp only [List.any_cons, ih]
    cases c.selectedBy scopes <;> cases c.selectedBy more <;> cases asks c <;> simp

theorem allows_verifier_union (x : ClientIndex) (scopes more : ScopeSet) (parent field : String) :
    (x.verifier (scopes ∪ more)).allows parent field =
      ((x.verifier scopes).allows parent field || (x.verifier more).allows parent field) := by
  simp only [allows_verifier, any_selected_union]

private theorem any_selected (h : build s clients = .ok x) (scopes : ScopeSet)
    (asks : PermissionSet → Bool) :
    ((x.selected scopes).any fun c => asks c.permissions) = true ↔
      ∃ id ∈ x.clientsFor scopes, ∃ p, x.permissions? id = some p ∧ asks p = true := by
  rw [List.any_eq_true]
  constructor
  · rintro ⟨c, hc, hasks⟩
    refine ⟨c.id, List.mem_map_of_mem hc, c.permissions, ?_, hasks⟩
    exact (permissions?_eq_some h).mpr ⟨c, List.mem_of_mem_filter hc, rfl, rfl⟩
  · rintro ⟨id, hid, p, hp, hasks⟩
    obtain ⟨c, hc, rfl⟩ := List.mem_map.mp hid
    have hown : x.permissions? c.id = some c.permissions :=
      (permissions?_eq_some h).mpr ⟨c, List.mem_of_mem_filter hc, rfl, rfl⟩
    obtain rfl : c.permissions = p := Option.some.inj (hown.symm.trans hp)
    exact ⟨c, hc, hasks⟩

private theorem permissions?_of_build (h : build s clients = .ok x) {id : String}
    {p : PermissionSet} :
    x.permissions? id = some p ↔ ∃ client, clients[id]? = some client ∧
      Declaration.compile s id client.queries = .ok p := by
  rw [permissions?_eq_some h]
  constructor
  · rintro ⟨c, hc, rfl, rfl⟩
    obtain ⟨client, hclient, hbuild⟩ := (mem_clients h).mp hc
    exact ⟨client, hclient, (IndexedClient.build_eq_ok hbuild).2.2⟩
  · rintro ⟨client, hclient, hcompile⟩
    obtain ⟨c, hc, hid, hbuild⟩ := exists_of_getElem? h hclient
    have hpermissions := (IndexedClient.build_eq_ok hbuild).2.2
    exact ⟨c, hc, hid, Except.ok.inj (hpermissions.symm.trans hcompile)⟩

private theorem mem_clientsFor (h : build s clients = .ok x) (scopes : ScopeSet) {id : String} :
    id ∈ x.clientsFor scopes ↔
      ∃ client, clients[id]? = some client ∧ client.SelectedBy id scopes := by
  constructor
  · intro hid
    obtain ⟨c, hc, rfl⟩ := List.mem_map.mp hid
    obtain ⟨hmem, hselected⟩ := List.mem_filter.mp hc
    obtain ⟨client, hclient, hbuild⟩ := (mem_clients h).mp hmem
    exact ⟨client, hclient, (IndexedClient.selectedBy_iff hbuild scopes).mp hselected⟩
  · rintro ⟨client, hclient, hselected⟩
    obtain ⟨c, hc, rfl, hbuild⟩ := exists_of_getElem? h hclient
    have hselects := (IndexedClient.selectedBy_iff hbuild scopes).mpr hselected
    exact List.mem_map_of_mem (List.mem_filter.mpr ⟨hc, hselects⟩)

/-- A built index holds what the queries of each client compile to. The clients that a scope set
selects are those that the settings say, in ascending order; its verifier lists them, allows what
the set of one of them permits, and shows the types of introspection, the built-in scalars and what
the set of one of them shows. So two scope sets together allow and show what either does, and scopes
that select no client allow nothing. -/
theorem verifier_eq_union (h : build s clients = .ok x) :
    (∀ id p, x.permissions? id = some p ↔ ∃ client, clients[id]? = some client ∧
      Declaration.compile s id client.queries = .ok p) ∧
    (∀ scopes : ScopeSet,
      (∀ id, id ∈ x.clientsFor scopes ↔
        ∃ client, clients[id]? = some client ∧ client.SelectedBy id scopes) ∧
      (x.verifier scopes).clients = x.clientsFor scopes ∧
      (x.clientsFor scopes).Pairwise (· < ·) ∧
      (∀ parent field, (x.verifier scopes).allows parent field = true ↔
        ∃ id ∈ x.clientsFor scopes, ∃ p, x.permissions? id = some p ∧
          p.permits parent field = true) ∧
      (∀ type, (x.verifier scopes).showsType type = true ↔
        isMeta type = true ∨ type ∈ builtinScalars ∨
          ∃ id ∈ x.clientsFor scopes, ∃ p, x.permissions? id = some p ∧
            p.shows type = true)) ∧
    (∀ scopes more : ScopeSet,
      (∀ parent field, (x.verifier (scopes ∪ more)).allows parent field =
        ((x.verifier scopes).allows parent field || (x.verifier more).allows parent field)) ∧
      (∀ type, (x.verifier (scopes ∪ more)).showsType type =
        ((x.verifier scopes).showsType type || (x.verifier more).showsType type))) ∧
    (∀ scopes : ScopeSet, x.clientsFor scopes = [] →
      ∀ parent field, (x.verifier scopes).allows parent field = false) := by
  refine ⟨?compiled, ?selected, ?union, ?none⟩
  case compiled =>
    intro id p
    exact permissions?_of_build h
  case selected =>
    intro scopes
    obtain ⟨hclients, hsorted⟩ := clients_verifier h scopes
    refine ⟨fun id => mem_clientsFor h scopes, hclients, hsorted, ?allows, ?shows⟩
    case allows =>
      intro parent field
      rw [allows_verifier]
      exact any_selected h scopes (·.permits parent field)
    case shows =>
      intro type
      rw [showsType_verifier, Bool.or_eq_true, Bool.or_eq_true, or_assoc, List.contains_iff_mem]
      exact or_congr_right (or_congr_right (any_selected h scopes (·.shows type)))
  case union =>
    intro scopes more
    refine ⟨allows_verifier_union x scopes more, ?_⟩
    intro type
    simp only [showsType_verifier, any_selected_union]
    cases isMeta type || builtinScalars.contains type <;> simp
  case none =>
    intro scopes hnone parent field
    have hselected : x.selected scopes = [] := List.map_eq_nil_iff.mp hnone
    rw [allows_verifier, hselected, List.any_nil]

section Witness

def readersQuery : String :=
  "{ me { id } }"

def supportQuery : String :=
  "{ me { mail } }"

/-- Readers are selected by their own name, support by any scope that begins with its name. -/
def staffClients : Clients :=
  .ofList [("support", ⟨[supportQuery], ["support:.*"]⟩), ("readers", ⟨[readersQuery], []⟩)]
    compare

def readersSet : PermissionSet :=
  ⟨.ofList [⟨"Query", "me"⟩, ⟨"Person", "id"⟩] compare, .ofList ["Query", "Person", "ID"] compare⟩

private def supportSet : PermissionSet :=
  ⟨.ofList [⟨"Query", "me"⟩, ⟨"Person", "mail"⟩] compare,
    .ofList ["Query", "Person", "String"] compare⟩

theorem compile_readersQuery :
    Declaration.compile Redaction.peopleSchema "readers" [readersQuery] = .ok readersSet := by
  have hparse : Document.parse readersQuery = .ok ⟨[.operation ⟨none, ⟨1, 1⟩, ⟨1, 13⟩,
      [.field ⟨⟨1, 3⟩, ⟨1, 6⟩, ⟨1, 11⟩, none, "me", [], []⟩
        [.field ⟨⟨1, 8⟩, ⟨1, 8⟩, ⟨1, 8⟩, none, "id", [], []⟩ []]]⟩]⟩ := by cbv
  simp only [Declaration.compile, List.foldlM_cons, Declaration.grantText, hparse]
  rfl

private theorem compile_supportQuery :
    Declaration.compile Redaction.peopleSchema "support" [supportQuery] = .ok supportSet := by
  have hparse : Document.parse supportQuery = .ok ⟨[.operation ⟨none, ⟨1, 1⟩, ⟨1, 15⟩,
      [.field ⟨⟨1, 3⟩, ⟨1, 6⟩, ⟨1, 13⟩, none, "me", [], []⟩
        [.field ⟨⟨1, 8⟩, ⟨1, 8⟩, ⟨1, 8⟩, none, "mail", [], []⟩ []]]⟩]⟩ := by cbv
  simp only [Declaration.compile, List.foldlM_cons, Declaration.grantText, hparse]
  rfl

private theorem accepts_support : ScopePattern.Accepts "support:.*" "support:a" :=
  Option.map_eq_some_iff.mp
    (by cbv : (ScopePattern.compile? "support:.*").map (·.matchesScope "support:a") = some true)

private theorem not_accepts_support : ¬ ScopePattern.Accepts "support:.*" "support" := by
  rintro ⟨p, hp, hmatches⟩
  have hrefused : (ScopePattern.compile? "support:.*").map (·.matchesScope "support") =
      some false := by cbv
  simp [hp, hmatches] at hrefused

private theorem toList_staffClients : staffClients.toList =
    [("readers", ⟨[readersQuery], []⟩), ("support", ⟨[supportQuery], ["support:.*"]⟩)] := by
  rfl

theorem exists_build_staffClients :
    ∃ x, ClientIndex.build Redaction.peopleSchema staffClients = .ok x := by
  obtain ⟨pattern, hpattern, -⟩ := accepts_support
  have hreaders : IndexedClient.build Redaction.peopleSchema "readers" ⟨[readersQuery], []⟩ =
      .ok ⟨"readers", [], readersSet⟩ := by
    simp only [IndexedClient.build, compile_readersQuery]
    rfl
  have hpatterns : ScopePattern.compileAll ["support:.*"] = .ok [pattern] := by
    simp only [ScopePattern.compileAll, List.mapM_cons, hpattern]
    rfl
  have hsupport : IndexedClient.build Redaction.peopleSchema "support"
      ⟨[supportQuery], ["support:.*"]⟩ = .ok ⟨"support", [pattern], supportSet⟩ := by
    simp only [IndexedClient.build, compile_supportQuery, hpatterns]
    rfl
  refine ⟨⟨[⟨"readers", [], readersSet⟩, ⟨"support", [pattern], supportSet⟩]⟩, ?_⟩
  have hsome : staffClients.isEmpty = false := by rfl
  simp only [ClientIndex.build, hsome, toList_staffClients, List.mapM_cons, hreaders, hsupport]
  rfl

/-- A scope with the prefix selects support, whose own name does not. -/
theorem verifier_eq_union_of_staff :
    ∃ x, ClientIndex.build Redaction.peopleSchema staffClients = .ok x ∧
      (x.verifier (.ofScopes ["support:a"])).allows "Person" "mail" = true ∧
      (x.verifier (.ofScopes ["support:a"] ∪ .ofScopes ["readers"])).allows "Person" "mail" =
        true ∧
      (x.verifier (.ofScopes ["support"])).allows "Person" "mail" = false := by
  obtain ⟨x, hx⟩ := exists_build_staffClients
  obtain ⟨hpermissions, hscopes, hunion, hnone⟩ := verifier_eq_union hx
  have hclient : staffClients["support"]? = some ⟨[supportQuery], ["support:.*"]⟩ := by rfl
  have hselected : "support" ∈ x.clientsFor (.ofScopes ["support:a"]) := by
    have hscope : "support:a" ∈ ScopeSet.ofScopes ["support:a"] := by simp [ScopeSet.ofScopes]
    exact ((hscopes _).1 "support").mpr ⟨_, hclient,
      .inr ⟨by simp, "support:a", hscope, "support:.*", by simp, accepts_support⟩⟩
  have hmail : (x.verifier (.ofScopes ["support:a"])).allows "Person" "mail" = true :=
    ((hscopes _).2.2.2.1 "Person" "mail").mpr ⟨"support", hselected, supportSet,
      (hpermissions "support" supportSet).mpr ⟨_, hclient, compile_supportQuery⟩, by rfl⟩
  have hunselected : x.clientsFor (.ofScopes ["support"]) = [] := by
    refine List.eq_nil_iff_forall_not_mem.mpr fun id hid => ?_
    obtain ⟨client, hentry, hselects⟩ := ((hscopes _).1 id).mp hid
    have hmem := Std.ExtTreeMap.mem_toList_iff_getElem?_eq_some.mpr hentry
    simp only [toList_staffClients, List.mem_cons, Prod.mk.injEq, List.not_mem_nil,
      or_false] at hmem
    rcases hmem with ⟨rfl, rfl⟩ | ⟨rfl, rfl⟩
    · simp [Client.SelectedBy, ScopeSet.ofScopes] at hselects
    · simp [Client.SelectedBy, ScopeSet.ofScopes, not_accepts_support] at hselects
  refine ⟨x, hx, hmail, ?_, hnone _ hunselected "Person" "mail"⟩
  rw [(hunion _ _).1, hmail, Bool.true_or]

end Witness

end ClientIndex

end FieldAuthorization
