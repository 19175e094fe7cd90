import Mathlib.Data.List.Induction
import FieldAuthorization.Access.VerifierCache

/-!
Which lookups share a verifier.

A source that caches keeps the verifiers of the first distinct scope sets that are looked up, as
many as it has room for. Which those are is settled by the history alone, so hits, entries and
shared verifiers after any number of lookups can be read off the scope sets that were looked up.
-/

set_option autoImplicit false
set_option relaxedAutoImplicit false

namespace FieldAuthorization

private theorem ScopeSet.ofScopes_congr {l other : List String}
    (h : ∀ scope, scope ∈ l ↔ scope ∈ other) : ofScopes l = ofScopes other := by
  apply Std.ExtTreeSet.ext_mem
  intro scope
  rw [ofScopes, ofScopes, Std.ExtTreeSet.mem_ofList, Std.ExtTreeSet.mem_ofList]
  simp [h]

section Distinct

variable {α : Type} [BEq α] [LawfulBEq α] {l more : List α} {x : α}

private theorem eraseDups_concat_of_mem (h : x ∈ l) : (l ++ [x]).eraseDups = l.eraseDups := by
  have hgone : [x].removeAll l = [] := by simp [List.removeAll, h]
  rw [List.eraseDups_append, hgone, List.eraseDups_nil, List.append_nil]

private theorem eraseDups_concat_of_notMem (h : x ∉ l) :
    (l ++ [x]).eraseDups = l.eraseDups ++ [x] := by
  have hnew : [x].removeAll l = [x] := by simp [List.removeAll, h]
  rw [List.eraseDups_append, hnew]
  rfl

private theorem nodup_eraseDups (l : List α) : l.eraseDups.Nodup := by
  induction l using List.reverseRecOn with
  | nil => exact List.nodup_nil
  | append_singleton l x ih =>
    by_cases hx : x ∈ l
    · rw [eraseDups_concat_of_mem hx]
      exact ih
    · rw [eraseDups_concat_of_notMem hx, List.nodup_append]
      refine ⟨ih, List.pairwise_singleton _ x, ?_⟩
      intro y hy z hz
      rw [List.mem_singleton.mp hz]
      rintro rfl
      exact hx (List.mem_eraseDups.mp hy)

private theorem filter_take_eraseDups [DecidableEq α] (l more : List α) (n : Nat) :
    ((l ++ more).eraseDups.take n).filter (· ∈ l) = l.eraseDups.take n := by
  have hold : (l.eraseDups.take n).filter (· ∈ l) = l.eraseDups.take n := by
    rw [List.filter_eq_self]
    intro x hx
    exact decide_eq_true (List.mem_eraseDups.mp (List.mem_of_mem_take hx))
  have hnew : ((more.removeAll l).eraseDups.take (n - l.eraseDups.length)).filter (· ∈ l) = [] := by
    rw [List.filter_eq_nil_iff]
    intro x hx
    have hmem := List.mem_eraseDups.mp (List.mem_of_mem_take hx)
    simp_all [List.removeAll]
  rw [List.eraseDups_append, List.take_append, List.filter_append, hold, hnew, List.append_nil]

end Distinct

/-- The scope sets that have been looked up with the answers to them, and the cache afterwards. -/
structure Lookups where
  answers : List (ScopeSet × SharedVerifier)
  cache : VerifierCache

namespace VerifierSource

def next (source : VerifierSource) (past : Lookups) (scopes : ScopeSet) : Lookups :=
  let (shared, cache) := source.lookup scopes past.cache
  ⟨past.answers ++ [(scopes, shared)], cache⟩

def lookups (source : VerifierSource) (history : List ScopeSet) : Lookups :=
  history.foldl source.next ⟨[], .empty⟩

/-- The scope sets that are kept in the cache: the first distinct ones of a history. -/
def kept (source : VerifierSource) (history : List ScopeSet) : List ScopeSet :=
  history.eraseDups.take source.settings.maxEntries

/-- What a lookup answers, and the cache that it leaves. -/
inductive Finds (source : VerifierSource) (scopes : ScopeSet) (c : VerifierCache) :
    SharedVerifier → VerifierCache → Prop
  | disabled (henabled : source.settings.enabled = false) :
      Finds source scopes c ⟨c.misses, source.index.verifier scopes⟩
        { c with misses := c.misses + 1 }
  | hit {shared : SharedVerifier} (henabled : source.settings.enabled = true)
      (hfound : (scopes, shared) ∈ c.entries) :
      Finds source scopes c shared { c with hits := c.hits + 1 }
  | full (henabled : source.settings.enabled = true) (hmissed : scopes ∉ c.entries.map Prod.fst)
      (hfull : source.settings.maxEntries ≤ c.entries.length) :
      Finds source scopes c ⟨c.misses, source.index.verifier scopes⟩
        { c with misses := c.misses + 1 }
  | added (henabled : source.settings.enabled = true) (hmissed : scopes ∉ c.entries.map Prod.fst)
      (hroom : c.entries.length < source.settings.maxEntries) :
      Finds source scopes c ⟨c.misses, source.index.verifier scopes⟩
        ⟨c.entries ++ [(scopes, ⟨c.misses, source.index.verifier scopes⟩)], c.hits, c.misses + 1⟩

private theorem finds_lookup (source : VerifierSource) (scopes : ScopeSet) (c : VerifierCache) :
    source.Finds scopes c (source.lookup scopes c).1 (source.lookup scopes c).2 := by
  unfold lookup
  cases henabled : source.settings.enabled with
  | false => exact .disabled henabled
  | true =>
    rw [Bool.not_true, if_neg Bool.false_ne_true]
    cases hfind : c.find? scopes with
    | some shared =>
      obtain ⟨⟨key, found⟩, hentry, rfl⟩ := Option.map_eq_some_iff.mp hfind
      have hkey : key = scopes := by simpa using List.find?_some hentry
      subst hkey
      exact .hit henabled (List.mem_of_find?_eq_some hentry)
    | none =>
      have hmissed : scopes ∉ c.entries.map Prod.fst := by
        rintro hmem
        obtain ⟨entry, hentry, rfl⟩ := List.mem_map.mp hmem
        have hnone := List.find?_eq_none.mp (Option.map_eq_none_iff.mp hfind) entry hentry
        exact hnone (beq_self_eq_true _)
      dsimp only
      split
      · exact .full henabled hmissed ‹_›
      · exact .added henabled hmissed (Nat.lt_of_not_le ‹_›)

variable {source : VerifierSource} {history : List ScopeSet} {past : Lookups} {scopes : ScopeSet}
  {shared : SharedVerifier} {cache : VerifierCache}

private theorem exists_finds (source : VerifierSource) (history : List ScopeSet)
    (scopes : ScopeSet) :
    ∃ shared cache, source.Finds scopes (source.lookups history).cache shared cache ∧
      source.lookups (history ++ [scopes]) =
        ⟨(source.lookups history).answers ++ [(scopes, shared)], cache⟩ := by
  refine ⟨_, _, source.finds_lookup scopes _, ?_⟩
  rw [lookups, List.foldl_append]
  rfl

/-- What holds at first, and is passed on by every lookup whatever it finds, holds of every
history. -/
private theorem lookups_induct {motive : List ScopeSet → Lookups → Prop}
    (nil : motive [] ⟨[], .empty⟩)
    (next : ∀ history past scopes shared cache, motive history past →
      source.Finds scopes past.cache shared cache →
      motive (history ++ [scopes]) ⟨past.answers ++ [(scopes, shared)], cache⟩)
    (history : List ScopeSet) : motive history (source.lookups history) := by
  induction history using List.reverseRecOn with
  | nil => exact nil
  | append_singleton history scopes ih =>
    obtain ⟨shared, cache, hfinds, hnext⟩ := source.exists_finds history scopes
    rw [hnext]
    exact next history _ scopes shared cache ih hfinds

/-- Every lookup has been answered and counted, and every verifier has been built by a miss. -/
structure Counted (history : List ScopeSet) (past : Lookups) : Prop where
  looked : past.answers.map Prod.fst = history
  counted : past.cache.hits + past.cache.misses = history.length
  built : ∀ x ∈ past.answers, x.2.serial < past.cache.misses
  cached : past.cache.entries ⊆ past.answers

private theorem Counted.serial_ne (h : Counted history past) {x : ScopeSet × SharedVerifier}
    (hx : x ∈ past.answers) : x.2.serial ≠ past.cache.misses :=
  Nat.ne_of_lt (h.built x hx)

private theorem Counted.miss (h : Counted history past)
    (hmisses : cache.misses = past.cache.misses + 1) (hhits : cache.hits = past.cache.hits)
    (hserial : shared.serial = past.cache.misses)
    (hentries : cache.entries ⊆ past.answers ++ [(scopes, shared)]) :
    Counted (history ++ [scopes]) ⟨past.answers ++ [(scopes, shared)], cache⟩ where
  looked := by simp [h.looked]
  counted := by
    have hbefore := h.counted
    simp only [hmisses, hhits, List.length_append, List.length_singleton]
    omega
  built := by
    intro x hx
    rw [hmisses]
    rcases List.mem_append.mp hx with hx | hx
    · exact Nat.lt_succ_of_lt (h.built x hx)
    · rw [List.mem_singleton.mp hx, hserial]
      exact Nat.lt_succ_self _
  cached := hentries

private theorem Counted.next (h : Counted history past)
    (hfinds : source.Finds scopes past.cache shared cache) :
    Counted (history ++ [scopes]) ⟨past.answers ++ [(scopes, shared)], cache⟩ := by
  have hcached : past.cache.entries ⊆ past.answers ++ [(scopes, shared)] :=
    List.subset_append_of_subset_left _ h.cached
  cases hfinds with
  | disabled => exact h.miss rfl rfl rfl hcached
  | full => exact h.miss rfl rfl rfl hcached
  | added =>
    refine h.miss rfl rfl rfl (List.append_subset.mpr ⟨hcached, ?_⟩)
    exact List.subset_append_right _ _
  | hit henabled hfound =>
    refine ⟨by simp [h.looked], ?_, ?_, hcached⟩
    · have hbefore := h.counted
      simp only [List.length_append, List.length_singleton]
      omega
    · intro x hx
      rcases List.mem_append.mp hx with hx | hx
      · exact h.built x hx
      · rw [List.mem_singleton.mp hx]
        exact h.built _ (h.cached hfound)

private theorem counted_lookups (source : VerifierSource) (history : List ScopeSet) :
    Counted history (source.lookups history) := by
  induction history using lookups_induct with
  | nil => exact ⟨rfl, rfl, nofun, nofun⟩
  | next history past scopes shared cache ih hfinds => exact ih.next hfinds

private theorem lookups_of_disabled (henabled : source.settings.enabled = false)
    (history : List ScopeSet) :
    (source.lookups history).cache.hits = 0 ∧ (source.lookups history).cache.entries = [] ∧
      (source.lookups history).answers.Pairwise fun x y => x.2.serial ≠ y.2.serial := by
  induction history using List.reverseRecOn with
  | nil => exact ⟨rfl, rfl, .nil⟩
  | append_singleton history scopes ih =>
    have hcounted := source.counted_lookups history
    obtain ⟨shared, cache, hfinds, hnext⟩ := source.exists_finds history scopes
    obtain ⟨hhits, hentries, hpairs⟩ := ih
    rw [hnext]
    cases hfinds with
    | disabled =>
      refine ⟨hhits, hentries, List.pairwise_append.mpr ⟨hpairs, List.pairwise_singleton _ _, ?_⟩⟩
      intro x hx y hy
      rw [List.mem_singleton.mp hy]
      exact hcounted.serial_ne hx
    | hit h => simp [henabled] at h
    | full h => simp [henabled] at h
    | added h => simp [henabled] at h

private theorem mem_history_of_mem_kept (h : scopes ∈ source.kept history) : scopes ∈ history :=
  List.mem_eraseDups.mp (List.mem_of_mem_take h)

private theorem nodup_kept (source : VerifierSource) (history : List ScopeSet) :
    (source.kept history).Nodup :=
  (nodup_eraseDups history).sublist (List.take_sublist _ _)

private theorem length_kept_le (source : VerifierSource) (history : List ScopeSet) :
    (source.kept history).length ≤ source.settings.maxEntries :=
  List.length_take_le _ _

private theorem filter_kept_append (source : VerifierSource) (before after : List ScopeSet) :
    (source.kept (before ++ after)).filter (· ∈ before) = source.kept before :=
  filter_take_eraseDups before after _

private theorem mem_kept_append_iff (after : List ScopeSet) :
    scopes ∈ source.kept (history ++ after) ∧ scopes ∈ history ↔ scopes ∈ source.kept history := by
  rw [← source.filter_kept_append history after, List.mem_filter, decide_eq_true_iff]

private theorem kept_eq_of_room
    (hroom : (source.kept history).length < source.settings.maxEntries) :
    source.kept history = history.eraseDups := by
  rw [kept, List.length_take] at hroom
  exact List.take_of_length_le (by omega)

private theorem kept_concat_of_mem (h : scopes ∈ history) :
    source.kept (history ++ [scopes]) = source.kept history := by
  rw [kept, kept, eraseDups_concat_of_mem h]

private theorem kept_concat_of_full
    (hfull : source.settings.maxEntries ≤ (source.kept history).length) :
    source.kept (history ++ [scopes]) = source.kept history := by
  by_cases hmem : scopes ∈ history
  · exact kept_concat_of_mem hmem
  · rw [kept, List.length_take] at hfull
    rw [kept, kept, eraseDups_concat_of_notMem hmem, List.take_append_of_le_length (by omega)]

private theorem kept_concat_of_room
    (hroom : (source.kept history).length < source.settings.maxEntries)
    (hmissed : scopes ∉ source.kept history) :
    source.kept (history ++ [scopes]) = source.kept history ++ [scopes] := by
  have hall := kept_eq_of_room hroom
  have hnew : scopes ∉ history := by
    rw [hall, List.mem_eraseDups] at hmissed
    exact hmissed
  rw [hall] at hroom ⊢
  rw [kept, eraseDups_concat_of_notMem hnew]
  refine List.take_of_length_le ?_
  rw [List.length_append, List.length_singleton]
  exact hroom

/-- The cache holds the scope sets that are kept, and lookups share a verifier just if they are of
the same one of these. -/
structure Sharing (source : VerifierSource) (history : List ScopeSet) (past : Lookups) : Prop where
  entries : past.cache.entries.map Prod.fst = source.kept history
  told : ∀ entry ∈ past.cache.entries, ∀ x ∈ past.answers,
    x.2.serial = entry.2.serial ↔ x.1 = entry.1
  shared : past.answers.Pairwise fun x y =>
    x.2.serial = y.2.serial ↔ x.1 = y.1 ∧ x.1 ∈ source.kept history

/-- A lookup that leaves the entries as they are need only be compared with what came before it. -/
private theorem Sharing.concat (h : Sharing source history past)
    (hkept : source.kept (history ++ [scopes]) = source.kept history)
    (hentries : cache.entries = past.cache.entries)
    (htold : ∀ entry ∈ past.cache.entries, shared.serial = entry.2.serial ↔ scopes = entry.1)
    (hshared : ∀ x ∈ past.answers,
      x.2.serial = shared.serial ↔ x.1 = scopes ∧ x.1 ∈ source.kept history) :
    Sharing source (history ++ [scopes]) ⟨past.answers ++ [(scopes, shared)], cache⟩ := by
  refine ⟨by rw [hkept, hentries]; exact h.entries, ?told, ?shared⟩
  case told =>
    intro entry hentry x hx
    rw [hentries] at hentry
    rcases List.mem_append.mp hx with hx | hx
    · exact h.told entry hentry x hx
    · rw [List.mem_singleton.mp hx]
      exact htold entry hentry
  case shared =>
    rw [hkept]
    refine List.pairwise_append.mpr ⟨h.shared, List.pairwise_singleton _ _, ?_⟩
    intro x hx y hy
    rw [List.mem_singleton.mp hy]
    exact hshared x hx

private theorem Sharing.full (h : Sharing source history past) (hcounted : Counted history past)
    (hmissed : scopes ∉ past.cache.entries.map Prod.fst)
    (hfull : source.settings.maxEntries ≤ past.cache.entries.length)
    (hentries : cache.entries = past.cache.entries) (hserial : shared.serial = past.cache.misses) :
    Sharing source (history ++ [scopes]) ⟨past.answers ++ [(scopes, shared)], cache⟩ := by
  have hkept : source.kept (history ++ [scopes]) = source.kept history := by
    apply kept_concat_of_full
    rw [← h.entries, List.length_map]
    exact hfull
  rw [h.entries] at hmissed
  refine h.concat hkept hentries (fun entry hentry => ?_) fun x hx => ?_
  · have hkey : entry.1 ∈ source.kept history := h.entries ▸ List.mem_map_of_mem hentry
    refine iff_of_false (fun heq => ?_) fun heq => hmissed (heq ▸ hkey)
    exact hcounted.serial_ne (hcounted.cached hentry) (heq.symm.trans hserial)
  · refine iff_of_false (fun heq => ?_) fun ⟨heq, hmem⟩ => hmissed (heq ▸ hmem)
    exact hcounted.serial_ne hx (heq.trans hserial)

private theorem Sharing.added (h : Sharing source history past) (hcounted : Counted history past)
    (hmissed : scopes ∉ past.cache.entries.map Prod.fst)
    (hroom : past.cache.entries.length < source.settings.maxEntries)
    (hentries : cache.entries = past.cache.entries ++ [(scopes, shared)])
    (hserial : shared.serial = past.cache.misses) :
    Sharing source (history ++ [scopes]) ⟨past.answers ++ [(scopes, shared)], cache⟩ := by
  rw [h.entries] at hmissed
  have hlength : (source.kept history).length < source.settings.maxEntries := by
    rw [← h.entries, List.length_map]
    exact hroom
  have hkept := kept_concat_of_room hlength hmissed
  have hkey : ∀ x ∈ past.answers, x.1 ∈ source.kept history := by
    intro x hx
    rw [kept_eq_of_room hlength, List.mem_eraseDups, ← hcounted.looked]
    exact List.mem_map_of_mem hx
  have hold : ∀ x ∈ past.answers, x.2.serial = shared.serial ↔ x.1 = scopes := by
    intro x hx
    refine iff_of_false (fun heq => ?_) fun heq => hmissed (heq ▸ hkey x hx)
    exact hcounted.serial_ne hx (heq.trans hserial)
  refine ⟨by rw [hkept, hentries, List.map_append, h.entries]; rfl, ?told, ?shared⟩
  case told =>
    intro entry hentry x hx
    rw [hentries] at hentry
    rcases List.mem_append.mp hentry with hentry | hentry <;>
      rcases List.mem_append.mp hx with hx | hx
    · exact h.told entry hentry x hx
    · rw [List.mem_singleton.mp hx]
      exact eq_comm.trans ((hold entry (hcounted.cached hentry)).trans eq_comm)
    · rw [List.mem_singleton.mp hentry]
      exact hold x hx
    · rw [List.mem_singleton.mp hentry, List.mem_singleton.mp hx]
      exact iff_of_true rfl rfl
  case shared =>
    rw [hkept]
    refine List.pairwise_append.mpr ⟨?_, List.pairwise_singleton _ _, ?_⟩
    · refine h.shared.imp_of_mem fun {x y} hx _ hxy => ?_
      simp only [hxy, hkey x hx, List.mem_append, true_or]
    · intro x hx y hy
      rw [List.mem_singleton.mp hy]
      refine (hold x hx).trans ⟨fun heq => ⟨heq, ?_⟩, And.left⟩
      exact List.mem_append_left _ (hkey x hx)

private theorem Sharing.hit (h : Sharing source history past) (hcounted : Counted history past)
    (hfound : (scopes, shared) ∈ past.cache.entries)
    (hentries : cache.entries = past.cache.entries) :
    Sharing source (history ++ [scopes]) ⟨past.answers ++ [(scopes, shared)], cache⟩ := by
  have hkey : scopes ∈ source.kept history := by
    rw [← h.entries]
    exact List.mem_map_of_mem hfound
  have hkept : source.kept (history ++ [scopes]) = source.kept history :=
    kept_concat_of_mem (mem_history_of_mem_kept hkey)
  refine h.concat hkept hentries (fun entry hentry => ?_) fun x hx => ?_
  · exact h.told entry hentry _ (hcounted.cached hfound)
  · refine (h.told _ hfound x hx).trans ⟨fun heq => ⟨heq, ?_⟩, And.left⟩
    exact (heq : x.1 = scopes) ▸ hkey

private theorem sharing_lookups (henabled : source.settings.enabled = true)
    (history : List ScopeSet) :
    Sharing source history (source.lookups history) := by
  have hboth : Counted history (source.lookups history) ∧
      Sharing source history (source.lookups history) := by
    induction history using lookups_induct with
    | nil => exact ⟨⟨rfl, rfl, nofun, nofun⟩, by simp [VerifierCache.empty, kept], nofun, .nil⟩
    | next history past scopes shared cache ih hfinds =>
      obtain ⟨hcounted, hsharing⟩ := ih
      refine ⟨hcounted.next hfinds, ?_⟩
      cases hfinds with
      | disabled h => simp [henabled] at h
      | hit _ hfound => exact hsharing.hit hcounted hfound rfl
      | full _ hmissed hfull => exact hsharing.full hcounted hmissed hfull rfl rfl
      | added _ hmissed hroom => exact hsharing.added hcounted hmissed hroom rfl rfl
  exact hboth.2

private theorem hits_lookups_concat (henabled : source.settings.enabled = true)
    (history : List ScopeSet) (scopes : ScopeSet) :
    (source.lookups (history ++ [scopes])).cache.hits =
      (source.lookups history).cache.hits + if scopes ∈ source.kept history then 1 else 0 := by
  have hentries := (sharing_lookups henabled history).entries
  obtain ⟨shared, cache, hfinds, hnext⟩ := source.exists_finds history scopes
  rw [hnext, ← hentries]
  cases hfinds with
  | disabled h => simp [henabled] at h
  | hit _ hfound =>
    have hmem := List.mem_map_of_mem (f := Prod.fst) hfound
    rw [if_pos hmem]
  | full _ hmissed _ =>
    rw [if_neg hmissed]
    rfl
  | added _ hmissed _ =>
    rw [if_neg hmissed]
    rfl

private theorem entries_lookups_append (source : VerifierSource) (before after : List ScopeSet) :
    (source.lookups before).cache.entries <+: (source.lookups (before ++ after)).cache.entries := by
  induction after using List.reverseRecOn with
  | nil =>
    simp only [List.append_nil]
    exact List.prefix_rfl
  | append_singleton after scopes ih =>
    obtain ⟨shared, cache, hfinds, hnext⟩ := source.exists_finds (before ++ after) scopes
    rw [← List.append_assoc, hnext]
    refine ih.trans ?_
    cases hfinds with
    | added => exact List.prefix_append _ _
    | _ => exact List.prefix_rfl

/-- Hits and misses add up to the lookups. Without a cache there are no hits, no entries and no
shared verifiers. With a cache, the scope sets that it holds at any time are those among the first
distinct ones of the whole history that have been looked up so far, and what it holds stays; a
lookup hits just if its scope set is one of these and has been looked up before; and two lookups are
given the same verifier just if they are of the same one of these. Scope sets are the same however
they are written. -/
theorem lookups_shared (source : VerifierSource) (history : List ScopeSet) :
    (source.lookups history).answers.map Prod.fst = history ∧
    (source.lookups history).cache.hits + (source.lookups history).cache.misses =
      history.length ∧
    (source.settings.enabled = false →
      (source.lookups history).cache.hits = 0 ∧ (source.lookups history).cache.entries = [] ∧
      (source.lookups history).answers.Pairwise fun x y => x.2.serial ≠ y.2.serial) ∧
    (source.settings.enabled = true →
      (∀ before after, before ++ after = history →
        (source.lookups before).cache.entries.map Prod.fst =
          (source.kept history).filter (· ∈ before) ∧
        (source.lookups before).cache.entries <+: (source.lookups history).cache.entries) ∧
      (source.kept history).Nodup ∧
      (source.lookups history).cache.entries.length ≤ source.settings.maxEntries ∧
      (∀ before scopes after, before ++ scopes :: after = history →
        (source.lookups (before ++ [scopes])).cache.hits = (source.lookups before).cache.hits +
          if scopes ∈ source.kept history ∧ scopes ∈ before then 1 else 0) ∧
      (source.lookups history).answers.Pairwise fun x y =>
        x.2.serial = y.2.serial ↔ x.1 = y.1 ∧ x.1 ∈ source.kept history) ∧
    ∀ l other : List String, (∀ scope, scope ∈ l ↔ scope ∈ other) →
      ScopeSet.ofScopes l = ScopeSet.ofScopes other := by
  have hcounted := source.counted_lookups history
  refine ⟨hcounted.looked, hcounted.counted, fun henabled => lookups_of_disabled henabled history,
    fun henabled => ?_, fun l other => ScopeSet.ofScopes_congr⟩
  have hsharing := sharing_lookups henabled history
  refine ⟨?entries, source.nodup_kept history, ?length, ?hits, hsharing.shared⟩
  case entries =>
    rintro before after rfl
    rw [filter_kept_append, (sharing_lookups henabled before).entries]
    exact ⟨rfl, source.entries_lookups_append before after⟩
  case length =>
    have hlength := source.length_kept_le history
    rwa [← hsharing.entries, List.length_map] at hlength
  case hits =>
    rintro before scopes after rfl
    rw [hits_lookups_concat henabled]
    simp only [mem_kept_append_iff]

section Witness

private def narrowSource : VerifierSource :=
  ⟨⟨[]⟩, ⟨true, 1⟩⟩

/-- Two scopes are looked up, then a single one, then the two in another order, then the single one
again. -/
private def mixedHistory : List ScopeSet :=
  [.ofScopes ["read", "write"], .ofScopes ["read"], .ofScopes ["write", "read", "write"],
    .ofScopes ["read"]]

/-- The two scopes are found, as they are first; the single one is built anew each time. -/
theorem lookups_shared_of_narrow :
    narrowSource.settings.enabled = true ∧
    narrowSource.kept mixedHistory = [.ofScopes ["read", "write"]] ∧
    (narrowSource.lookups mixedHistory).cache.entries.map Prod.fst =
      [.ofScopes ["read", "write"]] ∧
    (narrowSource.lookups mixedHistory).cache.misses = 3 ∧
    (narrowSource.lookups mixedHistory).answers.map (·.2.serial) = [0, 1, 0, 2] ∧
    (narrowSource.lookups mixedHistory).answers.Pairwise fun x y =>
      x.2.serial = y.2.serial ↔ x.1 = y.1 ∧ x.1 ∈ [ScopeSet.ofScopes ["read", "write"]] := by
  have henabled : narrowSource.settings.enabled = true := rfl
  have hkept : narrowSource.kept mixedHistory = [.ofScopes ["read", "write"]] := by decide
  have hhits : (narrowSource.lookups mixedHistory).cache.hits = 1 := by decide
  have hserials : (narrowSource.lookups mixedHistory).answers.map (·.2.serial) = [0, 1, 0, 2] := by
    decide
  obtain ⟨-, hcount, -, hcached, -⟩ := lookups_shared narrowSource mixedHistory
  obtain ⟨hentries, -, -, -, hpairs⟩ := hcached henabled
  obtain ⟨hkeys, -⟩ := hentries mixedHistory [] (List.append_nil _)
  rw [hkept] at hkeys hpairs
  refine ⟨henabled, hkept, hkeys.trans (by decide), ?_, hserials, hpairs⟩
  have hlength : mixedHistory.length = 4 := rfl
  omega

end Witness

end VerifierSource

end FieldAuthorization
