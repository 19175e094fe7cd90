import FieldAuthorization.Proofs.Access.Union
import FieldAuthorization.Proofs.Pattern.Groups
import FieldAuthorization.Proofs.Pattern.Language

/-!
Patterns select the scopes that they match as a whole.

A pattern is anchored by its text: it is put in a group between two assertions. It is read there as
it is by itself if the group holds all of it, that is if no comment of the pattern runs on over the
end of the group and no parenthesis of the pattern ends the group.
-/

set_option autoImplicit false
set_option relaxedAutoImplicit false

namespace FieldAuthorization

namespace Pattern

variable {text rest : List Char} {n : Node}

/-- The expression that a text begins with, and the text behind it. -/
def read? (text : List Char) : Option (Node × List Char) :=
  (alternatives (2 * text.length + 2) ⟨text, .initial, []⟩).map fun p =>
    (.ofBranches p.1, p.2.rest)

private theorem read?_eq_some : read? text = some (n, rest) ↔ ∃ branches flags names,
    alternatives (2 * text.length + 2) ⟨text, .initial, []⟩ =
      some (branches, ⟨rest, flags, names⟩) ∧ Node.ofBranches branches = n := by
  constructor
  · intro h
    obtain ⟨⟨branches, st⟩, hread, heq⟩ := Option.map_eq_some_iff.mp h
    cases heq
    exact ⟨branches, st.flags, st.names, hread, rfl⟩
  · rintro ⟨branches, flags, names, hread, rfl⟩
    rw [read?, hread]
    rfl

private theorem parse?_eq_some {s : String} {r : Regex} : Regex.parse? s = some r ↔
    ∃ n, read? s.toList = some (n, []) ∧ n.height ≤ maxHeight ∧ n.regex = r := by
  unfold Regex.parse? read?
  simp only [StateT.run]
  cases alternatives (2 * s.toList.length + 2) ⟨s.toList, .initial, []⟩ with
  | none => simp
  | some p =>
    obtain ⟨branches, ⟨rest, flags, names⟩⟩ := p
    cases rest with
    | nil => simp
    | cons c rest => simp

private theorem read?_stops (h : read? text = some (n, rest)) :
    rest = [] ∨ ∃ after, rest = ')' :: after := by
  obtain ⟨branches, flags, names, hread, -⟩ := read?_eq_some.mp h
  exact alternatives_stops hread

private theorem alternatives_eq {fuel : Nat} (hfuel : 2 * text.length + 2 ≤ fuel) :
    alternatives fuel ⟨text, .initial, []⟩ =
      alternatives (2 * text.length + 2) ⟨text, .initial, []⟩ :=
  expression_congr.1 hfuel (Nat.le_refl _)

private theorem closing_fuel :
    2 * text.length + 2 ≤ 2 * (text ++ closing).length + 2 := by
  rw [List.length_append]
  omega

private theorem read?_of_closing (h : read? (text ++ closing) = some (n, ')' :: rest)) :
    ∃ before, ')' :: rest = before ++ closing ∧ read? text = some (n, before) := by
  obtain ⟨branches, flags, names, hread, rfl⟩ := read?_eq_some.mp h
  have hlocal := (local_expression (2 * (text ++ closing).length + 2)).1
  have hread : alternatives _ (State.closed ⟨text, .initial, []⟩) = _ := hread
  rcases hlocal.back hread with hlt | ⟨⟨before, _, _⟩, heq, hbefore | hbad⟩
  · -- a single character is left, and the last one is no parenthesis
    obtain rfl : rest = [] :=
      List.length_eq_zero_iff.mp (Nat.lt_one_iff.mp (Nat.lt_of_succ_lt_succ hlt))
    obtain ⟨front, hfront⟩ := hlocal.suffix hread
    have hlast := congrArg List.getLast? hfront
    simp [closing] at hlast
  · rw [alternatives_eq closing_fuel] at hbefore
    exact ⟨before, congrArg State.rest heq, read?_eq_some.mpr ⟨branches, _, _, hbefore, rfl⟩⟩
  · exact hbad.elim

private theorem read?_closing {branches : List Node} {flags : Flags} {names : List (List Char)}
    (h : alternatives (2 * text.length + 2) ⟨text, .initial, []⟩ =
      some (branches, ⟨[], flags, names⟩)) (hspaced : flags.spaced = false) :
    read? (text ++ closing) = some (.ofBranches branches, closing) := by
  rw [← alternatives_eq closing_fuel] at h
  rcases (local_expression _).1.forth h with hclosed | ⟨-, hflags⟩
  · exact read?_eq_some.mpr ⟨branches, flags, names, hclosed, rfl⟩
  · rw [hspaced] at hflags
    simp at hflags

private theorem sequence_start (fuel : Nat) (text : List Char) :
    sequence (fuel + 1) [] ⟨'^' :: text, .initial, []⟩ =
      sequence fuel [.node ⟨.assertion .textStart, 0⟩] ⟨text, .initial, []⟩ :=
  rfl

private def group (branches : List Node) : Item :=
  .node ⟨(Node.ofBranches branches).regex, 1 + (Node.ofBranches branches).height⟩

private theorem sequence_group (fuel : Nat) (items : List Item) (text : List Char) :
    sequence (fuel + 1) items ⟨'(' :: '?' :: ':' :: text, .initial, []⟩ =
      (alternatives fuel >>= fun branches =>
        groupEnd .initial (sequence fuel (group branches :: items))) ⟨text, .initial, []⟩ :=
  rfl

private theorem sequence_end (fuel : Nat) (items : List Item) (names : List (List Char)) :
    sequence (fuel + 2) items ⟨['$'], .initial, names⟩ =
      some (.ofItems (.node ⟨.assertion .textEnd, 0⟩ :: items), ⟨[], .initial, names⟩) :=
  rfl

def opening : List Char :=
  ['^', '(', '?', ':']

private theorem sequence_opening (text : List Char) :
    sequence (2 * (opening ++ text).length + 1) [] ⟨opening ++ text, .initial, []⟩ =
      (alternatives (2 * text.length + 2) >>= fun branches => groupEnd .initial
        (sequence (2 * text.length + 7) [group branches, .node ⟨.assertion .textStart, 0⟩]))
        ⟨text, .initial, []⟩ := by
  have hfuel : 2 * (opening ++ text).length + 1 = (2 * text.length + 7) + 2 := by
    simp only [opening, List.length_append, List.length_cons, List.length_nil]
    omega
  rw [hfuel]
  refine (sequence_start _ _).trans ((sequence_group _ _ text).trans ?_)
  exact bind_congr_run (alternatives_eq (by omega)) fun _ _ _ => rfl

private theorem read?_anchored (h : read? text = some (n, closing)) : read? (opening ++ text) =
    some (⟨.seq (.assertion .textStart) (.seq n.regex (.assertion .textEnd)), n.height + 2⟩,
      []) := by
  obtain ⟨branches, flags, names, hread, rfl⟩ := read?_eq_some.mp h
  have hgroup := sequence_opening text
  rw [bind_of_eq hread, groupEnd_eq_some.mpr ⟨['$'], rfl, sequence_end _ _ _⟩] at hgroup
  have hheight : ∀ h : Nat, 1 + max (max 0 (1 + h)) 0 = h + 2 := by omega
  refine read?_eq_some.mpr ⟨_, _, _, bind_of_eq hgroup, ?_⟩
  exact congrArg (Node.mk _) (hheight _)

private theorem read?_anchored_none (h : ∀ n rest, read? text ≠ some (n, ')' :: rest)) :
    read? (opening ++ text) = none := by
  rw [read?, Option.map_eq_none_iff]
  refine bind_of_none ?_
  rw [sequence_opening, Option.eq_none_iff_forall_ne_some]
  intro p hp
  obtain ⟨branches, ⟨rest, flags, names⟩, hread, hend⟩ := bind_eq_some.mp hp
  obtain ⟨after, rfl, -⟩ := groupEnd_eq_some.mp hend
  exact h _ after (read?_eq_some.mpr ⟨branches, flags, names, hread, rfl⟩)

end Pattern

namespace ScopePattern

open Pattern

/-- Whether a pattern is valid and matches the whole of a scope. -/
def selects (source scope : String) : Bool :=
  (Regex.parse? source).any fun r => decide (r.MatchesWhole scope)

/-- Patterns are found by what each of them is by itself: there is an error just if one is invalid,
which then is the first such one, and otherwise the first that matches all of a scope is found. -/
def Faithful (sources : List String) : Prop :=
  match compileAll sources with
  | .ok patterns => (∀ source ∈ sources, (Regex.parse? source).isSome) ∧
      ∀ scope, (find? patterns scope).map ScopePattern.source = sources.find? (selects · scope)
  | .error source => sources.find? (fun s => (Regex.parse? s).isNone) = some source

/-- A pattern that the group around it holds. -/
structure Contained (source : String) : Prop where
  /-- The group and the sequence around it nest as well. -/
  shallow : ∀ n, read? source.toList = some (n, []) → n.height ≤ maxHeight →
    n.height + 2 ≤ maxHeight
  /-- The end of the group is not in a comment that the pattern leaves open. -/
  closed : ∀ n, read? source.toList = some (n, []) → n.height ≤ maxHeight →
    read? (source.toList ++ closing) = some (n, closing)
  /-- A pattern that ends the group by a parenthesis of its own does not compile. -/
  balanced : ∀ n rest, read? source.toList = some (n, ')' :: rest) → compile? source = none

variable {source : String} {p : ScopePattern}

private theorem toList_anchored (source : String) :
    (anchored source).toList = opening ++ (source.toList ++ closing) := by
  rw [anchored, String.toList_append, String.toList_append, List.append_assoc]
  rfl

private theorem compile?_eq_some_of_closing {n : Node}
    (h : read? (source.toList ++ closing) = some (n, closing)) : compile? source = some p ↔
      n.height + 2 ≤ maxHeight ∧
        p = ⟨source, .seq (.assertion .textStart) (.seq n.regex (.assertion .textEnd))⟩ := by
  have hanchored := read?_anchored h
  rw [← toList_anchored] at hanchored
  rw [compile?, Option.map_eq_some_iff]
  simp only [parse?_eq_some, hanchored, Option.some.injEq, Prod.mk.injEq, and_true, exists_eq_left']
  constructor
  · rintro ⟨_, ⟨hheight, rfl⟩, rfl⟩
    exact ⟨hheight, rfl⟩
  · rintro ⟨hheight, rfl⟩
    exact ⟨_, ⟨hheight, rfl⟩, rfl⟩

private theorem compile?_eq_none
    (h : ∀ n rest, read? (source.toList ++ closing) ≠ some (n, ')' :: rest)) :
    compile? source = none := by
  have hanchored := read?_anchored_none h
  rw [← toList_anchored] at hanchored
  rw [compile?, Option.map_eq_none_iff, Option.eq_none_iff_forall_ne_some]
  intro r hr
  obtain ⟨n, hread, -⟩ := parse?_eq_some.mp hr
  rw [hanchored] at hread
  cases hread

private theorem read?_of_compile? (h : compile? source = some p) :
    ∃ n rest, read? source.toList = some (n, rest) ∧
      read? (source.toList ++ closing) = some (n, rest ++ closing) := by
  by_contra hnone
  rw [compile?_eq_none fun n rest hread => hnone ?_] at h
  · cases h
  · obtain ⟨before, hbefore, hsource⟩ := read?_of_closing hread
    exact ⟨n, before, hsource, hbefore ▸ hread⟩

private theorem contained_iff :
    Contained source ↔ ((compile? source).isSome ↔ (Regex.parse? source).isSome) := by
  simp only [Option.isSome_iff_exists]
  constructor
  · refine fun h => ⟨fun ⟨p, hp⟩ => ?_, fun ⟨r, hr⟩ => ?_⟩
    · obtain ⟨n, rest, hsource, hclosed⟩ := read?_of_compile? hp
      rcases read?_stops hsource with rfl | ⟨after, rfl⟩
      · obtain ⟨hheight, -⟩ := (compile?_eq_some_of_closing hclosed).mp hp
        exact ⟨n.regex, parse?_eq_some.mpr ⟨n, hsource, Nat.le_of_add_right_le hheight, rfl⟩⟩
      · rw [h.balanced n after hsource] at hp
        cases hp
    · obtain ⟨n, hread, hheight, -⟩ := parse?_eq_some.mp hr
      exact ⟨_, (compile?_eq_some_of_closing (h.closed n hread hheight)).mpr
        ⟨h.shallow n hread hheight, rfl⟩⟩
  · intro h
    have hvalid : ∀ n, read? source.toList = some (n, []) → n.height ≤ maxHeight →
        read? (source.toList ++ closing) = some (n, closing) ∧ n.height + 2 ≤ maxHeight := by
      intro n hread hheight
      obtain ⟨p, hp⟩ := h.mpr ⟨n.regex, parse?_eq_some.mpr ⟨n, hread, hheight, rfl⟩⟩
      obtain ⟨m, rest, hsource, hclosed⟩ := read?_of_compile? hp
      rw [hread] at hsource
      cases hsource
      exact ⟨hclosed, ((compile?_eq_some_of_closing hclosed).mp hp).1⟩
    refine ⟨fun n hread hheight => (hvalid n hread hheight).2,
      fun n hread hheight => (hvalid n hread hheight).1, fun n rest hread => ?_⟩
    rw [Option.eq_none_iff_forall_ne_some]
    intro p hp
    obtain ⟨r, hr⟩ := h.mp ⟨p, hp⟩
    obtain ⟨m, hwhole, -⟩ := parse?_eq_some.mp hr
    rw [hread] at hwhole
    cases hwhole

/-- Whether a pattern is valid with two levels to spare, and blanks have a meaning at its end. -/
def isPlain (source : String) : Bool :=
  (alternatives (2 * source.toList.length + 2) ⟨source.toList, .initial, []⟩).any fun p =>
    p.2.rest.isEmpty && !p.2.flags.spaced && decide ((Node.ofBranches p.1).height + 2 ≤ maxHeight)

private theorem contained_of_isPlain (h : isPlain source) : Contained source := by
  obtain ⟨⟨branches, ⟨rest, flags, names⟩⟩, hread, hplain⟩ := (Option.any_eq_true _ _).mp h
  simp only [Bool.and_eq_true, List.isEmpty_iff, Bool.not_eq_true', decide_eq_true_iff] at hplain
  obtain ⟨⟨rfl, hspaced⟩, hheight⟩ := hplain
  have hwhole : read? source.toList = some (.ofBranches branches, []) :=
    read?_eq_some.mpr ⟨branches, flags, names, hread, rfl⟩
  refine ⟨fun n hn _ => ?_, fun n hn _ => ?_, fun n rest hn => ?_⟩
  all_goals
    rw [hwhole] at hn
    cases hn
  · exact hheight
  · exact read?_closing hread hspaced

private theorem matchesScope_eq_selects (h : compile? source = some p)
    (hvalid : (Regex.parse? source).isSome) (scope : String) :
    p.matchesScope scope = selects source scope := by
  obtain ⟨n, rest, hsource, hclosed⟩ := read?_of_compile? h
  obtain ⟨r, hr⟩ := Option.isSome_iff_exists.mp hvalid
  obtain ⟨m, hread, -, rfl⟩ := parse?_eq_some.mp hr
  rw [hsource] at hread
  cases hread
  obtain ⟨-, rfl⟩ := (compile?_eq_some_of_closing hclosed).mp h
  rw [Bool.eq_iff_iff, selects, hr, Option.any_some, decide_eq_true_iff]
  exact Regex.isMatch_between_iff

private theorem source_of_compile? (h : compile? source = some p) : p.source = source := by
  obtain ⟨r, -, rfl⟩ := Option.map_eq_some_iff.mp h
  rfl

private theorem compileAll_cons (source : String) (sources : List String) :
    compileAll (source :: sources) =
      match compile? source with
      | none => .error source
      | some p => (compileAll sources).map (p :: ·) := by
  rw [compileAll, List.mapM_cons]
  cases compile? source with
  | none => rfl
  | some p =>
    show (compileAll sources >>= fun patterns => _) = _
    cases compileAll sources <;> rfl

private theorem find?_eq_of_valid {sources : List String} {patterns : List ScopePattern}
    (h : compileAll sources = .ok patterns)
    (hvalid : ∀ source ∈ sources, (Regex.parse? source).isSome) (scope : String) :
    (find? patterns scope).map ScopePattern.source = sources.find? (selects · scope) := by
  have hcompiled := compileAll_eq_ok h
  clear h
  unfold find?
  induction hcompiled with
  | nil => rfl
  | @cons source p sources patterns hp _ ih =>
    have hmatches := matchesScope_eq_selects hp (hvalid source List.mem_cons_self) scope
    rw [List.find?_cons, List.find?_cons, hmatches]
    cases selects source scope with
    | true => exact congrArg some (source_of_compile? hp)
    | false => exact ih fun s hs => hvalid s (List.mem_cons_of_mem _ hs)

private theorem faithful_iff_of_ok {sources : List String} {patterns : List ScopePattern}
    (h : compileAll sources = .ok patterns) :
    Faithful sources ↔ ∀ source ∈ sources, (Regex.parse? source).isSome := by
  unfold Faithful
  rw [h]
  exact ⟨And.left, fun hvalid => ⟨hvalid, find?_eq_of_valid h hvalid⟩⟩

private theorem faithful_iff_of_error {sources : List String}
    (h : compileAll sources = .error source) :
    Faithful sources ↔ sources.find? (fun s => (Regex.parse? s).isNone) = some source := by
  unfold Faithful
  rw [h]

private theorem compile?_of_error {sources : List String} (h : compileAll sources = .error source) :
    compile? source = none := by
  induction sources with
  | nil => cases h
  | cons head sources ih =>
    rw [compileAll_cons] at h
    cases hcompile : compile? head with
    | none =>
      rw [hcompile] at h
      cases h
      exact hcompile
    | some p =>
      rw [hcompile] at h
      cases hsources : compileAll sources with
      | error e =>
        rw [hsources] at h
        cases h
        exact ih hsources
      | ok patterns =>
        rw [hsources] at h
        cases h

private theorem faithful_cons (hvalid : (Regex.parse? source).isSome) (sources : List String) :
    Faithful (source :: sources) ↔ Contained source ∧ Faithful sources := by
  have hall := compileAll_cons source sources
  rw [contained_iff, iff_true_right hvalid]
  cases hcompile : compile? source with
  | none =>
    rw [hcompile] at hall
    rw [faithful_iff_of_error hall]
    simp only [Option.isSome_none, Bool.false_eq_true, false_and, iff_false]
    intro hfind
    have hnone := List.find?_some hfind
    simp [Option.isSome_iff_ne_none.mp hvalid] at hnone
  | some p =>
    rw [hcompile] at hall
    rw [Option.isSome_some, and_iff_right rfl]
    cases hsources : compileAll sources with
    | error e =>
      rw [hsources] at hall
      rw [faithful_iff_of_error hall, faithful_iff_of_error hsources,
        List.find?_cons_of_neg (by simpa using Option.isSome_iff_ne_none.mp hvalid)]
    | ok patterns =>
      rw [hsources] at hall
      rw [faithful_iff_of_ok hall, faithful_iff_of_ok hsources, List.forall_mem_cons,
        and_iff_right hvalid]

private theorem faithful_cons_of_none (hnone : Regex.parse? source = none) (sources : List String) :
    Faithful (source :: sources) ↔ Contained source := by
  have hall := compileAll_cons source sources
  have hfirst : (source :: sources).find? (fun s => (Regex.parse? s).isNone) = some source :=
    List.find?_cons_of_pos (by rw [hnone]; rfl)
  rw [contained_iff, hnone]
  cases hcompile : compile? source with
  | none =>
    rw [hcompile] at hall
    simp [faithful_iff_of_error hall, hfirst]
  | some p =>
    rw [hcompile] at hall
    simp only [Option.isSome_some, Option.isSome_none, Bool.false_eq_true, iff_false,
      not_true_eq_false]
    cases hsources : compileAll sources with
    | error e =>
      rw [hsources] at hall
      rw [faithful_iff_of_error hall, hfirst]
      rintro ⟨⟩
      rw [compile?_of_error hsources] at hcompile
      cases hcompile
    | ok patterns =>
      rw [hsources] at hall
      rw [faithful_iff_of_ok hall, List.forall_mem_cons, hnone]
      simp

/-- Patterns are found by what each of them is by itself just if the group holds every pattern up to
the first invalid one. -/
theorem faithful_iff (sources : List String) : Faithful sources ↔
    ∀ before source after, sources = before ++ source :: after →
      (∀ s ∈ before, (Regex.parse? s).isSome) → Contained source := by
  induction sources with
  | nil =>
    refine ⟨fun _ before source after h => ?_, fun _ => ⟨by simp, fun _ => rfl⟩⟩
    simp at h
  | cons head sources ih =>
    cases hvalid : Regex.parse? head with
    | none =>
      rw [faithful_cons_of_none hvalid]
      refine ⟨fun h before source after hsplit hbefore => ?_,
        fun h => h [] head sources rfl (by simp)⟩
      cases before with
      | nil =>
        cases hsplit
        exact h
      | cons first before =>
        cases hsplit
        simpa [hvalid] using hbefore head List.mem_cons_self
    | some r =>
      have hhead : (Regex.parse? head).isSome := by rw [hvalid]; rfl
      rw [faithful_cons hhead, ih]
      constructor
      · rintro ⟨hcontained, h⟩ (_ | ⟨first, before⟩) source after hsplit hbefore
        · cases hsplit
          exact hcontained
        · cases hsplit
          exact h before source after rfl fun s hs => hbefore s (List.mem_cons_of_mem _ hs)
      · refine fun h => ⟨h [] head sources rfl (by simp),
          fun before source after hsplit hbefore => ?_⟩
        exact h (head :: before) source after (congrArg _ hsplit)
          (List.forall_mem_cons.mpr ⟨hhead, hbefore⟩)

section Witness

private theorem contained_alternation : Contained "admin|root" :=
  contained_of_isPlain (by cbv)

private theorem contained_support : Contained "support:.*" :=
  contained_of_isPlain (by cbv)

private theorem contained_empty : Contained "" :=
  contained_of_isPlain (by cbv)

theorem faithful_of_alternation : Faithful ["admin|root", "support:.*", ""] := by
  rw [faithful_iff]
  intro before source after hsplit _
  have hmem : source ∈ ["admin|root", "support:.*", ""] := by
    rw [hsplit]
    exact List.mem_append_right _ List.mem_cons_self
  simp only [List.mem_cons, List.not_mem_nil, or_false] at hmem
  rcases hmem with rfl | rfl | rfl
  · exact contained_alternation
  · exact contained_support
  · exact contained_empty

/-- A parenthesis ends the group, so that the assertions belong to different alternatives. -/
theorem not_faithful_of_parenthesis : Regex.parse? "a)|(?:b" = none ∧
    ∃ patterns, compileAll ["a)|(?:b"] = .ok patterns ∧ (find? patterns "ax").isSome ∧
      (find? patterns "xb").isSome ∧ ¬ Faithful ["a)|(?:b"] := by
  have hnone : Regex.parse? "a)|(?:b" = none := by cbv
  have hfound : (compile? "a)|(?:b").map (fun p => (p.matchesScope "ax", p.matchesScope "xb")) =
      some (true, true) := by cbv
  obtain ⟨p, hp, hmatches⟩ := Option.map_eq_some_iff.mp hfound
  obtain ⟨hax, hxb⟩ := Prod.mk.inj hmatches
  have hall : compileAll ["a)|(?:b"] = .ok [p] := by
    rw [compileAll_cons, hp]
    rfl
  refine ⟨hnone, [p], hall, ?_, ?_, ?_⟩
  · simp [find?, hax]
  · simp [find?, hxb]
  · rw [faithful_iff_of_ok hall]
    intro hvalid
    have hsource := hvalid _ List.mem_cons_self
    rw [hnone] at hsource
    cases hsource

end Witness

end ScopePattern

end FieldAuthorization
