import FieldAuthorization.Proofs.Access.Sharing
import FieldAuthorization.Proofs.Enforcement.Isolation

/-!
How scopes are written.

A text of scopes is read as the set of its words: the non-empty runs of characters without
separators that cannot be made longer. A separator divides the text into two that are read apart.
So a set of scopes is read from every text that writes them, in any order, any number of times and
with any separators between them, and a request is treated alike whichever of them it presents.
-/

set_option autoImplicit false
set_option relaxedAutoImplicit false

namespace FieldAuthorization

namespace Text

/-- A non-empty run of characters that are no separators, with separators or nothing on either
side. -/
def IsWord (separator : Char → Bool) (s word : List Char) : Prop :=
  word ≠ [] ∧ (∀ c ∈ word, separator c = false) ∧
    ∃ before after, s = before ++ word ++ after ∧
      (∀ c ∈ before.getLast?, separator c = true) ∧ ∀ c ∈ after.head?, separator c = true

variable {separator : Char → Bool} {s t word : List Char} {c : Char}

private theorem splitOn_eq_splitOnP (separator : Char → Bool) (s : List Char) :
    splitOn separator s = s.splitOnP separator := by
  induction s with
  | nil => rw [splitOn, List.splitOnP_nil]
  | cons c s ih =>
    rw [splitOn, ih, List.splitOnP_cons_eq_if_modifyHead]
    cases hpieces : s.splitOnP separator with
    | nil => exact absurd hpieces (List.splitOnP_ne_nil separator s)
    | cons piece rest => rfl

@[simp] theorem words_nil (separator : Char → Bool) : words separator [] = [] :=
  rfl

private theorem words_append_separator (h : separator c = true) (s t : List Char) :
    words separator (s ++ c :: t) = words separator s ++ words separator t := by
  simp only [words, splitOn_eq_splitOnP]
  rw [List.splitOnP_append_cons s t h, List.filter_append]

private theorem words_separator_cons (h : separator c = true) (t : List Char) :
    words separator (c :: t) = words separator t :=
  words_append_separator h [] t

private theorem words_of_free (hne : s ≠ []) (h : ∀ c ∈ s, separator c = false) :
    words separator s = [s] := by
  rw [words, splitOn_eq_splitOnP, List.splitOnP_eq_singleton (by simpa using h)]
  simp [hne]

private theorem words_separators_append (h : ∀ c ∈ s, separator c = true) (t : List Char) :
    words separator (s ++ t) = words separator t := by
  induction s with
  | nil => rfl
  | cons c s ih =>
    obtain ⟨hc, hs⟩ := List.forall_mem_cons.mp h
    rw [List.cons_append, words_separator_cons hc, ih hs]

/-- What holds of every text without separators holds of all texts, if it passes from what is behind
a first separator to the whole. -/
private theorem induct_separated {motive : List Char → Prop} (separator : Char → Bool)
    (free : ∀ s, (∀ c ∈ s, separator c = false) → motive s)
    (divided : ∀ first c rest, (∀ x ∈ first, separator x = false) → separator c = true →
      motive rest → motive (first ++ c :: rest)) (s : List Char) : motive s := by
  -- the characters passed so far are no separators
  suffices hfrom : ∀ first, (∀ c ∈ first, separator c = false) → motive (first ++ s) from
    hfrom [] nofun
  induction s with
  | nil =>
    intro first hfirst
    rw [List.append_nil]
    exact free first hfirst
  | cons c s ih =>
    intro first hfirst
    cases hc : separator c with
    | true => exact divided first c s hfirst hc (ih [] nofun)
    | false =>
      have hlonger := ih (first ++ [c]) (by simpa [or_imp, forall_and, hc] using hfirst)
      rwa [List.append_assoc] at hlonger

private theorem IsWord.append_separator (h : IsWord separator s word) (hc : separator c = true)
    (t : List Char) : IsWord separator (s ++ c :: t) word := by
  obtain ⟨hne, hfree, before, after, rfl, hbefore, hafter⟩ := h
  refine ⟨hne, hfree, before, after ++ c :: t, by simp, hbefore, ?_⟩
  cases after with
  | nil => simpa using hc
  | cons x after => exact hafter

private theorem IsWord.separator_append (h : IsWord separator t word) (hc : separator c = true)
    (s : List Char) : IsWord separator (s ++ c :: t) word := by
  obtain ⟨hne, hfree, before, after, rfl, hbefore, hafter⟩ := h
  refine ⟨hne, hfree, s ++ c :: before, after, by simp, ?_, hafter⟩
  cases before with
  | nil => simpa using hc
  | cons x before => simpa [List.getLast?_append] using hbefore

private theorem isWord_of_mem_words (h : word ∈ words separator s) : IsWord separator s word := by
  have hfree : ∀ s, (∀ c ∈ s, separator c = false) → word ∈ words separator s →
      IsWord separator s word := by
    intro s hs hword
    by_cases hne : s = []
    · subst hne
      exact absurd hword List.not_mem_nil
    · rw [words_of_free hne hs, List.mem_singleton] at hword
      subst hword
      exact ⟨hne, hs, [], [], by simp, nofun, nofun⟩
  induction s using induct_separated separator with
  | free s hs => exact hfree s hs h
  | divided first c rest hfirst hc ih =>
    rw [words_append_separator hc] at h
    rcases List.mem_append.mp h with hword | hword
    · exact (hfree first hfirst hword).append_separator hc rest
    · exact (ih hword).separator_append hc first

private theorem mem_words_of_isWord (h : IsWord separator s word) : word ∈ words separator s := by
  obtain ⟨hne, hfree, before, after, rfl, hbefore, hafter⟩ := h
  have hrest : word ∈ words separator (word ++ after) := by
    cases after with
    | nil => simp [words_of_free hne hfree]
    | cons c after =>
      rw [words_append_separator (hafter c rfl), words_of_free hne hfree]
      exact List.mem_append_left _ (List.mem_singleton.mpr rfl)
  rcases List.eq_nil_or_concat before with rfl | ⟨first, c, rfl⟩
  · exact hrest
  · have hc : separator c = true := hbefore c (by simp)
    rw [List.append_assoc, List.concat_eq_append, List.append_assoc, List.singleton_append,
      words_append_separator hc]
    exact List.mem_append_right _ hrest

private theorem mem_words_iff : word ∈ words separator s ↔ IsWord separator s word :=
  ⟨isWord_of_mem_words, mem_words_of_isWord⟩

end Text

namespace ScopeSet

/-- A text that can stand for itself among others: it is not empty and has no separator. -/
def IsScope (scope : String) : Prop :=
  scope ≠ "" ∧ ∀ c ∈ scope.toList, isSeparator c = false

/-- A text of separators alone. -/
def IsGap (gap : String) : Prop :=
  ∀ c ∈ gap.toList, isSeparator c = true

/-- A text writes scopes in order, with gaps around them and at least one separator between any two
of them. -/
inductive Writes : String → List String → Prop
  | gap {gap : String} : IsGap gap → Writes gap []
  | last {gap scope : String} : IsGap gap → IsScope scope → Writes (gap ++ scope) [scope]
  | next {gap scope text : String} {c : Char} {scopes : List String} :
      IsGap gap → IsScope scope → isSeparator c = true → Writes text scopes →
      Writes (gap ++ scope ++ String.singleton c ++ text) (scope :: scopes)

variable {scope text : String} {scopes : List String} {c : Char}

private theorem mem_ofScopes : scope ∈ ofScopes scopes ↔ scope ∈ scopes := by
  rw [ofScopes, Std.ExtTreeSet.mem_ofList, List.contains_iff_mem]

private theorem mem_parse_iff (text scope : String) :
    scope ∈ parse text ↔ Text.IsWord isSeparator text.toList scope.toList := by
  rw [parse, mem_ofScopes, ← Text.mem_words_iff]
  constructor
  · intro h
    obtain ⟨word, hword, rfl⟩ := List.mem_map.mp h
    rwa [String.toList_ofList]
  · intro h
    exact List.mem_map.mpr ⟨scope.toList, h, String.ofList_toList⟩

private theorem parse_append_separator (hc : isSeparator c = true) (text more : String) :
    parse (text ++ String.singleton c ++ more) = parse text ∪ parse more := by
  refine Std.ExtTreeSet.ext_mem fun scope => ?_
  rw [Std.ExtTreeSet.mem_union_iff]
  simp only [mem_parse_iff, ← Text.mem_words_iff]
  have hsplit : (text ++ String.singleton c ++ more).toList = text.toList ++ c :: more.toList := by
    simp
  rw [hsplit, Text.words_append_separator hc, List.mem_append]

private theorem words_of_writes (h : Writes text scopes) :
    Text.words isSeparator text.toList = scopes.map String.toList := by
  induction h with
  | gap hgap => simpa using Text.words_separators_append hgap []
  | last hgap hscope =>
    have hne : _ ≠ [] := mt String.toList_eq_nil_iff.mp hscope.1
    rw [String.toList_append, Text.words_separators_append hgap, Text.words_of_free hne hscope.2]
    rfl
  | @next gap scope text c scopes hgap hscope hc _ ih =>
    have hne : scope.toList ≠ [] := mt String.toList_eq_nil_iff.mp hscope.1
    have hsplit : (gap ++ scope ++ String.singleton c ++ text).toList =
        gap.toList ++ (scope.toList ++ c :: text.toList) := by
      simp
    rw [hsplit, Text.words_separators_append hgap, Text.words_append_separator hc,
      Text.words_of_free hne hscope.2, ih]
    rfl

private theorem parse_of_writes {set : ScopeSet} (h : Writes text scopes)
    (hscopes : ∀ scope, scope ∈ scopes ↔ scope ∈ set) : parse text = set := by
  have hread : (Text.words isSeparator text.toList).map String.ofList = scopes := by
    simp [words_of_writes h, Function.comp_def]
  refine Std.ExtTreeSet.ext_mem fun scope => ?_
  rw [parse, hread, mem_ofScopes, hscopes]

end ScopeSet

def Request.listing (r : Request) (name text : String) : Request :=
  { r with attributes := (name, text) :: r.attributes.filter fun (key, _) => key != name }

private theorem ScopeProvider.ofAttribute_listing (r : Request) (name text : String) :
    ScopeProvider.ofAttribute name (r.listing name text) = ScopeSet.parse text := by
  simp [ofAttribute, Request.attribute?, Request.listing]

namespace Enforcer

/-- Two requests are treated alike, whatever the enforcer has done before each of them: they are
given the same clients and the same verifier, and redacted alike by any extension. If they have the
same extension, all that comes of them is the same. -/
structure TreatsAlike (e : Enforcer) (r other : Request) : Prop where
  created : ∀ cache, e.create r cache = e.create other cache
  verifier : ∀ history history' : List Action,
    (e.create r (Session.run e history).cache).1.verifier.verifier =
      (e.create other (Session.run e history').cache).1.verifier.verifier
  redacted : ∀ (history history' : List Action) (extension : Option Extension)
    (policy : EmptySelections) (d : Document) (name : Option String),
    let state := (e.create r (Session.run e history).cache).1
    let state' := (e.create other (Session.run e history').cache).1
    Redaction.redact ⟨state.schema, state.verifier.verifier, extension⟩ policy d name =
      Redaction.redact ⟨state'.schema, state'.verifier.verifier, extension⟩ policy d name
  executed : e.extensions r = e.extensions other →
    ∀ (history history' : List Action) (host : HostCall → ExecutionResult),
      (e.executed r host (Session.run e history).cache).1 =
        (e.executed other host (Session.run e history').cache).1

variable {e : Enforcer} {r other : Request}

private theorem create_unnumbered_eq (hscopes : e.scopes r = e.scopes other)
    {cache cache' : VerifierCache} (h : cache.Faithful e.source.index)
    (h' : cache'.Faithful e.source.index) :
    (e.create r cache).1.unnumbered = (e.create other cache').1.unnumbered := by
  simp only [create, RequestState.unnumbered, h.verifier_lookup, h'.verifier_lookup, hscopes]

private theorem enforce_eq (hquery : r.query = other.query)
    (hname : r.operationName = other.operationName)
    (hextension : e.extensions r = e.extensions other) :
    RequestStep.enforce e r = RequestStep.enforce e other := by
  unfold RequestStep.enforce authority
  rw [hquery, hname, hextension]

private theorem treatsAlike_of_scopes (hscopes : e.scopes r = e.scopes other)
    (hquery : r.query = other.query) (hname : r.operationName = other.operationName)
    (hvariables : r.variableValues = other.variableValues) : e.TreatsAlike r other := by
  have hcreate (history history' : List Action) :=
    create_unnumbered_eq hscopes (Session.faithful_run e history) (Session.faithful_run e history')
  have hverifier (history history' : List Action) :
      (e.create r (Session.run e history).cache).1.verifier.verifier =
        (e.create other (Session.run e history').cache).1.verifier.verifier :=
    (congrArg (fun state => state.verifier.verifier) (hcreate history history') :)
  refine ⟨?created, hverifier, ?redacted, ?executed⟩
  case created =>
    intro cache
    rw [create, create, hscopes, hname]
  case redacted =>
    intro history history' extension policy d name
    dsimp only
    rw [hverifier history history']
    rfl
  case executed =>
    intro hextension history history' host
    have hserved (born : RequestState) : e.served r host born = e.served other host born := by
      rw [served, served, enforce_eq hquery hname hextension, hname, hvariables]
    rw [executed_eq, executed_eq, hserved, ← served_unnumbered, hcreate history history',
      served_unnumbered]

end Enforcer

/-- A text of scopes is read as the set of its words, and two texts with a separator between them as
the union of what they are read as. A set of scopes is read from every text that writes its members,
in any order, any number of times and with any separators between them. Requests that write the same
scopes in the attribute that lists them are treated alike. -/
theorem ScopeSet.parse_canonical :
    (∀ text scope : String,
      scope ∈ parse text ↔ Text.IsWord isSeparator text.toList scope.toList) ∧
    (∀ (text more : String) (c : Char), isSeparator c = true →
      parse (text ++ String.singleton c ++ more) = parse text ∪ parse more) ∧
    (∀ (set : ScopeSet) (text : String) (scopes : List String), Writes text scopes →
      (∀ scope, scope ∈ scopes ↔ scope ∈ set) → parse text = set) ∧
    ∀ (e : Enforcer) (name : String), e.scopes = ScopeProvider.ofAttribute name →
      ∀ (set : ScopeSet) (text text' : String) (scopes scopes' : List String),
        Writes text scopes → (∀ scope, scope ∈ scopes ↔ scope ∈ set) →
        Writes text' scopes' → (∀ scope, scope ∈ scopes' ↔ scope ∈ set) →
        ∀ r : Request, e.TreatsAlike (r.listing name text) (r.listing name text') := by
  refine ⟨mem_parse_iff, ?united, ?written, ?requests⟩
  case united =>
    intro text more c hc
    exact parse_append_separator hc text more
  case written =>
    intro set text scopes hwrites hscopes
    exact parse_of_writes hwrites hscopes
  case requests =>
    intro e name he set text text' scopes scopes' hwrites hscopes hwrites' hscopes' r
    have hsame : e.scopes (r.listing name text) = e.scopes (r.listing name text') := by
      rw [he, ScopeProvider.ofAttribute_listing, ScopeProvider.ofAttribute_listing,
        parse_of_writes hwrites hscopes, parse_of_writes hwrites' hscopes']
    exact Enforcer.treatsAlike_of_scopes hsame rfl rfl rfl

section Witness

private theorem writes_once : ScopeSet.Writes "readers,support:a" ["readers", "support:a"] := by
  have hseparator : ScopeSet.isSeparator ',' = true := by decide
  have hspelled : "readers,support:a" =
      "" ++ "readers" ++ String.singleton ',' ++ ("" ++ "support:a") := by decide
  rw [hspelled]
  refine .next ?_ ?_ hseparator (.last ?_ ?_) <;>
    simp [ScopeSet.IsGap, ScopeSet.IsScope, ScopeSet.isSeparator, Text.isBlank, Text.isBlankCode]

private theorem writes_again :
    ScopeSet.Writes " support:a \u3000,readers\tsupport:a,"
      ["support:a", "readers", "support:a"] := by
  have hspelled : " support:a \u3000,readers\tsupport:a," =
      " " ++ "support:a" ++ String.singleton ' ' ++ ("\u3000," ++ "readers" ++
        String.singleton '\t' ++ ("" ++ "support:a" ++ String.singleton ',' ++ "")) := by decide
  rw [hspelled]
  refine .next ?_ ?_ (by decide) (.next ?_ ?_ (by decide) (.next ?_ ?_ (by decide) (.gap ?_))) <;>
    simp [ScopeSet.IsGap, ScopeSet.IsScope, ScopeSet.isSeparator, Text.isBlank, Text.isBlankCode]

theorem ScopeSet.parse_canonical_of_staff :
    parse "readers,support:a" = .ofScopes ["readers", "support:a"] ∧
      parse " support:a \u3000,readers\tsupport:a," = .ofScopes ["readers", "support:a"] ∧
      ∃ x, ClientIndex.build Redaction.peopleSchema ClientIndex.staffClients = .ok x ∧
        Enforcer.TreatsAlike
          ⟨Redaction.peopleSchema, ⟨x, ⟨true, 1⟩⟩, .ofAttribute "scopes", .authorizeAll, .prune⟩
          (Request.listing ⟨ClientIndex.supportQuery, none, [], []⟩ "scopes" "readers,support:a")
          (Request.listing ⟨ClientIndex.supportQuery, none, [], []⟩ "scopes"
            " support:a \u3000,readers\tsupport:a,") := by
  obtain ⟨-, -, hwritten, hrequests⟩ := ScopeSet.parse_canonical
  have honce : ∀ scope, scope ∈ ["readers", "support:a"] ↔
      scope ∈ ScopeSet.ofScopes ["readers", "support:a"] := fun _ => mem_ofScopes.symm
  have hagain : ∀ scope, scope ∈ ["support:a", "readers", "support:a"] ↔
      scope ∈ ScopeSet.ofScopes ["readers", "support:a"] := by
    intro scope
    simp only [mem_ofScopes, List.mem_cons, List.not_mem_nil, or_false]
    tauto
  obtain ⟨x, hx⟩ := ClientIndex.exists_build_staffClients
  exact ⟨hwritten _ _ _ writes_once honce, hwritten _ _ _ writes_again hagain, x, hx,
    hrequests _ "scopes" rfl _ _ _ _ _ writes_once honce writes_again hagain _⟩

end Witness

end FieldAuthorization
