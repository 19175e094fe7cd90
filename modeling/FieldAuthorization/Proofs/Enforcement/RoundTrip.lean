import FieldAuthorization.Enforcement.Result

/-!
Results that are written as JSON and read again.

Writing leaves out just what reading puts in for a member that is missing, so a result is read back
as it was written, but for an explicit null as its data, which is read as no data. A result that has
been read holds no such null and no number beyond 64 bits. So whatever form a result is given in, it
is settled once it has been read: writing and reading it again change nothing.
-/

set_option autoImplicit false
set_option relaxedAutoImplicit false

namespace FieldAuthorization

namespace Json

private theorem unsigned?_integer {n : Nat} (h : n < UInt64.size) :
    unsigned? (.number (.integer n)) = some n := by
  have hfits : (0 : Int) ≤ n ∧ (n : Int) < 0x10000000000000000 := by
    unfold UInt64.size at h
    omega
  rw [unsigned?, if_pos hfits, Int.toNat_natCast]

private theorem lt_of_unsigned? {j : Json} {n : Nat} (h : j.unsigned? = some n) :
    n < UInt64.size := by
  unfold unsigned? at h
  split at h
  · split at h
    · cases h
      unfold UInt64.size
      omega
    · cases h
  · cases h

private theorem optional_ne_null (j : Json) : j.optional ≠ some .null := by
  cases j <;> simp [optional]

private theorem optional_of_ne_null {j : Json} (h : j ≠ .null) : j.optional = some j := by
  cases j <;> simp_all [optional]

section Lists

variable {α : Type} {item? : Json → Option α} {encode : α → Json} {l : List α}

private theorem list?_map (h : ∀ x ∈ l, item? (encode x) = some x) :
    list? item? (.array (l.map encode)) = some l := by
  rw [list?]
  induction l with
  | nil => rfl
  | cons x rest ih =>
    obtain ⟨hx, hrest⟩ := List.forall_mem_cons.mp h
    simp [hx, ih hrest]

private theorem exists_of_mem_list? {j : Json} (h : j.list? item? = some l) {x : α} (hx : x ∈ l) :
    ∃ item, item? item = some x := by
  cases j with
  | array items =>
    rw [list?] at h
    induction items generalizing l with
    | nil =>
      cases h
      exact absurd hx List.not_mem_nil
    | cons item rest ih =>
      rw [List.mapM_cons] at h
      obtain ⟨first, hfirst, h⟩ := Option.bind_eq_some_iff.mp h
      obtain ⟨later, hlater, h⟩ := Option.bind_eq_some_iff.mp h
      cases h
      rcases List.mem_cons.mp hx with rfl | hx
      · exact ⟨item, hfirst⟩
      · exact ih hx hlater
  | null | boolean _ | number _ | text _ | object _ => cases h

end Lists

namespace Members

variable {key other : String} {members rest : Members} {value : Json}

private theorem get?_cons_self : get? ((key, value) :: rest) key = some value := by
  simp [get?]

private theorem get?_cons_of_ne (h : other ≠ key) :
    get? ((key, value) :: rest) other = get? rest other := by
  rw [get?, List.lookup_cons, beq_false_of_ne h]
  rfl

private theorem get?_ofOption_of_ne (h : other ≠ key) (v : Option Json) :
    get? (ofOption key v ++ rest) other = get? rest other := by
  cases v with
  | none => rfl
  | some value => exact get?_cons_of_ne h

private theorem get?_ofList_of_ne (h : other ≠ key) (items : List Json) :
    get? (ofList key items ++ rest) other = get? rest other := by
  cases items with
  | nil => rfl
  | cons item items => exact get?_cons_of_ne h

private theorem key_of_mem_ofOption {v : Option Json} {member : String × Json}
    (h : member ∈ ofOption key v) : member.1 = key := by
  cases v <;> simp_all [ofOption]

private theorem key_of_mem_ofList {items : List Json} {member : String × Json}
    (h : member ∈ ofList key items) : member.1 = key := by
  cases items <;> simp_all [ofList]

section Decoding

variable {α : Type} {decode? : Json → Option α} {default : α}

private theorem getD?_of_none (h : get? members key = none) :
    getD? members key decode? default = some default := by
  rw [getD?, h]

private theorem getD?_cons_self :
    getD? ((key, value) :: rest) key decode? default = decode? value := by
  rw [getD?, get?_cons_self]

private theorem getD?_cons_of_ne (h : other ≠ key) :
    getD? ((key, value) :: rest) other decode? default = getD? rest other decode? default := by
  rw [getD?, getD?, get?_cons_of_ne h]

private theorem getD?_ofOption_of_ne (h : other ≠ key) (v : Option Json) :
    getD? (ofOption key v ++ rest) other decode? default = getD? rest other decode? default := by
  rw [getD?, getD?, get?_ofOption_of_ne h]

private theorem getD?_ofList_of_ne (h : other ≠ key) (items : List Json) :
    getD? (ofList key items ++ rest) other decode? default = getD? rest other decode? default := by
  rw [getD?, getD?, get?_ofList_of_ne h]

private theorem getD?_ofOption (v : Option Json) (hrest : get? rest key = none) :
    getD? (ofOption key v ++ rest) key decode? default = v.elim (some default) decode? := by
  cases v with
  | none => exact getD?_of_none hrest
  | some value => exact getD?_cons_self

variable {item? : Json → Option α} {encode : α → Json} {l : List α}

private theorem getD?_ofList (h : ∀ x ∈ l, item? (encode x) = some x)
    (hrest : get? rest key = none) :
    getD? (ofList key (l.map encode) ++ rest) key (list? item?) [] = some l := by
  cases l with
  | nil => exact getD?_of_none hrest
  | cons x l => exact getD?_cons_self.trans (list?_map h)

private theorem exists_of_mem_getD? (h : getD? members key (list? item?) [] = some l) {x : α}
    (hx : x ∈ l) : ∃ item, item? item = some x := by
  rw [getD?] at h
  split at h
  · exact exists_of_mem_list? h hx
  · cases h
    exact absurd hx List.not_mem_nil

end Decoding

end Members

private theorem record?_object {names : List String} {members : Members}
    (h : ∀ member ∈ members, member.1 ∈ names) :
    record? names (.object members) = some members := by
  have hall : members.filter (fun member => names.contains member.1) = members :=
    List.filter_eq_self.mpr fun member hmember => List.contains_iff_mem.mpr (h member hmember)
  rw [record?, hall]

end Json

namespace Position

/-- Both numbers are of 64 bits. -/
def Fits (p : Position) : Prop :=
  p.line < UInt64.size ∧ p.column < UInt64.size

private theorem ofJson?_eq_some_iff {j : Json} {p : Position} :
    ofJson? j = some p ↔ ∃ members, j.record? ["line", "column"] = some members ∧
      (∃ line, members.get? "line" = some line ∧ line.unsigned? = some p.line) ∧
      ∃ column, members.get? "column" = some column ∧ column.unsigned? = some p.column := by
  obtain ⟨line, column⟩ := p
  simp only [ofJson?, Option.bind_eq_bind, Option.bind_eq_some_iff, Option.pure_def,
    Option.some.injEq, mk.injEq]
  constructor
  · rintro ⟨members, hmembers, first, hfirst, n, hn, second, hsecond, m, hm, rfl, rfl⟩
    exact ⟨members, hmembers, ⟨first, hfirst, hn⟩, second, hsecond, hm⟩
  · rintro ⟨members, hmembers, ⟨first, hfirst, hn⟩, second, hsecond, hm⟩
    exact ⟨members, hmembers, first, hfirst, line, hn, second, hsecond, column, hm, rfl, rfl⟩

private theorem ofJson?_toJson {p : Position} (h : p.Fits) : ofJson? p.toJson = some p := by
  refine ofJson?_eq_some_iff.mpr ⟨_, Json.record?_object (by simp), ?line, ?column⟩
  case line => exact ⟨_, Json.Members.get?_cons_self, Json.unsigned?_integer h.1⟩
  case column =>
    refine ⟨_, ?_, Json.unsigned?_integer h.2⟩
    rw [Json.Members.get?_cons_of_ne (by decide), Json.Members.get?_cons_self]

private theorem fits_of_ofJson? {j : Json} {p : Position} (h : ofJson? j = some p) : p.Fits := by
  obtain ⟨members, -, ⟨line, -, hline⟩, column, -, hcolumn⟩ := ofJson?_eq_some_iff.mp h
  exact ⟨Json.lt_of_unsigned? hline, Json.lt_of_unsigned? hcolumn⟩

end Position

namespace ResponseError

/-- All places are of 64 bits. -/
def Fits (e : ResponseError) : Prop :=
  ∀ p ∈ e.locations, p.Fits

private theorem ofJson?_eq_some_iff {j : Json} {e : ResponseError} :
    ofJson? j = some e ↔
      ∃ members, j.record? ["message", "locations", "path", "extensions"] = some members ∧
        (∃ message, members.get? "message" = some message ∧ message.text? = some e.message) ∧
        members.getD? "locations" (Json.list? Position.ofJson?) [] = some e.locations ∧
        members.getD? "path" (Json.list? some) [] = some e.path ∧
        members.getD? "extensions" Json.optionalObject? none = some e.extensions := by
  obtain ⟨message, locations, path, extensions⟩ := e
  simp only [ofJson?, Option.bind_eq_bind, Option.bind_eq_some_iff, Option.pure_def,
    Option.some.injEq, mk.injEq]
  constructor
  · rintro ⟨members, hmembers, value, hvalue, text, htext, places, hlocations, keys, hpath, more,
      hextensions, rfl, rfl, rfl, rfl⟩
    exact ⟨members, hmembers, ⟨value, hvalue, htext⟩, hlocations, hpath, hextensions⟩
  · rintro ⟨members, hmembers, ⟨value, hvalue, htext⟩, hlocations, hpath, hextensions⟩
    exact ⟨members, hmembers, value, hvalue, message, htext, locations, hlocations, path, hpath,
      extensions, hextensions, rfl, rfl, rfl, rfl⟩

private theorem ofJson?_toJson {e : ResponseError} (h : e.Fits) : ofJson? e.toJson = some e := by
  have hshape : e.toJson = .object (("message", .text e.message) ::
      (Json.Members.ofList "locations" (e.locations.map Position.toJson) ++
        (Json.Members.ofList "path" (e.path.map id) ++
          (Json.Members.ofOption "extensions" (e.extensions.map Json.object) ++ [])))) := by
    simp [toJson]
  rw [hshape]
  refine ofJson?_eq_some_iff.mpr ⟨_, Json.record?_object ?declared, ?message, ?locations, ?path,
    ?extensions⟩
  case declared =>
    simp only [List.mem_cons, List.mem_append, List.not_mem_nil, or_false]
    rintro member (rfl | h | h | h)
    · exact .inl rfl
    · exact .inr (.inl (Json.Members.key_of_mem_ofList h))
    · exact .inr (.inr (.inl (Json.Members.key_of_mem_ofList h)))
    · exact .inr (.inr (.inr (Json.Members.key_of_mem_ofOption h)))
  case message => exact ⟨_, Json.Members.get?_cons_self, rfl⟩
  case locations =>
    rw [Json.Members.getD?_cons_of_ne (by decide)]
    refine Json.Members.getD?_ofList (fun p hp => Position.ofJson?_toJson (h p hp)) ?_
    rw [Json.Members.get?_ofList_of_ne (by decide), Json.Members.get?_ofOption_of_ne (by decide)]
    rfl
  case path =>
    rw [Json.Members.getD?_cons_of_ne (by decide), Json.Members.getD?_ofList_of_ne (by decide)]
    refine Json.Members.getD?_ofList (fun _ _ => rfl) ?_
    rw [Json.Members.get?_ofOption_of_ne (by decide)]
    rfl
  case extensions =>
    rw [Json.Members.getD?_cons_of_ne (by decide), Json.Members.getD?_ofList_of_ne (by decide),
      Json.Members.getD?_ofList_of_ne (by decide), Json.Members.getD?_ofOption _ rfl]
    cases e.extensions <;> rfl

private theorem fits_of_ofJson? {j : Json} {e : ResponseError} (h : ofJson? j = some e) :
    e.Fits := by
  obtain ⟨members, -, -, hlocations, -, -⟩ := ofJson?_eq_some_iff.mp h
  intro p hp
  obtain ⟨item, hitem⟩ := Json.Members.exists_of_mem_getD? hlocations hp
  exact Position.fits_of_ofJson? hitem

end ResponseError

namespace ExecutionResult

/-- All places of all errors are of 64 bits. -/
def Fits (r : ExecutionResult) : Prop :=
  ∀ e ∈ r.errors, e.Fits

private theorem ofJson?_eq_some_iff {j : Json} {r : ExecutionResult} :
    ofJson? j = some r ↔
      ∃ members, j.record? ["data", "errors", "extensions"] = some members ∧
        members.getD? "data" (fun value => some value.optional) none = some r.data ∧
        members.getD? "errors" (Json.list? ResponseError.ofJson?) [] = some r.errors ∧
        members.getD? "extensions" Json.optionalObject? none = some r.extensions := by
  obtain ⟨data, errors, extensions⟩ := r
  simp only [ofJson?, Option.bind_eq_bind, Option.bind_eq_some_iff, Option.pure_def,
    Option.some.injEq, mk.injEq]
  constructor
  · rintro ⟨members, hmembers, found, hdata, listed, herrors, more, hextensions, rfl, rfl, rfl⟩
    exact ⟨members, hmembers, hdata, herrors, hextensions⟩
  · rintro ⟨members, hmembers, hdata, herrors, hextensions⟩
    exact ⟨members, hmembers, data, hdata, errors, herrors, extensions, hextensions, rfl, rfl, rfl⟩

private theorem ofJson?_toJson {r : ExecutionResult} (h : r.Fits) :
    ofJson? r.toJson = some { r with data := r.data.bind Json.optional } := by
  have hshape : r.toJson = .object (Json.Members.ofOption "data" r.data ++
      (Json.Members.ofList "errors" (r.errors.map ResponseError.toJson) ++
        (Json.Members.ofOption "extensions" (r.extensions.map Json.object) ++ []))) := by
    simp [toJson]
  rw [hshape]
  refine ofJson?_eq_some_iff.mpr ⟨_, Json.record?_object ?declared, ?data, ?errors, ?extensions⟩
  case declared =>
    simp only [List.mem_append, List.not_mem_nil, or_false]
    rintro member (h | h | h)
    · simp [Json.Members.key_of_mem_ofOption h]
    · simp [Json.Members.key_of_mem_ofList h]
    · simp [Json.Members.key_of_mem_ofOption h]
  case data =>
    rw [Json.Members.getD?_ofOption]
    · cases r.data <;> rfl
    · rw [Json.Members.get?_ofList_of_ne (by decide), Json.Members.get?_ofOption_of_ne (by decide)]
      rfl
  case errors =>
    rw [Json.Members.getD?_ofOption_of_ne (by decide)]
    refine Json.Members.getD?_ofList (fun e he => ResponseError.ofJson?_toJson (h e he)) ?_
    rw [Json.Members.get?_ofOption_of_ne (by decide)]
    rfl
  case extensions =>
    rw [Json.Members.getD?_ofOption_of_ne (by decide), Json.Members.getD?_ofList_of_ne (by decide),
      Json.Members.getD?_ofOption _ rfl]
    cases r.extensions <;> rfl

private theorem ofJson?_toJson_of_ne_null {r : ExecutionResult} (hdata : r.data ≠ some .null)
    (h : r.Fits) : ofJson? r.toJson = some r := by
  have hkept : r.data.bind Json.optional = r.data := by
    cases hvalue : r.data with
    | none => rfl
    | some value => exact Json.optional_of_ne_null fun hnull => hdata (hvalue.trans (hnull ▸ rfl))
  rw [ofJson?_toJson h, hkept]

private theorem fits_of_ofJson? {j : Json} {r : ExecutionResult} (h : ofJson? j = some r) :
    r.Fits := by
  obtain ⟨members, -, -, herrors, -⟩ := ofJson?_eq_some_iff.mp h
  intro e he
  obtain ⟨item, hitem⟩ := Json.Members.exists_of_mem_getD? herrors he
  exact ResponseError.fits_of_ofJson? hitem

private theorem data_ne_null_of_ofJson? {j : Json} {r : ExecutionResult} (h : ofJson? j = some r) :
    r.data ≠ some .null := by
  obtain ⟨members, -, hdata, -, -⟩ := ofJson?_eq_some_iff.mp h
  rw [Json.Members.getD?] at hdata
  split at hdata
  · rename_i value _
    rw [← Option.some.inj hdata]
    exact Json.optional_ne_null value
  · rw [← Option.some.inj hdata]
    exact nofun

/-- A result with places of 64 bits, and data that is not an explicit null, is read back as it was
written. Whatever is read as a result, in any of the forms that are accepted, gives the same result
when it is written and read again, and is written the same from then on. -/
theorem survives_json :
    (∀ r : ExecutionResult, r.data ≠ some .null →
      (∀ e ∈ r.errors, ∀ p ∈ e.locations, p.line < UInt64.size ∧ p.column < UInt64.size) →
      ofJson? r.toJson = some r) ∧
    ∀ (j : Json) (r : ExecutionResult), ofJson? j = some r →
      ∃ again, ofJson? r.toJson = some again ∧ again = r ∧ again.toJson = r.toJson := by
  constructor
  · intro r hdata hplaces
    exact ofJson?_toJson_of_ne_null hdata hplaces
  · intro j r hread
    have hagain := ofJson?_toJson_of_ne_null (data_ne_null_of_ofJson? hread) (fits_of_ofJson? hread)
    exact ⟨r, hagain, rfl, rfl⟩

section Witness

/-- Arrays and objects are mixed, a member is not declared, others are null or missing. -/
private def mixedForms : Json :=
  .array [.object [("id", .null)],
    .array [.array [.text "gone", .array [.array [.number (.integer 1), .number (.integer 2)]]],
      .object [("path", .array [.null]), ("hint", .null), ("extensions", .null),
        ("message", .text "late")]],
    .object []]

private def mixedResult : ExecutionResult :=
  ⟨some (.object [("id", .null)]),
    [⟨"gone", [⟨1, 2⟩], [], none⟩, ⟨"late", [], [.null], none⟩], some []⟩

theorem survives_json_of_mixed : ofJson? mixedForms = some mixedResult ∧
    ofJson? mixedResult.toJson = some mixedResult ∧
    ∃ again, ofJson? mixedResult.toJson = some again ∧ again.toJson = mixedResult.toJson := by
  have hread : ofJson? mixedForms = some mixedResult := by rfl
  obtain ⟨hwritten, hsettled⟩ := survives_json
  obtain ⟨again, hagain, -, hjson⟩ := hsettled _ _ hread
  refine ⟨hread, hwritten mixedResult (by simp [mixedResult]) ?_, again, hagain, hjson⟩
  simp [mixedResult, UInt64.size]

end Witness

end ExecutionResult

end FieldAuthorization
