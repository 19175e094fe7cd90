import FieldAuthorization.Settings.Basic
import FieldAuthorization.Settings.Setting

/-!
Settings read from setting values. A value is taken for the type that its place asks for: numbers
and truth values stand for one another and for texts, lists and tables only for themselves.
-/

set_option autoImplicit false
set_option relaxedAutoImplicit false

namespace FieldAuthorization

private def trueWords : List String := ["true", "on", "yes"]

private def falseWords : List String := ["false", "off", "no"]

def maxWord : Nat := 0xFFFFFFFFFFFFFFFF

/-- A double as an unsigned word: rounded to the nearest, a half away from zero, and moved into the
range of words. -/
def Decimal.toWord (x : Float) : Nat :=
  match FloatParts.ofFloat x with
  | .nan | .infinite true | .finite true _ _ => 0
  | .infinite false => maxWord
  | .finite false significand exponent =>
    if 64 < exponent then if significand = 0 then 0 else maxWord
    else if 0 ≤ exponent then min (significand * Nat.pow 2 exponent.toNat) maxWord
    else
      let den := Nat.pow 2 (-exponent).toNat
      min ((2 * significand + den) / (2 * den)) maxWord

namespace Setting

def text? : Setting → Option String
  | .boolean b => some (if b then "true" else "false")
  | .integer n => some (toString n)
  | .float x => some (Decimal.ofFloatText x)
  | .text s => some s
  | _ => none

def boolean? : Setting → Option Bool
  | .boolean b => some b
  | .integer n => some (n != 0)
  | .float x => some (x != 0.0)
  | .text s =>
    let word := s.toLower
    if word = "1" ∨ trueWords.contains word then some true
    else if word = "0" ∨ falseWords.contains word then some false
    else none
  | _ => none

def word? : Setting → Option Nat
  | .boolean b => some (if b then 1 else 0)
  | .integer n => if 0 ≤ n then some n.toNat else none
  | .float x => some (Decimal.toWord x)
  | .text s =>
    let word := s.toLower
    if trueWords.contains word then some 1
    else if falseWords.contains word then some 0
    else
      let digits := match s.toList with
        | '+' :: digits => digits
        | digits => digits
      (readNat? digits).bind (fun n => if n ≤ maxWord then some n else none)
  | _ => none

/-- A choice between names: one of them as a text, or as the only key of a table. -/
def choice? {α : Type} (choices : List (String × α)) : Setting → Option α
  | .text s => choices.lookup s
  | .table [(key, _)] => choices.lookup key
  | _ => none

def listOf? {α : Type} (read : Setting → Option α) : Setting → Option (List α)
  | .list items => items.mapM read
  | _ => none

/-- A part of a section. A section is a table, or a list of its parts in order; a part that is
missing has its default. -/
def part? {α : Type} (position : Nat) (name : String) (read : Setting → Option α) (default : α) :
    Setting → Option α
  | .table members => ((members.lookup name).map read).getD (some default)
  | .list items => (items[position]?.map read).getD (some default)
  | _ => none

end Setting

def Client.ofSetting? (s : Setting) : Option Client := do
  let queries ← s.part? 0 "queries" (Setting.listOf? Setting.text?) []
  let scopes ← s.part? 1 "scopes" (Setting.listOf? Setting.text?) []
  return ⟨queries, scopes⟩

def Clients.ofSetting? : Setting → Option Clients
  | .table members =>
    members.foldlM (fun clients (id, s) => (Client.ofSetting? s).map (clients.insert id)) ∅
  | _ => none

def EmptySelections.ofSetting? : Setting → Option EmptySelections :=
  Setting.choice? [("prune", .prune), ("keep", .keep)]

def CacheSettings.ofSetting? (s : Setting) : Option CacheSettings := do
  let enabled ← s.part? 0 "enabled" Setting.boolean? Settings.defaultCache.enabled
  let maxEntries ← s.part? 1 "max_entries" Setting.word? Settings.defaultCache.maxEntries
  return ⟨enabled, maxEntries⟩

def LogFormat.ofSetting? : Setting → Option LogFormat :=
  Setting.choice? [("pretty", .pretty), ("json", .json)]

def LogSettings.ofSetting? (s : Setting) : Option LogSettings := do
  let level ← s.part? 0 "level" Setting.text? Settings.defaultLogging.level
  let format ← s.part? 1 "format" LogFormat.ofSetting? Settings.defaultLogging.format
  return ⟨level, format⟩

namespace Settings

def schemaOfSetting? : Setting → Option (Option String)
  | .absent => some none
  | s => s.text?.map some

def ofSetting? (s : Setting) : Option Settings := do
  let schema ← s.part? 0 "schema" schemaOfSetting? none
  let clients ← s.part? 1 "clients" Clients.ofSetting? ∅
  let emptySelections ← s.part? 2 "redaction"
    (Setting.part? 0 "empty_selections" EmptySelections.ofSetting? initial.emptySelections)
    initial.emptySelections
  let cache ← s.part? 3 "cache" CacheSettings.ofSetting? defaultCache
  let logging ← s.part? 4 "logging" LogSettings.ofSetting? defaultLogging
  return ⟨schema, clients, emptySelections, cache, logging⟩

end Settings

end FieldAuthorization
