import FieldAuthorization.Decimal
import FieldAuthorization.Pattern.CharClass
import FieldAuthorization.Pattern.Regex
import FieldAuthorization.Text.Blank

/-!
Reading regular expressions.

Flags such as `i` hold from where they are set to the end of the enclosing group, so they are part
of the reader's state. Groups, classes, repetitions, sequences and alternatives nest at most
`Pattern.maxHeight` deep.
-/

set_option autoImplicit false
set_option relaxedAutoImplicit false

namespace FieldAuthorization.Pattern

def maxHeight : Nat := 250

/-- What letters in a group of flags turn on and off. -/
structure Flags where
  ignoreCase : Bool
  multiLine : Bool
  dotAll : Bool
  /-- Letters, words and cases are those of all scripts. -/
  wide : Bool
  /-- Carriage returns end lines. -/
  returns : Bool
  /-- Blanks and comments are passed over. -/
  spaced : Bool

def Flags.initial : Flags :=
  ⟨false, false, false, true, false, false⟩

/-- The rest of the text, the flags in force, and the group names met so far. -/
structure State where
  rest : List Char
  flags : Flags
  names : List (List Char)

abbrev Reading : Type → Type := StateT State Option

/-- An expression and how deep it nests. -/
structure Node where
  regex : Regex
  height : Nat

/-- One member of a sequence: an expression, or flags for those that follow. -/
inductive Item
  | node (n : Node)
  | flags

/-! ### Characters -/

def peek : Reading (Option Char) :=
  return (← get).rest.head?

def next : Reading Char := fun state =>
  match state.rest with
  | [] => none
  | c :: rest => some (c, { state with rest := rest })

def skipText (s : List Char) : Reading Bool := fun state =>
  if s.isPrefixOf state.rest then
    some (true, { state with rest := state.rest.drop s.length })
  else some (false, state)

/-- The text after blanks, and after comments from a number sign to the end of the line. -/
def dropSpace (inComment : Bool) : List Char → List Char
  | [] => []
  | c :: s =>
    if inComment then dropSpace (c != '\n') s
    else if Text.isBlank c then dropSpace false s
    else if c == '#' then dropSpace true s
    else c :: s

/-- Passes over blanks and comments where they have no meaning. -/
def skipSpace : Reading Unit :=
  modify fun state =>
    if state.flags.spaced then { state with rest := dropSpace false state.rest } else state

/-- The next character, then blanks and comments where they have no meaning. -/
def nextSpaced : Reading Char := do
  let c ← next
  skipSpace
  return c

def notAtEnd : Reading Unit := do
  guard (← peek).isSome

/-- The characters while `p` holds, each followed by meaningless blanks; `bound` is at least their
number. -/
def takeSpaced (p : Char → Bool) : (bound : Nat) → Reading (List Char)
  | 0 => return []
  | bound + 1 => do
    if (← peek).any p then
      let c ← nextSpaced
      return c :: (← takeSpaced p bound)
    else return []

def takeWhileSpaced (p : Char → Bool) : Reading (List Char) := fun state =>
  takeSpaced p state.rest.length state

/-! ### Single characters -/

/-- The class of code points that the flags let a character stand for. -/
def literalClass (flags : Flags) (n : Nat) : CharClass :=
  if flags.ignoreCase then CharClass.ignoringCase flags.wide (CharClass.single n)
  else CharClass.single n

def ofClass (a : CharClass) : Regex :=
  .chars (fun c => a c.toNat)

/-- A literal character; the cases of a character outside ASCII need all scripts. -/
def literal (flags : Flags) (c : Char) : Option Node :=
  if flags.ignoreCase && !flags.wide && 0x7F < c.toNat then none
  else some ⟨ofClass (literalClass flags c.toNat), 0⟩

def letterClass (wide : Bool) : Char → Option CharClass
  | 'd' | 'D' => some (if wide then Text.isDecimalDigit else CharClass.digit)
  | 's' | 'S' => some
    (if wide then Text.isBlankCode else CharClass.space)
  | 'w' | 'W' => some (if wide then Text.isWordChar else CharClass.word)
  | _ => none

/-- The character of a code point given in hexadecimal digits. -/
def hexChar? (digits : List Char) : Option Char :=
  match readDigits? 16 hexValue? digits with
  | some n => if h : n.isValidChar then some (Char.ofNatAux n h) else none
  | none => none

def isHexDigit (c : Char) : Bool :=
  (hexValue? c).isSome

def hexDigits : Nat → Reading (List Char)
  | 0 => return []
  | n + 1 => do
    let c ← nextSpaced
    guard (isHexDigit c)
    return c :: (← hexDigits n)

/-- A character by its code point: in braces, or a fixed number of digits. -/
def hexEscape (width : Nat) : Reading Char := do
  skipSpace
  if ← skipText ['\x7b'] then
    skipSpace
    let digits ← takeWhileSpaced isHexDigit
    guard (← skipText ['\x7d'])
    skipSpace
    match hexChar? digits with
    | some c => return c
    | none => failure
  else
    match hexChar? (← hexDigits width) with
    | some c => return c
    | none => failure

/-- The characters that have a meaning outside or inside brackets. -/
def metaChars : List Char :=
  ['\\', '.', '+', '*', '?', '(', ')', '|', '[', ']', '\x7b', '\x7d', '^', '$', '#', '&', '-', '~']

/-- Whether a character stands for itself after a backslash. -/
def isEscapable (c : Char) : Bool :=
  metaChars.contains c || (c.toNat < 0x80 && !c.isAlphanum && c != '<' && c != '>')

/-- The name of a property: between braces, or one letter. -/
def propertyClass : Reading CharClass := do
  skipSpace
  if ← skipText ['\x7b'] then
    skipSpace
    let name ← takeWhileSpaced (· != '\x7d')
    guard (← skipText ['\x7d'])
    match splitName name with
    | some a => return a
    | none => failure
  else
    let c ← nextSpaced
    guard (c != '\\')
    match CharClass.ofProperty? [c] with
    | some a => return a
    | none => failure
where
  /-- The class of the text between braces. -/
  splitName (name : List Char) : Option CharClass :=
    match splitAt ['!', '='] [] name with
    | some (key, value) => (CharClass.ofPropertyValue? key value).map (CharClass.negateIf true)
    | none =>
      match splitAt [':'] [] name <|> splitAt ['='] [] name with
      | some (key, value) => CharClass.ofPropertyValue? key value
      | none => CharClass.ofProperty? name
  /-- The parts of a text around the first place where `mark` stands. -/
  splitAt (mark : List Char) (before : List Char) : List Char → Option (List Char × List Char)
    | [] => none
    | c :: s =>
      if mark.isPrefixOf (c :: s) then some (before.reverse, (c :: s).drop mark.length)
      else splitAt mark (c :: before) s

/-- What a backslash and what follows it stand for. -/
inductive Escape
  | char (c : Char)
  | set (a : CharClass)
  | assertion (a : Assertion)

/-- The kind of word boundary between braces; braces with anything but a letter or a hyphen in
front are left to be read as a repetition. -/
def boundaryKind (wide : Bool) : Reading Assertion := do
  let state ← get
  if ← skipText ['\x7b'] then
    skipSpace
    let isKindChar (c : Char) : Bool := c.isAlpha || c == '-'
    notAtEnd
    if (← peek).any isKindChar then
      let kind ← takeWhileSpaced isKindChar
      guard (← skipText ['\x7d'])
      match String.ofList kind with
      | "start" => return .wordStart wide
      | "end" => return .wordEnd wide
      | "start-half" => return .wordStartHalf wide
      | "end-half" => return .wordEndHalf wide
      | _ => failure
    else
      set state
      return .boundary wide
  else return .boundary wide

/-- A backslash, which is next, and what belongs to it. -/
def escape : Reading Escape := do
  let _ ← next
  let flags := (← get).flags
  let c ← next
  match letterClass flags.wide c with
  | some a =>
    let negated := c.isUpper
    -- outside ASCII a class of bytes is no class of characters
    guard (flags.wide || !negated)
    return .set (CharClass.negateIf negated a)
  | none =>
    match c with
    | 'x' => return .char (← checkByte flags (← hexByte))
    | 'u' => return .char (← hexEscape 4)
    | 'U' => return .char (← hexEscape 8)
    | 'p' | 'P' =>
      guard flags.wide
      let a ← propertyClass
      let a := if flags.ignoreCase then CharClass.ignoringCase true a else a
      return .set (CharClass.negateIf (c == 'P') a)
    | 'a' => return .char '\x07'
    | 'f' => return .char '\x0c'
    | 't' => return .char '\t'
    | 'n' => return .char '\n'
    | 'r' => return .char '\r'
    | 'v' => return .char '\x0b'
    | 'A' => return .assertion .textStart
    | 'z' => return .assertion .textEnd
    | 'b' => return .assertion (← boundaryKind flags.wide)
    | 'B' => return .assertion (.noBoundary flags.wide)
    | '<' => return .assertion (.wordStart flags.wide)
    | '>' => return .assertion (.wordEnd flags.wide)
    | c =>
      guard (isEscapable c)
      return .char c
where
  /-- A character by two digits or by digits in braces, and whether it was two digits. -/
  hexByte : Reading (Char × Bool) := do
    skipSpace
    let braced := (← peek) == some '\x7b'
    return (← hexEscape 2, !braced)
  /-- Two digits outside ASCII name a byte that is no character unless all scripts are in use. -/
  checkByte (flags : Flags) (x : Char × Bool) : Reading Char := do
    guard (flags.wide || !x.2 || x.1.toNat ≤ 0x7F)
    return x.1

/-! ### Bracketed classes -/

structure ClassNode where
  has : CharClass
  height : Nat

inductive ClassOperator
  | intersection
  | difference
  | symmetricDifference

def ClassOperator.apply (a b : CharClass) : ClassOperator → CharClass
  | intersection => fun n => a n && b n
  | difference => fun n => a n && !b n
  | symmetricDifference => fun n => a n != b n

namespace ClassNode

/-- The union of items, which are in reverse order. -/
def union (items : List ClassNode) : ClassNode :=
  match items with
  | [] => ⟨fun _ => false, 0⟩
  | [item] => item
  | items => ⟨CharClass.unionAll (items.map has), 1 + (items.map height).max?.getD 0⟩

/-- Applies a pending operator to what stands before and after it. -/
def combine (flags : Flags) (pending : Option (ClassNode × ClassOperator)) (right : ClassNode) :
    ClassNode :=
  match pending with
  | none => right
  | some (left, operator) =>
    let close (a : CharClass) : CharClass :=
      if flags.ignoreCase then CharClass.ignoringCase flags.wide a else a
    ⟨operator.apply (close left.has) (close right.has), 1 + max left.height right.height⟩

/-- What a class matches: cases first, then negation. -/
def finish (flags : Flags) (negated : Bool) (n : ClassNode) : CharClass :=
  CharClass.negateIf negated
    (if flags.ignoreCase then CharClass.ignoringCase flags.wide n.has else n.has)

end ClassNode

/-- A named class between brackets and colons. A text that is none is left as it is. -/
def asciiClass? : Reading (Option CharClass) := do
  let state ← get
  if ← skipText ['[', ':'] then
    let negated ← skipText ['^']
    let rest := (← get).rest
    let name := rest.takeWhile (· != ':')
    match CharClass.ofAsciiName? (String.ofList name) with
    | some a =>
      set { state with rest := rest.drop name.length }
      if ← skipText [':', ']'] then
        let a := if state.flags.ignoreCase then CharClass.ignoringCase state.flags.wide a else a
        return some (CharClass.negateIf negated a)
      else
        set state
        return none
    | none =>
      set state
      return none
  else return none

/-- The second next character, meaningless blanks aside. -/
def peekSecond : Reading (Option Char) := do
  let state ← get
  let rest := state.rest.drop 1
  return (if state.flags.spaced then dropSpace false rest else rest).head?

def classAtom : Reading Escape := do
  if (← peek) == some '\\' then escape else return .char (← next)

/-- A character inside brackets by its code point; one outside ASCII needs all scripts. -/
def classChar (flags : Flags) (x : Escape) : Reading Nat :=
  match x with
  | .char c => do
    guard (flags.wide || c.toNat ≤ 0x7F)
    return c.toNat
  | _ => failure

def classRange : Reading ClassNode := do
  let flags := (← get).flags
  let first ← classAtom
  skipSpace
  notAtEnd
  let second ← peekSecond
  if (← peek) != some '-' || second == some ']' || second == some '-' then
    match first with
    | .set a => return ⟨a, 0⟩
    | x => return ⟨CharClass.single (← classChar flags x), 0⟩
  else
    let _ ← nextSpaced
    notAtEnd
    let last ← classAtom
    let first ← classChar flags first
    let last ← classChar flags last
    guard (first ≤ last)
    return ⟨CharClass.range first last, 0⟩

/-- Hyphens at the start of a class stand for themselves; `bound` is at least their number. -/
def leadingHyphens : (bound : Nat) → Reading (List ClassNode)
  | 0 => return []
  | bound + 1 => do
    if (← peek) == some '-' then
      let _ ← nextSpaced
      notAtEnd
      return ⟨CharClass.single '-'.toNat, 0⟩ :: (← leadingHyphens bound)
    else return []

/-- What follows an opening bracket: whether the class is negated, and the items that are literal
because they stand first. -/
def classOpening : Reading (Bool × List ClassNode) := do
  skipSpace
  notAtEnd
  let negated ← skipText ['^']
  skipSpace
  notAtEnd
  let hyphens ← leadingHyphens (← get).rest.length
  if hyphens.isEmpty && (← peek) == some ']' then
    let _ ← nextSpaced
    notAtEnd
    return (negated, [⟨CharClass.single ']'.toNat, 0⟩])
  else return (negated, hyphens)

/-- The operator that comes next, which is passed over. -/
def classOperator? : Reading (Option ClassOperator) := do
  if ← skipText ['&', '&'] then return some .intersection
  else if ← skipText ['-', '-'] then return some .difference
  else if ← skipText ['~', '~'] then return some .symmetricDifference
  else return none

/-- The rest of a class: `items` have been read since the last operator, in reverse order. Every
step takes a character, so the length of the text bounds the steps. -/
def classBody : (fuel : Nat) → (nested : Bool) → (items : List ClassNode) →
    (pending : Option (ClassNode × ClassOperator)) → Reading ClassNode
  | 0, _, _, _ => failure
  | fuel + 1, nested, items, pending => do
    skipSpace
    let flags := (← get).flags
    match ← peek with
    | none => failure
    | some '[' =>
      match ← asciiClass? with
      | some a => classBody fuel nested (⟨a, 0⟩ :: items) pending
      | none =>
        let _ ← next
        let (negated, opening) ← classOpening
        let inner ← classBody fuel true opening.reverse none
        classBody fuel nested (⟨inner.finish flags negated, 1 + inner.height⟩ :: items) pending
    | some ']' =>
      let _ ← next
      return ClassNode.combine flags pending (.union items)
    | some _ =>
      match ← classOperator? with
      | some operator =>
        let left := ClassNode.combine flags pending (.union items)
        classBody fuel nested [] (some (left, operator))
      | none =>
        let item ← classRange
        classBody fuel nested (item :: items) pending

/-- A class in brackets, of which the first is next. Bytes outside ASCII are no characters. -/
def bracketed : Reading Node := do
  let flags := (← get).flags
  let _ ← next
  let (negated, opening) ← classOpening
  let inner ← classBody (2 * (← get).rest.length + 2) false opening.reverse none
  let has := inner.finish flags negated
  guard (flags.wide || (List.range 128).all (fun n => !has (n + 128)))
  return ⟨ofClass has, 1 + inner.height⟩

/-! ### Groups and repetition -/

/-- Turns a flag on or off; one of them changes which of several matches is preferred, which nothing
here depends on. -/
def setFlag (flags : Flags) (on : Bool) : Char → Option Flags
  | 'i' => some { flags with ignoreCase := on }
  | 'm' => some { flags with multiLine := on }
  | 's' => some { flags with dotAll := on }
  | 'U' => some flags
  | 'u' => some { flags with wide := on }
  | 'R' => some { flags with returns := on }
  | 'x' => some { flags with spaced := on }
  | _ => none

/-- The flags after letters of which those behind a hyphen are turned off. A letter or hyphen may
occur once, and a hyphen is followed by a letter. -/
def applyFlags (flags : Flags) (letters : List Char) : Option Flags := do
  guard (letters.eraseDups.length == letters.length && letters.getLast? != some '-')
  let on := letters.takeWhile (· != '-')
  let off := (letters.dropWhile (· != '-')).drop 1
  let flags ← on.foldlM (fun flags c => setFlag flags true c) flags
  off.foldlM (fun flags c => setFlag flags false c) flags

/-- Whether a character may stand in the name of a group. -/
def isGroupNameChar (first : Bool) (c : Char) : Bool :=
  c == '_' || Text.isAlphabetic c.toNat
    || (!first && (c == '.' || c == '[' || c == ']' || Text.isNumeric c.toNat))

/-- The name of a group up to its closing angle bracket; no two groups share one. -/
def groupName : Reading Unit := do
  let state ← get
  let name := state.rest.takeWhile (· != '>')
  guard ((name.take 1).any (isGroupNameChar true) && (name.drop 1).all (isGroupNameChar false))
  guard (!state.names.contains name)
  set { state with rest := state.rest.drop name.length, names := name :: state.names }
  guard (← skipText ['>'])

/-- What follows an opening parenthesis: flags for the rest of the enclosing group, or else the
start of a group, with the flags set that hold inside it. -/
def groupOpening : Reading Bool := do
  skipSpace
  if ← skipText ['?', 'P', '<'] then
    groupName
    return true
  else if ← skipText ['?', '<'] then
    groupName
    return true
  else if ← skipText ['?'] then
    let state ← get
    let isLetter (c : Char) : Bool := c != ':' && c != ')'
    let letters := state.rest.takeWhile isLetter
    match applyFlags state.flags letters, state.rest.drop letters.length with
    | some flags, ':' :: rest =>
      set { state with rest := rest, flags := flags }
      return true
    | some flags, ')' :: rest =>
      guard (!letters.isEmpty)
      set { state with rest := rest, flags := flags }
      return false
    | _, _ => failure
  else return true

/-- A number in a repetition; any blanks around it are passed over. -/
def repetitionCount : Reading (Option Nat) := do
  modify fun state => { state with rest := state.rest.dropWhile Text.isBlank }
  let digits ← takeWhileSpaced Char.isDigit
  modify fun state => { state with rest := state.rest.dropWhile Text.isBlank }
  skipSpace
  if digits.isEmpty then return none
  else
    match readNat? digits with
    | some n =>
      guard (n < 0x100000000)
      return some n
    | none => failure

/-- The bounds between braces, of which the first is next. -/
def repetitionBounds : Reading (Nat × Option Nat) := do
  let _ ← nextSpaced
  let least ← repetitionCount
  let bounds ←
    if ← skipText [','] then do
      skipSpace
      notAtEnd
      if (← peek) == some '\x7d' then
        match least with
        | some least => pure (least, none)
        | none => failure
      else
        match least, ← repetitionCount with
        | some least, some most => pure (least, some most)
        | _, _ => failure
    else
      match least with
      | some least => pure (least, some least)
      | none => failure
  guard (← skipText ['\x7d'])
  skipSpace
  guard (bounds.2.all (fun most => bounds.1 ≤ most))
  return bounds

/-- Repeats the last item, which must be an expression. A question mark behind the repetition only
says which match is preferred. -/
def repeatLast (items : List Item) (bounds : Nat × Option Nat) : Reading (List Item) := do
  let _ ← skipText ['?']
  match items with
  | .node n :: rest => return .node ⟨.repeated n.regex bounds.1 bounds.2, 1 + n.height⟩ :: rest
  | _ => failure

namespace Node

/-- The sequence of items, which are in reverse order. -/
def ofItems (items : List Item) : Node :=
  let nodes := items.reverse.map fun
    | .node n => n
    | .flags => ⟨.empty, 0⟩
  match nodes with
  | [n] => n
  | [] => ⟨.empty, 0⟩
  | nodes => ⟨.inOrder (nodes.map regex), 1 + (nodes.map height).max?.getD 0⟩

def ofBranches (branches : List Node) : Node :=
  match branches with
  | [n] => n
  | branches => ⟨.anyOf (branches.map regex), 1 + (branches.map height).max?.getD 0⟩

end Node

/-- Any character but a line end; between bytes no class of characters is left. -/
def dot (flags : Flags) : Option Regex :=
  if !flags.wide then none
  else if flags.dotAll then some (.chars (fun _ => true))
  else if flags.returns then some (.chars (fun c => c != '\n' && c != '\r'))
  else some (.chars (· != '\n'))

/-- The start of the text, or of a line if lines count. -/
def startAssertion (flags : Flags) : Assertion :=
  if !flags.multiLine then .textStart else if flags.returns then .returnStart else .lineStart

/-- The end of the text, or of a line if lines count. -/
def endAssertion (flags : Flags) : Assertion :=
  if !flags.multiLine then .textEnd else if flags.returns then .returnEnd else .lineEnd

/-- An expression of one character, one class or one assertion. -/
def primitive : Reading Node := do
  let flags := (← get).flags
  match ← peek with
  | some '\\' =>
    match ← escape with
    | .char c => lift (literal flags c)
    | .set a => return ⟨ofClass a, 0⟩
    | .assertion a => return ⟨.assertion a, 0⟩
  | some '.' =>
    let _ ← next
    return ⟨← lift (dot flags), 0⟩
  | some '^' =>
    let _ ← next
    return ⟨.assertion (startAssertion flags), 0⟩
  | some '$' =>
    let _ ← next
    return ⟨.assertion (endAssertion flags), 0⟩
  | _ => lift (literal flags (← next))
where
  lift {α : Type} (x : Option α) : Reading α :=
    match x with
    | some a => return a
    | none => failure

mutual

/-- Alternatives up to the end of the text or a closing parenthesis. -/
def alternatives : (fuel : Nat) → Reading (List Node)
  | 0 => failure
  | fuel + 1 => do
    let first ← sequence fuel []
    if ← skipText ['|'] then
      return first :: (← alternatives fuel)
    else return [first]

/-- The rest of a sequence after `items`, which are in reverse order. Every step takes a
character, so the length of the text bounds the steps. -/
def sequence : (fuel : Nat) → (items : List Item) → Reading Node
  | 0, _ => failure
  | fuel + 1, items => do
    skipSpace
    match ← peek with
    | none | some ')' | some '|' => return .ofItems items
    | some '(' =>
      let _ ← next
      let flags := (← get).flags
      if ← groupOpening then
        let inner := Node.ofBranches (← alternatives fuel)
        guard (← skipText [')'])
        modify fun state => { state with flags := flags }
        sequence fuel (.node ⟨inner.regex, 1 + inner.height⟩ :: items)
      else sequence fuel (.flags :: items)
    | some '[' => sequence fuel (.node (← bracketed) :: items)
    | some '?' =>
      let _ ← next
      sequence fuel (← repeatLast items (0, some 1))
    | some '*' =>
      let _ ← next
      sequence fuel (← repeatLast items (0, none))
    | some '+' =>
      let _ ← next
      sequence fuel (← repeatLast items (1, none))
    | some '\x7b' =>
      let bounds ← repetitionBounds
      sequence fuel (← repeatLast items bounds)
    | some _ => sequence fuel (.node (← primitive) :: items)

end

end FieldAuthorization.Pattern

namespace FieldAuthorization

def Regex.parse? (s : String) : Option Regex :=
  let text := s.toList
  match (Pattern.alternatives (2 * text.length + 2)).run ⟨text, .initial, []⟩ with
  | some (branches, ⟨[], _, _⟩) =>
    let n := Pattern.Node.ofBranches branches
    if n.height ≤ Pattern.maxHeight then some n.regex else none
  | _ => none

end FieldAuthorization
