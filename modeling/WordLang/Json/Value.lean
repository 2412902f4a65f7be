import WordLang.Decimal.Shortest
import WordLang.Json.Number
import WordLang.Text.Quoted

/-!
# JSON values of a known shape

Readers for lists, for objects and for records, which can be written as an object with named fields or as
a list of them in order. A value of another kind is described in the fault. Fields of unknown name are
skipped.
-/

namespace WordLang.Json.Reader

mutual

/-- Consumes a value that does not matter. -/
private def skipAny : Nat → Reader Unit
  | 0 => failHere .endInValue
  | fuel + 1 => do
    match ← token with
    | none => failAtNext .endInValue
    | some 0x6e => skip; word [0x75, 0x6c, 0x6c]
    | some 0x74 => skip; word [0x72, 0x75, 0x65]
    | some 0x66 => skip; word [0x61, 0x6c, 0x73, 0x65]
    | some 0x2d => skip; skipNumber
    | some 0x22 => skip; skipString
    | some 0x5b =>
      skip
      match ← token with
      | none => failAtNext .endInList
      | some 0x5d => skip
      | some _ => skipElements fuel
    | some 0x7b =>
      skip
      match ← token with
      | none => failAtNext .endInObject
      | some 0x7d => skip
      | some _ => skipMembers fuel
    | some byte => if (digit? byte).isSome then skipNumber else failAtNext .expectedValue

private def skipElements : Nat → Reader Unit
  | 0 => failHere .endInList
  | fuel + 1 => do
    skipAny fuel
    match ← token with
    | none => failAtNext .endInList
    | some 0x2c => skip; skipElements fuel
    | some 0x5d => skip
    | some _ => failAtNext .expectedListEnd

private def skipMembers : Nat → Reader Unit
  | 0 => failHere .endInObject
  | fuel + 1 => do
    match ← token with
    | none => failAtNext .endInObject
    | some 0x22 => skip; skipString
    | some _ => failAtNext .keyNotString
    colon
    skipAny fuel
    match ← token with
    | none => failAtNext .endInObject
    | some 0x2c => skip; skipMembers fuel
    | some 0x7d => skip
    | some _ => failAtNext .expectedObjectEnd

end

def skipValue : Reader Unit := do
  skipAny (2 * (← remaining) + 2)

/-- Describes the value that stands next. A list or an object is not consumed. -/
def describe : Reader String := do
  match ← peek with
  | some 0x6e => skip; word [0x75, 0x6c, 0x6c]; return "null"
  | some 0x74 => skip; word [0x72, 0x75, 0x65]; return "boolean `true`"
  | some 0x66 => skip; word [0x61, 0x6c, 0x73, 0x65]; return "boolean `false`"
  | some 0x2d => skip; return numberText (← number true)
  | some 0x22 => skip; return "string " ++ Text.quoted (← string)
  | some 0x5b => return "sequence"
  | some 0x7b => return "map"
  | some byte =>
    if (digit? byte).isSome then return numberText (← number false) else failAtNext .expectedValue
  | none => failAtNext .expectedValue
where
  numberText : Number → String
    | .integer value => "integer `" ++ toString value ++ "`"
    | .double value => "floating point `" ++ Decimal.text value ++ "`"

/-- Fails because the value that stands next is not of the kind expected. -/
def wrongKind {α : Type} (expected : String) : Reader α := do
  failHere (.wrongKind (← describe) expected)

def text : Reader String := do
  match ← token with
  | none => failAtNext .endInValue
  | some 0x22 => skip; string
  | some _ => wrongKind "a string"

/-- Whether another element of a list follows; its comma is consumed. -/
def moreElements (first : Bool) : Reader Bool := do
  match ← token with
  | none => failAtNext .endInList
  | some 0x5d => return false
  | some byte =>
    if first then return true
    else if byte = 0x2c then
      skip
      match ← token with
      | none => failAtNext .endInValue
      | some 0x5d => failAtNext .trailingComma
      | some _ => return true
    else failAtNext .expectedListEnd

/-- The next element of a list, if there is one. -/
def element? {α : Type} (first : Bool) (element : Reader α) : Reader (Option α) := do
  if ← moreElements first then return some (← element) else return none

def endList : Reader Unit := do
  match ← token with
  | none => failAtNext .endInList
  | some 0x5d => skip
  | some 0x2c =>
    skip
    if (← token) == some 0x5d then failAtNext .trailingComma else failAtNext .trailingCharacters
  | some _ => failAtNext .trailingCharacters

private def elements {α : Type} (element : Reader α) : Nat → Bool → Array α → Reader (Array α)
  | 0, _, found => return found
  | fuel + 1, first, found => do
    match ← element? first element with
    | some value => elements element fuel false (found.push value)
    | none => return found

/-- A list whose elements are all of one kind. -/
def list {α : Type} (element : Reader α) : Reader (List α) := do
  match ← token with
  | none => failAtNext .endInValue
  | some 0x5b =>
    skip
    let found ← elements element ((← remaining) + 1) true #[]
    endList
    return found.toList
  | some _ => wrongKind "a sequence"

/-- The next key of an object, if there is one; its comma is consumed. -/
def key? (first : Bool) : Reader (Option String) := do
  match ← token with
  | none => failAtNext .endInObject
  | some 0x7d => return none
  | some byte =>
    if first then
      if byte = 0x22 then
        skip
        return some (← string)
      else failAtNext .keyNotString
    else if byte = 0x2c then
      skip
      match ← token with
      | none => failAtNext .endInValue
      | some 0x22 => skip; return some (← string)
      | some 0x7d => failAtNext .trailingComma
      | some _ => failAtNext .keyNotString
    else failAtNext .expectedObjectEnd

def endObject : Reader Unit := do
  match ← token with
  | none => failAtNext .endInObject
  | some 0x7d => skip
  | some 0x2c => failAtNext .trailingComma
  | some _ => failAtNext .trailingCharacters

private def membersFrom {σ : Type} (member : String → σ → Reader σ) : Nat → Bool → σ → Reader σ
  | 0, _, found => return found
  | fuel + 1, first, found => do
    match ← key? first with
    | some name => membersFrom member fuel false (← member name found)
    | none => return found

/-- The members of an object, which `member` reads one by one from after their key. -/
def members {σ : Type} (member : String → σ → Reader σ) (start : σ) : Reader σ := do
  membersFrom member ((← remaining) + 1) true start

/-- The value of a field that must not have been given before. -/
def field {α : Type} (name : String) (earlier : Option α) (value : Reader α) : Reader (Option α) := do
  if earlier.isSome then failUnplaced (.duplicateField name)
  colon
  return some (← value)

/-- Consumes the value of a field of unknown name. -/
def unknownField : Reader Unit := do
  colon
  skipValue

/-- Reads a record's content and what closes it. A fault of the record as a whole is placed where the
record ends, if it does end there. -/
private def closed {α : Type} (content : Reader α) (close : Reader Unit) : Reader α := do
  let value ← tryCatch content fun fault => do
    tryCatch close fun _ => return
    match fault.place with
    | some _ => throw fault
    | none => failHere fault.reason
  close
  return value

/-- A record, written as a list or as an object. -/
def record {α : Type} (name : String) (ofList ofObject : Reader α) : Reader α := do
  match ← token with
  | none => failAtNext .endInValue
  | some 0x5b => skip; closed ofList endList
  | some 0x7b => skip; closed ofObject endObject
  | some _ => wrongKind ("struct " ++ name)

/-- Reads a text that holds one value and nothing else. -/
def run {α : Type} (value : Reader α) (text : String) : Except Fault α :=
  let whole : Reader α := do
    let a ← value
    match ← token with
    | none => return a
    | some _ => failAtNext .trailingCharacters
  match EStateM.run whole { rest := text.toUTF8.toList } with
  | .ok a _ => .ok a
  | .error fault _ => .error fault

end WordLang.Json.Reader
