/-!
# Reading JSON

Readers of JSON text. A reader moves a cursor over the bytes of the text. A fault of the text names the
line and column where it was found; a column counts the bytes read on the line. A fault of a value as a
whole gets its place later, when as much of the value as possible has been read.
-/

namespace WordLang.Json

/-- What can be wrong with a text, or with a value in it. -/
inductive Reason where
  | endInList
  | endInObject
  | endInString
  | endInValue
  | expectedColon
  | expectedListEnd
  | expectedObjectEnd
  | expectedWord
  | expectedValue
  | invalidEscape
  | invalidNumber
  | numberOutOfRange
  | controlCharacter
  | keyNotString
  | loneSurrogate
  | unpairedSurrogate
  | trailingComma
  | trailingCharacters
  /-- A value of another kind than the one expected. -/
  | wrongKind (found expected : String)
  /-- A list with too few elements. -/
  | wrongLength (found : Nat) (expected : String)
  | missingField (name : String)
  | duplicateField (name : String)

def Reason.message : Reason → String
  | endInList => "EOF while parsing a list"
  | endInObject => "EOF while parsing an object"
  | endInString => "EOF while parsing a string"
  | endInValue => "EOF while parsing a value"
  | expectedColon => "expected `:`"
  | expectedListEnd => "expected `,` or `]`"
  | expectedObjectEnd => "expected `,` or `\x7d`"
  | expectedWord => "expected ident"
  | expectedValue => "expected value"
  | invalidEscape => "invalid escape"
  | invalidNumber => "invalid number"
  | numberOutOfRange => "number out of range"
  | controlCharacter => "control character (\\u0000-\\u001F) found while parsing a string"
  | keyNotString => "key must be a string"
  | loneSurrogate => "lone leading surrogate in hex escape"
  | unpairedSurrogate => "unexpected end of hex escape"
  | trailingComma => "trailing comma"
  | trailingCharacters => "trailing characters"
  | wrongKind found expected => s!"invalid type: {found}, expected {expected}"
  | wrongLength found expected => s!"invalid length {found}, expected {expected}"
  | missingField name => s!"missing field `{name}`"
  | duplicateField name => s!"duplicate field `{name}`"

/-- A place in a text: a line, and the bytes read on it. -/
structure Place where
  line : Nat
  column : Nat

/-- A fault and its place, where that is known. -/
structure Fault where
  reason : Reason
  place : Option Place

def Fault.message (fault : Fault) : String :=
  match fault.place with
  | some place => s!"{fault.reason.message} at line {place.line} column {place.column}"
  | none => fault.reason.message

/-- The bytes still to be read, and the place reached. -/
structure Cursor where
  rest : List UInt8
  place : Place := ⟨1, 0⟩

def Cursor.advance (cursor : Cursor) : Cursor :=
  match cursor.rest with
  | [] => cursor
  | byte :: rest =>
    if byte = 0x0a then ⟨rest, ⟨cursor.place.line + 1, 0⟩⟩
    else ⟨rest, ⟨cursor.place.line, cursor.place.column + 1⟩⟩

/-- A step of reading. A step that fails leaves the cursor where it failed. -/
abbrev Reader := EStateM Fault Cursor

namespace Reader

def peek : Reader (Option UInt8) := do
  return (← get).rest.head?

def skip : Reader Unit :=
  modify Cursor.advance

def next : Reader (Option UInt8) := do
  let byte ← peek
  skip
  return byte

/-- Fails at the bytes consumed so far. -/
def failHere {α : Type} (reason : Reason) : Reader α := do
  throw ⟨reason, some (← get).place⟩

/-- Fails at the next byte. -/
def failAtNext {α : Type} (reason : Reason) : Reader α := do
  throw ⟨reason, some (← get).advance.place⟩

/-- Fails for a value as a whole. -/
def failUnplaced {α : Type} (reason : Reason) : Reader α :=
  throw ⟨reason, none⟩

def remaining : Reader Nat := do
  return (← get).rest.length

private def isSpace (byte : UInt8) : Bool :=
  byte = 0x20 || byte = 0x0a || byte = 0x09 || byte = 0x0d

private def skipSpaces : Nat → Reader Unit
  | 0 => return
  | fuel + 1 => do
    if (← peek).any isSpace then
      skip
      skipSpaces fuel

/-- Consumes white space and looks at the byte after it. -/
def token : Reader (Option UInt8) := do
  skipSpaces (← remaining)
  peek

/-- Consumes the rest of a word such as `null`. -/
def word : List UInt8 → Reader Unit
  | [] => return
  | byte :: bytes => do
    match ← next with
    | none => failHere .endInValue
    | some found => if found = byte then word bytes else failHere .expectedWord

def hexDigit? (byte : UInt8) : Option Nat :=
  let n := byte.toNat
  if 0x30 ≤ n && n ≤ 0x39 then some (n - 0x30)
  else if 0x61 ≤ n && n ≤ 0x66 then some (n - 0x57)
  else if 0x41 ≤ n && n ≤ 0x46 then some (n - 0x37)
  else none

def hexQuad : Reader Nat := do
  match (← get).rest with
  | a :: b :: c :: d :: _ =>
    skip
    skip
    skip
    skip
    match hexDigit? a, hexDigit? b, hexDigit? c, hexDigit? d with
    | some a, some b, some c, some d => return ((a * 16 + b) * 16 + c) * 16 + d
    | _, _, _, _ => failHere .invalidEscape
  | rest =>
    rest.forM fun _ => skip
    failHere .endInString

/-- Consumes a byte that must be the given one to continue a pair of surrogates. -/
private def pairByte (byte : UInt8) : Reader Unit := do
  match ← next with
  | none => failHere .endInString
  | some found => if found = byte then return else failHere .unpairedSurrogate

/-- The UTF-8 bytes of the character after `\u`. Characters beyond the first plane are a pair of
surrogates. -/
def unicodeEscape : Reader (List UInt8) := do
  let high ← hexQuad
  if 0xDC00 ≤ high && high ≤ 0xDFFF then failHere .loneSurrogate
  else if 0xD800 ≤ high && high ≤ 0xDBFF then
    pairByte 0x5c
    pairByte 0x75
    let low ← hexQuad
    if 0xDC00 ≤ low && low ≤ 0xDFFF then
      return bytes (0x10000 + (high - 0xD800) * 0x400 + (low - 0xDC00))
    else failHere .loneSurrogate
  else return bytes high
where
  bytes (n : Nat) : List UInt8 := (String.singleton (Char.ofNat n)).toUTF8.toList

/-- The byte that a backslash and one letter stand for. -/
def plainEscape? (byte : UInt8) : Option UInt8 :=
  [(0x22, 0x22), (0x5c, 0x5c), (0x2f, 0x2f), (0x62, 0x08), (0x66, 0x0c), (0x6e, 0x0a), (0x72, 0x0d),
    (0x74, 0x09)].lookup byte

/-- The bytes that the escape after a backslash stands for. -/
def escape : Reader (List UInt8) := do
  match ← next with
  | none => failHere .endInString
  | some 0x75 => unicodeEscape
  | some byte =>
    match plainEscape? byte with
    | some plain => return [plain]
    | none => failHere .invalidEscape

private def stringBytes : Nat → Array UInt8 → Reader (Array UInt8)
  | 0, _ => failHere .endInString
  | fuel + 1, read => do
    match ← next with
    | none => failHere .endInString
    | some 0x22 => return read
    | some 0x5c => stringBytes fuel (read ++ (← escape))
    | some byte => if byte < 0x20 then failHere .controlCharacter else stringBytes fuel (read.push byte)

/-- The rest of a string, after its opening quote. -/
def string : Reader String := do
  let bytes ← stringBytes ((← remaining) + 1) #[]
  return (String.fromUTF8? ⟨bytes⟩).getD ""

private def skipStringBytes : Nat → Reader Unit
  | 0 => failHere .endInString
  | fuel + 1 => do
    match ← peek with
    | none => failHere .endInString
    | some 0x22 => skip
    | some 0x5c => do
      skip
      match ← next with
      | none => failHere .endInString
      | some 0x75 => do
        let _ ← hexQuad
        skipStringBytes fuel
      | some byte =>
        if (plainEscape? byte).isSome then skipStringBytes fuel else failHere .invalidEscape
    | some byte =>
      if byte < 0x20 then failHere .controlCharacter
      else
        skip
        skipStringBytes fuel

/-- Consumes the rest of a string whose characters do not matter. -/
def skipString : Reader Unit := do
  skipStringBytes ((← remaining) + 1)

def colon : Reader Unit := do
  match ← token with
  | some 0x3a => skip
  | some _ => failAtNext .expectedColon
  | none => failAtNext .endInObject

end Reader

end WordLang.Json
