import WordLang.Json.Reader

/-!
# JSON numbers

A number is an integer as long as it is written as one and fits 64 bits. Otherwise it is a double: its
first digits, as far as they fit 64 bits, scaled by a power of ten.
-/

namespace WordLang.Json

inductive Number where
  | integer (value : Int)
  | double (value : Float)

def maxSignificand : Nat :=
  0xFFFFFFFFFFFFFFFF

def digit? (byte : UInt8) : Option Nat :=
  if 0x30 ≤ byte && byte ≤ 0x39 then some (byte.toNat - 0x30) else none

namespace Reader

private def isExponentMark (byte : Option UInt8) : Bool :=
  byte == some 0x65 || byte == some 0x45

private def skipDigits : Nat → Nat → Reader Nat
  | 0, count => return count
  | fuel + 1, count => do
    if ((← peek).bind digit?).isSome then
      skip
      skipDigits fuel (count + 1)
    else return count

/-- `significand · 10 ^ exponent`, by one multiplication or division for each 308 places. -/
private def scaleBy : Nat → Float → Int → Reader Float
  | 0, f, _ => return f
  | fuel + 1, f, exponent => do
    if exponent.natAbs ≤ 308 then
      let power := Float.ofScientific 1 false exponent.natAbs
      if exponent < 0 then return f / power
      else
        let scaled := f * power
        if scaled.isInf then failHere .numberOutOfRange else return scaled
    else if f == 0 then return f
    else if 0 < exponent then failHere .numberOutOfRange
    else scaleBy fuel (f / Float.ofScientific 1 false 308) (exponent + 308)

private def double (negative : Bool) (significand : Nat) (exponent : Int) : Reader Float := do
  let f ← scaleBy (exponent.natAbs + 1) significand.toUInt64.toFloat exponent
  return if negative then -f else f

/-- The largest exponent that is taken as written. -/
private def maxExponent : Nat :=
  0x7FFFFFFF

/-- The digits of an exponent; none if it is too large. -/
private def exponentDigits : Nat → Nat → Reader (Option Nat)
  | 0, value => return some value
  | fuel + 1, value => do
    match (← peek).bind digit? with
    | none => return some value
    | some d =>
      skip
      if maxExponent < value * 10 + d then return none else exponentDigits fuel (value * 10 + d)

private def withExponent (negative : Bool) (significand : Nat) (exponent : Int) : Reader Float := do
  skip
  let sign ← peek
  if sign == some 0x2b || sign == some 0x2d then
    skip
  let down := sign == some 0x2d
  match ← next with
  | none => failHere .endInValue
  | some byte =>
    match digit? byte with
    | none => failHere .invalidNumber
    | some d =>
      match ← exponentDigits (← remaining) d with
      | some value =>
        let moved := if down then exponent - value else exponent + value
        double negative significand (max (-0x80000000) (min moved maxExponent))
      | none =>
        if significand ≠ 0 && !down then failHere .numberOutOfRange
        else
          let _ ← skipDigits (← remaining) 0
          return if negative then -0.0 else 0.0

private def afterDigits (negative : Bool) (significand : Nat) (exponent : Int) : Reader Float := do
  if isExponentMark (← peek) then withExponent negative significand exponent
  else double negative significand exponent

/-- The digits after the decimal point. Digits that no longer fit do not count. -/
private def fractionDigits (negative : Bool) : Nat → Nat → Int → Bool → Reader Float
  | 0, significand, exponent, _ => double negative significand exponent
  | fuel + 1, significand, exponent, found => do
    match (← peek).bind digit? with
    | some d =>
      if maxSignificand < significand * 10 + d then
        let _ ← skipDigits (← remaining) 0
        afterDigits negative significand exponent
      else
        skip
        fractionDigits negative fuel (significand * 10 + d) (exponent - 1) true
    | none =>
      if found then afterDigits negative significand exponent
      else if (← peek).isSome then failAtNext .invalidNumber
      else failAtNext .endInValue

private def withFraction (negative : Bool) (significand : Nat) (exponent : Int) : Reader Float := do
  skip
  fractionDigits negative ((← remaining) + 1) significand exponent false

private def afterInteger (negative : Bool) (significand : Nat) : Reader Number := do
  match ← peek with
  | some 0x2e => return .double (← withFraction negative significand 0)
  | byte =>
    if isExponentMark byte then return .double (← withExponent negative significand 0)
    else if !negative then return .integer significand
    else if significand = 0 || 0x8000000000000000 < significand then
      return .double (-significand.toUInt64.toFloat)
    else return .integer (-significand)

/-- The digits of an integer. Digits that no longer fit only count as places. -/
private def integerDigits (negative : Bool) : Nat → Nat → Reader Number
  | 0, significand => return .integer significand
  | fuel + 1, significand => do
    match (← peek).bind digit? with
    | some d =>
      if maxSignificand < significand * 10 + d then
        let places ← skipDigits (← remaining) 0
        match ← peek with
        | some 0x2e => return .double (← withFraction negative significand places)
        | _ => return .double (← afterDigits negative significand places)
      else
        skip
        integerDigits negative fuel (significand * 10 + d)
    | none => afterInteger negative significand

def number (negative : Bool) : Reader Number := do
  match ← next with
  | none => failHere .endInValue
  | some byte =>
    match digit? byte with
    | none => failHere .invalidNumber
    | some 0 =>
      if ((← peek).bind digit?).isSome then failAtNext .invalidNumber else afterInteger negative 0
    | some d => integerDigits negative ((← remaining) + 1) d

/-- Consumes the exponent of a number whose value does not matter. -/
private def skipExponent : Reader Unit := do
  skip
  let sign ← peek
  if sign == some 0x2b || sign == some 0x2d then
    skip
  if ((← next).bind digit?).isSome then
    let _ ← skipDigits (← remaining) 0
  else failHere .invalidNumber

/-- Consumes a number whose value does not matter, after its sign. -/
def skipNumber : Reader Unit := do
  match (← next).bind digit? with
  | none => failHere .invalidNumber
  | some 0 => if ((← peek).bind digit?).isSome then failAtNext .invalidNumber
  | some _ => let _ ← skipDigits (← remaining) 0
  if (← peek) == some 0x2e then
    skip
    let places ← skipDigits (← remaining) 0
    if places = 0 then failAtNext .invalidNumber
  if isExponentMark (← peek) then skipExponent

end Reader

end WordLang.Json
