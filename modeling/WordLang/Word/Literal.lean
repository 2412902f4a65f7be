/-!
# Words and their literals

The language computes with 32-bit words. A literal is written in decimal, or in hexadecimal after `0x`,
or in binary after `0b`. Decimal literals are signed; the other two spell a bit pattern, which is then
read as a signed word.
-/

namespace WordLang

/-- A 32-bit two's complement word. -/
abbrev Word := Int32

inductive LiteralError where
  | empty
  | invalidDigit
  | tooLarge
  | tooSmall
deriving DecidableEq

def LiteralError.message : LiteralError → String
  | .empty => "cannot parse integer from empty string"
  | .invalidDigit => "invalid digit found in string"
  | .tooLarge => "number too large to fit in target type"
  | .tooSmall => "number too small to fit in target type"

namespace Literal

/-- The value of a digit below `radix`; letters of either case follow nine. -/
def digit? (radix : Nat) (c : Char) : Option Nat :=
  let value :=
    if c.isDigit then c.toNat - '0'.toNat
    else if 'a' ≤ c ∧ c ≤ 'z' then c.toNat - 'a'.toNat + 10
    else if 'A' ≤ c ∧ c ≤ 'Z' then c.toNat - 'A'.toNat + 10
    else radix
  if value < radix then some value else none

/-- Reads digits from the left onto `value`. The first digit that is invalid, or that takes the value
beyond `limit`, ends the reading; the latter is reported as `beyond`. -/
def digits (radix limit : Nat) (beyond : LiteralError) (value : Nat) :
    List Char → Except LiteralError Nat
  | [] => .ok value
  | c :: cs =>
    match digit? radix c with
    | none => .error .invalidDigit
    | some d =>
      if limit < value * radix + d then .error beyond
      else digits radix limit beyond (value * radix + d) cs

/-- A bit pattern of 32 bits, after at most one plus sign. -/
def pattern (radix : Nat) : List Char → Except LiteralError Nat
  | [] => .error .empty
  | ['+'] => .error .invalidDigit
  | '+' :: cs => digits radix 0xFFFFFFFF .tooLarge 0 cs
  | cs => digits radix 0xFFFFFFFF .tooLarge 0 cs

/-- A decimal number in the range of signed words, after at most one sign. -/
def decimal : List Char → Except LiteralError Int
  | [] => .error .empty
  | ['+'] | ['-'] => .error .invalidDigit
  | '+' :: cs => (digits 10 0x7FFFFFFF .tooLarge 0 cs).map Int.ofNat
  | '-' :: cs => (digits 10 0x80000000 .tooSmall 0 cs).map fun n => -(n : Int)
  | cs => (digits 10 0x7FFFFFFF .tooLarge 0 cs).map Int.ofNat

def read : List Char → Except LiteralError Word
  | '0' :: 'x' :: cs | '0' :: 'X' :: cs => (pattern 16 cs).map Int32.ofNat
  | '0' :: 'b' :: cs | '0' :: 'B' :: cs => (pattern 2 cs).map Int32.ofNat
  | cs => (decimal cs).map Int32.ofInt

end Literal

def Word.ofLiteral (text : String) : Except LiteralError Word :=
  Literal.read text.toList

end WordLang
