/-!
# Shortest decimals

The decimal with the fewest digits among those that round to a given binary floating-point number, and of
those the nearest one.
-/

namespace WordLang.Decimal

/-- The decimal `digits · 10 ^ exponent`. -/
structure Scaled where
  digits : Nat
  exponent : Int

/-- A positive binary number `mantissa · 2 ^ exponent`. It is `narrow` if the next smaller number of its
format is only half as far away as the next larger one. -/
structure Binary where
  mantissa : Nat
  exponent : Int
  narrow : Bool

namespace Binary

/-- The bit above the 52 stored bits of a double's mantissa. -/
def hidden : Nat :=
  0x10000000000000

/-- The number in the bits of a double, its sign aside; none for zero and for what is not finite. -/
def ofBits (bits : Nat) : Option Binary :=
  let fraction := bits % hidden
  let biased := bits / hidden % 2048
  if biased = 2047 then none
  else if biased = 0 then if fraction = 0 then none else some ⟨fraction, -1074, false⟩
  else some ⟨hidden + fraction, Int.ofNat biased - 1075, fraction == 0 && decide (1 < biased)⟩

/-- Compares `a · 2 ^ e` with `b · 10 ^ k`. -/
def compareScaled (a : Nat) (e : Int) (b : Nat) (k : Int) : Ordering :=
  compare (a * Nat.pow 2 e.toNat * Nat.pow 10 (-k).toNat)
    (b * Nat.pow 10 k.toNat * Nat.pow 2 (-e).toNat)

/-- Whether a decimal rounds to the number: the ends of the interval count if the mantissa is even. -/
def admits (x : Binary) (d : Scaled) : Bool :=
  let low := 4 * x.mantissa - if x.narrow then 1 else 2
  let high := 4 * x.mantissa + 2
  let below := compareScaled low (x.exponent - 2) d.digits d.exponent
  let above := compareScaled high (x.exponent - 2) d.digits d.exponent
  if x.mantissa % 2 = 0 then below != .gt && above != .lt else below == .lt && above == .gt

/-- The number of digits before the decimal point: the least `k` with the number below `10 ^ k`. -/
def magnitude (x : Binary) : Int :=
  let candidates := (List.range 700).map fun i => Int.ofNat i - 340
  (candidates.find? fun k => compareScaled x.mantissa x.exponent 1 k == .lt).getD 0

/-- The largest multiple of `10 ^ k` that is not above the number, in units of `10 ^ k`. -/
def floorAt (x : Binary) (k : Int) : Nat :=
  (x.mantissa * Nat.pow 2 x.exponent.toNat * Nat.pow 10 (-k).toNat) /
    (Nat.pow 10 k.toNat * Nat.pow 2 (-x.exponent).toNat)

/-- Whether the number is at most half way from `d` to the next multiple of `10 ^ k`. -/
def nearer (x : Binary) (d : Nat) (k : Int) : Bool :=
  match compareScaled (2 * x.mantissa) x.exponent (2 * d + 1) k with
  | .lt => true
  | .eq => d % 2 = 0
  | .gt => false

/-- The better neighbour of the number among the multiples of `10 ^ k` that round to it. -/
def neighbour? (x : Binary) (k : Int) : Option Scaled :=
  let d := x.floorAt k
  let below : Scaled := ⟨d, k⟩
  let above : Scaled := ⟨d + 1, k⟩
  match x.admits below, x.admits above with
  | true, true => some (if x.nearer d k then below else above)
  | true, false => some below
  | false, true => some above
  | false, false => none

def trimZeros : Nat → Scaled → Scaled
  | 0, d => d
  | fuel + 1, d =>
    if d.digits % 10 = 0 ∧ d.digits ≠ 0 then trimZeros fuel ⟨d.digits / 10, d.exponent + 1⟩ else d

/-- The shortest decimal that rounds to the number. Seventeen digits always suffice. -/
def shortest (x : Binary) : Scaled :=
  let size := x.magnitude
  let grids := (List.range 17).map fun i => size - 1 - Int.ofNat i
  trimZeros 20 ((grids.findSome? x.neighbour?).getD ⟨x.floorAt (size - 17), size - 17⟩)

end Binary

/-- A number of a text format in which every number shows that it need not be an integer. It is written
positionally from `10 ^ -5` up to `10 ^ 16`, and with an exponent outside that range. -/
def Scaled.text (d : Scaled) : String :=
  let digits := toString d.digits
  let length := digits.length
  let point : Int := length + d.exponent
  let zeros (n : Int) := String.ofList (List.replicate n.toNat '0')
  let before (n : Nat) := String.ofList (digits.toList.take n)
  let after (n : Nat) := String.ofList (digits.toList.drop n)
  let power := (if point < 1 then "e" else "e+") ++ toString (point - 1)
  if 0 ≤ d.exponent ∧ point ≤ 16 then digits ++ zeros d.exponent ++ ".0"
  else if 0 < point ∧ point ≤ 16 then before point.toNat ++ "." ++ after point.toNat
  else if -5 < point ∧ point ≤ 0 then "0." ++ zeros (-point) ++ digits
  else if length = 1 then digits ++ power
  else before 1 ++ "." ++ after 1 ++ power

def text (x : Float) : String :=
  let bits := x.toBits.toNat
  let sign := if 0x8000000000000000 ≤ bits then "-" else ""
  match Binary.ofBits bits with
  | some b => sign ++ b.shortest.text
  | none => sign ++ "0.0"

end WordLang.Decimal
