import Mathlib.Algebra.Ring.Nat
import Mathlib.Data.Bool.AllAny
import Mathlib.Data.Int.ModEq
import WordLang.Proofs.Tokenization

/-!
# The values of numerals

The digits of a numeral count by their places. A numeral of any length is read from the left, and reading stops
as soon as the value is too large; so a word is read exactly if the value of the whole numeral is in range, and
it is the word that has the bits of this value.
-/

namespace WordLang.Literal

open Token

/-- The value of a digit is its place among the hexadecimal digits, for letters of either case. -/
def digitValue (c : Char) : Nat :=
  "0123456789abcdef".toList.idxOf c.toLower

/-- The value of digits in a radix. -/
def placeValue (radix : Nat) : List Char → Nat
  | [] => 0
  | d :: ds => digitValue d * radix ^ ds.length + placeValue radix ds

/-- The value of a numeral: hexadecimal, binary or decimal, as its marker says. -/
def magnitude : List Char → Nat
  | '0' :: 'x' :: ds | '0' :: 'X' :: ds => placeValue 16 ds
  | '0' :: 'b' :: ds | '0' :: 'B' :: ds => placeValue 2 ds
  | ds => placeValue 10 ds

/-- What the value of a numeral has to stay below: bit patterns fill a word, and decimals leave its sign out. -/
def bound : List Char → Nat
  | '0' :: 'x' :: _ | '0' :: 'X' :: _ | '0' :: 'b' :: _ | '0' :: 'B' :: _ => 2 ^ 32
  | _ => 2 ^ 31

def IsDigit (radix : Nat) (c : Char) : Prop :=
  isHexDigit c = true ∧ digitValue c < radix

instance (radix : Nat) (c : Char) : Decidable (IsDigit radix c) :=
  inferInstanceAs (Decidable (isHexDigit c = true ∧ digitValue c < radix))

def Digits (radix : Nat) (ds : List Char) : Prop :=
  ds ≠ [] ∧ ∀ d ∈ ds, IsDigit radix d

/-- The characters that mark a radix, behind a zero. -/
def Marker : Nat → Char → Prop
  | 16, x => x = 'x' ∨ x = 'X'
  | 2, x => x = 'b' ∨ x = 'B'
  | _, _ => False

variable {radix limit : Nat} {beyond : LiteralError} {c x : Char} {cs ds : List Char} {w : Word}

/-! ## Digits -/

theorem mem_hexDigits (h : isHexDigit c = true) : c ∈ "0123456789abcdefABCDEF".toList := by
  simp only [isHexDigit, Bool.or_eq_true, Bool.and_eq_true, decide_eq_true_eq, Char.isDigit_iff_toNat,
    Char.le_def, UInt32.le_iff_toNat_le] at h
  change (((48 ≤ c.toNat ∧ c.toNat ≤ 57) ∨ (97 ≤ c.toNat ∧ c.toNat ≤ 102)) ∨ (65 ≤ c.toNat ∧ c.toNat ≤ 70)) at h
  have hcodes : ∀ n < 103, ((48 ≤ n ∧ n ≤ 57) ∨ (97 ≤ n ∧ n ≤ 102)) ∨ (65 ≤ n ∧ n ≤ 70) →
      Char.ofNat n ∈ "0123456789abcdefABCDEF".toList := by decide
  rw [← Char.ofNat_toNat c]
  exact hcodes _ (by omega) h

private theorem digit?_hexDigit (h : isHexDigit c = true) : digit? 16 c = some (digitValue c) := by
  have hall : ∀ d ∈ "0123456789abcdefABCDEF".toList, digit? 16 d = some (digitValue d) :=
    List.all_iff_forall_prop.mp (by decide)
  exact hall c (mem_hexDigits h)

private theorem digit?_not_hexDigit (h : ¬ isHexDigit c = true) : digit? 16 c = none := by
  simp only [isHexDigit, Bool.or_eq_true, Bool.and_eq_true, decide_eq_true_eq, Char.le_def,
    UInt32.le_iff_toNat_le] at h
  change ¬ ((c.isDigit = true ∨ (97 ≤ c.toNat ∧ c.toNat ≤ 102)) ∨ (65 ≤ c.toNat ∧ c.toNat ≤ 70)) at h
  unfold digit?
  rw [if_neg fun hdigit => h (.inl (.inl hdigit))]
  split
  · rename_i hletter
    have hcode : ¬ c.toNat - 97 + 10 < 16 := by
      have hle : 97 ≤ c.toNat := hletter.1
      omega
    exact if_neg hcode
  · split
    · rename_i hletter
      have hcode : ¬ c.toNat - 65 + 10 < 16 := by
        have hle : 65 ≤ c.toNat := hletter.1
        omega
      exact if_neg hcode
    · rfl

private theorem digit?_filter (hradix : radix ≤ 16) : digit? radix c = (digit? 16 c).filter (· < radix) := by
  have hfilter (v : Nat) : (if v < radix then some v else none) =
      (if v < 16 then some v else none).filter (· < radix) := by
    by_cases hv : v < radix
    · simp [hv, Nat.lt_of_lt_of_le hv hradix, Option.filter_some]
    · by_cases hv' : v < 16 <;> simp [hv, hv', Option.filter_some]
  unfold digit?
  dsimp only
  split
  · exact hfilter _
  · split
    · exact hfilter _
    · split
      · exact hfilter _
      · simp

private theorem digit?_eq (hradix : radix ≤ 16) :
    digit? radix c = if IsDigit radix c then some (digitValue c) else none := by
  rw [digit?_filter hradix]
  by_cases hhex : isHexDigit c = true
  · simp [digit?_hexDigit hhex, IsDigit, hhex, Option.filter_some]
  · simp [digit?_not_hexDigit hhex, IsDigit, hhex]

private theorem isDigit_iff {p : Char → Bool} (hhex : p c = true → isHexDigit c = true)
    (hall : ∀ d ∈ "0123456789abcdefABCDEF".toList, digitValue d < radix ↔ p d = true) :
    IsDigit radix c ↔ p c = true := by
  constructor
  · rintro ⟨h, hlt⟩
    exact (hall c (mem_hexDigits h)).mp hlt
  · intro h
    exact ⟨hhex h, (hall c (mem_hexDigits (hhex h))).mpr h⟩

private theorem isDigit_decimal : IsDigit 10 c ↔ c.isDigit = true :=
  isDigit_iff (fun h => by simp [isHexDigit, h]) (List.all_iff_forall_prop.mp (by decide))

private theorem isDigit_hexadecimal : IsDigit 16 c ↔ isHexDigit c = true :=
  isDigit_iff id (List.all_iff_forall_prop.mp (by decide))

private theorem isDigit_binary : IsDigit 2 c ↔ isBinaryDigit c = true := by
  refine isDigit_iff (fun h => ?_) (List.all_iff_forall_prop.mp (by decide))
  simp only [isBinaryDigit, Bool.or_eq_true, beq_iff_eq] at h
  rcases h with rfl | rfl <;> decide

theorem Marker.radix_eq (h : Marker radix x) : radix = 16 ∨ radix = 2 := by
  unfold Marker at h
  split at h
  · exact .inl rfl
  · exact .inr rfl
  · exact h.elim

theorem Marker.pos (h : Marker radix x) : 0 < radix := by
  rcases h.radix_eq with rfl | rfl <;> decide

theorem Marker.le (h : Marker radix x) : radix ≤ 16 := by
  rcases h.radix_eq with rfl | rfl <;> decide

theorem numeral_iff : Numeral cs ↔
    Digits 10 cs ∨ ∃ radix x ds, Marker radix x ∧ Digits radix ds ∧ cs = '0' :: x :: ds := by
  simp only [Digits]
  constructor
  · rintro (⟨hne, hds⟩ | ⟨hx, hne, hds⟩ | ⟨hx, hne, hds⟩)
    · exact .inl ⟨hne, fun d hd => isDigit_decimal.mpr (hds d hd)⟩
    · exact .inr ⟨16, _, _, hx, ⟨hne, fun d hd => isDigit_hexadecimal.mpr (hds d hd)⟩, rfl⟩
    · exact .inr ⟨2, _, _, hx, ⟨hne, fun d hd => isDigit_binary.mpr (hds d hd)⟩, rfl⟩
  · rintro (⟨hne, hds⟩ | ⟨radix, x, ds, hx, ⟨hne, hds⟩, rfl⟩)
    · exact .decimal hne fun d hd => isDigit_decimal.mp (hds d hd)
    · rcases hx.radix_eq with rfl | rfl
      · exact .hexadecimal hx hne fun d hd => isDigit_hexadecimal.mp (hds d hd)
      · exact .binary hx hne fun d hd => isDigit_binary.mp (hds d hd)

/-! ## Reading digits -/

private theorem placeValue_cons (value : Nat) (d : Char) (ds : List Char) :
    value * radix ^ (d :: ds).length + placeValue radix (d :: ds) =
      (value * radix + digitValue d) * radix ^ ds.length + placeValue radix ds := by
  rw [placeValue, List.length_cons, pow_succ', Nat.add_mul, Nat.mul_assoc, Nat.add_assoc]

-- What was read before counts as often as there are places for the digits that are left. So the value after one
-- digit is at most the value of the whole, and a digit that is one too many shows in the whole as well.
private theorem digits_eq_ok {value v : Nat} (hpos : 0 < radix) (hradix : radix ≤ 16) (hvalue : value ≤ limit) :
    digits radix limit beyond value ds = .ok v ↔
      (∀ d ∈ ds, IsDigit radix d) ∧ v = value * radix ^ ds.length + placeValue radix ds ∧ v ≤ limit := by
  induction ds generalizing value with
  | nil =>
    rw [digits, Except.ok.injEq]
    constructor
    · rintro rfl
      exact ⟨by simp, by simp [placeValue], hvalue⟩
    · rintro ⟨-, rfl, -⟩
      simp [placeValue]
  | cons d ds ih =>
    rw [digits, digit?_eq hradix, placeValue_cons, List.forall_mem_cons]
    by_cases hd : IsDigit radix d
    · rw [if_pos hd]
      dsimp only
      by_cases hlimit : limit < value * radix + digitValue d
      · rw [if_pos hlimit]
        constructor
        · intro h
          cases h
        · rintro ⟨-, rfl, hle⟩
          have hscale := Nat.le_mul_of_pos_right (value * radix + digitValue d) (Nat.pow_pos (n := ds.length) hpos)
          omega
      · rw [if_neg hlimit, ih (Nat.le_of_not_lt hlimit)]
        simp [hd]
    · rw [if_neg hd]
      constructor
      · intro h
        cases h
      · rintro ⟨⟨h, -⟩, -⟩
        exact absurd h hd

theorem map_digits_eq_ok {α : Type} {f : Nat → α} {a : α} (hpos : 0 < radix) (hradix : radix ≤ 16) :
    (digits radix limit beyond 0 ds).map f = .ok a ↔
      (∀ d ∈ ds, IsDigit radix d) ∧ placeValue radix ds ≤ limit ∧ a = f (placeValue radix ds) := by
  have hdigits (v : Nat) := @digits_eq_ok radix limit beyond ds 0 v hpos hradix (Nat.zero_le _)
  rw [Nat.zero_mul, Nat.zero_add] at hdigits
  cases h : digits radix limit beyond 0 ds with
  | ok v =>
    obtain ⟨hds, rfl, hle⟩ := (hdigits v).mp h
    rw [Except.map, Except.ok.injEq, eq_comm]
    exact ⟨fun ha => ⟨hds, hle, ha⟩, fun ha => ha.2.2⟩
  | error e =>
    constructor
    · intro ha
      cases ha
    · rintro ⟨hds, hle, -⟩
      rw [(hdigits _).mpr ⟨hds, rfl, hle⟩] at h
      cases h

/-! ## Reading numerals -/

theorem pattern_unsigned (hne : cs ≠ []) (hplus : '+' ∉ cs.head?) :
    pattern radix cs = digits radix 0xFFFFFFFF .tooLarge 0 cs := by
  unfold pattern
  split
  · exact absurd rfl hne
  · simp at hplus
  · simp at hplus
  · rfl

theorem decimal_unsigned (hne : cs ≠ []) (hplus : '+' ∉ cs.head?) (hminus : '-' ∉ cs.head?) :
    decimal cs = (digits 10 0x7FFFFFFF .tooLarge 0 cs).map Int.ofNat := by
  unfold decimal
  split
  · exact absurd rfl hne
  · simp at hplus
  · simp at hminus
  · simp at hplus
  · simp at hminus
  · rfl

private theorem Digits.not_mem_head? (h : Digits radix ds) (hc : isHexDigit c = false) : c ∉ ds.head? := by
  intro hmem
  obtain ⟨hhex, -⟩ := h.2 c (List.mem_of_mem_head? hmem)
  simp [hc] at hhex

/-- A word is known by its value modulo `2 ^ 32`. -/
theorem eq_ofNat_iff {v : Nat} : w = Int32.ofNat v ↔ w.toInt ≡ v [ZMOD 2 ^ 32] := by
  have hsize : ((2 : Int) ^ 32) = (Int32.size : Nat) := rfl
  rw [← Int32.toInt_inj, Int32.toInt_ofNat', Int.ModEq, hsize]
  constructor
  · intro h
    rw [h, Int.bmod_emod]
  · intro h
    have hself : w.toInt.bmod Int32.size = w.toInt := by
      rw [← Int32.toInt_ofInt, Int32.ofInt_toInt]
    rw [← hself, ← Int.emod_bmod, h, Int.emod_bmod]

theorem map_ofInt_digits (limit : Nat) (beyond : LiteralError) (ds : List Char) :
    ((digits 10 limit beyond 0 ds).map Int.ofNat).map Int32.ofInt =
      (digits 10 limit beyond 0 ds).map Int32.ofNat := by
  cases digits 10 limit beyond 0 ds with
  | ok v => exact congrArg Except.ok Int32.ofInt_eq_ofNat
  | error e => rfl

private theorem pattern_digits (hpos : 0 < radix) (hradix : radix ≤ 16) (hds : Digits radix ds) :
    (pattern radix ds).map Int32.ofNat = .ok w ↔
      placeValue radix ds < 2 ^ 32 ∧ w = Int32.ofNat (placeValue radix ds) := by
  rw [pattern_unsigned hds.1 (hds.not_mem_head? (by decide)), map_digits_eq_ok hpos hradix, and_iff_right hds.2]
  exact and_congr_left fun _ => Nat.lt_succ_iff.symm

private theorem decimal_digits (hds : Digits 10 ds) :
    (decimal ds).map Int32.ofInt = .ok w ↔ placeValue 10 ds < 2 ^ 31 ∧ w = Int32.ofNat (placeValue 10 ds) := by
  rw [decimal_unsigned hds.1 (hds.not_mem_head? (by decide)) (hds.not_mem_head? (by decide)), map_ofInt_digits,
    map_digits_eq_ok (by decide) (by decide), and_iff_right hds.2]
  exact and_congr_left fun _ => Nat.lt_succ_iff.symm

theorem marked_forms (hx : Marker radix x) (cs : List Char) :
    read ('0' :: x :: cs) = (pattern radix cs).map Int32.ofNat ∧
    magnitude ('0' :: x :: cs) = placeValue radix cs ∧ bound ('0' :: x :: cs) = 2 ^ 32 := by
  rcases hx.radix_eq with rfl | rfl
  · rcases hx with rfl | rfl <;> exact ⟨rfl, rfl, rfl⟩
  · rcases hx with rfl | rfl <;> exact ⟨rfl, rfl, rfl⟩

section

variable (hplain : ∀ x rest, cs = '0' :: x :: rest → x ∉ ['x', 'X', 'b', 'B'])
include hplain

theorem read_plain : read cs = (decimal cs).map Int32.ofInt := by
  unfold read
  split
  iterate 4 exact absurd (by decide) (hplain _ _ rfl)
  rfl

private theorem magnitude_plain : magnitude cs = placeValue 10 cs := by
  unfold magnitude
  split
  iterate 4 exact absurd (by decide) (hplain _ _ rfl)
  rfl

private theorem bound_plain : bound cs = 2 ^ 31 := by
  unfold bound
  split
  iterate 4 exact absurd (by decide) (hplain _ _ rfl)
  rfl

end

private theorem Digits.plain (h : Digits 10 ds) : ∀ x rest, ds = '0' :: x :: rest → x ∉ ['x', 'X', 'b', 'B'] := by
  rintro x rest rfl hx
  have hall : ∀ x ∈ ['x', 'X', 'b', 'B'], ¬ IsDigit 10 x := List.all_iff_forall_prop.mp (by decide)
  exact hall x hx (h.2 x (by simp))

theorem read_numeral (h : Numeral cs) :
    read cs = .ok w ↔ magnitude cs < bound cs ∧ w = Int32.ofNat (magnitude cs) := by
  rcases numeral_iff.mp h with hds | ⟨radix, x, ds, hx, hds, rfl⟩
  · rw [read_plain hds.plain, magnitude_plain hds.plain, bound_plain hds.plain]
    exact decimal_digits hds
  · obtain ⟨hread, hmagnitude, hbound⟩ := marked_forms hx ds
    rw [hread, hmagnitude, hbound]
    exact pattern_digits hx.pos hx.le hds

/-! ## Writing numerals -/

private theorem placeValue_append (xs ys : List Char) :
    placeValue radix (xs ++ ys) = placeValue radix xs * radix ^ ys.length + placeValue radix ys := by
  induction xs with
  | nil => simp [placeValue]
  | cons x xs ih =>
    rw [List.cons_append, placeValue, placeValue, ih, List.length_append, pow_add, Nat.add_mul, Nat.mul_assoc,
      Nat.add_assoc]

private theorem placeValue_zeros (n : Nat) (ds : List Char) :
    placeValue radix (List.replicate n '0' ++ ds) = placeValue radix ds := by
  induction n with
  | zero => rfl
  | succ n ih =>
    have hzero : digitValue '0' = 0 := by decide
    rw [List.replicate_succ, List.cons_append, placeValue, ih, hzero, Nat.zero_mul, Nat.zero_add]

private theorem digitValue_digitChar {k : Nat} (h : k < 16) : digitValue k.digitChar = k := by
  have hall : ∀ k < 16, digitValue (Nat.digitChar k) = k := by decide
  exact hall k h

private theorem isDigit_digitChar {k : Nat} (hradix : radix ≤ 16) (h : k < radix) : IsDigit radix k.digitChar := by
  have hall : ∀ k < 16, isHexDigit (Nat.digitChar k) = true := by decide
  have hk := Nat.lt_of_lt_of_le h hradix
  exact ⟨hall k hk, by rwa [digitValue_digitChar hk]⟩

/-- The digits that are written for a number are digits, and its value is theirs. -/
theorem toDigits_value (hpos : 1 < radix) (hradix : radix ≤ 16) (n : Nat) :
    Digits radix (Nat.toDigits radix n) ∧ placeValue radix (Nat.toDigits radix n) = n := by
  induction n using Nat.strongRecOn with
  | ind n ih =>
    rw [Digits, and_iff_right Nat.toDigits_ne_nil, Nat.toDigits_eq_if hpos]
    split
    · rename_i hlt
      have hvalue := digitValue_digitChar (Nat.lt_of_lt_of_le hlt hradix)
      exact ⟨by simpa using isDigit_digitChar hradix hlt, by simpa [placeValue] using hvalue⟩
    · rename_i hge
      have hlast : n % radix < radix := Nat.mod_lt n (Nat.lt_trans Nat.one_pos hpos)
      obtain ⟨⟨-, hds⟩, hvalue⟩ := ih (n / radix) (Nat.div_lt_self (by omega) hpos)
      constructor
      · rw [List.forall_mem_append]
        exact ⟨hds, by simpa using isDigit_digitChar hradix hlast⟩
      · rw [placeValue_append, hvalue]
        simp [placeValue, digitValue_digitChar (Nat.lt_of_lt_of_le hlast hradix), Nat.div_add_mod']

end WordLang.Literal

namespace WordLang.Word

open Literal Token

private theorem ofLiteral_toString {n : Word} (h : 0 ≤ n.toInt) : ofLiteral (toString n.toInt) = .ok n := by
  obtain ⟨k, hk⟩ := Int.eq_ofNat_of_zero_le h
  have htext : (toString n.toInt).toList = Nat.toDigits 10 k := by
    rw [hk]
    exact Nat.toList_repr
  obtain ⟨hds, hvalue⟩ := @toDigits_value 10 (by decide) (by decide) k
  have hlt : k < 2 ^ 31 := by
    have := n.toInt_lt
    omega
  rw [ofLiteral, htext, read_plain hds.plain, decimal_digits hds, hvalue, eq_ofNat_iff, hk]
  exact ⟨hlt, rfl⟩

/-- The text of the bits of a word, after any number of zeros. -/
def patternText (radix : Nat) (zeros : Nat) (n : Word) : String :=
  String.ofList (List.replicate zeros '0' ++ Nat.toDigits radix n.toBitVec.toNat)

private theorem pattern_patternText {radix : Nat} (hpos : 1 < radix) (hradix : radix ≤ 16) (zeros : Nat) (n : Word) :
    (pattern radix (patternText radix zeros n).toList).map Int32.ofNat = .ok n := by
  have hradix_pos := Nat.lt_trans Nat.one_pos hpos
  obtain ⟨⟨hne, hds⟩, hvalue⟩ := toDigits_value hpos hradix n.toBitVec.toNat
  have hdigits : Digits radix (List.replicate zeros '0' ++ Nat.toDigits radix n.toBitVec.toNat) := by
    refine ⟨List.append_ne_nil_of_right_ne_nil _ hne, List.forall_mem_append.mpr ⟨?_, hds⟩⟩
    intro d hd
    rw [List.eq_of_mem_replicate hd]
    exact isDigit_digitChar (k := 0) hradix hradix_pos
  rw [patternText, String.toList_ofList, pattern_digits hradix_pos hradix hdigits, placeValue_zeros, hvalue]
  refine ⟨n.toBitVec.isLt, ?_⟩
  rw [← Int32.toBitVec_inj, Int32.toBitVec_ofNat', BitVec.ofNat_toNat, BitVec.setWidth_eq]

private theorem ofLiteral_patternText (zeros : Nat) (n : Word) :
    (∀ marker ∈ ["0x", "0X"], ofLiteral (marker ++ patternText 16 zeros n) = .ok n) ∧
    ∀ marker ∈ ["0b", "0B"], ofLiteral (marker ++ patternText 2 zeros n) = .ok n := by
  have hhex := @pattern_patternText 16 (by decide) (by decide) zeros n
  have hbinary := @pattern_patternText 2 (by decide) (by decide) zeros n
  simp only [List.forall_mem_cons, ofLiteral, String.toList_append]
  exact ⟨⟨hhex, hhex, by simp⟩, hbinary, hbinary, by simp⟩

/-- A numeral is a word exactly if its value is in range, and then the word that has this value modulo `2 ^ 32`.
So words that are not negative can be written in decimal and all words by their bits. -/
theorem ofLiteral_exact :
    (∀ text : String, Numeral text.toList →
      ((∃ n, ofLiteral text = .ok n) ↔ magnitude text.toList < bound text.toList) ∧
      ∀ n, ofLiteral text = .ok n ↔
        magnitude text.toList < bound text.toList ∧ n.toInt ≡ magnitude text.toList [ZMOD 2 ^ 32]) ∧
    ∀ n : Word, (0 ≤ n.toInt → ofLiteral (toString n.toInt) = .ok n) ∧ ∀ zeros,
      (∀ marker ∈ ["0x", "0X"], ofLiteral (marker ++ patternText 16 zeros n) = .ok n) ∧
      ∀ marker ∈ ["0b", "0B"], ofLiteral (marker ++ patternText 2 zeros n) = .ok n := by
  refine ⟨fun text h => ?_, fun n => ⟨ofLiteral_toString, fun zeros => ofLiteral_patternText zeros n⟩⟩
  have hread (n : Word) : ofLiteral text = .ok n ↔ _ := read_numeral h
  refine ⟨⟨?_, ?_⟩, fun n => by rw [hread, eq_ofNat_iff]⟩
  · rintro ⟨n, hn⟩
    exact ((hread n).mp hn).1
  · intro hlt
    exact ⟨_, (hread _).mpr ⟨hlt, rfl⟩⟩

theorem ofLiteral_exact_limits :
    Numeral "0x000000000FFFFFFFF".toList ∧ ofLiteral "0x000000000FFFFFFFF" = .ok (-1) ∧
    Numeral "2147483648".toList ∧ ¬ ∃ n, ofLiteral "2147483648" = .ok n := by
  have hbits : Numeral "0x000000000FFFFFFFF".toList :=
    .hexadecimal (.inl rfl) (by decide) (List.all_eq_true.mp (by decide))
  have hdecimal : Numeral "2147483648".toList := .decimal (by decide) (List.all_eq_true.mp (by decide))
  refine ⟨hbits, ?_, hdecimal, ?_⟩
  · exact ((ofLiteral_exact.1 _ hbits).2 (-1)).mpr ⟨by decide, by decide⟩
  · rw [(ofLiteral_exact.1 _ hdecimal).1]
    decide

end WordLang.Word
