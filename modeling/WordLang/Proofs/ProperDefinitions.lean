import WordLang.Options
import WordLang.Proofs.BracketedNames
import WordLang.Proofs.NumeralValues

/-!
# Definitions of constants

A constant is defined by a text `NAME=VALUE`. It should be a placeholder and a numeral of the language, with at most one
minus sign in front. Two things more are taken: names with a digit in front, which are no placeholders, and
literals that have a sign of their own, so that a number can have two.
-/

namespace WordLang

/-! ## Signs of literals -/

namespace Literal

open Token

variable {radix : Nat} {x : Char} {cs ds : List Char} {w : Word}

def NumeralWord (cs : List Char) (w : Word) : Prop :=
  Numeral cs ∧ magnitude cs < bound cs ∧ w = Int32.ofNat (magnitude cs)

/-- Literals with a sign of their own, which no numeral has: decimals have it in front, and bit patterns can have
a plus behind the marker. -/
inductive OwnSign : List Char → Word → Prop where
  | plus {ds : List Char} (hds : Digits 10 ds) (hlt : placeValue 10 ds < 2 ^ 31) :
      OwnSign ('+' :: ds) (Int32.ofNat (placeValue 10 ds))
  | minus {ds : List Char} (hds : Digits 10 ds) (hle : placeValue 10 ds ≤ 2 ^ 31) :
      OwnSign ('-' :: ds) (Int32.ofInt (-(placeValue 10 ds : Nat)))
  | marked {radix : Nat} {x : Char} {ds : List Char} (hx : Marker radix x) (hds : Digits radix ds)
      (hlt : placeValue radix ds < 2 ^ 32) : OwnSign ('0' :: x :: '+' :: ds) (Int32.ofNat (placeValue radix ds))

private theorem marked_or_plain (cs : List Char) : (∃ radix x rest, Marker radix x ∧ cs = '0' :: x :: rest) ∨
    ∀ x rest, cs = '0' :: x :: rest → x ∉ ['x', 'X', 'b', 'B'] := by
  by_cases h : ∃ x rest, cs = '0' :: x :: rest ∧ x ∈ ['x', 'X', 'b', 'B']
  · obtain ⟨x, rest, rfl, hx⟩ := h
    simp only [List.mem_cons, List.not_mem_nil, or_false] at hx
    rcases hx with rfl | rfl | rfl | rfl
    · exact .inl ⟨16, _, rest, .inl rfl, rfl⟩
    · exact .inl ⟨16, _, rest, .inr rfl, rfl⟩
    · exact .inl ⟨2, _, rest, .inl rfl, rfl⟩
    · exact .inl ⟨2, _, rest, .inr rfl, rfl⟩
  · exact .inr fun x rest hcs hx => h ⟨x, rest, hcs, hx⟩

private theorem read_markedPlus (hx : Marker radix x) (hne : cs ≠ []) :
    read ('0' :: x :: '+' :: cs) = (digits radix 0xFFFFFFFF .tooLarge 0 cs).map Int32.ofNat := by
  rw [(marked_forms hx _).1]
  cases cs with
  | nil => exact absurd rfl hne
  | cons c cs => rfl

private theorem read_plus (hne : cs ≠ []) :
    read ('+' :: cs) = (digits 10 0x7FFFFFFF .tooLarge 0 cs).map Int32.ofNat := by
  rw [← map_ofInt_digits]
  cases cs with
  | nil => exact absurd rfl hne
  | cons c cs => rfl

private theorem read_minus (hne : cs ≠ []) :
    read ('-' :: cs) = (digits 10 0x80000000 .tooSmall 0 cs).map fun v => Int32.ofInt (-(v : Nat)) := by
  cases cs with
  | nil => exact absurd rfl hne
  | cons c cs =>
    have hread : read ('-' :: c :: cs) =
        ((digits 10 0x80000000 .tooSmall 0 (c :: cs)).map fun v => -(v : Int)).map Int32.ofInt := rfl
    rw [hread]
    cases digits 10 0x80000000 .tooSmall 0 (c :: cs) <;> rfl

private theorem OwnSign.read_eq (h : OwnSign cs w) : read cs = .ok w := by
  cases h with
  | plus hds hlt =>
    rw [read_plus hds.1, map_digits_eq_ok (by decide) (by decide)]
    exact ⟨hds.2, Nat.le_of_lt_succ hlt, rfl⟩
  | minus hds hle =>
    rw [read_minus hds.1, map_digits_eq_ok (by decide) (by decide)]
    exact ⟨hds.2, hle, rfl⟩
  | marked hx hds hlt =>
    rw [read_markedPlus hx hds.1, map_digits_eq_ok hx.pos hx.le]
    exact ⟨hds.2, Nat.le_of_lt_succ hlt, rfl⟩

private theorem numeralWord_or_ownSign_of_marked (hx : Marker radix x) (h : read ('0' :: x :: cs) = .ok w) :
    NumeralWord ('0' :: x :: cs) w ∨ OwnSign ('0' :: x :: cs) w := by
  have hread := h
  rw [(marked_forms hx cs).1] at hread
  by_cases hplus : '+' ∈ cs.head?
  · obtain ⟨ds, rfl⟩ := List.head?_eq_some_iff.mp hplus
    have hne : ds ≠ [] := by
      rintro rfl
      cases hread
    rw [read_markedPlus hx hne, map_digits_eq_ok hx.pos hx.le] at h
    obtain ⟨hds, hle, rfl⟩ := h
    exact .inr (.marked hx ⟨hne, hds⟩ (Nat.lt_succ_of_le hle))
  · have hne : cs ≠ [] := by
      rintro rfl
      cases hread
    rw [pattern_unsigned hne hplus, map_digits_eq_ok hx.pos hx.le] at hread
    have hnumeral := numeral_iff.mpr (.inr ⟨radix, x, cs, hx, ⟨hne, hread.1⟩, rfl⟩)
    exact .inl ⟨hnumeral, (read_numeral hnumeral).mp h⟩

private theorem numeralWord_or_ownSign_of_plain (hplain : ∀ x rest, cs = '0' :: x :: rest → x ∉ ['x', 'X', 'b', 'B'])
    (h : read cs = .ok w) : NumeralWord cs w ∨ OwnSign cs w := by
  have hread := h
  rw [read_plain hplain] at hread
  by_cases hplus : '+' ∈ cs.head?
  · obtain ⟨ds, rfl⟩ := List.head?_eq_some_iff.mp hplus
    have hne : ds ≠ [] := by
      rintro rfl
      cases hread
    rw [read_plus hne, map_digits_eq_ok (by decide) (by decide)] at h
    obtain ⟨hds, hle, rfl⟩ := h
    exact .inr (.plus ⟨hne, hds⟩ (Nat.lt_succ_of_le hle))
  by_cases hminus : '-' ∈ cs.head?
  · obtain ⟨ds, rfl⟩ := List.head?_eq_some_iff.mp hminus
    have hne : ds ≠ [] := by
      rintro rfl
      cases hread
    rw [read_minus hne, map_digits_eq_ok (by decide) (by decide)] at h
    obtain ⟨hds, hle, rfl⟩ := h
    exact .inr (.minus ⟨hne, hds⟩ hle)
  · have hne : cs ≠ [] := by
      rintro rfl
      cases hread
    rw [decimal_unsigned hne hplus hminus, map_ofInt_digits, map_digits_eq_ok (by decide) (by decide)] at hread
    have hnumeral := numeral_iff.mpr (.inl ⟨hne, hread.1⟩)
    exact .inl ⟨hnumeral, (read_numeral hnumeral).mp h⟩

private theorem read_eq_ok : read cs = .ok w ↔ NumeralWord cs w ∨ OwnSign cs w := by
  constructor
  · intro h
    rcases marked_or_plain cs with ⟨radix, x, rest, hx, rfl⟩ | hplain
    · exact numeralWord_or_ownSign_of_marked hx h
    · exact numeralWord_or_ownSign_of_plain hplain h
  · rintro (⟨hnumeral, hvalue⟩ | h)
    · exact (read_numeral hnumeral).mpr hvalue
    · exact h.read_eq

end Literal

namespace Options

open Literal Link

/-! ## Definitions -/

/-- A constant is a literal, after at most one minus sign of its own. -/
inductive Constant (literal : List Char → Word → Prop) : List Char → Int → Prop where
  | plain {cs : List Char} {w : Word} (h : literal cs w) (hsign : '-' ∉ cs.head?) : Constant literal cs w.toInt
  | negated {cs : List Char} {w : Word} (h : literal cs w) : Constant literal ('-' :: cs) (-w.toInt)

/-- `NAME=VALUE`, cut at the first equals sign, with blanks around the value left out. -/
def Definition (valid : List Char → Prop) (literal : List Char → Word → Prop) (d name : String) (n : Int) : Prop :=
  ∃ value, d.toList = name.toList ++ '=' :: value ∧ '=' ∉ name.toList ∧ valid name.toList ∧
    Constant literal (Text.trim value) n

/-- A placeholder, and a numeral that is a word. -/
def Proper (d name : String) (n : Int) : Prop :=
  Definition CapitalName NumeralWord d name n

/-- The characters of placeholders, in any order, and a literal that may have a sign of its own. -/
def Defines (d name : String) (n : Int) : Prop :=
  Definition (fun cs => cs ≠ [] ∧ ∀ c ∈ cs, c.isUpper ∨ c.isDigit ∨ c = '_')
    (fun cs w => NumeralWord cs w ∨ OwnSign cs w) d name n

/-- A digit in front, a plus sign, or two minus signs. -/
def Irregular (d : String) : Prop :=
  (∃ c ∈ d.toList.head?, c.isDigit = true) ∨ '+' ∈ d.toList ∨ 2 ≤ d.toList.count '-'

variable {d name : String} {n : Int} {c : Char} {value cs xs ys : List Char}

private theorem constantValue?_eq_some :
    constantValue? value = some n ↔ Constant (fun cs w => NumeralWord cs w ∨ OwnSign cs w) (Text.trim value) n := by
  have hread (cs : List Char) (f : Word → Int) : (Literal.read cs).toOption.map f = some n ↔
      ∃ w, (NumeralWord cs w ∨ OwnSign cs w) ∧ f w = n := by
    simp only [← read_eq_ok]
    cases Literal.read cs <;> simp [Except.toOption]
  unfold constantValue?
  split
  · rename_i digits htrim
    rw [hread, htrim]
    constructor
    · rintro ⟨w, h, rfl⟩
      exact .negated h
    · intro h
      cases h with
      | plain _ hsign => simp at hsign
      | negated h => exact ⟨_, h, rfl⟩
  · rename_i hplain
    rw [hread]
    constructor
    · rintro ⟨w, h, rfl⟩
      refine .plain h ?_
      intro hsign
      obtain ⟨rest, hrest⟩ := List.head?_eq_some_iff.mp hsign
      exact hplain rest hrest
    · intro h
      generalize Text.trim value = cs at h hplain ⊢
      cases h with
      | plain h _ => exact ⟨_, h, rfl⟩
      | negated _ => exact absurd rfl (hplain _)

private theorem takeWhile_equals (hname : '=' ∉ xs) : (xs ++ '=' :: ys).takeWhile (· != '=') = xs := by
  rw [List.takeWhile_append_of_pos]
  · simp
  · intro c hc
    rw [bne_iff_ne]
    rintro rfl
    exact hname hc

private theorem exists_equals (h : cs.drop (cs.takeWhile (· != '=')).length = c :: ys) :
    cs = cs.takeWhile (· != '=') ++ '=' :: ys := by
  induction cs with
  | nil => simp at h
  | cons d cs ih =>
    by_cases hd : d = '='
    · subst hd
      have hfirst : ('=' :: cs).takeWhile (· != '=') = [] := by simp
      rw [hfirst] at h ⊢
      rw [(List.cons.inj h).2]
      rfl
    · have hfirst : (d :: cs).takeWhile (· != '=') = d :: cs.takeWhile (· != '=') := by simp [hd]
      rw [hfirst] at h ⊢
      exact congrArg (d :: ·) (ih h)

theorem definition?_eq_some : definition? d = some (name, n) ↔ Defines d name n := by
  have hvalid (cs : List Char) : (cs ≠ [] ∧ cs.all isPlaceholderChar) ↔
      cs ≠ [] ∧ ∀ c ∈ cs, c.isUpper ∨ c.isDigit ∨ c = '_' := by
    simp [isPlaceholderChar, or_assoc]
  unfold definition?
  dsimp only
  constructor
  · intro h
    split at h
    · cases h
    · rename_i c value hcut
      have hd := exists_equals hcut
      split at h
      · rename_i hname
        obtain ⟨m, hvalue, hpair⟩ := Option.map_eq_some_iff.mp h
        obtain ⟨rfl, rfl⟩ := Prod.mk.inj hpair
        refine ⟨value, ?_, ?_, ?_, constantValue?_eq_some.mp hvalue⟩
        · rwa [String.toList_ofList]
        · rw [String.toList_ofList]
          intro hmem
          simpa using List.mem_takeWhile_imp hmem
        · rw [String.toList_ofList]
          exact (hvalid _).mp hname
      · cases h
  · rintro ⟨value, hd, hequals, hname, hvalue⟩
    have hcut : (name.toList ++ '=' :: value).drop name.toList.length = '=' :: value := by simp
    rw [hd, takeWhile_equals hequals, hcut]
    dsimp only
    rw [if_pos ((hvalid _).mpr hname), constantValue?_eq_some.mpr hvalue, Option.map_some, String.ofList_toList]

/-! ## Proper definitions -/

private theorem named_of_numeral (h : Token.Numeral cs) (hc : c ∈ cs) : Text.isNameChar c = true := by
  have hdigit {ds : List Char} {radix : Nat} (hds : Digits radix ds) (hc : c ∈ ds) : Text.isNameChar c = true := by
    have hall : ∀ c ∈ "0123456789abcdefABCDEF".toList, Text.isNameChar c = true := List.all_eq_true.mp (by decide)
    exact hall c (mem_hexDigits (hds.2 c hc).1)
  rcases numeral_iff.mp h with hds | ⟨radix, x, ds, hx, hds, rfl⟩
  · exact hdigit hds hc
  · have hmarker : Text.isNameChar x = true := by
      rcases hx.radix_eq with rfl | rfl
      · rcases hx with rfl | rfl <;> decide
      · rcases hx with rfl | rfl <;> decide
    rw [List.mem_cons, List.mem_cons] at hc
    rcases hc with rfl | rfl | hc
    · decide
    · exact hmarker
    · exact hdigit hds hc

private theorem sign_of_ownSign {w : Word} (h : OwnSign cs w) : '+' ∈ cs ∨ ∃ ds, cs = '-' :: ds := by
  cases h with
  | plus => exact .inl List.mem_cons_self
  | minus => exact .inr ⟨_, rfl⟩
  | marked => exact .inl (by simp)

/-- A constant is a numeral unless it has a sign too many. -/
theorem constant_numeral_iff : Constant NumeralWord cs n ↔
    Constant (fun cs w => NumeralWord cs w ∨ OwnSign cs w) cs n ∧ cs.count '+' = 0 ∧ cs.count '-' < 2 := by
  have hcount {cs : List Char} {w : Word} (h : NumeralWord cs w) : cs.count '+' = 0 ∧ cs.count '-' = 0 := by
    simp only [List.count_eq_zero]
    constructor
    · exact fun hc => absurd (named_of_numeral h.1 hc) (by decide)
    · exact fun hc => absurd (named_of_numeral h.1 hc) (by decide)
  constructor
  · intro h
    cases h with
    | plain h hsign =>
      obtain ⟨hplus, hminus⟩ := hcount h
      exact ⟨.plain (.inl h) hsign, hplus, by omega⟩
    | negated h =>
      obtain ⟨hplus, hminus⟩ := hcount h
      exact ⟨.negated (.inl h), by simpa using hplus, by simp [hminus]⟩
  · rintro ⟨h, hplus, hminus⟩
    rw [List.count_eq_zero] at hplus
    cases h with
    | plain h hsign =>
      rcases h with h | h
      · exact .plain h hsign
      · rcases sign_of_ownSign h with hmem | ⟨ds, rfl⟩
        · exact absurd hmem hplus
        · exact absurd rfl hsign
    | negated h =>
      rcases h with h | h
      · exact .negated h
      · rcases sign_of_ownSign h with hmem | ⟨ds, rfl⟩
        · exact absurd (List.mem_cons_of_mem _ hmem) hplus
        · rw [List.count_cons_self, List.count_cons_self] at hminus
          omega

private theorem capitalName_iff : CapitalName cs ↔
    (cs ≠ [] ∧ ∀ c ∈ cs, c.isUpper ∨ c.isDigit ∨ c = '_') ∧ ¬ ∃ c ∈ cs.head?, c.isDigit = true := by
  constructor
  · rintro ⟨first, rest, rfl, hfirst, hrest⟩
    refine ⟨⟨List.cons_ne_nil _ _, List.forall_mem_cons.mpr ⟨?_, hrest⟩⟩, ?_⟩
    · exact hfirst.imp_right .inr
    · rintro ⟨c, hc, hdigit⟩
      obtain rfl := Option.some.inj hc
      rcases hfirst with hupper | rfl
      · have halpha : first.isAlpha = true := by
          change (first.isUpper || first.isLower) = true
          rw [hupper, Bool.true_or]
        simp [isDigit_of_isAlpha halpha] at hdigit
      · exact absurd hdigit (by decide)
  · rintro ⟨⟨hne, hall⟩, hfirst⟩
    obtain ⟨first, rest, rfl⟩ := List.exists_cons_of_ne_nil hne
    rw [List.forall_mem_cons] at hall
    refine ⟨first, rest, rfl, ?_, hall.2⟩
    rcases hall.1 with hupper | hdigit | hunder
    · exact .inl hupper
    · exact absurd ⟨first, rfl, hdigit⟩ hfirst
    · exact .inr hunder

private theorem count_trim {x : Char} (hx : Text.isBlank x = false) (cs : List Char) :
    (Text.trim cs).count x = cs.count x := by
  have hdrop (cs : List Char) : (cs.dropWhile Text.isBlank).count x = cs.count x := by
    induction cs with
    | nil => rfl
    | cons c cs ih =>
      rw [List.dropWhile_cons]
      split
      · rename_i hblank
        have hne : c ≠ x := by
          rintro rfl
          simp [hx] at hblank
        rw [ih, List.count_cons_of_ne hne]
      · rfl
  rw [Text.trim, List.count_reverse, hdrop, List.count_reverse, hdrop]

private theorem irregular_iff (hd : d.toList = name.toList ++ '=' :: value)
    (hname : name.toList ≠ [] ∧ ∀ c ∈ name.toList, c.isUpper ∨ c.isDigit ∨ c = '_') :
    Irregular d ↔ (∃ c ∈ name.toList.head?, c.isDigit = true) ∨
      ¬ ((Text.trim value).count '+' = 0 ∧ (Text.trim value).count '-' < 2) := by
  have hcount (x : Char) (hx : ¬ (x.isUpper ∨ x.isDigit ∨ x = '_')) (hequals : '=' ≠ x)
      (hblank : Text.isBlank x = false) : (Text.trim value).count x = d.toList.count x := by
    have hzero : name.toList.count x = 0 := List.count_eq_zero.mpr fun hmem => hx (hname.2 x hmem)
    rw [hd, List.count_append, hzero, List.count_cons_of_ne hequals, Nat.zero_add, count_trim hblank]
  have hhead : d.toList.head? = name.toList.head? := by
    rw [hd, List.head?_append_of_ne_nil _ hname.1]
  rw [Irregular, hhead, hcount '+' (by decide) (by decide) (by decide),
    hcount '-' (by decide) (by decide) (by decide), List.count_eq_zero, not_and_or, not_not, Nat.not_lt]

/-- A definition that is taken is proper unless it is irregular. -/
theorem proper_iff : Proper d name n ↔ Defines d name n ∧ ¬ Irregular d := by
  constructor
  · rintro ⟨value, hd, hequals, hname, hvalue⟩
    obtain ⟨hchars, hdigit⟩ := capitalName_iff.mp hname
    obtain ⟨hconstant, hsigns⟩ := constant_numeral_iff.mp hvalue
    refine ⟨⟨value, hd, hequals, hchars, hconstant⟩, ?_⟩
    rw [irregular_iff hd hchars]
    rintro (hfirst | hsign)
    · exact hdigit hfirst
    · exact hsign hsigns
  · rintro ⟨⟨value, hd, hequals, hchars, hconstant⟩, hregular⟩
    rw [irregular_iff hd hchars, not_or, not_not] at hregular
    exact ⟨value, hd, hequals, capitalName_iff.mpr ⟨hchars, hregular.1⟩,
      constant_numeral_iff.mpr ⟨hconstant, hregular.2⟩⟩

end Options

end WordLang
