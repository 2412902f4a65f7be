import Mathlib.Data.List.TakeWhile
import WordLang.Proofs.Names

/-!
# Cutting a text into tokens

What the kinds of token look like, and how a text is cut: blanks are skipped, at every other place stands the
longest text that is some token, and a text that is a keyword is not an identifier. This fixes the tokens of a
text, their kinds and their places, and they are what the scanner gives.
-/

namespace WordLang

namespace Token

/-- Numerals: decimal digits, or `0x` and hexadecimal digits, or `0b` and binary digits. -/
inductive Numeral : List Char → Prop where
  | decimal {ds : List Char} (hne : ds ≠ []) (hds : ∀ d ∈ ds, d.isDigit = true) : Numeral ds
  | hexadecimal {x : Char} {ds : List Char} (hx : x = 'x' ∨ x = 'X') (hne : ds ≠ [])
      (hds : ∀ d ∈ ds, isHexDigit d = true) : Numeral ('0' :: x :: ds)
  | binary {b : Char} {ds : List Char} (hb : b = 'b' ∨ b = 'B') (hne : ds ≠ [])
      (hds : ∀ d ∈ ds, isBinaryDigit d = true) : Numeral ('0' :: b :: ds)

/-- Identifiers and keywords: a letter or an underscore, and then letters, digits and underscores. -/
def Identifier : List Char → Prop
  | [] => False
  | c :: cs => isIdentStart c = true ∧ ∀ d ∈ cs, Text.isNameChar d = true

end Token

/-- The texts of a kind of token. The end of the text has none. -/
def Terminal.Spells : Terminal → List Char → Prop
  | .number, cs => Token.Numeral cs
  | .identifier, cs => Token.Identifier cs
  | .eof, _ => False
  | kind, cs => cs = kind.spelling.toList

namespace Token

/-- `lexeme` before `rest` is a token of a kind: no token there is longer, and if it can be read as anything
else it is no identifier. -/
structure Longest (kind : Terminal) (lexeme rest : List Char) : Prop where
  spells : kind.Spells lexeme
  maximal : ∀ kind' lexeme' rest', lexeme' ++ rest' = lexeme ++ rest → Terminal.Spells kind' lexeme' →
    lexeme'.length ≤ lexeme.length
  keyword : kind = .identifier → ∀ kind', Terminal.Spells kind' lexeme → kind' = .identifier

end Token

/-- The cut of a text that starts at byte `offset`. It ends at a character that is neither a blank nor the
start of a token. -/
inductive Tokens.Cut : Nat → List Char → Tokens → Prop where
  | done {offset : Nat} : Cut offset [] ⟨[], none⟩
  | blank {offset : Nat} {c : Char} {cs : List Char} {text : Tokens} (hc : Text.isBlank c = true)
      (hrest : Cut (offset + c.utf8Size) cs text) : Cut offset (c :: cs) text
  | token {offset : Nat} {kind : Terminal} {lexeme rest : List Char} {text : Tokens}
      (htoken : Token.Longest kind lexeme rest)
      (hrest : Cut (offset + Text.byteLength lexeme) rest text) :
      Cut offset (lexeme ++ rest)
        ⟨⟨kind, String.ofList lexeme, offset, offset + Text.byteLength lexeme⟩ :: text.tokens, text.invalid⟩
  | invalid {offset : Nat} {c : Char} {cs : List Char} (hc : Text.isBlank c = false)
      (hnone : ∀ kind lexeme rest, lexeme ++ rest = c :: cs → ¬ Terminal.Spells kind lexeme) :
      Cut offset (c :: cs) ⟨[], some offset⟩

/-! ## The characters of tokens -/

namespace Token

variable {kind : Terminal} {c : Char} {lexeme rest cs ds : List Char}

private theorem isNameChar_of_isIdentStart (h : isIdentStart c = true) : Text.isNameChar c = true := by
  simp only [isIdentStart, Bool.or_eq_true] at h
  rcases h with h | h
  · simp [Text.isNameChar, Char.isAlphanum, h]
  · simp [Text.isNameChar, h]

private theorem isNameChar_of_isDigit (h : c.isDigit = true) : Text.isNameChar c = true := by
  simp [Text.isNameChar, Char.isAlphanum, h]

private theorem Numeral.exists_cons (h : Numeral lexeme) : ∃ d ds, lexeme = d :: ds ∧ d.isDigit = true := by
  cases h with
  | decimal hne hds =>
    obtain ⟨d, ds, rfl⟩ := List.exists_cons_of_ne_nil hne
    exact ⟨d, ds, rfl, hds d List.mem_cons_self⟩
  | hexadecimal | binary => exact ⟨'0', _, rfl, rfl⟩

private theorem spelling_cons (hnumber : kind ≠ .number) (hidentifier : kind ≠ .identifier) (heof : kind ≠ .eof) :
    ∃ c cs, kind.spelling.toList = c :: cs ∧ Text.isBlank c = false ∧ c.isDigit = false := by
  cases kind
  case number => exact absurd rfl hnumber
  case identifier => exact absurd rfl hidentifier
  case eof => exact absurd rfl heof
  all_goals exact ⟨_, _, rfl, by decide, by decide⟩

end Token

open Token

variable {kind : Terminal} {c : Char} {lexeme rest cs ds : List Char}

private theorem Terminal.Spells.exists_cons (h : kind.Spells lexeme) :
    ∃ c cs, lexeme = c :: cs ∧ Text.isBlank c = false := by
  unfold Terminal.Spells at h
  split at h
  · obtain ⟨d, ds, rfl, hd⟩ := h.exists_cons
    exact ⟨d, ds, rfl, Text.isBlank_of_isNameChar (isNameChar_of_isDigit hd)⟩
  · cases lexeme with
    | nil => exact h.elim
    | cons c cs => exact ⟨c, cs, rfl, Text.isBlank_of_isNameChar (isNameChar_of_isIdentStart h.1)⟩
  · exact h.elim
  · rename_i hnumber hidentifier heof
    obtain ⟨c, cs, hcs, hblank, -⟩ := spelling_cons hnumber hidentifier heof
    exact ⟨c, cs, h.trans hcs, hblank⟩

/-! ## The longest text of a kind -/

namespace Token

private theorem length_le_takeWhile {p : Char → Bool} (hds : ∀ d ∈ ds, p d = true) (rest : List Char) :
    ds.length ≤ ((ds ++ rest).takeWhile p).length := by
  rw [List.takeWhile_append_of_pos hds, List.length_append]
  omega

private theorem take_takeWhile (p : Char → Bool) (cs : List Char) :
    cs.take (cs.takeWhile p).length = cs.takeWhile p :=
  (List.prefix_iff_eq_take.mp (List.takeWhile_prefix p)).symm

private theorem markedLength_pos (p : Char → Bool) (cs : List Char) : 1 ≤ markedLength p cs := by
  unfold markedLength
  split <;> omega

private theorem length_le_markedLength {p : Char → Bool} (hne : ds ≠ []) (hds : ∀ d ∈ ds, p d = true)
    (rest : List Char) : ds.length + 2 ≤ markedLength p (ds ++ rest) := by
  have hlength := length_le_takeWhile hds rest
  have hpos := List.length_pos_iff.mpr hne
  unfold markedLength
  split <;> omega

private theorem length_le_one {x : Char} (hds : ∀ d ∈ ds, d.isDigit = true) (hx : x.isDigit = false)
    (h : ds ++ rest = c :: x :: cs) : ds.length ≤ 1 := by
  rcases ds with - | ⟨e, - | ⟨d, ds⟩⟩
  · simp
  · simp
  · obtain ⟨-, rfl, -⟩ : e = c ∧ d = x ∧ ds ++ rest = cs := by simpa using h
    have hd := hds d (by simp)
    rw [hx] at hd
    exact absurd hd (by decide)

private theorem Numeral.length_le (h : Numeral lexeme) (rest : List Char) :
    lexeme.length ≤ numberLength (lexeme ++ rest) := by
  cases h with
  | decimal _ hds =>
    unfold numberLength
    split
    · rename_i hcs
      exact Nat.le_trans (length_le_one hds rfl hcs) (markedLength_pos _ _)
    · rename_i hcs
      exact Nat.le_trans (length_le_one hds rfl hcs) (markedLength_pos _ _)
    · rename_i hcs
      exact Nat.le_trans (length_le_one hds rfl hcs) (markedLength_pos _ _)
    · rename_i hcs
      exact Nat.le_trans (length_le_one hds rfl hcs) (markedLength_pos _ _)
    · exact length_le_takeWhile hds rest
  | hexadecimal hx hne hds =>
    rcases hx with rfl | rfl <;> exact length_le_markedLength hne hds rest
  | binary hb hne hds =>
    rcases hb with rfl | rfl <;> exact length_le_markedLength hne hds rest

private theorem numeral_take_marked {p : Char → Bool} {x : Char} (cs : List Char)
    (hmarked : ∀ ds, ds ≠ [] → (∀ d ∈ ds, p d = true) → Numeral ('0' :: x :: ds)) :
    Numeral (('0' :: x :: cs).take (markedLength p cs)) ∧ markedLength p cs ≤ ('0' :: x :: cs).length := by
  have hle : (cs.takeWhile p).length ≤ cs.length := (List.takeWhile_prefix p).length_le
  unfold markedLength
  split
  · exact ⟨.decimal (by simp) (by simp), by simp⟩
  · rename_i n hlength
    have hn : (cs.takeWhile p).length = n + 1 := hlength
    constructor
    · rw [show n + 3 = n + 1 + 1 + 1 from rfl, List.take_succ_cons, List.take_succ_cons, ← hn,
        take_takeWhile]
      apply hmarked
      · exact List.length_pos_iff.mp (by omega)
      · exact fun d hd => List.mem_takeWhile_imp hd
    · simp only [List.length_cons]
      omega

private theorem numeral_take (h : 0 < numberLength cs) :
    Numeral (cs.take (numberLength cs)) ∧ numberLength cs ≤ cs.length := by
  unfold numberLength at h ⊢
  split
  · exact numeral_take_marked _ fun _ hne hds => .hexadecimal (.inl rfl) hne hds
  · exact numeral_take_marked _ fun _ hne hds => .hexadecimal (.inr rfl) hne hds
  · exact numeral_take_marked _ fun _ hne hds => .binary (.inl rfl) hne hds
  · exact numeral_take_marked _ fun _ hne hds => .binary (.inr rfl) hne hds
  · rename_i hx hX hb hB
    have hpos : 0 < (cs.takeWhile Char.isDigit).length := by
      simpa only [hx, hX, hb, hB] using h
    rw [take_takeWhile]
    refine ⟨.decimal (List.length_pos_iff.mp hpos) fun d hd => ?_, (List.takeWhile_prefix _).length_le⟩
    exact List.mem_takeWhile_imp hd

private theorem Identifier.length_le (h : Identifier lexeme) (rest : List Char) :
    lexeme.length ≤ identifierLength (lexeme ++ rest) := by
  cases lexeme with
  | nil => exact h.elim
  | cons c cs =>
    have hlength := length_le_takeWhile h.2 rest
    rw [List.cons_append, identifierLength, if_pos h.1, List.length_cons]
    omega

private theorem identifier_take (h : 0 < identifierLength cs) :
    Identifier (cs.take (identifierLength cs)) ∧ identifierLength cs ≤ cs.length := by
  cases cs with
  | nil => simp [identifierLength] at h
  | cons c cs =>
    rw [identifierLength] at h ⊢
    split
    · rename_i hc
      have hle : (cs.takeWhile Text.isNameChar).length ≤ cs.length := (List.takeWhile_prefix _).length_le
      rw [Nat.add_comm, List.take_succ_cons, take_takeWhile]
      exact ⟨⟨hc, fun d hd => List.mem_takeWhile_imp hd⟩, by simpa using hle⟩
    · rename_i hc
      simp [hc] at h

private theorem prefixLength_fixed (hnumber : kind ≠ .number) (hidentifier : kind ≠ .identifier) :
    prefixLength kind cs = if kind.spelling.toList.isPrefixOf cs then kind.spelling.length else 0 := by
  cases kind
  case number => exact absurd rfl hnumber
  case identifier => exact absurd rfl hidentifier
  all_goals rfl

end Token

private theorem Terminal.Spells.length_le (h : kind.Spells lexeme) (rest : List Char) :
    lexeme.length ≤ prefixLength kind (lexeme ++ rest) := by
  unfold Terminal.Spells at h
  split at h
  · exact Numeral.length_le h rest
  · exact Identifier.length_le h rest
  · exact h.elim
  · rename_i hnumber hidentifier _
    rw [prefixLength_fixed hnumber hidentifier, h, if_pos (by simp)]
    exact Nat.le_of_eq String.length_toList

private theorem Terminal.spells_take (h : 0 < prefixLength kind cs) :
    kind.Spells (cs.take (prefixLength kind cs)) ∧ prefixLength kind cs ≤ cs.length := by
  by_cases hnumber : kind = .number
  · subst hnumber
    exact numeral_take h
  by_cases hidentifier : kind = .identifier
  · subst hidentifier
    exact identifier_take h
  have heof : kind ≠ .eof := by
    rintro rfl
    simp [prefixLength, Terminal.spelling] at h
  rw [prefixLength_fixed hnumber hidentifier] at h ⊢
  split
  · rename_i hstarts
    obtain ⟨rest, rfl⟩ := List.isPrefixOf_iff_prefix.mp hstarts
    rw [← String.length_toList, List.take_left, List.length_append]
    refine ⟨?_, by omega⟩
    unfold Terminal.Spells
    split <;> first | rfl | contradiction
  · rename_i hstarts
    simp [hstarts] at h

/-! ## The longest token -/

namespace Token

private def longer (cs : List Char) (best : Terminal × Nat) (kind : Terminal) : Terminal × Nat :=
  if best.2 < prefixLength kind cs then (kind, prefixLength kind cs) else best

private theorem longest_eq_foldl (cs : List Char) : longest cs = Terminal.all.foldl (longer cs) (.eof, 0) :=
  rfl

private theorem foldl_longer (cs : List Char) (kinds : List Terminal) (best : Terminal × Nat) :
    best.2 ≤ (kinds.foldl (longer cs) best).2 ∧
      (∀ kind ∈ kinds, prefixLength kind cs ≤ (kinds.foldl (longer cs) best).2) ∧
      ((kinds.foldl (longer cs) best).1 ∈ kinds ∨ kinds.foldl (longer cs) best = best) := by
  induction kinds generalizing best with
  | nil => simp
  | cons kind kinds ih =>
    rw [List.foldl_cons]
    obtain ⟨hbest, hkinds, hmem⟩ := ih (longer cs best kind)
    have hlonger : best.2 ≤ (longer cs best kind).2 ∧ prefixLength kind cs ≤ (longer cs best kind).2 := by
      unfold longer
      split <;> simp <;> omega
    refine ⟨by omega, ?_, ?_⟩
    · intro other hother
      rcases List.mem_cons.mp hother with rfl | hother
      · omega
      · exact hkinds other hother
    · rcases hmem with hmem | hmem
      · exact .inl (List.mem_cons_of_mem _ hmem)
      · rw [hmem]
        unfold longer
        split
        · exact .inl List.mem_cons_self
        · exact .inr rfl

private theorem mem_all (h : kind ≠ .eof) : kind ∈ Terminal.all := by
  cases kind
  case eof => exact absurd rfl h
  all_goals decide

private theorem prefixLength_eof (cs : List Char) : prefixLength .eof cs = 0 := by
  simp [prefixLength, Terminal.spelling]

/-- No text at the front that is a token is longer than the one that is taken. -/
theorem prefixLength_le_longest (kind : Terminal) (cs : List Char) :
    prefixLength kind cs ≤ (longest cs).2 := by
  by_cases heof : kind = .eof
  · rw [heof, prefixLength_eof]
    exact Nat.zero_le _
  · rw [longest_eq_foldl]
    exact (foldl_longer cs Terminal.all (.eof, 0)).2.1 kind (mem_all heof)

/-- An identifier is longer than any other token there, because it is looked for last. -/
theorem prefixLength_lt_longest (h : (longest cs).1 = .identifier) (hkind : kind ≠ .identifier) :
    prefixLength kind cs < (longest cs).2 := by
  have hall : Terminal.all = Terminal.all.dropLast ++ [.identifier] := rfl
  have hlast : longest cs = longer cs (Terminal.all.dropLast.foldl (longer cs) (.eof, 0)) .identifier := by
    rw [longest_eq_foldl, hall, List.foldl_append]
    rfl
  obtain ⟨-, hfront, hmem⟩ := foldl_longer cs Terminal.all.dropLast (.eof, 0)
  have hle : prefixLength kind cs ≤ (Terminal.all.dropLast.foldl (longer cs) (.eof, 0)).2 := by
    by_cases heof : kind = .eof
    · rw [heof, prefixLength_eof]
      exact Nat.zero_le _
    · have hkinds := mem_all heof
      rw [hall, List.mem_append] at hkinds
      exact hfront kind (hkinds.resolve_right fun h => hkind (List.mem_singleton.mp h))
  rw [hlast] at h ⊢
  generalize Terminal.all.dropLast.foldl (longer cs) (.eof, 0) = best at h hle hmem ⊢
  unfold longer at h ⊢
  split
  · omega
  · rename_i hlt
    rw [if_neg hlt] at h
    rcases hmem with hmem | hmem
    · rw [h] at hmem
      exact absurd hmem (by decide)
    · rw [hmem] at h
      exact absurd h (by decide)

/-- Either nothing at the front is a token, or the longest token there is taken. -/
theorem longest_cases (cs : List Char) :
    ((longest cs).2 = 0 ∧ ∀ kind lexeme rest, lexeme ++ rest = cs → ¬ Terminal.Spells kind lexeme) ∨
      ∃ lexeme rest, lexeme ++ rest = cs ∧ lexeme.length = (longest cs).2 ∧
        Longest (longest cs).1 lexeme rest := by
  have hle {kind lexeme rest} (hcs : lexeme ++ rest = cs) (h : Terminal.Spells kind lexeme) :
      lexeme.length ≤ prefixLength kind cs := by
    rw [← hcs]
    exact h.length_le rest
  by_cases hzero : (longest cs).2 = 0
  · refine .inl ⟨hzero, fun kind lexeme rest hcs h => ?_⟩
    have hlength := hle hcs h
    have hlongest := prefixLength_le_longest kind cs
    obtain ⟨c, ds, rfl, -⟩ := h.exists_cons
    rw [List.length_cons] at hlength
    omega
  · right
    have hlength := longest_length cs
    have hpos : 0 < prefixLength (longest cs).1 cs := by omega
    obtain ⟨hspells, hfits⟩ := Terminal.spells_take hpos
    rw [← hlength] at hspells hfits
    have htake : (cs.take (longest cs).2).length = (longest cs).2 := List.length_take_of_le hfits
    refine ⟨_, _, List.take_append_drop (longest cs).2 cs, htake, hspells, ?_, ?_⟩
    · intro kind lexeme rest hcs h
      rw [List.take_append_drop] at hcs
      have := hle hcs h
      have := prefixLength_le_longest kind cs
      omega
    · intro hidentifier kind h
      apply Decidable.byContradiction
      intro hkind
      have := hle (List.take_append_drop (longest cs).2 cs) h
      have := prefixLength_lt_longest hidentifier hkind
      omega

private theorem spelling_inj : ∀ kind ∈ Terminal.all, ∀ kind' ∈ Terminal.all,
    kind.spelling.toList ≠ [] → kind.spelling.toList = kind'.spelling.toList → kind = kind' := by
  decide

end Token

private theorem Terminal.Spells.eq_spelling (h : kind.Spells lexeme) (hnumber : kind ≠ .number)
    (hidentifier : kind ≠ .identifier) : kind ≠ .eof ∧ lexeme = kind.spelling.toList := by
  unfold Terminal.Spells at h
  split at h
  · exact absurd rfl hnumber
  · exact absurd rfl hidentifier
  · exact h.elim
  · exact ⟨by assumption, h⟩

private theorem Terminal.Spells.not_numeral (h : kind.Spells lexeme) (hnumber : kind ≠ .number)
    (hidentifier : kind ≠ .identifier) : ¬ Numeral lexeme := by
  intro hnumeral
  obtain ⟨heof, hlexeme⟩ := h.eq_spelling hnumber hidentifier
  obtain ⟨c, cs, hspelling, -, hc⟩ := spelling_cons hnumber hidentifier heof
  obtain ⟨d, ds, hds, hd⟩ := hnumeral.exists_cons
  have hcd : c :: cs = d :: ds := by rw [← hspelling, ← hlexeme, hds]
  rw [(List.cons.inj hcd).1, hd] at hc
  exact absurd hc (by decide)

private theorem Terminal.Spells.kind_eq {kind' : Terminal} (h : kind.Spells lexeme) (h' : kind'.Spells lexeme)
    (hidentifier : kind ≠ .identifier) (hidentifier' : kind' ≠ .identifier) : kind = kind' := by
  by_cases hnumber : kind = .number
  · by_cases hnumber' : kind' = .number
    · rw [hnumber, hnumber']
    · subst hnumber
      exact absurd h (h'.not_numeral hnumber' hidentifier')
  · by_cases hnumber' : kind' = .number
    · subst hnumber'
      exact absurd h' (h.not_numeral hnumber hidentifier)
    · obtain ⟨heof, hlexeme⟩ := h.eq_spelling hnumber hidentifier
      obtain ⟨heof', hlexeme'⟩ := h'.eq_spelling hnumber' hidentifier'
      obtain ⟨c, cs, hcs, -⟩ := h.exists_cons
      apply spelling_inj kind (mem_all heof) kind' (mem_all heof')
      · rw [← hlexeme, hcs]
        exact List.cons_ne_nil c cs
      · rw [← hlexeme, hlexeme']

private theorem Token.Longest.longest_eq (h : Longest kind lexeme rest) :
    longest (lexeme ++ rest) = (kind, lexeme.length) := by
  rcases longest_cases (lexeme ++ rest) with ⟨-, hnone⟩ | ⟨lexeme', rest', happend, hlength, h'⟩
  · exact absurd h.spells (hnone kind lexeme rest rfl)
  · have hle := h.maximal _ lexeme' rest' happend h'.spells
    have hge := h'.maximal kind lexeme rest happend.symm h.spells
    obtain ⟨rfl, rfl⟩ := List.append_inj happend (by omega)
    have hkind : (longest (lexeme' ++ rest')).1 = kind := by
      by_cases hidentifier : kind = .identifier
      · rw [hidentifier, h.keyword hidentifier _ h'.spells]
      · apply h'.spells.kind_eq h.spells _ hidentifier
        exact fun hidentifier' => hidentifier (h'.keyword hidentifier' _ h.spells)
    exact Prod.ext hkind hlength.symm

/-! ## The scanner -/

namespace Tokens

private theorem scanFrom_skip (lexeme : List Char) (offset : Nat) (rest : List Char) :
    scanFrom lexeme.length offset (lexeme ++ rest) = scanFrom 0 (offset + Text.byteLength lexeme) rest := by
  induction lexeme generalizing offset with
  | nil => rfl
  | cons c lexeme ih =>
    rw [List.cons_append, scanFrom]
    simp only [List.length_cons, Nat.zero_lt_succ, if_true, Nat.add_sub_cancel, ih, Text.byteLength,
      Nat.add_assoc]

private theorem scanFrom_token {offset : Nat} (h : Token.Longest kind lexeme rest) :
    scanFrom 0 offset (lexeme ++ rest) =
      let text := scanFrom 0 (offset + Text.byteLength lexeme) rest
      ⟨⟨kind, String.ofList lexeme, offset, offset + Text.byteLength lexeme⟩ :: text.tokens, text.invalid⟩ := by
  have hlongest := h.longest_eq
  obtain ⟨c, ds, rfl, hblank⟩ := h.spells.exists_cons
  rw [List.cons_append] at hlongest ⊢
  have htake : (c :: (ds ++ rest)).take (c :: ds).length = c :: ds := by
    rw [← List.cons_append, List.take_left]
  rw [scanFrom]
  simp only [Nat.lt_irrefl, if_false, hblank, Bool.false_eq_true, hlongest, htake]
  rw [if_neg (by simp), List.length_cons, Nat.add_sub_cancel, scanFrom_skip, Text.byteLength, Nat.add_assoc]

/-- The scanner cuts a text as it has to be cut. -/
theorem Cut.scanFrom_eq {offset : Nat} {text : Tokens} (h : Cut offset cs text) :
    scanFrom 0 offset cs = text := by
  induction h with
  | done => rfl
  | blank hc _ ih =>
    rw [scanFrom]
    simp only [Nat.lt_irrefl, if_false, hc, if_true, ih]
  | token htoken _ ih => rw [scanFrom_token htoken, ih]
  | @invalid offset c cs hc hnone =>
    have hzero : (Token.longest (c :: cs)).2 = 0 := by
      rcases longest_cases (c :: cs) with ⟨hzero, -⟩ | ⟨lexeme, rest, happend, -, h⟩
      · exact hzero
      · exact absurd h.spells (hnone _ lexeme rest happend)
    rw [scanFrom]
    simp only [Nat.lt_irrefl, if_false, hc, Bool.false_eq_true, hzero, if_true]

private theorem cut_scanFrom (offset : Nat) (cs : List Char) : Cut offset cs (scanFrom 0 offset cs) := by
  induction hn : cs.length using Nat.strongRecOn generalizing offset cs with
  | ind n ih =>
    cases cs with
    | nil => exact .done
    | cons c cs =>
      cases hc : Text.isBlank c with
      | true =>
        rw [scanFrom]
        simp only [Nat.lt_irrefl, if_false, hc, if_true]
        exact .blank hc (ih cs.length (by simp [← hn]) _ cs rfl)
      | false =>
        rcases longest_cases (c :: cs) with ⟨hzero, hnone⟩ | ⟨lexeme, rest, happend, -, h⟩
        · rw [scanFrom]
          simp only [Nat.lt_irrefl, if_false, hc, Bool.false_eq_true, hzero, if_true]
          exact .invalid hc hnone
        · obtain ⟨d, ds, rfl, -⟩ := h.spells.exists_cons
          have hlength := congrArg List.length happend
          simp only [List.cons_append, List.length_cons, List.length_append] at hlength hn
          rw [← happend, scanFrom_token h]
          exact .token h (ih rest.length (by omega) _ rest rfl)

/-- Every text is cut in one way, which the scanner finds. -/
theorem scan_eq_iff {source : String} {text : Tokens} : scan source = text ↔ Cut 0 source.toList text :=
  ⟨fun h => h ▸ cut_scanFrom 0 source.toList, fun h => h.scanFrom_eq⟩

end Tokens

end WordLang
