import WordLang.Proofs.Residue
import WordLang.Proofs.Unresolved

/-!
# What substitution does at each place of a text

A placeholder is said here by its place in the text, not by the way a text is read: brackets with no bracket and no
newline between them, around a name. Placeholders do not overlap, so every character of a text is either inside
of one of them or outside of all. Substitution writes the constant for the first character of a placeholder,
nothing for the others, and every character outside as it is; and it fails for the leftmost placeholder that
names no constant.
-/

namespace WordLang.Link

/-- Brackets at a place of a text, with neither a bracket nor a newline between them. -/
def BracketsAt (cs : List Char) (i : Nat) (inner : List Char) : Prop :=
  (∃ after, cs.drop i = '[' :: (inner ++ ']' :: after)) ∧ '[' ∉ inner ∧ ']' ∉ inner ∧ '\n' ∉ inner

/-- A name in capitals: no digit stands first in it. -/
def CapitalName (name : List Char) : Prop :=
  ∃ first rest, name = first :: rest ∧ (first.isUpper ∨ first = '_') ∧
    ∀ c ∈ rest, c.isUpper ∨ c.isDigit ∨ c = '_'

/-- Such brackets around a name in capitals. -/
def PlaceholderAt (cs : List Char) (i : Nat) (name : List Char) : Prop :=
  BracketsAt cs i name ∧ CapitalName name

/-- What is written for the character at a place. -/
inductive PieceAt (constants : Constants) (cs : List Char) (i : Nat) : List Char → Prop
  | value {name : List Char} {value : Int} (hat : PlaceholderAt cs i name)
    (hvalue : constants.get? (String.ofList name) = some value) : PieceAt constants cs i (toString value).toList
  | inside {j : Nat} {name : List Char} (hat : PlaceholderAt cs j name) (hopen : j < i)
    (hclose : i ≤ j + name.length + 1) : PieceAt constants cs i []
  | outside {c : Char} (hc : cs[i]? = some c)
    (hnone : ∀ j name, PlaceholderAt cs j name → i < j ∨ j + name.length + 1 < i) : PieceAt constants cs i [c]

/-- What is written for all places of a text, in their order. -/
def Replaced (constants : Constants) (cs us : List Char) : Prop :=
  ∃ piece : Nat → List Char, (∀ i < cs.length, PieceAt constants cs i (piece i)) ∧
    us = (List.range cs.length).flatMap piece

/-- The leftmost placeholder that names no constant. -/
def FirstUnknown (constants : Constants) (cs : List Char) (i : Nat) (name : List Char) : Prop :=
  PlaceholderAt cs i name ∧ constants.get? (String.ofList name) = none ∧
    ∀ j other, j < i → PlaceholderAt cs j other → ∃ value, constants.get? (String.ofList other) = some value

variable {constants : Constants} {cs us vs xs name other : List Char} {i j : Nat}

/-! ## Places of placeholders -/

theorem isPlaceholderName_iff : isPlaceholderName name = true ↔ CapitalName name := by
  cases name with
  | nil => simp [isPlaceholderName, CapitalName]
  | cons first rest =>
    simp only [isPlaceholderName, isPlaceholderStart, isPlaceholderChar, Bool.and_eq_true, Bool.or_eq_true,
      beq_iff_eq, List.all_eq_true, or_assoc]
    constructor
    · rintro ⟨hfirst, hrest⟩
      exact ⟨first, rest, rfl, hfirst, hrest⟩
    · rintro ⟨_, _, hname, hfirst, hrest⟩
      obtain ⟨rfl, rfl⟩ := List.cons.inj hname
      exact ⟨hfirst, hrest⟩

private theorem placeholderAt_iff : PlaceholderAt cs i name ↔
    isPlaceholderName name = true ∧ ∃ after, cs.drop i = '[' :: (name ++ ']' :: after) := by
  rw [PlaceholderAt, ← isPlaceholderName_iff]
  constructor
  · rintro ⟨⟨hat, -⟩, hname⟩
    exact ⟨hname, hat⟩
  · rintro ⟨hname, hat⟩
    have hopen := not_mem_of_isPlaceholderName (c := '[') hname (by decide)
    have hclose := not_mem_of_isPlaceholderName (c := ']') hname (by decide)
    have hline := not_mem_of_isPlaceholderName (c := '\n') hname (by decide)
    exact ⟨⟨hat, hopen, hclose, hline⟩, hname⟩

private theorem placeholderAt_append : PlaceholderAt (xs ++ cs) (xs.length + i) name ↔ PlaceholderAt cs i name := by
  rw [placeholderAt_iff, placeholderAt_iff, List.drop_length_add_append]

private theorem placeholderAt_zero {c : Char} :
    PlaceholderAt (c :: cs) 0 name ↔ c = '[' ∧ placeholder? cs = some name := by
  rw [placeholderAt_iff, List.drop_zero, placeholder?_eq_some]
  simp only [List.cons.injEq]
  constructor
  · rintro ⟨hname, after, hc, hcs⟩
    exact ⟨hc, hname, after, hcs⟩
  · rintro ⟨hc, hname, after, hcs⟩
    exact ⟨hname, after, hc, hcs⟩

private theorem PlaceholderAt.name_eq (h : PlaceholderAt cs i name) (h' : PlaceholderAt cs i other) : other = name := by
  obtain ⟨hname, after, hat⟩ := placeholderAt_iff.mp h
  obtain ⟨hother, after', hat'⟩ := placeholderAt_iff.mp h'
  have hfound : placeholder? (name ++ ']' :: after) = some name := placeholder?_eq_some.mpr ⟨hname, after, rfl⟩
  have hfound' : placeholder? (other ++ ']' :: after') = some other :=
    placeholder?_eq_some.mpr ⟨hother, after', rfl⟩
  rw [hat, List.cons.injEq] at hat'
  rw [hat'.2, hfound'] at hfound
  exact Option.some.inj hfound

/-- Placeholders do not overlap, since there is no bracket inside of one. -/
theorem PlaceholderAt.apart (h : PlaceholderAt cs i name) (h' : PlaceholderAt cs j other) (hlt : i < j) :
    i + name.length + 1 < j := by
  obtain ⟨⟨⟨after, hat⟩, hopen, -⟩, -⟩ := h
  obtain ⟨⟨⟨after', hat'⟩, -⟩, -⟩ := h'
  by_contra hinside
  obtain ⟨k, rfl⟩ := Nat.exists_eq_add_of_lt hlt
  have hk : k < (name ++ [']']).length := by
    rw [List.length_append, List.length_singleton]
    omega
  have hdrop : cs.drop (i + k + 1) = (name ++ [']']).drop k ++ after := by
    rw [Nat.add_assoc, ← List.drop_drop, hat, List.drop_succ_cons,
      ← List.drop_append_of_le_length (Nat.le_of_lt hk)]
    simp
  have hne : (name ++ [']']).drop k ≠ [] := by
    rw [ne_eq, List.drop_eq_nil_iff]
    omega
  obtain ⟨c, rest, hrest⟩ := List.exists_cons_of_ne_nil hne
  have hmem : '[' ∈ (name ++ [']']).drop k := by
    rw [hrest, List.cons_append, hat', List.cons.injEq] at hdrop
    rw [hrest, hdrop.1]
    exact List.mem_cons_self
  simpa [hopen] using List.mem_of_mem_drop hmem

/-! ## Pieces -/

private theorem PieceAt.unique (h : PieceAt constants cs i us) (h' : PieceAt constants cs i vs) : us = vs := by
  cases h with
  | @value name value hat hvalue =>
    cases h' with
    | @value other value' hat' hvalue' =>
      obtain rfl := hat.name_eq hat'
      obtain rfl := Option.some.inj (hvalue.symm.trans hvalue')
      rfl
    | inside hat' hopen hclose => exact absurd (hat'.apart hat hopen) (by omega)
    | outside _ hnone => exact absurd (hnone i name hat) (by omega)
  | @inside j name hat hopen hclose =>
    cases h' with
    | value hat' => exact absurd (hat.apart hat' hopen) (by omega)
    | inside => rfl
    | outside _ hnone => exact absurd (hnone j name hat) (by omega)
  | outside hc hnone =>
    cases h' with
    | @value name _ hat' => exact absurd (hnone i name hat') (by omega)
    | @inside j name hat' hopen hclose => exact absurd (hnone j name hat') (by omega)
    | outside hc' => rw [Option.some.inj (hc.symm.trans hc')]

private theorem Replaced.unique (h : Replaced constants cs us) (h' : Replaced constants cs vs) : us = vs := by
  obtain ⟨piece, hpiece, rfl⟩ := h
  obtain ⟨piece', hpiece', rfl⟩ := h'
  apply List.flatMap_congr
  intro i hi
  have hlt := List.mem_range.mp hi
  exact (hpiece i hlt).unique (hpiece' i hlt)

private theorem Replaced.known (h : Replaced constants cs us) (hat : PlaceholderAt cs i name) :
    ∃ value, constants.get? (String.ofList name) = some value := by
  obtain ⟨piece, hpiece, -⟩ := h
  obtain ⟨⟨⟨after, hdrop⟩, -⟩, -⟩ := id hat
  have hlt : i < cs.length := by
    have hne : cs.drop i ≠ [] := by simp [hdrop]
    simpa using hne
  have hwritten := hpiece i hlt
  generalize piece i = written at hwritten
  cases hwritten with
  | @value other value hat' hvalue =>
    obtain rfl := hat.name_eq hat'
    exact ⟨value, hvalue⟩
  | inside hat' hopen hclose => exact absurd (hat'.apart hat hopen) (by omega)
  | outside _ hnone => exact absurd (hnone i name hat) (by omega)

/-! ## A text and what stands before it -/

/-- No placeholder goes out of the first part of a text. -/
def Closed (xs cs : List Char) : Prop :=
  ∀ j name, j < xs.length → PlaceholderAt (xs ++ cs) j name → j + name.length + 1 < xs.length

private theorem PieceAt.append (h : PieceAt constants cs i us) (hclosed : Closed xs cs) :
    PieceAt constants (xs ++ cs) (xs.length + i) us := by
  cases h with
  | value hat hvalue => exact .value (placeholderAt_append.mpr hat) hvalue
  | inside hat hopen hclose => exact .inside (placeholderAt_append.mpr hat) (by omega) (by omega)
  | outside hc hnone =>
    refine .outside (by rwa [List.getElem?_append_right (Nat.le_add_right _ _), Nat.add_sub_cancel_left]) ?_
    intro j name hat
    by_cases hj : j < xs.length
    · have hend := hclosed j name hj hat
      omega
    · obtain ⟨k, rfl⟩ := Nat.exists_eq_add_of_le (Nat.le_of_not_lt hj)
      have hplace := hnone k name (placeholderAt_append.mp hat)
      omega

private theorem Replaced.append {piece : Nat → List Char} (h : Replaced constants cs us) (hclosed : Closed xs cs)
    (hpiece : ∀ i < xs.length, PieceAt constants (xs ++ cs) i (piece i)) :
    Replaced constants (xs ++ cs) ((List.range xs.length).flatMap piece ++ us) := by
  obtain ⟨rest, hrest, rfl⟩ := h
  refine ⟨fun i => if i < xs.length then piece i else rest (i - xs.length), ?_, ?_⟩
  · intro i hi
    dsimp only
    split
    · rename_i hlt
      exact hpiece i hlt
    · rename_i hge
      obtain ⟨k, rfl⟩ := Nat.exists_eq_add_of_le (Nat.le_of_not_lt hge)
      rw [Nat.add_sub_cancel_left]
      rw [List.length_append] at hi
      exact (hrest k (by omega)).append hclosed
  · rw [List.length_append, List.range_add, List.flatMap_append, List.flatMap_map]
    congr 1
    · apply List.flatMap_congr
      intro i hi
      rw [if_pos (List.mem_range.mp hi)]
    · apply List.flatMap_congr
      intro i _
      rw [if_neg (by omega), Nat.add_sub_cancel_left]

private theorem FirstUnknown.append (h : FirstUnknown constants cs i name)
    (hknown : ∀ j other, j < xs.length → PlaceholderAt (xs ++ cs) j other →
      ∃ value, constants.get? (String.ofList other) = some value) :
    FirstUnknown constants (xs ++ cs) (xs.length + i) name := by
  obtain ⟨hat, hvalue, hleft⟩ := h
  refine ⟨placeholderAt_append.mpr hat, hvalue, ?_⟩
  intro j other hj hat'
  by_cases hlt : j < xs.length
  · exact hknown j other hlt hat'
  · obtain ⟨k, rfl⟩ := Nat.exists_eq_add_of_le (Nat.le_of_not_lt hlt)
    exact hleft k other (by omega) (placeholderAt_append.mp hat')

private theorem FirstUnknown.unique (h : FirstUnknown constants cs i name) (h' : FirstUnknown constants cs j other) :
    name = other := by
  obtain ⟨hat, hvalue, hleft⟩ := h
  obtain ⟨hat', hvalue', hleft'⟩ := h'
  rcases Nat.lt_trichotomy i j with hlt | rfl | hlt
  · obtain ⟨value, hsome⟩ := hleft' i name hlt hat
    simp [hvalue] at hsome
  · exact hat'.name_eq hat
  · obtain ⟨value, hsome⟩ := hleft j other hlt hat'
    simp [hvalue'] at hsome

section

variable (hname : isPlaceholderName name = true)
include hname

private theorem placeholderAt_bracketed (cs : List Char) : PlaceholderAt ('[' :: (name ++ [']']) ++ cs) 0 name :=
  placeholderAt_iff.mpr ⟨hname, cs, by simp⟩

private theorem placeholderAt_bracketed_eq (hj : j < ('[' :: (name ++ [']'])).length)
    (h : PlaceholderAt ('[' :: (name ++ [']']) ++ cs) j other) : j = 0 ∧ other = name := by
  have hat := placeholderAt_bracketed hname cs
  rcases Nat.eq_zero_or_pos j with rfl | hpos
  · exact ⟨rfl, hat.name_eq h⟩
  · have hapart := hat.apart h hpos
    simp only [List.length_cons, List.length_append, List.length_nil] at hj
    omega

private theorem closed_bracketed : Closed ('[' :: (name ++ [']'])) cs := by
  intro j other hj h
  obtain ⟨rfl, rfl⟩ := placeholderAt_bracketed_eq hname hj h
  simp

end

section

variable {c : Char} (hc : c = '[' → placeholder? cs = none)
include hc

private theorem not_placeholderAt_char (hj : j < [c].length) : ¬ PlaceholderAt ([c] ++ cs) j name := by
  intro hat
  obtain rfl : j = 0 := by simpa using hj
  obtain ⟨hopen, hfound⟩ := placeholderAt_zero.mp hat
  simp [hc hopen] at hfound

private theorem closed_char : Closed [c] cs :=
  fun _ _ hj hat => absurd hat (not_placeholderAt_char hc hj)

private theorem pieceAt_char : PieceAt constants ([c] ++ cs) 0 [c] := by
  refine .outside rfl ?_
  intro j name hat
  rcases Nat.eq_zero_or_pos j with rfl | hpos
  · exact absurd hat (not_placeholderAt_char hc Nat.one_pos)
  · exact .inl hpos

end

/-! ## Substitution -/

private theorem Substitutes.replaced (h : Substitutes constants cs us) : Replaced constants cs us := by
  induction h with
  | nil => exact ⟨fun _ => [], by simp, rfl⟩
  | @value name cs us value hname hvalue _ ih =>
    have hat := placeholderAt_bracketed hname cs
    have hpieces : ∀ i < ('[' :: (name ++ [']'])).length, PieceAt constants ('[' :: (name ++ [']']) ++ cs) i
        (if i = 0 then (toString value).toList else []) := by
      intro i hi
      simp only [List.length_cons, List.length_append, List.length_nil] at hi
      split
      · rename_i hzero
        exact hzero ▸ .value hat hvalue
      · exact .inside hat (by omega) (by omega)
    have hbehind (n : Nat) : (List.range n).flatMap (fun _ => ([] : List Char)) = [] := by
      simp [List.flatMap_eq_nil_iff]
    have hreplaced := ih.append (closed_bracketed hname) hpieces
    rw [List.length_cons, List.range_succ_eq_map, List.flatMap_cons, List.flatMap_map] at hreplaced
    simpa [hbehind] using hreplaced
  | @char c cs us hc _ ih =>
    have hpieces : ∀ i < [c].length, PieceAt constants ([c] ++ cs) i [c] := by
      intro i hi
      obtain rfl : i = 0 := by simpa using hi
      exact pieceAt_char hc
    exact ih.append (closed_char hc) hpieces

-- What was read before the rest is closed, so the places of the rest move by its length and nothing new comes
-- about at the seam.
/-- A text is either rewritten, or has a leftmost unknown placeholder, which is reported. -/
theorem substituteFrom_outcome (constants : Constants) (cs : List Char) :
    (∃ us, substituteFrom constants 0 cs = .ok us) ∨
    ∃ i name, FirstUnknown constants cs i name ∧
      substituteFrom constants 0 cs = .error (.unresolvedPlaceholder (String.ofList name)) := by
  induction cs using read_induction with
  | nil => exact .inl ⟨[], rfl⟩
  | placeholder name cs hname ih =>
    have htext : '[' :: (name ++ ']' :: cs) = '[' :: (name ++ [']']) ++ cs := by simp
    cases hvalue : constants.get? (String.ofList name) with
    | none =>
      refine .inr ⟨0, name, ⟨?_, hvalue, ?_⟩, substituteFrom_unknown hname hvalue cs⟩
      · rw [htext]
        exact placeholderAt_bracketed hname cs
      · intro j _ hj
        exact absurd hj (Nat.not_lt_zero j)
    | some value =>
      rw [substituteFrom_value hname hvalue]
      rcases ih with ⟨us, hus⟩ | ⟨i, other, hfirst, herror⟩
      · exact .inl ⟨_, by rw [hus]; rfl⟩
      · refine .inr ⟨('[' :: (name ++ [']'])).length + i, other, ?_, by rw [herror]; rfl⟩
        rw [htext]
        apply hfirst.append
        intro j found hj hat
        obtain ⟨-, rfl⟩ := placeholderAt_bracketed_eq hname hj hat
        exact ⟨value, hvalue⟩
  | char c cs hc ih =>
    rw [substituteFrom_char hc]
    rcases ih with ⟨us, hus⟩ | ⟨i, other, hfirst, herror⟩
    · exact .inl ⟨_, by rw [hus]; rfl⟩
    · have hnext : FirstUnknown constants ([c] ++ cs) ([c].length + i) other := by
        apply hfirst.append
        intro j found hj hat
        exact absurd hat (not_placeholderAt_char hc hj)
      exact .inr ⟨_, other, hnext, by rw [herror]; rfl⟩

private theorem FirstUnknown.not_replaced (h : FirstUnknown constants cs i name) : ¬ Replaced constants cs us := by
  intro hreplaced
  obtain ⟨value, hvalue⟩ := hreplaced.known h.1
  simp [h.2.1] at hvalue

private theorem substitutes_iff_replaced : Substitutes constants cs us ↔ Replaced constants cs us := by
  constructor
  · exact Substitutes.replaced
  · intro h
    rcases substituteFrom_outcome constants cs with ⟨vs, hvs⟩ | ⟨i, name, hfirst, -⟩
    · have hsubst := substituteFrom_eq_ok.mp hvs
      rwa [h.unique hsubst.replaced]
    · exact absurd h hfirst.not_replaced

private theorem substituteFrom_eq_error {e : LinkError} : substituteFrom constants 0 cs = .error e ↔
    ∃ i name, FirstUnknown constants cs i name ∧ e = .unresolvedPlaceholder (String.ofList name) := by
  rcases substituteFrom_outcome constants cs with ⟨us, hus⟩ | ⟨i, name, hfirst, herror⟩
  · have hreplaced := (substituteFrom_eq_ok.mp hus).replaced
    rw [hus]
    constructor
    · intro h
      cases h
    · rintro ⟨i, name, hfirst, -⟩
      exact absurd hreplaced hfirst.not_replaced
  · rw [herror, Except.error.injEq]
    constructor
    · rintro rfl
      exact ⟨i, name, hfirst, rfl⟩
    · rintro ⟨j, other, hfirst', rfl⟩
      rw [hfirst.unique hfirst']

private theorem substitute_eq_error {text : String} {e : LinkError} :
    substitute constants text = .error e ↔ substituteFrom constants 0 text.toList = .error e := by
  rw [substitute, bind_eq_error]
  simp [pure, Except.pure]

/-- Substitution gives a text exactly if all placeholders name constants, and then it is the one that has the
constants in the places of the placeholders and all else as it was. It fails otherwise, for the leftmost
placeholder that names no constant. -/
theorem substitute_places (constants : Constants) (text : String) :
    ((∃ result, substitute constants text = .ok result) ↔
      ∀ i name, PlaceholderAt text.toList i name → ∃ value, constants.get? (String.ofList name) = some value) ∧
    (∀ result, substitute constants text = .ok result ↔ Replaced constants text.toList result.toList) ∧
    ∀ e, substitute constants text = .error e ↔
      ∃ i name, FirstUnknown constants text.toList i name ∧ e = .unresolvedPlaceholder (String.ofList name) := by
  have hok (result : String) : substitute constants text = .ok result ↔
      Replaced constants text.toList result.toList := substitute_eq_ok_iff.trans substitutes_iff_replaced
  have herror (e : LinkError) : substitute constants text = .error e ↔ ∃ i name,
      FirstUnknown constants text.toList i name ∧ e = .unresolvedPlaceholder (String.ofList name) :=
    substitute_eq_error.trans substituteFrom_eq_error
  refine ⟨⟨?_, ?_⟩, hok, herror⟩
  · rintro ⟨result, h⟩ i name hat
    exact ((hok result).mp h).known hat
  · intro hknown
    cases h : substitute constants text with
    | ok result => exact ⟨result, rfl⟩
    | error e =>
      obtain ⟨i, name, ⟨hat, hvalue, -⟩, -⟩ := (herror e).mp h
      obtain ⟨value, hsome⟩ := hknown i name hat
      simp [hvalue] at hsome

end WordLang.Link
