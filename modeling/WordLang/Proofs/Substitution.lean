import Mathlib.Data.List.Forall2
import WordLang.Proofs.Dependencies

/-!
# Rewriting a text line by line

Substitution reads a text from left to right and takes each placeholder that starts where it stands. A
placeholder lies within one line and so does a comment, so that substitution and the removal of sigils act
on each line of a text by itself. Joining sections keeps their lines too.
-/

namespace WordLang

namespace Text

variable {cs xs ys l : List Char} {ls : List (List Char)}

private theorem lines_ne_nil (cs : List Char) : lines cs ≠ [] := by
  cases cs with
  | nil => simp [lines]
  | cons c cs =>
    rw [lines]
    split
    · simp
    · split <;> simp

theorem exists_lines (cs : List Char) : ∃ l ls, lines cs = l :: ls :=
  List.exists_cons_of_ne_nil (lines_ne_nil cs)

theorem lines_newline_cons (cs : List Char) : lines ('\n' :: cs) = [] :: lines cs := by
  simp [lines]

theorem lines_cons {c : Char} (hc : c ≠ '\n') (h : lines cs = l :: ls) :
    lines (c :: cs) = (c :: l) :: ls := by
  simp [lines, hc, h]

theorem lines_append (hxs : '\n' ∉ xs) (h : lines ys = l :: ls) : lines (xs ++ ys) = (xs ++ l) :: ls := by
  induction xs with
  | nil => exact h
  | cons c xs ih =>
    have hc : c ≠ '\n' := fun heq => hxs (heq ▸ List.mem_cons_self)
    exact lines_cons hc (ih fun hmem => hxs (List.mem_cons_of_mem c hmem))

theorem lines_append_newline (xs ys : List Char) : lines (xs ++ '\n' :: ys) = lines xs ++ lines ys := by
  induction xs with
  | nil => exact lines_newline_cons ys
  | cons c xs ih =>
    by_cases hc : c = '\n'
    · subst hc
      rw [List.cons_append, lines_newline_cons, lines_newline_cons, ih, List.cons_append]
    · obtain ⟨l, ls, h⟩ := exists_lines xs
      rw [h, List.cons_append] at ih
      rw [List.cons_append, lines_cons hc ih, lines_cons hc h, List.cons_append]

private theorem first_line_isPrefix (h : lines cs = l :: ls) : l <+: cs := by
  induction cs generalizing l ls with
  | nil =>
    simp only [lines, List.cons.injEq] at h
    exact h.1 ▸ List.nil_prefix
  | cons c cs ih =>
    by_cases hc : c = '\n'
    · rw [hc, lines_newline_cons, List.cons.injEq] at h
      exact h.1 ▸ List.nil_prefix
    · obtain ⟨l', ls', h'⟩ := exists_lines cs
      rw [lines_cons hc h', List.cons.injEq] at h
      rw [← h.1, List.prefix_cons_inj]
      exact ih h'

theorem newline_not_mem (hl : l ∈ lines cs) : '\n' ∉ l := by
  induction cs generalizing l with
  | nil =>
    rw [lines, List.mem_singleton] at hl
    simp [hl]
  | cons c cs ih =>
    by_cases hc : c = '\n'
    · rw [hc, lines_newline_cons, List.mem_cons] at hl
      rcases hl with rfl | hl
      · simp
      · exact ih hl
    · obtain ⟨l', ls, h⟩ := exists_lines cs
      rw [lines_cons hc h, List.mem_cons] at hl
      rcases hl with rfl | hl
      · have hrest := ih (h ▸ List.mem_cons_self)
        simp [hrest, Ne.symm hc]
      · exact ih (h ▸ List.mem_cons_of_mem l' hl)

end Text

namespace Link

variable {constants : Constants} {cs us vs xs ys name line : List Char}

private theorem isPlaceholderChar_of_mem {c : Char} (h : isPlaceholderName name = true) (hc : c ∈ name) :
    isPlaceholderChar c = true := by
  cases name with
  | nil => simp at hc
  | cons d ds =>
    simp only [isPlaceholderName, Bool.and_eq_true, List.all_eq_true] at h
    rcases List.mem_cons.mp hc with rfl | hc
    · have hstart := h.1
      simp only [isPlaceholderStart, Bool.or_eq_true] at hstart
      rcases hstart with hupper | hunderscore
      · simp [isPlaceholderChar, hupper]
      · simp [isPlaceholderChar, hunderscore]
    · exact h.2 c hc

theorem not_mem_of_isPlaceholderName {c : Char} (h : isPlaceholderName name = true)
    (hc : isPlaceholderChar c = false) : c ∉ name := by
  intro hmem
  simp [isPlaceholderChar_of_mem h hmem] at hc

theorem placeholder?_eq_some :
    placeholder? cs = some name ↔ isPlaceholderName name = true ∧ ∃ rest, cs = name ++ ']' :: rest := by
  unfold placeholder?
  constructor
  · intro h
    have hsplit := List.takeWhile_append_dropWhile
      (p := fun c => c != ']' && c != '[' && c != '\n') (l := cs)
    have hdrop : ∀ p : Char → Bool, cs.drop (cs.takeWhile p).length = cs.dropWhile p := by
      intro p
      have hleft : (cs.takeWhile p ++ cs.dropWhile p).drop (cs.takeWhile p).length = cs.dropWhile p :=
        List.drop_left
      rwa [List.takeWhile_append_dropWhile] at hleft
    simp only [hdrop] at h
    split at h
    · rename_i rest hrest
      split at h
      · rename_i hname
        rw [hrest, Option.some.inj h] at hsplit
        rw [Option.some.inj h] at hname
        exact ⟨hname, rest, hsplit.symm⟩
      · simp at h
    · simp at h
  · rintro ⟨hname, rest, rfl⟩
    have htake : (name ++ ']' :: rest).takeWhile (fun c => c != ']' && c != '[' && c != '\n') = name := by
      rw [List.takeWhile_append_of_pos]
      · simp
      · intro c hc
        have hclose : c ≠ ']' := fun h => not_mem_of_isPlaceholderName hname (by decide) (h ▸ hc)
        have hopen : c ≠ '[' := fun h => not_mem_of_isPlaceholderName hname (by decide) (h ▸ hc)
        have hline : c ≠ '\n' := fun h => not_mem_of_isPlaceholderName hname (by decide) (h ▸ hc)
        simp [hclose, hopen, hline]
    simp [htake, hname]

private theorem placeholder?_append (h : placeholder? xs = some name) : placeholder? (xs ++ ys) = some name := by
  obtain ⟨hname, rest, rfl⟩ := placeholder?_eq_some.mp h
  exact placeholder?_eq_some.mpr ⟨hname, rest ++ ys, by simp⟩

theorem placeholder?_eq_none_of_append (h : placeholder? (xs ++ ys) = none) : placeholder? xs = none := by
  cases hxs : placeholder? xs with
  | none => rfl
  | some name => simp [placeholder?_append hxs] at h

/-- What substitution makes of a text: constants stand in place of placeholders, and every other character
is kept. -/
inductive Substitutes (constants : Constants) : List Char → List Char → Prop
  | nil : Substitutes constants [] []
  | value {name cs us : List Char} {value : Int} (hname : isPlaceholderName name = true)
    (hvalue : constants.get? (String.ofList name) = some value) (hrest : Substitutes constants cs us) :
    Substitutes constants ('[' :: (name ++ ']' :: cs)) ((toString value).toList ++ us)
  | char {c : Char} {cs us : List Char} (hc : c = '[' → placeholder? cs = none)
    (hrest : Substitutes constants cs us) : Substitutes constants (c :: cs) (c :: us)

private theorem substituteFrom_skip (constants : Constants) (skip : Nat) (cs : List Char) :
    substituteFrom constants skip cs = substituteFrom constants 0 (cs.drop skip) := by
  induction cs generalizing skip with
  | nil => simp [substituteFrom]
  | cons c cs ih =>
    cases skip with
    | zero => rfl
    | succ skip =>
      rw [substituteFrom, if_pos (Nat.succ_pos skip), Nat.add_sub_cancel, ih, List.drop_succ_cons]

theorem substituteFrom_value {value : Int} (hname : isPlaceholderName name = true)
    (hvalue : constants.get? (String.ofList name) = some value) (cs : List Char) :
    substituteFrom constants 0 ('[' :: (name ++ ']' :: cs)) =
      (do return (toString value).toList ++ (← substituteFrom constants 0 cs)) := by
  have hfound : placeholder? (name ++ ']' :: cs) = some name :=
    placeholder?_eq_some.mpr ⟨hname, cs, rfl⟩
  have hdrop : (name ++ ']' :: cs).drop (name.length + 1) = cs := by simp
  rw [substituteFrom]
  simp only [Nat.lt_irrefl, if_false, if_true, hfound, hvalue]
  rw [substituteFrom_skip, hdrop]

theorem substituteFrom_char {c : Char} (hc : c = '[' → placeholder? cs = none) :
    substituteFrom constants 0 (c :: cs) = (do return c :: (← substituteFrom constants 0 cs)) := by
  rw [substituteFrom]
  by_cases hopen : c = '['
  · simp only [Nat.lt_irrefl, if_false, hopen, if_true, hc hopen]
  · simp only [Nat.lt_irrefl, if_false, hopen]

theorem substituteFrom_unknown (hname : isPlaceholderName name = true)
    (hvalue : constants.get? (String.ofList name) = none) (cs : List Char) :
    substituteFrom constants 0 ('[' :: (name ++ ']' :: cs)) =
      .error (.unresolvedPlaceholder (String.ofList name)) := by
  have hfound : placeholder? (name ++ ']' :: cs) = some name :=
    placeholder?_eq_some.mpr ⟨hname, cs, rfl⟩
  rw [substituteFrom]
  simp only [Nat.lt_irrefl, if_false, if_true, hfound, hvalue]

/-- A text as substitution reads it: a placeholder, or else a character, and then the rest. -/
@[elab_as_elim]
theorem read_induction {P : List Char → Prop} (nil : P [])
    (placeholder : ∀ name cs, isPlaceholderName name = true → P cs → P ('[' :: (name ++ ']' :: cs)))
    (char : ∀ c cs, (c = '[' → placeholder? cs = none) → P cs → P (c :: cs)) (cs : List Char) : P cs := by
  induction hn : cs.length using Nat.strongRecOn generalizing cs with
  | _ n ih =>
    cases cs with
    | nil => exact nil
    | cons c cs =>
      by_cases hplain : c = '[' → placeholder? cs = none
      · exact char c cs hplain (ih cs.length (by rw [← hn]; simp) cs rfl)
      · obtain ⟨rfl, hsome⟩ := Classical.not_imp.mp hplain
        obtain ⟨name, hfound⟩ := Option.ne_none_iff_exists'.mp hsome
        obtain ⟨hname, rest, rfl⟩ := placeholder?_eq_some.mp hfound
        have hshort : rest.length < n := by
          rw [← hn]
          simp only [List.length_cons, List.length_append]
          omega
        exact placeholder name rest hname (ih rest.length hshort rest rfl)

theorem substituteFrom_eq_ok : substituteFrom constants 0 cs = .ok us ↔ Substitutes constants cs us := by
  constructor
  · intro h
    induction cs using read_induction generalizing us with
    | nil =>
      simp only [substituteFrom, Except.ok.injEq] at h
      exact h ▸ .nil
    | placeholder name cs hname ih =>
      cases hvalue : constants.get? (String.ofList name) with
      | none => simp [substituteFrom_unknown hname hvalue] at h
      | some value =>
        rw [substituteFrom_value hname hvalue, bind_eq_ok] at h
        obtain ⟨vs, hvs, h⟩ := h
        rw [← pure_eq_ok.mp h]
        exact .value hname hvalue (ih hvs)
    | char c cs hplain ih =>
      rw [substituteFrom_char hplain, bind_eq_ok] at h
      obtain ⟨vs, hvs, h⟩ := h
      rw [← pure_eq_ok.mp h]
      exact .char hplain (ih hvs)
  · intro h
    induction h with
    | nil => rfl
    | value hname hvalue _ ih => rw [substituteFrom_value hname hvalue, ih]; rfl
    | char hc _ ih => rw [substituteFrom_char hc, ih]; rfl

private theorem toString_negSucc_toList (n : Nat) :
    (toString (Int.negSucc n)).toList = '-' :: (toString (n + 1)).toList := by
  simp [toString, Int.repr]

theorem toString_toList_ne_nil (value : Int) : (toString value).toList ≠ [] := by
  cases value with
  | ofNat n =>
    have hdigits : (toString (Int.ofNat n)).toList = Nat.toDigits 10 n := by simp [toString, Int.repr]
    rw [hdigits]
    exact Nat.toDigits_ne_nil
  | negSucc n =>
    rw [toString_negSucc_toList]
    exact List.cons_ne_nil _ _

theorem digit_of_mem_toString {value : Int} {c : Char} (h : c ∈ (toString value).toList) :
    c.isDigit = true ∨ c = '-' := by
  have hnat : ∀ n : Nat, c ∈ (toString n).toList → c.isDigit = true := by
    intro n hc
    exact Nat.isDigit_of_mem_toDigits (b := 10) (by decide) (by decide) (by simpa using hc)
  cases value with
  | ofNat n => exact .inl (hnat n h)
  | negSucc n =>
    rw [toString_negSucc_toList, List.mem_cons] at h
    exact h.symm.imp_left (hnat (n + 1))

theorem not_mem_toString {c : Char} (hdigit : c.isDigit = false) (hsign : c ≠ '-') (value : Int) :
    c ∉ (toString value).toList := by
  intro hmem
  rcases digit_of_mem_toString hmem with h | h
  · simp [hdigit] at h
  · exact hsign h

theorem Substitutes.nil_inv (h : Substitutes constants [] us) : us = [] := by
  cases h with
  | nil => rfl

theorem Substitutes.char_inv {c : Char} (hc : c = '[' → placeholder? cs = none)
    (h : Substitutes constants (c :: cs) us) : ∃ vs, us = c :: vs ∧ Substitutes constants cs vs := by
  generalize htext : cs = text at h
  cases h with
  | @value name rest us value hname =>
    have hfound : placeholder? (name ++ ']' :: rest) = some name :=
      placeholder?_eq_some.mpr ⟨hname, rest, rfl⟩
    simp [htext, hfound] at hc
  | char _ hrest => exact ⟨_, rfl, htext ▸ hrest⟩

theorem Substitutes.cons_inv {c : Char} (hc : c ≠ '[') (h : Substitutes constants (c :: cs) us) :
    ∃ vs, us = c :: vs ∧ Substitutes constants cs vs :=
  h.char_inv fun heq => absurd heq hc

theorem Substitutes.self (h : '[' ∉ cs) : Substitutes constants cs cs := by
  induction cs with
  | nil => exact .nil
  | cons c cs ih =>
    have hc : c ≠ '[' := fun heq => h (heq ▸ List.mem_cons_self)
    exact .char (fun heq => absurd heq hc) (ih fun hmem => h (List.mem_cons_of_mem c hmem))

private theorem Substitutes.value_inv {value : Int} (hname : isPlaceholderName name = true)
    (hvalue : constants.get? (String.ofList name) = some value)
    (h : Substitutes constants ('[' :: (name ++ ']' :: cs)) us) :
    ∃ vs, us = (toString value).toList ++ vs ∧ Substitutes constants cs vs := by
  have hfound : placeholder? (name ++ ']' :: cs) = some name := placeholder?_eq_some.mpr ⟨hname, cs, rfl⟩
  generalize htext : name ++ ']' :: cs = text at h hfound
  cases h with
  | char hc => simp [hc rfl] at hfound
  | @value name' cs' us' value' hname' hvalue' hrest =>
    have hfound' : placeholder? (name' ++ ']' :: cs') = some name' :=
      placeholder?_eq_some.mpr ⟨hname', cs', rfl⟩
    obtain rfl : name' = name := Option.some.inj (hfound'.symm.trans hfound)
    obtain rfl : value = value' := Option.some.inj (hvalue.symm.trans hvalue')
    obtain rfl : cs = cs' := by simpa using htext
    exact ⟨us', rfl, hrest⟩

/-- A part of a text that leaves no bracket open is replaced as it would be alone. -/
theorem Substitutes.append_inv (hxs : Substitutes constants xs vs) (hvs : '[' ∉ vs)
    (h : Substitutes constants (xs ++ ys) us) : ∃ ws, us = vs ++ ws ∧ Substitutes constants ys ws := by
  induction hxs generalizing us with
  | nil => exact ⟨us, rfl, h⟩
  | @value name cs vs value hname hvalue _ ih =>
    have hopen : '[' ∉ vs := fun hmem => hvs (List.mem_append_right _ hmem)
    rw [List.cons_append, List.append_assoc, List.cons_append] at h
    obtain ⟨us', rfl, hrest⟩ := h.value_inv hname hvalue
    obtain ⟨ws, rfl, hys⟩ := ih hopen hrest
    exact ⟨ws, by rw [List.append_assoc], hys⟩
  | @char c cs vs hc _ ih =>
    have hne : c ≠ '[' := fun heq => hvs (heq ▸ List.mem_cons_self)
    obtain ⟨us', rfl, hrest⟩ := h.cons_inv hne
    obtain ⟨ws, rfl, hys⟩ := ih (fun hmem => hvs (List.mem_cons_of_mem c hmem)) hrest
    exact ⟨ws, rfl, hys⟩

theorem placeholder?_first_line {l : List Char} {ls : List (List Char)} (h : Text.lines cs = l :: ls) :
    placeholder? l = placeholder? cs := by
  cases hcs : placeholder? cs with
  | none =>
    obtain ⟨rest, hrest⟩ := Text.first_line_isPrefix h
    rw [← hrest] at hcs
    exact placeholder?_eq_none_of_append hcs
  | some name =>
    obtain ⟨hname, rest, rfl⟩ := placeholder?_eq_some.mp hcs
    obtain ⟨l', ls', hrest⟩ := Text.exists_lines rest
    have hclosed : '\n' ∉ name ++ [']'] := by
      simp [not_mem_of_isPlaceholderName (c := '\n') hname (by decide)]
    have hfirst := Text.lines_append hclosed hrest
    simp only [List.append_assoc, List.singleton_append] at hfirst
    rw [hfirst, List.cons.injEq] at h
    exact placeholder?_eq_some.mpr ⟨hname, l', h.1.symm⟩

private theorem placeholder?_append_newline (xs ys : List Char) :
    placeholder? (xs ++ '\n' :: ys) = placeholder? xs := by
  obtain ⟨l, ls, hxs⟩ := Text.exists_lines xs
  have hlines : Text.lines (xs ++ '\n' :: ys) = l :: (ls ++ Text.lines ys) := by
    rw [Text.lines_append_newline, hxs, List.cons_append]
  rw [← placeholder?_first_line hlines, placeholder?_first_line hxs]

/-- The texts before and behind a newline are replaced by themselves, and a fault of the first one counts
first. -/
theorem substituteFrom_append_newline (constants : Constants) (xs ys : List Char) :
    substituteFrom constants 0 (xs ++ '\n' :: ys) = (do
      let us ← substituteFrom constants 0 xs
      let vs ← substituteFrom constants 0 ys
      return us ++ '\n' :: vs) := by
  induction xs using read_induction with
  | nil => exact substituteFrom_char (by simp)
  | placeholder name xs hname ih =>
    rw [List.cons_append, List.append_assoc, List.cons_append]
    cases hvalue : constants.get? (String.ofList name) with
    | none => rw [substituteFrom_unknown hname hvalue, substituteFrom_unknown hname hvalue]; rfl
    | some value =>
      rw [substituteFrom_value hname hvalue, substituteFrom_value hname hvalue, ih]
      simp only [bind_assoc, pure_bind, List.append_assoc]
  | char c xs hplain ih =>
    have hplain' : c = '[' → placeholder? (xs ++ '\n' :: ys) = none := by
      rwa [placeholder?_append_newline]
    rw [List.cons_append, substituteFrom_char hplain', substituteFrom_char hplain, ih]
    simp only [bind_assoc, pure_bind, List.cons_append]

theorem Substitutes.lines (h : Substitutes constants cs us) :
    List.Forall₂ (Substitutes constants) (Text.lines cs) (Text.lines us) := by
  induction h with
  | nil => exact .cons .nil .nil
  | @value name cs us value hname hvalue _ ih =>
    obtain ⟨l, ls, hcs⟩ := Text.exists_lines cs
    obtain ⟨l', ls', hus⟩ := Text.exists_lines us
    have hopen : '\n' ∉ '[' :: (name ++ [']']) := by
      have hline := not_mem_of_isPlaceholderName (c := '\n') hname (by decide)
      simp [hline]
    have hdigits := not_mem_toString (c := '\n') (by decide) (by decide) value
    rw [hcs, hus, List.forall₂_cons] at ih
    have hbracket : Text.lines ('[' :: (name ++ ']' :: cs)) = ('[' :: (name ++ [']']) ++ l) :: ls := by
      rw [← Text.lines_append hopen hcs]
      simp
    rw [hbracket, Text.lines_append hdigits hus, List.forall₂_cons]
    refine ⟨?_, ih.2⟩
    have hvalue' := Substitutes.value hname hvalue ih.1
    simpa using hvalue'
  | @char c cs us hc _ ih =>
    by_cases hline : c = '\n'
    · subst hline
      rw [Text.lines_newline_cons, Text.lines_newline_cons]
      exact .cons .nil ih
    · obtain ⟨l, ls, hcs⟩ := Text.exists_lines cs
      obtain ⟨l', ls', hus⟩ := Text.exists_lines us
      rw [hcs, hus, List.forall₂_cons] at ih
      rw [Text.lines_cons hline hcs, Text.lines_cons hline hus, List.forall₂_cons]
      refine ⟨.char ?_ ih.1, ih.2⟩
      intro hopen
      rw [placeholder?_first_line hcs]
      exact hc hopen

private theorem startsName_first_line {l : List Char} {ls : List (List Char)} (h : Text.lines cs = l :: ls) :
    startsName l = startsName cs := by
  cases cs with
  | nil =>
    simp only [Text.lines, List.cons.injEq] at h
    rw [← h.1]
  | cons c cs =>
    by_cases hc : c = '\n'
    · rw [hc, Text.lines_newline_cons, List.cons.injEq] at h
      rw [← h.1, hc]
      rfl
    · obtain ⟨l', ls', h'⟩ := Text.exists_lines cs
      rw [Text.lines_cons hc h', List.cons.injEq] at h
      rw [← h.1]
      rfl

private theorem lines_unmark_first {l : List Char} {ls : List (List Char)} (comment : Bool)
    (h : Text.lines cs = l :: ls) :
    Text.lines (unmark comment cs) = unmark comment l :: ls.map (unmark false) := by
  induction cs generalizing comment l ls with
  | nil =>
    simp only [Text.lines, List.cons.injEq] at h
    rw [← h.1, ← h.2]
    rfl
  | cons c cs ih =>
    obtain ⟨l', ls', h'⟩ := Text.exists_lines cs
    by_cases hc : c = '\n'
    · rw [hc, Text.lines_newline_cons, List.cons.injEq] at h
      have hunmark : unmark comment (c :: cs) = '\n' :: unmark false cs := by
        cases comment <;> simp [unmark, hc]
      rw [hunmark, Text.lines_newline_cons, ih false h', ← h.1, ← h.2, h']
      rfl
    · rw [Text.lines_cons hc h', List.cons.injEq] at h
      rw [← h.1, ← h.2]
      simp only [unmark, startsName_first_line h']
      split
      · exact Text.lines_cons hc (ih _ h')
      · split
        · exact Text.lines_cons hc (ih _ h')
        · split
          · exact ih _ h'
          · exact Text.lines_cons hc (ih _ h')

/-- Sigils are removed from each line by itself, since no comment goes past its line. -/
theorem lines_unmark (cs : List Char) :
    Text.lines (unmark false cs) = (Text.lines cs).map (unmark false) := by
  obtain ⟨l, ls, h⟩ := Text.exists_lines cs
  rw [lines_unmark_first false h, h, List.map_cons]

private theorem takeWhile_first_line {l : List Char} {ls : List (List Char)} (h : Text.lines cs = l :: ls) :
    l.takeWhile Text.isNameChar = cs.takeWhile Text.isNameChar := by
  induction cs generalizing l ls with
  | nil =>
    simp only [Text.lines, List.cons.injEq] at h
    rw [← h.1]
  | cons c cs ih =>
    by_cases hc : c = '\n'
    · rw [hc, Text.lines_newline_cons, List.cons.injEq] at h
      rw [← h.1, hc]
      rfl
    · obtain ⟨l', ls', h'⟩ := Text.exists_lines cs
      rw [Text.lines_cons hc h', List.cons.injEq] at h
      rw [← h.1, List.takeWhile_cons, List.takeWhile_cons, ih h']

private theorem markers_first_line {l : List Char} {ls : List (List Char)} (comment : Bool)
    (h : Text.lines cs = l :: ls) :
    markers comment cs = markers comment l ++ ls.flatMap (markers false) := by
  induction cs generalizing comment l ls with
  | nil =>
    simp only [Text.lines, List.cons.injEq] at h
    rw [← h.1, ← h.2]
    rfl
  | cons c cs ih =>
    obtain ⟨l', ls', h'⟩ := Text.exists_lines cs
    by_cases hc : c = '\n'
    · rw [hc, Text.lines_newline_cons, List.cons.injEq] at h
      have hmarkers : markers comment (c :: cs) = markers false cs := by
        cases comment <;> simp [markers, hc]
      rw [hmarkers, ih false h', ← h.1, ← h.2, h']
      rfl
    · rw [Text.lines_cons hc h', List.cons.injEq] at h
      rw [← h.1, ← h.2]
      simp only [markers, startsName_first_line h', takeWhile_first_line h']
      split
      · exact ih _ h'
      · split
        · exact ih _ h'
        · split
          · rw [ih _ h', List.cons_append]
          · exact ih _ h'

theorem markers_lines (cs : List Char) : markers false cs = (Text.lines cs).flatMap (markers false) := by
  obtain ⟨l, ls, h⟩ := Text.exists_lines cs
  rw [markers_first_line false h, h, List.flatMap_cons]

namespace Section

private theorem lines_append (text part : List Char) (l : List Char) (hl : l ≠ []) :
    l ∈ Text.lines (append text part) ↔ l ∈ Text.lines text ∨ l ∈ Text.lines part := by
  have hempty : ∀ rest : List Char, l ∈ Text.lines (text ++ '\n' :: rest) ↔
      l ∈ Text.lines text ∨ l ∈ Text.lines rest := by
    intro rest
    rw [Text.lines_append_newline, List.mem_append]
  unfold append
  split
  · rename_i hlast
    rw [List.getLast?_eq_none_iff.mp hlast]
    simp [Text.lines, hl]
  · rename_i hlast
    obtain ⟨start, rfl⟩ := List.getLast?_eq_some_iff.mp hlast
    rw [List.append_assoc, List.singleton_append, Text.lines_append_newline, Text.lines_append_newline]
    simp [Text.lines, hl]
  · exact hempty part

theorem lines_chars (sections : List Section) (l : List Char) (hl : l ≠ []) :
    l ∈ Text.lines (chars sections) ↔ ∃ s ∈ sections, l ∈ Text.lines s.text.toList := by
  have hfold : ∀ text : List Char,
      l ∈ Text.lines (sections.foldl (fun text s => append text s.text.toList) text) ↔
        l ∈ Text.lines text ∨ ∃ s ∈ sections, l ∈ Text.lines s.text.toList := by
    induction sections with
    | nil => simp
    | cons s sections ih =>
      intro text
      rw [List.foldl_cons, ih, lines_append _ _ _ hl, or_assoc]
      simp
  rw [chars, hfold []]
  simp [Text.lines, hl]

end Section

end Link

end WordLang
