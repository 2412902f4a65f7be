import WordLang.Proofs.LinkedLabels

/-!
# Markers and placeholders left in an image

Substitution and the removal of sigils each go over a text once. A sigil before a marker is no part of it
and meets the name when the sigil of the marker goes; and brackets can come to stand around a placeholder
when what is between them is rewritten. Nothing else is left to resolve.
-/

namespace WordLang.Link

variable {constants : Constants} {cs us vs xs ys p q line mid : List Char} {c d : Char} {k : Bool}

/-- A sigil before a marker, outside of the comment of a line. -/
def DoubledSigil (line : List Char) : Prop :=
  ∃ before after, line = before ++ '@' :: '@' :: after ∧ '#' ∉ before ∧ startsName after = true

/-- Brackets of a line around text that is not the name of a placeholder, but that linking turns into one. -/
def LatentPlaceholder (constants : Constants) (line : List Char) : Prop :=
  ∃ before inner after name, line = before ++ '[' :: (inner ++ ']' :: after) ∧
    isPlaceholderName inner = false ∧
    (substituteFrom constants 0 inner).map (unmark (before.contains '#')) = .ok name ∧
    isPlaceholderName name = true

def HasPlaceholder (cs : List Char) : Prop :=
  ∃ before name after, cs = before ++ '[' :: (name ++ ']' :: after) ∧ isPlaceholderName name = true

/-! ## Removing sigils -/

theorem startsName_append_of_eq_false (hys : startsName ys = false) : startsName (xs ++ ys) = startsName xs := by
  cases xs with
  | nil => exact hys
  | cons c xs => rfl

private theorem unmark_cons (hc : c ≠ '\n') :
    unmark k (c :: cs) =
      if k = false ∧ c = '@' ∧ startsName cs = true then unmark k cs
      else c :: unmark (k || c == '#') cs := by
  cases k with
  | true =>
    have hline : (c != '\n') = true := by simp [hc]
    simp [unmark, hline]
  | false =>
    by_cases hhash : c = '#'
    · simp [unmark, hhash]
    · have hbeq : (c == '#') = false := by simp [hhash]
      simp only [unmark, hhash, if_false, Bool.false_eq_true, true_and, Bool.false_or, hbeq]

private theorem unmark_kept (hline : c ≠ '\n') (hsigil : c ≠ '@') (hhash : c ≠ '#') :
    unmark k (c :: cs) = c :: unmark k cs := by
  have hbeq : (c == '#') = false := by simp [hhash]
  rw [unmark_cons hline, if_neg (fun h => hsigil h.2.1), hbeq, Bool.or_false]

private theorem mem_unmark (hd : d ≠ '@') : d ∈ unmark k cs ↔ d ∈ cs := by
  induction cs generalizing k with
  | nil => simp [unmark]
  | cons c cs ih =>
    unfold unmark
    split
    · simp [ih]
    · split
      · simp [ih]
      · split
        · rename_i hsigil
          simp [ih, hsigil.1, hd]
        · simp [ih]

private theorem unmark_split (hxs : '\n' ∉ xs) (hys : startsName ys = false) :
    unmark k (xs ++ ys) = unmark k xs ++ unmark (k || xs.contains '#') ys := by
  induction xs generalizing k with
  | nil => simp [unmark]
  | cons c xs ih =>
    rw [List.mem_cons, not_or] at hxs
    have hc : c ≠ '\n' := Ne.symm hxs.1
    have hstate : (k || (c :: xs).contains '#') = ((k || c == '#') || xs.contains '#') := by
      rw [List.contains_cons, Bool.or_assoc, BEq.comm]
    rw [List.cons_append, unmark_cons hc, unmark_cons hc, startsName_append_of_eq_false hys]
    split
    · rename_i hsigil
      have hsame : (k || (c :: xs).contains '#') = (k || xs.contains '#') := by
        rw [hstate, hsigil.2.1]
        simp
      rw [ih hxs.2, hsame]
    · rw [ih hxs.2, hstate, List.cons_append]

private theorem unmark_eq_append (hcs : '\n' ∉ cs) (halpha : d.isAlpha = false) (hhash : d ≠ '#')
    (h : unmark k cs = p ++ d :: q) :
    ∃ p' q', cs = p' ++ d :: q' ∧ unmark k p' = p ∧ unmark (k || p'.contains '#') q' = q := by
  have hstart : ∀ rest : List Char, startsName (d :: rest) = false := fun _ => halpha
  induction cs generalizing k p with
  | nil => simp [unmark] at h
  | cons c cs ih =>
    rw [List.mem_cons, not_or] at hcs
    have hc : c ≠ '\n' := Ne.symm hcs.1
    rw [unmark_cons hc] at h
    split at h
    · rename_i hsigil
      obtain ⟨p', q', rfl, hp, hq⟩ := ih hcs.2 h
      rw [startsName_append_of_eq_false (hstart q')] at hsigil
      refine ⟨c :: p', q', rfl, ?_, ?_⟩
      · rw [unmark_cons hc, if_pos hsigil, hp]
      · have hsame : (c :: p').contains '#' = p'.contains '#' := by
          rw [hsigil.2.1]
          simp
        rw [hsame, hq]
    · rename_i hkept
      cases p with
      | nil =>
        rw [List.nil_append, List.cons.injEq] at h
        obtain ⟨rfl, hq⟩ := h
        refine ⟨[], cs, rfl, rfl, ?_⟩
        have hbeq : (c == '#') = false := by simp [hhash]
        simpa [hbeq] using hq
      | cons c' p =>
        rw [List.cons_append, List.cons.injEq] at h
        obtain ⟨rfl, h⟩ := h
        obtain ⟨p', q', rfl, hp, hq⟩ := ih hcs.2 h
        rw [startsName_append_of_eq_false (hstart q')] at hkept
        refine ⟨c :: p', q', rfl, ?_, ?_⟩
        · rw [unmark_cons hc, if_neg hkept, hp]
        · rw [← hq, List.contains_cons, BEq.comm, Bool.or_assoc]

private theorem startsName_unmark (h : startsName cs = true) : startsName (unmark false cs) = true := by
  cases cs with
  | nil => simp [startsName] at h
  | cons c cs =>
    have halpha : c.isAlpha = true := h
    have hsigil : c ≠ '@' := by
      rintro rfl
      exact absurd halpha (by decide)
    have hhash : c ≠ '#' := by
      rintro rfl
      exact absurd halpha (by decide)
    simpa [unmark, hsigil, hhash, startsName] using halpha

/-! ## Markers -/

private theorem markers_comment (h : '\n' ∉ cs) : markers true cs = [] := by
  induction cs with
  | nil => rfl
  | cons c cs ih =>
    rw [List.mem_cons, not_or] at h
    have hline : (c != '\n') = true := by simp [Ne.symm h.1]
    rw [markers, if_pos rfl, hline]
    exact ih h.2

private theorem markers_eq_nil_iff (h : '\n' ∉ cs) :
    markers false cs = [] ↔
      ¬ ∃ before after, cs = before ++ '@' :: after ∧ '#' ∉ before ∧ startsName after = true := by
  induction cs with
  | nil => simp [markers]
  | cons c cs ih =>
    rw [List.mem_cons, not_or] at h
    unfold markers
    simp only [Bool.false_eq_true, if_false]
    split
    · rename_i hhash
      simp only [markers_comment h.2, true_iff]
      rintro ⟨before, after, htext, hcode, _⟩
      cases before with
      | nil => simp [hhash] at htext
      | cons c' before =>
        rw [List.cons_append, List.cons.injEq] at htext
        exact hcode (by simp [← htext.1, hhash])
    · rename_i hhash
      split
      · rename_i hmarker
        simp only [List.cons_ne_nil, false_iff, not_not]
        exact ⟨[], cs, by simp [hmarker.1], by simp, hmarker.2⟩
      · rename_i hmarker
        rw [ih h.2, not_iff_not]
        constructor
        · rintro ⟨before, after, rfl, hcode, hname⟩
          exact ⟨c :: before, after, rfl, by simp [Ne.symm hhash, hcode], hname⟩
        · rintro ⟨before, after, htext, hcode, hname⟩
          cases before with
          | nil =>
            rw [List.nil_append, List.cons.injEq] at htext
            exact absurd ⟨htext.1, htext.2 ▸ hname⟩ hmarker
          | cons c' before =>
            rw [List.cons_append, List.cons.injEq] at htext
            exact ⟨before, after, htext.2, fun hmem => hcode (List.mem_cons_of_mem c' hmem), hname⟩

/-- Removing sigils leaves a marker exactly where a sigil stood before another one. -/
theorem markers_unmark (h : '\n' ∉ cs) : markers false (unmark false cs) = [] ↔ ¬ DoubledSigil cs := by
  have hline : '\n' ∉ unmark false cs := by rwa [mem_unmark (by decide)]
  rw [markers_eq_nil_iff hline, not_iff_not]
  have hplain : ∀ {before : List Char}, '#' ∉ before → (false || before.contains '#') = false := by
    intro before hcode
    simpa using hcode
  constructor
  · rintro ⟨p, q, htext, hcode, hname⟩
    obtain ⟨before, rest, rfl, rfl, hrest⟩ := unmark_eq_append h (by decide) (by decide) htext
    rw [mem_unmark (by decide)] at hcode
    rw [hplain hcode] at hrest
    have hbefore : '\n' ∉ before := fun hmem => h (List.mem_append_left _ hmem)
    have hkept : startsName rest = false := by
      rw [unmark_split hbefore (by rfl), hplain hcode, List.append_cancel_left_eq,
        unmark_cons (by decide)] at htext
      split at htext
      · rw [hrest] at htext
        have hlength := congrArg List.length htext
        simp at hlength
      · rename_i hkept
        simpa using hkept
    cases rest with
    | nil => simp [← hrest, unmark, startsName] at hname
    | cons c rest =>
      have hc : c ≠ '\n' := by
        rintro rfl
        simp at h
      rw [unmark_cons hc] at hrest
      split at hrest
      · rename_i hsigil
        obtain ⟨_, rfl, hname⟩ := hsigil
        exact ⟨before, rest, rfl, hcode, hname⟩
      · rw [← hrest] at hname
        exact absurd (hname.symm.trans hkept) (by simp)
  · rintro ⟨before, after, rfl, hcode, hname⟩
    have hbefore : '\n' ∉ before := fun hmem => h (List.mem_append_left _ hmem)
    refine ⟨unmark false before, unmark false after, ?_, ?_, startsName_unmark hname⟩
    · rw [unmark_split hbefore (by rfl), hplain hcode, unmark_cons (by decide), if_neg (by simp [startsName]),
        unmark_cons (by decide), if_pos (by simpa using hname)]
      rfl
    · rwa [mem_unmark (by decide)]

/-! ## Placeholders -/

private theorem Substitutes.split_output (hdigit : d.isDigit = false) (hsign : d ≠ '-')
    (h : Substitutes constants cs (p ++ d :: q)) :
    ∃ p' q', cs = p' ++ d :: q' ∧ Substitutes constants p' p ∧ Substitutes constants q' q ∧
      (d = '[' → placeholder? q' = none) := by
  generalize hout : p ++ d :: q = out at h
  induction h generalizing p with
  | nil => simp at hout
  | @value name cs us value hname hvalue _ ih =>
    have hnot := not_mem_toString hdigit hsign value
    rw [List.append_eq_append_iff] at hout
    rcases hout with ⟨a, hdigits, hrest⟩ | ⟨a, rfl, hrest⟩
    · cases a with
      | nil =>
        rw [List.append_nil] at hdigits
        obtain ⟨p', q', rfl, hp, hq, hopen⟩ := ih (p := []) hrest
        refine ⟨'[' :: (name ++ ']' :: p'), q', by simp, ?_, hq, hopen⟩
        rw [← hdigits, ← List.append_nil (toString value).toList]
        exact .value hname hvalue hp
      | cons a as =>
        rw [List.cons_append, List.cons.injEq] at hrest
        exact absurd (by rw [hdigits, hrest.1]; simp) hnot
    · obtain ⟨p', q', rfl, hp, hq, hopen⟩ := ih hrest.symm
      exact ⟨'[' :: (name ++ ']' :: p'), q', by simp, .value hname hvalue hp, hq, hopen⟩
  | @char c cs us hc hrest ih =>
    cases p with
    | nil =>
      rw [List.nil_append, List.cons.injEq] at hout
      obtain ⟨rfl, rfl⟩ := hout
      exact ⟨[], cs, rfl, .nil, hrest, hc⟩
    | cons c' p =>
      rw [List.cons_append, List.cons.injEq] at hout
      obtain ⟨rfl, hout⟩ := hout
      obtain ⟨p', q', rfl, hp, hq, hopen⟩ := ih hout
      exact ⟨c' :: p', q', rfl, .char (fun heq => placeholder?_eq_none_of_append (hc heq)) hp, hq, hopen⟩

theorem Substitutes.eq_nil (h : Substitutes constants cs []) : cs = [] := by
  generalize hout : ([] : List Char) = out at h
  cases h with
  | nil => rfl
  | value => exact absurd (List.append_eq_nil_iff.mp hout.symm).1 (toString_toList_ne_nil _)
  | char => simp at hout

private theorem Substitutes.kept_inv (hdigit : c.isDigit = false) (hsign : c ≠ '-')
    (h : Substitutes constants (c :: cs) (c :: us)) :
    (c = '[' → placeholder? cs = none) ∧ Substitutes constants cs us := by
  obtain ⟨p, q, htext, hp, hq, hopen⟩ := Substitutes.split_output (p := []) hdigit hsign h
  rw [hp.eq_nil, List.nil_append, List.cons.injEq] at htext
  rw [htext.2]
  exact ⟨hopen, hq⟩

theorem substitutes_self_iff : Substitutes constants cs cs ↔ ¬ HasPlaceholder cs := by
  constructor
  · rintro h ⟨before, name, after, rfl, hname⟩
    induction before with
    | nil =>
      have hfound : placeholder? (name ++ ']' :: after) = some name :=
        placeholder?_eq_some.mpr ⟨hname, after, rfl⟩
      have hnone := (Substitutes.kept_inv (by decide) (by decide) h).1 rfl
      simp [hfound] at hnone
    | cons c before ih =>
      by_cases hc : c = '['
      · subst hc
        exact ih (Substitutes.kept_inv (by decide) (by decide) h).2
      · obtain ⟨vs, heq, hrest⟩ := h.cons_inv hc
        rw [← (List.cons.inj heq).2] at hrest
        exact ih hrest
  · intro h
    induction cs with
    | nil => exact .nil
    | cons c cs ih =>
      refine .char ?_ (ih ?_)
      · rintro rfl
        cases hfound : placeholder? cs with
        | none => rfl
        | some name =>
          obtain ⟨hname, rest, rfl⟩ := placeholder?_eq_some.mp hfound
          exact absurd ⟨[], name, rest, rfl, hname⟩ h
      · rintro ⟨before, name, after, rfl, hname⟩
        exact h ⟨c :: before, name, after, rfl, hname⟩

private theorem substitutes_self_lines :
    Substitutes constants cs cs ↔ ∀ l ∈ Text.lines cs, Substitutes constants l l := by
  constructor
  · intro h l hl
    have hlines := h.lines
    rw [List.forall₂_same] at hlines
    exact hlines l hl
  · intro h
    induction cs with
    | nil => exact .nil
    | cons c cs ih =>
      by_cases hc : c = '\n'
      · subst hc
        rw [Text.lines_newline_cons, List.forall_mem_cons] at h
        exact .char (by simp) (ih h.2)
      · obtain ⟨l, ls, hcs⟩ := Text.exists_lines cs
        rw [Text.lines_cons hc hcs, List.forall_mem_cons] at h
        rw [hcs, List.forall_mem_cons] at ih
        by_cases hopen : c = '['
        · subst hopen
          obtain ⟨hnone, hl⟩ := Substitutes.kept_inv (by decide) (by decide) h.1
          rw [placeholder?_first_line hcs] at hnone
          exact .char hnone (ih ⟨hl, h.2⟩)
        · obtain ⟨vs, heq, hl⟩ := h.1.cons_inv hopen
          rw [← (List.cons.inj heq).2] at hl
          exact .char (fun h => absurd h hopen) (ih ⟨hl, h.2⟩)

private theorem Substitutes.split_input (hname : isPlaceholderChar d = false) (hclose : d ≠ ']')
    (h : Substitutes constants (xs ++ d :: ys) us) :
    ∃ p q, us = p ++ q ∧ Substitutes constants xs p ∧ Substitutes constants (d :: ys) q := by
  generalize htext : xs ++ d :: ys = text at h
  induction h generalizing xs with
  | nil => simp at htext
  | @value name cs us value hplaceholder hvalue hrest ih =>
    cases xs with
    | nil =>
      rw [List.nil_append] at htext
      exact ⟨[], _, rfl, .nil, htext ▸ .value hplaceholder hvalue hrest⟩
    | cons c xs =>
      rw [List.cons_append, List.cons.injEq, List.append_eq_append_iff] at htext
      obtain ⟨rfl, ⟨a, rfl, hafter⟩ | ⟨a, rfl, hafter⟩⟩ := htext
      · cases a with
        | nil =>
          rw [List.nil_append, List.cons.injEq] at hafter
          exact absurd hafter.1 hclose
        | cons a as =>
          rw [List.cons_append, List.cons.injEq] at hafter
          exact absurd (by simp [hafter.1]) (not_mem_of_isPlaceholderName hplaceholder hname)
      · cases a with
        | nil =>
          rw [List.nil_append, List.cons.injEq] at hafter
          exact absurd hafter.1.symm hclose
        | cons a as =>
          rw [List.cons_append, List.cons.injEq] at hafter
          obtain ⟨rfl, hafter⟩ := hafter
          obtain ⟨p, q, rfl, hp, hq⟩ := ih hafter.symm
          exact ⟨_, q, by rw [List.append_assoc], .value hplaceholder hvalue hp, hq⟩
  | @char c cs us hc hrest ih =>
    cases xs with
    | nil =>
      rw [List.nil_append] at htext
      exact ⟨[], _, rfl, .nil, htext ▸ .char hc hrest⟩
    | cons c' xs =>
      rw [List.cons_append, List.cons.injEq] at htext
      obtain ⟨rfl, htext⟩ := htext
      obtain ⟨p, q, rfl, hp, hq⟩ := ih htext
      refine ⟨c' :: p, q, rfl, .char (fun heq => ?_) hp, hq⟩
      rw [← htext] at hc
      exact placeholder?_eq_none_of_append (hc heq)

private theorem Substitutes.mem_iff (hname : isPlaceholderChar d = false) (hopen : d ≠ '[') (hclose : d ≠ ']')
    (hsign : d ≠ '-') (h : Substitutes constants cs us) : d ∈ us ↔ d ∈ cs := by
  have hdigit : d.isDigit = false := by
    simp only [isPlaceholderChar, Bool.or_eq_false_iff] at hname
    exact hname.1.2
  induction h with
  | nil => simp
  | @value name cs us value hplaceholder _ _ ih =>
    have hout := not_mem_toString hdigit hsign value
    have hin := not_mem_of_isPlaceholderName hplaceholder hname
    simp only [List.mem_append, List.mem_cons, hout, hin, hopen, hclose, false_or]
    exact ih
  | char _ _ ih => simp [ih]

/-! ## Lines -/

private theorem isAlpha_of_isDigit (h : c.isDigit = true) : c.isAlpha = false := by
  simp only [Char.isDigit, Bool.and_eq_true, decide_eq_true_eq, ge_iff_le, UInt32.le_iff_toNat_le] at h
  delta Char.isAlpha Char.isUpper Char.isLower
  simp only [Bool.or_eq_false_iff, Bool.and_eq_false_iff, decide_eq_false_iff_not, ge_iff_le,
    UInt32.le_iff_toNat_le]
  have hnine : '9'.val.toNat = 57 := rfl
  have hupper : 'A'.val.toNat = 65 := rfl
  have hlower : 'a'.val.toNat = 97 := rfl
  omega

theorem isDigit_of_isAlpha (h : c.isAlpha = true) : c.isDigit = false := by
  cases hdigit : c.isDigit with
  | false => rfl
  | true => simp [isAlpha_of_isDigit hdigit] at h

private theorem Substitutes.startsName_eq (h : Substitutes constants cs us) : startsName us = startsName cs := by
  cases h with
  | nil => rfl
  | @value name cs us value =>
    obtain ⟨c, digits, hdigits⟩ := List.exists_cons_of_ne_nil (toString_toList_ne_nil value)
    have hc : c.isDigit = true ∨ c = '-' := digit_of_mem_toString (by rw [hdigits]; exact List.mem_cons_self)
    have halpha : c.isAlpha = false := by
      rcases hc with hc | rfl
      · exact isAlpha_of_isDigit hc
      · decide
    rw [hdigits]
    exact halpha
  | char => rfl

private theorem Substitutes.contains_comment (h : Substitutes constants cs us) : us.contains '#' = cs.contains '#' := by
  rw [Bool.eq_iff_iff, List.contains_iff_mem, List.contains_iff_mem]
  exact h.mem_iff (by decide) (by decide) (by decide) (by decide)

private theorem Substitutes.doubledSigil_iff (h : Substitutes constants line mid) :
    DoubledSigil mid ↔ DoubledSigil line := by
  have hcomment : ∀ {before p : List Char}, Substitutes constants before p → ('#' ∉ p ↔ '#' ∉ before) := by
    intro before p hp
    rw [hp.mem_iff (by decide) (by decide) (by decide) (by decide)]
  constructor
  · rintro ⟨p, q, rfl, hcode, hname⟩
    obtain ⟨before, rest, rfl, hbefore, hrest, _⟩ := h.split_output (by decide) (by decide)
    obtain ⟨between, after, rfl, hbetween, hafter, _⟩ :=
      Substitutes.split_output (p := []) (by decide) (by decide) hrest
    obtain rfl := hbetween.eq_nil
    exact ⟨before, after, rfl, (hcomment hbefore).mp hcode, hafter.startsName_eq ▸ hname⟩
  · rintro ⟨before, after, rfl, hcode, hname⟩
    obtain ⟨p, q, rfl, hp, hq⟩ := h.split_input (by decide) (by decide)
    obtain ⟨q₁, rfl, hq₁⟩ := hq.cons_inv (by decide)
    obtain ⟨q₂, rfl, hq₂⟩ := hq₁.cons_inv (by decide)
    exact ⟨p, q₂, rfl, (hcomment hp).mpr hcode, hq₂.startsName_eq ▸ hname⟩

/-- Text that is not the name of a placeholder, but becomes bracketless text, is no placeholder before its
closing bracket either. -/
theorem Substitutes.placeholder?_eq_none (hinner : Substitutes constants xs vs)
    (hname : isPlaceholderName xs = false) (hclose : ']' ∉ vs) : placeholder? (xs ++ ']' :: ys) = none := by
  cases hfound : placeholder? (xs ++ ']' :: ys) with
  | none => rfl
  | some other =>
    obtain ⟨hother, rest, htext⟩ := placeholder?_eq_some.mp hfound
    have hopen := not_mem_of_isPlaceholderName (c := '[') hother (by decide)
    rcases List.append_eq_append_iff.mp htext with ⟨a, rfl, hrest⟩ | ⟨a, rfl, hrest⟩
    · cases a with
      | nil => simp [hname] at hother
      | cons a as =>
        rw [List.cons_append, List.cons.injEq] at hrest
        have hmem : ']' ∈ xs ++ a :: as := List.mem_append_right xs (hrest.1 ▸ List.mem_cons_self)
        exact absurd hmem (not_mem_of_isPlaceholderName hother (by decide))
    · cases a with
      | nil => simp [hother] at hname
      | cons a as =>
        rw [List.cons_append, List.cons.injEq] at hrest
        obtain ⟨ws, rfl, hws⟩ := (Substitutes.self hopen).append_inv hopen hinner
        rw [← hrest.1] at hws
        obtain ⟨ws', rfl, _⟩ := hws.cons_inv (by decide)
        simp at hclose

theorem Substitutes.brackets_output (h : Substitutes constants cs (p ++ '[' :: (vs ++ ']' :: q))) :
    ∃ before inner after, cs = before ++ '[' :: (inner ++ ']' :: after) ∧
      isPlaceholderName inner = false ∧ Substitutes constants before p ∧ Substitutes constants inner vs := by
  obtain ⟨before, rest, rfl, hbefore, hrest, hopen⟩ := h.split_output (by decide) (by decide)
  obtain ⟨inner, after, rfl, hinner, _, _⟩ := hrest.split_output (by decide) (by decide)
  refine ⟨before, inner, after, rfl, ?_, hbefore, hinner⟩
  by_contra hplaceholder
  rw [Bool.not_eq_false] at hplaceholder
  have hfound := placeholder?_eq_some.mpr ⟨hplaceholder, after, rfl⟩
  simp [hopen rfl] at hfound

theorem Substitutes.brackets_input {before inner after : List Char}
    (h : Substitutes constants (before ++ '[' :: (inner ++ ']' :: after)) us)
    (hplain : isPlaceholderName inner = false) (hinner : Substitutes constants inner vs)
    (hopen : '[' ∉ vs) (hclose : ']' ∉ vs) :
    ∃ p q, us = p ++ '[' :: (vs ++ ']' :: q) ∧ Substitutes constants before p := by
  have hnone : placeholder? (inner ++ ']' :: after) = none := hinner.placeholder?_eq_none hplain hclose
  obtain ⟨p, t, rfl, hp, ht⟩ := h.split_input (by decide) (by decide)
  obtain ⟨t₁, rfl, ht₁⟩ := ht.char_inv fun _ => hnone
  obtain ⟨t₂, rfl, ht₂⟩ := hinner.append_inv hopen ht₁
  obtain ⟨q, rfl, _⟩ := ht₂.cons_inv (by decide)
  exact ⟨p, q, rfl, hp⟩

/-- Linking leaves a placeholder in a line exactly where brackets close around one that was latent. -/
theorem Substitutes.hasPlaceholder_iff (hline : '\n' ∉ line) (h : Substitutes constants line mid) :
    HasPlaceholder (unmark false mid) ↔ LatentPlaceholder constants line := by
  have hmid : '\n' ∉ mid := by rwa [h.mem_iff (by decide) (by decide) (by decide) (by decide)]
  constructor
  · rintro ⟨p, name, q, htext, hname⟩
    obtain ⟨p', t, rfl, rfl, ht⟩ := unmark_eq_append hmid (by decide) (by decide) htext
    have htline : '\n' ∉ t := fun hmem => hmid (by simp [hmem])
    obtain ⟨inner', q', rfl, rfl, _⟩ := unmark_eq_append htline (by decide) (by decide) ht
    obtain ⟨before, inner, after, rfl, hplain, hbefore, hinner⟩ := h.brackets_output
    refine ⟨before, inner, after, _, rfl, hplain, ?_, hname⟩
    rw [substituteFrom_eq_ok.mpr hinner, ← hbefore.contains_comment, Bool.false_or]
    rfl
  · rintro ⟨before, inner, after, name, rfl, hplain, hrewrite, hname⟩
    cases hsub : substituteFrom constants 0 inner with
    | error e => simp [hsub, Except.map] at hrewrite
    | ok inner' =>
      have hinner := substituteFrom_eq_ok.mp hsub
      simp only [hsub, Except.map, Except.ok.injEq] at hrewrite
      have hbracket : ∀ d : Char, d ≠ '@' → isPlaceholderChar d = false → d ∉ inner' := by
        intro d hd hchar hmem
        apply not_mem_of_isPlaceholderName hname hchar
        rw [← hrewrite, mem_unmark hd]
        exact hmem
      obtain ⟨p, q, rfl, hp⟩ := h.brackets_input hplain hinner (hbracket '[' (by decide) (by decide))
        (hbracket ']' (by decide) (by decide))
      have hpline : '\n' ∉ p := fun hmem => hmid (List.mem_append_left _ hmem)
      have hiline : '\n' ∉ inner' := hbracket '\n' (by decide) (by decide)
      refine ⟨unmark false p, name, unmark (before.contains '#' || inner'.contains '#') q, ?_, hname⟩
      rw [unmark_split hpline (by rfl), Bool.false_or, hp.contains_comment,
        unmark_kept (by decide) (by decide) (by decide), unmark_split hiline (by rfl), hrewrite,
        unmark_kept (by decide) (by decide) (by decide)]

private theorem Substitutes.forall_lines {P Q : List Char → Prop}
    (hrewrite : ∀ line mid, '\n' ∉ line → Substitutes constants line mid → (P (unmark false mid) ↔ Q line))
    (h : Substitutes constants cs us) :
    (∀ l ∈ Text.lines (unmark false us), P l) ↔ ∀ line ∈ Text.lines cs, Q line := by
  have hall : ∀ {lines mids : List (List Char)}, List.Forall₂ (Substitutes constants) lines mids →
      (∀ line ∈ lines, '\n' ∉ line) →
      ((∀ l ∈ mids.map (unmark false), P l) ↔ ∀ line ∈ lines, Q line) := by
    intro lines mids hlines
    induction hlines with
    | nil => simp
    | cons hfirst _ ih =>
      intro hfree
      rw [List.forall_mem_cons] at hfree
      rw [List.map_cons, List.forall_mem_cons, List.forall_mem_cons, ih hfree.2,
        hrewrite _ _ hfree.1 hfirst]
  rw [lines_unmark]
  exact hall h.lines fun line hline => Text.newline_not_mem hline

theorem Section.forall_lines {sections : List Section} {Q : List Char → Prop} (hempty : Q []) :
    (∀ line ∈ Text.lines (Section.chars sections), Q line) ↔
      ∀ s ∈ sections, ∀ line ∈ Text.lines s.text.toList, Q line := by
  constructor
  · intro h s hs line hline
    by_cases hne : line = []
    · exact hne ▸ hempty
    · exact h line ((Section.lines_chars sections line hne).mpr ⟨s, hs, hline⟩)
  · intro h line hline
    by_cases hne : line = []
    · exact hne ▸ hempty
    · obtain ⟨s, hs, hsline⟩ := (Section.lines_chars sections line hne).mp hline
      exact h s hs line hsline

private theorem references_eq_nil_iff {text : String} :
    references text = [] ↔ ∀ l ∈ Text.lines text.toList, markers false l = [] := by
  have hdups : references text = [] ↔ markers false text.toList = [] := by
    rw [references]
    cases markers false text.toList with
    | nil => simp
    | cons name names => simp [List.eraseDups_cons]
  rw [hdups, markers_lines, List.flatMap_eq_nil_iff]

theorem substitute_eq_ok_iff {text result : String} :
    substitute constants text = .ok result ↔ Substitutes constants text.toList result.toList := by
  rw [substitute, bind_eq_ok, ← substituteFrom_eq_ok]
  constructor
  · rintro ⟨us, hus, htext⟩
    rw [hus, ← pure_eq_ok.mp htext, String.toList_ofList]
  · intro h
    exact ⟨result.toList, h, by rw [String.ofList_toList]; rfl⟩

private theorem substitute_self_iff {text : String} :
    substitute constants text = .ok text ↔ Substitutes constants text.toList text.toList :=
  substitute_eq_ok_iff

/-- What is left to resolve in an image: it refers to a name exactly if some line of its sections has a
sigil before a marker, and substituting once more changes nothing exactly if no line has a latent
placeholder. -/
theorem link_resolved_iff {files : Files} {dirs : List String} {constants : Constants} {main : String}
    {units requested : List String} {image : Image}
    (h : link files dirs constants main units requested = .ok image) :
    ∃ c, closureOf (.ofUnits files dirs units requested) (⟨"main unit", main⟩ :: unitSections units) =
        .ok c ∧
      (substitute constants (Section.joined (c.sections main units))).map stripMarkers =
        .ok image.text ∧
      (references image.text = [] ↔
        ∀ s ∈ c.sections main units, ∀ line ∈ Text.lines s.text.toList, ¬ DoubledSigil line) ∧
      (substitute constants image.text = .ok image.text ↔
        ∀ s ∈ c.sections main units, ∀ line ∈ Text.lines s.text.toList,
          ¬ LatentPlaceholder constants line) := by
  obtain ⟨c, cs, hclosure, _, hcs, rfl⟩ := link_ok h
  have hsub := substituteFrom_eq_ok.mp hcs
  refine ⟨c, hclosure, substitute_joined hcs, ?_, ?_⟩
  · have hempty : ¬ DoubledSigil [] := by
      rintro ⟨before, after, htext, _⟩
      simp at htext
    rw [← Section.forall_lines hempty, ← hsub.forall_lines (P := fun l => markers false l = [])]
    · rw [references_eq_nil_iff, String.toList_ofList]
    · intro line mid hline hmid
      have hfree : '\n' ∉ mid := by rwa [hmid.mem_iff (by decide) (by decide) (by decide) (by decide)]
      rw [markers_unmark hfree, hmid.doubledSigil_iff]
  · have hempty : ¬ LatentPlaceholder constants [] := by
      rintro ⟨before, inner, after, name, htext, _⟩
      simp at htext
    rw [← Section.forall_lines hempty, ← hsub.forall_lines (P := fun l => Substitutes constants l l)]
    · rw [substitute_self_iff, substitutes_self_lines, String.toList_ofList]
    · intro line mid hline hmid
      rw [substitutes_self_iff, hmid.hasPlaceholder_iff hline]

theorem link_resolved_cyclic : ∃ image,
    link cyclicLibraries [""] .standard "@even [STACK_TOP]" [] ["even", "odd"] = .ok image ∧
    references image.text = [] ∧
    ∃ c, closureOf (.ofUnits cyclicLibraries [""] [] ["even", "odd"])
        (⟨"main unit", "@even [STACK_TOP]"⟩ :: unitSections []) = .ok c ∧
      (substitute .standard (Section.joined (c.sections "@even [STACK_TOP]" []))).map stripMarkers =
        .ok image.text ∧
      (references image.text = [] ↔ ∀ s ∈ c.sections "@even [STACK_TOP]" [],
        ∀ line ∈ Text.lines s.text.toList, ¬ DoubledSigil line) ∧
      (substitute .standard image.text = .ok image.text ↔ ∀ s ∈ c.sections "@even [STACK_TOP]" [],
        ∀ line ∈ Text.lines s.text.toList, ¬ LatentPlaceholder .standard line) := by
  obtain ⟨image, hlink, _, hreferences⟩ : ∃ image,
      link cyclicLibraries [""] .standard "@even [STACK_TOP]" [] ["even", "odd"] = .ok image ∧ _ :=
    exists_link_cyclicLibraries (by simp [cyclicUses])
  exact ⟨image, hlink, hreferences, link_resolved_iff hlink⟩

theorem link_not_resolved : ∃ image,
    link (textFiles []) [] .standard "@@exit [A[STACK_TOP]]" [] [] = .ok image ∧
    references image.text ≠ [] ∧ substitute .standard image.text ≠ .ok image.text := by
  have hrun : ∃ image, link (textFiles []) [] .standard "@@exit [A[STACK_TOP]]" [] [] = .ok image ∧
      (references image.text = ["exit"] ∧
        (substituteFrom .standard 0 image.text.toList).toOption = none) :=
    exists_link (P := fun cs _ => (markers false cs).eraseDups = ["exit"] ∧
      (substituteFrom .standard 0 cs).toOption = none) (by decide +kernel)
  obtain ⟨image, hlink, hreferences, hsubstitute⟩ := hrun
  refine ⟨image, hlink, by simp [hreferences], ?_⟩
  intro heq
  rw [substitute_self_iff, ← substituteFrom_eq_ok] at heq
  simp [heq, Except.toOption] at hsubstitute

end WordLang.Link
