import WordLang.Proofs.Residue

/-!
# Rewriting sections

The text of an image is rewritten as a whole, after its sections have been joined. Each section starts on a new
line, and neither a comment nor a marker nor a placeholder goes past its line. So the result is the same as if
the sections were rewritten one by one and joined then, and a fault is that of the first section with one.
-/

namespace WordLang.Link

private theorem map_eq_error {ε α β : Type} {x : Except ε α} {f : α → β} {e : ε} :
    x.map f = .error e ↔ x = .error e := by
  cases x <;> simp [Except.map]

private theorem exists_map_eq_ok {ε α β : Type} {x : Except ε α} {f : α → β} :
    (∃ b, x.map f = .ok b) ↔ ∃ a, x = .ok a := by
  cases x <;> simp [Except.map]

private theorem mapM_eq_error {ε α β : Type} {f : α → Except ε β} {xs : List α} {e : ε} :
    xs.mapM f = .error e ↔
      ∃ before x after, xs = before ++ x :: after ∧ (∀ y ∈ before, ∃ b, f y = .ok b) ∧ f x = .error e := by
  induction xs with
  | nil => simp [pure, Except.pure]
  | cons x xs ih =>
    have hcons : (∃ before y after, x :: xs = before ++ y :: after ∧ (∀ z ∈ before, ∃ b, f z = .ok b) ∧
        f y = .error e) ↔ f x = .error e ∨ (∃ b, f x = .ok b) ∧ xs.mapM f = .error e := by
      rw [ih]
      constructor
      · rintro ⟨before, y, after, hsplit, hbefore, hy⟩
        cases before with
        | nil =>
          cases hsplit
          exact .inl hy
        | cons z before =>
          cases hsplit
          rw [List.forall_mem_cons] at hbefore
          exact .inr ⟨hbefore.1, before, y, after, rfl, hbefore.2, hy⟩
      · rintro (hx | ⟨hx, before, y, after, rfl, hbefore, hy⟩)
        · exact ⟨[], x, xs, rfl, by simp, hx⟩
        · exact ⟨x :: before, y, after, rfl, List.forall_mem_cons.mpr ⟨hx, hbefore⟩, hy⟩
    rw [hcons, List.mapM_cons]
    cases f x with
    | error e' => simp [bind, Except.bind]
    | ok b => cases xs.mapM f <;> simp [bind, Except.bind, pure, Except.pure]

variable {constants : Constants} {cs us xs ys : List Char}

private theorem unmark_append_newline (k : Bool) (xs ys : List Char) :
    unmark k (xs ++ '\n' :: ys) = unmark k xs ++ '\n' :: unmark false ys := by
  have hstart : ∀ rest : List Char, startsName ('\n' :: rest) = false := fun _ => rfl
  induction xs generalizing k with
  | nil => cases k <;> rfl
  | cons c xs ih =>
    simp only [List.cons_append, unmark, startsName_append_of_eq_false (hstart ys), ih]
    split
    · rfl
    · split
      · rfl
      · split <;> rfl

def rewriteChars (constants : Constants) (cs : List Char) : Except LinkError (List Char) :=
  (substituteFrom constants 0 cs).map (unmark false)

private theorem map_stripMarkers_substitute (constants : Constants) (text : String) :
    (substitute constants text).map stripMarkers =
      (rewriteChars constants text.toList).map String.ofList := by
  unfold substitute rewriteChars
  cases substituteFrom constants 0 text.toList with
  | error e => rfl
  | ok us => simp [bind, Except.bind, pure, Except.pure, Except.map, stripMarkers]

private theorem rewriteChars_append_newline (constants : Constants) (xs ys : List Char) :
    rewriteChars constants (xs ++ '\n' :: ys) = (do
      let us ← rewriteChars constants xs
      let vs ← rewriteChars constants ys
      return us ++ '\n' :: vs) := by
  unfold rewriteChars
  rw [substituteFrom_append_newline]
  cases substituteFrom constants 0 xs with
  | error e => rfl
  | ok us =>
    cases substituteFrom constants 0 ys with
    | error e => rfl
    | ok vs => exact congrArg Except.ok (unmark_append_newline false us vs)

namespace Section

/-- A text that ends inside of a line. -/
def Unfinished (text : List Char) : Prop :=
  ∃ c ∈ text.getLast?, c ≠ '\n'

private theorem unfinished_append : Unfinished (xs ++ ys) ↔ Unfinished ys ∨ ys = [] ∧ Unfinished xs := by
  unfold Unfinished
  rcases List.eq_nil_or_concat ys with rfl | ⟨start, c, rfl⟩
  · simp
  · simp

private theorem unfinished_of_not_mem (hne : xs ≠ []) (hline : '\n' ∉ xs) : Unfinished xs := by
  refine ⟨xs.getLast hne, List.getLast?_eq_some_getLast hne, ?_⟩
  intro heq
  exact hline (heq ▸ List.getLast_mem hne)

private theorem append_of_unfinished (h : Unfinished xs) : append xs ys = xs ++ '\n' :: ys := by
  rcases h with ⟨c, hc, hline⟩
  unfold append
  rw [hc]
  split
  · rename_i heq
    cases heq
  · rename_i heq
    cases heq
    exact absurd rfl hline
  · rfl

private theorem append_nil_left : append [] ys = ys := rfl

private theorem append_newline : append (xs ++ ['\n']) ys = xs ++ '\n' :: ys := by
  simp [append]

private theorem eq_nil_or_newline (h : ¬ Unfinished xs) : xs = [] ∨ ∃ start, xs = start ++ ['\n'] := by
  rcases List.eq_nil_or_concat xs with hnil | ⟨start, c, rfl⟩
  · exact .inl hnil
  · right
    by_cases hc : c = '\n'
    · exact ⟨start, by rw [hc, List.concat_eq_append]⟩
    · exact absurd ⟨c, by simp, hc⟩ h

end Section

private theorem Substitutes.eq_nil_iff (h : Substitutes constants cs us) : us = [] ↔ cs = [] := by
  constructor
  · rintro rfl
    exact h.eq_nil
  · rintro rfl
    exact h.nil_inv

private theorem Substitutes.unfinished_iff (h : Substitutes constants cs us) :
    Section.Unfinished us ↔ Section.Unfinished cs := by
  induction h with
  | nil => exact Iff.rfl
  | @value name cs us value hname hvalue hrest ih =>
    have hbracket : Section.Unfinished ('[' :: (name ++ [']'])) := by
      apply Section.unfinished_of_not_mem (List.cons_ne_nil _ _)
      simp [not_mem_of_isPlaceholderName (c := '\n') hname (by decide)]
    have hdigits : Section.Unfinished (toString value).toList :=
      Section.unfinished_of_not_mem (toString_toList_ne_nil value) (not_mem_toString (by decide) (by decide) value)
    have hsplit : '[' :: (name ++ ']' :: cs) = '[' :: (name ++ [']']) ++ cs := by simp
    rw [hsplit, Section.unfinished_append, Section.unfinished_append, ih, hrest.eq_nil_iff]
    simp only [hbracket, hdigits]
  | @char c cs us hc hrest ih =>
    rw [← List.singleton_append, ← List.singleton_append (l := cs), Section.unfinished_append,
      Section.unfinished_append, ih, hrest.eq_nil_iff]

private theorem getLast?_unmark (k : Bool) (cs : List Char) : (unmark k cs).getLast? = cs.getLast? := by
  induction cs generalizing k with
  | nil => rfl
  | cons c cs ih =>
    unfold unmark
    split
    · rw [List.getLast?_cons, List.getLast?_cons, ih]
    · split
      · rw [List.getLast?_cons, List.getLast?_cons, ih]
      · split
        · rename_i hsigil
          cases cs with
          | nil => simp [startsName] at hsigil
          | cons d cs => rw [ih, List.getLast?_cons_cons]
        · rw [List.getLast?_cons, List.getLast?_cons, ih]

namespace Section

private theorem unfinished_of_rewriteChars (h : rewriteChars constants cs = .ok us) :
    Unfinished us ↔ Unfinished cs := by
  unfold rewriteChars at h
  cases hsub : substituteFrom constants 0 cs with
  | error e => simp [hsub, Except.map] at h
  | ok vs =>
    rw [hsub] at h
    cases h
    rw [← (substituteFrom_eq_ok.mp hsub).unfinished_iff, Unfinished, Unfinished, getLast?_unmark]

private theorem rewriteChars_append (constants : Constants) (text part : List Char) :
    rewriteChars constants (append text part) = (do
      let us ← rewriteChars constants text
      let vs ← rewriteChars constants part
      return append us vs) := by
  by_cases hopen : Unfinished text
  · rw [append_of_unfinished hopen, rewriteChars_append_newline]
    cases hus : rewriteChars constants text with
    | error e => rfl
    | ok us =>
      have hkept : Unfinished us := (unfinished_of_rewriteChars hus).mpr hopen
      cases rewriteChars constants part with
      | error e => rfl
      | ok vs => exact congrArg Except.ok (append_of_unfinished hkept).symm
  · rcases eq_nil_or_newline hopen with rfl | ⟨start, rfl⟩
    · rw [append_nil_left]
      cases rewriteChars constants part <;> rfl
    · rw [append_newline, rewriteChars_append_newline, rewriteChars_append_newline]
      cases rewriteChars constants start with
      | error e => rfl
      | ok us =>
        cases rewriteChars constants part with
        | error e => rfl
        | ok vs => exact congrArg Except.ok append_newline.symm

def rewrite (constants : Constants) (s : Section) : Except LinkError Section :=
  ((substitute constants s.text).map stripMarkers).map fun text => { s with text }

private theorem rewrite_eq (constants : Constants) (s : Section) :
    s.rewrite constants =
      (rewriteChars constants s.text.toList).map fun cs => { s with text := String.ofList cs } := by
  unfold rewrite
  rw [map_stripMarkers_substitute]
  cases rewriteChars constants s.text.toList <;> rfl

private theorem rewriteChars_foldl (constants : Constants) (sections : List Section) (text : List Char) :
    rewriteChars constants (sections.foldl (fun text s => append text s.text.toList) text) = (do
      let us ← rewriteChars constants text
      let rewritten ← sections.mapM (rewrite constants)
      return rewritten.foldl (fun text s => append text s.text.toList) us) := by
  induction sections generalizing text with
  | nil =>
    rw [List.foldl_nil, List.mapM_nil]
    cases rewriteChars constants text <;> rfl
  | cons s sections ih =>
    rw [List.foldl_cons, ih, rewriteChars_append, List.mapM_cons, rewrite_eq]
    cases rewriteChars constants text with
    | error e => rfl
    | ok us =>
      cases rewriteChars constants s.text.toList with
      | error e => rfl
      | ok vs =>
        cases sections.mapM (rewrite constants) with
        | error e => rfl
        | ok rewritten => simp [bind, Except.bind, pure, Except.pure, Except.map]

/-- Sections are rewritten independently. Rewriting the joined text gives the joined texts of the rewritten
sections, or the error of the first section that cannot be rewritten. -/
theorem rewrite_joined (constants : Constants) (sections : List Section) :
    (substitute constants (joined sections)).map stripMarkers =
        (sections.mapM (rewrite constants)).map joined ∧
      ∀ e, substitute constants (joined sections) = .error e ↔
        ∃ before s after, sections = before ++ s :: after ∧
          (∀ earlier ∈ before, ∃ text, substitute constants earlier.text = .ok text) ∧
          substitute constants s.text = .error e := by
  have hjoined : (substitute constants (joined sections)).map stripMarkers =
      (sections.mapM (rewrite constants)).map joined := by
    rw [map_stripMarkers_substitute, joined, String.toList_ofList, rewriteChars_foldl]
    cases sections.mapM (rewrite constants) <;> rfl
  refine ⟨hjoined, ?_⟩
  intro e
  rw [← map_eq_error (f := stripMarkers), hjoined, map_eq_error, mapM_eq_error]
  simp only [rewrite, map_eq_error, exists_map_eq_ok]

end Section

end WordLang.Link
