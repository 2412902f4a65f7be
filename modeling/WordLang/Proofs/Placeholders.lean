import WordLang.Proofs.Residue

/-!
# Placeholders that substitution leaves

Substitution goes over a text once, and what it writes is not read again. So a placeholder is left where
brackets stand around text that becomes the name of one. This needs brackets inside of brackets, and only then
does substituting once more change the text or fail.
-/

namespace WordLang.Link

variable {constants : Constants} {cs us : List Char}

/-- Brackets around text that is not the name of a placeholder, but that substitution turns into one. -/
def NestedPlaceholder (constants : Constants) (cs : List Char) : Prop :=
  ∃ before inner after name, cs = before ++ '[' :: (inner ++ ']' :: after) ∧
    isPlaceholderName inner = false ∧ substituteFrom constants 0 inner = .ok name ∧
    isPlaceholderName name = true

private theorem Substitutes.leaves_placeholder_iff (h : Substitutes constants cs us) :
    HasPlaceholder us ↔ NestedPlaceholder constants cs := by
  constructor
  · rintro ⟨p, name, q, rfl, hname⟩
    rcases h.brackets_output with ⟨before, inner, after, rfl, hplain, _, hinner⟩
    exact ⟨before, inner, after, name, rfl, hplain, substituteFrom_eq_ok.mpr hinner, hname⟩
  · rintro ⟨before, inner, after, name, rfl, hplain, hinner, hname⟩
    have hopen : '[' ∉ name := not_mem_of_isPlaceholderName hname (by decide)
    have hclose : ']' ∉ name := not_mem_of_isPlaceholderName hname (by decide)
    rcases h.brackets_input hplain (substituteFrom_eq_ok.mp hinner) hopen hclose with ⟨p, q, rfl, _⟩
    exact ⟨p, name, q, rfl, hname⟩

/-- Substituting twice is substituting once, exactly if the text has no nested placeholder. -/
theorem substitute_idempotent_iff {constants : Constants} {text result : String}
    (h : substitute constants text = .ok result) :
    substitute constants result = .ok result ↔ ¬ NestedPlaceholder constants text.toList := by
  rw [substitute_eq_ok_iff] at h ⊢
  rw [substitutes_self_iff, h.leaves_placeholder_iff]

theorem substitute_idempotent_flat :
    substitute .standard "li r1, [SCREEN_PTR] # [note]" = .ok "li r1, 61440 # [note]" ∧
    substitute .standard "li r1, 61440 # [note]" = .ok "li r1, 61440 # [note]" ∧
    ¬ NestedPlaceholder .standard "li r1, [SCREEN_PTR] # [note]".toList := by
  have hfirst : substitute .standard "li r1, [SCREEN_PTR] # [note]" = .ok "li r1, 61440 # [note]" :=
    substitute_eq_ok_iff.mpr (substituteFrom_eq_ok.mp (by decide))
  have hsecond : substitute .standard "li r1, 61440 # [note]" = .ok "li r1, 61440 # [note]" :=
    substitute_eq_ok_iff.mpr (substituteFrom_eq_ok.mp (by decide))
  exact ⟨hfirst, hsecond, (substitute_idempotent_iff hfirst).mp hsecond⟩

/-- The constant in the inner brackets completes the name in the outer ones, which names no constant. -/
theorem substitute_not_idempotent :
    substitute .standard "[A[STACK_TOP]]" = .ok "[A57344]" ∧
    substitute .standard "[A57344]" = .error (.unresolvedPlaceholder "A57344") :=
  ⟨substitute_eq_ok_iff.mpr (substituteFrom_eq_ok.mp (by decide)), by decide⟩

end WordLang.Link
