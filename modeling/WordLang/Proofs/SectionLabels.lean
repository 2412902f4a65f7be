import WordLang.Link.Image

/-!
# The check for labels defined twice

Sections are checked in order, each against those before it. Sections that share no label with the ones to be
checked do not matter, and where no two sections share a label the check passes.
-/

namespace WordLang.Link.Section

variable {earlier before rest : List (String × List String)} {label : String}

private theorem owner?_append (hclear : ∀ entry ∈ before, label ∉ entry.2) :
    owner? (before ++ earlier) label = owner? earlier label := by
  have hnone : before.find? (fun entry => entry.2.contains label) = none := by
    apply List.find?_eq_none.mpr
    intro entry hentry
    simpa using hclear entry hentry
  rw [owner?, owner?, List.find?_append, hnone, Option.none_or]

theorem checkFrom_append (earlier xs ys : List (String × List String)) :
    checkFrom earlier (xs ++ ys) = (checkFrom earlier xs >>= fun _ => checkFrom (earlier ++ xs) ys) := by
  induction xs generalizing earlier with
  | nil => rw [List.nil_append, List.append_nil]; rfl
  | cons entry xs ih =>
    obtain ⟨origin, labels⟩ := entry
    rw [List.cons_append, checkFrom, checkFrom]
    split
    · rfl
    · rw [ih, List.append_assoc, List.singleton_append]

theorem checkFrom_clear (hclear : ∀ entry ∈ before, ∀ s ∈ rest, ∀ label ∈ s.2, label ∉ entry.2) :
    checkFrom (before ++ earlier) rest = checkFrom earlier rest := by
  induction rest generalizing earlier with
  | nil => rfl
  | cons s rest ih =>
    obtain ⟨origin, labels⟩ := s
    have howner : ∀ label ∈ labels, owner? (before ++ earlier) label = owner? earlier label := by
      intro label hlabel
      exact owner?_append fun entry hentry => hclear entry hentry _ List.mem_cons_self label hlabel
    have hfilter : (labels.filter fun label => (owner? (before ++ earlier) label).isSome) =
        labels.filter fun label => (owner? earlier label).isSome := by
      apply List.filter_congr
      intro label hlabel
      rw [howner label hlabel]
    rw [checkFrom, checkFrom, hfilter]
    split
    · rename_i label hleast
      rw [howner label (List.mem_filter.mp (Text.least?_mem hleast)).1]
    · rw [List.append_assoc]
      exact ih fun entry hentry s hs => hclear entry hentry s (List.mem_cons_of_mem _ hs)

theorem checkFrom_eq_ok (h : rest.Pairwise fun a b => ∀ label ∈ b.2, label ∉ a.2) :
    checkFrom [] rest = .ok () := by
  induction rest with
  | nil => rfl
  | cons s rest ih =>
    obtain ⟨hs, hrest⟩ := List.pairwise_cons.mp h
    have hnone : (s.2.filter fun label => (owner? [] label).isSome) = [] :=
      List.filter_eq_nil_iff.mpr fun _ _ => Bool.false_ne_true
    have hdrop : checkFrom ([s] ++ []) rest = checkFrom [] rest := by
      apply checkFrom_clear
      intro entry hentry other hother
      rw [List.mem_singleton.mp hentry]
      exact hs other hother
    rw [checkFrom, hnone]
    exact hdrop.trans (ih hrest)

theorem checkLabels_pair (first second : Section) :
    checkLabels [first, second] =
      match Text.least? ((definedLabels second.text).filter fun label =>
        decide (label ∈ definedLabels first.text)) with
      | some label => .error (.duplicateLabel label first.origin second.origin)
      | none => .ok () := by
  have howner : ∀ label, owner? [(first.origin, definedLabels first.text)] label =
      if label ∈ definedLabels first.text then some first.origin else none := by
    intro label
    by_cases hlabel : label ∈ definedLabels first.text <;> simp [owner?, hlabel]
  have hfilter : ((definedLabels second.text).filter fun label =>
      (owner? [(first.origin, definedLabels first.text)] label).isSome) =
      (definedLabels second.text).filter fun label => decide (label ∈ definedLabels first.text) := by
    apply List.filter_congr
    intro label _
    by_cases hlabel : label ∈ definedLabels first.text <;> simp [howner, hlabel]
  have hfirst : checkLabels [first, second] =
      checkFrom [(first.origin, definedLabels first.text)] [(second.origin, definedLabels second.text)] := by
    rw [checkLabels, List.map_cons, ← List.singleton_append, checkFrom_append,
      checkFrom_eq_ok (List.pairwise_singleton _ _)]
    rfl
  rw [hfirst, checkFrom, hfilter]
  cases hleast : Text.least? ((definedLabels second.text).filter fun label =>
    decide (label ∈ definedLabels first.text)) with
  | none => rfl
  | some label =>
    have hmem : label ∈ definedLabels first.text := by
      simpa using (List.mem_filter.mp (Text.least?_mem hleast)).2
    simp only [howner, if_pos hmem, Option.getD_some]

end WordLang.Link.Section
