/-!
# Names and lines

The characters of names, the order of names, and the lines of a text.
-/

namespace WordLang.Text

/-- ASCII letters, digits and the underscore. -/
def isNameChar (c : Char) : Bool :=
  c.isAlphanum || c == '_'

/-- The least of some names, in the order of their characters. -/
def least? : List String → Option String
  | [] => none
  | name :: names =>
    match least? names with
    | some other => if other < name then some other else some name
    | none => some name

theorem least?_mem {names : List String} {name : String} (h : least? names = some name) : name ∈ names := by
  induction names generalizing name with
  | nil => simp [least?] at h
  | cons first rest ih =>
    unfold least? at h
    split at h
    · rename_i other hother
      split at h
      · rw [← Option.some.inj h]
        exact List.mem_cons_of_mem _ (ih hother)
      · rw [← Option.some.inj h]
        exact List.mem_cons_self
    · rw [← Option.some.inj h]
      exact List.mem_cons_self

theorem least?_eq_none {names : List String} (h : least? names = none) : names = [] := by
  cases names with
  | nil => rfl
  | cons first rest =>
    unfold least? at h
    split at h
    · split at h <;> simp at h
    · simp at h

/-- The lines of a text, without the newlines between them. -/
def lines : List Char → List (List Char)
  | [] => [[]]
  | c :: cs =>
    if c = '\n' then [] :: lines cs
    else
      match lines cs with
      | line :: rest => (c :: line) :: rest
      | [] => [[c]]

end WordLang.Text
