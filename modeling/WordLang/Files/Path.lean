/-!
# Paths

Paths are texts with slashes between their components. Slashes and `.` components at the end are of no
account. The last component is a name unless it is `.` or `..`, or there is none; a name has an extension
if it has a dot after its first character.
-/

namespace WordLang.Path

/-- A path inside a directory; an absolute path stays as it is. -/
def join (dir path : String) : String :=
  if path.startsWith "/" || dir.isEmpty then path
  else if dir.endsWith "/" then dir ++ path
  else dir ++ "/" ++ path

/-- Drops slashes and `.` components at the end of a path whose last character comes first. -/
def trimEnd : List Char → List Char
  | '/' :: cs => trimEnd cs
  | '.' :: '/' :: cs => trimEnd cs
  | cs => cs

/-- The name in which a path ends, and what stands before it, both with their last character first. -/
def lastName? (path : String) : Option (List Char × List Char) :=
  let trimmed := trimEnd path.toList.reverse
  let name := trimmed.takeWhile (· != '/')
  if name = [] ∨ name = ['.'] ∨ name = ['.', '.'] then none
  else some (name, trimmed.drop name.length)

/-- Cuts a name into its extension, if it has one, and its stem, all with the last character first. -/
def splitName (name : List Char) : Option (List Char) × List Char :=
  match name.dropWhile (· != '.') with
  | '.' :: c :: stem => (some (name.takeWhile (· != '.')), c :: stem)
  | _ => (none, name)

/-- Cuts the extension off a path: as many characters at its end as the extension has. -/
def withoutExtension (path : String) : String :=
  match lastName? path with
  | none => path
  | some (name, _) =>
    let length := ((splitName name).1.getD []).length
    String.ofList (path.toList.take (path.length - length))

/-- The path with another extension, which replaces what stands after the stem of the name that is left
without the old one. If no name is left, nothing is added. -/
def withExtension (path extension : String) : String :=
  let base := withoutExtension path
  match lastName? base with
  | none => base
  | some (name, before) => String.ofList ((splitName name).2 ++ before).reverse ++ "." ++ extension

end WordLang.Path
