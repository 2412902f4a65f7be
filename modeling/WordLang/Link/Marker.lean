import WordLang.Text.Name

/-!
# Reference markers

Assembly refers to a label of another module by a marker: `@`, directly followed by a letter and more
characters of a name. From `#` to the end of the line is a comment, which holds no markers.
-/

namespace WordLang.Link

/-- Whether a name that a marker can carry starts here. -/
def startsName : List Char → Bool
  | [] => false
  | c :: _ => c.isAlpha

/-- The names of all markers, in order. `comment` tells whether the text starts inside a comment. -/
def markers (comment : Bool) : List Char → List String
  | [] => []
  | c :: cs =>
    if comment then markers (c != '\n') cs
    else if c = '#' then markers true cs
    else if c = '@' ∧ startsName cs then
      String.ofList (cs.takeWhile Text.isNameChar) :: markers false cs
    else markers false cs

/-- The names that a text refers to, in the order of first use. -/
def references (text : String) : List String :=
  (markers false text.toList).eraseDups

/-- Drops the `@` of every marker. -/
def unmark (comment : Bool) : List Char → List Char
  | [] => []
  | c :: cs =>
    if comment then c :: unmark (c != '\n') cs
    else if c = '#' then c :: unmark true cs
    else if c = '@' ∧ startsName cs then unmark false cs
    else c :: unmark false cs

/-- A text with plain names in place of markers. -/
def stripMarkers (text : String) : String :=
  String.ofList (unmark false text.toList)

end WordLang.Link
