import WordLang.Text.Blank
import WordLang.Text.Name

/-!
# Label lines

A line defines a label if, apart from blanks around it and a comment after it, it is a name followed by a
colon. The name must not start with a digit.
-/

namespace WordLang.Link

/-- Whether a label can have this name. -/
def isLabelName : List Char → Bool
  | [] => false
  | c :: cs => !c.isDigit && (c :: cs).all Text.isNameChar

/-- The label that a line defines. -/
def lineLabel? (line : List Char) : Option String :=
  match (Text.trim (line.takeWhile (· != '#'))).reverse with
  | ':' :: name => if isLabelName name.reverse then some (String.ofList name.reverse) else none
  | _ => none

/-- The labels that a text defines, in order. -/
def definedLabels (text : String) : List String :=
  (Text.lines text.toList).filterMap lineLabel?

end WordLang.Link
