import WordLang.Link.LinkError

/-!
# Placeholders

A placeholder is a name of upper-case letters, digits and underscores in brackets, such as `[STACK_TOP]`.
It stands for a constant, in decimal. Other bracketed text is left alone.
-/

namespace WordLang.Link

structure Constants where
  entries : List (String × Int)

namespace Constants

/-- The constants that a program has without being given any: the address of the screen device and the
top of the stack. -/
def standard : Constants :=
  ⟨[("SCREEN_PTR", 61440), ("STACK_TOP", 57344)]⟩

def get? (constants : Constants) (name : String) : Option Int :=
  constants.entries.lookup name

/-- Defines a constant, in place of an earlier one of the same name. -/
def insert (constants : Constants) (name : String) (value : Int) : Constants :=
  ⟨(name, value) :: constants.entries.filter fun entry => entry.1 != name⟩

end Constants

def isPlaceholderStart (c : Char) : Bool :=
  c.isUpper || c == '_'

def isPlaceholderChar (c : Char) : Bool :=
  c.isUpper || c.isDigit || c == '_'

def isPlaceholderName : List Char → Bool
  | [] => false
  | c :: cs => isPlaceholderStart c && cs.all isPlaceholderChar

/-- The placeholder whose opening bracket stands before the given text. -/
def placeholder? (cs : List Char) : Option (List Char) :=
  let name := cs.takeWhile fun c => c != ']' && c != '[' && c != '\n'
  match cs.drop name.length with
  | ']' :: _ => if isPlaceholderName name then some name else none
  | _ => none

/-- Replaces the placeholders of a text whose first `skip` characters belong to one already replaced. -/
def substituteFrom (constants : Constants) (skip : Nat) : List Char → Except LinkError (List Char)
  | [] => .ok []
  | c :: cs =>
    if 0 < skip then substituteFrom constants (skip - 1) cs
    else if c = '[' then
      match placeholder? cs with
      | some name =>
        match constants.get? (String.ofList name) with
        | some value => do
          return (toString value).toList ++ (← substituteFrom constants (name.length + 1) cs)
        | none => .error (.unresolvedPlaceholder (String.ofList name))
      | none => do return c :: (← substituteFrom constants 0 cs)
    else do return c :: (← substituteFrom constants 0 cs)

def substitute (constants : Constants) (text : String) : Except LinkError String := do
  return String.ofList (← substituteFrom constants 0 text.toList)

end WordLang.Link
