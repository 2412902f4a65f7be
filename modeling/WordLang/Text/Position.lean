/-!
# Lines and columns

Offsets count bytes of the UTF-8 text. Lines and columns count from one, and a column counts bytes too.
-/

namespace WordLang.Text

structure Position where
  line : Nat
  column : Nat
deriving DecidableEq

namespace Position

/-- The position `offset` bytes further on in `cs`, or at its end. There is none inside a character. -/
def advance (offset : Nat) (pos : Position) : List Char → Option Position
  | [] => some pos
  | c :: cs =>
    if offset = 0 then some pos
    else if offset < c.utf8Size then none
    else if c = '\n' then advance (offset - c.utf8Size) ⟨pos.line + 1, 1⟩ cs
    else advance (offset - c.utf8Size) ⟨pos.line, pos.column + c.utf8Size⟩ cs

/-- The position of a byte offset; offsets beyond the text stand for its end. -/
def ofOffset (source : String) (offset : Nat) : Option Position :=
  advance offset ⟨1, 1⟩ source.toList

end Position

end WordLang.Text
