import WordLang.CompileError

/-!
# Counters

The words of a function's frame are counted with signed numbers of 32 bits. Every operation on a counter is
checked, so that a count never wraps around: a function whose frame has more words is not compiled.
-/

namespace WordLang

namespace Counter

/-- The values of a counter. -/
def InRange (n : Int) : Prop :=
  -2147483648 ≤ n ∧ n ≤ 2147483647
deriving Decidable

/-- The result of an operation, if a counter can have it. -/
def check (operation : String) (n : Int) : Except CompileError Int :=
  if InRange n then .ok n else .error (.overflow operation)

end Counter

end WordLang
