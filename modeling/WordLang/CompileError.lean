import WordLang.Register.Pool

/-!
# Compile errors

Why a program cannot be compiled. Faults of the program carry the offset of the name they are about.
-/

namespace WordLang

inductive CompileError where
  /-- The register pool refused a request. -/
  | pool (cause : PoolError)
  /-- The scope, or the unit, declares the name already. -/
  | duplicate (name : String) (pos : Option Nat)
  /-- The name is the label of the program's entry. -/
  | reservedName (name : String) (pos : Option Nat)
  | unknownFunction (name : String) (pos : Option Nat)
  | unknownVariable (name : String) (pos : Option Nat)
  /-- More parameters than registers carry. -/
  | tooManyParameters (name : String) (count : Nat) (pos : Option Nat)
  | wrongArity (name : String) (expected found : Nat) (pos : Option Nat)
  /-- An array as a whole cannot be assigned to. -/
  | notAssignable (name : String) (pos : Option Nat)
  /-- An operation left the 32 bits of a counter, which stops the compiler at once. -/
  | overflow (operation : String)
deriving DecidableEq

namespace CompileError

def message : CompileError → String
  | pool cause => cause.message
  | duplicate name _ => s!"duplicate declaration of `{name}`"
  | reservedName name _ => s!"`{name}` is reserved for the program entry point"
  | unknownFunction name _ => s!"call to unknown function `{name}`"
  | unknownVariable name _ => s!"use of unknown variable `{name}`"
  | tooManyParameters name count _ =>
    s!"function `{name}` takes {count} parameters, at most 4 are supported"
  | wrongArity name expected found _ =>
    s!"function `{name}` expects {expected} arguments but {found} were given"
  | notAssignable name _ => s!"`{name}` is an array and cannot be assigned to"
  | overflow operation => s!"attempt to {operation} with overflow"

def offset? : CompileError → Option Nat
  | pool _ | overflow _ => none
  | duplicate _ pos | reservedName _ pos | unknownFunction _ pos | unknownVariable _ pos
  | tooManyParameters _ _ pos | wrongArity _ _ _ pos | notAssignable _ pos => pos

end CompileError

end WordLang
