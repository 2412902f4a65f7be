import WordLang.CompileError
import WordLang.Instruction

/-!
# Function signatures

What a unit knows about the functions it can call: those it defines, those it declares as external, and
the builtin ones.
-/

namespace WordLang

/-- The label of the program's entry, which no function may have. -/
def entryLabel : String :=
  "start"

/-- A function that can be called. It is `custom` if the unit itself defines it. -/
structure Signature where
  name : String
  params : List String
  custom : Bool
deriving DecidableEq

namespace Signature

def arity (sig : Signature) : Nat :=
  sig.params.length

def callee (sig : Signature) : Callee :=
  if sig.custom then .internal sig.name else .external sig.name

end Signature

/-- The functions that can be called, no two of one name. -/
structure Signatures where
  entries : List Signature := []

namespace Signatures

def find? (sigs : Signatures) (name : String) : Option Signature :=
  sigs.entries.find? fun sig => sig.name == name

def builtin : Signatures :=
  ⟨[⟨"print", ["value"], false⟩, ⟨"putc", ["ch"], false⟩, ⟨"exit", ["code"], false⟩]⟩

/-- Adds a function, which must have a new name and no more parameters than registers carry. -/
def declare (sigs : Signatures) (sig : Signature) (pos : Option Nat) : Except CompileError Signatures :=
  if sig.name = entryLabel then .error (.reservedName sig.name pos)
  else if (sigs.find? sig.name).isSome then .error (.duplicate sig.name pos)
  else if Register.arguments.length < sig.arity then
    .error (.tooManyParameters sig.name sig.arity pos)
  else .ok ⟨sig :: sigs.entries⟩

def lookup (sigs : Signatures) (name : String) (pos : Option Nat) : Except CompileError Signature :=
  match sigs.find? name with
  | some sig => .ok sig
  | none => .error (.unknownFunction name pos)

end Signatures

end WordLang
