import WordLang.CompileError
import WordLang.Text.Name

/-!
# Scopes

Where the variables visible at a point of a function live. Scopes nest; an inner declaration shadows an
outer one, whose value stays where it is.
-/

namespace WordLang

/-- Where a variable lives: in a register, or at a word offset from the frame pointer. The offset of an
array is that of its first element. -/
inductive Storage where
  | register (r : Register)
  | stack (offset : Int) (array : Bool)
deriving DecidableEq

abbrev Scope := List (String × Storage)

namespace Scope

def rebind (scope : Scope) (name : String) (storage : Storage) : Option Scope :=
  match scope with
  | [] => none
  | (declared, old) :: rest =>
    if declared = name then some ((declared, storage) :: rest)
    else (Scope.rebind rest name storage).map ((declared, old) :: ·)

/-- The least name of a variable that lives in a register. -/
def holder? (scope : Scope) (r : Register) : Option String :=
  Text.least? ((scope.filter fun entry => entry.2 = .register r).map (·.1))

end Scope

/-- A declaration: a name and the number of scopes around the one that declares it. -/
structure Binding where
  depth : Nat
  name : String
deriving DecidableEq

/-- The nested scopes at a point: the innermost one, and those around it from the inside out. -/
structure Scopes where
  inner : Scope := []
  outer : List Scope := []

namespace Scopes

def layers (scopes : Scopes) : List Scope :=
  scopes.inner :: scopes.outer

def enter (scopes : Scopes) : Scopes :=
  ⟨[], scopes.layers⟩

def declare (scopes : Scopes) (name : String) (storage : Storage) (pos : Option Nat) :
    Except CompileError Scopes :=
  if (scopes.inner.lookup name).isSome then .error (.duplicate name pos)
  else .ok { scopes with inner := (name, storage) :: scopes.inner }

/-- Where the innermost variable of a name lives. -/
def lookup (scopes : Scopes) (name : String) (pos : Option Nat) : Except CompileError Storage :=
  match scopes.layers.findSome? fun scope => scope.lookup name with
  | some storage => .ok storage
  | none => .error (.unknownVariable name pos)

/-- Moves a variable declared in one of `layers`, shadowed or not. -/
def rebindIn (binding : Binding) (storage : Storage) : List Scope → Option (List Scope)
  | [] => none
  | scope :: outer =>
    if outer.length = binding.depth then (scope.rebind binding.name storage).map (· :: outer)
    else (rebindIn binding storage outer).map (scope :: ·)

def rebind (scopes : Scopes) (binding : Binding) (storage : Storage) : Except CompileError Scopes :=
  match rebindIn binding storage scopes.layers with
  | some (inner :: outer) => .ok ⟨inner, outer⟩
  | _ => .error (.unknownVariable binding.name none)

/-- The innermost declaration in `layers` that lives in a register, the least name first. -/
def holderIn (r : Register) : List Scope → Option Binding
  | [] => none
  | scope :: outer =>
    match scope.holder? r with
    | some name => some ⟨outer.length, name⟩
    | none => holderIn r outer

/-- The innermost declaration that lives in a register, shadowed or not. -/
def holder? (scopes : Scopes) (r : Register) : Option Binding :=
  holderIn r scopes.layers

end Scopes

end WordLang
