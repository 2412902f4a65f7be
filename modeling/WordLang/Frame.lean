import WordLang.Assembly
import WordLang.Counter
import WordLang.Label
import WordLang.Scope

/-!
# The frame of a function under compilation

A function's local area lies below the frame pointer and is counted before its body is compiled. Words
pushed on top of it are counted while code is emitted, so that each pushed word has a known offset.
Variables in caller-saved registers are pushed around a call and live in the pushed words meanwhile.
-/

namespace WordLang

/-- Registers, variables, layout and code of the function that is being compiled. -/
structure Frame where
  pool : Pool
  scopes : Scopes := {}
  /-- Words of the local area. -/
  localSlots : Int
  /-- Words of the local area given to declarations so far. -/
  usedSlots : Int := 0
  /-- Words pushed on top of the local area. -/
  stackDepth : Int := 0
  labels : LabelSupply := {}
  /-- The label before the epilogue, once some statement jumps to it. -/
  returnLabel : Option String := none
  code : Array Line := #[]

/-- A variable moved out of a register around a call. -/
structure Spill where
  binding : Binding
  register : Register

/-- A step of compilation. A step that fails leaves the frame as it was at the failure. -/
abbrev Emit := EStateM CompileError Frame

namespace Emit

def instruction (i : Instruction) : Emit Unit :=
  modify fun frame => { frame with code := frame.code.push (.code i) }

def block (label : String) : Emit Unit :=
  modify fun frame => { frame with code := frame.code.push (.label label) }

def withPool {α : Type} (operation : Pool → Except PoolError (α × Pool)) : Emit α := do
  match operation (← get).pool with
  | .ok (a, pool) =>
    modify fun frame => { frame with pool }
    return a
  | .error cause => throw (.pool cause)

def allocate (wanted : RegisterClass) : Emit Register :=
  withPool fun pool => pool.allocate wanted

def reserve (r : Register) : Emit Unit :=
  withPool fun pool => (pool.reserve r).map ((), ·)

def free (r : Register) : Emit Unit :=
  withPool fun pool => (pool.free r).map ((), ·)

/-- Checks that a register about to be returned still holds its value. -/
def read (r : Register) : Emit Register :=
  withPool fun pool => (pool.read r).map (·, pool)

def withScopes (operation : Scopes → Except CompileError Scopes) : Emit Unit := do
  match operation (← get).scopes with
  | .ok scopes => modify fun frame => { frame with scopes }
  | .error e => throw e

def declare (name : String) (storage : Storage) (pos : Option Nat) : Emit Unit :=
  withScopes fun scopes => scopes.declare name storage pos

def rebind (binding : Binding) (storage : Storage) : Emit Unit :=
  withScopes fun scopes => scopes.rebind binding storage

def lookup (name : String) (pos : Option Nat) : Emit Storage := do
  match (← get).scopes.lookup name pos with
  | .ok storage => return storage
  | .error e => throw e

/-- Runs a step in a new innermost scope. Afterwards the scopes are again those of before. -/
def inScope (step : Emit Unit) : Emit Unit := do
  let outer := (← get).scopes
  modify fun frame => { frame with scopes := outer.enter }
  step
  modify fun frame => { frame with scopes := outer }

/-- The result of an operation on a counter. -/
def counted (operation : String) (n : Int) : Emit Int :=
  match Counter.check operation n with
  | .ok n => return n
  | .error e => throw e

/-- Claims words of the local area and gives the offset of the lowest one. -/
def claim (size : Int) : Emit Int := do
  let used ← counted "add" ((← get).usedSlots + size)
  modify fun frame => { frame with usedSlots := used }
  counted "negate" (-used)

/-- Pushes a register and gives the offset of the pushed word. -/
def push (r : Register) : Emit Int := do
  instruction (.push r)
  let depth ← counted "add" ((← get).stackDepth + 1)
  modify fun frame => { frame with stackDepth := depth }
  let top ← counted "add" ((← get).localSlots + depth)
  counted "negate" (-top)

def pop (r : Register) : Emit Unit := do
  instruction (.pop r)
  let depth ← counted "subtract" ((← get).stackDepth - 1)
  modify fun frame => { frame with stackDepth := depth }

def freshLabel (kind : String) : Emit String := do
  let (label, labels) := (← get).labels.fresh kind
  modify fun frame => { frame with labels }
  return label

/-- New labels that share one number. -/
def freshLabels (kind : String) (endings : List String) : Emit (List String) := do
  let (names, labels) := (← get).labels.freshGroup kind endings
  modify fun frame => { frame with labels }
  return names

/-- The label before the epilogue, made when it is first asked for. -/
def returnLabel : Emit String := do
  match (← get).returnLabel with
  | some label => return label
  | none =>
    let label ← freshLabel "return"
    modify fun frame => { frame with returnLabel := some label }
    return label

/-- Pushes a register that holds a variable; the variable lives in the pushed word from then on. -/
def spillRegister (r : Register) : Emit (Option Spill) := do
  let frame ← get
  if frame.pool.holds r then
    match frame.scopes.holder? r with
    | some binding =>
      let offset ← push r
      rebind binding (.stack offset false)
      free r
      return some ⟨binding, r⟩
    | none => return none
  else return none

def spill : Emit (List Spill) :=
  RegisterClass.callerSaved.members.filterMapM spillRegister

/-- Claims the registers of spilled variables again, so that nothing else lands in them. -/
def reclaim (spills : List Spill) : Emit Unit :=
  spills.forM fun s => reserve s.register

def restore (spills : List Spill) : Emit Unit :=
  spills.reverse.forM fun s => do
    pop s.register
    rebind s.binding (.register s.register)

end Emit

end WordLang
