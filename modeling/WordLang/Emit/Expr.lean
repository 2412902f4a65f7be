import WordLang.Frame
import WordLang.Program
import WordLang.Signature

/-!
# Code for expressions

An expression is evaluated into a fresh register of a requested class, which the caller frees. Operands
are evaluated left to right. A value that must survive a call in a later operand goes into a callee-saved
register. Two or more arguments are staged on the stack, so that later ones cannot clobber earlier ones.
-/

namespace WordLang

/-- The class for a value that must still be there after `later` is evaluated. -/
def RegisterClass.surviving (wanted : RegisterClass) (later : Expr) : RegisterClass :=
  if later.hasCall then .calleeSaved else wanted

/-- The instruction that computes a binary operator; the logical ones get operands that are 0 or 1. -/
def BinaryOp.operation : BinaryOp → Operation
  | add => .add
  | sub => .sub
  | mul => .mul
  | div => .div
  | mod => .mod
  | lt => .lt
  | gt => .gt
  | le => .le
  | ge => .ge
  | eq => .eq
  | ne => .ne
  | land => .and
  | lor => .or

def BinaryOp.isLogical : BinaryOp → Bool
  | land | lor => true
  | _ => false

/-- The instruction that fetches a variable. The value of an array is the address of its first element. -/
def Storage.fetch (rd : Register) : Storage → Instruction
  | .register r => .mov rd r
  | .stack offset true => .addi rd .fp offset
  | .stack offset false => .load rd .fp offset

namespace Emit

/-- Runs a step with a register that holds zero. -/
def withZero (step : Register → Emit Unit) : Emit Unit := do
  let zero ← allocate .callerSaved
  instruction (.li zero 0)
  step zero
  free zero

/-- Computes the address of an element. The variable is fetched after the index, since a call in the
index may move it. -/
def address (name : String) (pos : Nat) (wanted : RegisterClass) (index : Emit Register) :
    Emit Register := do
  let _ ← lookup name (some pos)
  let rs ← index
  let base ← lookup name (some pos)
  let rd ← allocate wanted
  instruction (base.fetch rd)
  instruction (.binary .add rd rd rs)
  free rs
  return rd

def stage (argument : Emit Register) : Emit Unit := do
  let rs ← argument
  let _ ← push rs
  free rs

/-- Evaluates arguments into the registers that carry them. -/
def pass : List (Emit Register) → Emit Unit
  | [] => return
  | [argument] => do
    let rs ← argument
    if rs ≠ .r0 then
      reserve .r0
      instruction (.mov .r0 rs)
      free rs
  | arguments => do
    arguments.forM stage
    (Register.arguments.take arguments.length).reverse.forM fun r => do
      reserve r
      pop r

/-- Takes the result of a call into a register of a class. -/
def receive (wanted : RegisterClass) : Emit Register := do
  if wanted = .callerSaved ∧ (← get).pool.holds Register.result = false then
    reserve Register.result
    return Register.result
  else
    let rd ← allocate wanted
    instruction (.mov rd Register.result)
    return rd

/-- Calls a function; `finish` runs while the result is in its register. -/
def call {α : Type} (sigs : Signatures) (name : String) (pos : Nat) (arguments : List (Emit Register))
    (finish : Emit α) : Emit α := do
  match sigs.lookup name (some pos) with
  | .error e => throw e
  | .ok sig =>
    if sig.arity ≠ arguments.length then
      throw (.wrongArity name sig.arity arguments.length (some pos))
    let spills ← spill
    pass arguments
    instruction (.call sig.callee)
    (Register.arguments.take arguments.length).forM free
    reclaim spills
    let result ← finish
    restore spills
    return result

def unary (op : UnaryOp) (rd : Register) : Emit Unit :=
  match op with
  | .neg => withZero fun zero => instruction (.binary .sub rd zero rd)
  | .not => instruction (.not rd rd)

/-- Applies a binary operator. The result goes into the left operand's register if that is of the class
wanted. -/
def binary (op : BinaryOp) (wanted found : RegisterClass) (rs1 rs2 : Register) : Emit Register := do
  if op.isLogical then
    withZero fun zero => do
      instruction (.binary .ne rs1 rs1 zero)
      instruction (.binary .ne rs2 rs2 zero)
  let rd ← if found = wanted then pure rs1 else allocate wanted
  instruction (.binary op.operation rd rs1 rs2)
  free rs2
  if rd ≠ rs1 then
    free rs1
  return rd

end Emit

mutual

/-- Evaluates an expression into a fresh register of a class. -/
def Expr.emit (sigs : Signatures) : Expr → RegisterClass → Emit Register
  | .num value, wanted => do
    let rd ← Emit.allocate wanted
    Emit.instruction (.li rd value)
    return rd
  | .var name pos, wanted => do
    let storage ← Emit.lookup name (some pos)
    let rd ← Emit.allocate wanted
    Emit.instruction (storage.fetch rd)
    return rd
  | .index name i pos, wanted => do
    let rd ← Emit.address name pos wanted (i.emit sigs wanted)
    Emit.instruction (.load rd rd 0)
    return rd
  | .call name args pos, wanted => Emit.call sigs name pos (emitAll sigs args) (Emit.receive wanted)
  | .unary op operand, wanted => do
    let rd ← operand.emit sigs wanted
    Emit.unary op rd
    return rd
  | .binary op lhs rhs, wanted => do
    let found := wanted.surviving rhs
    let rs1 ← lhs.emit sigs found
    let rs2 ← rhs.emit sigs .callerSaved
    Emit.binary op wanted found rs1 rs2

/-- The steps that evaluate arguments into caller-saved registers. -/
def Expr.emitAll (sigs : Signatures) : List Expr → List (Emit Register)
  | [] => []
  | e :: es => e.emit sigs .callerSaved :: emitAll sigs es

end

theorem Expr.emit_call (sigs : Signatures) (name : String) (args : List Expr) (pos : Nat)
    (wanted : RegisterClass) :
    (Expr.call name args pos).emit sigs wanted =
      Emit.call sigs name pos (emitAll sigs args) (Emit.receive wanted) := by
  rw [Expr.emit]

theorem Expr.emitAll_eq (sigs : Signatures) (args : List Expr) :
    Expr.emitAll sigs args = args.map fun e => e.emit sigs .callerSaved := by
  induction args with
  | nil => rfl
  | cons e es ih => rw [Expr.emitAll, ih, List.map_cons]

end WordLang
