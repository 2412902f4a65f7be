import WordLang.Emit.Expr

/-!
# Code for statements

Every block has a scope of its own. The variables declared in the header of a `for` live in a scope around
that of its body.
-/

namespace WordLang

namespace Emit

def assign (sigs : Signatures) (target : Place) (value : Expr) : Emit Unit :=
  match target with
  | .var name pos => do
    let _ ← lookup name (some pos)
    let rs ← value.emit sigs .callerSaved
    match ← lookup name (some pos) with
    | .register rd => instruction (.mov rd rs)
    | .stack _ true => throw (.notAssignable name (some pos))
    | .stack offset false => instruction (.store rs .fp offset)
    free rs
  | .element name index pos => do
    let wanted := RegisterClass.callerSaved.surviving value
    let element ← address name pos wanted (index.emit sigs wanted)
    let rs ← value.emit sigs .callerSaved
    instruction (.store rs element 0)
    free rs
    free element

/-- Jumps to a label if a condition is zero. -/
def branchUnless (sigs : Signatures) (cond : Expr) (target : String) : Emit Unit := do
  let rs ← cond.emit sigs .callerSaved
  instruction (.jz rs target)
  free rs

end Emit

/-- A variable is declared after its initializer, which therefore does not see it. -/
def Simple.emit (sigs : Signatures) : Simple → Emit Unit
  | .var name init pos => do
    let offset ← Emit.claim 1
    match init with
    | some value =>
      let rs ← value.emit sigs .callerSaved
      Emit.instruction (.store rs .fp offset)
      Emit.free rs
    | none => pure ()
    Emit.declare name (.stack offset false) (some pos)
  | .array name length pos => do
    let offset ← Emit.claim length.toInt.toNat
    Emit.declare name (.stack offset true) (some pos)
  | .assign target value => Emit.assign sigs target value
  | .expr (.call name args pos) => Emit.call sigs name pos (Expr.emitAll sigs args) (pure ())
  | .expr value => do
    let rs ← value.emit sigs .callerSaved
    Emit.free rs

mutual

def Stmt.emit (sigs : Signatures) : Stmt → Emit Unit
  | .simple stmt => stmt.emit sigs
  | .ifThen cond body => do
    let label ← Emit.freshLabel "if"
    Emit.branchUnless sigs cond (label ++ "_end")
    Emit.inScope (emitAll sigs body)
    Emit.block (label ++ "_end")
  | .ifElse cond body other => do
    let label ← Emit.freshLabel "if"
    Emit.branchUnless sigs cond (label ++ "_else")
    Emit.inScope (emitAll sigs body)
    Emit.instruction (.jmp (label ++ "_end"))
    Emit.block (label ++ "_else")
    Emit.inScope (emitAll sigs other)
    Emit.block (label ++ "_end")
  | .whileLoop cond body => do
    let label ← Emit.freshLabel "while"
    Emit.block label
    Emit.branchUnless sigs cond (label ++ "_end")
    Emit.inScope (emitAll sigs body)
    Emit.instruction (.jmp label)
    Emit.block (label ++ "_end")
  | .forLoop init cond step body => do
    let label ← Emit.freshLabel "for"
    Emit.inScope do
      init.forM (Simple.emit sigs)
      Emit.block label
      cond.forM fun cond => Emit.branchUnless sigs cond (label ++ "_end")
      Emit.inScope (emitAll sigs body)
      step.forM (Simple.emit sigs)
      Emit.instruction (.jmp label)
      Emit.block (label ++ "_end")
  | .ret value => do
    match value with
    | some value =>
      let rs ← value.emit sigs .callerSaved
      let rs ← Emit.read rs
      if rs ≠ Register.result then
        Emit.instruction (.mov Register.result rs)
      Emit.free rs
    | none => pure ()
    Emit.instruction (.jmp (← Emit.returnLabel))
  | .block body => Emit.inScope (emitAll sigs body)

def Stmt.emitAll (sigs : Signatures) : List Stmt → Emit Unit
  | [] => return
  | stmt :: rest => do
    stmt.emit sigs
    emitAll sigs rest

end

theorem Stmt.emit_block (sigs : Signatures) (body : List Stmt) :
    (Stmt.block body).emit sigs = Emit.inScope (emitAll sigs body) := by
  rw [Stmt.emit]

end WordLang
