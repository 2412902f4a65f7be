import WordLang.Emit.Stmt

/-!
# Code for compilation units

All functions of a unit can call each other, so their signatures are collected first. The code of the
functions follows in the order of their definitions, and last comes the entry, made of the top-level
statements.
-/

namespace WordLang

/-- Places the parameters of a function in the registers that they arrive in. -/
def Header.emit (header : Header) : Emit Unit :=
  (header.params.zip Register.arguments).forM fun (param, r) => do
    Emit.reserve r
    Emit.declare param (.register r) (some header.pos)

def Header.emitBody (header : Header) (sigs : Signatures) (body : List Stmt) : Emit Unit := do
  header.emit
  Stmt.emitAll sigs body
  match (← get).returnLabel with
  | some label => Emit.block label
  | none => pure ()

/-- Saves what the function has to keep for its caller, and makes room for the local area. -/
def Routine.prologueFor (saved : List Register) (localSlots : Int) : List Instruction :=
  [.push .lr, .push .fp] ++ saved.map .push ++ [.mov .fp .sp] ++
    if 0 < localSlots then [.addi .sp .sp (-localSlots)] else []

def Routine.epilogueFor (saved : List Register) : List Instruction :=
  [.mov .sp .fp] ++ saved.reverse.map .pop ++ [.pop .fp, .pop .lr, .ret]

/-- Adds the words of a declaration to a counter. -/
def Simple.countSlots (total : Int) : Simple → Except CompileError Int
  | .var _ _ _ => Counter.check "add" (total + 1)
  | .array _ length _ => Counter.check "add" (total + length.toInt.toNat)
  | .assign _ _ | .expr _ => .ok total

mutual

def Stmt.countSlots : Stmt → Int → Except CompileError Int
  | .simple stmt, total => stmt.countSlots total
  | .ifThen _ body, total => countSlotsOf body total
  | .ifElse _ body other, total => do countSlotsOf other (← countSlotsOf body total)
  | .whileLoop _ body, total => countSlotsOf body total
  | .forLoop init _ step body, total => do
    countSlotsOf body (← (init.toList ++ step.toList).foldlM Simple.countSlots total)
  | .ret _, total => .ok total
  | .block body, total => countSlotsOf body total

def Stmt.countSlotsOf : List Stmt → Int → Except CompileError Int
  | [], total => .ok total
  | stmt :: rest, total => do countSlotsOf rest (← stmt.countSlots total)

end

/-- Compiles one function, with the labels that are still unused. Its local area is counted first. -/
def Routine.compile (sigs : Signatures) (policy : FreePolicy) (labels : LabelSupply) (header : Header)
    (body : List Stmt) : Except CompileError (Routine × LabelSupply) := do
  let localSlots ← Stmt.countSlotsOf body 0
  match (header.emitBody sigs body).run { pool := { policy }, localSlots, labels } with
  | .ok _ frame =>
    let saved := frame.pool.saved
    .ok (⟨header.name, prologueFor saved localSlots, frame.code.toList, epilogueFor saved⟩, frame.labels)
  | .error e _ => .error e

namespace CompilationUnit

/-- The signatures of the functions that items define or declare, beside those known already. -/
def signaturesFrom (sigs : Signatures) : List Item → Except CompileError Signatures
  | [] => .ok sigs
  | .function header _ :: items => do
    signaturesFrom (← sigs.declare ⟨header.name, header.params, true⟩ (some header.pos)) items
  | .external header :: items => do
    signaturesFrom (← sigs.declare ⟨header.name, header.params, false⟩ (some header.pos)) items
  | .stmt _ :: items => signaturesFrom sigs items

def signatures (unit : CompilationUnit) : Except CompileError Signatures :=
  signaturesFrom .builtin unit.items

/-- The functions that a unit defines, and last its entry. -/
def functions (unit : CompilationUnit) : List (Header × List Stmt) :=
  (unit.items.filterMap fun
    | .function header body => some (header, body)
    | _ => none) ++ [(⟨entryLabel, [], 0⟩, unit.topLevel)]

def compileAll (sigs : Signatures) (policy : FreePolicy) (labels : LabelSupply) :
    List (Header × List Stmt) → Except CompileError (List Routine)
  | [] => .ok []
  | (header, body) :: rest => do
    let (routine, labels) ← Routine.compile sigs policy labels header body
    return routine :: (← compileAll sigs policy labels rest)

def compile (unit : CompilationUnit) (policy : FreePolicy) : Except CompileError Assembly := do
  let sigs ← unit.signatures
  return ⟨← compileAll sigs policy {} unit.functions⟩

end CompilationUnit

end WordLang
