import WordLang.Emit.Expr

/-!
# The machine

What instructions do to registers and memory. Memory is an unbounded array of cells, so the stack never
runs out; a cell or a register holds an integer, which an address uses as it is and arithmetic uses as a
32-bit word. The stack grows downward. Calls are left open: straight code is run with any account of what
a call can do.
-/

namespace WordLang

/-- An external call that can be observed. -/
structure Event where
  callee : String
  args : List Word
deriving DecidableEq

/-- Registers, memory, and the external calls so far, the last one first. -/
@[ext]
structure Machine where
  reg : Register → Int
  mem : Int → Int
  events : List Event

def Word.ofBool (b : Bool) : Word :=
  if b then 1 else 0

/-- What an operation computes from two words. -/
def Operation.eval : Operation → Word → Word → Word
  | add, a, b => a + b
  | sub, a, b => a - b
  | mul, a, b => a * b
  | div, a, b => a / b
  | mod, a, b => a % b
  | and, a, b => a &&& b
  | or, a, b => a ||| b
  | eq, a, b => Word.ofBool (a = b)
  | ne, a, b => Word.ofBool (a ≠ b)
  | lt, a, b => Word.ofBool (a < b)
  | le, a, b => Word.ofBool (a ≤ b)
  | gt, a, b => Word.ofBool (b < a)
  | ge, a, b => Word.ofBool (b ≤ a)

def Operation.apply (op : Operation) (x y : Int) : Int :=
  (op.eval (Int32.ofInt x) (Int32.ofInt y)).toInt

namespace Machine

def set (m : Machine) (r : Register) (value : Int) : Machine :=
  { m with reg := fun q => if q = r then value else m.reg q }

def write (m : Machine) (address value : Int) : Machine :=
  { m with mem := fun a => if a = address then value else m.mem a }

def push (m : Machine) (r : Register) : Machine :=
  (m.write (m.reg .sp - 1) (m.reg r)).set .sp (m.reg .sp - 1)

def pop (m : Machine) (r : Register) : Machine :=
  (m.set r (m.mem (m.reg .sp))).set .sp (m.reg .sp + 1)

@[simp] theorem reg_set (m : Machine) (r q : Register) (value : Int) :
    (m.set r value).reg q = if q = r then value else m.reg q := rfl

@[simp] theorem mem_set (m : Machine) (r : Register) (value : Int) : (m.set r value).mem = m.mem := rfl

@[simp] theorem events_set (m : Machine) (r : Register) (value : Int) :
    (m.set r value).events = m.events := rfl

@[simp] theorem set_set (m : Machine) (r : Register) (v w : Int) : (m.set r v).set r w = m.set r w := by
  ext q
  · simp only [reg_set]
    split <;> rfl
  · rfl
  · rfl

@[simp] theorem reg_write (m : Machine) (address value : Int) : (m.write address value).reg = m.reg := rfl

@[simp] theorem mem_write (m : Machine) (address value a : Int) :
    (m.write address value).mem a = if a = address then value else m.mem a := rfl

@[simp] theorem events_write (m : Machine) (address value : Int) :
    (m.write address value).events = m.events := rfl

@[simp] theorem reg_push (m : Machine) (r q : Register) :
    (m.push r).reg q = if q = .sp then m.reg .sp - 1 else m.reg q := rfl

@[simp] theorem mem_push (m : Machine) (r : Register) (a : Int) :
    (m.push r).mem a = if a = m.reg .sp - 1 then m.reg r else m.mem a := rfl

@[simp] theorem reg_pop (m : Machine) (r q : Register) :
    (m.pop r).reg q = if q = .sp then m.reg .sp + 1 else if q = r then m.mem (m.reg .sp) else m.reg q := rfl

@[simp] theorem mem_pop (m : Machine) (r : Register) : (m.pop r).mem = m.mem := rfl

end Machine

/-- What an instruction does to registers and memory; jumps, calls and returns do nothing to them. -/
def Instruction.effect : Instruction → Machine → Machine
  | .li rd imm, m => m.set rd imm.toInt
  | .mov rd rs, m => m.set rd (m.reg rs)
  | .addi rd rs imm, m => m.set rd (m.reg rs + imm)
  | .binary op rd rs1 rs2, m => m.set rd (op.apply (m.reg rs1) (m.reg rs2))
  | .not rd rs, m => m.set rd (Word.ofBool (Int32.ofInt (m.reg rs) = 0)).toInt
  | .load rd base offset, m => m.set rd (m.mem (m.reg base + offset))
  | .store rs base offset, m => m.write (m.reg base + offset) (m.reg rs)
  | .push rs, m => m.push rs
  | .pop rd, m => m.pop rd
  | .jmp _, m | .jz _ _, m | .call _, m | .ret, m => m

/-- Runs straight code, with a function for what calls do. Code that jumps has no such run. -/
def Machine.run (call : Callee → Machine → Machine) : List Instruction → Machine → Option Machine
  | [], m => some m
  | .call callee :: code, m => run call code (call callee m)
  | .jmp _ :: _, _ | .jz _ _ :: _, _ | .ret :: _, _ => none
  | i :: code, m => run call code (i.effect m)

/-- What a call of a function can do: `calls callee m Q` says that every way it can go from `m` ends in a
machine that satisfies `Q`. -/
abbrev Calls := Callee → Machine → (Machine → Prop) → Prop

/-- One instruction of straight code, by what must hold of the machine after it. -/
def Instruction.After (calls : Calls) : Instruction → Machine → (Machine → Prop) → Prop
  | .call callee, m, Q => calls callee m Q
  | .jmp _, _, _ | .jz _ _, _, _ | .ret, _, _ => False
  | i, m, Q => Q (i.effect m)

/-- A run of straight code, by what must hold of the machine after it. -/
def After (calls : Calls) : List Instruction → Machine → (Machine → Prop) → Prop
  | [], m, Q => Q m
  | i :: code, m, Q => i.After calls m fun m' => After calls code m' Q

/-- Whoever needs less of the machine after a call asks less of the call. -/
def Calls.Monotone (calls : Calls) : Prop :=
  ∀ ⦃callee m⦄ ⦃Q R : Machine → Prop⦄, calls callee m Q → (∀ m', Q m' → R m') → calls callee m R

variable {calls : Calls}

namespace Instruction

variable {m : Machine} {Q : Machine → Prop}

@[simp] theorem after_li {rd : Register} {imm : Word} :
    (Instruction.li rd imm).After calls m Q ↔ Q (m.set rd imm.toInt) := Iff.rfl

@[simp] theorem after_mov {rd rs : Register} :
    (Instruction.mov rd rs).After calls m Q ↔ Q (m.set rd (m.reg rs)) := Iff.rfl

@[simp] theorem after_binary {op : Operation} {rd rs1 rs2 : Register} :
    (Instruction.binary op rd rs1 rs2).After calls m Q ↔
      Q (m.set rd (op.apply (m.reg rs1) (m.reg rs2))) := Iff.rfl

@[simp] theorem after_not {rd rs : Register} :
    (Instruction.not rd rs).After calls m Q ↔
      Q (m.set rd (Word.ofBool (Int32.ofInt (m.reg rs) = 0)).toInt) := Iff.rfl

@[simp] theorem after_load {rd base : Register} {offset : Int} :
    (Instruction.load rd base offset).After calls m Q ↔ Q (m.set rd (m.mem (m.reg base + offset))) := Iff.rfl

@[simp] theorem after_push {rs : Register} :
    (Instruction.push rs).After calls m Q ↔ Q (m.push rs) := Iff.rfl

@[simp] theorem after_pop {rd : Register} :
    (Instruction.pop rd).After calls m Q ↔ Q (m.pop rd) := Iff.rfl

end Instruction

@[simp] theorem after_nil (m : Machine) (Q : Machine → Prop) : After calls [] m Q ↔ Q m := Iff.rfl

@[simp] theorem after_cons (i : Instruction) (code : List Instruction) (m : Machine) (Q : Machine → Prop) :
    After calls (i :: code) m Q ↔ i.After calls m fun m' => After calls code m' Q := Iff.rfl

@[simp] theorem after_append (code code' : List Instruction) (m : Machine) (Q : Machine → Prop) :
    After calls (code ++ code') m Q ↔ After calls code m fun m' => After calls code' m' Q := by
  induction code generalizing m with
  | nil => rfl
  | cons i code ih => simp only [List.cons_append, after_cons, ih]

private theorem Instruction.After.mono (hc : calls.Monotone) {i : Instruction} {m : Machine}
    {Q R : Machine → Prop} (h : i.After calls m Q) (hQ : ∀ m', Q m' → R m') : i.After calls m R := by
  cases i with
  | call callee => exact hc h hQ
  | jmp _ | jz _ _ | ret => exact h.elim
  | _ => exact hQ _ h

theorem After.mono (hc : calls.Monotone) {code : List Instruction} {m : Machine} {Q R : Machine → Prop}
    (h : After calls code m Q) (hQ : ∀ m', Q m' → R m') : After calls code m R := by
  induction code generalizing m with
  | nil => exact hQ m h
  | cons i code ih => exact Instruction.After.mono hc h fun m' h' => ih h'

/-- If a function says what calls do, what holds after straight code holds of the machine that it runs to. -/
theorem After.run {call : Callee → Machine → Machine} {code : List Instruction} {m : Machine}
    {Q : Machine → Prop} (h : After (fun callee m Q => Q (call callee m)) code m Q) :
    ∃ m', Machine.run call code m = some m' ∧ Q m' := by
  induction code generalizing m with
  | nil => exact ⟨m, rfl, h⟩
  | cons i code ih =>
    cases i with
    | jmp _ | jz _ _ | ret => exact h.elim
    | _ => exact ih h

end WordLang
