import WordLang.Proofs.Machine
import WordLang.Proofs.PlainCode

/-!
# What expressions mean

The value of an expression at a point of a function, said without registers. An expression can read the
memory from `floor` upward, which the code that evaluates it must not touch: the memory below is its
scratch area. Calls are left open here too. The meaning of an expression is given twice: as what must hold
of every value it can have, with any account of calls, and as its value, with a function for what calls do.
-/

namespace WordLang

def UnaryOp.eval : UnaryOp → Word → Word
  | neg, a => -a
  | not, a => Word.ofBool (a = 0)

/-- What a binary operator computes. The logical ones are 0 or 1. -/
def BinaryOp.eval : BinaryOp → Word → Word → Word
  | add, a, b => a + b
  | sub, a, b => a - b
  | mul, a, b => a * b
  | div, a, b => a / b
  | mod, a, b => a % b
  | lt, a, b => Word.ofBool (a < b)
  | gt, a, b => Word.ofBool (b < a)
  | le, a, b => Word.ofBool (a ≤ b)
  | ge, a, b => Word.ofBool (b ≤ a)
  | eq, a, b => Word.ofBool (a = b)
  | ne, a, b => Word.ofBool (a ≠ b)
  | land, a, b => Word.ofBool (a ≠ 0 ∧ b ≠ 0)
  | lor, a, b => Word.ofBool (a ≠ 0 ∨ b ≠ 0)

/-- The memory from an address upward, and the external calls so far. -/
structure Outside (floor : Int) where
  mem : (address : Int) → floor ≤ address → Int
  events : List Event

/-- Where a variable's value comes from while an expression is evaluated. -/
inductive Home where
  /-- The variable is this number. -/
  | value (v : Int)
  /-- The variable is the word at an address. -/
  | word (address : Int)
  /-- The variable is an array that starts at an address. -/
  | array (address : Int)

variable {floor : Int}

/-- The memory that an expression can read, as a machine has it. -/
def Machine.above (m : Machine) (floor : Int) : Outside floor :=
  ⟨fun a _ => m.mem a, m.events⟩

def Outside.read (o : Outside floor) (address : Int) : Option Int :=
  if h : floor ≤ address then some (o.mem address h) else none

/-- The value of a variable. That of an array is its address. -/
def Home.read (o : Outside floor) : Home → Option Int
  | value v => some v
  | word address => o.read address
  | array address => some address

/-- What calls mean: `call callee args o Q` says that every way a call can go from `o` gives a value and
leaves a memory that satisfy `Q`. -/
abbrev Answers (floor : Int) :=
  Callee → List Int → Outside floor → (Int → Outside floor → Prop) → Prop

/-- The account of calls that a function for them gives. -/
def Answers.of (call : Callee → List Int → Outside floor → Int × Outside floor) : Answers floor :=
  fun callee args o Q => Q (call callee args o).1 (call callee args o).2

namespace Expr

section Meaning

variable (sigs : Signatures) (home : String → Option Home)

mutual

/-- What must hold of every value that an expression can have. Operands are evaluated from the left, and
an index before the variable that it indexes. -/
def Yields (call : Answers floor) : Expr → Outside floor → (Int → Outside floor → Prop) → Prop
  | .num value, o, Q => Q value.toInt o
  | .var name _, o, Q => ∃ h v, home name = some h ∧ h.read o = some v ∧ Q v o
  | .index name i _, o, Q =>
    i.Yields call o fun k o' => ∃ h base v, home name = some h ∧ h.read o' = some base ∧
      o'.read (Operation.add.apply base k) = some v ∧ Q v o'
  | .call name args _, o, Q =>
    ∃ sig, sigs.find? name = some sig ∧
      YieldsAll call args o fun values o' => call sig.callee values o' Q
  | .unary op operand, o, Q =>
    operand.Yields call o fun a o' => Q (op.eval (Int32.ofInt a)).toInt o'
  | .binary op lhs rhs, o, Q =>
    lhs.Yields call o fun a o' => rhs.Yields call o' fun b o'' =>
      Q (op.eval (Int32.ofInt a) (Int32.ofInt b)).toInt o''

def YieldsAll (call : Answers floor) :
    List Expr → Outside floor → (List Int → Outside floor → Prop) → Prop
  | [], o, Q => Q [] o
  | e :: es, o, Q =>
    e.Yields call o fun v o' => YieldsAll call es o' fun values o'' => Q (v :: values) o''

end

mutual

/-- The value of an expression and the memory after it. There is none if a variable is unknown, or if the
scratch area is read. -/
def value (call : Callee → List Int → Outside floor → Int × Outside floor) :
    Expr → Outside floor → Option (Int × Outside floor)
  | .num value, o => some (value.toInt, o)
  | .var name _, o => do
    let h ← home name
    return (← h.read o, o)
  | .index name i _, o => do
    let (k, o) ← i.value call o
    let h ← home name
    let base ← h.read o
    return (← o.read (Operation.add.apply base k), o)
  | .call name args _, o => do
    let sig ← sigs.find? name
    let (values, o) ← valueAll call args o
    return call sig.callee values o
  | .unary op operand, o => do
    let (a, o) ← operand.value call o
    return ((op.eval (Int32.ofInt a)).toInt, o)
  | .binary op lhs rhs, o => do
    let (a, o) ← lhs.value call o
    let (b, o) ← rhs.value call o
    return ((op.eval (Int32.ofInt a) (Int32.ofInt b)).toInt, o)

def valueAll (call : Callee → List Int → Outside floor → Int × Outside floor) :
    List Expr → Outside floor → Option (List Int × Outside floor)
  | [], o => some ([], o)
  | e :: es, o => do
    let (v, o) ← e.value call o
    let (values, o) ← valueAll call es o
    return (v :: values, o)

end

end Meaning

variable {sigs : Signatures} {home : String → Option Home}
  {call : Callee → List Int → Outside floor → Int × Outside floor}

private theorem valueAll_yields {es : List Expr}
    (ih : ∀ e ∈ es, ∀ (o o' : Outside floor) v Q, e.value sigs home call o = some (v, o') → Q v o' →
      e.Yields sigs home (Answers.of call) o Q)
    {o o' : Outside floor} {values : List Int} {Q : List Int → Outside floor → Prop}
    (h : valueAll sigs home call es o = some (values, o')) (hQ : Q values o') :
    YieldsAll sigs home (Answers.of call) es o Q := by
  induction es generalizing o values Q with
  | nil =>
    obtain ⟨rfl, rfl⟩ : [] = values ∧ o = o' := by simpa [valueAll] using h
    exact hQ
  | cons e es ihs =>
    simp only [valueAll, bind, Option.bind_eq_some_iff, pure, Option.some.injEq] at h
    obtain ⟨⟨v, o₁⟩, he, ⟨vs, o₂⟩, hes, h⟩ := h
    obtain ⟨rfl, rfl⟩ : v :: vs = values ∧ o₂ = o' := by simpa using h
    refine ih e List.mem_cons_self _ _ _ _ he ?_
    exact ihs (fun e' he' => ih e' (List.mem_cons_of_mem e he')) hes hQ

/-- What holds of the value of an expression holds of every value that it can have. -/
theorem value_yields (e : Expr) {o o' : Outside floor} {v : Int} {Q : Int → Outside floor → Prop}
    (h : e.value sigs home call o = some (v, o')) (hQ : Q v o') :
    e.Yields sigs home (Answers.of call) o Q := by
  induction e using Expr.induction generalizing o o' v Q with
  | num value =>
    obtain ⟨rfl, rfl⟩ : value.toInt = v ∧ o = o' := by simpa [Expr.value] using h
    exact hQ
  | var name pos =>
    simp only [Expr.value, bind, Option.bind_eq_some_iff, pure, Option.some.injEq] at h
    obtain ⟨place, hplace, w, hw, h⟩ := h
    obtain ⟨rfl, rfl⟩ : w = v ∧ o = o' := by simpa using h
    exact ⟨place, w, hplace, hw, hQ⟩
  | index name i pos ih =>
    simp only [Expr.value, bind, Option.bind_eq_some_iff, pure, Option.some.injEq] at h
    obtain ⟨⟨k, o₁⟩, hi, place, hplace, base, hbase, w, hw, h⟩ := h
    obtain ⟨rfl, rfl⟩ : w = v ∧ o₁ = o' := by simpa using h
    exact ih hi ⟨place, base, w, hplace, hbase, hw, hQ⟩
  | call name args pos ih =>
    simp only [Expr.value, bind, Option.bind_eq_some_iff, pure, Option.some.injEq] at h
    obtain ⟨sig, hsig, ⟨values, o₁⟩, hargs, h⟩ := h
    refine ⟨sig, hsig, valueAll_yields (fun e he _ _ _ _ hv hR => ih e he hv hR) hargs ?_⟩
    simpa [Answers.of, h] using hQ
  | unary op operand ih =>
    simp only [Expr.value, bind, Option.bind_eq_some_iff, pure, Option.some.injEq] at h
    obtain ⟨⟨a, o₁⟩, ha, h⟩ := h
    obtain ⟨rfl, rfl⟩ : (op.eval (Int32.ofInt a)).toInt = v ∧ o₁ = o' := by simpa using h
    exact ih ha hQ
  | binary op lhs rhs ihl ihr =>
    simp only [Expr.value, bind, Option.bind_eq_some_iff, pure, Option.some.injEq] at h
    obtain ⟨⟨a, o₁⟩, ha, ⟨b, o₂⟩, hb, h⟩ := h
    obtain ⟨rfl, rfl⟩ : (op.eval (Int32.ofInt a) (Int32.ofInt b)).toInt = v ∧ o₂ = o' := by
      simpa using h
    exact ihl ha (ihr hb hQ)

end Expr

end WordLang
