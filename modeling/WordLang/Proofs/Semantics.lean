import WordLang.Proofs.Reference
import WordLang.Proofs.Units

/-!
# What programs do

The meaning of programs without arrays. Arguments are passed by value, operands and arguments are evaluated
from the left, and both operands of a logical operator are evaluated. A program is observed by its calls of
functions that it does not define, which an oracle answers. What has no end, and what uses a value that the
program does not determine as a condition or hands it to an external function, has no meaning. Fuel bounds
the rounds of a loop and the depth of calls.
-/

namespace WordLang

/-- A value that the program may leave undetermined, such as that of a variable before it is assigned. -/
abbrev Value := Option Word

/-- The variables that can be seen, the innermost first. -/
abbrev Env := List (String × Value)

/-- A run of a part of a program, from the external calls before it to those after it. -/
abbrev Run := StateT (List Event) Option

inductive Flow where
  | next
  | returned (value : Value)

/-- The value that a function has for its caller; there is none after its last statement. -/
def Flow.value : Flow → Value
  | next => none
  | returned value => value

namespace Env

/-- Gives the innermost variable of a name a value. -/
def assign (name : String) (value : Value) : Env → Option Env
  | [] => none
  | (declared, old) :: env =>
    if declared = name then some ((declared, value) :: env)
    else (assign name value env).map ((declared, old) :: ·)

/-- The variables that are left when those declared since there were `n` of them disappear. -/
def leave (env : Env) (n : Nat) : Env :=
  env.drop (env.length - n)

end Env

def Run.scoped (run : Env → Run (Env × Flow)) (env : Env) : Run (Env × Flow) := do
  let (last, flow) ← run env
  return (last.leave env.length, flow)

/-- Repeats a test, a body and a step until the test fails or the body returns. -/
def Run.repeat (test : Env → Run Bool) (body : Env → Run (Env × Flow)) (step : Env → Run Env) :
    Nat → Env → Run (Env × Flow)
  | 0, _ => failure
  | fuel + 1, env => do
    if ← test env then
      match ← body env with
      | (env, .next) => Run.repeat test body step fuel (← step env)
      | (env, .returned value) => return (env, .returned value)
    else return (env, .next)

abbrev CallMeaning := Signature → List Value → Run Value

section Meaning

variable (sigs : Signatures) (call : CallMeaning)

mutual

def Expr.eval : Expr → Env → Run Value
  | .num value, _ => return some value
  | .var name _, env => liftM (env.lookup name)
  | .index _ _ _, _ => failure
  | .call name args _, env => do
    let sig ← liftM (sigs.find? name)
    call sig (← evalAll args env)
  | .unary op operand, env => return (← operand.eval env).map op.eval
  | .binary op lhs rhs, env => do
    let a ← lhs.eval env
    let b ← rhs.eval env
    return a.bind fun a => b.map (op.eval a)

def Expr.evalAll : List Expr → Env → Run (List Value)
  | [], _ => return []
  | e :: es, env => return (← e.eval env) :: (← evalAll es env)

end

def Expr.test (cond : Expr) (env : Env) : Run Bool := do
  let value ← liftM (← cond.eval sigs call env)
  return value ≠ 0

def Simple.exec : Simple → Env → Run Env
  | .var name none _, env => return (name, none) :: env
  | .var name (some init) _, env => return (name, ← init.eval sigs call env) :: env
  | .array _ _ _, _ => failure
  | .assign (.var name _) value, env => do
    let v ← value.eval sigs call env
    liftM (env.assign name v)
  | .assign (.element _ _ _) _, _ => failure
  | .expr value, env => do
    let _ ← value.eval sigs call env
    return env

mutual

def Stmt.exec (fuel : Nat) : Stmt → Env → Run (Env × Flow)
  | .simple stmt, env => return (← stmt.exec sigs call env, .next)
  | .ifThen cond body, env => do
    if ← cond.test sigs call env then Run.scoped (execAll fuel body) env else return (env, .next)
  | .ifElse cond body other, env => do
    if ← cond.test sigs call env then Run.scoped (execAll fuel body) env
    else Run.scoped (execAll fuel other) env
  | .whileLoop cond body, env =>
    Run.repeat (cond.test sigs call) (Run.scoped (execAll fuel body)) pure fuel env
  | .forLoop init cond step body, env =>
    Run.scoped (fun env => do
      let inner ← init.elim (pure env) (·.exec sigs call env)
      Run.repeat (fun env => cond.elim (pure true) (·.test sigs call env)) (Run.scoped (execAll fuel body))
        (fun env => return (← step.elim (pure env) (·.exec sigs call env)).leave env.length) fuel inner) env
  | .ret none, env => return (env, .returned none)
  | .ret (some value), env => return (env, .returned (← value.eval sigs call env))
  | .block body, env => Run.scoped (execAll fuel body) env

def Stmt.execAll (fuel : Nat) : List Stmt → Env → Run (Env × Flow)
  | [], env => return (env, .next)
  | stmt :: rest, env => do
    match ← stmt.exec fuel env with
    | (env, .next) => execAll fuel rest env
    | (env, .returned value) => return (env, .returned value)

end

/-- Runs a function on arguments. It sees only its parameters and its own variables. -/
def Header.perform (header : Header) (body : List Stmt) (fuel : Nat) (args : List Value) : Run Value :=
  if header.params.length = args.length then do
    let (_, flow) ← Stmt.execAll sigs call fuel body (header.params.zip args).reverse
    return flow.value
  else failure

end Meaning

/-- What happens outside the program: the answers to external calls, given the calls before. -/
abbrev Oracle := List Event → Event → Word

/-- A call of an external function with determined arguments. -/
def Oracle.perform (oracle : Oracle) (name : String) (args : List Value) : Run Value := do
  let words ← liftM (args.mapM id)
  modifyGet fun events => (some (oracle events ⟨name, words⟩), ⟨name, words⟩ :: events)

namespace CompilationUnit

def callMeaning (unit : CompilationUnit) (sigs : Signatures) (oracle : Oracle) : Nat → CallMeaning
  | 0, _, _ => failure
  | fuel + 1, sig, args =>
    if sig.custom then do
      let (header, body) ← liftM (unit.definitions.find? fun f => f.1.name == sig.name)
      header.perform sigs (callMeaning unit sigs oracle fuel) body fuel args
    else oracle.perform sig.name args

/-- Runs the top-level statements. Gives the external calls, the last one first, and the value that a
`return` at the top level has. -/
def run (unit : CompilationUnit) (sigs : Signatures) (oracle : Oracle) (fuel : Nat) :
    Option (Value × List Event) :=
  Header.perform sigs (unit.callMeaning sigs oracle fuel) ⟨entryLabel, [], 0⟩ unit.topLevel fuel [] []

end CompilationUnit

namespace Run

variable {α β : Type} {events events' : List Event}

theorem bind_some {x : Run α} {f : α → Run β} {b : β} :
    (x >>= f) events = some (b, events') ↔
      ∃ a mid, x events = some (a, mid) ∧ f a mid = some (b, events') := by
  change (x events).bind (fun p => f p.1 p.2) = some (b, events') ↔ _
  rw [Option.bind_eq_some_iff]
  constructor
  · rintro ⟨⟨a, mid⟩, hx, hf⟩
    exact ⟨a, mid, hx, hf⟩
  · rintro ⟨a, mid, hx, hf⟩
    exact ⟨(a, mid), hx, hf⟩

theorem pure_some {a b : α} : (pure a : Run α) events = some (b, events') ↔ a = b ∧ events = events' := by
  change some (a, events) = some (b, events') ↔ _
  simp

theorem pair_some {a a' : α} {b b' : β} :
    (pure (a, b) : Run (α × β)) events = some ((a', b'), events') ↔ a = a' ∧ b = b' ∧ events = events' := by
  rw [pure_some, Prod.mk.injEq, and_assoc]

theorem lift_some {o : Option α} {a : α} :
    (liftM o : Run α) events = some (a, events') ↔ o = some a ∧ events = events' := by
  cases o with
  | none =>
    change none = some (a, events') ↔ _
    simp
  | some b =>
    change some (b, events) = some (a, events') ↔ _
    simp

theorem failure_some {a : α} : (failure : Run α) events = some (a, events') ↔ False := by
  change none = some (a, events') ↔ _
  simp

theorem scoped_some {run : Env → Run (Env × Flow)} {env env' : Env} {flow : Flow} :
    Run.scoped run env events = some ((env', flow), events') ↔
      ∃ last, run env events = some ((last, flow), events') ∧ last.leave env.length = env' := by
  rw [Run.scoped, bind_some]
  constructor
  · rintro ⟨⟨last, flow'⟩, _, hrun, hpure⟩
    obtain ⟨rfl, rfl, rfl⟩ := pair_some.mp hpure
    exact ⟨last, hrun, rfl⟩
  · rintro ⟨last, hrun, rfl⟩
    exact ⟨(last, flow), events', hrun, rfl⟩

end Run

end WordLang
