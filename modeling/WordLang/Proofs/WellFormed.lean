import Mathlib.Tactic.MkIffOfInductiveProp
import WordLang.Emit.Unit

/-!
# Well-formed units

The static rules of the language, said without the compiler. A name is used after it is declared, in the
scope that declares it or inside of it; no scope declares a name twice; an array is not assigned as a whole;
a call has as many arguments as the function has parameters. What runs later is later: a loop's step comes
after its body.
-/

namespace WordLang

/-- The variables declared at a point, as names marked as arrays or not: those of the scope there, the last
one first, and those of the scopes around it from the inside out. -/
structure Declared where
  inner : List (String × Bool) := []
  outer : List (List (String × Bool)) := []

namespace Declared

def enter (d : Declared) : Declared :=
  ⟨[], d.inner :: d.outer⟩

def after (d : Declared) (entry : Option (String × Bool)) : Declared :=
  ⟨entry.toList ++ d.inner, d.outer⟩

def find? (d : Declared) (name : String) : Option Bool :=
  (d.inner :: d.outer).findSome? fun scope => scope.lookup name

def ofParams (params : List String) : Declared :=
  ⟨(params.map fun param => (param, false)).reverse, []⟩

end Declared

section

variable (arity : String → Option Nat)

mutual

def Expr.WellFormed (d : Declared) : Expr → Prop
  | .num _ => True
  | .var name _ => (d.find? name).isSome = true
  | .index name i _ => (d.find? name).isSome = true ∧ i.WellFormed d
  | .call name args _ => arity name = some args.length ∧ allWellFormed d args
  | .unary _ operand => operand.WellFormed d
  | .binary _ lhs rhs => lhs.WellFormed d ∧ rhs.WellFormed d

def Expr.allWellFormed (d : Declared) : List Expr → Prop
  | [] => True
  | e :: es => e.WellFormed d ∧ allWellFormed d es

end

mutual

instance Expr.decidableWellFormed (d : Declared) : (e : Expr) → Decidable (e.WellFormed arity d)
  | .num _ => inferInstanceAs (Decidable True)
  | .var name _ => inferInstanceAs (Decidable ((d.find? name).isSome = true))
  | .index name i _ =>
    have := i.decidableWellFormed d
    inferInstanceAs (Decidable ((d.find? name).isSome = true ∧ i.WellFormed arity d))
  | .call name args _ =>
    have := decidableAllWellFormed d args
    inferInstanceAs (Decidable (arity name = some args.length ∧ allWellFormed arity d args))
  | .unary _ operand => operand.decidableWellFormed d
  | .binary _ lhs rhs =>
    have := lhs.decidableWellFormed d
    have := rhs.decidableWellFormed d
    inferInstanceAs (Decidable (lhs.WellFormed arity d ∧ rhs.WellFormed arity d))

instance Expr.decidableAllWellFormed (d : Declared) : (es : List Expr) → Decidable (allWellFormed arity d es)
  | [] => inferInstanceAs (Decidable True)
  | e :: es =>
    have := e.decidableWellFormed d
    have := decidableAllWellFormed d es
    inferInstanceAs (Decidable (e.WellFormed arity d ∧ allWellFormed arity d es))

end

def Simple.WellFormed (d : Declared) : Simple → Prop
  | .var name init _ => (∀ value ∈ init, value.WellFormed arity d) ∧ d.inner.lookup name = none
  | .array name _ _ => d.inner.lookup name = none
  | .assign (.var name _) value => d.find? name = some false ∧ value.WellFormed arity d
  | .assign (.element name i _) value =>
    (d.find? name).isSome = true ∧ i.WellFormed arity d ∧ value.WellFormed arity d
  | .expr value => value.WellFormed arity d

instance Simple.decidableWellFormed (d : Declared) : (stmt : Simple) → Decidable (stmt.WellFormed arity d)
  | .var name init _ =>
    inferInstanceAs (Decidable ((∀ value ∈ init, value.WellFormed arity d) ∧ d.inner.lookup name = none))
  | .array name _ _ => inferInstanceAs (Decidable (d.inner.lookup name = none))
  | .assign (.var name _) value =>
    inferInstanceAs (Decidable (d.find? name = some false ∧ value.WellFormed arity d))
  | .assign (.element name i _) value => inferInstanceAs
    (Decidable ((d.find? name).isSome = true ∧ i.WellFormed arity d ∧ value.WellFormed arity d))
  | .expr value => inferInstanceAs (Decidable (value.WellFormed arity d))

def Simple.declared? : Simple → Option (String × Bool)
  | .var name _ _ => some (name, false)
  | .array name _ _ => some (name, true)
  | .assign _ _ | .expr _ => none

def Stmt.declared? : Stmt → Option (String × Bool)
  | .simple stmt => stmt.declared?
  | _ => none

/-- The variables after the start of a `for` loop, which has a scope for them. -/
def Declared.afterStart (d : Declared) (init : Option Simple) : Declared :=
  d.enter.after (init.bind Simple.declared?)

mutual

/-- A block has a scope of its own. The start of a `for` loop declares in a scope around that of the body,
and so does the step. -/
def Stmt.WellFormed (d : Declared) : Stmt → Prop
  | .simple stmt => stmt.WellFormed arity d
  | .ifThen cond body => cond.WellFormed arity d ∧ allWellFormed d.enter body
  | .ifElse cond body other =>
    cond.WellFormed arity d ∧ allWellFormed d.enter body ∧ allWellFormed d.enter other
  | .whileLoop cond body => cond.WellFormed arity d ∧ allWellFormed d.enter body
  | .forLoop init cond step body =>
    (∀ stmt ∈ init, stmt.WellFormed arity d.enter) ∧
    (∀ test ∈ cond, test.WellFormed arity (d.afterStart init)) ∧
    allWellFormed (d.afterStart init).enter body ∧
    ∀ stmt ∈ step, stmt.WellFormed arity (d.afterStart init)
  | .ret value => ∀ result ∈ value, result.WellFormed arity d
  | .block body => allWellFormed d.enter body

def Stmt.allWellFormed (d : Declared) : List Stmt → Prop
  | [] => True
  | stmt :: rest => stmt.WellFormed d ∧ allWellFormed (d.after stmt.declared?) rest

end

mutual

instance Stmt.decidableWellFormed (d : Declared) : (stmt : Stmt) → Decidable (stmt.WellFormed arity d)
  | .simple stmt => stmt.decidableWellFormed arity d
  | .ifThen cond body | .whileLoop cond body =>
    have := decidableAllWellFormed d.enter body
    inferInstanceAs (Decidable (cond.WellFormed arity d ∧ allWellFormed arity d.enter body))
  | .ifElse cond body other =>
    have := decidableAllWellFormed d.enter body
    have := decidableAllWellFormed d.enter other
    inferInstanceAs (Decidable (cond.WellFormed arity d ∧ allWellFormed arity d.enter body ∧
      allWellFormed arity d.enter other))
  | .forLoop init cond step body =>
    have := decidableAllWellFormed (d.afterStart init).enter body
    inferInstanceAs (Decidable ((∀ stmt ∈ init, stmt.WellFormed arity d.enter) ∧
      (∀ test ∈ cond, test.WellFormed arity (d.afterStart init)) ∧
      allWellFormed arity (d.afterStart init).enter body ∧
      ∀ stmt ∈ step, stmt.WellFormed arity (d.afterStart init)))
  | .ret value => inferInstanceAs (Decidable (∀ result ∈ value, result.WellFormed arity d))
  | .block body => decidableAllWellFormed d.enter body

instance Stmt.decidableAllWellFormed (d : Declared) :
    (body : List Stmt) → Decidable (allWellFormed arity d body)
  | [] => inferInstanceAs (Decidable True)
  | stmt :: rest =>
    have := stmt.decidableWellFormed d
    have := decidableAllWellFormed (d.after stmt.declared?) rest
    inferInstanceAs (Decidable (stmt.WellFormed arity d ∧ allWellFormed arity (d.after stmt.declared?) rest))

end

end

def Item.header? : Item → Option Header
  | .function header _ | .external header => some header
  | .stmt _ => none

namespace CompilationUnit

def headers (unit : CompilationUnit) : List Header :=
  unit.items.filterMap Item.header?

def arity? (unit : CompilationUnit) (name : String) : Option Nat :=
  if name ∈ ["print", "putc", "exit"] then some 1
  else (unit.headers.find? fun header => header.name == name).map fun header => header.params.length

/-- The static rules for a unit. The top-level statements are the body of a function without parameters. -/
@[mk_iff] structure WellFormed (unit : CompilationUnit) : Prop where
  distinct : (unit.headers.map Header.name).Nodup
  reserved : ∀ header ∈ unit.headers, header.name ∉ ["print", "putc", "exit", "start"]
  params : ∀ header ∈ unit.headers, header.params.length ≤ 4
  bodies : ∀ f ∈ unit.functions, f.1.params.Nodup ∧
    Stmt.allWellFormed unit.arity? (.ofParams f.1.params) f.2

instance (unit : CompilationUnit) : Decidable unit.WellFormed :=
  decidable_of_iff _ (wellFormed_iff unit).symm

end CompilationUnit

end WordLang
