import WordLang.Word.Literal

/-!
# Programs

The abstract syntax of the language. Names carry the byte offset at which they stand in the source, for
error messages. Parentheses and unary plus leave no trace, and `else if` is an `else` block that holds one
`if` statement.
-/

namespace WordLang

inductive UnaryOp where
  | neg
  | not
deriving DecidableEq

/-- The binary operators. `land` and `lor` evaluate both operands, as all others do. -/
inductive BinaryOp where
  | add | sub | mul | div | mod
  | lt | gt | le | ge | eq | ne
  | land | lor
deriving DecidableEq

inductive Expr where
  | num (value : Word)
  | var (name : String) (pos : Nat)
  | index (name : String) (index : Expr) (pos : Nat)
  | call (callee : String) (args : List Expr) (pos : Nat)
  | unary (op : UnaryOp) (operand : Expr)
  | binary (op : BinaryOp) (lhs rhs : Expr)

/-- What an assignment can target: a variable, or an element of what a variable points to. -/
inductive Place where
  | var (name : String) (pos : Nat)
  | element (name : String) (index : Expr) (pos : Nat)

/-- The value that a place holds, as an expression. -/
def Place.toExpr : Place → Expr
  | var name pos => .var name pos
  | element name index pos => .index name index pos

/-- The statements without nested statements that a `for` header can hold. -/
inductive Simple where
  | var (name : String) (init : Option Expr) (pos : Nat)
  | array (name : String) (length : Word) (pos : Nat)
  | assign (target : Place) (value : Expr)
  | expr (value : Expr)

inductive Stmt where
  | simple (stmt : Simple)
  | ifThen (cond : Expr) (body : List Stmt)
  | ifElse (cond : Expr) (body other : List Stmt)
  | whileLoop (cond : Expr) (body : List Stmt)
  | forLoop (init : Option Simple) (cond : Option Expr) (step : Option Simple) (body : List Stmt)
  | ret (value : Option Expr)
  | block (body : List Stmt)

/-- The name and parameters of a function, with the place of its name. -/
structure Header where
  name : String
  params : List String
  pos : Nat

/-- A function, the declaration of a function that linking supplies, or a top-level statement. -/
inductive Item where
  | function (header : Header) (body : List Stmt)
  | external (header : Header)
  | stmt (stmt : Stmt)

structure CompilationUnit where
  items : List Item

/-- The top-level statements, which form the program's entry. -/
def CompilationUnit.topLevel (unit : CompilationUnit) : List Stmt :=
  unit.items.filterMap fun
    | .stmt stmt => some stmt
    | _ => none

def Expr.hasCall : Expr → Bool
  | .num _ | .var _ _ => false
  | .index _ i _ => i.hasCall
  | .call _ _ _ => true
  | .unary _ operand => operand.hasCall
  | .binary _ lhs rhs => lhs.hasCall || rhs.hasCall

def Simple.slots : Simple → Nat
  | .var _ _ _ => 1
  | .array _ length _ => length.toInt.toNat
  | .assign _ _ | .expr _ => 0

mutual

/-- The words of the local area that the declarations in a statement take. No two of them share a word,
even in separate scopes. -/
def Stmt.slots : Stmt → Nat
  | .simple stmt => stmt.slots
  | .ifThen _ body => slotsOf body
  | .ifElse _ body other => slotsOf body + slotsOf other
  | .whileLoop _ body => slotsOf body
  | .forLoop init _ step body =>
    (init.map Simple.slots).getD 0 + (step.map Simple.slots).getD 0 + slotsOf body
  | .ret _ => 0
  | .block body => slotsOf body

def Stmt.slotsOf : List Stmt → Nat
  | [] => 0
  | stmt :: rest => stmt.slots + slotsOf rest

end

end WordLang
