import WordLang.Program
import WordLang.Token

/-!
# Grammar symbols

Every symbol has a type of values: a terminal stands for a token, and a nonterminal for what its phrases
mean.
-/

namespace WordLang.Grammar

/-- The phrases of the language; `start` is a whole text. -/
inductive Nonterminal where
  | start | unit | items | item | header | function
  | block | stmts | stmt | ifStmt | elseTail | simple | place
  | expr | disjunction | conjunction | equality | relation | sum | product | unary | primary
  | number | name | params | paramCommas | args | argCommas
deriving DecidableEq

namespace Nonterminal

def all : List Nonterminal :=
  [start, unit, items, item, header, function, block, stmts, stmt, ifStmt, elseTail, simple, place,
    expr, disjunction, conjunction, equality, relation, sum, product, unary, primary, number, name,
    params, paramCommas, args, argCommas]

/-- What the phrases of a nonterminal mean. A name comes with its place. -/
@[reducible] def Value : Nonterminal → Type
  | start | unit => CompilationUnit
  | items => List Item
  | item | function => Item
  | header => Header
  | block | stmts | elseTail => List Stmt
  | stmt | ifStmt => Stmt
  | simple => Simple
  | place => Place
  | expr | disjunction | conjunction | equality | relation | sum | product | unary | primary => Expr
  | number => Word
  | name => String × Nat
  | params | paramCommas => List String
  | args | argCommas => List Expr

end Nonterminal

inductive Symbol where
  | terminal (t : Terminal)
  | nonterminal (n : Nonterminal)
deriving DecidableEq

@[reducible] def Symbol.Value : Symbol → Type
  | terminal _ => Token
  | nonterminal n => n.Value

/-- One value for each symbol of a list. -/
@[reducible] def Values : List Symbol → Type
  | [] => Unit
  | s :: ss => s.Value × Values ss

end WordLang.Grammar
