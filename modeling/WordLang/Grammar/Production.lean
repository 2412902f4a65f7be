import WordLang.Grammar.Symbol

/-!
# Productions

The grammar of the language, with the meaning of every production. Binary operators associate to the left
and bind in six levels; unary operators bind tighter. Lists in parentheses may end in a comma.
-/

namespace WordLang.Grammar

/-- A production without its meaning. -/
structure Rule where
  lhs : Nonterminal
  rhs : List Symbol
deriving DecidableEq

/-- A production: a phrase of `lhs` is made of phrases of `rhs`. Its meaning is built from theirs, unless
a literal in it is out of range. -/
structure Production where
  lhs : Nonterminal
  rhs : List Symbol
  build : Values rhs → Option lhs.Value

def Production.rule (p : Production) : Rule :=
  ⟨p.lhs, p.rhs⟩

private abbrev t (kind : Terminal) : Symbol :=
  .terminal kind

private abbrev n (phrase : Nonterminal) : Symbol :=
  .nonterminal phrase

/-- The productions; the first one is for a whole text. -/
def productions : List Production :=
  [ ⟨.start, [n .unit], fun (unit, _) => some unit⟩,
    ⟨.unit, [], fun _ => some ⟨[]⟩⟩,
    ⟨.unit, [n .items], fun (items, _) => some ⟨items⟩⟩,
    ⟨.items, [n .item], fun (item, _) => some [item]⟩,
    ⟨.items, [n .items, n .item], fun (items, item, _) => some (items ++ [item])⟩,
    ⟨.item, [n .function], fun (item, _) => some item⟩,
    ⟨.item, [t .kwExtern, n .header, t .semicolon], fun (_, header, _) => some (Item.external header)⟩,
    ⟨.item, [n .stmt], fun (stmt, _) => some (Item.stmt stmt)⟩,
    ⟨.header, [t .kwFunction, n .name, t .lparen, n .params, t .rparen],
      fun (_, (name, pos), _, params, _) => some ⟨name, params, pos⟩⟩,
    ⟨.function, [n .header, n .block], fun (header, body, _) => some (Item.function header body)⟩,

    ⟨.block, [t .lbrace, t .rbrace], fun _ => some []⟩,
    ⟨.block, [t .lbrace, n .stmts, t .rbrace], fun (_, stmts, _) => some stmts⟩,
    ⟨.stmts, [n .stmt], fun (stmt, _) => some [stmt]⟩,
    ⟨.stmts, [n .stmts, n .stmt], fun (stmts, stmt, _) => some (stmts ++ [stmt])⟩,

    ⟨.stmt, [n .simple, t .semicolon], fun (simple, _) => some (Stmt.simple simple)⟩,
    ⟨.stmt, [n .ifStmt], fun (stmt, _) => some stmt⟩,
    ⟨.stmt, [t .kwWhile, t .lparen, n .expr, t .rparen, n .block],
      fun (_, _, cond, _, body, _) => some (Stmt.whileLoop cond body)⟩,
    ⟨.stmt, [t .kwFor, t .lparen, t .semicolon, t .semicolon, t .rparen, n .block],
      fun (_, _, _, _, _, body, _) => some (Stmt.forLoop none none none body)⟩,
    ⟨.stmt, [t .kwFor, t .lparen, t .semicolon, t .semicolon, n .simple, t .rparen, n .block],
      fun (_, _, _, _, step, _, body, _) => some (Stmt.forLoop none none (some step) body)⟩,
    ⟨.stmt, [t .kwFor, t .lparen, t .semicolon, n .expr, t .semicolon, t .rparen, n .block],
      fun (_, _, _, cond, _, _, body, _) => some (Stmt.forLoop none (some cond) none body)⟩,
    ⟨.stmt, [t .kwFor, t .lparen, t .semicolon, n .expr, t .semicolon, n .simple, t .rparen, n .block],
      fun (_, _, _, cond, _, step, _, body, _) =>
        some (Stmt.forLoop none (some cond) (some step) body)⟩,
    ⟨.stmt, [t .kwFor, t .lparen, n .simple, t .semicolon, t .semicolon, t .rparen, n .block],
      fun (_, _, init, _, _, _, body, _) => some (Stmt.forLoop (some init) none none body)⟩,
    ⟨.stmt, [t .kwFor, t .lparen, n .simple, t .semicolon, t .semicolon, n .simple, t .rparen, n .block],
      fun (_, _, init, _, _, step, _, body, _) =>
        some (Stmt.forLoop (some init) none (some step) body)⟩,
    ⟨.stmt, [t .kwFor, t .lparen, n .simple, t .semicolon, n .expr, t .semicolon, t .rparen, n .block],
      fun (_, _, init, _, cond, _, _, body, _) =>
        some (Stmt.forLoop (some init) (some cond) none body)⟩,
    ⟨.stmt,
      [t .kwFor, t .lparen, n .simple, t .semicolon, n .expr, t .semicolon, n .simple, t .rparen, n .block],
      fun (_, _, init, _, cond, _, step, _, body, _) =>
        some (Stmt.forLoop (some init) (some cond) (some step) body)⟩,
    ⟨.stmt, [t .kwReturn, t .semicolon], fun _ => some (Stmt.ret none)⟩,
    ⟨.stmt, [t .kwReturn, n .expr, t .semicolon], fun (_, value, _) => some (Stmt.ret (some value))⟩,
    ⟨.stmt, [n .block], fun (body, _) => some (Stmt.block body)⟩,

    ⟨.ifStmt, [t .kwIf, t .lparen, n .expr, t .rparen, n .block],
      fun (_, _, cond, _, body, _) => some (Stmt.ifThen cond body)⟩,
    ⟨.ifStmt, [t .kwIf, t .lparen, n .expr, t .rparen, n .block, t .kwElse, n .elseTail],
      fun (_, _, cond, _, body, _, other, _) => some (Stmt.ifElse cond body other)⟩,
    ⟨.elseTail, [n .block], fun (body, _) => some body⟩,
    ⟨.elseTail, [n .ifStmt], fun (stmt, _) => some [stmt]⟩,

    ⟨.simple, [t .kwVar, n .name], fun (_, (name, pos), _) => some (Simple.var name none pos)⟩,
    ⟨.simple, [t .kwVar, n .name, t .assign, n .expr],
      fun (_, (name, pos), _, init, _) => some (Simple.var name (some init) pos)⟩,
    ⟨.simple, [t .kwVar, n .name, t .lbracket, n .number, t .rbracket],
      fun (_, (name, pos), _, length, _) => some (Simple.array name length pos)⟩,
    ⟨.simple, [n .place, t .assign, n .expr],
      fun (target, _, value, _) => some (Simple.assign target value)⟩,
    ⟨.simple, [n .expr], fun (value, _) => some (Simple.expr value)⟩,
    ⟨.place, [n .name], fun ((name, pos), _) => some (Place.var name pos)⟩,
    ⟨.place, [n .name, t .lbracket, n .expr, t .rbracket],
      fun ((name, pos), _, index, _) => some (Place.element name index pos)⟩,

    ⟨.expr, [n .disjunction], fun (e, _) => some e⟩,
    ⟨.disjunction, [n .conjunction], fun (e, _) => some e⟩,
    ⟨.disjunction, [n .disjunction, t .barBar, n .conjunction],
      fun (l, _, r, _) => some (Expr.binary .lor l r)⟩,
    ⟨.conjunction, [n .equality], fun (e, _) => some e⟩,
    ⟨.conjunction, [n .conjunction, t .ampAmp, n .equality],
      fun (l, _, r, _) => some (Expr.binary .land l r)⟩,
    ⟨.equality, [n .relation], fun (e, _) => some e⟩,
    ⟨.equality, [n .equality, t .eqEq, n .relation], fun (l, _, r, _) => some (Expr.binary .eq l r)⟩,
    ⟨.equality, [n .equality, t .bangEq, n .relation], fun (l, _, r, _) => some (Expr.binary .ne l r)⟩,
    ⟨.relation, [n .sum], fun (e, _) => some e⟩,
    ⟨.relation, [n .relation, t .lt, n .sum], fun (l, _, r, _) => some (Expr.binary .lt l r)⟩,
    ⟨.relation, [n .relation, t .gt, n .sum], fun (l, _, r, _) => some (Expr.binary .gt l r)⟩,
    ⟨.relation, [n .relation, t .le, n .sum], fun (l, _, r, _) => some (Expr.binary .le l r)⟩,
    ⟨.relation, [n .relation, t .ge, n .sum], fun (l, _, r, _) => some (Expr.binary .ge l r)⟩,
    ⟨.sum, [n .product], fun (e, _) => some e⟩,
    ⟨.sum, [n .sum, t .plus, n .product], fun (l, _, r, _) => some (Expr.binary .add l r)⟩,
    ⟨.sum, [n .sum, t .minus, n .product], fun (l, _, r, _) => some (Expr.binary .sub l r)⟩,
    ⟨.product, [n .unary], fun (e, _) => some e⟩,
    ⟨.product, [n .product, t .star, n .unary], fun (l, _, r, _) => some (Expr.binary .mul l r)⟩,
    ⟨.product, [n .product, t .slash, n .unary], fun (l, _, r, _) => some (Expr.binary .div l r)⟩,
    ⟨.product, [n .product, t .percent, n .unary], fun (l, _, r, _) => some (Expr.binary .mod l r)⟩,
    ⟨.unary, [n .primary], fun (e, _) => some e⟩,
    ⟨.unary, [t .plus, n .unary], fun (_, e, _) => some e⟩,
    ⟨.unary, [t .minus, n .unary], fun (_, e, _) => some (Expr.unary .neg e)⟩,
    ⟨.unary, [t .bang, n .unary], fun (_, e, _) => some (Expr.unary .not e)⟩,
    ⟨.primary, [t .lparen, n .expr, t .rparen], fun (_, e, _) => some e⟩,
    ⟨.primary, [n .number], fun (value, _) => some (Expr.num value)⟩,
    ⟨.primary, [n .place], fun (place, _) => some place.toExpr⟩,
    ⟨.primary, [n .name, t .lparen, n .args, t .rparen],
      fun ((name, pos), _, args, _) => some (Expr.call name args pos)⟩,

    ⟨.number, [t .number], fun (token, _) => (Word.ofLiteral token.text).toOption⟩,
    ⟨.name, [t .identifier], fun (token, _) => some (token.text, token.start)⟩,
    ⟨.params, [], fun _ => some []⟩,
    ⟨.params, [n .name], fun ((name, _), _) => some [name]⟩,
    ⟨.params, [n .paramCommas], fun (names, _) => some names⟩,
    ⟨.params, [n .paramCommas, n .name], fun (names, (name, _), _) => some (names ++ [name])⟩,
    ⟨.paramCommas, [n .name, t .comma], fun ((name, _), _) => some [name]⟩,
    ⟨.paramCommas, [n .paramCommas, n .name, t .comma],
      fun (names, (name, _), _) => some (names ++ [name])⟩,
    ⟨.args, [], fun _ => some []⟩,
    ⟨.args, [n .expr], fun (e, _) => some [e]⟩,
    ⟨.args, [n .argCommas], fun (es, _) => some es⟩,
    ⟨.args, [n .argCommas, n .expr], fun (es, e, _) => some (es ++ [e])⟩,
    ⟨.argCommas, [n .expr, t .comma], fun (e, _) => some [e]⟩,
    ⟨.argCommas, [n .argCommas, n .expr, t .comma], fun (es, e, _) => some (es ++ [e])⟩ ]

def rules : List Rule :=
  productions.map Production.rule

end WordLang.Grammar
