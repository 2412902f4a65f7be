import WordLang.Grammar.Lookahead

/-!
# Parsing

A shift-reduce parser that follows the automaton and computes the meaning of each phrase as it is
completed. The next token is looked at before any action, so a character that starts no token is reported
as soon as everything before it has been shifted.
-/

namespace WordLang

inductive SyntaxError where
  /-- No token starts at the offset. -/
  | invalidToken (offset : Nat)
  /-- The text ends where one of the `expected` kinds should stand. -/
  | unexpectedEnd (offset : Nat) (expected : List Terminal)
  /-- The token stands where one of the `expected` kinds should. -/
  | unexpectedToken (token : Token) (expected : List Terminal)
  /-- A numeral has no value as a word. -/
  | literalOutOfRange
  /-- The automaton does not fit the grammar. -/
  | stuck

namespace SyntaxError

/-- `A`, `A or B`, `A, B or C`, and so on. -/
def alternatives : List String → String
  | [] => ""
  | [a] => a
  | [a, b] => a ++ " or " ++ b
  | a :: rest => a ++ ", " ++ alternatives rest

/-- The line that lists what could have stood at the fault; nothing if the list is empty. -/
def expectation (expected : List Terminal) : String :=
  if expected.isEmpty then "" else "\nExpected one of " ++ alternatives (expected.map Terminal.name)

def message : SyntaxError → String
  | invalidToken offset => "syntax error: Invalid token at " ++ toString offset
  | unexpectedEnd offset expected =>
    "syntax error: Unrecognized EOF found at " ++ toString offset ++ expectation expected
  | unexpectedToken token expected =>
    "syntax error: Unrecognized token `" ++ token.text ++ "` found at " ++ toString token.start ++ ":" ++
      toString token.stop ++ expectation expected
  | literalOutOfRange => "syntax error: integer literal out of range"
  | stuck => "syntax error: no rule applies"

/-- The byte offset at which the fault lies, where that is known. -/
def offset? : SyntaxError → Option Nat
  | invalidToken offset | unexpectedEnd offset _ => some offset
  | unexpectedToken token _ => some token.start
  | literalOutOfRange | stuck => none

end SyntaxError

namespace Grammar

def productionTable : Array Production :=
  productions.toArray

/-- What a parser looks up: the actions and edges of an automaton, and the productions by number. -/
structure Tables where
  action? : Nat → Terminal → Option Action
  goto? : Nat → Symbol → Option Nat
  production? : Nat → Option Production

def tables : Tables :=
  ⟨State.action? stateTable, State.goto? stateTable, fun i => productionTable[i]?⟩

/-- The kinds of token on which a state has an action. -/
def Tables.expected (tables : Tables) (q : Nat) : List Terminal :=
  Terminal.all.filter fun t => (tables.action? q t).isSome

/-- A phrase on the parser's stack, and the state reached after it. -/
structure Entry where
  state : Nat
  symbol : Symbol
  value : symbol.Value

def top : List Entry → Nat
  | [] => 0
  | entry :: _ => entry.state

/-- The values of phrases, if they are phrases of the given symbols. -/
def Values.ofEntries? : (symbols : List Symbol) → List Entry → Option (Values symbols)
  | [], [] => some ()
  | s :: symbols, entry :: entries =>
    if h : entry.symbol = s then
      (ofEntries? symbols entries).map fun values => (h ▸ entry.value, values)
    else none
  | _, _ => none

/-- Replaces the phrases of a production's right side on top of the stack by the phrase they form. -/
def reduce (tables : Tables) (p : Production) (stack : List Entry) : Except SyntaxError (List Entry) :=
  let parts := (stack.take p.rhs.length).reverse
  let rest := stack.drop p.rhs.length
  match Values.ofEntries? p.rhs parts, tables.goto? (top rest) (.nonterminal p.lhs) with
  | some values, some target =>
    match p.build values with
    | some value => .ok (⟨target, .nonterminal p.lhs, value⟩ :: rest)
    | none => .error .literalOutOfRange
  | _, _ => .error .stuck

def accept : List Entry → Except SyntaxError CompilationUnit
  | [⟨_, .nonterminal .unit, unit⟩] => .ok unit
  | _ => .error .stuck

/-- Runs the automaton on `tokens`. The text ends after them, or the character at offset `invalid` starts
no token; `stop` is where the last token shifted ends. -/
def run (tables : Tables) (invalid : Option Nat) :
    Nat → List Entry → Nat → List Token → Except SyntaxError CompilationUnit
  | 0, _, _, _ => .error .stuck
  | fuel + 1, stack, stop, [] =>
    match invalid with
    | some offset => .error (.invalidToken offset)
    | none =>
      match tables.action? (top stack) .eof with
      | some .accept => accept stack
      | some (.reduce i) =>
        match tables.production? i with
        | some p => do run tables invalid fuel (← reduce tables p stack) stop []
        | none => .error .stuck
      | some (.shift _) => .error .stuck
      | none => .error (.unexpectedEnd stop (tables.expected (top stack)))
  | fuel + 1, stack, stop, token :: tokens =>
    match tables.action? (top stack) token.kind with
    | some (.shift target) =>
      run tables invalid fuel (⟨target, .terminal token.kind, token⟩ :: stack) token.stop tokens
    | some (.reduce i) =>
      match tables.production? i with
      | some p => do run tables invalid fuel (← reduce tables p stack) stop (token :: tokens)
      | none => .error .stuck
    | some .accept => .error .stuck
    | none => .error (.unexpectedToken token (tables.expected (top stack)))

end Grammar

/-- Reads a program. Each token is shifted once, and each reduction completes a phrase, of which there are
less than 63 for each token and the end of the text. -/
def CompilationUnit.parse (source : String) : Except SyntaxError CompilationUnit :=
  let text := Tokens.scan source
  Grammar.run Grammar.tables text.invalid (64 * (text.tokens.length + 1)) [] 0 text.tokens

end WordLang
