import WordLang.Text.Blank
import WordLang.Text.Name

/-!
# Tokens

A source text is cut into tokens from the left. Blanks between tokens are skipped. At each place the
longest prefix that is some token is taken; a keyword wins over an identifier of the same length. A
character that starts no token ends the reading.
-/

namespace WordLang

/-- The kinds of token, in the order in which messages list them. `eof` stands for the end of the text. -/
inductive Terminal where
  | bang | bangEq | percent | ampAmp | lparen | rparen | star | plus | comma | minus | slash
  | semicolon | lt | le | assign | eqEq | gt | ge | lbracket | rbracket
  | kwElse | kwExtern | kwFor | kwFunction | kwIf | kwReturn | kwVar | kwWhile
  | lbrace | barBar | rbrace
  | number
  | identifier
  | eof
deriving DecidableEq

namespace Terminal

def all : List Terminal :=
  [bang, bangEq, percent, ampAmp, lparen, rparen, star, plus, comma, minus, slash, semicolon, lt, le,
    assign, eqEq, gt, ge, lbracket, rbracket, kwElse, kwExtern, kwFor, kwFunction, kwIf, kwReturn,
    kwVar, kwWhile, lbrace, barBar, rbrace, number, identifier]

def spelling : Terminal → String
  | bang => "!"
  | bangEq => "!="
  | percent => "%"
  | ampAmp => "&&"
  | lparen => "("
  | rparen => ")"
  | star => "*"
  | plus => "+"
  | comma => ","
  | minus => "-"
  | slash => "/"
  | semicolon => ";"
  | lt => "<"
  | le => "<="
  | assign => "="
  | eqEq => "=="
  | gt => ">"
  | ge => ">="
  | lbracket => "["
  | rbracket => "]"
  | kwElse => "else"
  | kwExtern => "extern"
  | kwFor => "for"
  | kwFunction => "function"
  | kwIf => "if"
  | kwReturn => "return"
  | kwVar => "var"
  | kwWhile => "while"
  | lbrace => "\x7b"
  | barBar => "||"
  | rbrace => "\x7d"
  | number | identifier | eof => ""

/-- How a message names a kind: its spelling in quotes, or the pattern of its spellings. -/
def name : Terminal → String
  | number => "r#\"0[xX][0-9a-fA-F]+|0[bB][01]+|[0-9]+\"#"
  | identifier => "r#\"[A-Za-z_][A-Za-z0-9_]*\"#"
  | kind => "\"" ++ kind.spelling ++ "\""

end Terminal

/-- A token: its kind, its text, and the bytes `start` to `stop` that it takes in the source. -/
structure Token where
  kind : Terminal
  text : String
  start : Nat
  stop : Nat

namespace Token

def isIdentStart (c : Char) : Bool :=
  c.isAlpha || c == '_'

def isHexDigit (c : Char) : Bool :=
  c.isDigit || ('a' ≤ c && c ≤ 'f') || ('A' ≤ c && c ≤ 'F')

def isBinaryDigit (c : Char) : Bool :=
  c == '0' || c == '1'

/-- The length of the longest identifier or keyword at the front. -/
def identifierLength : List Char → Nat
  | c :: cs => if isIdentStart c then 1 + (cs.takeWhile Text.isNameChar).length else 0
  | [] => 0

/-- The length of a numeral after its marker, the marker included, or `1` for the zero before it. -/
def markedLength (isDigit : Char → Bool) (cs : List Char) : Nat :=
  match (cs.takeWhile isDigit).length with
  | 0 => 1
  | n + 1 => n + 3

/-- The length of the longest numeral at the front: hexadecimal, binary or decimal. -/
def numberLength : List Char → Nat
  | '0' :: 'x' :: cs | '0' :: 'X' :: cs => markedLength isHexDigit cs
  | '0' :: 'b' :: cs | '0' :: 'B' :: cs => markedLength isBinaryDigit cs
  | cs => (cs.takeWhile Char.isDigit).length

/-- The length of the longest prefix of a text that is a token of some kind; zero if there is none. -/
def prefixLength : Terminal → List Char → Nat
  | .number, cs => numberLength cs
  | .identifier, cs => identifierLength cs
  | kind, cs => if kind.spelling.toList.isPrefixOf cs then kind.spelling.length else 0

/-- The kind and length of the longest token at the front; of two equally long ones, the kind listed
first. A length of zero means that there is none. -/
def longest (cs : List Char) : Terminal × Nat :=
  Terminal.all.foldl
    (fun best kind =>
      let length := prefixLength kind cs
      if best.2 < length then (kind, length) else best)
    (.eof, 0)

end Token

/-- The tokens of a text, and the offset of the first character that starts no token, if any. -/
structure Tokens where
  tokens : List Token
  invalid : Option Nat

namespace Tokens

/-- Cuts a text that starts at byte `offset` and whose first `skip` characters are used up. -/
def scanFrom (skip offset : Nat) : List Char → Tokens
  | [] => ⟨[], none⟩
  | c :: cs =>
    let next := offset + c.utf8Size
    if 0 < skip then scanFrom (skip - 1) next cs
    else if Text.isBlank c then scanFrom 0 next cs
    else
      let (kind, length) := Token.longest (c :: cs)
      if length = 0 then ⟨[], some offset⟩
      else
        let lexeme := (c :: cs).take length
        let rest := scanFrom (length - 1) next cs
        let token : Token := ⟨kind, String.ofList lexeme, offset, offset + Text.byteLength lexeme⟩
        ⟨token :: rest.tokens, rest.invalid⟩

def scan (source : String) : Tokens :=
  scanFrom 0 0 source.toList

end Tokens

end WordLang
