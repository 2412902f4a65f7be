import WordLang.Grammar.Production

/-!
# First sets

Which phrases can be empty, and which terminals can start a phrase.
-/

namespace WordLang.Grammar

/-- A set of terminals, one bit for each. -/
structure TerminalSet where
  bits : Nat := 0
deriving DecidableEq

namespace TerminalSet

def singleton (t : Terminal) : TerminalSet :=
  ⟨1 <<< t.ctorIdx⟩

def union (s u : TerminalSet) : TerminalSet :=
  ⟨s.bits ||| u.bits⟩

def contains (s : TerminalSet) (t : Terminal) : Bool :=
  s.bits.testBit t.ctorIdx

end TerminalSet

/-- Repeats a step until it changes nothing, `fuel` times at most. -/
def stabilize {α : Type} [DecidableEq α] (step : α → α) : Nat → α → α
  | 0, a => a
  | fuel + 1, a =>
    let b := step a
    if b = a then a else stabilize step fuel b

/-- The nonterminals with an empty phrase. -/
def nullable : List Nonterminal :=
  stabilize
    (fun known => Nonterminal.all.filter fun n => rules.any fun rule =>
      rule.lhs = n && rule.rhs.all fun
        | .terminal _ => false
        | .nonterminal m => known.contains m)
    Nonterminal.all.length []

/-- The terminals that may start a phrase of `symbols` followed by one of `after`; `starts` tells this of
a single nonterminal. -/
def firstOf (starts : Nonterminal → TerminalSet) (after : TerminalSet) : List Symbol → TerminalSet
  | [] => after
  | .terminal t :: _ => .singleton t
  | .nonterminal n :: symbols =>
    if nullable.contains n then (starts n).union (firstOf starts after symbols) else starts n

/-- One set of terminals for each nonterminal, by its number. -/
abbrev FirstTable := List TerminalSet

namespace FirstTable

def get (table : FirstTable) (n : Nonterminal) : TerminalSet :=
  table.getD n.ctorIdx {}

/-- What each nonterminal can start with, given what is known already. -/
def extend (table : FirstTable) : FirstTable :=
  Nonterminal.all.map fun n => (rules.filter fun rule => rule.lhs = n).foldl
    (fun s rule => s.union (firstOf table.get {} rule.rhs)) {}

/-- The least table that is closed under `extend`. -/
def least : FirstTable :=
  stabilize extend Nonterminal.all.length (Nonterminal.all.map fun _ => {})

end FirstTable

/-- The terminals that may start a phrase of `symbols` followed by one of `after`. -/
def first (symbols : List Symbol) (after : TerminalSet) : TerminalSet :=
  firstOf FirstTable.least.get after symbols

end WordLang.Grammar
