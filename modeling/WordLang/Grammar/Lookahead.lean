import WordLang.Grammar.Automaton

/-!
# Lookaheads

Which terminals may follow a phrase that starts in a state is the least solution of a system of
inclusions: walking a rule's right side from the state where its phrase starts, whatever may follow the
whole phrase may follow its last part, and what starts the rest of the rule may follow each earlier part.
A state reduces by a rule on the terminals that may follow the rule's phrase where that phrase started.
-/

namespace WordLang.Grammar

/-- A phrase on the way along a rule: the state in which it starts, and the rest of the rule after it. -/
structure Step where
  state : Nat
  phrase : Nonterminal
  rest : List Symbol

/-- The way along a rule from the state where its phrase starts. -/
structure Walk where
  start : Nat
  rule : Nat
  phrase : Nonterminal
  steps : List Step
  /-- The state after the last symbol of the rule. -/
  last : Nat

namespace Edges

/-- The phrases on the way along symbols, and the state after them. -/
def walk (edges : Edges) (q : Nat) : List Symbol → Option (List Step × Nat)
  | [] => some ([], q)
  | s :: rest => do
    let (steps, last) ← edges.walk (← edges.target? q s) rest
    match s with
    | .terminal _ => some (steps, last)
    | .nonterminal n => some (⟨q, n, rest⟩ :: steps, last)

def phrases (row : List (Symbol × Nat)) : List Nonterminal :=
  row.filterMap fun
    | (.nonterminal n, _) => some n
    | (.terminal _, _) => none

/-- The walks along the rules of a nonterminal from a state. -/
def walksOf (edges : Edges) (q : Nat) (n : Nonterminal) : List Walk :=
  rules.zipIdx.filterMap fun (rule, i) =>
    if rule.lhs = n then (edges.walk q rule.rhs).map fun (steps, last) => ⟨q, i, n, steps, last⟩
    else none

/-- The walks along all rules from all states in which their phrases can start. -/
def walks (edges : Edges) : List Walk :=
  edges.walksOf 0 .start ++
    edges.zipIdx.flatMap fun (row, q) => (phrases row).flatMap fun n => edges.walksOf q n

end Edges

/-- For each state and each phrase that starts in it, the terminals that may follow the phrase: 64 bits each,
more than there are terminals. -/
structure FollowTable where
  bits : Nat := 0
deriving DecidableEq

namespace FollowTable

/-- Where the bits of a phrase that starts in a state begin. -/
def offset (q : Nat) (n : Nonterminal) : Nat :=
  64 * (Nonterminal.all.length * q + n.ctorIdx)

def get (table : FollowTable) (q : Nat) (n : Nonterminal) : TerminalSet :=
  ⟨(table.bits >>> offset q n) % Nat.pow 2 64⟩

def add (table : FollowTable) (q : Nat) (n : Nonterminal) (s : TerminalSet) : FollowTable :=
  ⟨table.bits ||| s.bits <<< offset q n⟩

/-- Adds what follows the phrases on the way along rules: what starts the rest of the rule, and where that
can be empty, what may follow the whole. -/
def extend (walks : List Walk) (table : FollowTable) : FollowTable :=
  walks.foldl (fun table walk => walk.steps.foldl (fun table step =>
    table.add step.state step.phrase (first step.rest (table.get walk.start walk.phrase))) table) table

/-- A whole text is followed by the end of input. -/
def initial : FollowTable :=
  add {} 0 .start (.singleton .eof)

def least (walks : List Walk) : FollowTable :=
  stabilize (extend walks) 1000 initial

end FollowTable

/-- A state of the automaton: where symbols lead, and the rules by which it reduces, with the terminals on
which it does. -/
structure State where
  edges : List (Symbol × Nat)
  reductions : List (Nat × TerminalSet)

namespace State

/-- The reductions in the state `q`: by each rule to whose end a walk leads, on what may follow its phrase. -/
def reductionsAt (walks : List Walk) (follow : FollowTable) (q : Nat) : List (Nat × TerminalSet) :=
  let ending := walks.filter fun walk => walk.last == q
  (ending.map (·.rule)).eraseDups.map fun rule =>
    (rule, (ending.filter fun walk => walk.rule == rule).foldl
      (fun s walk => s.union (follow.get walk.start walk.phrase)) {})

/-- The states of the automaton with some edges and walks. -/
def ofWalks (edges : Edges) (walks : List Walk) (follow : FollowTable) : List State :=
  edges.zipIdx.map fun (row, q) => ⟨row, reductionsAt walks follow q⟩

end State

def walks : List Walk :=
  edges.walks

def follow : FollowTable :=
  .least walks

def states : List State :=
  State.ofWalks edges walks follow

def stateTable : Array State :=
  states.toArray

/-- What to do in a state on a terminal. -/
inductive Action where
  | shift (target : Nat)
  | reduce (rule : Nat)
  | accept

namespace State

/-- Where a symbol leads from a state of a table. -/
def goto? (table : Array State) (q : Nat) (s : Symbol) : Option Nat :=
  table[q]?.bind fun state => state.edges.lookup s

/-- The action of a state of a table on a terminal, if there is one. Reducing by the first rule accepts. -/
def action? (table : Array State) (q : Nat) (t : Terminal) : Option Action :=
  match goto? table q (.terminal t) with
  | some target => some (.shift target)
  | none =>
    match table[q]?.bind fun state => state.reductions.find? fun reduction => reduction.2.contains t with
    | some (0, _) => some .accept
    | some (rule, _) => some (.reduce rule)
    | none => none

end State

end WordLang.Grammar
