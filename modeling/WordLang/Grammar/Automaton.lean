import WordLang.Grammar.First

/-!
# The automaton of viable prefixes

The states are the sets of items reachable from the start of a text. An item is a place in a rule, and an
automaton that has read some symbols is in the state of all places that these symbols can lead to.
-/

namespace WordLang.Grammar

/-- A place in the right side of a rule, after its first `dot` symbols. -/
structure Item where
  rule : Nat
  dot : Nat
  /-- The nonterminal of the rule. -/
  phrase : Nonterminal
  /-- The symbol after the place; none at the end of the rule. -/
  next? : Option Symbol

/-- The items of a rule from number `dot` on, when `rest` is still to be read. -/
def Item.along (rule : Nat) (phrase : Nonterminal) : Nat → List Symbol → List Item
  | dot, [] => [⟨rule, dot, phrase, none⟩]
  | dot, s :: rest => ⟨rule, dot, phrase, some s⟩ :: along rule phrase (dot + 1) rest

/-- The items of all rules. Reading a symbol leads from an item to the next one in the list. -/
def items : List Item :=
  rules.zipIdx.flatMap fun (rule, i) => Item.along i rule.lhs 0 rule.rhs

/-- A set of items, one bit for each item in their order. -/
structure ItemSet where
  bits : Nat := 0
deriving DecidableEq

namespace ItemSet

/-- The bits of those elements that have a property. -/
def select {α : Type} (p : α → Bool) : List α → Nat
  | [] => 0
  | a :: as => if p a then 2 * select p as + 1 else 2 * select p as

def reading (s : Symbol) : ItemSet :=
  ⟨select (fun item => item.next? = some s) items⟩

def starting (n : Nonterminal) : ItemSet :=
  ⟨select (fun item => item.dot == 0 && item.phrase = n) items⟩

def union (k l : ItemSet) : ItemSet :=
  ⟨k.bits ||| l.bits⟩

def inter (k l : ItemSet) : ItemSet :=
  ⟨k.bits &&& l.bits⟩

def isEmpty (k : ItemSet) : Bool :=
  k.bits == 0

/-- The items after those of a set. -/
def shift (k : ItemSet) : ItemSet :=
  ⟨k.bits <<< 1⟩

end ItemSet

/-- For each nonterminal the items that read it, and those at the start of its rules. -/
def openings : List (ItemSet × ItemSet) :=
  Nonterminal.all.map fun n => (.reading (.nonterminal n), .starting n)

def readings : List (Symbol × ItemSet) :=
  (Terminal.all.map Symbol.terminal ++ Nonterminal.all.map Symbol.nonterminal).map fun s =>
    (s, .reading s)

/-- Adds the starts of phrases that are read next. -/
def ItemSet.expand (k : ItemSet) : ItemSet :=
  openings.foldl (fun k (readers, starts) => if (k.inter readers).isEmpty then k else k.union starts) k

/-- Adds the items of all phrases that can start where an item stands. -/
def ItemSet.closure (kernel : ItemSet) : ItemSet :=
  stabilize ItemSet.expand Nonterminal.all.length kernel

/-- Where the symbols lead from a set of items. -/
def ItemSet.successors (kernel : ItemSet) : List (Symbol × ItemSet) :=
  let closed := kernel.closure
  readings.filterMap fun (s, readers) =>
    let moving := closed.inter readers
    if moving.isEmpty then none else some (s, moving.shift)

/-- Adds to the sets found all that can be reached from those still to be explored. -/
def explore : Nat → List ItemSet → List ItemSet → List ItemSet
  | 0, found, _ => found
  | _ + 1, found, [] => found
  | fuel + 1, found, kernel :: rest =>
    let new := (kernel.successors.map (·.2)).filter fun k => !found.contains k
    explore fuel (found ++ new) (rest ++ new)

def ItemSet.initial : ItemSet :=
  ⟨1⟩

/-- The states, as their items before closure. The first one is the start. -/
def kernels : List ItemSet :=
  explore 1000 [.initial] [.initial]

/-- For each state, the states to which symbols lead. -/
abbrev Edges := List (List (Symbol × Nat))

namespace Edges

/-- The edges between the states with some kernels. -/
def ofKernels (kernels : List ItemSet) : Edges :=
  kernels.map fun kernel => kernel.successors.map fun (s, target) => (s, kernels.idxOf target)

def target? (edges : Edges) (q : Nat) (s : Symbol) : Option Nat :=
  edges[q]?.bind fun row => row.lookup s

end Edges

def edges : Edges :=
  .ofKernels kernels

end WordLang.Grammar
