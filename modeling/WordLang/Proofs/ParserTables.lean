import WordLang.Grammar.Parse

/-!
# The tables of the parser

The automaton is computed from the grammar. That it fits the grammar is found by computing, too: first sets
are closed under the rules; from a state in which a phrase can start, each of its rules can be followed to
the end; lookaheads are closed along these walks; and no state has two actions on one terminal. What follows
from the computation is said of the functions by which the parser looks up its actions.
-/

namespace WordLang.Grammar

namespace TerminalSet

variable {s u : TerminalSet} {t : Terminal}

def subset (s u : TerminalSet) : Bool :=
  s.bits ||| u.bits == u.bits

private theorem contains_of_subset (h : s.subset u = true) (ht : s.contains t = true) : u.contains t = true := by
  unfold contains at ht ⊢
  rw [← eq_of_beq h, Nat.testBit_or, ht, Bool.true_or]

@[simp] theorem contains_union : (s.union u).contains t = (s.contains t || u.contains t) :=
  Nat.testBit_or _ _ _

@[simp] theorem contains_empty : contains {} t = false :=
  Nat.zero_testBit _

theorem contains_singleton : (singleton t).contains t = true := by
  simp [contains, singleton, Nat.testBit_shiftLeft]

end TerminalSet

section First

/-- Phrases of the symbols can be empty. -/
def transparent (symbols : List Symbol) : Bool :=
  symbols.all fun
    | .terminal _ => false
    | .nonterminal n => nullable.contains n

private theorem contains_first (symbols : List Symbol) (after : TerminalSet) (t : Terminal) :
    (first symbols after).contains t =
      ((first symbols {}).contains t || (transparent symbols && after.contains t)) := by
  induction symbols with
  | nil => simp [first, firstOf, transparent]
  | cons s symbols ih =>
    cases s with
    | terminal kind => simp [first, firstOf, transparent]
    | nonterminal n =>
      unfold first at ih
      by_cases hn : nullable.contains n = true
      · simp only [first, firstOf, transparent, hn, if_true, TerminalSet.contains_union, List.all_cons,
          Bool.true_and, ih, Bool.or_assoc]
      · simp only [first, firstOf, transparent, hn, List.all_cons, Bool.false_and, Bool.or_false,
          Bool.false_eq_true, if_false]

/-- The right side of each rule starts with what its phrase starts with, and is empty only if that can be. -/
def firstClosed : Bool :=
  rules.all fun rule =>
    (first rule.rhs {}).subset (FirstTable.least.get rule.lhs) &&
      (!transparent rule.rhs || nullable.contains rule.lhs)

private theorem firstClosed_eq : firstClosed = true := by
  decide +kernel

theorem contains_first_lhs {rule : Rule} (hrule : rule ∈ rules) {symbols : List Symbol}
    {after : TerminalSet} {t : Terminal}
    (h : (first rule.rhs (first symbols after)).contains t = true) :
    (first (.nonterminal rule.lhs :: symbols) after).contains t = true := by
  have hclosed := List.all_eq_true.mp firstClosed_eq rule hrule
  rw [Bool.and_eq_true, Bool.or_eq_true] at hclosed
  obtain ⟨hsubset, hempty⟩ := hclosed
  rw [contains_first, Bool.or_eq_true, Bool.and_eq_true] at h
  change TerminalSet.contains (if nullable.contains rule.lhs = true then
    (FirstTable.least.get rule.lhs).union (first symbols after) else FirstTable.least.get rule.lhs) t = true
  rcases h with h | ⟨htransparent, h⟩
  · have hlhs := TerminalSet.contains_of_subset hsubset h
    split
    · simp [hlhs]
    · exact hlhs
  · have hlhs : nullable.contains rule.lhs = true := by simpa [htransparent] using hempty
    rw [if_pos hlhs, TerminalSet.contains_union, h, Bool.or_true]

end First

namespace Edges

variable {edges : Edges} {q : Nat}

/-- The rules of a phrase can be followed from a state. -/
def covers (edges : Edges) (q : Nat) (n : Nonterminal) : Bool :=
  rules.all fun rule => rule.lhs ≠ n || (edges.walk q rule.rhs).isSome

/-- The rules of every phrase can be followed from every state in which it can start. -/
def complete (edges : Edges) : Bool :=
  edges.covers 0 .start && edges.zipIdx.all fun (row, q) => (phrases row).all (edges.covers q)

/-- A phrase can start in a state. -/
def Starts (edges : Edges) (q : Nat) (n : Nonterminal) : Prop :=
  (q = 0 ∧ n = .start) ∨ ∃ target, edges.target? q (.nonterminal n) = some target

theorem mem_of_target? {s : Symbol} {target : Nat} (h : edges.target? q s = some target) :
    ∃ row, edges[q]? = some row ∧ (s, target) ∈ row := by
  obtain ⟨row, hrow, hlookup⟩ := Option.bind_eq_some_iff.mp h
  refine ⟨row, hrow, ?_⟩
  obtain ⟨before, after, rfl, -⟩ := List.lookup_eq_some_iff.mp hlookup
  simp

private theorem mem_phrases {n : Nonterminal} {target : Nat} (h : edges.target? q (.nonterminal n) = some target) :
    ∃ row, (row, q) ∈ edges.zipIdx ∧ n ∈ phrases row := by
  obtain ⟨row, hrow, hmem⟩ := mem_of_target? h
  exact ⟨row, List.mk_mem_zipIdx_iff_getElem?.mpr hrow, List.mem_filterMap.mpr ⟨_, hmem, rfl⟩⟩

private theorem Starts.covers {n : Nonterminal} (hstart : edges.Starts q n) (h : edges.complete = true) :
    edges.covers q n = true := by
  obtain ⟨hroot, hrows⟩ := Bool.and_eq_true_iff.mp h
  rcases hstart with ⟨rfl, rfl⟩ | ⟨target, htarget⟩
  · exact hroot
  · obtain ⟨row, hrow, hn⟩ := mem_phrases htarget
    exact List.all_eq_true.mp (List.all_eq_true.mp hrows _ hrow) n hn

private theorem Starts.mem_walks {n : Nonterminal} {walk : Walk} (hstart : edges.Starts q n)
    (h : walk ∈ edges.walksOf q n) : walk ∈ edges.walks := by
  rcases hstart with ⟨rfl, rfl⟩ | ⟨target, htarget⟩
  · exact List.mem_append_left _ h
  · obtain ⟨row, hrow, hn⟩ := mem_phrases htarget
    apply List.mem_append_right
    exact List.mem_flatMap.mpr ⟨_, hrow, List.mem_flatMap.mpr ⟨n, hn, h⟩⟩

private theorem mem_walksOf {i last : Nat} {rule : Rule} {steps : List Step} (hrule : rules[i]? = some rule)
    (h : edges.walk q rule.rhs = some (steps, last)) :
    ⟨q, i, rule.lhs, steps, last⟩ ∈ edges.walksOf q rule.lhs := by
  apply List.mem_filterMap.mpr
  refine ⟨(rule, i), List.mk_mem_zipIdx_iff_getElem?.mpr hrule, ?_⟩
  simp [h]

end Edges

/-- Whatever may follow a phrase on a walk is among its lookaheads. -/
def FollowTable.closed (follow : FollowTable) (walks : List Walk) : Bool :=
  walks.all fun walk => walk.steps.all fun step =>
    (first step.rest (follow.get walk.start walk.phrase)).subset (follow.get step.state step.phrase)

/-- What a state does on some terminals: it reduces by the rule with the number `choice`, or it shifts, if
that is the number of rules. -/
structure Decision where
  choice : Nat
  state : Nat
  terminals : TerminalSet

namespace Decision

/-- The decisions of all states: to shift along an edge, and to reduce where a walk ends. -/
def all (edges : Edges) (walks : List Walk) (follow : FollowTable) : List Decision :=
  (edges.zipIdx.flatMap fun (row, q) => row.filterMap fun
    | (.terminal t, _) => some ⟨rules.length, q, .singleton t⟩
    | (.nonterminal _, _) => none) ++
  walks.map fun walk => ⟨walk.rule, walk.last, follow.get walk.start walk.phrase⟩

/-- All decisions in one number: `width` bits for each choice, of which 64 are for each state. -/
def pack (width : Nat) (decisions : List Decision) : Nat :=
  decisions.foldl (fun bits d => bits ||| d.terminals.bits <<< (width * d.choice + 64 * d.state)) 0

/-- No two choices meet in one of `states` states on a terminal. -/
def unique (states : Nat) (decisions : List Decision) : Bool :=
  let width := 64 * states
  let bits := pack width decisions
  (decisions.all fun d => decide (d.choice ≤ rules.length) && decide (d.state < states)) &&
    (List.range (rules.length + 1)).all fun i => (List.range i).all fun j =>
      ((bits >>> (width * i)) &&& (bits >>> (width * j))) % Nat.pow 2 width == 0

variable {decisions : List Decision} {d d' : Decision} {t : Terminal}

private theorem testBit_foldl_or {α : Type} (f : α → Nat) (as : List α) (init k : Nat) :
    (as.foldl (fun bits a => bits ||| f a) init).testBit k =
      (init.testBit k || as.any fun a => (f a).testBit k) := by
  induction as generalizing init with
  | nil => simp
  | cons a as ih => simp [ih, Nat.testBit_or, Bool.or_assoc]

private theorem testBit_pack (width : Nat) (hd : d ∈ decisions) (ht : d.terminals.contains t = true) :
    (pack width decisions).testBit (width * d.choice + (64 * d.state + t.ctorIdx)) = true := by
  rw [pack, testBit_foldl_or, Nat.zero_testBit, Bool.false_or, List.any_eq_true]
  refine ⟨d, hd, ?_⟩
  have hbit : d.terminals.bits.testBit t.ctorIdx = true := ht
  rw [Nat.testBit_shiftLeft, ← Nat.add_assoc, Nat.add_sub_cancel_left, hbit]
  simp

private theorem ctorIdx_lt (t : Terminal) : t.ctorIdx < 64 := by
  cases t <;> decide

theorem state_lt {states : Nat} (h : unique states decisions = true) (hd : d ∈ decisions) :
    d.state < states := by
  have hall := List.all_eq_true.mp (Bool.and_eq_true_iff.mp h).1 d hd
  exact of_decide_eq_true (Bool.and_eq_true_iff.mp hall).2

/-- Where decisions are unique, those of one state that share a terminal are the same choice. -/
theorem choice_eq {states : Nat} (h : unique states decisions = true) (hd : d ∈ decisions)
    (hd' : d' ∈ decisions) (hstate : d.state = d'.state) (ht : d.terminals.contains t = true)
    (ht' : d'.terminals.contains t = true) : d.choice = d'.choice := by
  simp only [unique, Bool.and_eq_true, List.all_eq_true, decide_eq_true_eq, List.mem_range, beq_iff_eq] at h
  obtain ⟨hbounds, hranges⟩ := h
  have hlt {d d' : Decision} (hd : d ∈ decisions) (hd' : d' ∈ decisions) (hstate : d.state = d'.state)
      (ht : d.terminals.contains t = true) (ht' : d'.terminals.contains t = true) :
      ¬ d'.choice < d.choice := by
    intro hchoice
    have hbound := hbounds d hd
    have hzero := hranges d.choice (by omega) d'.choice hchoice
    have hbit := congrArg (Nat.testBit · (64 * d.state + t.ctorIdx)) hzero
    have hwidth : 64 * d.state + t.ctorIdx < 64 * states := by
      have := ctorIdx_lt t
      omega
    rw [Nat.pow_eq, Nat.testBit_mod_two_pow, Nat.testBit_and, Nat.testBit_shiftRight, Nat.testBit_shiftRight,
      testBit_pack _ hd ht, hstate, testBit_pack _ hd' ht', ← hstate, Nat.zero_testBit] at hbit
    simp [hwidth] at hbit
  have hle := hlt hd hd' hstate ht ht'
  have hge := hlt hd' hd hstate.symm ht' ht
  omega

end Decision

namespace State

variable {walks : List Walk} {follow : FollowTable} {q : Nat} {t : Terminal}

private theorem contains_foldl_union (f : Walk → TerminalSet) (ways : List Walk) (s : TerminalSet) :
    (ways.foldl (fun s walk => s.union (f walk)) s).contains t =
      (s.contains t || ways.any fun walk => (f walk).contains t) := by
  induction ways generalizing s with
  | nil => simp
  | cons walk ways ih => simp [ih, Bool.or_assoc]

/-- A state reduces by a rule on what may follow the rule's phrase on some walk that ends in the state. -/
theorem contains_reductionsAt {rule : Nat} {s : TerminalSet} (h : (rule, s) ∈ reductionsAt walks follow q) :
    s.contains t = true ↔ ∃ walk ∈ walks, walk.last = q ∧ walk.rule = rule ∧
      (follow.get walk.start walk.phrase).contains t = true := by
  obtain ⟨_, -, hs⟩ := List.mem_map.mp h
  obtain ⟨rfl, rfl⟩ := Prod.mk.inj hs
  rw [contains_foldl_union, TerminalSet.contains_empty, Bool.false_or, List.any_eq_true]
  simp only [List.mem_filter, beq_iff_eq, and_assoc]

private theorem exists_reductionsAt (follow : FollowTable) {walk : Walk} (hwalk : walk ∈ walks) :
    ∃ s, (walk.rule, s) ∈ reductionsAt walks follow walk.last := by
  refine ⟨_, List.mem_map.mpr ⟨walk.rule, ?_, rfl⟩⟩
  rw [List.mem_eraseDups]
  exact List.mem_map_of_mem (List.mem_filter.mpr ⟨hwalk, beq_self_eq_true _⟩)

private theorem find?_reductionsAt {walk : Walk} (hwalk : walk ∈ walks)
    (ht : (follow.get walk.start walk.phrase).contains t = true)
    (hunique : ∀ walk' ∈ walks, walk'.last = walk.last →
      (follow.get walk'.start walk'.phrase).contains t = true → walk'.rule = walk.rule) :
    ∃ s, (reductionsAt walks follow walk.last).find? (fun reduction => reduction.2.contains t) =
      some (walk.rule, s) := by
  obtain ⟨s, hs⟩ := exists_reductionsAt follow hwalk
  have hcontains : s.contains t = true := (contains_reductionsAt hs).mpr ⟨walk, hwalk, rfl, rfl, ht⟩
  cases hfind : (reductionsAt walks follow walk.last).find? fun reduction => reduction.2.contains t with
  | none =>
    have hnone := List.find?_eq_none.mp hfind _ hs
    exact absurd hcontains hnone
  | some reduction =>
    obtain ⟨rule, s'⟩ := reduction
    have hs' := List.mem_of_find?_eq_some hfind
    have hcontains' := List.find?_some hfind
    obtain ⟨walk', hwalk', hlast, rfl, ht'⟩ := (contains_reductionsAt hs').mp hcontains'
    exact ⟨s', by rw [hunique walk' hwalk' hlast ht']⟩

end State

/-- An automaton that fits the grammar: the rules can be followed wherever their phrases can start, lookaheads
are closed, the end of the text may follow a whole text, and no state has two actions on one terminal. -/
structure Fit (edges : Edges) (follow : FollowTable) : Prop where
  complete : edges.complete = true
  closed : follow.closed edges.walks = true
  ending : (follow.get 0 .start).contains .eof = true
  unique : Decision.unique edges.length (Decision.all edges edges.walks follow) = true

def tableOf (edges : Edges) (follow : FollowTable) : Array State :=
  (State.ofWalks edges edges.walks follow).toArray

section Fit

variable {edges : Edges} {follow : FollowTable} {q i last target : Nat} {n : Nonterminal} {t : Terminal}

theorem tableOf_getElem? (edges : Edges) (follow : FollowTable) (q : Nat) :
    (tableOf edges follow)[q]? =
      edges[q]?.map fun row => ⟨row, State.reductionsAt edges.walks follow q⟩ := by
  rw [tableOf, List.getElem?_toArray, State.ofWalks, List.getElem?_map, List.getElem?_zipIdx]
  cases edges[q]? <;> simp

theorem goto?_tableOf (s : Symbol) : State.goto? (tableOf edges follow) q s = edges.target? q s := by
  rw [State.goto?, tableOf_getElem?, Edges.target?]
  cases edges[q]? <;> rfl

theorem action?_shift (h : edges.target? q (.terminal t) = some target) :
    State.action? (tableOf edges follow) q t = some (.shift target) := by
  rw [State.action?, goto?_tableOf, h]

theorem mem_decisions_walk (follow : FollowTable) {walk : Walk} (hwalk : walk ∈ edges.walks) :
    ⟨walk.rule, walk.last, follow.get walk.start walk.phrase⟩ ∈ Decision.all edges edges.walks follow :=
  List.mem_append_right _ (List.mem_map_of_mem hwalk)

private theorem mem_decisions_edge (h : edges.target? q (.terminal t) = some target) :
    ⟨rules.length, q, .singleton t⟩ ∈ Decision.all edges edges.walks follow := by
  obtain ⟨row, hrow, hmem⟩ := Edges.mem_of_target? h
  apply List.mem_append_left
  rw [List.mem_flatMap]
  exact ⟨(row, q), List.mk_mem_zipIdx_iff_getElem?.mpr hrow, List.mem_filterMap.mpr ⟨_, hmem, rfl⟩⟩

private theorem Fit.action?_reduce (hfit : Fit edges follow) {steps : List Step}
    (hwalk : ⟨q, i, n, steps, last⟩ ∈ edges.walks) (hi : i < rules.length)
    (ht : (follow.get q n).contains t = true) :
    State.action? (tableOf edges follow) last t = some (if i = 0 then .accept else .reduce i) := by
  have hdecision := mem_decisions_walk follow hwalk
  have htarget : edges.target? last (.terminal t) = none := by
    cases h : edges.target? last (.terminal t) with
    | none => rfl
    | some target =>
      have hchoice := Decision.choice_eq hfit.unique hdecision (mem_decisions_edge h) rfl ht
        TerminalSet.contains_singleton
      exact absurd hchoice (Nat.ne_of_lt hi)
  have hlast : last < edges.length := Decision.state_lt hfit.unique hdecision
  obtain ⟨s, hfind⟩ := State.find?_reductionsAt hwalk ht fun walk hwalk' hlast' ht' =>
    Decision.choice_eq hfit.unique (mem_decisions_walk follow hwalk') hdecision hlast' ht' ht
  rw [State.action?, goto?_tableOf, htarget, tableOf_getElem?, List.getElem?_eq_getElem hlast,
    Option.map_some, Option.bind_some, hfind]
  cases i <;> rfl

/-- From a state in which a phrase can start, each rule of the phrase can be followed to its end, where the
automaton reduces by it on what may follow the phrase. On the way, what starts the rest of the rule may
follow a part. -/
theorem Fit.exists_walk (hfit : Fit edges follow) {p : Production} (hstart : edges.Starts q p.lhs)
    (hp : productions[i]? = some p) :
    ∃ steps last, edges.walk q p.rhs = some (steps, last) ∧
      (∀ step ∈ steps, ∀ t, (first step.rest (follow.get q p.lhs)).contains t = true →
        (follow.get step.state step.phrase).contains t = true) ∧
      ∀ t, (follow.get q p.lhs).contains t = true →
        State.action? (tableOf edges follow) last t = some (if i = 0 then .accept else .reduce i) := by
  have hrule : rules[i]? = some p.rule := by rw [rules, List.getElem?_map, hp, Option.map_some]
  have hcovers := List.all_eq_true.mp (hstart.covers hfit.complete) p.rule (List.mem_of_getElem? hrule)
  have hsome : (edges.walk q p.rhs).isSome = true := by simpa [Production.rule] using hcovers
  obtain ⟨⟨steps, last⟩, hway⟩ := Option.isSome_iff_exists.mp hsome
  have hwalk : ⟨q, i, p.lhs, steps, last⟩ ∈ edges.walks := hstart.mem_walks (Edges.mem_walksOf hrule hway)
  refine ⟨steps, last, hway, ?_, ?_⟩
  · intro step hstep t ht
    have hsteps := List.all_eq_true.mp hfit.closed _ hwalk
    exact TerminalSet.contains_of_subset (List.all_eq_true.mp hsteps step hstep) ht
  · intro t ht
    exact hfit.action?_reduce hwalk (List.getElem?_eq_some_iff.mp hrule).1 ht

end Fit

end WordLang.Grammar
