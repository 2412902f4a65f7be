import WordLang.Proofs.StackItems
import WordLang.Proofs.TokenPlaces
import Mathlib.Logic.Relation

/-!
# Progress of the parser

The parser comes to an end with every text, and never for want of an entry in its tables. Where the automaton
reduces, the parts of the rule are on the stack, and the state below them has an edge for the phrase; where it
accepts, the stack holds a whole text and nothing more. Each move is paid for by a token or by the phrase that it
completes.
-/

namespace WordLang

namespace Grammar

/-! ## Moves -/

section Moves

variable {tables : Tables}

/-- Where a parser stands: its stack, the end of the last token shifted, and the tokens still to be read. -/
structure Config where
  stack : List Entry
  stop : Nat
  rest : List Token

variable {tables : Tables}

inductive Move (tables : Tables) : Config → Config → Prop where
  | shift {stack : List Entry} {stop target : Nat} {t : Token} {rest : List Token}
      (haction : tables.action? (top stack) t.kind = some (.shift target)) :
      Move tables ⟨stack, stop, t :: rest⟩ ⟨⟨target, .terminal t.kind, t⟩ :: stack, t.stop, rest⟩
  | reduce {stack stack' : List Entry} {stop i : Nat} {p : Production} {rest : List Token}
      (haction : tables.action? (top stack) (next rest) = some (.reduce i))
      (hp : tables.production? i = some p) (hreduce : reduce tables p stack = .ok stack') :
      Move tables ⟨stack, stop, rest⟩ ⟨stack', stop, rest⟩

/-- A parser has no move and reports what it finds. -/
inductive Rejects (tables : Tables) (invalid : Option Nat) : Config → SyntaxError → Prop where
  | invalid {stack : List Entry} {stop offset : Nat} (hinvalid : invalid = some offset) :
      Rejects tables invalid ⟨stack, stop, []⟩ (.invalidToken offset)
  | ending {stack : List Entry} {stop : Nat} (hinvalid : invalid = none)
      (haction : tables.action? (top stack) .eof = none) :
      Rejects tables invalid ⟨stack, stop, []⟩ (.unexpectedEnd stop (tables.expected (top stack)))
  | token {stack : List Entry} {stop : Nat} {t : Token} {rest : List Token}
      (haction : tables.action? (top stack) t.kind = none) :
      Rejects tables invalid ⟨stack, stop, t :: rest⟩ (.unexpectedToken t (tables.expected (top stack)))

/-- The errors that do not say where they arise. -/
def Placeless (e : SyntaxError) : Prop :=
  e = .literalOutOfRange ∨ e = .stuck

private theorem reduce_error {p : Production} {stack : List Entry} {e : SyntaxError}
    (h : reduce tables p stack = .error e) : Placeless e := by
  unfold reduce at h
  dsimp only at h
  split at h
  · split at h
    · simp at h
    · exact .inl (Except.error.inj h).symm
  · exact .inr (Except.error.inj h).symm

private theorem accept_error {stack : List Entry} {e : SyntaxError} (h : accept stack = .error e) : Placeless e := by
  unfold accept at h
  split at h
  · simp at h
  · exact .inr (Except.error.inj h).symm

/-- A parser stops in the middle of a move: a numeral has no value, or the tables do not fit the stack. -/
inductive Breaks (tables : Tables) : Config → SyntaxError → Prop where
  | production {stack : List Entry} {stop i : Nat} {rest : List Token}
      (haction : tables.action? (top stack) (next rest) = some (.reduce i))
      (hp : tables.production? i = none) : Breaks tables ⟨stack, stop, rest⟩ .stuck
  | reduce {stack : List Entry} {stop i : Nat} {rest : List Token} {p : Production} {e : SyntaxError}
      (haction : tables.action? (top stack) (next rest) = some (.reduce i))
      (hp : tables.production? i = some p) (hreduce : reduce tables p stack = .error e) :
      Breaks tables ⟨stack, stop, rest⟩ e
  | accept {stack : List Entry} {stop : Nat} {e : SyntaxError}
      (haction : tables.action? (top stack) .eof = some .accept) (haccept : accept stack = .error e) :
      Breaks tables ⟨stack, stop, []⟩ e
  | early {stack : List Entry} {stop : Nat} {t : Token} {rest : List Token}
      (haction : tables.action? (top stack) t.kind = some .accept) :
      Breaks tables ⟨stack, stop, t :: rest⟩ .stuck
  | ending {stack : List Entry} {stop target : Nat}
      (haction : tables.action? (top stack) .eof = some (.shift target)) :
      Breaks tables ⟨stack, stop, []⟩ .stuck

private theorem Breaks.placeless {c : Config} {e : SyntaxError} (h : Breaks tables c e) : Placeless e := by
  cases h with
  | production => exact .inr rfl
  | reduce _ _ hreduce => exact reduce_error hreduce
  | accept _ haccept => exact accept_error haccept
  | early => exact .inr rfl
  | ending => exact .inr rfl

private theorem run_error_cases {invalid : Option Nat} {fuel : Nat} {c : Config} {e : SyntaxError}
    (h : run tables invalid (fuel + 1) c.stack c.stop c.rest = .error e) :
    Rejects tables invalid c e ∨ Breaks tables c e ∨
      ∃ c', Move tables c c' ∧ run tables invalid fuel c'.stack c'.stop c'.rest = .error e := by
  obtain ⟨stack, stop, rest⟩ := c
  have hreduce {i : Nat} (haction : tables.action? (top stack) (next rest) = some (.reduce i))
      (hnone : tables.production? i = none → SyntaxError.stuck = e)
      (hsome : ∀ p, tables.production? i = some p →
        (reduce tables p stack >>= fun stack => run tables invalid fuel stack stop rest) = .error e) :
      Breaks tables ⟨stack, stop, rest⟩ e ∨
        ∃ c, Move tables ⟨stack, stop, rest⟩ c ∧ run tables invalid fuel c.stack c.stop c.rest = .error e := by
    cases hp : tables.production? i with
    | none =>
      obtain rfl := hnone hp
      exact .inl (.production haction hp)
    | some p =>
      have h := hsome p hp
      cases hr : reduce tables p stack with
      | error e' =>
        rw [hr] at h
        obtain rfl := Except.error.inj h
        exact .inl (.reduce haction hp hr)
      | ok stack' =>
        rw [hr] at h
        exact .inr ⟨⟨stack', stop, rest⟩, .reduce haction hp hr, h⟩
  cases rest with
  | nil =>
    unfold run at h
    split at h
    · obtain rfl := Except.error.inj h
      exact .inl (.invalid rfl)
    · split at h
      · rename_i haction
        exact .inr (.inl (.accept haction h))
      · rename_i haction
        exact .inr (hreduce haction (fun hp => by simpa [hp] using h) fun p hp => by simpa only [hp] using h)
      · rename_i haction
        obtain rfl := Except.error.inj h
        exact .inr (.inl (.ending haction))
      · rename_i haction
        obtain rfl := Except.error.inj h
        exact .inl (.ending rfl haction)
  | cons t rest =>
    rw [run] at h
    split at h
    · rename_i haction
      exact .inr (.inr ⟨_, .shift haction, h⟩)
    · rename_i haction
      exact .inr (hreduce haction (fun hp => by simpa [hp] using h) fun p hp => by simpa only [hp] using h)
    · rename_i haction
      obtain rfl := Except.error.inj h
      exact .inr (.inl (.early haction))
    · rename_i haction
      obtain rfl := Except.error.inj h
      exact .inl (.token haction)

/-- A parser that reports a place has come by its moves to where it can only report that. -/
theorem run_error {invalid : Option Nat} {fuel stop : Nat} {stack : List Entry} {tokens : List Token}
    {e : SyntaxError} (h : run tables invalid fuel stack stop tokens = .error e) (hplace : ¬ Placeless e) :
    ∃ c, Relation.ReflTransGen (Move tables) ⟨stack, stop, tokens⟩ c ∧ Rejects tables invalid c e := by
  induction fuel generalizing stack stop tokens with
  | zero => exact absurd (.inr (Except.error.inj h).symm) hplace
  | succ fuel ih =>
    obtain hrejects | hbreaks | ⟨c, hmove, h⟩ := run_error_cases (c := ⟨stack, stop, tokens⟩) h
    · exact ⟨_, .refl, hrejects⟩
    · exact absurd hbreaks.placeless hplace
    · obtain ⟨c', hmoves, hrejects⟩ := ih h
      exact ⟨c', .head hmove hmoves, hrejects⟩

end Moves

/-! ## Actions -/

section Actions

variable {stack stack' : List Entry} {q i : Nat} {t : Terminal}

private theorem tables_eq : tables = tablesOf edges follow :=
  rfl

private theorem goto?_tablesOf (edges : Edges) (follow : FollowTable) (s : Symbol) :
    (tablesOf edges follow).goto? q s = edges.target? q s :=
  goto?_tableOf s

private theorem State.exists_walk_of_find? {walks : List Walk} {follow : FollowTable} {set : TerminalSet}
    (h : (reductionsAt walks follow q).find? (fun reduction => reduction.2.contains t) = some (i, set)) :
    ∃ walk ∈ walks, walk.last = q ∧ walk.rule = i ∧
      (follow.get walk.start walk.phrase).contains t = true := by
  have hcontains : set.contains t = true := by simpa using List.find?_some h
  exact (contains_reductionsAt (List.mem_of_find?_eq_some h)).mp hcontains

private theorem action?_cases {edges : Edges} {follow : FollowTable} {action : Action}
    (h : (tablesOf edges follow).action? q t = some action) :
    (∃ target, action = .shift target ∧ edges.target? q (.terminal t) = some target) ∨
    ∃ walk ∈ edges.walks, walk.last = q ∧ (follow.get walk.start walk.phrase).contains t = true ∧
      action = if walk.rule = 0 then .accept else .reduce walk.rule := by
  simp only [tablesOf, State.action?, goto?_tableOf, tableOf_getElem?] at h
  split at h
  · rename_i target htarget
    exact .inl ⟨target, (Option.some.inj h).symm, htarget⟩
  · cases hrow : edges[q]? with
    | none => simp [hrow] at h
    | some row =>
      simp only [hrow, Option.map_some, Option.bind_some] at h
      split at h
      · rename_i hfind
        obtain ⟨walk, hwalk, hlast, hrule, hcontains⟩ := State.exists_walk_of_find? hfind
        exact .inr ⟨walk, hwalk, hlast, hcontains, by rw [if_pos hrule, Option.some.inj h]⟩
      · rename_i hrule0 hfind
        obtain ⟨walk, hwalk, hlast, rfl, hcontains⟩ := State.exists_walk_of_find? hfind
        exact .inr ⟨walk, hwalk, hlast, hcontains, by rw [if_neg hrule0, Option.some.inj h]⟩
      · simp at h

private theorem target?_of_shift {edges : Edges} {follow : FollowTable} {target : Nat}
    (h : (tablesOf edges follow).action? q t = some (.shift target)) :
    edges.target? q (.terminal t) = some target := by
  obtain ⟨target', haction, htarget⟩ | ⟨walk, -, -, -, haction⟩ := action?_cases h
  · cases haction
    exact htarget
  · split at haction <;> simp at haction

private theorem target?_start (q : Nat) : edges.target? q (.nonterminal .start) = none := by
  cases htarget : edges.target? q (.nonterminal .start) with
  | none => rfl
  | some target =>
    obtain ⟨_, _, -, hsuccessor, -⟩ := exists_successor htarget
    exact absurd (ItemSet.mem_successors.mp hsuccessor).2.1 (not_reads_start _)

/-- Where a walk ends that leads to the state on top of a stack, the parts of its rule are on the stack, and the
state below them has an edge for the phrase, unless that is a whole text. -/
theorem Tracked.completed (h : Tracked edges stack) {walk : Walk} (hwalk : walk ∈ edges.walks)
    (hlast : walk.last = top stack) :
    ∃ rule, rules[walk.rule]? = some rule ∧ rule.lhs = walk.phrase ∧
      ((stack.take rule.rhs.length).map Entry.symbol).reverse = rule.rhs ∧
      ((stack.drop rule.rhs.length = [] ∧ rule.lhs = .start) ∨
        ∃ target, edges.target? (top (stack.drop rule.rhs.length)) (.nonterminal rule.lhs) = some target) := by
  have hlt := Decision.state_lt fit.unique (mem_decisions_walk follow hwalk)
  rw [edges, Edges.ofKernels, List.length_map] at hlt
  obtain ⟨kernel, hkernel⟩ : ∃ kernel, kernels[walk.last]? = some kernel := ⟨_, List.getElem?_eq_getElem hlt⟩
  obtain ⟨base, rule, hnumbered, hrule, hlhs, hitem⟩ := exists_item_of_mem_walks hwalk hkernel
  rw [hlast] at hkernel
  obtain ⟨hsymbols, below, hbelow, hbase⟩ := h.parts hkernel hnumbered le_rfl hitem
  refine ⟨rule, hrule, hlhs, hsymbols.trans List.take_length, ?_⟩
  exact ((h.drop _).reads_lhs hbelow hnumbered hbase).imp_right (exists_target_of_reads hbelow)

private theorem eq_zero_of_lhs_start : ∀ rule ∈ rules.zipIdx, rule.1.lhs = .start → rule.2 = 0 := by
  decide

/-- Where the automaton reduces, the parts of a production are on the stack, and the state below them has an edge
for the phrase. -/
theorem Tracked.exists_reduction (h : Tracked edges stack)
    (haction : tables.action? (top stack) t = some (.reduce i)) :
    ∃ p, tables.production? i = some p ∧
      ((stack.take p.rhs.length).map Entry.symbol).reverse = p.rhs ∧
      ∃ target, tables.goto? (top (stack.drop p.rhs.length)) (.nonterminal p.lhs) = some target := by
  obtain ⟨_, hshift, -⟩ | ⟨walk, hwalk, hlast, -, hchoice⟩ := action?_cases haction
  · simp at hshift
  · split at hchoice
    · simp at hchoice
    · rename_i hne
      obtain rfl := Action.reduce.inj hchoice
      obtain ⟨rule, hrule, -, hsymbols, htarget⟩ := h.completed hwalk hlast
      obtain ⟨p, hp, rfl⟩ := Option.map_eq_some_iff.mp ((List.getElem?_map ..).symm.trans hrule)
      have hstart : p.rule.lhs ≠ .start := fun hlhs =>
        hne (eq_zero_of_lhs_start _ (List.mk_mem_zipIdx_iff_getElem?.mpr hrule) hlhs)
      obtain ⟨target, htarget⟩ := htarget.resolve_left fun h => hstart h.2
      rw [tables_eq]
      refine ⟨p, ?_, hsymbols, target, (goto?_tablesOf _ _ _).trans htarget⟩
      simpa [tablesOf, productionTable] using hp

private theorem eq_eof_of_contains : (TerminalSet.singleton .eof).contains t = true → t = .eof := by
  cases t <;> decide

private theorem accept_of_symbols (h : stack.map Entry.symbol = [.nonterminal .unit]) :
    ∃ unit, accept stack = .ok unit := by
  obtain ⟨⟨state, symbol, value⟩, rfl, hsymbol⟩ := List.map_eq_singleton_iff.mp h
  obtain rfl : symbol = .nonterminal .unit := hsymbol
  exact ⟨value, rfl⟩

private theorem Tracked.exists_accepted (h : Tracked edges stack)
    (haction : tables.action? (top stack) t = some .accept) :
    t = .eof ∧ ∃ unit, accept stack = .ok unit := by
  obtain ⟨_, hshift, -⟩ | ⟨walk, hwalk, hlast, hcontains, hchoice⟩ := action?_cases haction
  · simp at hshift
  · split at hchoice
    · rename_i hzero
      obtain ⟨rule, hrule, hlhs, hsymbols, hrest⟩ := h.completed hwalk hlast
      rw [hzero] at hrule
      obtain rfl : ⟨.start, [.nonterminal .unit]⟩ = rule := Option.some.inj hrule
      have hphrase : walk.phrase = .start := hlhs.symm
      dsimp only [List.length_cons, List.length_nil] at hsymbols hrest
      constructor
      · have hstart : walk.start = 0 := by
          obtain ⟨hzero, -⟩ | ⟨target, htarget⟩ := (Edges.exists_of_mem_walks hwalk).1
          · exact hzero
          · simp [hphrase, target?_start] at htarget
        rw [hstart, hphrase, follow_start] at hcontains
        exact eq_eof_of_contains hcontains
      · obtain ⟨hempty, -⟩ := hrest.resolve_right (by simp [target?_start])
        apply accept_of_symbols
        rw [← List.take_append_drop 1 stack, hempty, List.append_nil]
        exact List.reverse_eq_iff.mp hsymbols
    · simp at hchoice

end Actions

/-! ## Progress -/

section Behind

variable {stack stack' : List Entry} {c c' : Config} {tokens before : List Token}

private theorem exists_ofEntries?_iff {symbols : List Symbol} {entries : List Entry} :
    (∃ values, Values.ofEntries? symbols entries = some values) ↔ entries.map Entry.symbol = symbols := by
  induction symbols generalizing entries with
  | nil => cases entries <;> simp [Values.ofEntries?]
  | cons s symbols ih =>
    cases entries with
    | nil => simp [Values.ofEntries?]
    | cons entry entries =>
      rw [Values.ofEntries?, List.map_cons, List.cons.injEq, ← ih]
      split
      · rename_i hsymbol
        simp [hsymbol]
      · rename_i hsymbol
        simp [hsymbol]

private theorem Tracked.reduce {edges : Edges} {follow : FollowTable} {p : Production} (h : Tracked edges stack)
    (hreduce : reduce (tablesOf edges follow) p stack = .ok stack') : Tracked edges stack' := by
  obtain ⟨_, _, target, -, hgoto, -, rfl⟩ := reduce_eq_ok.mp hreduce
  exact (h.drop _).push ((goto?_tableOf _).symm.trans hgoto)

/-- A parser stands behind the first tokens of a text: they are on its stack, along the edges of the
automaton. -/
structure Config.Behind (c : Config) (tokens before : List Token) : Prop where
  split : tokens = before ++ c.rest
  stacked : Stacked c.stack before
  tracked : Tracked edges c.stack

/-- A move keeps the parser behind the tokens shifted. -/
theorem Config.Behind.move (h : c.Behind tokens before) (hmove : Move tables c c') :
    ∃ before', c'.Behind tokens before' := by
  cases hmove with
  | @shift stack stop target t rest haction =>
    rw [tables_eq] at haction
    refine ⟨before ++ [t], ?_, h.stacked.push (.token rfl .nil), h.tracked.push (target?_of_shift haction)⟩
    rw [h.split]
    simp
  | @reduce stack stack' stop i p rest haction hp hreduce =>
    refine ⟨before, h.split, h.stacked.reduce (mem_productions hp) hreduce, ?_⟩
    rw [tables_eq] at hreduce
    exact h.tracked.reduce hreduce

theorem exists_behind (h : Relation.ReflTransGen (Move tables) ⟨[], 0, tokens⟩ c) :
    ∃ before, c.Behind tokens before := by
  induction h with
  | refl => exact ⟨[], rfl, .nil, .nil⟩
  | tail _ hmove ih =>
    obtain ⟨before, hbehind⟩ := ih
    exact hbehind.move hmove

private theorem Config.Behind.outOfRange {e : SyntaxError} (h : c.Behind tokens before)
    (hkinds : ∀ t ∈ tokens, t.kind ≠ .eof) (hbreaks : Breaks tables c e) :
    e = .literalOutOfRange ∧ OutOfRange tokens := by
  cases hbreaks with
  | production haction hp =>
    obtain ⟨p, hp', -⟩ := h.tracked.exists_reduction haction
    simp [hp] at hp'
  | @reduce stack stop i rest p e haction hp hreduce =>
    obtain ⟨p', hp', hsymbols, target, hgoto⟩ := h.tracked.exists_reduction haction
    obtain rfl := Option.some.inj (hp'.symm.trans hp)
    obtain ⟨values, hvalues⟩ := exists_ofEntries?_iff.mpr (List.map_reverse.trans hsymbols)
    cases hbuild : p'.build values with
    | some meaning =>
      have hok := reduce_eq_ok.mpr ⟨values, meaning, target, hvalues, hgoto, hbuild, rfl⟩
      simp [hok] at hreduce
    | none =>
      have herror : Grammar.reduce tables p' stack = .error .literalOutOfRange := by
        simp only [Grammar.reduce, hvalues, hgoto, hbuild]
      refine ⟨Except.error.inj (hreduce.symm.trans herror), ?_⟩
      obtain ⟨outer, parts, rfl, -, hparts⟩ := h.stacked.parts hvalues
      obtain ⟨t, ht, hwide⟩ :=
        (exists_build p' (mem_productions hp) parts values hparts).resolve_left (by simp [hbuild])
      refine ⟨t, ?_, hwide⟩
      rw [h.split]
      exact List.mem_append_left _ (List.mem_append_right _ ht)
  | accept haction haccept =>
    obtain ⟨-, unit, hunit⟩ := h.tracked.exists_accepted haction
    simp [hunit] at haccept
  | early haction =>
    have hmem : _ ∈ tokens := h.split ▸ List.mem_append_right _ List.mem_cons_self
    exact absurd (h.tracked.exists_accepted haction).1 (hkinds _ hmem)
  | ending haction =>
    rw [tables_eq] at haction
    obtain ⟨_, _, -, hsuccessor, -⟩ := exists_successor (target?_of_shift haction)
    exact absurd rfl (ItemSet.mem_successors.mp hsuccessor).1

/-- How many steps a parser may still take. -/
def Config.due (c : Config) : Int :=
  64 * (c.rest.length + 1) - stackCost c.stack

private theorem Move.due_lt (h : Move tables c c') : c'.due < c.due := by
  cases h with
  | shift haction =>
    simp only [Config.due, stackCost_cons, Symbol.cost, List.length_cons]
    omega
  | @reduce stack stack' stop i p rest haction hp hreduce =>
    obtain ⟨values, value, target, hvalues, -, -, rfl⟩ := reduce_eq_ok.mp hreduce
    have hcost := cost_rule p.rule (List.mem_map_of_mem (mem_productions hp))
    have hsymbols := exists_ofEntries?_iff.mp ⟨values, hvalues⟩
    have hparts := stackCost_of_parts (List.map_reverse.symm.trans hsymbols)
    simp only [Production.rule] at hcost
    simp only [Config.due, stackCost_cons, hparts]
    omega

/-- The parser is never stuck, and says that a numeral has no value only if there is one. -/
theorem Config.Behind.run_error_reason {invalid : Option Nat} {fuel : Nat} {e : SyntaxError}
    (h : c.Behind tokens before) (hkinds : ∀ t ∈ tokens, t.kind ≠ .eof) (hfuel : c.due ≤ fuel)
    (hrun : run tables invalid fuel c.stack c.stop c.rest = .error e) :
    e ≠ .stuck ∧ (e = .literalOutOfRange → OutOfRange tokens) := by
  induction fuel generalizing c before with
  | zero =>
    have hcost := h.tracked.stackCost_le
    unfold due at hfuel
    omega
  | succ fuel ih =>
    obtain hrejects | hbreaks | ⟨c', hmove, hrun⟩ := run_error_cases hrun
    · cases hrejects <;> simp
    · obtain ⟨rfl, hwide⟩ := h.outOfRange hkinds hbreaks
      exact ⟨by simp, fun _ => hwide⟩
    · obtain ⟨before', h'⟩ := h.move hmove
      have hdue := hmove.due_lt
      exact ih h' (by omega) hrun

end Behind

end Grammar

/-- Reading a text comes to an end with a program or with an error that the text accounts for. -/
theorem CompilationUnit.parse_error_reason {source : String} {e : SyntaxError}
    (h : CompilationUnit.parse source = .error e) :
    e ≠ .stuck ∧ (e = .literalOutOfRange → Grammar.OutOfRange (Tokens.scan source).tokens) := by
  have hbehind : Grammar.Config.Behind ⟨[], 0, (Tokens.scan source).tokens⟩ (Tokens.scan source).tokens [] :=
    ⟨rfl, .nil, .nil⟩
  refine hbehind.run_error_reason (fun t ht hkind => ?_) (by simp [Grammar.Config.due, Grammar.stackCost]) h
  obtain ⟨_, _, -, -, -, hlongest⟩ := (Tokens.scan_eq_iff.mp rfl).token_at ht
  rw [hkind] at hlongest
  exact hlongest.spells

end WordLang
