import Mathlib.Algebra.Ring.Int.Defs
import WordLang.Proofs.Derivation
import WordLang.Proofs.ParserTables
import WordLang.Proofs.Tokenization

/-!
# Parsing

The parser reads every text of the language, and gives it the meaning that the grammar does. Along a
derivation the automaton goes from a state along the symbols that are derived: it shifts the tokens, and
reduces by a production as soon as its parts have been read, because what comes next is a lookahead there.
-/

namespace WordLang

namespace Grammar

def next : List Token → Terminal
  | [] => .eof
  | t :: _ => t.kind

private theorem Derives.contains_first {symbols : List Symbol} {tokens rest : List Token} {values : Values symbols}
    (h : Derives symbols tokens values) {after : TerminalSet} (hafter : after.contains (next rest) = true) :
    (first symbols after).contains (next (tokens ++ rest)) = true := by
  induction h generalizing rest after with
  | nil => exact hafter
  | token hkind _ _ =>
    subst hkind
    exact TerminalSet.contains_singleton
  | @phrase symbols tokens parts values p meanings meaning hp _ _ _ ihparts ihrest =>
    rw [List.append_assoc]
    have hrule : p.rule ∈ rules := List.mem_map_of_mem hp
    exact contains_first_lhs hrule (ihparts (ihrest hafter))

namespace Edges

variable {edges : Edges} {q last : Nat} {symbols : List Symbol} {steps : List Step}

theorem walk_terminal {t : Terminal} (h : edges.walk q (.terminal t :: symbols) = some (steps, last)) :
    ∃ target, edges.target? q (.terminal t) = some target ∧
      edges.walk target symbols = some (steps, last) := by
  obtain ⟨target, htarget, h⟩ := Option.bind_eq_some_iff.mp h
  obtain ⟨way, hway, h⟩ := Option.bind_eq_some_iff.mp h
  exact ⟨target, htarget, hway.trans h⟩

theorem walk_nonterminal {n : Nonterminal}
    (h : edges.walk q (.nonterminal n :: symbols) = some (steps, last)) :
    ∃ target others, edges.target? q (.nonterminal n) = some target ∧
      edges.walk target symbols = some (others, last) ∧ steps = ⟨q, n, symbols⟩ :: others := by
  obtain ⟨target, htarget, h⟩ := Option.bind_eq_some_iff.mp h
  obtain ⟨⟨others, last'⟩, hway, h⟩ := Option.bind_eq_some_iff.mp h
  obtain ⟨rfl, rfl⟩ := Prod.mk.inj (Option.some.inj h)
  exact ⟨target, others, htarget, hway, rfl⟩

end Edges

/-- How many more steps than 64 for each token a phrase may take to read. A token is read in one step. -/
def Symbol.cost : Symbol → Int
  | .terminal _ => -63
  | .nonterminal n =>
    match n with
    | .start => 2
    | .unit => 1
    | .items => 0
    | .item => -1
    | .function => -2
    | .header => -3
    | .block => -3
    | .stmts => -1
    | .stmt => -2
    | .ifStmt => -3
    | .elseTail => -2
    | .simple => -51
    | .expr => -52
    | .disjunction => -53
    | .conjunction => -54
    | .equality => -55
    | .relation => -56
    | .sum => -57
    | .product => -58
    | .unary => -59
    | .primary => -60
    | .place => -61
    | .number => -62
    | .name => -62
    | .params => 1
    | .paramCommas => 0
    | .args => 1
    | .argCommas => 0

theorem cost_rule : ∀ rule ∈ rules,
    1 + (rule.rhs.map Symbol.cost).sum ≤ (Symbol.nonterminal rule.lhs).cost := by
  decide

theorem start_not_mem_rhs : ∀ rule ∈ rules, .nonterminal .start ∉ rule.rhs := by
  decide

private theorem length_of_ofEntries? {symbols : List Symbol} {entries : List Entry} {values : Values symbols}
    (h : Values.ofEntries? symbols entries = some values) : entries.length = symbols.length := by
  induction symbols generalizing entries with
  | nil =>
    cases entries with
    | nil => rfl
    | cons entry entries => simp [Values.ofEntries?] at h
  | cons s symbols ih =>
    cases entries with
    | nil => simp [Values.ofEntries?] at h
    | cons entry entries =>
      rw [Values.ofEntries?] at h
      split at h
      · obtain ⟨others, hothers, -⟩ := Option.map_eq_some_iff.mp h
        rw [List.length_cons, List.length_cons, ih hothers]
      · simp at h

private theorem accept_unit {entries : List Entry} {unit : CompilationUnit}
    (h : Values.ofEntries? [.nonterminal .unit] entries = some (unit, ())) :
    accept entries.reverse = .ok unit := by
  obtain ⟨entry, rfl⟩ := List.length_eq_one_iff.mp (length_of_ofEntries? h)
  obtain ⟨state, symbol, value⟩ := entry
  rw [Values.ofEntries?] at h
  split at h
  · rename_i hsymbol
    obtain rfl : symbol = .nonterminal .unit := hsymbol
    obtain ⟨_, -, hvalue⟩ := Option.map_eq_some_iff.mp h
    obtain ⟨rfl, -⟩ := Prod.mk.inj hvalue
    rfl
  · simp at h

section Run

variable {tables : Tables} {fuel stop : Nat} {stack stack' : List Entry} {rest : List Token}

theorem run_shift {target : Nat} {t : Token}
    (h : tables.action? (top stack) t.kind = some (.shift target)) :
    run tables none (fuel + 1) stack stop (t :: rest) =
      run tables none fuel (⟨target, .terminal t.kind, t⟩ :: stack) t.stop rest := by
  rw [run, h]

theorem run_reduce {i : Nat} {p : Production}
    (h : tables.action? (top stack) (next rest) = some (.reduce i)) (hp : tables.production? i = some p)
    (hr : reduce tables p stack = .ok stack') :
    run tables none (fuel + 1) stack stop rest = run tables none fuel stack' stop rest := by
  cases rest <;> unfold next at h <;> simp only [run, h, hp, hr] <;> rfl

private theorem run_accept (h : tables.action? (top stack) .eof = some .accept) :
    run tables none (fuel + 1) stack stop [] = accept stack := by
  rw [run, h]

end Run

def tablesOf (edges : Edges) (follow : FollowTable) : Tables :=
  ⟨State.action? (tableOf edges follow), State.goto? (tableOf edges follow), fun i => productionTable[i]?⟩

/-- Where the automaton can go along symbols and each part is followed by one of its lookaheads, the parser
reads their phrases: it puts them on its stack with their meanings and comes to the state where the symbols
lead. -/
theorem Derives.run {edges : Edges} {follow : FollowTable} (hfit : Fit edges follow)
    {symbols : List Symbol} {tokens : List Token} {values : Values symbols}
    (h : Derives symbols tokens values) (hsymbols : .nonterminal .start ∉ symbols)
    {stack : List Entry} {steps : List Step} {last : Nat}
    (hway : edges.walk (top stack) symbols = some (steps, last)) {after : TerminalSet}
    (hsteps : ∀ step ∈ steps, ∀ t, (first step.rest after).contains t = true →
      (follow.get step.state step.phrase).contains t = true)
    {rest : List Token} (hafter : after.contains (next rest) = true) (stop : Nat) :
    ∃ (entries : List Entry) (count stop' : Nat), Values.ofEntries? symbols entries = some values ∧
      top (entries.reverse ++ stack) = last ∧
      (count : Int) ≤ 64 * tokens.length + (symbols.map Symbol.cost).sum ∧
      ∀ fuel, Grammar.run (tablesOf edges follow) none (count + fuel) stack stop (tokens ++ rest) =
        Grammar.run (tablesOf edges follow) none fuel (entries.reverse ++ stack) stop' rest := by
  induction h generalizing stack steps last after rest stop with
  | nil =>
    obtain ⟨-, rfl⟩ := Prod.mk.inj (Option.some.inj hway)
    refine ⟨[], 0, stop, rfl, rfl, by simp, fun fuel => ?_⟩
    rw [Nat.zero_add]
    rfl
  | @token symbols tokens values kind t hkind _ ih =>
    subst hkind
    obtain ⟨target, htarget, hway⟩ := Edges.walk_terminal hway
    have hshift : (tablesOf edges follow).action? (top stack) t.kind = some (.shift target) :=
      action?_shift htarget
    have hway' : edges.walk (top (⟨target, .terminal t.kind, t⟩ :: stack)) symbols = some (steps, last) :=
      hway
    obtain ⟨entries, count, stop', hentries, htop, hcount, hrun⟩ :=
      ih (fun hmem => hsymbols (List.mem_cons_of_mem _ hmem)) hway' hsteps hafter t.stop
    refine ⟨⟨target, .terminal t.kind, t⟩ :: entries, count + 1, stop', ?_, ?_, ?_, fun fuel => ?_⟩
    · simp [Values.ofEntries?, hentries]
    · simpa using htop
    · simp only [List.length_cons, List.map_cons, List.sum_cons, Symbol.cost]
      omega
    · rw [List.cons_append, Nat.add_right_comm, run_shift hshift, hrun]
      simp
  | @phrase symbols tokens parts values p meanings meaning hp hparts hbuild hrest ihparts ihrest =>
    obtain ⟨target, others, htarget, hothers, rfl⟩ := Edges.walk_nonterminal hway
    obtain ⟨i, hi⟩ := List.mem_iff_getElem?.mp hp
    have hrule : p.rule ∈ rules := List.mem_map_of_mem hp
    have hi0 : i ≠ 0 := by
      rintro rfl
      obtain rfl := Option.some.inj hi
      exact hsymbols List.mem_cons_self
    obtain ⟨psteps, plast, hpway, hpsteps, haction⟩ := hfit.exists_walk (.inr ⟨target, htarget⟩) hi
    have hnext : (follow.get (top stack) p.lhs).contains (next (tokens ++ rest)) = true :=
      hsteps _ List.mem_cons_self _ (hrest.contains_first hafter)
    obtain ⟨pentries, pcount, pstop, hpentries, hptop, hpcount, hprun⟩ :=
      ihparts (start_not_mem_rhs p.rule hrule) hpway hpsteps hnext stop
    have hreduce : (tablesOf edges follow).action? (top (pentries.reverse ++ stack)) (next (tokens ++ rest)) =
        some (.reduce i) := by
      rw [hptop]
      exact (haction _ hnext).trans (by rw [if_neg hi0])
    have hproduction : (tablesOf edges follow).production? i = some p := by
      simpa [tablesOf, productionTable] using hi
    have hlength : pentries.reverse.length = p.rhs.length := by
      rw [List.length_reverse, length_of_ofEntries? hpentries]
    have hreduced : reduce (tablesOf edges follow) p (pentries.reverse ++ stack) =
        .ok (⟨target, .nonterminal p.lhs, meaning⟩ :: stack) := by
      rw [reduce_eq_ok, List.take_left' hlength, List.drop_left' hlength, List.reverse_reverse]
      exact ⟨meanings, meaning, target, hpentries, (goto?_tableOf _).trans htarget, hbuild, rfl⟩
    have hway' : edges.walk (top (⟨target, .nonterminal p.lhs, meaning⟩ :: stack)) symbols =
        some (others, last) := hothers
    obtain ⟨entries, count, stop', hentries, htop, hcount, hrun⟩ :=
      ihrest (fun hmem => hsymbols (List.mem_cons_of_mem _ hmem)) hway'
        (fun step hstep => hsteps step (List.mem_cons_of_mem _ hstep)) hafter pstop
    refine ⟨⟨target, .nonterminal p.lhs, meaning⟩ :: entries, pcount + (count + 1), stop', ?_, ?_, ?_,
      fun fuel => ?_⟩
    · simp [Values.ofEntries?, hentries]
    · simpa using htop
    · have hcost := cost_rule p.rule hrule
      simp only [Production.rule] at hcost
      simp only [List.length_append, List.map_cons, List.sum_cons]
      omega
    · rw [List.append_assoc, Nat.add_assoc, hprun, Nat.add_right_comm, run_reduce hreduce hproduction hreduced, hrun]
      simp

/-- A parser with tables that fit the grammar reads every text of the language. -/
theorem Fit.run_sentence {edges : Edges} {follow : FollowTable} (hfit : Fit edges follow)
    {tokens : List Token} {unit : CompilationUnit} (h : Sentence tokens unit) :
    run (tablesOf edges follow) none (64 * (tokens.length + 1)) [] 0 tokens = .ok unit := by
  have hp : productions[0]? = some ⟨.start, [.nonterminal .unit], fun (unit, _) => some unit⟩ := rfl
  obtain ⟨steps, last, hway, hsteps, haction⟩ := hfit.exists_walk (.inl ⟨rfl, rfl⟩) hp
  have hway' : edges.walk (top []) [.nonterminal .unit] = some (steps, last) := hway
  have hend : (follow.get 0 .start).contains (next []) = true := hfit.ending
  obtain ⟨entries, count, stop', hentries, htop, hcount, hrun⟩ :=
    Derives.run hfit h (by decide) hway' hsteps hend 0
  have hcount' : count ≤ 64 * tokens.length + 1 := by
    simp only [List.map_cons, List.map_nil, List.sum_cons, List.sum_nil, Symbol.cost] at hcount
    omega
  have hfuel : 64 * (tokens.length + 1) = count + (64 * tokens.length + 63 - count + 1) := by omega
  rw [List.append_nil] at hrun htop
  have haccept : (tablesOf edges follow).action? (top entries.reverse) .eof = some .accept := by
    rw [htop]
    exact haction _ hend
  rw [hfuel, hrun, List.append_nil, run_accept haccept, accept_unit hentries]

/-- The computation that finds the automaton of the language to fit the grammar. Only the end may follow a whole
text. -/
theorem edges_follow_fit : (edges.complete && follow.closed walks && follow.get 0 .start = .singleton .eof &&
    Decision.unique edges.length (Decision.all edges walks follow)) = true := by
  decide +kernel

theorem follow_start : follow.get 0 .start = .singleton .eof := by
  have h := edges_follow_fit
  simp only [Bool.and_eq_true, decide_eq_true_eq] at h
  exact h.1.2

theorem fit : Fit edges follow := by
  have h := edges_follow_fit
  simp only [Bool.and_eq_true, decide_eq_true_eq] at h
  obtain ⟨⟨⟨hcomplete, hclosed⟩, hending⟩, hunique⟩ := h
  refine ⟨hcomplete, hclosed, ?_, hunique⟩
  rw [hending]
  exact TerminalSet.contains_singleton

theorem run_eq_ok {tokens : List Token} {unit : CompilationUnit} (h : Sentence tokens unit) :
    run tables none (64 * (tokens.length + 1)) [] 0 tokens = .ok unit :=
  fit.run_sentence h

theorem mem_productions {i : Nat} {p : Production} (h : tables.production? i = some p) : p ∈ productions := by
  apply List.mem_of_getElem?
  simpa [tables, productionTable] using h

end Grammar

/-- The parser accepts exactly the texts that are cut into tokens, with numerals in range, that the grammar
derives, and gives them the meaning that the grammar does. No list of tokens has two meanings. -/
theorem CompilationUnit.parse_eq_ok_iff (source : String) :
    (∀ unit, CompilationUnit.parse source = .ok unit ↔
      ∃ tokens, Tokens.Cut 0 source.toList ⟨tokens, none⟩ ∧
        (∀ t ∈ tokens, t.kind = .number → ∃ w, Word.ofLiteral t.text = .ok w) ∧
        Grammar.Sentence tokens unit) ∧
    ∀ tokens unit unit', Grammar.Sentence tokens unit → Grammar.Sentence tokens unit' → unit = unit' := by
  constructor
  · intro unit
    constructor
    · intro h
      obtain ⟨hinvalid, hsentence⟩ := Grammar.run_sentence (fun _ _ => Grammar.mem_productions) h
      have hscan : Tokens.scan source = ⟨(Tokens.scan source).tokens, none⟩ := by rw [← hinvalid]
      exact ⟨_, Tokens.scan_eq_iff.mp hscan, hsentence.literals (by decide), hsentence⟩
    · rintro ⟨tokens, hcut, -, hsentence⟩
      rw [CompilationUnit.parse, Tokens.scan_eq_iff.mpr hcut]
      exact Grammar.run_eq_ok hsentence
  · intro tokens unit unit' h h'
    have hunit := Grammar.run_eq_ok h
    rw [Grammar.run_eq_ok h'] at hunit
    exact (Except.ok.inj hunit).symm

end WordLang
