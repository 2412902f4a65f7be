import WordLang.Grammar.Parse

/-!
# Derivations

What the grammar says of a list of tokens, without an automaton: `Derives` holds of the tokens that are
phrases of some symbols, and of the meanings that the productions give to these phrases. The parser reads
only what the grammar derives, whatever its tables hold.
-/

namespace WordLang.Grammar

/-- The tokens are phrases of the symbols, one after the other, and these are their meanings. -/
inductive Derives : (symbols : List Symbol) → List Token → Values symbols → Prop where
  | nil : Derives [] [] ()
  | token {symbols : List Symbol} {tokens : List Token} {values : Values symbols} {kind : Terminal}
      {t : Token} (hkind : t.kind = kind) (hrest : Derives symbols tokens values) :
      Derives (.terminal kind :: symbols) (t :: tokens) (t, values)
  | phrase {symbols : List Symbol} {tokens parts : List Token} {values : Values symbols}
      {p : Production} {meanings : Values p.rhs} {meaning : p.lhs.Value} (hp : p ∈ productions)
      (hparts : Derives p.rhs parts meanings) (hbuild : p.build meanings = some meaning)
      (hrest : Derives symbols tokens values) :
      Derives (.nonterminal p.lhs :: symbols) (parts ++ tokens) (meaning, values)

/-- A text of the language: its tokens form a unit. -/
def Sentence (tokens : List Token) (unit : CompilationUnit) : Prop :=
  Derives [.nonterminal .unit] tokens (unit, ())

theorem Derives.cons {s : Symbol} {symbols : List Symbol} {tokens tokens' : List Token} {value : s.Value}
    {values : Values symbols} (h : Derives [s] tokens (value, ())) (hrest : Derives symbols tokens' values) :
    Derives (s :: symbols) (tokens ++ tokens') (value, values) := by
  cases h with
  | token hkind hnil =>
    cases hnil
    exact .token hkind hrest
  | phrase hp hparts hbuild hnil =>
    cases hnil
    rw [List.append_nil]
    exact .phrase hp hparts hbuild hrest

theorem Derives.of_index (i : Nat) {p : Production} {tokens : List Token} {meanings : Values p.rhs}
    {meaning : p.lhs.Value} (hp : productions[i]? = some p) (hparts : Derives p.rhs tokens meanings)
    (hbuild : p.build meanings = some meaning) : Derives [.nonterminal p.lhs] tokens (meaning, ()) := by
  rw [← List.append_nil tokens]
  exact .phrase (List.mem_of_getElem? hp) hparts hbuild .nil

theorem Derives.expr_of_primary {tokens : List Token} {e : Expr}
    (h : Derives [.nonterminal .primary] tokens (e, ())) : Derives [.nonterminal .expr] tokens (e, ()) := by
  have hproduct := Derives.of_index 55 rfl (.of_index 59 rfl h rfl) rfl
  have hrelation := Derives.of_index 47 rfl (.of_index 52 rfl hproduct rfl) rfl
  have hconjunction := Derives.of_index 42 rfl (.of_index 44 rfl hrelation rfl) rfl
  exact .of_index 39 rfl (.of_index 40 rfl hconjunction rfl) rfl

private theorem build_literal : ∀ p ∈ productions, .terminal .number ∈ p.rhs →
    ∀ (parts : List Token) (meanings : Values p.rhs) (meaning : p.lhs.Value),
      Derives p.rhs parts meanings → p.build meanings = some meaning →
        ∀ t ∈ parts, ∃ w, Word.ofLiteral t.text = .ok w := by
  rw [productions]
  repeat' refine List.forall_mem_cons.mpr ⟨?_, ?_⟩
  any_goals exact List.forall_mem_nil _
  all_goals intro hnumber
  any_goals simp at hnumber
  intro parts meanings meaning hparts hbuild t ht
  cases hparts with
  | token _ hnil =>
    cases hnil
    obtain rfl := List.mem_singleton.mp ht
    cases hw : Word.ofLiteral t.text with
    | ok w => exact ⟨w, rfl⟩
    | error e => simp [hw, Except.toOption] at hbuild

theorem Derives.literals {symbols : List Symbol} {tokens : List Token} {values : Values symbols}
    (h : Derives symbols tokens values) (hsymbols : .terminal .number ∉ symbols) :
    ∀ t ∈ tokens, t.kind = .number → ∃ w, Word.ofLiteral t.text = .ok w := by
  induction h with
  | nil => simp
  | token hfirst _ ih =>
    intro t ht hkind
    rcases List.mem_cons.mp ht with rfl | ht
    · exact absurd (by simp [← hfirst, hkind]) hsymbols
    · exact ih (fun hmem => hsymbols (List.mem_cons_of_mem _ hmem)) t ht hkind
  | @phrase symbols tokens parts values p meanings meaning hp hparts hbuild _ ihparts ihrest =>
    intro t ht hkind
    rcases List.mem_append.mp ht with ht | ht
    · by_cases hnumber : .terminal .number ∈ p.rhs
      · exact build_literal p hp hnumber parts meanings meaning hparts hbuild t ht
      · exact ihparts hnumber t ht hkind
    · exact ihrest (fun hmem => hsymbols (List.mem_cons_of_mem _ hmem)) t ht hkind

/-- The tokens of which the phrases on a stack are made, those at the bottom first. -/
inductive Stacked : List Entry → List Token → Prop where
  | nil : Stacked [] []
  | push {entry : Entry} {stack : List Entry} {before tokens : List Token} (hstack : Stacked stack before)
      (hentry : Derives [entry.symbol] tokens (entry.value, ())) :
      Stacked (entry :: stack) (before ++ tokens)

/-- Phrases of the right symbols on top of a stack are a derivation of their tokens. -/
theorem Stacked.split {symbols : List Symbol} {values : Values symbols} {parts rest : List Entry}
    {tokens : List Token} (h : Stacked (parts.reverse ++ rest) tokens)
    (hvalues : Values.ofEntries? symbols parts = some values) :
    ∃ before after, tokens = before ++ after ∧ Stacked rest before ∧ Derives symbols after values := by
  induction symbols generalizing parts rest with
  | nil =>
    cases parts with
    | nil => exact ⟨tokens, [], by simp, h, .nil⟩
    | cons entry parts => simp [Values.ofEntries?] at hvalues
  | cons s symbols ih =>
    cases parts with
    | nil => simp [Values.ofEntries?] at hvalues
    | cons entry parts =>
      obtain ⟨state, symbol, value⟩ := entry
      rw [Values.ofEntries?] at hvalues
      split at hvalues
      · rename_i hsymbol
        obtain rfl : symbol = s := hsymbol
        obtain ⟨others, hothers, rfl⟩ := Option.map_eq_some_iff.mp hvalues
        rw [List.reverse_cons, List.append_assoc] at h
        obtain ⟨before, after, rfl, hbefore, hafter⟩ := ih h hothers
        cases hbefore with
        | push hrest hentry =>
          exact ⟨_, _, List.append_assoc _ _ _, hrest, hentry.cons hafter⟩
      · simp at hvalues

theorem Stacked.parts {symbols : List Symbol} {values : Values symbols} {stack : List Entry} {tokens : List Token}
    {n : Nat} (h : Stacked stack tokens) (hvalues : Values.ofEntries? symbols (stack.take n).reverse = some values) :
    ∃ before after, tokens = before ++ after ∧ Stacked (stack.drop n) before ∧ Derives symbols after values := by
  refine Stacked.split ?_ hvalues
  rw [List.reverse_reverse, List.take_append_drop]
  exact h

variable {tables : Tables}

theorem reduce_eq_ok {p : Production} {stack stack' : List Entry} :
    reduce tables p stack = .ok stack' ↔
      ∃ values value target, Values.ofEntries? p.rhs (stack.take p.rhs.length).reverse = some values ∧
        tables.goto? (top (stack.drop p.rhs.length)) (.nonterminal p.lhs) = some target ∧
        p.build values = some value ∧
        stack' = ⟨target, .nonterminal p.lhs, value⟩ :: stack.drop p.rhs.length := by
  unfold reduce
  dsimp only
  constructor
  · intro h
    split at h
    · rename_i values target hvalues htarget
      split at h
      · rename_i value hvalue
        exact ⟨values, value, target, hvalues, htarget, hvalue, (Except.ok.inj h).symm⟩
      · simp at h
    · simp at h
  · rintro ⟨values, value, target, hvalues, htarget, hvalue, rfl⟩
    simp only [hvalues, htarget, hvalue]

theorem Stacked.reduce {p : Production} {stack stack' : List Entry} {tokens : List Token}
    (hstack : Stacked stack tokens) (hp : p ∈ productions) (h : reduce tables p stack = .ok stack') :
    Stacked stack' tokens := by
  obtain ⟨values, value, target, hvalues, -, hvalue, rfl⟩ := reduce_eq_ok.mp h
  obtain ⟨before, after, rfl, hbefore, hafter⟩ := hstack.parts hvalues
  apply Stacked.push hbefore
  rw [← List.append_nil after]
  exact .phrase hp hafter hvalue .nil

/-- What holds of a parser's stack and its unread tokens, and is kept by shifting and by reducing, holds
where the parser accepts, which it does only at the end of a text. -/
theorem run_invariant {P : List Entry → List Token → Prop} {invalid : Option Nat} {unit : CompilationUnit}
    (hshift : ∀ stack t tokens target, P stack (t :: tokens) →
      P (⟨target, .terminal t.kind, t⟩ :: stack) tokens)
    (hreduce : ∀ i p stack stack' tokens, tables.production? i = some p →
      reduce tables p stack = .ok stack' → P stack tokens → P stack' tokens)
    {fuel stop : Nat} {stack : List Entry} {tokens : List Token}
    (h : run tables invalid fuel stack stop tokens = .ok unit) (hP : P stack tokens) :
    invalid = none ∧ ∃ stack', P stack' [] ∧ accept stack' = .ok unit := by
  induction fuel generalizing stack stop tokens with
  | zero => simp [run] at h
  | succ fuel ih =>
    have hrun {i : Nat} {p : Production} (hp : tables.production? i = some p)
        (h : (reduce tables p stack >>= fun stack => run tables invalid fuel stack stop tokens) = .ok unit) :
        invalid = none ∧ ∃ stack', P stack' [] ∧ accept stack' = .ok unit := by
      cases hr : reduce tables p stack with
      | error e => simp [hr, bind, Except.bind] at h
      | ok stack' =>
        rw [hr] at h
        exact ih h (hreduce i p stack stack' tokens hp hr hP)
    cases tokens with
    | nil =>
      unfold run at h
      split at h
      · simp at h
      · split at h
        · exact ⟨rfl, stack, hP, h⟩
        · split at h
          · rename_i p hp
            exact hrun hp h
          · simp at h
        · simp at h
        · simp at h
    | cons t tokens =>
      rw [run] at h
      split at h
      · exact ih h (hshift stack t tokens _ hP)
      · split at h
        · rename_i p hp
          exact hrun hp h
        · simp at h
      · simp at h
      · simp at h

/-- What a parser reads is a text of the language. -/
theorem run_sentence (hproductions : ∀ i p, tables.production? i = some p → p ∈ productions)
    {invalid : Option Nat} {fuel stop : Nat} {tokens : List Token} {unit : CompilationUnit}
    (h : run tables invalid fuel [] stop tokens = .ok unit) :
    invalid = none ∧ Sentence tokens unit := by
  have hinvariant := run_invariant
    (P := fun stack rest => ∃ before, Stacked stack before ∧ before ++ rest = tokens) ?_ ?_ h
    ⟨[], .nil, rfl⟩
  · obtain ⟨hinvalid, stack, ⟨before, hstack, hbefore⟩, haccept⟩ := hinvariant
    rw [List.append_nil] at hbefore
    subst hbefore
    unfold accept at haccept
    split at haccept
    · obtain rfl := Except.ok.inj haccept
      cases hstack with
      | push hnil hunit =>
        cases hnil
        exact ⟨hinvalid, hunit⟩
    · simp at haccept
  · rintro stack t rest target ⟨before, hstack, rfl⟩
    exact ⟨before ++ [t], hstack.push (.token rfl .nil), by simp⟩
  · rintro i p stack stack' rest hp hr ⟨before, hstack, rfl⟩
    exact ⟨before, hstack.reduce (hproductions i p hp) hr, rfl⟩

end WordLang.Grammar
