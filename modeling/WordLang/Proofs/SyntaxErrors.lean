import WordLang.Proofs.ParserProgress

/-!
# Syntax errors

A syntax error is found at the first token that no text of the language can have there. All that was shifted
is the beginning of a text. If the token at which the parser fails could follow, a parser of a text in which it
does would make the same moves and fail there as well. Reductions on a token that is wrong already change
nothing in that: they shift nothing.
-/

namespace WordLang

namespace Grammar

variable {tables : Tables}

/-! ## A parser of another text makes the same moves -/

def shape (stack : List Entry) : List (Nat × Symbol) :=
  stack.map fun entry => (entry.state, entry.symbol)

private theorem top_eq_of_shape {stack stack' : List Entry} (h : shape stack' = shape stack) :
    top stack' = top stack := by
  cases stack <;> cases stack' <;> simp_all [shape, top]

private theorem shape_reduce {p : Production} {stack stack' next next' : List Entry} (h : shape stack' = shape stack)
    (hreduce : reduce tables p stack = .ok next) (hreduce' : reduce tables p stack' = .ok next') :
    shape next' = shape next := by
  obtain ⟨_, _, target, -, hgoto, -, rfl⟩ := reduce_eq_ok.mp hreduce
  obtain ⟨_, _, target', -, hgoto', -, rfl⟩ := reduce_eq_ok.mp hreduce'
  have hdrop : shape (stack'.drop p.rhs.length) = shape (stack.drop p.rhs.length) := by
    unfold shape at h ⊢
    rw [List.map_drop, List.map_drop, h]
  rw [top_eq_of_shape hdrop, hgoto] at hgoto'
  obtain rfl := Option.some.inj hgoto'
  unfold shape at hdrop ⊢
  rw [List.map_cons, List.map_cons, hdrop]

private theorem run_reduce_ok {fuel stop i : Nat} {p : Production} {stack : List Entry} {rest : List Token}
    {unit : CompilationUnit} (haction : tables.action? (top stack) (next rest) = some (.reduce i))
    (hp : tables.production? i = some p) (h : run tables none (fuel + 1) stack stop rest = .ok unit) :
    ∃ stack', reduce tables p stack = .ok stack' ∧ run tables none fuel stack' stop rest = .ok unit := by
  cases hr : reduce tables p stack with
  | ok stack' => exact ⟨stack', rfl, (run_reduce haction hp hr).symm.trans h⟩
  | error e =>
    cases rest <;> unfold next at haction <;> simp [run, haction, hp, hr, bind, Except.bind] at h

private theorem run_ne_ok {fuel stop : Nat} {stack : List Entry} {rest : List Token} {unit : CompilationUnit}
    (haction : tables.action? (top stack) (next rest) = none) :
    run tables none fuel stack stop rest ≠ .ok unit := by
  cases fuel with
  | zero => simp [run]
  | succ fuel => cases rest <;> unfold next at haction <;> simp [run, haction]

theorem moves_suffix {c c' : Config} (h : Relation.ReflTransGen (Move tables) c c') : c'.rest <:+ c.rest := by
  induction h with
  | refl => exact List.suffix_rfl
  | tail _ hmove ih =>
    cases hmove with
    | shift => exact (List.suffix_cons _ _).trans ih
    | reduce => exact ih

private theorem next_eq_headD (tokens : List Token) : next tokens = (tokens.map Token.kind).headD .eof := by
  cases tokens <;> rfl

/-- A parser that accepts a text whose tokens have the same kinds, the next one included, makes the same
moves. -/
theorem moves_follow {c c' : Config} (h : Relation.ReflTransGen (Move tables) c c') {mid : List Token}
    (hrest : c.rest = mid ++ c'.rest) {mid' rest' : List Token}
    (hkinds : mid'.map Token.kind = mid.map Token.kind) (hnext : next rest' = next c'.rest)
    {fuel stop : Nat} {stack : List Entry} {unit : CompilationUnit} (hshape : shape stack = shape c.stack)
    (hrun : run tables none fuel stack stop (mid' ++ rest') = .ok unit) :
    ∃ fuel' stop' stack', shape stack' = shape c'.stack ∧
      run tables none fuel' stack' stop' rest' = .ok unit := by
  induction h using Relation.ReflTransGen.head_induction_on generalizing mid mid' fuel stop stack with
  | refl =>
    obtain rfl : mid = [] := by simpa using hrest
    obtain rfl : mid' = [] := by simpa using hkinds
    exact ⟨fuel, stop, stack, hshape, hrun⟩
  | head hmove hmoves ih =>
    cases fuel with
    | zero => simp [run] at hrun
    | succ fuel =>
      cases hmove with
      | @shift stack₀ stop₀ target t rest haction =>
        obtain ⟨mid₁, hmid₁⟩ := moves_suffix hmoves
        have hmid : mid ++ c'.rest = t :: mid₁ ++ c'.rest := by rw [← hrest, List.cons_append, hmid₁]
        obtain rfl := List.append_cancel_right hmid
        cases mid' with
        | nil => simp at hkinds
        | cons t' mid' =>
          obtain ⟨hkind, hkinds⟩ := List.cons.inj hkinds
          have haction' : tables.action? (top stack) t'.kind = some (.shift target) := by
            rw [top_eq_of_shape hshape, hkind]
            exact haction
          rw [List.cons_append, run_shift haction'] at hrun
          refine ih hmid₁.symm hkinds ?_ hrun
          change _ :: shape stack = _ :: shape stack₀
          rw [hshape, hkind]
      | @reduce stack₀ stack₁ stop₀ i p rest haction hp hreduce =>
        have hnext' : next (mid' ++ rest') = next rest := by
          rw [show rest = _ from hrest]
          cases mid <;> cases mid' <;> simp_all [next]
        have haction' : tables.action? (top stack) (next (mid' ++ rest')) = some (.reduce i) := by
          rw [top_eq_of_shape hshape, hnext']
          exact haction
        obtain ⟨stack', hreduce', hrun'⟩ := run_reduce_ok haction' hp hrun
        exact ih hrest hkinds (shape_reduce hshape hreduce hreduce') hrun'

/-- If a parser has no action where it has come, no text of the language goes on with a token of that kind. -/
theorem not_sentence_of_moves {tokens before : List Token} {c : Config}
    (h : Relation.ReflTransGen (Move Grammar.tables) ⟨[], 0, tokens⟩ c) (hsplit : tokens = before ++ c.rest)
    (haction : Grammar.tables.action? (top c.stack) (next c.rest) = none) {kinds : List Terminal}
    (hnext : kinds.headD .eof = next c.rest) {sentence : List Token} {unit : CompilationUnit}
    (hkinds : sentence.map Token.kind = before.map Token.kind ++ kinds) : ¬ Sentence sentence unit := by
  intro hsentence
  obtain ⟨before', rest', rfl, hbefore', rfl⟩ := List.map_eq_append_iff.mp hkinds
  rw [← next_eq_headD] at hnext
  obtain ⟨fuel, stop, stack, hshape, hrun⟩ := moves_follow h hsplit hbefore' hnext rfl (run_eq_ok hsentence)
  rw [← top_eq_of_shape hshape, ← hnext] at haction
  exact run_ne_ok haction hrun

private theorem viable_of_moves {tokens : List Token} {c : Config}
    (h : Relation.ReflTransGen (Move Grammar.tables) ⟨[], 0, tokens⟩ c) (hrest : c.rest = []) : Viable tokens := by
  obtain ⟨before, hbehind⟩ := exists_behind h
  obtain rfl : tokens = before := by simpa [hrest] using hbehind.split
  exact hbehind.tracked.viable hbehind.stacked

/-- Where no numeral is at fault, tokens that begin no text are rejected at one of them. Tokens that begin a text are
rejected at the character that is no part of a token, or at the end if they are no text. -/
theorem parse_rejects {source : String} {text : Tokens} (hscan : Tokens.scan source = text)
    (hrange : ¬ OutOfRange text.tokens) :
    (¬ Viable text.tokens → ∃ token expected,
      CompilationUnit.parse source = .error (.unexpectedToken token expected)) ∧
    (Viable text.tokens → text.invalid = none → (∀ unit, ¬ Sentence text.tokens unit) → ∃ offset expected,
      CompilationUnit.parse source = .error (.unexpectedEnd offset expected)) ∧
    ∀ offset, Viable text.tokens → text.invalid = some offset →
      CompilationUnit.parse source = .error (.invalidToken offset) := by
  subst hscan
  cases hparse : CompilationUnit.parse source with
  | ok unit =>
    obtain ⟨hvalid, hsentence⟩ := run_sentence (fun _ _ => mem_productions) hparse
    have hviable : Viable (Tokens.scan source).tokens := ⟨_, unit, hsentence, List.prefix_rfl⟩
    exact ⟨fun h => absurd hviable h, fun _ _ h => absurd hsentence (h unit), fun _ _ h => by simp [hvalid] at h⟩
  | error e =>
    obtain ⟨hstuck, hliteral⟩ := CompilationUnit.parse_error_reason hparse
    have hplace : ¬ Placeless e := by
      rintro (he | he)
      · exact hrange (hliteral he)
      · exact hstuck he
    obtain ⟨c, hmoves, hrejects⟩ := run_error hparse hplace
    cases hrejects with
    | @invalid stack stop offset hinvalid =>
      refine ⟨fun h => absurd (viable_of_moves hmoves rfl) h, fun _ h => by simp [h] at hinvalid, ?_⟩
      intro offset' _ h
      rw [Option.some.inj (h.symm.trans hinvalid)]
    | ending hinvalid haction =>
      exact ⟨fun h => absurd (viable_of_moves hmoves rfl) h, fun _ _ _ => ⟨_, _, rfl⟩,
        fun _ _ h => by simp [hinvalid] at h⟩
    | @token stack stop t rest haction =>
      have hfault : ¬ Viable (Tokens.scan source).tokens := by
        rintro ⟨sentence, unit, hsentence, others, hothers⟩
        obtain ⟨before, hbehind⟩ := exists_behind hmoves
        have hkinds : sentence.map Token.kind =
            before.map Token.kind ++ t.kind :: (rest.map Token.kind ++ others) := by
          rw [← hothers, hbehind.split]
          simp
        exact not_sentence_of_moves hmoves hbehind.split haction rfl hkinds hsentence
      exact ⟨fun _ => ⟨_, _, rfl⟩, fun h => absurd h hfault, fun _ h => absurd h hfault⟩

private theorem Viable.of_isPrefix {before tokens : List Token} (h : Viable tokens) (hbegins : before <+: tokens) :
    Viable before := by
  obtain ⟨sentence, unit, hsentence, hkinds⟩ := h
  exact ⟨sentence, unit, hsentence, (hbegins.map _).trans hkinds⟩

private theorem earliest_unique {tokens before before' after after' : List Token} {t t' : Token}
    (hsplit : tokens = before ++ t :: after) (hviable : Viable before) (hfault : ¬ Viable (before ++ [t]))
    (hsplit' : tokens = before' ++ t' :: after') (hviable' : Viable before') (hfault' : ¬ Viable (before' ++ [t'])) :
    before = before' ∧ t = t' := by
  have hnot_longer {before before' : List Token} {t : Token} (hmore : before ++ [t] <+: tokens)
      (hless : before' <+: tokens) (hviable : Viable before') (hfault : ¬ Viable (before ++ [t])) :
      before'.length ≤ before.length := by
    by_contra hlonger
    have hbegins := List.prefix_of_prefix_length_le hmore hless (by simp; omega)
    exact hfault (hviable.of_isPrefix hbegins)
  have hmore : before ++ [t] <+: tokens := ⟨after, by simp [hsplit]⟩
  have hmore' : before' ++ [t'] <+: tokens := ⟨after', by simp [hsplit']⟩
  have hless : before <+: tokens := ⟨_, hsplit.symm⟩
  have hless' : before' <+: tokens := ⟨_, hsplit'.symm⟩
  have hlength : before.length = before'.length :=
    Nat.le_antisymm (hnot_longer hmore' hless hviable hfault') (hnot_longer hmore hless' hviable' hfault)
  obtain ⟨rfl, htail⟩ := List.append_inj (hsplit.symm.trans hsplit') hlength
  exact ⟨rfl, (List.cons.inj htail).1⟩

/-! ## Parentheses -/

/-- How many parentheses are open after a symbol. -/
def openAfter (depth : Nat) : Symbol → Option Nat
  | .terminal .lparen => some (depth + 1)
  | .terminal .rparen => if 0 < depth then some (depth - 1) else none
  | _ => some depth

private theorem foldlM_openAfter_add {symbols : List Symbol} {depth depth' : Nat} (k : Nat)
    (h : symbols.foldlM openAfter depth = some depth') : symbols.foldlM openAfter (depth + k) = some (depth' + k) := by
  have hstep {s : Symbol} {depth depth' : Nat} (h : openAfter depth s = some depth') :
      openAfter (depth + k) s = some (depth' + k) := by
    unfold openAfter at h ⊢
    split at h <;> simp_all <;> omega
  induction symbols generalizing depth with
  | nil =>
    obtain rfl : depth = depth' := by simpa using h
    rfl
  | cons s symbols ih =>
    rw [List.foldlM_cons] at h ⊢
    obtain ⟨mid, hmid, hrest⟩ := Option.bind_eq_some_iff.mp h
    exact Option.bind_eq_some_iff.mpr ⟨mid + k, hstep hmid, ih hrest⟩

private theorem Produces.foldlM_openAfter {symbols : List Symbol} {kinds : List Terminal} (h : Produces symbols kinds)
    {depth depth' : Nat} (hsymbols : symbols.foldlM openAfter depth = some depth') :
    (kinds.map Symbol.terminal).foldlM openAfter depth = some depth' := by
  have hrules : ∀ rule ∈ rules, rule.rhs.foldlM openAfter 0 = some 0 := by decide
  induction h generalizing depth depth' with
  | nil => exact hsymbols
  | terminal t _ ih =>
    rw [List.map_cons, List.foldlM_cons]
    rw [List.foldlM_cons] at hsymbols
    obtain ⟨mid, hmid, hrest⟩ := Option.bind_eq_some_iff.mp hsymbols
    exact Option.bind_eq_some_iff.mpr ⟨mid, hmid, ih hrest⟩
  | phrase hrule _ _ ihparts ihrest =>
    rw [List.map_append, List.foldlM_append]
    have hparts := foldlM_openAfter_add depth (hrules _ hrule)
    rw [Nat.zero_add] at hparts
    exact Option.bind_eq_some_iff.mpr ⟨depth, ihparts hparts, ihrest hsymbols⟩

private theorem Sentence.foldlM_openAfter {tokens : List Token} {unit : CompilationUnit} (h : Sentence tokens unit) :
    ((tokens.map Token.kind).map Symbol.terminal).foldlM openAfter 0 = some 0 :=
  h.produces.foldlM_openAfter rfl

end Grammar

open Grammar in
/-- Syntax errors are found as early as can be, whatever values the numerals have. The tokens before one that is
not expected begin a text of the language, and those up to it do not. Where the end is not expected, the tokens
are no text of the language, but some text goes on after them. At a character that is no part of a token, no token
starts, and the tokens before it begin a text of the language. -/
theorem CompilationUnit.parse_error_earliest (source : String) :
    (∀ token expected, CompilationUnit.parse source = .error (.unexpectedToken token expected) →
      ∃ before after, (Tokens.scan source).tokens = before ++ token :: after ∧
        Viable before ∧ ¬ Viable (before ++ [token])) ∧
    (∀ offset expected, CompilationUnit.parse source = .error (.unexpectedEnd offset expected) →
      (∃ sentence unit rest, Sentence sentence unit ∧ rest ≠ [] ∧
        sentence.map Token.kind = (Tokens.scan source).tokens.map Token.kind ++ rest) ∧
      ∀ sentence unit, sentence.map Token.kind = (Tokens.scan source).tokens.map Token.kind →
        ¬ Sentence sentence unit) ∧
    ∀ offset, CompilationUnit.parse source = .error (.invalidToken offset) →
      (∃ before c after, source.toList = before ++ c :: after ∧ Text.byteLength before = offset ∧
        Text.isBlank c = false ∧
        ∀ kind lexeme rest, lexeme ++ rest = c :: after → ¬ Terminal.Spells kind lexeme) ∧
      (∀ t ∈ (Tokens.scan source).tokens, t.stop ≤ offset) ∧ Viable (Tokens.scan source).tokens := by
  refine ⟨fun token expected h => ?_, fun offset expected h => ?_, fun offset h => ?_⟩
  · obtain ⟨c, hmoves, hrejects⟩ := run_error h (by simp [Placeless])
    obtain ⟨before, hbehind⟩ := exists_behind hmoves
    cases hrejects with
    | @token stack stop _ rest haction =>
      refine ⟨before, rest, hbehind.split, hbehind.tracked.viable hbehind.stacked, ?_⟩
      rintro ⟨sentence, unit, hsentence, others, hothers⟩
      have hkinds : sentence.map Token.kind = before.map Token.kind ++ token.kind :: others := by
        rw [← hothers]
        simp
      exact not_sentence_of_moves hmoves hbehind.split haction rfl hkinds hsentence
  · obtain ⟨c, hmoves, hrejects⟩ := run_error h (by simp [Placeless])
    obtain ⟨before, hbehind⟩ := exists_behind hmoves
    cases hrejects with
    | @ending stack stop _ haction =>
      obtain rfl : (Tokens.scan source).tokens = before := by simpa using hbehind.split
      have hnone : ∀ sentence unit, sentence.map Token.kind = (Tokens.scan source).tokens.map Token.kind →
          ¬ Sentence sentence unit := by
        intro sentence unit hkinds
        rw [← List.append_nil (List.map _ (Tokens.scan source).tokens)] at hkinds
        exact not_sentence_of_moves hmoves hbehind.split haction rfl hkinds
      obtain ⟨sentence, unit, hsentence, rest, hrest⟩ := hbehind.tracked.viable hbehind.stacked
      refine ⟨⟨sentence, unit, rest, hsentence, ?_, hrest.symm⟩, hnone⟩
      rintro rfl
      exact hnone sentence unit (by rw [← hrest, List.append_nil]) hsentence
  · obtain ⟨c, hmoves, hrejects⟩ := run_error h (by simp [Placeless])
    obtain ⟨before, hbehind⟩ := exists_behind hmoves
    cases hrejects with
    | @invalid stack stop _ hinvalid =>
      obtain rfl : (Tokens.scan source).tokens = before := by simpa using hbehind.split
      obtain ⟨chars, c, after, hsource, hoffset, hblank, hspells, htokens⟩ :=
        (Tokens.scan_eq_iff.mp rfl).invalid_at hinvalid
      rw [Nat.zero_add] at hoffset
      exact ⟨⟨chars, c, after, hsource, hoffset.symm, hblank, hspells⟩, htokens,
        hbehind.tracked.viable hbehind.stacked⟩

private theorem Grammar.viable_call :
    Viable [⟨.identifier, "f", 0, 1⟩, ⟨.lparen, "(", 1, 2⟩, ⟨.identifier, "x", 2, 3⟩, ⟨.rparen, ")", 3, 4⟩] := by
  have hname (text : String) (start stop : Nat) :
      Derives [.nonterminal .name] [⟨.identifier, text, start, stop⟩] ((text, start), ()) :=
    .of_index 68 rfl (.token rfl .nil) rfl
  have hprimary := Derives.of_index 65 rfl (Derives.of_index 37 rfl (hname "x" 2 3) rfl) rfl
  have hargs : Derives [.nonterminal .args] [⟨.identifier, "x", 2, 3⟩] ([.var "x" 2], ()) :=
    .of_index 76 rfl hprimary.expr_of_primary rfl
  have hcall : Derives [.nonterminal .primary] [⟨.identifier, "f", 0, 1⟩, ⟨.lparen, "(", 1, 2⟩,
      ⟨.identifier, "x", 2, 3⟩, ⟨.rparen, ")", 3, 4⟩] (.call "f" [.var "x" 2] 0, ()) :=
    .of_index 66 rfl ((hname "f" 0 1).cons (.token rfl (hargs.cons (.token rfl .nil)))) rfl
  have hsimple := Derives.of_index 36 rfl hcall.expr_of_primary rfl
  have hstmt : Derives [.nonterminal .stmt] [⟨.identifier, "f", 0, 1⟩, ⟨.lparen, "(", 1, 2⟩,
      ⟨.identifier, "x", 2, 3⟩, ⟨.rparen, ")", 3, 4⟩, ⟨.semicolon, ";", 4, 5⟩]
      (.simple (.expr (.call "f" [.var "x" 2] 0)), ()) :=
    .of_index 14 rfl (hsimple.cons (.token rfl .nil)) rfl
  exact ⟨_, _, .of_index 2 rfl (.of_index 3 rfl (.of_index 7 rfl hstmt rfl) rfl) rfl, [.semicolon], rfl⟩

open Grammar in
set_option maxRecDepth 2000 in
theorem CompilationUnit.parse_error_earliest_faults :
    (∃ expected, CompilationUnit.parse "f(x));" = .error (.unexpectedToken ⟨.rparen, ")", 4, 5⟩ expected) ∧
      ∃ before after, (Tokens.scan "f(x));").tokens = before ++ ⟨.rparen, ")", 4, 5⟩ :: after ∧ before.length = 4 ∧
        Viable before ∧ ¬ Viable (before ++ [⟨.rparen, ")", 4, 5⟩])) ∧
    (∃ offset expected, CompilationUnit.parse "f(x" = .error (.unexpectedEnd offset expected) ∧
      (Tokens.scan "f(x").tokens.length = 3 ∧
      ∃ sentence unit rest, Sentence sentence unit ∧ rest ≠ [] ∧
        sentence.map Token.kind = (Tokens.scan "f(x").tokens.map Token.kind ++ rest) ∧
    CompilationUnit.parse "f(x é" = .error (.invalidToken 4) ∧ (Tokens.scan "f(x é").tokens.length = 3 ∧
      Viable (Tokens.scan "f(x é").tokens := by
  have hopen : Viable [⟨.identifier, "f", 0, 1⟩, ⟨.lparen, "(", 1, 2⟩, ⟨.identifier, "x", 2, 3⟩] :=
    viable_call.of_isPrefix ⟨[_], rfl⟩
  refine ⟨?_, ?_, ?_⟩
  · have hscan : Tokens.scan "f(x));" = ⟨[⟨.identifier, "f", 0, 1⟩, ⟨.lparen, "(", 1, 2⟩, ⟨.identifier, "x", 2, 3⟩,
        ⟨.rparen, ")", 3, 4⟩, ⟨.rparen, ")", 4, 5⟩, ⟨.semicolon, ";", 5, 6⟩], none⟩ := rfl
    have hfault : ¬ Viable [⟨.identifier, "f", 0, 1⟩, ⟨.lparen, "(", 1, 2⟩, ⟨.identifier, "x", 2, 3⟩,
        ⟨.rparen, ")", 3, 4⟩, ⟨.rparen, ")", 4, 5⟩] := by
      rintro ⟨sentence, unit, hsentence, others, hothers⟩
      have hbalanced := hsentence.foldlM_openAfter
      rw [← hothers, List.map_append, List.foldlM_append] at hbalanced
      cases hbalanced
    have hnone : ¬ Viable (Tokens.scan "f(x));").tokens := fun h => hfault (h.of_isPrefix ⟨[_], rfl⟩)
    obtain ⟨token, expected, hparse⟩ := (parse_rejects hscan (by simp [OutOfRange])).1 hnone
    obtain ⟨before, after, hsplit, hviable, hnot⟩ := (parse_error_earliest "f(x));").1 token expected hparse
    obtain ⟨rfl, rfl⟩ := earliest_unique hsplit hviable hnot (congrArg Tokens.tokens hscan) viable_call hfault
    exact ⟨expected, hparse, _, after, hsplit, rfl, hviable, hnot⟩
  · have hscan : Tokens.scan "f(x" =
        ⟨[⟨.identifier, "f", 0, 1⟩, ⟨.lparen, "(", 1, 2⟩, ⟨.identifier, "x", 2, 3⟩], none⟩ := rfl
    obtain ⟨offset, expected, hparse⟩ := (parse_rejects hscan (by simp [OutOfRange])).2.1 hopen rfl
      fun unit hsentence => by cases hsentence.foldlM_openAfter
    exact ⟨offset, expected, hparse, rfl, ((parse_error_earliest "f(x").2.1 offset expected hparse).1⟩
  · have hscan : Tokens.scan "f(x é" =
        ⟨[⟨.identifier, "f", 0, 1⟩, ⟨.lparen, "(", 1, 2⟩, ⟨.identifier, "x", 2, 3⟩], some 4⟩ := rfl
    have hparse := (parse_rejects hscan (by simp [OutOfRange])).2.2 4 hopen rfl
    exact ⟨hparse, rfl, ((parse_error_earliest "f(x é").2.2 4 hparse).2.2⟩

end WordLang
