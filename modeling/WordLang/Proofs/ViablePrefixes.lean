import WordLang.Proofs.Derivation
import WordLang.Proofs.ParserTables

/-!
# Viable prefixes

Whatever the parser has on its stack is the beginning of a text: the items of the state on top are valid after
the symbols below it, and a valid item says how a text can go on. The values of numerals play no part in this,
so derivations are looked at here with the kinds of the tokens only. Nothing is computed of the automaton; that
its states are made by closing and shifting sets of items is enough.
-/

namespace WordLang.Grammar

/-- Tokens of these kinds are phrases of the symbols, one after the other, whatever their numerals are. -/
inductive Produces : List Symbol → List Terminal → Prop where
  | nil : Produces [] []
  | terminal {symbols : List Symbol} {kinds : List Terminal} (t : Terminal) (hrest : Produces symbols kinds) :
      Produces (.terminal t :: symbols) (t :: kinds)
  | phrase {symbols : List Symbol} {parts kinds : List Terminal} {rule : Rule} (hrule : rule ∈ rules)
      (hparts : Produces rule.rhs parts) (hrest : Produces symbols kinds) :
      Produces (.nonterminal rule.lhs :: symbols) (parts ++ kinds)

section Produces

variable {symbols symbols' : List Symbol} {kinds kinds' : List Terminal}

private theorem Produces.append (h : Produces symbols kinds) (h' : Produces symbols' kinds') :
    Produces (symbols ++ symbols') (kinds ++ kinds') := by
  induction h with
  | nil => exact h'
  | terminal t _ ih => exact .terminal t ih
  | phrase hrule hparts _ _ ih =>
    rw [List.append_assoc]
    exact .phrase hrule hparts ih

private theorem Produces.exists_of_append (h : Produces (symbols ++ symbols') kinds) :
    ∃ before after, kinds = before ++ after ∧ Produces symbols before ∧ Produces symbols' after := by
  induction symbols generalizing kinds with
  | nil => exact ⟨[], kinds, rfl, .nil, h⟩
  | cons s symbols ih =>
    cases h with
    | terminal t hrest =>
      obtain ⟨before, after, rfl, hbefore, hafter⟩ := ih hrest
      exact ⟨t :: before, after, rfl, .terminal t hbefore, hafter⟩
    | phrase hrule hparts hrest =>
      obtain ⟨before, after, rfl, hbefore, hafter⟩ := ih hrest
      exact ⟨_, after, (List.append_assoc _ _ _).symm, .phrase hrule hparts hbefore, hafter⟩

private theorem Produces.fold {rule : Rule} (hrule : rule ∈ rules)
    (h : Produces (symbols ++ (rule.rhs ++ symbols')) kinds) :
    Produces (symbols ++ .nonterminal rule.lhs :: symbols') kinds := by
  obtain ⟨before, _, rfl, hbefore, h⟩ := h.exists_of_append
  obtain ⟨parts, after, rfl, hparts, hafter⟩ := h.exists_of_append
  exact hbefore.append (.phrase hrule hparts hafter)

theorem Derives.produces {tokens : List Token} {values : Values symbols} (h : Derives symbols tokens values) :
    Produces symbols (tokens.map Token.kind) := by
  induction h with
  | nil => exact .nil
  | token hkind _ ih =>
    subst hkind
    exact .terminal _ ih
  | @phrase symbols tokens parts values p meanings meaning hp _ _ _ ihparts ihrest =>
    rw [List.map_append]
    exact .phrase (List.mem_map_of_mem hp : p.rule ∈ rules) ihparts ihrest

private theorem Stacked.produces {stack : List Entry} {tokens : List Token} (h : Stacked stack tokens) :
    Produces (stack.map Entry.symbol).reverse (tokens.map Token.kind) := by
  induction h with
  | nil => exact .nil
  | push _ hentry ih =>
    rw [List.map_cons, List.reverse_cons, List.map_append]
    exact ih.append hentry.produces

def OutOfRange (tokens : List Token) : Prop :=
  ∃ t ∈ tokens, t.kind = .number ∧ ∃ e, Word.ofLiteral t.text = .error e

theorem exists_build : ∀ p ∈ productions, ∀ (parts : List Token) (meanings : Values p.rhs),
    Derives p.rhs parts meanings → (∃ meaning, p.build meanings = some meaning) ∨ OutOfRange parts := by
  rw [productions]
  repeat' refine List.forall_mem_cons.mpr ⟨?_, ?_⟩
  any_goals exact List.forall_mem_nil _
  all_goals intro parts meanings hparts
  any_goals exact .inl ⟨_, rfl⟩
  cases hparts with
  | @token _ _ _ _ t hkind hnil =>
    cases hw : Word.ofLiteral t.text with
    | ok w => exact .inl ⟨w, by simp [hw, Except.toOption]⟩
    | error e => exact .inr ⟨t, List.mem_cons_self, hkind, e, hw⟩

/-- Tokens of kinds that form phrases can be chosen so that the phrases have meanings. -/
theorem Produces.exists_derives (h : Produces symbols kinds) :
    ∃ tokens values, tokens.map Token.kind = kinds ∧ (∀ t ∈ tokens, t.text = "0") ∧
      Derives symbols tokens values := by
  induction h with
  | nil => exact ⟨[], (), rfl, by simp, .nil⟩
  | terminal t _ ih =>
    obtain ⟨tokens, values, rfl, hzeros, hrest⟩ := ih
    exact ⟨⟨t, "0", 0, 0⟩ :: tokens, (⟨t, "0", 0, 0⟩, values), rfl, by simpa using hzeros, .token rfl hrest⟩
  | phrase hrule _ _ ihparts ihrest =>
    obtain ⟨p, hp, rfl⟩ := List.mem_map.mp hrule
    obtain ⟨parts, meanings, rfl, hzero, hparts⟩ := ihparts
    obtain ⟨tokens, values, rfl, hzeros, hrest⟩ := ihrest
    have hrange : ¬ OutOfRange parts := by
      rintro ⟨t, ht, -, e, he⟩
      have hvalue : ∃ w, Word.ofLiteral "0" = .ok w := ⟨_, rfl⟩
      rw [← hzero t ht, he] at hvalue
      simp at hvalue
    obtain ⟨meaning, hbuild⟩ := (exists_build p hp parts meanings hparts).resolve_right hrange
    refine ⟨parts ++ tokens, (meaning, values), List.map_append, ?_, .phrase hp hparts hbuild hrest⟩
    intro t ht
    rcases List.mem_append.mp ht with ht | ht
    · exact hzero t ht
    · exact hzeros t ht

/-- How deep the least phrase of a symbol is. -/
def Symbol.depth : Symbol → Nat
  | .terminal _ => 0
  | .nonterminal n =>
    match n with
    | .start => 2
    | .unit => 1
    | .items => 4
    | .item => 3
    | .header => 2
    | .function => 3
    | .block => 1
    | .stmts => 3
    | .stmt => 2
    | .ifStmt => 11
    | .elseTail => 2
    | .simple => 11
    | .place => 2
    | .expr => 10
    | .disjunction => 9
    | .conjunction => 8
    | .equality => 7
    | .relation => 6
    | .sum => 5
    | .product => 4
    | .unary => 3
    | .primary => 2
    | .number => 1
    | .name => 1
    | .params => 1
    | .paramCommas => 2
    | .args => 1
    | .argCommas => 11

private theorem exists_rule_depth (n : Nonterminal) :
    ∃ rule ∈ rules, rule.lhs = n ∧ ∀ s ∈ rule.rhs, s.depth < (Symbol.nonterminal n).depth := by
  cases n <;> decide

private theorem exists_produces (symbols : List Symbol) : ∃ kinds, Produces symbols kinds := by
  have hbounded (depth : Nat) : ∀ symbols : List Symbol, (∀ s ∈ symbols, s.depth < depth) →
      ∃ kinds, Produces symbols kinds := by
    induction depth with
    | zero =>
      intro symbols hdepth
      cases symbols with
      | nil => exact ⟨[], .nil⟩
      | cons s symbols => exact absurd (hdepth s List.mem_cons_self) (Nat.not_lt_zero _)
    | succ depth ih =>
      intro symbols hdepth
      induction symbols with
      | nil => exact ⟨[], .nil⟩
      | cons s symbols ihsymbols =>
        obtain ⟨kinds, hkinds⟩ := ihsymbols fun s hs => hdepth s (List.mem_cons_of_mem _ hs)
        cases s with
        | terminal t => exact ⟨t :: kinds, .terminal t hkinds⟩
        | nonterminal n =>
          obtain ⟨rule, hrule, rfl, hrhs⟩ := exists_rule_depth n
          have hn := hdepth _ List.mem_cons_self
          obtain ⟨parts, hparts⟩ := ih rule.rhs fun s hs => by
            have := hrhs s hs
            omega
          exact ⟨parts ++ kinds, .phrase hrule hparts hkinds⟩
  have hmax : ∃ depth, ∀ s ∈ symbols, s.depth < depth := by
    induction symbols with
    | nil => exact ⟨0, by simp⟩
    | cons s symbols ih =>
      obtain ⟨depth, hdepth⟩ := ih
      refine ⟨depth + s.depth + 1, fun s' hs' => ?_⟩
      rcases List.mem_cons.mp hs' with rfl | hs'
      · omega
      · have := hdepth s' hs'
        omega
  obtain ⟨depth, hdepth⟩ := hmax
  exact hbounded depth symbols hdepth

end Produces

private theorem Produces.start {kinds : List Terminal} (h : Produces [.nonterminal .start] kinds) :
    Produces [.nonterminal .unit] kinds := by
  have hrules : ∀ rule ∈ rules, rule.lhs = .start → rule.rhs = [.nonterminal .unit] := by decide
  generalize hsymbols : [Symbol.nonterminal .start] = symbols at h
  cases h with
  | nil => simp at hsymbols
  | terminal t hrest => simp at hsymbols
  | phrase hrule hparts hrest =>
    simp only [List.cons.injEq, Symbol.nonterminal.injEq] at hsymbols
    obtain ⟨hlhs, rfl⟩ := hsymbols
    cases hrest
    rw [hrules _ hrule hlhs.symm] at hparts
    rwa [List.append_nil]

/-- Symbols that go on as `before` and `after` do are a text. -/
def Completes (before after : List Symbol) : Prop :=
  ∀ kinds, Produces (before ++ after) kinds → Produces [.nonterminal .unit] kinds

/-! ## Items -/

section Items

variable {base k dot : Nat} {rule : Rule} {item : Item}

/-- The items of a rule are those from number `base` on. -/
structure Numbered (base : Nat) (rule : Rule) : Prop where
  mem : rule ∈ rules
  getElem? : ∀ dot ≤ rule.rhs.length, ∃ i, items[base + dot]? = some ⟨i, dot, rule.lhs, rule.rhs[dot]?⟩

private theorem along_getElem? (i : Nat) (n : Nonterminal) (dot d : Nat) (rest : List Symbol) :
    (Item.along i n dot rest)[d]? = if d ≤ rest.length then some ⟨i, dot + d, n, rest[d]?⟩ else none := by
  induction rest generalizing dot d with
  | nil => cases d <;> simp [Item.along]
  | cons s rest ih =>
    cases d with
    | zero => simp [Item.along]
    | succ d => simp [Item.along, ih, Nat.add_right_comm, Nat.add_assoc]

private theorem getElem?_flatMap {α β : Type} {f : α → List β} {as : List α} {b : β}
    (h : (as.flatMap f)[k]? = some b) :
    ∃ a ∈ as, ∃ base d, k = base + d ∧ (f a)[d]? = some b ∧
      ∀ d < (f a).length, (as.flatMap f)[base + d]? = (f a)[d]? := by
  induction as generalizing k with
  | nil => simp at h
  | cons a as ih =>
    rw [List.flatMap_cons] at h ⊢
    by_cases hk : k < (f a).length
    · rw [List.getElem?_append_left hk] at h
      refine ⟨a, List.mem_cons_self, 0, k, by simp, h, fun d hd => ?_⟩
      rw [Nat.zero_add, List.getElem?_append_left hd]
    · rw [List.getElem?_append_right (Nat.le_of_not_lt hk)] at h
      obtain ⟨a', ha', base, d, hkd, hd, hrest⟩ := ih h
      refine ⟨a', List.mem_cons_of_mem _ ha', (f a).length + base, d, by omega, hd, fun d' hd' => ?_⟩
      rw [List.getElem?_append_right (by omega), Nat.add_assoc, Nat.add_sub_cancel_left, hrest d' hd']

theorem exists_numbered (h : items[k]? = some item) :
    ∃ base rule, Numbered base rule ∧ item.dot ≤ rule.rhs.length ∧ k = base + item.dot ∧
      item.phrase = rule.lhs ∧ item.next? = rule.rhs[item.dot]? := by
  obtain ⟨⟨rule, i⟩, hmem, base, d, rfl, hitem, hitems⟩ := getElem?_flatMap h
  rw [along_getElem?] at hitem
  split at hitem
  · rename_i hd
    obtain rfl := Option.some.inj hitem
    refine ⟨base, rule, ⟨?_, fun dot hdot => ⟨i, ?_⟩⟩, by simpa using hd, by simp, rfl, by simp⟩
    · exact List.mem_of_getElem? (List.mk_mem_zipIdx_iff_getElem?.mp hmem)
    · have hlength : dot < (Item.along i rule.lhs 0 rule.rhs).length := by
        rw [← Nat.not_le, ← List.getElem?_eq_none_iff, along_getElem?, if_pos hdot]
        simp
      have hat := hitems dot hlength
      rw [along_getElem?, if_pos hdot, Nat.zero_add] at hat
      exact hat
  · simp at hitem

private theorem exists_getElem?_flatMap {α β : Type} {f : α → List β} {as : List α} {a : α} {bs : List β}
    (h : a ∈ as) (hbs : f a = bs) : ∃ base, ∀ d < bs.length, (as.flatMap f)[base + d]? = bs[d]? := by
  subst hbs
  obtain ⟨before, after, rfl⟩ := List.append_of_mem h
  refine ⟨(before.flatMap f).length, fun d hd => ?_⟩
  rw [List.flatMap_append, List.flatMap_cons, List.getElem?_append_right (Nat.le_add_right _ _),
    Nat.add_sub_cancel_left, List.getElem?_append_left hd]

theorem exists_numbered_of_mem (h : rule ∈ rules) : ∃ base, Numbered base rule := by
  obtain ⟨i, hi⟩ := List.mem_iff_getElem?.mp h
  have hitems : ∃ base, ∀ dot < (Item.along i rule.lhs 0 rule.rhs).length,
      items[base + dot]? = (Item.along i rule.lhs 0 rule.rhs)[dot]? := by
    unfold items
    exact exists_getElem?_flatMap (List.mk_mem_zipIdx_iff_getElem?.mpr hi) rfl
  obtain ⟨base, hbase⟩ := hitems
  refine ⟨base, h, fun dot hdot => ⟨i, ?_⟩⟩
  have hat : (Item.along i rule.lhs 0 rule.rhs)[dot]? = some ⟨i, dot, rule.lhs, rule.rhs[dot]?⟩ := by
    rw [along_getElem?, if_pos hdot, Nat.zero_add]
  rw [hbase dot (List.getElem?_eq_some_iff.mp hat).1, hat]

/-- Item number `k` is valid after some symbols: they end in what its rule has before the place of the item, and
the phrase of the rule can stand at the start of that. -/
def Valid (k : Nat) (before : List Symbol) : Prop :=
  ∃ base rule dot outer after, Numbered base rule ∧ dot ≤ rule.rhs.length ∧ k = base + dot ∧
    before = outer ++ rule.rhs.take dot ∧ Completes outer (.nonterminal rule.lhs :: after)

variable {before : List Symbol}

private theorem Valid.completes (h : Valid k before) : ∃ after, Completes before after := by
  obtain ⟨base, rule, dot, outer, after, hnumbered, -, -, rfl, hcompletes⟩ := h
  refine ⟨rule.rhs.drop dot ++ after, fun kinds hkinds => hcompletes kinds ?_⟩
  apply Produces.fold hnumbered.mem
  rwa [List.append_assoc, ← List.append_assoc (List.take dot rule.rhs), List.take_append_drop] at hkinds

private theorem Valid.shift {s : Symbol} (h : Valid k before) (hitem : items[k]? = some item)
    (hnext : item.next? = some s) : Valid (k + 1) (before ++ [s]) := by
  obtain ⟨base, rule, dot, outer, after, hnumbered, hdot, rfl, rfl, hcompletes⟩ := h
  obtain ⟨i, hat⟩ := hnumbered.getElem? dot hdot
  obtain rfl := Option.some.inj (hitem.symm.trans hat)
  obtain ⟨hlt, hs⟩ := List.getElem?_eq_some_iff.mp hnext
  refine ⟨base, rule, dot + 1, outer, after, hnumbered, hlt, rfl, ?_, hcompletes⟩
  rw [List.append_assoc, ← hs, List.take_append_getElem hlt]

/-- Where a valid item reads a phrase, the items at the start of its rules are valid. -/
theorem Valid.start {j : Nat} {n : Nonterminal} {opening : Item} (h : Valid k before)
    (hitem : items[k]? = some item) (hnext : item.next? = some (.nonterminal n))
    (hopening : items[j]? = some opening) (hdot : opening.dot = 0) (hphrase : opening.phrase = n) :
    Valid j before := by
  obtain ⟨base, rule, dot, outer, after, hnumbered, hle, rfl, rfl, hcompletes⟩ := h
  obtain ⟨i, hat⟩ := hnumbered.getElem? dot hle
  obtain rfl := Option.some.inj (hitem.symm.trans hat)
  obtain ⟨hlt, hs⟩ := List.getElem?_eq_some_iff.mp hnext
  obtain ⟨base', rule', hnumbered', -, hj, hlhs, -⟩ := exists_numbered hopening
  refine ⟨base', rule', 0, outer ++ rule.rhs.take dot, rule.rhs.drop (dot + 1) ++ after, hnumbered',
    Nat.zero_le _, by rw [hj, hdot], by simp, fun kinds hkinds => hcompletes kinds ?_⟩
  apply Produces.fold hnumbered.mem
  have hrhs : rule.rhs = rule.rhs.take dot ++ .nonterminal rule'.lhs :: rule.rhs.drop (dot + 1) := by
    rw [← hlhs, hphrase, ← hs, List.getElem_cons_drop hlt, List.take_append_drop]
  rw [hrhs]
  simpa using hkinds

end Items

namespace ItemSet

variable {kernel : ItemSet} {before : List Symbol} {k : Nat}

private theorem testBit_select {α : Type} (p : α → Bool) (as : List α) (k : Nat) :
    (select p as).testBit k = as[k]?.any p := by
  induction as generalizing k with
  | nil => simp [select]
  | cons a as ih =>
    cases k with
    | zero => cases hp : p a <;> simp [select, hp]
    | succ k => cases hp : p a <;> simp [select, hp, Nat.testBit_succ, ih, Nat.mul_add_div]

def Valid (set : ItemSet) (before : List Symbol) : Prop :=
  ∀ k, set.bits.testBit k = true → Grammar.Valid k before

private theorem testBit_reading {s : Symbol} :
    (reading s).bits.testBit k = true ↔ ∃ item, items[k]? = some item ∧ item.next? = some s := by
  rw [reading, testBit_select]
  simp only [Option.any_eq_true, decide_eq_true_eq]

theorem testBit_starting {n : Nonterminal} :
    (starting n).bits.testBit k = true ↔ ∃ item, items[k]? = some item ∧ item.dot = 0 ∧ item.phrase = n := by
  rw [starting, testBit_select]
  simp only [Option.any_eq_true, Bool.and_eq_true, beq_iff_eq, decide_eq_true_eq]

def Reads (set : ItemSet) (s : Symbol) : Prop :=
  ∃ k item, set.bits.testBit k = true ∧ items[k]? = some item ∧ item.next? = some s

private theorem isEmpty_inter_reading {s : Symbol} : (kernel.inter (reading s)).isEmpty = false ↔ kernel.Reads s := by
  constructor
  · intro h
    obtain ⟨k, hk⟩ := Nat.exists_testBit_of_ne_zero (by simpa [isEmpty] using h)
    rw [inter, Nat.testBit_and, Bool.and_eq_true, testBit_reading] at hk
    obtain ⟨hk, item, hitem, hnext⟩ := hk
    exact ⟨k, item, hk, hitem, hnext⟩
  · rintro ⟨k, item, hk, hitem, hnext⟩
    have hbit : (kernel.inter (reading s)).bits.testBit k = true := by
      rw [inter, Nat.testBit_and, hk, testBit_reading.mpr ⟨item, hitem, hnext⟩]
      rfl
    rw [isEmpty, beq_eq_false_iff_ne]
    intro hzero
    simp [hzero] at hbit

/-- The set with the starts of the rules of a phrase, if an item reads that. -/
def opened (set : ItemSet) (n : Nonterminal) : ItemSet :=
  if (set.inter (reading (.nonterminal n))).isEmpty then set else set.union (starting n)

theorem testBit_opened (n : Nonterminal) : (kernel.opened n).bits.testBit k = true ↔
    kernel.bits.testBit k = true ∨ kernel.Reads (.nonterminal n) ∧ (starting n).bits.testBit k = true := by
  unfold opened
  split
  · rename_i hempty
    have hreads : ¬ kernel.Reads (.nonterminal n) := by simp [← isEmpty_inter_reading, hempty]
    simp [hreads]
  · rename_i hempty
    have hreads : kernel.Reads (.nonterminal n) := isEmpty_inter_reading.mp (Bool.eq_false_iff.mpr hempty)
    simp [union, hreads]

theorem expand_eq_foldl (set : ItemSet) : set.expand = Nonterminal.all.foldl opened set := by
  rw [expand, openings, List.foldl_map]
  rfl

/-- What holds of a set and is kept where a phrase is opened holds of the closure. -/
theorem closure_induction {P : ItemSet → Prop} (hkernel : P kernel)
    (hopened : ∀ set n, P set → P (opened set n)) : P kernel.closure := by
  have hexpand (set : ItemSet) (hset : P set) : P set.expand := by
    rw [expand_eq_foldl]
    induction Nonterminal.all generalizing set with
    | nil => exact hset
    | cons n phrases ih => exact ih _ (hopened set n hset)
  rw [ItemSet.closure]
  generalize Nonterminal.all.length = fuel
  induction fuel generalizing kernel with
  | zero => exact hkernel
  | succ fuel ih =>
    rw [stabilize]
    split
    · exact hkernel
    · exact ih (hexpand _ hkernel)

private theorem Valid.opened (h : kernel.Valid before) (n : Nonterminal) : (kernel.opened n).Valid before := by
  intro j hj
  rcases (testBit_opened n).mp hj with hj | ⟨⟨k, reader, hk, hreader, hnext⟩, hj⟩
  · exact h j hj
  · obtain ⟨opening, hopening, hdot, hphrase⟩ := testBit_starting.mp hj
    exact (h k hk).start hreader hnext hopening hdot hphrase

private theorem Valid.closure (h : kernel.Valid before) : kernel.closure.Valid before :=
  closure_induction (P := fun set => set.Valid before) h fun _ n hset => hset.opened n

theorem mem_successors {s : Symbol} {target : ItemSet} : (s, target) ∈ kernel.successors ↔
    s ≠ .terminal .eof ∧ kernel.closure.Reads s ∧ target = (kernel.closure.inter (reading s)).shift := by
  have hall : s ∈ Terminal.all.map Symbol.terminal ++ Nonterminal.all.map Symbol.nonterminal ↔
      s ≠ .terminal .eof := by
    cases s with
    | terminal t => cases t <;> decide
    | nonterminal n => cases n <;> decide
  rw [← isEmpty_inter_reading, successors, ← hall]
  constructor
  · intro hmem
    obtain ⟨⟨s', readers⟩, hreaders, hmoving⟩ := List.mem_filterMap.mp hmem
    obtain ⟨s'', hs, hs''⟩ := List.mem_map.mp hreaders
    obtain ⟨rfl, rfl⟩ := Prod.mk.inj hs''
    dsimp only at hmoving
    split at hmoving
    · simp at hmoving
    · rename_i hempty
      obtain ⟨rfl, rfl⟩ := Prod.mk.inj (Option.some.inj hmoving)
      exact ⟨hs, Bool.eq_false_iff.mpr hempty, rfl⟩
  · rintro ⟨hs, hempty, rfl⟩
    refine List.mem_filterMap.mpr ⟨(s, reading s), List.mem_map.mpr ⟨s, hs, rfl⟩, ?_⟩
    simp [hempty]

theorem testBit_successor {s : Symbol} {target : ItemSet} (hmem : (s, target) ∈ kernel.successors) :
    target.bits.testBit k = true ↔ ∃ j item, k = j + 1 ∧ kernel.closure.bits.testBit j = true ∧
      items[j]? = some item ∧ item.next? = some s := by
  obtain ⟨-, -, rfl⟩ := mem_successors.mp hmem
  rw [shift, Nat.testBit_shiftLeft]
  cases k with
  | zero => simp
  | succ j => simp [inter, testBit_reading]

/-- The items to which a symbol leads from a valid set are valid after it, and there is one. -/
theorem Valid.successor {s : Symbol} {target : ItemSet} (h : kernel.Valid before)
    (hmem : (s, target) ∈ kernel.successors) :
    target.Valid (before ++ [s]) ∧ ∃ k, target.bits.testBit k = true := by
  constructor
  · intro k hk
    obtain ⟨j, item, rfl, hj, hitem, hnext⟩ := (testBit_successor hmem).mp hk
    exact (h.closure j hj).shift hitem hnext
  · obtain ⟨j, item, hj, hitem, hnext⟩ := (mem_successors.mp hmem).2.1
    exact ⟨j + 1, (testBit_successor hmem).mpr ⟨j, item, rfl, hj, hitem, hnext⟩⟩

theorem testBit_initial : initial.bits.testBit k = true ↔ k = 0 := by
  cases k with
  | zero => exact iff_of_true rfl rfl
  | succ k => simp [initial, Nat.testBit_succ]

private theorem initial_valid : initial.Valid [] := by
  intro k hk
  obtain rfl := testBit_initial.mp hk
  have hitem : items[0]? = some ⟨0, 0, .start, some (.nonterminal .unit)⟩ := rfl
  obtain ⟨base, rule, hnumbered, -, hbase, hlhs, -⟩ := exists_numbered hitem
  refine ⟨base, rule, 0, [], [], hnumbered, Nat.zero_le _, hbase, rfl, fun kinds hkinds => ?_⟩
  rw [← hlhs] at hkinds
  exact hkinds.start

end ItemSet

/-! ## Stacks -/

/-- Each phrase on the stack led from the state below it to its own. -/
inductive Tracked (edges : Edges) : List Entry → Prop where
  | nil : Tracked edges []
  | push {entry : Entry} {stack : List Entry} (hstack : Tracked edges stack)
      (hentry : edges.target? (top stack) entry.symbol = some entry.state) : Tracked edges (entry :: stack)

/-- Tokens of the same kinds begin a text of the language. -/
def Viable (tokens : List Token) : Prop :=
  ∃ sentence unit, Sentence sentence unit ∧ tokens.map Token.kind <+: sentence.map Token.kind

private theorem explore_prefix (fuel : Nat) (found pending : List ItemSet) : found <+: explore fuel found pending := by
  induction fuel generalizing found pending with
  | zero => exact List.prefix_rfl
  | succ fuel ih =>
    cases pending with
    | nil => exact List.prefix_rfl
    | cons kernel rest => exact (List.prefix_append _ _).trans (ih _ _)

theorem kernels_zero : kernels[0]? = some .initial := by
  obtain ⟨rest, hrest⟩ := explore_prefix 1000 [.initial] [.initial]
  rw [kernels, ← hrest]
  rfl

/-- An edge leads to the state that has the items to which the symbol leads. -/
theorem exists_successor {q target : Nat} {s : Symbol} (h : edges.target? q s = some target) :
    ∃ kernel next, kernels[q]? = some kernel ∧ (s, next) ∈ kernel.successors ∧
      ∀ kernel', kernels[target]? = some kernel' → kernel' = next := by
  obtain ⟨row, hrow, hmem⟩ := Edges.mem_of_target? h
  rw [edges, Edges.ofKernels, List.getElem?_map] at hrow
  obtain ⟨kernel, hkernel, rfl⟩ := Option.map_eq_some_iff.mp hrow
  obtain ⟨⟨s', next⟩, hsuccessor, hs⟩ := List.mem_map.mp hmem
  obtain ⟨rfl, rfl⟩ := Prod.mk.inj hs
  refine ⟨kernel, next, hkernel, hsuccessor, fun kernel' hkernel' => ?_⟩
  obtain ⟨hlt, rfl⟩ := List.getElem?_eq_some_iff.mp hkernel'
  exact List.getElem_idxOf hlt

/-- The items of the state on top of a stack are valid after the symbols on it. -/
theorem Tracked.valid {stack : List Entry} (h : Tracked edges stack) :
    ∃ kernel : ItemSet, (∀ kernel', kernels[top stack]? = some kernel' → kernel' = kernel) ∧
      kernel.Valid (stack.map Entry.symbol).reverse ∧ ∃ k, kernel.bits.testBit k = true := by
  induction h with
  | nil =>
    refine ⟨.initial, fun kernel' h => ?_, ItemSet.initial_valid, 0, rfl⟩
    exact Option.some.inj (h.symm.trans kernels_zero)
  | @push entry stack _ hentry ih =>
    obtain ⟨kernel, hkernel, hvalid, -⟩ := ih
    obtain ⟨kernel', next, hkernel', hsuccessor, hnext⟩ := exists_successor hentry
    obtain rfl := hkernel kernel' hkernel'
    refine ⟨next, hnext, ?_⟩
    rw [List.map_cons, List.reverse_cons]
    exact hvalid.successor hsuccessor

/-- The tokens on the parser's stack begin a text of the language. -/
theorem Tracked.viable {stack : List Entry} {tokens : List Token} (h : Tracked edges stack)
    (hstack : Stacked stack tokens) : Viable tokens := by
  obtain ⟨kernel, -, hvalid, k, hk⟩ := h.valid
  obtain ⟨after, hcompletes⟩ := (hvalid k hk).completes
  obtain ⟨rest, hrest⟩ := exists_produces after
  obtain ⟨sentence, ⟨unit, ⟨⟩⟩, hkinds, -, hsentence⟩ :=
    (hcompletes _ (hstack.produces.append hrest)).exists_derives
  exact ⟨sentence, unit, hsentence, hkinds ▸ List.prefix_append _ _⟩

end WordLang.Grammar
