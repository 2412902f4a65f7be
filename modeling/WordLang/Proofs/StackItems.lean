import Mathlib.Data.Finset.Card
import WordLang.Proofs.Parsing
import WordLang.Proofs.ViablePrefixes

/-!
# Items along the stack

An item in a state can be followed back along the stack to where its rule begins: what the rule has before the
place of the item is on the stack, and the state below that reads the rule's phrase. So a stack is made of the
beginnings of rules, each one where the phrase of the next is read, and the phrases on it take few more steps to
read than their tokens pay for.
-/

namespace WordLang.Grammar

/-! ## Closed sets of items -/

/-- A step that makes a bounded number grow as long as it changes anything is repeated until it changes nothing. -/
theorem step_stabilize {α : Type} [DecidableEq α] {step : α → α} (size : α → Nat) (bound : Nat)
    (hbound : ∀ a, size a ≤ bound) (hstep : ∀ a, step a ≠ a → size a < size (step a)) {fuel : Nat} {a : α}
    (hfuel : bound ≤ size a + fuel) : step (stabilize step fuel a) = stabilize step fuel a := by
  induction fuel generalizing a with
  | zero =>
    by_contra hne
    have hlt := hstep a hne
    have hle := hbound (step a)
    omega
  | succ fuel ih =>
    rw [stabilize]
    split
    · assumption
    · rename_i hne
      have hlt := hstep a hne
      exact ih (by omega)

private theorem Nonterminal.mem_all (n : Nonterminal) : n ∈ all := by
  cases n <;> decide

namespace ItemSet

def Within (set other : ItemSet) : Prop :=
  ∀ k, set.bits.testBit k = true → other.bits.testBit k = true

variable {kernel set other : ItemSet} {k : Nat}

private theorem Within.reads {s : Symbol} (h : set.Within other) (hreads : set.Reads s) : other.Reads s := by
  obtain ⟨k, item, hk, hitem⟩ := hreads
  exact ⟨k, item, h k hk, hitem⟩

private theorem within_opened (set : ItemSet) (n : Nonterminal) : set.Within (set.opened n) :=
  fun _ hk => (testBit_opened n).mpr (.inl hk)

private theorem within_foldl (phrases : List Nonterminal) (set : ItemSet) : set.Within (phrases.foldl opened set) := by
  induction phrases generalizing set with
  | nil => exact fun _ hk => hk
  | cons n phrases ih => exact fun k hk => ih _ k (within_opened set n k hk)

private theorem starting_within_foldl {phrases : List Nonterminal} {n : Nonterminal} (hn : n ∈ phrases)
    (hreads : set.Reads (.nonterminal n)) : (starting n).Within (phrases.foldl opened set) := by
  induction phrases generalizing set with
  | nil => simp at hn
  | cons m phrases ih =>
    rcases List.mem_cons.mp hn with rfl | hn
    · intro k hk
      exact within_foldl phrases _ k ((testBit_opened n).mpr (.inr ⟨hreads, hk⟩))
    · exact ih hn ((within_opened set m).reads hreads)

private theorem opened_eq_self {n : Nonterminal} (h : set.Reads (.nonterminal n) → (starting n).Within set) :
    set.opened n = set := by
  have hbits : (set.opened n).bits = set.bits := by
    apply Nat.eq_of_testBit_eq
    intro k
    rw [Bool.eq_iff_iff, testBit_opened]
    exact ⟨fun hk => hk.elim id fun hk => h hk.1 k hk.2, .inl⟩
  cases hopened : set.opened n
  rw [hopened] at hbits
  exact congrArg ItemSet.mk hbits

private theorem foldl_opened (phrases : List Nonterminal) (set : ItemSet) : phrases.foldl opened set = set ∨
    ∃ n, ¬ (starting n).Within set ∧ (starting n).Within (phrases.foldl opened set) := by
  induction phrases generalizing set with
  | nil => exact .inl rfl
  | cons n phrases ih =>
    by_cases h : set.Reads (.nonterminal n) → (starting n).Within set
    · rw [List.foldl_cons, opened_eq_self h]
      exact ih set
    · obtain ⟨hreads, hn⟩ := Classical.not_imp.mp h
      exact .inr ⟨n, hn, starting_within_foldl List.mem_cons_self hreads⟩

private theorem expand_closure (kernel : ItemSet) : kernel.closure.expand = kernel.closure := by
  classical
  let phrases (set : ItemSet) := Nonterminal.all.toFinset.filter fun n => (starting n).Within set
  refine step_stabilize (fun set => (phrases set).card) Nonterminal.all.length ?_ ?_ (Nat.le_add_left _ _)
  · intro set
    exact (Finset.card_filter_le _ _).trans (List.toFinset_card_le _)
  · intro set hne
    rw [expand_eq_foldl] at hne ⊢
    obtain ⟨n, hset, hfoldl⟩ := (foldl_opened Nonterminal.all set).resolve_left hne
    apply Finset.card_lt_card
    rw [Finset.ssubset_iff_of_subset]
    · have hn := n.mem_all
      exact ⟨n, by simpa [phrases, hn] using hfoldl, by simpa [phrases, hn] using hset⟩
    · intro m hm
      simp only [phrases, Finset.mem_filter, List.mem_toFinset] at hm ⊢
      exact ⟨hm.1, fun k hk => within_foldl _ set k (hm.2 k hk)⟩

/-- The closure has the starts of all phrases that its items read. -/
theorem starting_within_closure {n : Nonterminal} (hreads : kernel.closure.Reads (.nonterminal n)) :
    (starting n).Within kernel.closure := by
  rw [← expand_closure, expand_eq_foldl]
  exact starting_within_foldl n.mem_all hreads

private theorem within_closure (kernel : ItemSet) : kernel.Within kernel.closure :=
  closure_induction (P := fun set => kernel.Within set) (fun _ hk => hk) fun set n hset k hk =>
    within_opened set n k (hset k hk)

private theorem closure_cases {item : Item} (hk : kernel.closure.bits.testBit k = true)
    (hitem : items[k]? = some item) :
    kernel.bits.testBit k = true ∨ item.dot = 0 ∧ kernel.closure.Reads (.nonterminal item.phrase) := by
  refine closure_induction (P := fun set => ∀ k item, set.bits.testBit k = true → items[k]? = some item →
    kernel.bits.testBit k = true ∨ item.dot = 0 ∧ set.Reads (.nonterminal item.phrase)) ?_ ?_ k item hk hitem
  · exact fun k _ hk _ => .inl hk
  · intro set n hset k item hk hitem
    rcases (testBit_opened n).mp hk with hk | ⟨hreads, hk⟩
    · exact (hset k item hk hitem).imp_right fun ⟨hdot, hreads⟩ => ⟨hdot, (within_opened set n).reads hreads⟩
    · obtain ⟨item', hitem', hdot, rfl⟩ := testBit_starting.mp hk
      obtain rfl := Option.some.inj (hitem.symm.trans hitem')
      exact .inr ⟨hdot, (within_opened set _).reads hreads⟩

end ItemSet

/-! ## Items along walks -/

section Walks

variable {base q target : Nat} {rule : Rule} {kernel : ItemSet} {s : Symbol} {n : Nonterminal}

theorem not_reads_start (set : ItemSet) : ¬ set.Reads (.nonterminal .start) := by
  rintro ⟨k, item, -, hitem, hnext⟩
  obtain ⟨base, rule, hnumbered, -, -, -, hrhs⟩ := exists_numbered hitem
  exact start_not_mem_rhs rule hnumbered.mem (List.mem_of_getElem? (hrhs.symm.trans hnext))

private theorem eq_start_rule : ∀ rule ∈ rules, rule.lhs = .start → rule = ⟨.start, [.nonterminal .unit]⟩ := by
  decide

private theorem numbered_start : Numbered 0 ⟨.start, [.nonterminal .unit]⟩ := by
  refine ⟨by decide, fun dot hdot => ⟨0, ?_⟩⟩
  match dot, hdot with
  | 0, _ => rfl
  | 1, _ => rfl

private theorem Edges.exists_target? {edges : Edges} {row : List (Symbol × Nat)} (hrow : edges[q]? = some row)
    (hmem : (s, target) ∈ row) : ∃ target', edges.target? q s = some target' := by
  rw [Edges.target?, hrow, Option.bind_some]
  cases hlookup : row.lookup s with
  | some target' => exact ⟨target', rfl⟩
  | none => exact absurd hmem (by simpa using List.lookup_eq_none_iff.mp hlookup (s, target))

theorem exists_target_of_reads (hkernel : kernels[q]? = some kernel)
    (hreads : kernel.closure.Reads (.nonterminal n)) :
    ∃ target, edges.target? q (.nonterminal n) = some target := by
  have hsuccessor := ItemSet.mem_successors.mpr ⟨Symbol.noConfusion, hreads, rfl⟩
  have hrow : ∃ row target, edges[q]? = some row ∧ (.nonterminal n, target) ∈ row := by
    rw [edges, Edges.ofKernels, List.getElem?_map, hkernel]
    exact ⟨_, _, rfl, List.mem_map_of_mem hsuccessor⟩
  obtain ⟨row, target, hrow, hmem⟩ := hrow
  exact Edges.exists_target? hrow hmem

/-- A walk goes along a rule of its phrase, from a state in which the phrase can start. -/
theorem Edges.exists_of_mem_walks {edges : Edges} {walk : Walk} (h : walk ∈ edges.walks) :
    edges.Starts walk.start walk.phrase ∧ ∃ rule, rules[walk.rule]? = some rule ∧ rule.lhs = walk.phrase ∧
      edges.walk walk.start rule.rhs = some (walk.steps, walk.last) := by
  have hwalksOf {q : Nat} {n : Nonterminal} (hstarts : edges.Starts q n) (h : walk ∈ edges.walksOf q n) :
      edges.Starts walk.start walk.phrase ∧ ∃ rule, rules[walk.rule]? = some rule ∧ rule.lhs = walk.phrase ∧
        edges.walk walk.start rule.rhs = some (walk.steps, walk.last) := by
    obtain ⟨⟨rule, i⟩, hrule, hwalk⟩ := List.mem_filterMap.mp h
    dsimp only at hwalk
    split at hwalk
    · rename_i hlhs
      obtain ⟨⟨steps, last⟩, hway, rfl⟩ := Option.map_eq_some_iff.mp hwalk
      exact ⟨hstarts, rule, List.mk_mem_zipIdx_iff_getElem?.mp hrule, hlhs, hway⟩
    · simp at hwalk
  rcases List.mem_append.mp h with h | h
  · exact hwalksOf (.inl ⟨rfl, rfl⟩) h
  · obtain ⟨⟨row, q⟩, hrow, h⟩ := List.mem_flatMap.mp h
    obtain ⟨n, hn, h⟩ := List.mem_flatMap.mp h
    obtain ⟨⟨s, target⟩, hmem, hs⟩ := List.mem_filterMap.mp hn
    cases s with
    | terminal t => simp at hs
    | nonterminal m =>
      obtain rfl : m = n := Option.some.inj hs
      exact hwalksOf (.inr (exists_target? (List.mk_mem_zipIdx_iff_getElem?.mp hrow) hmem)) h

private theorem testBit_of_starts (hstarts : edges.Starts q n) (hrule : rule ∈ rules) (hlhs : rule.lhs = n) :
    ∃ base, Numbered base rule ∧
      ∀ kernel, kernels[q]? = some kernel → kernel.closure.bits.testBit base = true := by
  rcases hstarts with ⟨rfl, rfl⟩ | ⟨target, htarget⟩
  · obtain rfl := eq_start_rule rule hrule hlhs
    refine ⟨0, numbered_start, fun kernel hkernel => ItemSet.within_closure _ 0 ?_⟩
    obtain rfl := Option.some.inj (hkernel.symm.trans kernels_zero)
    rfl
  · obtain ⟨kernel, next, hkernel, hsuccessor, -⟩ := exists_successor htarget
    obtain ⟨base, hnumbered⟩ := exists_numbered_of_mem hrule
    obtain ⟨i, hitem⟩ := hnumbered.getElem? 0 (Nat.zero_le _)
    refine ⟨base, hnumbered, fun kernel' hkernel' => ?_⟩
    obtain rfl := Option.some.inj (hkernel'.symm.trans hkernel)
    have hreads := (ItemSet.mem_successors.mp hsuccessor).2.1
    exact ItemSet.starting_within_closure hreads base (ItemSet.testBit_starting.mpr ⟨_, hitem, rfl, hlhs⟩)

private theorem Edges.exists_of_walk_cons {edges : Edges} {symbols : List Symbol} {steps : List Step} {last : Nat}
    (h : edges.walk q (s :: symbols) = some (steps, last)) :
    ∃ target others, edges.target? q s = some target ∧ edges.walk target symbols = some (others, last) := by
  cases s with
  | terminal t =>
    obtain ⟨target, htarget, hway⟩ := walk_terminal h
    exact ⟨target, steps, htarget, hway⟩
  | nonterminal n =>
    obtain ⟨target, others, htarget, hway, -⟩ := walk_nonterminal h
    exact ⟨target, others, htarget, hway⟩

private theorem testBit_of_walk (hnumbered : Numbered base rule) {done symbols : List Symbol} {steps : List Step}
    {last : Nat} (hrhs : rule.rhs = done ++ symbols) (hway : edges.walk q symbols = some (steps, last))
    (hstart : ∀ kernel, kernels[q]? = some kernel → kernel.closure.bits.testBit (base + done.length) = true)
    (hkernel : kernels[last]? = some kernel) :
    kernel.closure.bits.testBit (base + rule.rhs.length) = true := by
  induction symbols generalizing q done steps with
  | nil =>
    obtain ⟨-, rfl⟩ := Prod.mk.inj (Option.some.inj hway)
    rw [hrhs, List.append_nil]
    exact hstart kernel hkernel
  | cons s symbols ih =>
    obtain ⟨target, others, htarget, hway⟩ := Edges.exists_of_walk_cons hway
    obtain ⟨kernel', next, hkernel', hsuccessor, hnext⟩ := exists_successor htarget
    obtain ⟨i, hitem⟩ := hnumbered.getElem? done.length (by simp [hrhs])
    have hrhs' : rule.rhs = (done ++ [s]) ++ symbols := by simp [hrhs]
    refine ih hrhs' hway fun kernel'' hkernel'' => ?_
    obtain rfl := hnext kernel'' hkernel''
    apply ItemSet.within_closure
    rw [ItemSet.testBit_successor hsuccessor]
    exact ⟨_, _, by simp [Nat.add_assoc], hstart kernel' hkernel', hitem, by simp [hrhs]⟩

theorem exists_item_of_mem_walks {walk : Walk} (h : walk ∈ edges.walks)
    (hkernel : kernels[walk.last]? = some kernel) :
    ∃ base rule, Numbered base rule ∧ rules[walk.rule]? = some rule ∧ rule.lhs = walk.phrase ∧
      kernel.closure.bits.testBit (base + rule.rhs.length) = true := by
  obtain ⟨hstarts, rule, hrule, hlhs, hway⟩ := Edges.exists_of_mem_walks h
  obtain ⟨base, hnumbered, hstart⟩ := testBit_of_starts hstarts (List.mem_of_getElem? hrule) hlhs
  exact ⟨base, rule, hnumbered, hrule, hlhs,
    testBit_of_walk hnumbered (List.nil_append _).symm hway hstart hkernel⟩

end Walks

/-! ## Items along the stack -/

section Stacks

variable {base dot : Nat} {rule : Rule} {stack : List Entry} {kernel : ItemSet}

/-- If the state on top of a stack has an item, what the item's rule has before its place is on the stack, and the
state below that has the start of the rule. -/
theorem Tracked.parts (h : Tracked edges stack) (hkernel : kernels[top stack]? = some kernel)
    (hnumbered : Numbered base rule) (hdot : dot ≤ rule.rhs.length)
    (hitem : kernel.closure.bits.testBit (base + dot) = true) :
    ((stack.take dot).map Entry.symbol).reverse = rule.rhs.take dot ∧
      ∃ below, kernels[top (stack.drop dot)]? = some below ∧ below.closure.bits.testBit base = true := by
  induction dot generalizing stack kernel with
  | zero => exact ⟨rfl, kernel, hkernel, hitem⟩
  | succ dot ih =>
    obtain ⟨i, hat⟩ := hnumbered.getElem? (dot + 1) hdot
    have hmem := (ItemSet.closure_cases hitem hat).resolve_right fun h => Nat.succ_ne_zero dot h.1
    cases h with
    | nil =>
      obtain rfl := Option.some.inj (hkernel.symm.trans kernels_zero)
      exact absurd (ItemSet.testBit_initial.mp hmem) (Nat.succ_ne_zero _)
    | @push entry stack hstack hentry =>
      obtain ⟨below, next, hbelow, hsuccessor, hnext⟩ := exists_successor hentry
      obtain rfl := hnext kernel hkernel
      obtain ⟨j, item, hj, hclosed, hitem, hreads⟩ := (ItemSet.testBit_successor hsuccessor).mp hmem
      obtain rfl : base + dot = j := Nat.succ.inj hj
      obtain ⟨i', hat'⟩ := hnumbered.getElem? dot (Nat.le_of_succ_le hdot)
      obtain rfl := Option.some.inj (hitem.symm.trans hat')
      have hnext : rule.rhs[dot]? = some entry.symbol := hreads
      obtain ⟨hsymbols, hrest⟩ := ih hstack hbelow (Nat.le_of_succ_le hdot) hclosed
      refine ⟨?_, hrest⟩
      rw [List.take_succ_cons, List.map_cons, List.reverse_cons, hsymbols, List.take_add_one, hnext]
      rfl

theorem Tracked.reads_lhs (h : Tracked edges stack) (hkernel : kernels[top stack]? = some kernel)
    (hnumbered : Numbered base rule) (hitem : kernel.closure.bits.testBit base = true) :
    (stack = [] ∧ rule.lhs = .start) ∨ kernel.closure.Reads (.nonterminal rule.lhs) := by
  obtain ⟨i, hat⟩ := hnumbered.getElem? 0 (Nat.zero_le _)
  refine (ItemSet.closure_cases hitem hat).imp (fun hmem => ?_) And.right
  cases h with
  | nil =>
    obtain rfl := Option.some.inj (hkernel.symm.trans kernels_zero)
    obtain rfl := ItemSet.testBit_initial.mp hmem
    obtain ⟨_, hzero⟩ := numbered_start.getElem? 0 (Nat.zero_le _)
    exact ⟨rfl, congrArg Item.phrase (Option.some.inj (hat.symm.trans hzero))⟩
  | push _ hentry =>
    obtain ⟨below, next, -, hsuccessor, hnext⟩ := exists_successor hentry
    obtain rfl := hnext kernel hkernel
    obtain ⟨j, item, rfl, -, hitem', hreads⟩ := (ItemSet.testBit_successor hsuccessor).mp hmem
    obtain ⟨base', rule', hnumbered', -, rfl, -, hrhs⟩ := exists_numbered hitem'
    obtain ⟨hlt, -⟩ := List.getElem?_eq_some_iff.mp (hrhs.symm.trans hreads)
    obtain ⟨_, hat'⟩ := hnumbered'.getElem? (item.dot + 1) hlt
    have hdot := congrArg Item.dot (Option.some.inj (hat.symm.trans hat'))
    exact absurd hdot (Nat.succ_ne_zero _).symm

/-- How many more steps than 64 for each token the phrases on a stack may have taken to read. -/
def stackCost (stack : List Entry) : Int :=
  (stack.map fun entry => entry.symbol.cost).sum

theorem stackCost_cons (entry : Entry) (stack : List Entry) :
    stackCost (entry :: stack) = entry.symbol.cost + stackCost stack := by
  rw [stackCost, List.map_cons, List.sum_cons]
  rfl

theorem stackCost_of_parts {symbols : List Symbol} {n : Nat}
    (h : ((stack.take n).map Entry.symbol).reverse = symbols) :
    stackCost stack = (symbols.map Symbol.cost).sum + stackCost (stack.drop n) := by
  have hparts : stackCost (stack.take n) = (symbols.map Symbol.cost).sum := by
    rw [← h, List.map_reverse, List.sum_reverse, List.map_map]
    rfl
  rw [← hparts, stackCost, stackCost, stackCost, ← List.sum_append, ← List.map_append, List.take_append_drop]

private theorem cost_take_le : ∀ rule ∈ rules, rule.lhs ≠ .start → ∀ dot ≤ rule.rhs.length,
    ((rule.rhs.take dot).map Symbol.cost).sum ≤ 0 := by
  decide

theorem Tracked.drop {edges : Edges} (h : Tracked edges stack) (n : Nat) : Tracked edges (stack.drop n) := by
  induction n generalizing stack with
  | zero => exact h
  | succ n ih =>
    cases h with
    | nil => exact .nil
    | push hstack _ => exact ih hstack

private theorem Tracked.stackCost_le_one (h : Tracked edges stack) (hkernel : kernels[top stack]? = some kernel) :
    stackCost stack ≤ 1 := by
  induction hlength : stack.length using Nat.strongRecOn generalizing stack kernel with
  | ind length ih =>
    cases h with
    | nil => decide
    | @push entry stack hstack hentry =>
      obtain ⟨below, next, -, hsuccessor, hnext⟩ := exists_successor hentry
      obtain rfl := hnext kernel hkernel
      obtain ⟨j, item, hj, hitem, hreads⟩ := (ItemSet.mem_successors.mp hsuccessor).2.1
      have hbit := (ItemSet.testBit_successor hsuccessor).mpr ⟨j, item, rfl, hj, hitem, hreads⟩
      obtain ⟨base, rule, hnumbered, -, rfl, -, hrhs⟩ := exists_numbered hitem
      obtain ⟨hdot, -⟩ := List.getElem?_eq_some_iff.mp (hrhs.symm.trans hreads)
      have htracked : Tracked edges (entry :: stack) := hstack.push hentry
      obtain ⟨hsymbols, outer, houter, hbase⟩ :=
        htracked.parts hkernel hnumbered hdot (ItemSet.within_closure _ _ hbit)
      rw [stackCost_of_parts hsymbols]
      by_cases hlhs : rule.lhs = .start
      · have hreads := (htracked.drop _).reads_lhs houter hnumbered hbase
        rw [hlhs] at hreads
        obtain ⟨hempty, -⟩ := hreads.resolve_right (not_reads_start _)
        obtain rfl := eq_start_rule rule hnumbered.mem hlhs
        obtain hzero : item.dot = 0 := Nat.lt_one_iff.mp hdot
        rw [hempty, hzero]
        decide
      · have hrule := cost_take_le rule hnumbered.mem hlhs _ hdot
        have hrest := ih (stack.drop item.dot).length (by simp at hlength ⊢; omega) (htracked.drop _) houter rfl
        omega

/-- The phrases on a stack are paid for but for less than the steps of one token. -/
theorem Tracked.stackCost_le (h : Tracked edges stack) : stackCost stack ≤ 3 := by
  cases h with
  | nil => decide
  | @push entry stack hstack hentry =>
    obtain ⟨kernel, _, hkernel, -⟩ := exists_successor hentry
    have hcost : entry.symbol.cost ≤ 2 := by
      cases entry.symbol with
      | terminal t => exact (by decide : (-63 : Int) ≤ 2)
      | nonterminal n => cases n <;> decide
    have hrest := hstack.stackCost_le_one hkernel
    rw [stackCost_cons]
    omega

end Stacks

end WordLang.Grammar
