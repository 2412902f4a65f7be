import WordLang.Proofs.Bookkeeping
import WordLang.Proofs.NamePlaces

/-!
# The registers that an expression needs

Code for an expression without calls runs out of registers exactly if the expression needs more caller-saved
registers than are free. The need is read off the expression: a right operand is evaluated while the left one
occupies a register, and some operators borrow one more. So a chain of operators that nests to the left needs
two registers, however long it is.
-/

namespace WordLang

def Pool.inUse (pool : Pool) : Nat :=
  RegisterClass.callerSaved.members.countP pool.holds

def Pool.room (pool : Pool) : Nat :=
  RegisterClass.callerSaved.members.countP fun r => !pool.holds r

/-- The caller-saved registers that the evaluation of an expression needs. Calls are left out of account. -/
def Expr.need : Expr → Nat
  | .num _ | .var _ _ | .call _ _ _ => 1
  | .index _ i _ => max i.need 2
  | .unary .not operand => operand.need
  | .unary .neg operand => max operand.need 2
  | .binary op lhs rhs =>
    if op.isLogical then max (max lhs.need (1 + rhs.need)) 3 else max lhs.need (1 + rhs.need)

/-- Operators other than the logical ones, nested to the left, over numbers and variables. -/
inductive Expr.Chain : Expr → Prop
  | num (value : Word) : Chain (.num value)
  | var (name : String) (pos : Nat) : Chain (.var name pos)
  | byNum {op : BinaryOp} {lhs : Expr} (hop : op.isLogical = false) (hlhs : Chain lhs) (value : Word) :
    Chain (.binary op lhs (.num value))
  | byVar {op : BinaryOp} {lhs : Expr} (hop : op.isLogical = false) (hlhs : Chain lhs) (name : String)
    (pos : Nat) : Chain (.binary op lhs (.var name pos))

def Scopes.Visible (scopes : Scopes) (name : String) : Prop :=
  ∃ storage, (scopes.layers.findSome? fun scope => scope.lookup name) = some storage

private theorem Expr.need_pos (e : Expr) : 1 ≤ e.need := by
  induction e using Expr.induction with
  | num | var | call => exact Nat.le_refl 1
  | index _ i _ ih => simp only [need]; omega
  | unary op operand ih => cases op <;> simp only [need] <;> omega
  | binary op lhs rhs ihl _ => simp only [need]; split <;> omega

private theorem Expr.Chain.need_le {e : Expr} (h : e.Chain) : e.need ≤ 2 := by
  induction h with
  | num | var => exact Nat.le_succ 1
  | byNum hop _ _ ih | byVar hop _ _ _ ih =>
    rw [Expr.need, hop]
    exact Nat.max_le.mpr ⟨ih, Nat.le_refl 2⟩

private theorem Pool.inUse_add_room (pool : Pool) : pool.inUse + pool.room = 6 := by
  have hlength : RegisterClass.callerSaved.members.length = 6 := rfl
  rw [← hlength, List.length_eq_countP_add_countP pool.holds]
  simp [inUse, room]

private theorem Pool.room_congr {pool pool' : Pool} (h : ∀ r, pool'.holds r = pool.holds r) :
    pool'.room = pool.room := by
  simp only [room, h]

private theorem Frame.Gains.room {s t : Frame} {rd : Register} (h : s.Gains .callerSaved rd t) :
    t.pool.room + 1 = s.pool.room := by
  have hperm := List.perm_cons_erase h.member
  have hnodup : RegisterClass.callerSaved.members.Nodup := by decide
  have hrest : (RegisterClass.callerSaved.members.erase rd).countP (fun r => !t.pool.holds r) =
      (RegisterClass.callerSaved.members.erase rd).countP fun r => !s.pool.holds r := by
    apply List.countP_congr
    intro r hr
    have hne : r ≠ rd := (hnodup.mem_erase_iff.mp hr).1
    rw [h.holds, decide_eq_false hne, Bool.false_or]
  rw [Pool.room, Pool.room, hperm.countP_eq, hperm.countP_eq, List.countP_cons_of_neg (by simp [h.holds_self]),
    List.countP_cons_of_pos (by simp [h.fresh]), hrest]

namespace Emit

variable {α β : Type} {x : Emit α} {f : α → Emit β} {s t : Frame} {k l : Nat} {p p' : α → Frame → Prop}
  {q : β → Frame → Prop}

/-- A step that needs `k` free registers: with as many it succeeds as `p` says, with fewer it runs out. -/
structure Affords (x : Emit α) (s : Frame) (k : Nat) (p : α → Frame → Prop) : Prop where
  succeeds : k ≤ s.pool.room → ∃ a t, x s = .ok a t ∧ p a t
  fails : s.pool.room < k → ∃ t, x s = .error (.pool (.exhausted .callerSaved)) t

private theorem Affords.of_ok {a : α} (hx : x s = .ok a t) (hp : p a t) : x.Affords s 0 p where
  succeeds _ := ⟨a, t, hx, hp⟩
  fails h := absurd h (Nat.not_lt_zero _)

private theorem Affords.congr (h : x.Affords s k p) (hk : k = l) (hp : ∀ a t, p a t → p' a t) :
    x.Affords s l p' := by
  subst hk
  apply Affords.mk _ h.fails
  intro hroom
  rcases h.succeeds hroom with ⟨a, t, hx, ha⟩
  exact ⟨a, t, hx, hp a t ha⟩

private theorem Affords.bind {d : Nat} (hx : x.Affords s k p)
    (hf : ∀ a t, p a t → t.pool.room + d = s.pool.room ∧ (f a).Affords t l q) :
    (x >>= f).Affords s (max k (l + d)) q := by
  constructor
  · intro hroom
    rcases hx.succeeds (by omega) with ⟨a, t, ha, hp⟩
    have hleft := (hf a t hp).1
    have hnext : l ≤ t.pool.room := by omega
    rcases (hf a t hp).2.succeeds hnext with ⟨b, u, hb, hq⟩
    exact ⟨b, u, bind_ok.mpr ⟨a, t, ha, hb⟩, hq⟩
  · intro hroom
    by_cases hfirst : s.pool.room < k
    · rcases hx.fails hfirst with ⟨t, ht⟩
      exact ⟨t, by simp only [Bind.bind, EStateM.bind, ht]⟩
    · rcases hx.succeeds (Nat.le_of_not_lt hfirst) with ⟨a, t, ha, hp⟩
      have hleft := (hf a t hp).1
      have hnext : t.pool.room < l := by omega
      rcases (hf a t hp).2.fails hnext with ⟨u, hu⟩
      exact ⟨u, by simp only [Bind.bind, EStateM.bind, ha, hu]⟩

private theorem Affords.step {a : α} (hx : x s = .ok a t) (hroom : t.pool.room = s.pool.room)
    (h : (f a).Affords t l q) : (x >>= f).Affords s l q := by
  have hfirst : x.Affords s 0 fun b u => b = a ∧ u = t := .of_ok hx ⟨rfl, rfl⟩
  apply Affords.congr (hfirst.bind (d := 0) _) (Nat.zero_max l) fun _ _ hq => hq
  intro b u hb
  rw [hb.1, hb.2]
  exact ⟨hroom, h⟩

private theorem allocate_affords : (allocate .callerSaved).Affords s 1 fun rd t =>
    t = s.taken rd ∧ s.Gains .callerSaved rd t := by
  constructor
  · intro hroom
    rcases List.countP_pos_iff.mp hroom with ⟨r, hr, hfree⟩
    have hsome : (RegisterClass.callerSaved.members.find? fun r => !s.pool.holds r).isSome = true :=
      List.find?_isSome.mpr ⟨r, hr, hfree⟩
    rcases Option.isSome_iff_exists.mp hsome with ⟨rd, hrd⟩
    have hrun : s.pool.allocate .callerSaved = .ok (rd, s.pool.take rd) := by simp only [Pool.allocate, hrd]
    apply Exists.intro rd
    apply Exists.intro (s.taken rd)
    apply And.intro (withPool_run hrun)
    apply And.intro rfl
    apply Frame.Gains.of_take (List.mem_of_find?_eq_some hrd)
    simpa using List.find?_some hrd
  · intro hroom
    have hnone : (RegisterClass.callerSaved.members.find? fun r => !s.pool.holds r) = none := by
      apply List.find?_eq_none.mpr
      exact List.countP_eq_zero.mp (Nat.lt_one_iff.mp hroom)
    have hrun : s.pool.allocate .callerSaved = .error (.exhausted .callerSaved) := by
      simp only [Pool.allocate, hnone]
    exact ⟨s, withPool_error hrun⟩

private theorem lookup_run {name : String} (h : s.scopes.Visible name) (pos : Option Nat) :
    ∃ storage, lookup name pos s = .ok storage s := by
  rcases h with ⟨storage, hstorage⟩
  exact ⟨storage, lookup_ok.mpr ⟨hstorage, rfl⟩⟩

private theorem withZero_affords {step : Register → Emit Unit}
    (hstep : ∀ zero t, ∃ t', step zero t = .ok () t' ∧ t.Stays t' ∧ t'.pool = t.pool) :
    (withZero step).Affords s 1 fun _ t => s.Stays t ∧ ∀ r, t.pool.holds r = s.pool.holds r := by
  apply Affords.congr (allocate_affords.bind (l := 0) (d := 1) _) (by decide) fun _ _ h => h
  intro zero t ht
  rcases ht with ⟨rfl, hg⟩
  apply And.intro hg.room
  rcases hstep zero ((s.taken zero).coded (.li zero 0)) with ⟨t', hrun, hstays, hpool⟩
  have hheld : t'.pool.holds zero = true := by simp [hpool]
  apply Affords.step instruction_run rfl
  apply Affords.step hrun (by rw [hpool])
  apply Affords.of_ok (free_run hg.general hheld)
  constructor
  · exact ⟨hstays.scopes, hstays.localSlots, hstays.stackDepth, by simp +contextual [hpool]⟩
  · intro r
    rw [Frame.freed_pool, hpool]
    exact Frame.holds_taken_freed hg.fresh r

private theorem address_affords {name : String} {index : Emit Register} (hname : s.scopes.Visible name)
    (hindex : index.Affords s k (s.Gains .callerSaved)) (pos : Nat) :
    (address name pos .callerSaved index).Affords s (max k 2) (s.Gains .callerSaved) := by
  rcases lookup_run hname (some pos) with ⟨_, hlookup⟩
  apply Affords.step hlookup rfl
  apply hindex.bind (l := 1) (d := 1)
  intro rs t hg
  apply And.intro hg.room
  have hname' : t.scopes.Visible name := hg.scopes ▸ hname
  rcases lookup_run hname' (some pos) with ⟨storage, hlookup'⟩
  apply Affords.step hlookup' rfl
  apply Affords.congr (allocate_affords.bind (l := 0) (d := 1) _) (by decide) fun _ _ h => h
  intro rd u hu
  rcases hu with ⟨rfl, hg'⟩
  apply And.intro hg'.room
  rcases hg.unheld hg'.fresh with ⟨hfresh, hne⟩
  apply Affords.step instruction_run rfl
  apply Affords.step instruction_run rfl
  have hheld : (((t.taken rd).coded (storage.fetch rd)).coded (.binary .add rd rd rs)).pool.holds rs = true := by
    simp [hg.holds_self]
  refine .of_ok (bind_ok.mpr ⟨(), _, free_run hg.general hheld, rfl⟩) ?_
  refine ⟨⟨hg.scopes, hg.localSlots, hg.stackDepth, ?_⟩, hg'.member, hfresh, ?_, by simp⟩
  · intro q hq
    simp [hg.touched q hq]
  · intro q
    by_cases hq : q = rs
    · simp [hq, hne.symm, hg.fresh]
    · simp [hq, hg.holds]

private theorem unary_affords {op : UnaryOp} {rd : Register} :
    (unary op rd).Affords s (if op = .neg then 1 else 0) fun _ t =>
      s.Stays t ∧ ∀ r, t.pool.holds r = s.pool.holds r := by
  cases op with
  | neg =>
    apply withZero_affords
    intro zero t
    exact ⟨_, instruction_run, ⟨rfl, rfl, rfl, fun _ hq => hq⟩, rfl⟩
  | not => exact .of_ok instruction_run ⟨⟨rfl, rfl, rfl, fun _ hq => hq⟩, fun _ => rfl⟩

private theorem binary_affords {op : BinaryOp} {rs1 rs2 : Register} {s₁ s₂ : Frame}
    (hg1 : s.Gains .callerSaved rs1 s₁) (hg2 : s₁.Gains .callerSaved rs2 s₂) :
    (binary op .callerSaved .callerSaved rs1 rs2).Affords s₂ (if op.isLogical then 1 else 0)
      (s.Gains .callerSaved) := by
  rcases hg1.unheld hg2.fresh with ⟨hfree2, hne⟩
  have hnormal : ((if op.isLogical then
        withZero fun zero => do
          instruction (.binary .ne rs1 rs1 zero)
          instruction (.binary .ne rs2 rs2 zero)
      else pure ()) : Emit Unit).Affords s₂ (if op.isLogical then 1 else 0) fun _ t =>
        s₂.Stays t ∧ ∀ r, t.pool.holds r = s₂.pool.holds r := by
    split
    · apply withZero_affords
      intro zero t
      exact ⟨_, bind_ok.mpr ⟨(), _, instruction_run, instruction_run⟩, ⟨rfl, rfl, rfl, fun _ hq => hq⟩, rfl⟩
    · exact .of_ok rfl ⟨⟨rfl, rfl, rfl, fun _ hq => hq⟩, fun _ => rfl⟩
  rw [binary_eq]
  apply Affords.congr (hnormal.bind (l := 0) (d := 0) _) (Nat.max_zero _) fun _ _ h => h
  intro _ t ht
  rcases ht with ⟨hstays, hholds⟩
  apply And.intro (Pool.room_congr hholds)
  rw [if_pos rfl, pure_bind]
  have hheld : (t.coded (.binary op.operation rs1 rs1 rs2)).pool.holds rs2 = true := by
    simp [hholds, hg2.holds_self]
  apply Affords.step instruction_run rfl
  rw [if_neg (not_not.mpr rfl)]
  refine .of_ok (bind_ok.mpr ⟨(), _, free_run hg2.general hheld, rfl⟩) ?_
  have hstays' := (hg1.toStays.trans hg2.toStays).trans hstays
  refine ⟨⟨hstays'.scopes, hstays'.localSlots, hstays'.stackDepth, hstays'.touched⟩, hg1.member, hg1.fresh, ?_,
    hstays.touched _ (hg2.touched _ hg1.taken)⟩
  intro q
  by_cases hq : q = rs2
  · simp [hq, hne, hfree2]
  · simp [hq, hholds, hg2.holds, hg1.holds]

end Emit

/-- Code for an expression without calls needs as many registers as the expression does. -/
theorem Expr.emit_affords (sigs : Signatures) {e : Expr} {s : Frame} (hcall : e.hasCall = false)
    (hvisible : ∀ entry ∈ e.names, s.scopes.Visible entry.1) :
    (e.emit sigs .callerSaved).Affords s e.need (s.Gains .callerSaved) := by
  induction e using Expr.induction generalizing s with
  | num value =>
    rw [Expr.emit]
    apply Emit.Affords.congr (Emit.allocate_affords.bind (l := 0) (d := 1) _) rfl fun _ _ h => h
    intro rd t ht
    rcases ht with ⟨rfl, hg⟩
    exact ⟨hg.room, .of_ok rfl (.of_take hg.member hg.fresh)⟩
  | var name pos =>
    rcases Emit.lookup_run (hvisible (name, pos) List.mem_cons_self) (some pos) with ⟨storage, hlookup⟩
    rw [Expr.emit]
    apply Emit.Affords.step hlookup rfl
    apply Emit.Affords.congr (Emit.allocate_affords.bind (l := 0) (d := 1) _) rfl fun _ _ h => h
    intro rd t ht
    rcases ht with ⟨rfl, hg⟩
    exact ⟨hg.room, .of_ok rfl (.of_take hg.member hg.fresh)⟩
  | index name i pos ih =>
    have hi := ih hcall fun entry hentry => hvisible entry (List.mem_cons_of_mem _ hentry)
    have haddress := Emit.address_affords (hvisible (name, pos) List.mem_cons_self) hi pos
    rw [Expr.emit]
    apply Emit.Affords.congr (haddress.bind (l := 0) (d := 1) _) _ fun _ _ h => h
    · intro rd t hg
      exact ⟨hg.room, .of_ok rfl (hg.stays ⟨rfl, rfl, rfl, fun _ hq => hq⟩ fun _ => rfl)⟩
    · simp only [need]
      omega
  | call => cases hcall
  | unary op operand ih =>
    rw [Expr.emit]
    apply Emit.Affords.congr ((ih hcall hvisible).bind (d := 1) (l := if op = .neg then 1 else 0) _) _
      fun _ _ h => h
    · intro rd t hg
      apply And.intro hg.room
      apply Emit.Affords.congr (Emit.unary_affords.bind (l := 0) (d := 0) _) (Nat.max_zero _) fun _ _ h => h
      intro _ u hu
      exact ⟨Pool.room_congr hu.2, .of_ok rfl (hg.stays hu.1 hu.2)⟩
    · have hpos := operand.need_pos
      cases op with
      | neg => rfl
      | not => exact Nat.max_eq_left hpos
  | binary op lhs rhs ihl ihr =>
    rw [Expr.hasCall, Bool.or_eq_false_iff] at hcall
    have hl := ihl hcall.1 fun entry hentry => hvisible entry (List.mem_append_left _ hentry)
    have hclass : RegisterClass.callerSaved.surviving rhs = .callerSaved := by
      rw [RegisterClass.surviving, hcall.2]
      rfl
    rw [Expr.emit, hclass]
    apply Emit.Affords.congr
      (hl.bind (d := 1) (l := max rhs.need ((if op.isLogical then 1 else 0) + 1)) _) _ fun _ _ h => h
    · intro rs1 s₁ hg1
      apply And.intro hg1.room
      apply Emit.Affords.bind (d := 1) (p := s₁.Gains .callerSaved)
      · apply ihr hcall.2
        intro entry hentry
        rw [hg1.scopes]
        exact hvisible entry (List.mem_append_right _ hentry)
      · intro rs2 s₂ hg2
        exact ⟨hg2.room, Emit.binary_affords hg1 hg2⟩
    · have hpos := rhs.need_pos
      rw [need]
      split <;> omega

/-- Compiling an expression without calls runs out of registers exactly if it needs more caller-saved ones than
are free, whichever these are, and it fails in no other way. A chain of operators needs two at most. -/
theorem Expr.emit_fails_iff (sigs : Signatures) {e : Expr} {s : Frame} (hcall : e.hasCall = false)
    (hvisible : ∀ entry ∈ e.names, s.scopes.Visible entry.1) :
    ((∃ error t, e.emit sigs .callerSaved s = .error error t) ↔ e.need > 6 - s.pool.inUse) ∧
    (∀ error t, e.emit sigs .callerSaved s = .error error t →
      error = .pool (.exhausted .callerSaved)) ∧
    (e.Chain → e.need ≤ 2) := by
  have haffords := e.emit_affords sigs hcall hvisible
  have hroom := s.pool.inUse_add_room
  have hsucceeds : ∀ error t, e.emit sigs .callerSaved s = .error error t → s.pool.room < e.need := by
    intro error t herror
    by_contra hle
    rcases haffords.succeeds (Nat.le_of_not_lt hle) with ⟨rd, t', hok, _⟩
    rw [hok] at herror
    cases herror
  refine ⟨⟨?_, ?_⟩, ?_, Chain.need_le⟩
  · intro hfails
    rcases hfails with ⟨error, t, herror⟩
    have hlt := hsucceeds error t herror
    omega
  · intro hneed
    rcases haffords.fails (by omega) with ⟨t, herror⟩
    exact ⟨_, t, herror⟩
  · intro error t herror
    rcases haffords.fails (hsucceeds error t herror) with ⟨t', herror'⟩
    rw [herror'] at herror
    cases herror
    rfl

def Expr.sumWithLogical : Expr :=
  .binary .add (.var "x" 0) (.binary .land (.var "x" 5) (.num 3))

def Frame.scattered : Frame where
  pool := ((({} : Pool).take .r1).take .r3).take .r5
  scopes := ⟨[("x", .register .r1)], []⟩
  localSlots := 0

theorem Expr.emit_fails_iff_scattered :
    Expr.sumWithLogical.need = 4 ∧ Frame.scattered.pool.inUse = 3 ∧
    (∃ error t, Expr.sumWithLogical.emit ⟨[]⟩ .callerSaved .scattered = .error error t) ∧
    ∀ error t, Expr.sumWithLogical.emit ⟨[]⟩ .callerSaved .scattered = .error error t →
      error = .pool (.exhausted .callerSaved) := by
  have hvisible : ∀ entry ∈ Expr.sumWithLogical.names, Frame.scattered.scopes.Visible entry.1 := by
    intro entry hentry
    have hx : entry.1 = "x" := by
      revert entry
      decide
    rw [hx]
    exact ⟨.register .r1, rfl⟩
  have h := Expr.emit_fails_iff ⟨[]⟩ (e := .sumWithLogical) (s := .scattered) rfl hvisible
  exact ⟨rfl, rfl, h.1.mpr (by decide), h.2.1⟩

end WordLang
