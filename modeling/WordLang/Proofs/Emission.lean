import Mathlib.Tactic.Simps.Basic
import WordLang.Emit.Unit

/-!
# Successful steps of compilation

Each step of compilation is read backwards here: if it succeeds, which frame did it start from and which
one did it leave. Sequences of steps come apart at `bind_ok`, so no later proof has to unfold a step.
-/

namespace WordLang

namespace Pool

/-- The pool without one register; what a successful `free` leaves. -/
def release (pool : Pool) (r : Register) : Pool :=
  { pool with held := pool.held.erase r }

@[simp] theorem holds_take (pool : Pool) (r q : Register) :
    (pool.take r).holds q = (decide (q = r) || pool.holds q) := by
  simp [holds, take]

@[simp] theorem holds_release (pool : Pool) (r q : Register) :
    (pool.release r).holds q = (!decide (q = r) && pool.holds q) := by
  simp [holds, release]

@[simp] theorem touched_release (pool : Pool) (r : Register) :
    (pool.release r).touched = pool.touched := rfl

@[simp] theorem touched_take (pool : Pool) (r q : Register) :
    (pool.take r).touched.contains q = (decide (q = r) || pool.touched.contains q) := by
  simp [take]

private theorem allocate_ok (pool pool' : Pool) (wanted : RegisterClass) (r : Register) :
    pool.allocate wanted = .ok (r, pool') →
      r ∈ wanted.members ∧ pool.holds r = false ∧ pool' = pool.take r := by
  intro h
  unfold allocate at h
  split at h
  · rename_i q hq
    have hfree := List.find?_some hq
    have hmem := List.mem_of_find?_eq_some hq
    obtain ⟨rfl, rfl⟩ : q = r ∧ pool.take q = pool' := by simpa using h
    exact ⟨hmem, by simpa using hfree, rfl⟩
  · simp at h

private theorem reserve_ok (pool pool' : Pool) (r : Register) :
    pool.reserve r = .ok pool' →
      r ∈ Register.general ∧ pool.holds r = false ∧ pool' = pool.take r := by
  intro h
  unfold reserve at h
  split at h
  · simp at h
  · rename_i hg
    split at h
    · simp at h
    · rename_i hh
      exact ⟨Decidable.not_not.mp hg, by simpa using hh, by simpa using h.symm⟩

private theorem free_ok (pool pool' : Pool) (r : Register) :
    pool.free r = .ok pool' → r ∈ Register.general ∧ pool' = pool.release r := by
  intro h
  unfold free at h
  split at h
  · simp at h
  · rename_i hg
    split at h
    · simp at h
    · exact ⟨Decidable.not_not.mp hg, by simpa [release] using h.symm⟩

private theorem read_ok (pool : Pool) (r q : Register) :
    pool.read r = .ok q → q = r ∧ pool.holds r = true := by
  intro h
  unfold read at h
  split at h
  · rename_i hh
    exact ⟨by simpa using h.symm, hh⟩
  · simp at h

end Pool

theorem Counter.check_ok {operation : String} {n m : Int} : check operation n = .ok m ↔ InRange n ∧ m = n := by
  unfold check
  split
  · next h => simp [h, eq_comm]
  · next h => simp [h]

namespace Frame

@[simps] def coded (s : Frame) (i : Instruction) : Frame :=
  { s with code := s.code.push (.code i) }

@[simps] def labelled (s : Frame) (label : String) : Frame :=
  { s with code := s.code.push (.label label) }

@[simps] def taken (s : Frame) (r : Register) : Frame :=
  { s with pool := s.pool.take r }

@[simps] def freed (s : Frame) (r : Register) : Frame :=
  { s with pool := s.pool.release r }

@[simps] def pooled (s : Frame) (pool : Pool) : Frame :=
  { s with pool }

@[simps] def within (s : Frame) (scopes : Scopes) : Frame :=
  { s with scopes }

@[simps] def numbered (s : Frame) (labels : LabelSupply) : Frame :=
  { s with labels }

@[simps] def claimed (s : Frame) (size : Int) : Frame :=
  { s with usedSlots := s.usedSlots + size }

@[simps] def pushed (s : Frame) (r : Register) : Frame :=
  { s with code := s.code.push (.code (.push r)), stackDepth := s.stackDepth + 1 }

@[simps] def popped (s : Frame) (r : Register) : Frame :=
  { s with code := s.code.push (.code (.pop r)), stackDepth := s.stackDepth - 1 }

def CanClaim (s : Frame) (size : Int) : Prop :=
  Counter.InRange (s.usedSlots + size) ∧ Counter.InRange (-(s.usedSlots + size))

def CanPush (s : Frame) : Prop :=
  Counter.InRange (s.stackDepth + 1) ∧ Counter.InRange (s.localSlots + (s.stackDepth + 1)) ∧
    Counter.InRange (-(s.localSlots + (s.stackDepth + 1)))

def CanPop (s : Frame) : Prop :=
  Counter.InRange (s.stackDepth - 1)

end Frame

namespace Emit

variable {α β : Type} {s s' : Frame}

theorem bind_ok {x : Emit α} {f : α → Emit β} {b : β} :
    (x >>= f) s = .ok b s' ↔ ∃ a t, x s = .ok a t ∧ f a t = .ok b s' := by
  constructor
  · intro h
    cases hx : x s with
    | ok a t => exact ⟨a, t, rfl, by simpa [bind, EStateM.bind, hx] using h⟩
    | error e t => simp [bind, EStateM.bind, hx] at h
  · rintro ⟨a, t, hx, hf⟩
    simp [bind, EStateM.bind, hx, hf]

theorem bind_run {x : Emit α} {f : α → Emit β} {a : α} (h : x s = .ok a s') : (x >>= f) s = f a s' := by
  simp [bind, EStateM.bind, h]

theorem bind_stop {x : Emit α} {f : α → Emit β} {e : CompileError} (h : x s = .error e s') :
    (x >>= f) s = .error e s' := by
  simp [bind, EStateM.bind, h]

theorem bind_error {x : Emit α} {f : α → Emit β} {e : CompileError} (h : (x >>= f) s = .error e s') :
    x s = .error e s' ∨ ∃ a t, x s = .ok a t ∧ f a t = .error e s' := by
  cases hx : x s with
  | ok a t =>
    rw [bind_run hx] at h
    exact .inr ⟨a, t, rfl, h⟩
  | error e' t =>
    rw [bind_stop hx] at h
    obtain ⟨rfl, rfl⟩ := EStateM.Result.error.inj h
    exact .inl rfl

theorem pure_ok {a b : α} : (pure a : Emit α) s = .ok b s' ↔ b = a ∧ s' = s := by
  simp [pure, EStateM.pure, eq_comm]

theorem throw_ok {e : CompileError} {a : α} : (throw e : Emit α) s = .ok a s' ↔ False := by
  constructor
  · intro h
    cases h
  · exact False.elim

theorem get_ok {t : Frame} : (get : Emit Frame) s = .ok t s' ↔ s = t ∧ s = s' := by
  change EStateM.Result.ok s s = .ok t s' ↔ s = t ∧ s = s'
  rw [EStateM.Result.ok.injEq]

theorem get_bind_ok {f : Frame → Emit β} {b : β} :
    ((get : Emit Frame) >>= f) s = .ok b s' ↔ f s s = .ok b s' := by
  rw [bind_ok]
  constructor
  · rintro ⟨_, _, hg, h⟩
    obtain ⟨rfl, rfl⟩ := get_ok.mp hg
    exact h
  · intro h
    exact ⟨s, s, get_ok.mpr ⟨rfl, rfl⟩, h⟩

theorem get_bind_run {f : Frame → Emit β} : (get >>= f) s = f s s := rfl

theorem modify_ok {f : Frame → Frame} {u : Unit} :
    (modify f : Emit Unit) s = .ok u s' ↔ s' = f s := by
  change EStateM.Result.ok () (f s) = .ok u s' ↔ s' = f s
  simp [eq_comm]

theorem instruction_ok {i : Instruction} {u : Unit} :
    instruction i s = .ok u s' ↔ s' = s.coded i := by
  simp [instruction, modify_ok, Frame.coded]

theorem block_ok {label : String} {u : Unit} :
    block label s = .ok u s' ↔ s' = s.labelled label := by
  simp [block, modify_ok, Frame.labelled]

private theorem withPool_ok {operation : Pool → Except PoolError (α × Pool)} {a : α}
    (h : withPool operation s = .ok a s') :
    ∃ pool, operation s.pool = .ok (a, pool) ∧ s' = { s with pool } := by
  simp only [withPool, get_bind_ok] at h
  cases hp : operation s.pool with
  | error e => simp [hp, throw_ok] at h
  | ok result =>
    obtain ⟨b, pool⟩ := result
    simp only [hp, bind_ok, modify_ok, pure_ok] at h
    obtain ⟨_, _, rfl, rfl, rfl⟩ := h
    exact ⟨pool, rfl, rfl⟩

theorem withPool_run {operation : Pool → Except PoolError (α × Pool)} {a : α} {pool : Pool}
    (h : operation s.pool = .ok (a, pool)) : withPool operation s = .ok a (s.pooled pool) := by
  rw [withPool, get_bind_ok]
  simp only [h]
  exact bind_ok.mpr ⟨(), _, modify_ok.mpr rfl, pure_ok.mpr ⟨rfl, rfl⟩⟩

theorem withPool_error {operation : Pool → Except PoolError (α × Pool)} {cause : PoolError}
    (h : operation s.pool = .error cause) : withPool operation s = .error (.pool cause) s := by
  rw [withPool, get_bind_run]
  simp only [h]
  rfl

theorem withPool_cases (operation : Pool → Except PoolError (α × Pool)) (s : Frame) :
    (∃ a pool, withPool operation s = .ok a (s.pooled pool)) ∨
      ∃ cause, withPool operation s = .error (.pool cause) s := by
  cases h : operation s.pool with
  | ok answer => exact .inl ⟨_, _, withPool_run h⟩
  | error cause => exact .inr ⟨cause, withPool_error h⟩

theorem allocate_ok {wanted : RegisterClass} {r : Register} (h : allocate wanted s = .ok r s') :
    r ∈ wanted.members ∧ s.pool.holds r = false ∧ s' = s.taken r := by
  obtain ⟨pool, hp, rfl⟩ := withPool_ok h
  obtain ⟨hm, hf, rfl⟩ := Pool.allocate_ok _ _ _ _ hp
  exact ⟨hm, hf, rfl⟩

private theorem map_unit_ok {x : Except PoolError Pool} {pool : Pool} {u : Unit}
    (h : x.map ((), ·) = .ok (u, pool)) : x = .ok pool := by
  cases x with
  | error e => simp [Except.map] at h
  | ok p => simpa [Except.map] using h

theorem reserve_ok {r : Register} {u : Unit} (h : reserve r s = .ok u s') :
    r ∈ Register.general ∧ s.pool.holds r = false ∧ s' = s.taken r := by
  obtain ⟨pool, hp, rfl⟩ := withPool_ok h
  obtain ⟨hg, hf, rfl⟩ := Pool.reserve_ok _ _ _ (map_unit_ok hp)
  exact ⟨hg, hf, rfl⟩

theorem free_ok {r : Register} {u : Unit} (h : free r s = .ok u s') :
    r ∈ Register.general ∧ s' = s.freed r := by
  obtain ⟨pool, hp, rfl⟩ := withPool_ok h
  obtain ⟨hg, rfl⟩ := Pool.free_ok _ _ _ (map_unit_ok hp)
  exact ⟨hg, rfl⟩

private theorem read_ok {r q : Register} (h : read r s = .ok q s') :
    q = r ∧ s.pool.holds r = true ∧ s' = s := by
  obtain ⟨pool, hp, rfl⟩ := withPool_ok h
  cases hr : s.pool.read r with
  | error e => simp [hr, Except.map] at hp
  | ok q' =>
    obtain ⟨rfl, hh⟩ := Pool.read_ok _ _ _ hr
    obtain ⟨rfl, rfl⟩ : q' = q ∧ s.pool = pool := by simpa [hr, Except.map] using hp
    exact ⟨rfl, hh, rfl⟩

private theorem withScopes_ok {operation : Scopes → Except CompileError Scopes} {u : Unit}
    (h : withScopes operation s = .ok u s') :
    ∃ scopes, operation s.scopes = .ok scopes ∧ s' = s.within scopes := by
  simp only [withScopes, get_bind_ok] at h
  cases hs : operation s.scopes with
  | error e => simp [hs, throw_ok] at h
  | ok scopes =>
    simp only [hs, modify_ok] at h
    exact ⟨scopes, rfl, h⟩

theorem declare_ok {name : String} {storage : Storage} {pos : Option Nat} {u : Unit}
    (h : declare name storage pos s = .ok u s') :
    s.scopes.inner.lookup name = none ∧
      s' = s.within ⟨(name, storage) :: s.scopes.inner, s.scopes.outer⟩ := by
  obtain ⟨scopes, hs, rfl⟩ := withScopes_ok h
  unfold Scopes.declare at hs
  split at hs
  · simp at hs
  · rename_i hn
    refine ⟨Option.not_isSome_iff_eq_none.mp hn, ?_⟩
    rw [← Except.ok.inj hs]

theorem rebind_ok {binding : Binding} {storage : Storage} {u : Unit}
    (h : rebind binding storage s = .ok u s') :
    ∃ inner outer, Scopes.rebindIn binding storage s.scopes.layers = some (inner :: outer) ∧
      s' = s.within ⟨inner, outer⟩ := by
  obtain ⟨scopes, hs, rfl⟩ := withScopes_ok h
  unfold Scopes.rebind at hs
  split at hs
  · rename_i inner outer hr
    exact ⟨inner, outer, hr, by rw [← Except.ok.inj hs]⟩
  · simp at hs

theorem lookup_ok {name : String} {pos : Option Nat} {storage : Storage} :
    lookup name pos s = .ok storage s' ↔
      (s.scopes.layers.findSome? fun scope => scope.lookup name) = some storage ∧ s = s' := by
  simp only [lookup, get_bind_ok, Scopes.lookup]
  constructor
  · intro h
    cases hf : s.scopes.layers.findSome? fun scope => scope.lookup name with
    | none => simp [hf, throw_ok] at h
    | some st =>
      simp only [hf, pure_ok] at h
      exact ⟨by rw [h.1], h.2.symm⟩
  · rintro ⟨h, rfl⟩
    simp [h, pure_ok]

theorem inScope_ok {step : Emit Unit} {u : Unit} (h : inScope step s = .ok u s') :
    ∃ t, step (s.within s.scopes.enter) = .ok () t ∧ s' = t.within s.scopes := by
  simp only [inScope, bind_ok, get_ok, modify_ok] at h
  obtain ⟨_, _, ⟨rfl, rfl⟩, _, _, rfl, _, t, ht, rfl⟩ := h
  exact ⟨t, ht, rfl⟩

theorem counted_ok {operation : String} {n m : Int} :
    counted operation n s = .ok m s' ↔ Counter.InRange n ∧ m = n ∧ s' = s := by
  unfold counted Counter.check
  split
  · next h => simp [h, pure_ok]
  · next h => simp [h, throw_ok]

theorem counted_cases (operation : String) (n : Int) (s : Frame) :
    counted operation n s = .ok n s ∨ counted operation n s = .error (.overflow operation) s := by
  unfold counted Counter.check
  by_cases hn : Counter.InRange n
  · rw [if_pos hn]
    exact .inl rfl
  · rw [if_neg hn]
    exact .inr rfl

theorem claim_ok {size offset : Int} :
    claim size s = .ok offset s' ↔
      s.CanClaim size ∧ offset = -(s.usedSlots + size) ∧ s' = s.claimed size := by
  simp only [claim, bind_ok, get_ok, counted_ok, modify_ok]
  constructor
  · rintro ⟨_, _, ⟨rfl, rfl⟩, _, _, ⟨hused, rfl, rfl⟩, _, _, rfl, hoffset, rfl, rfl⟩
    exact ⟨⟨hused, hoffset⟩, rfl, rfl⟩
  · rintro ⟨⟨hused, hoffset⟩, rfl, rfl⟩
    exact ⟨_, _, ⟨rfl, rfl⟩, _, _, ⟨hused, rfl, rfl⟩, (), _, rfl, hoffset, rfl, rfl⟩

theorem push_ok {r : Register} {offset : Int} :
    push r s = .ok offset s' ↔
      s.CanPush ∧ offset = -(s.localSlots + (s.stackDepth + 1)) ∧ s' = s.pushed r := by
  simp only [push, bind_ok, get_ok, counted_ok, instruction_ok, modify_ok]
  constructor
  · rintro ⟨_, _, rfl, _, _, ⟨rfl, rfl⟩, _, _, ⟨hdepth, rfl, rfl⟩, _, _, rfl, _, _, ⟨rfl, rfl⟩, _, _, ⟨htop, rfl, rfl⟩,
      hoffset, rfl, rfl⟩
    exact ⟨⟨hdepth, htop, hoffset⟩, rfl, rfl⟩
  · rintro ⟨⟨hdepth, htop, hoffset⟩, rfl, rfl⟩
    exact ⟨(), _, rfl, _, _, ⟨rfl, rfl⟩, _, _, ⟨hdepth, rfl, rfl⟩, (), _, rfl, _, _, ⟨rfl, rfl⟩, _, _, ⟨htop, rfl, rfl⟩,
      hoffset, rfl, rfl⟩

theorem pop_ok {r : Register} {u : Unit} : pop r s = .ok u s' ↔ s.CanPop ∧ s' = s.popped r := by
  simp only [pop, bind_ok, get_ok, counted_ok, instruction_ok, modify_ok]
  constructor
  · rintro ⟨_, _, rfl, _, _, ⟨rfl, rfl⟩, _, _, ⟨hdepth, rfl, rfl⟩, rfl⟩
    exact ⟨hdepth, rfl⟩
  · rintro ⟨hdepth, rfl⟩
    exact ⟨(), _, rfl, _, _, ⟨rfl, rfl⟩, _, _, ⟨hdepth, rfl, rfl⟩, rfl⟩

theorem freshLabel_ok {kind label : String} :
    freshLabel kind s = .ok label s' ↔
      label = (s.labels.fresh kind).1 ∧ s' = s.numbered (s.labels.fresh kind).2 := by
  simp only [freshLabel, bind_ok, get_ok, modify_ok, pure_ok]
  constructor
  · rintro ⟨_, _, ⟨rfl, rfl⟩, _, _, rfl, rfl, rfl⟩
    exact ⟨rfl, rfl⟩
  · rintro ⟨rfl, rfl⟩
    exact ⟨_, _, ⟨rfl, rfl⟩, (), _, rfl, rfl, rfl⟩

theorem returnLabel_ok {label : String} (h : returnLabel s = .ok label s') :
    (s.returnLabel = some label ∧ s' = s) ∨
      (s.returnLabel = none ∧ label = (s.labels.fresh "return").1 ∧
        s' = { s with labels := (s.labels.fresh "return").2, returnLabel := some label }) := by
  simp only [returnLabel, get_bind_ok] at h
  cases hl : s.returnLabel with
  | some l =>
    simp only [hl, pure_ok] at h
    exact .inl ⟨by rw [h.1], h.2⟩
  | none =>
    simp only [hl, bind_ok, freshLabel_ok, modify_ok, pure_ok] at h
    obtain ⟨_, _, ⟨rfl, rfl⟩, _, _, rfl, rfl, rfl⟩ := h
    exact .inr ⟨rfl, rfl, rfl⟩

/-- The parts of a binary operator's code: operands made 0 or 1, a register for the result, the
instruction, and the registers given back. -/
theorem binary_eq (op : BinaryOp) (wanted found : RegisterClass) (rs1 rs2 : Register) :
    binary op wanted found rs1 rs2 = (do
      (if op.isLogical then
        withZero fun zero => do
          instruction (.binary .ne rs1 rs1 zero)
          instruction (.binary .ne rs2 rs2 zero)
      else pure ()) >>= fun _ =>
        (if found = wanted then pure rs1 else allocate wanted) >>= fun rd => do
          instruction (.binary op.operation rd rs1 rs2)
          free rs2
          (if rd ≠ rs1 then free rs1 else pure ()) >>= fun _ => pure rd) := by
  have hlast (rd : Register) : ((if rd ≠ rs1 then free rs1 else pure ()) >>= fun _ => pure rd) =
      if rd ≠ rs1 then free rs1 >>= fun _ => pure rd else (pure rd : Emit Register) := by
    by_cases hrd : rd = rs1 <;> simp [hrd]
  unfold binary
  by_cases hop : op.isLogical <;> by_cases hfound : found = wanted <;>
    simp only [hop, hfound, hlast, if_true, if_false, Bool.false_eq_true, pure_bind]

/-- A call that compiles is one of a known function with the right number of arguments. -/
theorem call_ok {sigs : Signatures} {name : String} {pos : Nat} {arguments : List (Emit Register)}
    {finish : Emit α} {a : α} (h : call sigs name pos arguments finish s = .ok a s') :
    ∃ sig ∈ sigs.entries, (sigs.find? name = some sig ∧ sig.arity = arguments.length) ∧
      (do
        let spills ← spill
        pass arguments
        instruction (.call sig.callee)
        (Register.arguments.take arguments.length).forM free
        reclaim spills
        let result ← finish
        restore spills
        return result : Emit α) s = .ok a s' := by
  unfold call Signatures.lookup at h
  cases hf : sigs.find? name with
  | none => simp [hf, throw_ok] at h
  | some sig =>
    simp only [hf] at h
    by_cases harity : sig.arity = arguments.length
    · rw [if_neg (by simpa using harity)] at h
      exact ⟨sig, List.mem_of_find?_eq_some hf, ⟨rfl, harity⟩, h⟩
    · rw [if_pos harity, bind_ok] at h
      obtain ⟨_, _, ht, _⟩ := h
      exact (throw_ok.mp ht).elim

end Emit

namespace Simple

variable {sigs : Signatures} {s s' : Frame} {u : Unit} {name : String} {pos : Nat}

theorem emit_var_none_ok (h : (Simple.var name none pos).emit sigs s = .ok u s') :
    s.scopes.inner.lookup name = none ∧
      s' = (s.claimed 1).within
        ⟨(name, .stack (-(s.usedSlots + 1)) false) :: s.scopes.inner, s.scopes.outer⟩ := by
  simp only [Simple.emit, Emit.bind_ok, Emit.claim_ok] at h
  obtain ⟨_, _, ⟨_, rfl, rfl⟩, hdeclare⟩ := h
  exact Emit.declare_ok hdeclare

theorem emit_var_some_ok {value : Expr} (h : (Simple.var name (some value) pos).emit sigs s = .ok u s') :
    ∃ rs t, value.emit sigs .callerSaved (s.claimed 1) = .ok rs t ∧ t.scopes.inner.lookup name = none ∧
      s' = ((t.coded (.store rs .fp (-(s.usedSlots + 1)))).freed rs).within
        ⟨(name, .stack (-(s.usedSlots + 1)) false) :: t.scopes.inner, t.scopes.outer⟩ := by
  simp only [Simple.emit, Emit.bind_ok, Emit.claim_ok, Emit.instruction_ok] at h
  obtain ⟨_, _, ⟨_, rfl, rfl⟩, rs, t, hvalue, _, _, rfl, _, _, hfree, hdeclare⟩ := h
  obtain ⟨_, rfl⟩ := Emit.free_ok hfree
  exact ⟨rs, t, hvalue, Emit.declare_ok hdeclare⟩

theorem emit_array_ok {length : Word} (h : (Simple.array name length pos).emit sigs s = .ok u s') :
    s.scopes.inner.lookup name = none ∧
      s' = (s.claimed length.toInt.toNat).within
        ⟨(name, .stack (-(s.usedSlots + length.toInt.toNat)) true) :: s.scopes.inner, s.scopes.outer⟩ := by
  simp only [Simple.emit, Emit.bind_ok, Emit.claim_ok] at h
  obtain ⟨_, _, ⟨_, rfl, rfl⟩, hdeclare⟩ := h
  exact Emit.declare_ok hdeclare

end Simple

namespace Stmt

open Emit

variable {sigs : Signatures} {s s' : Frame} {u : Unit}

theorem emit_ifThen_ok {cond : Expr} {body : List Stmt}
    (h : (Stmt.ifThen cond body).emit sigs s = .ok u s') :
    ∃ t t', branchUnless sigs cond ((s.labels.fresh "if").1 ++ "_end")
        (s.numbered (s.labels.fresh "if").2) = .ok () t ∧
      emitAll sigs body (t.within t.scopes.enter) = .ok () t' ∧
      s' = (t'.within t.scopes).labelled ((s.labels.fresh "if").1 ++ "_end") := by
  simp only [Stmt.emit, bind_ok, freshLabel_ok, block_ok] at h
  obtain ⟨_, _, ⟨rfl, rfl⟩, _, t, ht, _, _, hbody, rfl⟩ := h
  obtain ⟨t', ht', rfl⟩ := inScope_ok hbody
  exact ⟨t, t', ht, ht', rfl⟩

theorem emit_ifElse_ok {cond : Expr} {body other : List Stmt}
    (h : (Stmt.ifElse cond body other).emit sigs s = .ok u s') :
    ∃ t t' r', branchUnless sigs cond ((s.labels.fresh "if").1 ++ "_else")
        (s.numbered (s.labels.fresh "if").2) = .ok () t ∧
      emitAll sigs body (t.within t.scopes.enter) = .ok () t' ∧
      emitAll sigs other ((((t'.within t.scopes).coded (.jmp ((s.labels.fresh "if").1 ++ "_end"))).labelled
        ((s.labels.fresh "if").1 ++ "_else")).within t.scopes.enter) = .ok () r' ∧
      s' = (r'.within t.scopes).labelled ((s.labels.fresh "if").1 ++ "_end") := by
  simp only [Stmt.emit, bind_ok, freshLabel_ok, block_ok, instruction_ok] at h
  obtain ⟨_, _, ⟨rfl, rfl⟩, _, t, ht, _, _, hbody, _, _, rfl, _, _, rfl, _, _, hother, rfl⟩ := h
  obtain ⟨t', ht', rfl⟩ := inScope_ok hbody
  obtain ⟨r', hr', rfl⟩ := inScope_ok hother
  exact ⟨t, t', r', ht, ht', hr', rfl⟩

theorem emit_whileLoop_ok {cond : Expr} {body : List Stmt}
    (h : (Stmt.whileLoop cond body).emit sigs s = .ok u s') :
    ∃ t t', branchUnless sigs cond ((s.labels.fresh "while").1 ++ "_end")
        ((s.numbered (s.labels.fresh "while").2).labelled (s.labels.fresh "while").1) = .ok () t ∧
      emitAll sigs body (t.within t.scopes.enter) = .ok () t' ∧
      s' = ((t'.within t.scopes).coded (.jmp (s.labels.fresh "while").1)).labelled
        ((s.labels.fresh "while").1 ++ "_end") := by
  simp only [Stmt.emit, bind_ok, freshLabel_ok, block_ok, instruction_ok] at h
  obtain ⟨_, _, ⟨rfl, rfl⟩, _, _, rfl, _, t, ht, _, _, hbody, _, _, rfl, rfl⟩ := h
  obtain ⟨t', ht', rfl⟩ := inScope_ok hbody
  exact ⟨t, t', ht, ht', rfl⟩

theorem emit_forLoop_ok {init : Option Simple} {cond : Option Expr} {step : Option Simple}
    {body : List Stmt} (h : (Stmt.forLoop init cond step body).emit sigs s = .ok u s') :
    ∃ r t t' r', init.forM (Simple.emit sigs)
        ((s.numbered (s.labels.fresh "for").2).within s.scopes.enter) = .ok () r ∧
      (cond.forM fun cond => branchUnless sigs cond ((s.labels.fresh "for").1 ++ "_end"))
        (r.labelled (s.labels.fresh "for").1) = .ok () t ∧
      emitAll sigs body (t.within t.scopes.enter) = .ok () t' ∧
      step.forM (Simple.emit sigs) (t'.within t.scopes) = .ok () r' ∧
      s' = ((r'.coded (.jmp (s.labels.fresh "for").1)).labelled
        ((s.labels.fresh "for").1 ++ "_end")).within s.scopes := by
  simp only [Stmt.emit, bind_ok, freshLabel_ok] at h
  obtain ⟨_, _, ⟨rfl, rfl⟩, h⟩ := h
  obtain ⟨_, hloop, rfl⟩ := inScope_ok h
  simp only [bind_ok, block_ok, instruction_ok] at hloop
  obtain ⟨_, r, hr, _, _, rfl, _, t, ht, _, _, hbody, _, r', hr', _, _, rfl, rfl⟩ := hloop
  obtain ⟨t', ht', rfl⟩ := inScope_ok hbody
  exact ⟨r, t, t', r', hr, ht, ht', hr', rfl⟩

theorem emit_block_ok {body : List Stmt} (h : (Stmt.block body).emit sigs s = .ok u s') :
    ∃ t, emitAll sigs body (s.within s.scopes.enter) = .ok () t ∧ s' = t.within s.scopes := by
  rw [Stmt.emit] at h
  exact inScope_ok h

theorem emitAll_cons_ok {stmt : Stmt} {rest : List Stmt}
    (h : emitAll sigs (stmt :: rest) s = .ok u s') :
    ∃ t, stmt.emit sigs s = .ok () t ∧ emitAll sigs rest t = .ok () s' := by
  rw [Stmt.emitAll] at h
  obtain ⟨_, t, ht, hrest⟩ := bind_ok.mp h
  exact ⟨t, ht, hrest⟩

/-- A `return` leaves its value in the result register and jumps to the label before the epilogue. -/
theorem emit_ret_some_ok {value : Expr} (h : (Stmt.ret (some value)).emit sigs s = .ok u s') :
    ∃ rs t label t', value.emit sigs .callerSaved s = .ok rs t ∧ rs ∈ Register.general ∧
      returnLabel ((if rs = Register.result then t else t.coded (.mov Register.result rs)).freed rs) =
        .ok label t' ∧
      s' = t'.coded (.jmp label) := by
  simp only [Stmt.emit, bind_ok] at h
  obtain ⟨rs, t, ht, q, _, hread, h⟩ := h
  obtain ⟨rfl, _, rfl⟩ := read_ok hread
  by_cases hq : q = Register.result
  · simp only [hq, ne_eq, not_true_eq_false, if_false, bind_ok, instruction_ok] at h
    obtain ⟨_, _, hfree, label, t', hl, rfl⟩ := h
    obtain ⟨hg, rfl⟩ := free_ok hfree
    exact ⟨q, _, label, t', ht, hq ▸ hg, by simpa [hq] using hl, rfl⟩
  · simp only [hq, ne_eq, not_false_eq_true, if_true, bind_ok, instruction_ok] at h
    obtain ⟨_, _, rfl, _, _, hfree, label, t', hl, rfl⟩ := h
    obtain ⟨hg, rfl⟩ := free_ok hfree
    exact ⟨q, _, label, t', ht, hg, by simpa [hq] using hl, rfl⟩

theorem emit_ret_none_ok (h : (Stmt.ret none).emit sigs s = .ok u s') :
    ∃ label t, returnLabel s = .ok label t ∧ s' = t.coded (.jmp label) := by
  simp only [Stmt.emit, bind_ok, instruction_ok] at h
  obtain ⟨label, t, ht, rfl⟩ := h
  exact ⟨label, t, ht, rfl⟩

end Stmt

end WordLang
