import WordLang.Proofs.Units

/-!
# Counters do not overflow

The counters of a frame always hold numbers of 32 bits. In a function whose local area and moved words together
fit in a counter, no operation overflows, so that compilation never stops for that reason.
-/

namespace WordLang

namespace Frame

structure SameCounters (s t : Frame) : Prop where
  localSlots : s.localSlots = t.localSlots
  usedSlots : s.usedSlots = t.usedSlots
  stackDepth : s.stackDepth = t.stackDepth

structure Ranged (s : Frame) : Prop where
  localSlots : Counter.InRange s.localSlots
  usedSlots : Counter.InRange s.usedSlots
  stackDepth : Counter.InRange s.stackDepth

private theorem Ranged.congr {s t : Frame} (h : s.Ranged) (hsame : s.SameCounters t) : t.Ranged := by
  obtain ⟨hlocal, hused, hdepth⟩ := hsame
  exact ⟨hlocal ▸ h.localSlots, hused ▸ h.usedSlots, hdepth ▸ h.stackDepth⟩

/-- There is room to claim `n` more words and to move `m` words to or from the stack. -/
structure HasRoom (s : Frame) (n m : Nat) : Prop where
  localSlots : 0 ≤ s.localSlots
  usedSlots : 0 ≤ s.usedSlots
  claims : s.usedSlots + n ≤ 2147483647
  deepest : s.localSlots + s.stackDepth + m ≤ 2147483647
  shallowest : -2147483647 ≤ s.stackDepth - m

namespace HasRoom

variable {s t : Frame} {n m k l : Nat}

private theorem congr (h : s.HasRoom n m) (hsame : s.SameCounters t) : t.HasRoom n m := by
  obtain ⟨hlocal, hused, hdepth⟩ := hsame
  obtain ⟨hpos, hstart, hclaims, hdeepest, hshallowest⟩ := h
  exact ⟨hlocal ▸ hpos, hused ▸ hstart, hused ▸ hclaims, hlocal ▸ hdepth ▸ hdeepest, hdepth ▸ hshallowest⟩

private theorem mono (h : s.HasRoom n m) (hn : k ≤ n) (hm : l ≤ m) : s.HasRoom k l := by
  obtain ⟨hlocal, hused, hclaims, hdeepest, hshallowest⟩ := h
  exact ⟨hlocal, hused, by omega, by omega, by omega⟩

private theorem canClaim (h : s.HasRoom (n + k) l) : s.CanClaim n := by
  obtain ⟨_, hused, hclaims, _, _⟩ := h
  constructor <;> constructor <;> omega

private theorem canPush (h : s.HasRoom k (1 + l)) : s.CanPush := by
  obtain ⟨hlocal, _, _, hdeepest, hshallowest⟩ := h
  refine ⟨?_, ?_, ?_⟩ <;> constructor <;> omega

private theorem canPop (h : s.HasRoom k (1 + l)) : s.CanPop := by
  obtain ⟨hlocal, _, _, hdeepest, hshallowest⟩ := h
  constructor <;> omega

private theorem claimed (h : s.HasRoom (n + k) l) : (s.claimed n).HasRoom k l := by
  obtain ⟨hlocal, hused, hclaims, hdeepest, hshallowest⟩ := h
  refine ⟨hlocal, ?_, ?_, hdeepest, hshallowest⟩ <;> simp only [claimed_usedSlots] <;> omega

private theorem pushed (h : s.HasRoom k (1 + l)) (r : Register) : (s.pushed r).HasRoom k l := by
  obtain ⟨hlocal, hused, hclaims, hdeepest, hshallowest⟩ := h
  refine ⟨hlocal, hused, hclaims, ?_, ?_⟩ <;> simp only [pushed_localSlots, pushed_stackDepth] <;> omega

private theorem popped (h : s.HasRoom k (1 + l)) (r : Register) : (s.popped r).HasRoom k l := by
  obtain ⟨hlocal, hused, hclaims, hdeepest, hshallowest⟩ := h
  refine ⟨hlocal, hused, hclaims, ?_, ?_⟩ <;> simp only [popped_localSlots, popped_stackDepth] <;> omega

end HasRoom

end Frame

namespace Emit

variable {α β : Type} {x : Emit α} {n m : Nat}

/-- The frame at the end of a step that succeeds or fails. -/
def lastFrame : EStateM.Result CompileError Frame α → Frame
  | .ok _ t | .error _ t => t

/-- The counters stay numbers of 32 bits. -/
def KeepsRange (x : Emit α) : Prop :=
  ∀ s : Frame, s.Ranged → (lastFrame (x s)).Ranged

namespace KeepsRange

protected theorem bind {f : α → Emit β} (hx : KeepsRange x)
    (hf : ∀ s a t, x s = .ok a t → KeepsRange (f a)) : KeepsRange (x >>= f) := by
  intro s hs
  have hfirst := hx s hs
  cases hrun : x s with
  | ok a t =>
    rw [hrun] at hfirst
    rw [bind_run hrun]
    exact hf s a t hrun t hfirst
  | error e t =>
    rw [hrun] at hfirst
    rw [bind_stop hrun]
    exact hfirst

private theorem counted (operation : String) (i : Int) : KeepsRange (counted operation i) := by
  intro s hs
  rcases counted_cases operation i s with hrun | hrun
  · rw [hrun]
    exact hs
  · rw [hrun]
    exact hs

private theorem withPool (operation : Pool → Except PoolError (α × Pool)) : KeepsRange (withPool operation) := by
  intro s hs
  rcases withPool_cases operation s with ⟨_, _, hrun⟩ | ⟨_, hrun⟩
  · rw [hrun]
    exact hs.congr ⟨rfl, rfl, rfl⟩
  · rw [hrun]
    exact hs

private theorem unchanged {f : Frame → Frame} (hf : ∀ s : Frame, s.SameCounters (f s)) :
    KeepsRange (modify f : Emit PUnit) :=
  fun s hs => hs.congr (hf s)

private theorem counting : CountingLaw KeepsRange where
  bind := KeepsRange.bind
  get_bind _ hf := fun s hs => hf s s hs
  instruction _ := unchanged fun _ => ⟨rfl, rfl, rfl⟩
  counted := counted
  used hn := fun _ hs => ⟨hs.localSlots, hn, hs.stackDepth⟩
  deep hn := fun _ hs => ⟨hs.localSlots, hs.usedSlots, hn⟩

private theorem law (sigs : Signatures) : StmtLaw sigs (fun _ => True) fun _ _ x => KeepsRange x where
  pure _ := fun _ hs => hs
  bind := KeepsRange.bind
  mono hx _ _ := hx
  throw _ _ := fun _ hs => hs
  get_bind _ hf := fun s hs => hf s s hs
  within _ := unchanged fun _ => ⟨rfl, rfl, rfl⟩
  instruction _ := unchanged fun _ => ⟨rfl, rfl, rfl⟩
  allocate _ := withPool _
  reserve _ := withPool _
  free _ := withPool _
  push := counting.push
  pop := counting.pop
  claim size := counting.claim size
  jump _ := unchanged fun _ => ⟨rfl, rfl, rfl⟩
  block _ := unchanged fun _ => ⟨rfl, rfl, rfl⟩
  numbered _ := unchanged fun _ => ⟨rfl, rfl, rfl⟩
  returning _ := unchanged fun _ => ⟨rfl, rfl, rfl⟩
  read _ := withPool _

end KeepsRange

/-- From a frame with room for its claims and moves, a step does not overflow, and leaves the rest of the room. -/
def Bounded (n m : Nat) (x : Emit α) : Prop :=
  ∀ (s : Frame) (k l : Nat), s.HasRoom (n + k) (m + l) →
    match x s with
    | .ok _ t => t.HasRoom k l
    | .error e _ => ∀ operation, e ≠ .overflow operation

namespace Bounded

private theorem of_ok
    (h : ∀ (s : Frame) (k l : Nat), s.HasRoom (n + k) (m + l) → ∃ a t, x s = .ok a t ∧ t.HasRoom k l) :
    Bounded n m x := by
  intro s k l hroom
  obtain ⟨a, t, hrun, ht⟩ := h s k l hroom
  rw [hrun]
  exact ht

private theorem of_modify {f : Frame → Frame} (hf : ∀ s : Frame, s.SameCounters (f s)) :
    Bounded 0 0 (modify f : Emit PUnit) :=
  of_ok fun s _ _ hroom => ⟨(), f s, rfl, (hroom.mono (by omega) (by omega)).congr (hf s)⟩

protected theorem bind {f : α → Emit β} {n' m' : Nat} (hx : Bounded n m x)
    (hf : ∀ s a t, x s = .ok a t → Bounded n' m' (f a)) : Bounded (n + n') (m + m') (x >>= f) := by
  intro s k l hroom
  rw [Nat.add_assoc, Nat.add_assoc] at hroom
  have hfirst := hx s _ _ hroom
  cases hrun : x s with
  | ok a t =>
    rw [hrun] at hfirst
    rw [bind_run hrun]
    exact hf s a t hrun t k l hfirst
  | error e t =>
    rw [hrun] at hfirst
    rw [bind_stop hrun]
    exact hfirst

private theorem withPool (operation : Pool → Except PoolError (α × Pool)) : Bounded 0 0 (withPool operation) := by
  intro s k l hroom
  rw [Nat.zero_add, Nat.zero_add] at hroom
  rcases withPool_cases operation s with ⟨_, _, hrun⟩ | ⟨_, hrun⟩
  · rw [hrun]
    exact hroom.congr ⟨rfl, rfl, rfl⟩
  · rw [hrun]
    exact fun _ h => by cases h

private theorem law (sigs : Signatures) : StmtLaw sigs (fun _ => True) Bounded where
  pure a := of_ok fun s k l hroom => ⟨a, s, rfl, hroom.mono (by omega) (by omega)⟩
  bind := Bounded.bind
  mono hx hn hm := fun s k l hroom => hx s k l (hroom.mono (by omega) (by omega))
  throw := by
    rintro α e name hname _ s k l _ operation rfl
    cases hname
  get_bind _ hf := fun s k l hroom => hf s s k l hroom
  within _ := of_modify fun _ => ⟨rfl, rfl, rfl⟩
  instruction _ := of_modify fun _ => ⟨rfl, rfl, rfl⟩
  allocate _ := withPool _
  reserve _ := withPool _
  free _ := withPool _
  push r := of_ok fun s k l hroom => by
    rw [Nat.zero_add] at hroom
    exact ⟨_, _, push_ok.mpr ⟨hroom.canPush, rfl, rfl⟩, hroom.pushed r⟩
  pop r := of_ok fun s k l hroom => by
    rw [Nat.zero_add] at hroom
    exact ⟨(), _, pop_ok.mpr ⟨hroom.canPop, rfl⟩, hroom.popped r⟩
  claim size := of_ok fun s k l hroom => by
    rw [Nat.zero_add] at hroom
    exact ⟨_, _, claim_ok.mpr ⟨hroom.canClaim, rfl, rfl⟩, hroom.claimed⟩
  jump _ := of_modify fun _ => ⟨rfl, rfl, rfl⟩
  block _ := of_modify fun _ => ⟨rfl, rfl, rfl⟩
  numbered _ := of_modify fun _ => ⟨rfl, rfl, rfl⟩
  returning _ := of_modify fun _ => ⟨rfl, rfl, rfl⟩
  read _ := withPool _

end Bounded

end Emit

variable {sigs : Signatures}

/-- The counters of a function whose local area fits in one are numbers of 32 bits wherever its compilation ends. -/
theorem Header.emitBody_ranged (policy : FreePolicy) (labels : LabelSupply) (header : Header) {body : List Stmt}
    (h : Counter.InRange (Stmt.slotsOf body)) :
    (Emit.lastFrame (header.emitBody sigs body (.start policy labels body))).Ranged := by
  have hzero : Counter.InRange 0 := by decide
  have hstart : (Frame.start policy labels body).Ranged := ⟨h, hzero, hzero⟩
  exact (Emit.KeepsRange.law sigs).emitBody (fun _ => trivial) header body _ hstart

/-- The local area of a function and the words that it moves to or from the stack fit in a counter together. -/
def Stmt.Fits (body : List Stmt) : Prop :=
  slotsOf body + movesOf body ≤ 2147483647
deriving Decidable

namespace CompilationUnit

/-- Every function of a unit fits in its counters. -/
def Fits (unit : CompilationUnit) : Prop :=
  ∀ f ∈ unit.functions, Stmt.Fits f.2
deriving Decidable

end CompilationUnit

end WordLang
