import Mathlib.Data.Finset.Basic
import WordLang.Proofs.Emission

/-!
# The register pool as a set of owners

Seen from outside, a pool is two sets: the registers that are held, and the callee-saved ones that were ever
handed out. `Owners.Step` says what a call does to these sets and what it answers, in terms of the sets alone.
Every history of calls to a new pool is a run of this machine and the only one for these calls, so that two
holders of a register are always separated by a call that frees it.
-/

namespace WordLang

namespace Pool

inductive Request where
  | allocate (wanted : RegisterClass)
  | reserve (r : Register)
  | free (r : Register)
deriving DecidableEq

/-- What a call answers: the register that was asked for by its class, nothing, or why it is refused. -/
abbrev Answer := Except PoolError (Option Register)

/-- Serves one call. A refused one has no effect. -/
def serve (pool : Pool) : Request → Answer × Pool
  | .allocate wanted =>
    match pool.allocate wanted with
    | .ok (r, pool') => (.ok (some r), pool')
    | .error e => (.error e, pool)
  | .reserve r =>
    match pool.reserve r with
    | .ok pool' => (.ok none, pool')
    | .error e => (.error e, pool)
  | .free r =>
    match pool.free r with
    | .ok pool' => (.ok none, pool')
    | .error e => (.error e, pool)

structure Call where
  request : Request
  answer : Answer

namespace Call

def Gives (call : Call) (r : Register) : Prop :=
  (∃ wanted, call = ⟨.allocate wanted, .ok (some r)⟩) ∨ call = ⟨.reserve r, .ok none⟩

def Frees (call : Call) (r : Register) : Prop :=
  call = ⟨.free r, .ok none⟩

end Call

def serveAll (pool : Pool) : List Request → List Call × Pool
  | [] => ([], pool)
  | request :: requests =>
    let (answer, next) := pool.serve request
    let (calls, last) := next.serveAll requests
    (⟨request, answer⟩ :: calls, last)

end Pool

/-- The registers that are held, and the callee-saved ones that were ever handed out. -/
structure Owners where
  held : Finset Register := ∅
  saved : Finset Register := ∅

namespace Owners

open Pool

def take (owners : Owners) (r : Register) : Owners where
  held := insert r owners.held
  saved := if r ∈ RegisterClass.calleeSaved.members then insert r owners.saved else owners.saved

@[simp] theorem mem_held_take {owners : Owners} {r q : Register} :
    q ∈ (owners.take r).held ↔ q = r ∨ q ∈ owners.held :=
  Finset.mem_insert

@[simp] theorem mem_saved_take {owners : Owners} {r q : Register} :
    q ∈ (owners.take r).saved ↔ q ∈ owners.saved ∨ q ∈ RegisterClass.calleeSaved.members ∧ q = r := by
  rw [take]
  split
  · rename_i hcallee
    rw [Finset.mem_insert, or_comm]
    exact or_congr_right ⟨fun hq => ⟨hq ▸ hcallee, hq⟩, fun hq => hq.2⟩
  · rename_i hcaller
    refine (or_iff_left ?_).symm
    rintro ⟨hcallee, rfl⟩
    exact hcaller hcallee

/-- What a call answers, and which owners it leaves. -/
inductive Step (policy : FreePolicy) (owners : Owners) : Call → Owners → Prop
  | allocated {wanted : RegisterClass} {r : Register} (hmem : r ∈ wanted.members) (hfree : r ∉ owners.held)
    (hlowest : ∀ q ∈ wanted.members, q ∉ owners.held → r.index ≤ q.index) :
    Step policy owners ⟨.allocate wanted, .ok (some r)⟩ (owners.take r)
  | exhausted {wanted : RegisterClass} (hheld : ∀ r ∈ wanted.members, r ∈ owners.held) :
    Step policy owners ⟨.allocate wanted, .error (.exhausted wanted)⟩ owners
  | reserved {r : Register} (hpooled : r ∈ Register.general) (hfree : r ∉ owners.held) :
    Step policy owners ⟨.reserve r, .ok none⟩ (owners.take r)
  | reservedFixed {r : Register} (hfixed : r ∉ Register.general) :
    Step policy owners ⟨.reserve r, .error (.notPooled r)⟩ owners
  | reservedHeld {r : Register} (hpooled : r ∈ Register.general) (hheld : r ∈ owners.held) :
    Step policy owners ⟨.reserve r, .error (.alreadyHeld r)⟩ owners
  | freed {r : Register} (hpooled : r ∈ Register.general) (hheld : policy = .strict → r ∈ owners.held) :
    Step policy owners ⟨.free r, .ok none⟩ { owners with held := owners.held.erase r }
  | freedFixed {r : Register} (hfixed : r ∉ Register.general) :
    Step policy owners ⟨.free r, .error (.notPooled r)⟩ owners
  | freedTwice {r : Register} (hpooled : r ∈ Register.general) (hstrict : policy = .strict)
    (hfree : r ∉ owners.held) : Step policy owners ⟨.free r, .error (.freedTwice r)⟩ owners

inductive Run (policy : FreePolicy) : Owners → List Call → Owners → Prop
  | nil (owners : Owners) : Run policy owners [] owners
  | cons {first next last : Owners} {call : Call} {calls : List Call} (hstep : Step policy first call next)
    (hrest : Run policy next calls last) : Run policy first (call :: calls) last

variable {policy : FreePolicy} {first next next' last last' : Owners} {call call' : Call}
  {calls calls' : List Call} {r : Register}

/-- The owners fix the answer to a call. -/
theorem Step.unique (h : Step policy first call next) (h' : Step policy first call' next')
    (hrequest : call'.request = call.request) : call' = call ∧ next' = next := by
  cases h with
  | @allocated wanted r hmem hfree hlowest =>
    cases h' with
    | @allocated _ q hmem' hfree' hlowest' =>
      cases hrequest
      obtain rfl : q = r :=
        Register.index_injective (Nat.le_antisymm (hlowest' r hmem hfree) (hlowest q hmem' hfree'))
      exact ⟨rfl, rfl⟩
    | exhausted hheld' =>
      cases hrequest
      exact absurd (hheld' r hmem) hfree
    | _ => cases hrequest
  | exhausted hheld =>
    cases h' with
    | @allocated _ q hmem' hfree' =>
      cases hrequest
      exact absurd (hheld q hmem') hfree'
    | exhausted =>
      cases hrequest
      exact ⟨rfl, rfl⟩
    | _ => cases hrequest
  | reserved hpooled hfree =>
    cases h' with
    | reserved => cases hrequest; exact ⟨rfl, rfl⟩
    | reservedFixed hfixed' => cases hrequest; exact absurd hpooled hfixed'
    | reservedHeld _ hheld' => cases hrequest; exact absurd hheld' hfree
    | _ => cases hrequest
  | reservedFixed hfixed =>
    cases h' with
    | reservedFixed => cases hrequest; exact ⟨rfl, rfl⟩
    | reserved hpooled' | reservedHeld hpooled' => cases hrequest; exact absurd hpooled' hfixed
    | _ => cases hrequest
  | reservedHeld hpooled hheld =>
    cases h' with
    | reserved _ hfree' => cases hrequest; exact absurd hheld hfree'
    | reservedFixed hfixed' => cases hrequest; exact absurd hpooled hfixed'
    | reservedHeld => cases hrequest; exact ⟨rfl, rfl⟩
    | _ => cases hrequest
  | freed hpooled hheld =>
    cases h' with
    | freed => cases hrequest; exact ⟨rfl, rfl⟩
    | freedFixed hfixed' => cases hrequest; exact absurd hpooled hfixed'
    | freedTwice _ hstrict' hfree' => cases hrequest; exact absurd (hheld hstrict') hfree'
    | _ => cases hrequest
  | freedFixed hfixed =>
    cases h' with
    | freedFixed => cases hrequest; exact ⟨rfl, rfl⟩
    | freed hpooled' | freedTwice hpooled' => cases hrequest; exact absurd hpooled' hfixed
    | _ => cases hrequest
  | freedTwice hpooled hstrict hfree =>
    cases h' with
    | freed _ hheld' => cases hrequest; exact absurd (hheld' hstrict) hfree
    | freedFixed hfixed' => cases hrequest; exact absurd hpooled hfixed'
    | freedTwice => cases hrequest; exact ⟨rfl, rfl⟩
    | _ => cases hrequest

private theorem Run.unique (h : Run policy first calls last) (h' : Run policy first calls' last')
    (hrequests : calls'.map (·.request) = calls.map (·.request)) : calls' = calls ∧ last' = last := by
  induction h generalizing calls' with
  | nil owners =>
    obtain rfl : calls' = [] := by simpa using hrequests
    cases h' with
    | nil => exact ⟨rfl, rfl⟩
  | cons hstep hrest ih =>
    cases h' with
    | nil => simp at hrequests
    | cons hstep' hrest' =>
      obtain ⟨hrequest, hothers⟩ := List.cons_eq_cons.mp hrequests
      obtain ⟨rfl, rfl⟩ := hstep.unique hstep' hrequest
      obtain ⟨rfl, rfl⟩ := ih hrest' hothers
      exact ⟨rfl, rfl⟩

private theorem Step.gives (h : Step policy first call next) (hgives : call.Gives r) :
    r ∉ first.held ∧ r ∈ next.held := by
  rcases hgives with ⟨wanted, rfl⟩ | rfl
  · cases h with
    | allocated _ hfree => exact ⟨hfree, mem_held_take.mpr (.inl rfl)⟩
  · cases h with
    | reserved _ hfree => exact ⟨hfree, mem_held_take.mpr (.inl rfl)⟩

private theorem Step.keeps (h : Step policy first call next) (hheld : r ∈ first.held) (hfrees : ¬ call.Frees r) :
    r ∈ next.held := by
  cases h with
  | allocated | reserved => exact mem_held_take.mpr (.inr hheld)
  | @freed q =>
    have hne : r ≠ q := fun heq => hfrees (heq ▸ rfl)
    exact Finset.mem_erase_of_ne_of_mem hne hheld
  | _ => exact hheld

private theorem Run.append_inv (h : Run policy first (calls ++ calls') last) :
    ∃ middle, Run policy first calls middle ∧ Run policy middle calls' last := by
  induction calls generalizing first with
  | nil => exact ⟨first, .nil first, h⟩
  | cons call calls ih =>
    cases h with
    | cons hstep hrest =>
      obtain ⟨middle, hbefore, hafter⟩ := ih hrest
      exact ⟨middle, .cons hstep hbefore, hafter⟩

private theorem Run.keeps (h : Run policy first calls last) (hheld : r ∈ first.held)
    (hfrees : ∀ call ∈ calls, ¬ call.Frees r) : r ∈ last.held := by
  induction h with
  | nil => exact hheld
  | cons hstep _ ih =>
    rw [List.forall_mem_cons] at hfrees
    exact ih (hstep.keeps hheld hfrees.1) hfrees.2

private theorem Step.mem_saved (h : Step policy first call next) :
    r ∈ next.saved ↔ r ∈ first.saved ∨ r ∈ RegisterClass.calleeSaved.members ∧ call.Gives r := by
  cases h with
  | allocated | reserved => simp [Call.Gives, eq_comm]
  | _ => simp [Call.Gives]

private theorem Run.mem_saved (h : Run policy first calls last) :
    r ∈ last.saved ↔
      r ∈ first.saved ∨ r ∈ RegisterClass.calleeSaved.members ∧ ∃ call ∈ calls, call.Gives r := by
  induction h with
  | nil => simp
  | cons hstep _ ih =>
    rw [ih, hstep.mem_saved, or_assoc, ← and_or_left]
    simp

/-- Between two calls that hand out one register, a call frees it. -/
theorem Run.freed_between {before between after : List Call}
    (h : Run policy first (before ++ call :: (between ++ call' :: after)) last) (hgives : call.Gives r)
    (hgives' : call'.Gives r) : ∃ freeing ∈ between, freeing.Frees r := by
  obtain ⟨owners, -, h⟩ := h.append_inv
  cases h with
  | cons hstep hrest =>
    obtain ⟨middle, hbetween, hafter⟩ := hrest.append_inv
    cases hafter with
    | cons hstep' =>
      by_contra hnone
      have hfrees : ∀ freeing ∈ between, ¬ freeing.Frees r :=
        fun freeing hmem hfree => hnone ⟨freeing, hmem, hfree⟩
      exact (hstep'.gives hgives').1 (hbetween.keeps (hstep.gives hgives).2 hfrees)

end Owners

namespace RegisterClass

private theorem members_ascending (wanted : RegisterClass) : wanted.members.Pairwise fun r q => r.index < q.index := by
  cases wanted <;> decide

private theorem members_subset_general (wanted : RegisterClass) : wanted.members ⊆ Register.general := by
  cases wanted <;> decide

end RegisterClass

namespace Pool

variable {policy : FreePolicy} {pool : Pool} {owners : Owners}

private theorem find?_lowest {wanted : RegisterClass} {r q : Register}
    (h : (wanted.members.find? fun r => !pool.holds r) = some r) (hq : q ∈ wanted.members)
    (hfree : pool.holds q = false) : r.index ≤ q.index := by
  obtain ⟨-, lower, higher, hmembers, hlower⟩ := List.find?_eq_some_iff_append.mp h
  have hascending := wanted.members_ascending
  rw [hmembers, List.pairwise_append, List.pairwise_cons] at hascending
  rw [hmembers, List.mem_append, List.mem_cons] at hq
  rcases hq with hq | rfl | hq
  · have hheld : pool.holds q = true := by simpa using hlower q hq
    rw [hfree] at hheld
    cases hheld
  · exact Nat.le_refl _
  · exact Nat.le_of_lt (hascending.2.1.1 q hq)

private theorem serve_allocate (pool : Pool) (wanted : RegisterClass) :
    pool.serve (.allocate wanted) =
      match wanted.members.find? fun r => !pool.holds r with
      | some r => (.ok (some r), pool.take r)
      | none => (.error (.exhausted wanted), pool) := by
  rw [serve, allocate]
  cases wanted.members.find? fun r => !pool.holds r <;> rfl

private theorem serve_reserve (pool : Pool) (r : Register) :
    pool.serve (.reserve r) =
      if r ∉ Register.general then (.error (.notPooled r), pool)
      else if pool.holds r then (.error (.alreadyHeld r), pool)
      else (.ok none, pool.take r) := by
  by_cases hpooled : r ∈ Register.general
  · by_cases hheld : pool.holds r = true <;> simp [serve, reserve, hpooled, hheld]
  · simp [serve, reserve, hpooled]

private theorem serve_free (pool : Pool) (r : Register) :
    pool.serve (.free r) =
      if r ∉ Register.general then (.error (.notPooled r), pool)
      else if !pool.holds r && pool.policy = .strict then (.error (.freedTwice r), pool)
      else (.ok none, pool.release r) := by
  by_cases hpooled : r ∈ Register.general
  · by_cases htwice : (!pool.holds r && pool.policy = .strict) = true <;>
      simp [serve, free, release, hpooled, htwice]
  · simp [serve, free, hpooled]

private theorem serve_error {request : Request} {e : PoolError} (h : (pool.serve request).1 = .error e) :
    (pool.serve request).2 = pool := by
  unfold serve at h ⊢
  cases request with
  | allocate wanted => cases hresult : pool.allocate wanted <;> simp [hresult] at h ⊢
  | reserve r => cases hresult : pool.reserve r <;> simp [hresult] at h ⊢
  | free r => cases hresult : pool.free r <;> simp [hresult] at h ⊢

private theorem mem_saved {r : Register} :
    r ∈ pool.saved ↔ r ∈ RegisterClass.calleeSaved.members ∧ pool.touched.contains r = true :=
  List.mem_filter

private theorem saved_ascending (pool : Pool) : pool.saved.Pairwise fun r q => r.index < q.index :=
  (RegisterClass.members_ascending .calleeSaved).filter _

/-- A pool under a policy stands for these owners. -/
structure Refines (policy : FreePolicy) (pool : Pool) (owners : Owners) : Prop where
  policy_eq : pool.policy = policy
  general : ∀ r ∈ owners.held, r ∈ Register.general
  held : ∀ r, pool.holds r = true ↔ r ∈ owners.held
  saved : ∀ r, r ∈ pool.saved ↔ r ∈ owners.saved

private theorem refines_new (policy : FreePolicy) : Refines policy { policy } {} where
  policy_eq := rfl
  general := by simp
  held := by
    intro r
    have hfree : holds { policy } r = false := RegisterSet.contains_empty r
    rw [hfree]
    simp
  saved := by
    intro r
    have hnever : (RegisterSet.contains {} r) = false := RegisterSet.contains_empty r
    rw [mem_saved, hnever]
    simp

namespace Refines

variable {r : Register} (h : Refines policy pool owners)
include h

private theorem holds_eq_false : pool.holds r = false ↔ r ∉ owners.held := by
  rw [← h.held, Bool.not_eq_true]

private theorem take (hr : r ∈ Register.general) : Refines policy (pool.take r) (owners.take r) where
  policy_eq := h.policy_eq
  general := by
    intro q hq
    rcases Owners.mem_held_take.mp hq with rfl | hq
    · exact hr
    · exact h.general q hq
  held := by
    intro q
    simp [h.held]
  saved := by
    intro q
    rw [mem_saved, touched_take, Bool.or_eq_true, decide_eq_true_eq, and_or_left, ← mem_saved, h.saved,
      Owners.mem_saved_take, or_comm]

private theorem release : Refines policy (pool.release r) { owners with held := owners.held.erase r } where
  policy_eq := h.policy_eq
  general := fun q hq => h.general q (Finset.mem_of_mem_erase hq)
  held := by
    intro q
    simp [h.held]
  saved := by
    intro q
    rw [mem_saved, touched_release, ← mem_saved]
    exact h.saved q

/-- A call to the pool is a step of its owners. -/
theorem serve (request : Request) : ∃ owners',
    Owners.Step policy owners ⟨request, (pool.serve request).1⟩ owners' ∧
    Refines policy (pool.serve request).2 owners' := by
  cases request with
  | allocate wanted =>
    rw [serve_allocate]
    split
    · rename_i r hfound
      have hmem := List.mem_of_find?_eq_some hfound
      have hfree : r ∉ owners.held := h.holds_eq_false.mp (by simpa using List.find?_some hfound)
      refine ⟨owners.take r, .allocated hmem hfree ?_, h.take (wanted.members_subset_general hmem)⟩
      intro q hq hfree'
      exact find?_lowest hfound hq (h.holds_eq_false.mpr hfree')
    · rename_i hnone
      refine ⟨owners, .exhausted ?_, h⟩
      intro r hr
      exact (h.held r).mp (by simpa using List.find?_eq_none.mp hnone r hr)
  | reserve r =>
    rw [serve_reserve]
    split
    · rename_i hfixed
      exact ⟨owners, .reservedFixed hfixed, h⟩
    · rename_i hpooled
      rw [Decidable.not_not] at hpooled
      split
      · rename_i hheld
        exact ⟨owners, .reservedHeld hpooled ((h.held r).mp hheld), h⟩
      · rename_i hfree
        exact ⟨owners.take r, .reserved hpooled (fun hheld => hfree ((h.held r).mpr hheld)), h.take hpooled⟩
  | free r =>
    rw [serve_free, h.policy_eq]
    split
    · rename_i hfixed
      exact ⟨owners, .freedFixed hfixed, h⟩
    · rename_i hpooled
      rw [Decidable.not_not] at hpooled
      split
      · rename_i htwice
        obtain ⟨hfree, hstrict⟩ : pool.holds r = false ∧ policy = .strict := by simpa using htwice
        exact ⟨owners, .freedTwice hpooled hstrict (h.holds_eq_false.mp hfree), h⟩
      · rename_i hheld
        refine ⟨_, .freed hpooled ?_, h.release⟩
        intro hstrict
        exact (h.held r).mp (by simpa [hstrict] using hheld)

private theorem serveAll (requests : List Request) : ∃ owners',
    Owners.Run policy owners (pool.serveAll requests).1 owners' ∧
    Refines policy (pool.serveAll requests).2 owners' := by
  induction requests generalizing pool owners with
  | nil => exact ⟨owners, .nil owners, h⟩
  | cons request requests ih =>
    obtain ⟨next, hstep, hnext⟩ := h.serve request
    obtain ⟨last, hrun, hlast⟩ := ih hnext
    exact ⟨last, .cons hstep hrun, hlast⟩

end Refines

private theorem serveAll_requests (pool : Pool) (requests : List Request) :
    (pool.serveAll requests).1.map (·.request) = requests := by
  induction requests generalizing pool with
  | nil => rfl
  | cons request requests ih => exact congrArg (request :: ·) (ih _)

/-- What a new pool that has served some calls shows of a set of owners. -/
structure Shows (policy : FreePolicy) (requests : List Request) (calls : List Call) (pool : Pool)
    (owners : Owners) : Prop extends Refines policy pool owners where
  /-- The history is the one run of the owners for these calls. -/
  run_iff : ∀ calls' owners',
    calls'.map (·.request) = requests ∧ Owners.Run policy {} calls' owners' ↔
      calls' = calls ∧ owners' = owners
  ascending : pool.saved.Pairwise fun r q => r.index < q.index
  /-- The callee-saved registers of the owners are those that some call handed out. -/
  handed : ∀ r, r ∈ owners.saved ↔
    r ∈ RegisterClass.calleeSaved.members ∧ ∃ call ∈ calls, call.Gives r
  /-- Later calls do not shrink them. -/
  grows : ∀ later, pool.saved ⊆ (pool.serveAll later).2.saved
  refusal : ∀ request e, (pool.serve request).1 = .error e → (pool.serve request).2 = pool
  /-- Two calls that hand out one register have a call between them that frees it. -/
  exclusive : ∀ r before call between call' after,
    calls = before ++ call :: (between ++ call' :: after) → call.Gives r → call'.Gives r →
      ∃ freeing ∈ between, freeing.Frees r

/-- Whatever calls a new pool has served, it shows a set of owners. -/
theorem serveAll_shows (policy : FreePolicy) (requests : List Request) : ∃ owners,
    Shows policy requests (serveAll { policy } requests).1 (serveAll { policy } requests).2 owners := by
  obtain ⟨owners, hrun, hrefines⟩ := (refines_new policy).serveAll requests
  refine ⟨owners, hrefines, ?_, saved_ascending _, ?_, ?_, fun _ _ => serve_error, ?_⟩
  · intro calls' owners'
    constructor
    · rintro ⟨hrequests, hrun'⟩
      exact hrun.unique hrun' (hrequests.trans (serveAll_requests _ _).symm)
    · rintro ⟨rfl, rfl⟩
      exact ⟨serveAll_requests _ _, hrun⟩
  · intro r
    simpa using hrun.mem_saved (r := r)
  · intro later r hr
    obtain ⟨last, hlater, hlast⟩ := hrefines.serveAll later
    rw [hlast.saved, hlater.mem_saved]
    exact .inl ((hrefines.saved r).mp hr)
  · intro r before call between call' after hcalls hgives hgives'
    rw [hcalls] at hrun
    exact hrun.freed_between hgives hgives'

end Pool

end WordLang
