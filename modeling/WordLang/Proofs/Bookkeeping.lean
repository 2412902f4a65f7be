import WordLang.Proofs.Acceptance

/-!
# The bookkeeping of registers and variables

Compilation never asks its register pool for something that the pool must refuse, short of running out of
registers, and it never moves a variable that is not there. So the policy about registers that are freed
twice decides nothing: under either policy a unit compiles to the same code or fails with the same error.
-/

namespace WordLang

namespace Emit

variable {α β : Type}

/-- An outcome under the lenient policy. -/
def lenientResult : EStateM.Result CompileError Frame α → EStateM.Result CompileError Frame α
  | .ok a t => .ok a t.lenient
  | .error e t => .error e t.lenient

/-- A step that frees a register twice, or that does the same under both policies. -/
def Indifferent (x : Emit α) : Prop :=
  ∀ s, (∃ r t, x s = .error (.pool (.freedTwice r)) t) ∨ x s.lenient = lenientResult (x s)

namespace Indifferent

protected theorem bind {x : Emit α} {f : α → Emit β} (hx : Indifferent x)
    (hf : ∀ s a t, x s = .ok a t → Indifferent (f a)) : Indifferent (x >>= f) := by
  intro s
  rcases hx s with ⟨r, t, htwice⟩ | hsame
  · exact .inl ⟨r, t, bind_stop htwice⟩
  · cases hrun : x s with
    | error e t =>
      right
      rw [hrun] at hsame
      rw [bind_stop hrun, bind_stop hsame]
      rfl
    | ok a t =>
      rw [hrun] at hsame
      rw [bind_run hrun, bind_run hsame]
      exact hf s a t hrun t

protected theorem get_bind {f : Frame → Emit β} (hread : ∀ s : Frame, f s.lenient = f s)
    (hf : ∀ s, Indifferent (f s)) : Indifferent (get >>= f) := by
  intro s
  rw [get_bind_run, get_bind_run, hread]
  exact hf s s

protected theorem modify {f : Frame → Frame} (hf : ∀ s, f s.lenient = (f s).lenient) :
    Indifferent (modify f) := by
  intro s
  right
  change EStateM.Result.ok () (f s.lenient) = .ok () (f s).lenient
  rw [hf]

private theorem counted (operation : String) (n : Int) : Indifferent (counted operation n) := by
  unfold Emit.counted
  cases Counter.check operation n with
  | ok _ => exact fun _ => .inr rfl
  | error _ => exact fun _ => .inr rfl

private theorem withPool {operation : Pool → Except PoolError (α × Pool)}
    (h : ∀ pool : Pool, (∃ r, operation pool = .error (.freedTwice r)) ∨
      operation { pool with policy := .lenient } =
        (operation pool).map fun answer => (answer.1, { answer.2 with policy := .lenient })) :
    Indifferent (withPool operation) := by
  intro s
  rcases h s.pool with ⟨r, htwice⟩ | hsame
  · left
    exact ⟨r, s, withPool_error htwice⟩
  · right
    cases hanswer : operation s.pool with
    | error cause =>
      rw [hanswer] at hsame
      rw [withPool_error hanswer, withPool_error (s := s.lenient) hsame]
      rfl
    | ok answer =>
      rw [hanswer] at hsame
      rw [withPool_run hanswer, withPool_run (s := s.lenient) hsame]
      rfl

private theorem allocate (wanted : RegisterClass) : Indifferent (allocate wanted) := by
  refine withPool fun pool => .inr ?_
  have hfree : (wanted.members.find? fun r => !({ pool with policy := .lenient } : Pool).holds r) =
      wanted.members.find? fun r => !pool.holds r := rfl
  simp only [Pool.allocate, hfree]
  cases wanted.members.find? fun r => !pool.holds r with
  | some r => rfl
  | none => rfl

private theorem reserve (r : Register) : Indifferent (reserve r) := by
  refine withPool fun pool => .inr ?_
  have hheld : ({ pool with policy := .lenient } : Pool).holds r = pool.holds r := rfl
  simp only [Pool.reserve, hheld]
  split
  · rfl
  · split <;> rfl

private theorem read (r : Register) : Indifferent (read r) := by
  refine withPool fun pool => .inr ?_
  have hheld : ({ pool with policy := .lenient } : Pool).holds r = pool.holds r := rfl
  simp only [Pool.read, hheld]
  split <;> rfl

/-- Only here does the policy matter, and only for a register that is free already. -/
theorem free (r : Register) : Indifferent (free r) := by
  refine withPool fun pool => ?_
  by_cases hr : r ∈ Register.general
  · by_cases htwice : (!pool.holds r && decide (pool.policy = .strict)) = true
    · left
      exact ⟨r, by simp only [Pool.free, hr, htwice, not_true_eq_false, if_false, if_true, Except.map]⟩
    · right
      have hover : (!({ pool with policy := .lenient } : Pool).holds r &&
          decide (({ pool with policy := .lenient } : Pool).policy = .strict)) = false := by simp
      simp only [Pool.free, hr, htwice, hover, not_true_eq_false, if_false, Except.map]
      rfl
  · right
    simp only [Pool.free, hr, not_false_eq_true, if_true, Except.map]

private theorem counting : CountingLaw Indifferent where
  bind := Indifferent.bind
  get_bind := Indifferent.get_bind
  instruction _ := .modify fun _ => rfl
  counted := counted
  used _ := .modify fun _ => rfl
  deep _ := .modify fun _ => rfl

private theorem law (sigs : Signatures) : StmtLaw sigs (fun _ => True) fun _ _ x => Indifferent x where
  pure _ := fun _ => .inr rfl
  bind := Indifferent.bind
  mono hx _ _ := hx
  throw _ _ := fun _ => .inr rfl
  get_bind := Indifferent.get_bind
  within _ := .modify fun _ => rfl
  instruction _ := .modify fun _ => rfl
  allocate := allocate
  reserve := reserve
  free := free
  push := counting.push
  pop := counting.pop
  claim size := counting.claim size
  jump _ := .modify fun _ => rfl
  block _ := .modify fun _ => rfl
  numbered _ := .modify fun _ => rfl
  returning _ := .modify fun _ => rfl
  read := read

end Indifferent

end Emit

variable {sigs : Signatures}

private theorem Routine.compile_lenient (hv : sigs.Valid) (labels : LabelSupply) {header : Header} (body : List Stmt)
    (harity : header.params.length ≤ Register.arguments.length) :
    Routine.compile sigs .strict labels header body = Routine.compile sigs .lenient labels header body := by
  have hjudges := header.emitBody_judges hv .strict labels body harity
  have hsame : header.emitBody sigs body (.start .lenient labels body) =
      Emit.lenientResult (header.emitBody sigs body (.start .strict labels body)) := by
    have hindifferent := (Emit.Indifferent.law sigs).emitBody (fun _ => trivial) header body
    refine (hindifferent (.start .strict labels body)).resolve_left ?_
    rintro ⟨r, t, htwice⟩
    rw [Emit.Judges, htwice] at hjudges
    exact hjudges
  by_cases hrange : Counter.InRange (Stmt.slotsOf body)
  · rw [compile_of_inRange hrange, compile_of_inRange hrange, hsame]
    cases header.emitBody sigs body (.start .strict labels body) with
    | ok u frame => rfl
    | error e frame => rfl
  · rw [compile_of_not_inRange hrange, compile_of_not_inRange hrange]

namespace CompilationUnit

private theorem compileAll_lenient (hv : sigs.Valid) (labels : LabelSupply) (functions : List (Header × List Stmt))
    (harity : ∀ f ∈ functions, f.1.params.length ≤ Register.arguments.length) :
    compileAll sigs .strict labels functions = compileAll sigs .lenient labels functions := by
  induction functions generalizing labels with
  | nil => rfl
  | cons f rest ih =>
    obtain ⟨hf, hrest⟩ := List.forall_mem_cons.mp harity
    rw [compileAll, compileAll, Routine.compile_lenient hv labels f.2 hf]
    congr 1
    funext result
    simp only [ih result.2 hrest]

/-- Compilation fails only for a fault of the program or for want of registers, so that the policy about
registers freed twice makes no difference. -/
theorem compile_bookkeeping (unit : CompilationUnit) :
    (∀ policy, (∀ r, unit.compile policy ≠ .error (.pool (.alreadyHeld r)) ∧
        unit.compile policy ≠ .error (.pool (.notPooled r)) ∧
        unit.compile policy ≠ .error (.pool (.freedTwice r)) ∧
        unit.compile policy ≠ .error (.pool (.readAfterFree r))) ∧
      ∀ name, unit.compile policy ≠ .error (.unknownVariable name none)) ∧
    unit.compile .strict = unit.compile .lenient := by
  constructor
  · intro policy
    have haccepts := unit.compile_accepts policy
    refine ⟨fun r => ⟨?_, ?_, ?_, ?_⟩, fun name => ?_⟩
    all_goals
      intro herror
      rw [herror] at haccepts
    · exact haccepts
    · exact haccepts
    · exact haccepts
    · exact haccepts
    · exact absurd haccepts.2 (by simp [CompileError.offset?])
  · rw [compile, compile]
    cases hsigs : unit.signatures with
    | error e => rfl
    | ok sigs =>
      have hall := compileAll_lenient (signatures_ok hsigs).1 {} unit.functions (functions_arity hsigs)
      simp only [bind, Except.bind, hall]

end CompilationUnit

end WordLang
