import Mathlib.Algebra.Ring.Int.Defs
import WordLang.Proofs.CallCode

/-!
# Running the code of an expression

The code of an expression, run from any machine that the frame describes, gives the expression's value. The
variables have the values that the machine has for them, the memory from the stack pointer upward is what
the expression can read, and a call is any function of its arguments and of that memory.
-/

namespace WordLang

/-- Where a machine has the value of a variable. -/
def Storage.home (m : Machine) : Storage → Home
  | .register r => .value (m.reg r)
  | .stack offset false => .word (m.reg .fp + offset)
  | .stack offset true => .array (m.reg .fp + offset)

def Scopes.homes (scopes : Scopes) (m : Machine) : Homes :=
  scopes.layers.flatten.map fun entry => (entry.1, entry.2.home m)

private theorem Scopes.located_homes (scopes : Scopes) (m : Machine) (floor : Int) :
    Located m floor scopes.layers (scopes.homes m) := by
  have hholds (storage : Storage) : storage.Holds m floor (storage.home m) := by
    cases storage with
    | register r => rfl
    | stack offset array => cases array <;> rfl
  unfold Located Scopes.homes
  rw [List.forall₂_map_right_iff, List.forall₂_same]
  exact fun entry _ => ⟨rfl, hholds entry.2⟩

/-- A call on the machine does what a function of arguments and memory says, and leaves alone what it must. -/
def Honours (sigs : Signatures) (floor : Int) (call : Callee → Machine → Machine)
    (f : Callee → List Int → Outside floor → Int × Outside floor) : Prop :=
  ∀ sig ∈ sigs.entries, ∀ m : Machine, m.reg .sp ≤ floor →
    f sig.callee ((Register.arguments.take sig.arity).map m.reg) (m.above floor) =
      ((call sig.callee m).reg Register.result, (call sig.callee m).above floor) ∧
    m.Returned floor (call sig.callee m)

/-- The setting in which calls are functions. -/
def Setting.ofFunctions {sigs : Signatures} {floor : Int} (homes : Homes)
    {call : Callee → Machine → Machine} {f : Callee → List Int → Outside floor → Int × Outside floor}
    (h : Honours sigs floor call f) : Setting sigs where
  floor := floor
  homes := homes
  answers := Answers.of f
  calls := fun callee m Q => Q (call callee m)
  monotone := fun _ _ _ _ hq hqr => hqr _ hq
  honest := by
    intro sig hsig m args Q hsp hargs _ hQ
    obtain ⟨hvalue, hreturned⟩ := h sig hsig m hsp
    rw [Answers.of, ← hargs, hvalue] at hQ
    exact ⟨hQ, hreturned⟩

/-- The code of an expression leaves its value in a register, and keeps the stack and the registers in use.
The memory from the stack pointer upward is changed as the expression's calls change it. -/
theorem Expr.emit_run {sigs : Signatures}
    (harity : ∀ sig ∈ sigs.entries, sig.arity ≤ Register.arguments.length) {e : Expr}
    {wanted : RegisterClass} {s s' : Frame} {rd : Register} (hs : s.Sound) (hready : s.Ready e)
    (h : e.emit sigs wanted s = .ok rd s') :
    rd ∈ wanted.members ∧ ∃ code : List Instruction, s'.code.toList = s.code.toList ++ code.map Line.code ∧
      ∀ m : Machine, m.reg .sp = m.reg .fp - s.localSlots - s.stackDepth →
      ∀ (call : Callee → Machine → Machine)
        (f : Callee → List Int → Outside (m.reg .sp) → Int × Outside (m.reg .sp)),
        Honours sigs (m.reg .sp) call f →
      ∀ v o, e.value sigs (s.scopes.homes m).find? f (m.above (m.reg .sp)) = some (v, o) →
        ∃ m', Machine.run call code m = some m' ∧ m'.reg rd = v ∧ m'.above (m.reg .sp) = o ∧
          m'.reg .fp = m.reg .fp ∧ m'.reg .sp = m.reg .sp ∧
          ∀ r, s.pool.holds r = true → m'.reg r = m.reg r := by
  obtain ⟨hg, code, hcode, hrun⟩ := Expr.compiles harity e hs hready h
  refine ⟨hg.member, code, hcode, ?_⟩
  intro m hsp call f hf v o hvalue
  have hmatch : s.Matches (Setting.ofFunctions (s.scopes.homes m) hf) m :=
    ⟨s.scopes.located_homes m _, hsp, Int.le_refl _⟩
  have hafter := hrun (Setting.ofFunctions (s.scopes.homes m) hf) m (fun v' o' => v' = v ∧ o' = o) hmatch
    (e.value_yields hvalue ⟨rfl, rfl⟩)
  obtain ⟨m', hm', ⟨v', ⟨rfl, habove⟩, hrd⟩, hkeep⟩ := After.run hafter
  exact ⟨m', hm', hrd, habove, hkeep.fp, hkeep.sp, hkeep.held⟩

namespace NestedCalls

def sigs : Signatures :=
  ⟨[⟨"sum", ["a", "b"], true⟩, ⟨"twice", ["a"], false⟩]⟩

/-- The expression `x + sum(twice(x), v[1])`. -/
def expr : Expr :=
  .binary .add (.var "x" 0) (.call "sum" [.call "twice" [.var "x" 8] 4, .index "v" (.num 1) 12] 2)

/-- The variable `x` is in a register, and `v` is an array of two words. -/
def frame : Frame :=
  { pool := ({} : Pool).take .r0
    scopes := ⟨[("x", .register .r0), ("v", .stack (-2) true)], []⟩
    localSlots := 2 }

def machine : Machine :=
  ⟨fun r => if r = .fp then 100 else if r = .sp then 98 else if r = .r0 then 5 else 0, fun a => a - 90, []⟩

def call (callee : Callee) (m : Machine) : Machine :=
  m.set .r0 (if callee = .external "twice" then 2 * m.reg .r0 else m.reg .r0 + m.reg .r1)

def answer (callee : Callee) (args : List Int) (o : Outside 98) : Int × Outside 98 :=
  (if callee = .external "twice" then 2 * args.sum else args.sum, o)

private theorem honours : Honours sigs 98 call answer := by
  intro sig hsig m _
  have hsaved (callee : Callee) (r : Register) (hr : r ∈ RegisterClass.calleeSaved.members) :
      (call callee m).reg r = m.reg r := by
    revert hr
    cases r <;> simp [call, RegisterClass.members]
  have hvalue : answer sig.callee ((Register.arguments.take sig.arity).map m.reg) (m.above 98) =
      ((call sig.callee m).reg Register.result, (call sig.callee m).above 98) := by
    simp only [sigs, List.mem_cons, List.not_mem_nil, or_false] at hsig
    rcases hsig with rfl | rfl <;>
      simp [answer, call, Signature.callee, Signature.arity, Register.arguments, Register.result]
  exact ⟨hvalue, rfl, rfl, hsaved _, fun _ _ _ => rfl⟩

private theorem sound : frame.Sound := by
  refine ⟨?_, ⟨by simp [frame, Scopes.layers], by decide⟩, ?_⟩ <;>
  · intro r
    cases r <;> decide

end NestedCalls

theorem Expr.emit_run_nestedCalls : ∃ rd s' code m',
    NestedCalls.expr.emit NestedCalls.sigs .callerSaved NestedCalls.frame = .ok rd s' ∧
    s'.code.toList = code.map Line.code ∧
    Machine.run NestedCalls.call code NestedCalls.machine = some m' ∧ m'.reg rd = 24 ∧ m'.reg .r0 = 5 := by
  have hready : NestedCalls.frame.Ready NestedCalls.expr := by
    intro _ r
    cases r <;> decide
  have hok : ((NestedCalls.expr.emit NestedCalls.sigs .callerSaved NestedCalls.frame) matches .ok ..) = true := by
    decide +kernel
  cases h : NestedCalls.expr.emit NestedCalls.sigs .callerSaved NestedCalls.frame with
  | error e s' => simp [h] at hok
  | ok rd s' =>
    obtain ⟨_, code, hcode, hrun⟩ := Expr.emit_run (by decide) NestedCalls.sound hready h
    obtain ⟨m', hm', hrd, _, _, _, hheld⟩ := hrun NestedCalls.machine rfl NestedCalls.call
      NestedCalls.answer NestedCalls.honours 24 (NestedCalls.machine.above 98) rfl
    exact ⟨rd, s', code, m', rfl, hcode, hm', hrd, hheld .r0 (by decide)⟩

end WordLang
