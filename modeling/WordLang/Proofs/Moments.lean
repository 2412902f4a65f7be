import Mathlib.Logic.Relation
import WordLang.Proofs.CallCode
import WordLang.Proofs.Units

/-!
# Moments of an emission

The code of an expression is emitted part by part: operands before operators, and for a call the variables in
caller-saved registers are pushed one by one, then the arguments are passed, then comes the call itself. A moment
is the frame at the start of such a part, with the words that calls around it have pushed. What holds at one
moment holds in a suitable form at the next, and so at all moments that an emission goes through.
-/

namespace WordLang

/-- A word on top of the local area that is in use: a variable moved out of its register around a call, or an
argument that waits for those after it. -/
inductive Parked where
  | variable (binding : Binding) (offset : Int)
  | argument (offset : Int)

def Parked.offset : Parked → Int
  | .variable _ offset | .argument offset => offset

/-- What is emitted next. -/
inductive Part where
  | expr (e : Expr) (wanted : RegisterClass)
  /-- A call, of which the variables in the registers `rest` are still to be pushed. -/
  | spilling (callee : Callee) (args : List Expr) (rest : List Register)
  | passing (callee : Callee) (args : List Expr)
  /-- Those of several arguments that are still to be pushed. -/
  | staging (rest : List Expr)
  /-- The call instruction itself, with a number of arguments in registers. -/
  | calling (callee : Callee) (count : Nat)

structure Moment where
  part : Part
  frame : Frame
  parked : List Parked := []

/-- From a moment to the next one inside the same part, after the steps of emission that lie between them. -/
inductive Moment.Enters (sigs : Signatures) : Moment → Moment → Prop
  | index {name : String} {i : Expr} {pos : Nat} {wanted : RegisterClass} {s : Frame} {parked : List Parked} :
    Enters sigs ⟨.expr (.index name i pos) wanted, s, parked⟩ ⟨.expr i wanted, s, parked⟩
  | operand {op : UnaryOp} {e : Expr} {wanted : RegisterClass} {s : Frame} {parked : List Parked} :
    Enters sigs ⟨.expr (.unary op e) wanted, s, parked⟩ ⟨.expr e wanted, s, parked⟩
  | left {op : BinaryOp} {lhs rhs : Expr} {wanted : RegisterClass} {s : Frame} {parked : List Parked} :
    Enters sigs ⟨.expr (.binary op lhs rhs) wanted, s, parked⟩
      ⟨.expr lhs (wanted.surviving rhs), s, parked⟩
  | right {op : BinaryOp} {lhs rhs : Expr} {wanted : RegisterClass} {s t : Frame} {parked : List Parked}
    {rs : Register} (h : lhs.emit sigs (wanted.surviving rhs) s = .ok rs t) :
    Enters sigs ⟨.expr (.binary op lhs rhs) wanted, s, parked⟩ ⟨.expr rhs .callerSaved, t, parked⟩
  | call {name : String} {args : List Expr} {pos : Nat} {wanted : RegisterClass} {s : Frame}
    {parked : List Parked} {sig : Signature} (hfind : sigs.find? name = some sig)
    (harity : sig.arity = args.length) :
    Enters sigs ⟨.expr (.call name args pos) wanted, s, parked⟩
      ⟨.spilling sig.callee args RegisterClass.callerSaved.members, s, parked⟩
  | keep {callee : Callee} {args : List Expr} {r : Register} {rest : List Register} {s t : Frame}
    {parked : List Parked} (h : Emit.spillRegister r s = .ok none t) :
    Enters sigs ⟨.spilling callee args (r :: rest), s, parked⟩ ⟨.spilling callee args rest, t, parked⟩
  | spill {callee : Callee} {args : List Expr} {r : Register} {rest : List Register} {s t t' : Frame}
    {parked : List Parked} {found : Spill} {offset : Int} (hpush : Emit.push r s = .ok offset t)
    (h : Emit.spillRegister r s = .ok (some found) t') :
    Enters sigs ⟨.spilling callee args (r :: rest), s, parked⟩
      ⟨.spilling callee args rest, t', parked ++ [.variable found.binding offset]⟩
  | pass {callee : Callee} {args : List Expr} {s : Frame} {parked : List Parked} :
    Enters sigs ⟨.spilling callee args [], s, parked⟩ ⟨.passing callee args, s, parked⟩
  | single {callee : Callee} {e : Expr} {s : Frame} {parked : List Parked} :
    Enters sigs ⟨.passing callee [e], s, parked⟩ ⟨.expr e .callerSaved, s, parked⟩
  | several {callee : Callee} {e e' : Expr} {rest : List Expr} {s : Frame} {parked : List Parked} :
    Enters sigs ⟨.passing callee (e :: e' :: rest), s, parked⟩ ⟨.staging (e :: e' :: rest), s, parked⟩
  | argument {e : Expr} {rest : List Expr} {s : Frame} {parked : List Parked} :
    Enters sigs ⟨.staging (e :: rest), s, parked⟩ ⟨.expr e .callerSaved, s, parked⟩
  | stage {e : Expr} {rest : List Expr} {s t t' t'' : Frame} {parked : List Parked} {rs : Register}
    {offset : Int} (he : e.emit sigs .callerSaved s = .ok rs t) (hpush : Emit.push rs t = .ok offset t')
    (hfree : Emit.free rs t' = .ok () t'') :
    Enters sigs ⟨.staging (e :: rest), s, parked⟩ ⟨.staging rest, t'', parked ++ [.argument offset]⟩
  | invoke {callee : Callee} {args : List Expr} {s t : Frame} {parked : List Parked}
    (h : Emit.pass (Expr.emitAll sigs args) s = .ok () t) :
    Enters sigs ⟨.passing callee args, s, parked⟩ ⟨.calling callee args.length, t, parked⟩

/-- All moments that an emission goes through after a first one. -/
def Moment.Reaches (sigs : Signatures) : Moment → Moment → Prop :=
  Relation.ReflTransGen (Moment.Enters sigs)

def Frame.Vacant (s : Frame) : Prop :=
  ∀ r ∈ RegisterClass.callerSaved.members, s.pool.holds r = false

theorem Frame.Vacant.ready {s : Frame} (h : s.Vacant) (e : Expr) : s.Ready e := by
  intro _ r hr hheld
  rw [h r hr] at hheld
  cases hheld

/-- What the registers must be like at the start of a part. -/
def Part.Steady : Part → Frame → Prop
  | .expr e _, s => s.Sound ∧ s.Ready e
  | .spilling _ args rest, s => s.Sound ∧ args.length ≤ Register.arguments.length ∧
    ∀ r ∈ RegisterClass.callerSaved.members, s.pool.holds r = true →
      r ∈ rest ∧ r ∈ Scopes.registers s.scopes.layers
  | .passing _ args, s => s.Sound ∧ args.length ≤ Register.arguments.length ∧ s.Vacant
  | .staging _, s => s.Sound ∧ s.Vacant
  | .calling _ count, s => ∀ r ∈ RegisterClass.callerSaved.members,
    s.pool.holds r = true ↔ r ∈ Register.arguments.take count

variable {sigs : Signatures} {m m' : Moment}

private theorem Moment.Enters.steady (hv : sigs.Valid) (h : m.Enters sigs m') (hm : m.part.Steady m.frame) :
    m'.part.Steady m'.frame := by
  cases h with
  | index | operand => exact hm
  | left =>
    obtain ⟨hs, hready⟩ := hm
    exact ⟨hs, fun hcall => hready (by simp [Expr.hasCall, hcall])⟩
  | @right op lhs rhs wanted s t parked rs h =>
    obtain ⟨hs, hready⟩ := hm
    have hg := (lhs.compiles hv.arity hs (fun hcall => hready (by simp [Expr.hasCall, hcall])) h).1
    exact ⟨hg.sound hs, hg.ready fun hcall => hready (by simp [Expr.hasCall, hcall])⟩
  | @call name args pos wanted s parked sig hfind harity =>
    obtain ⟨hs, hready⟩ := hm
    have hsig := hv.arity sig (List.mem_of_find?_eq_some hfind)
    exact ⟨hs, harity ▸ hsig, fun r hr hheld => ⟨hr, hready rfl r hr hheld⟩⟩
  | @keep callee args r rest s t parked h =>
    obtain ⟨hs, hargs, hheld⟩ := hm
    rcases Emit.spillRegister_ok hs h with ⟨_, hunbound, rfl⟩ | ⟨_, hfound, _⟩
    · refine ⟨hs, hargs, ?_⟩
      intro q hq hheldq
      obtain ⟨hmem, hbound⟩ := hheld q hq hheldq
      rcases List.mem_cons.mp hmem with rfl | hmem
      · exact absurd hbound hunbound
      · exact ⟨hmem, hbound⟩
    · cases hfound
  | @spill callee args r rest s t t' parked found offset _ h =>
    obtain ⟨hs, hargs, hheld⟩ := hm
    rcases Emit.spillRegister_ok hs h with ⟨hfound, _⟩ | ⟨binding, _, _, _, rfl⟩
    · cases hfound
    · refine ⟨hs.spilled r, hargs, ?_⟩
      intro q hq hheldq
      simp only [Frame.spilled, Pool.holds_release, Bool.and_eq_true, Bool.not_eq_true',
        decide_eq_false_iff_not] at hheldq
      obtain ⟨hmem, hbound⟩ := hheld q hq hheldq.2
      refine ⟨(List.mem_cons.mp hmem).resolve_left hheldq.1, ?_⟩
      simpa [Frame.spilled, Scopes.registers_move] using ⟨hbound, hheldq.1⟩
  | pass =>
    obtain ⟨hs, hargs, hheld⟩ := hm
    refine ⟨hs, hargs, ?_⟩
    intro r hr
    by_contra hfree
    exact absurd (hheld r hr (by simpa using hfree)).1 List.not_mem_nil
  | single =>
    obtain ⟨hs, _, hvacant⟩ := hm
    exact ⟨hs, hvacant.ready _⟩
  | several =>
    obtain ⟨hs, _, hvacant⟩ := hm
    exact ⟨hs, hvacant⟩
  | argument =>
    obtain ⟨hs, hvacant⟩ := hm
    exact ⟨hs, hvacant.ready _⟩
  | @stage e rest s t t' t'' parked rs offset he hpush hfree =>
    obtain ⟨hs, hvacant⟩ := hm
    have hstage : Emit.stage (e.emit sigs .callerSaved) s = .ok () t'' :=
      Emit.bind_ok.mpr ⟨rs, t, he, Emit.bind_ok.mpr ⟨offset, t', hpush, hfree⟩⟩
    obtain ⟨⟨hscopes, _⟩, hholds, _⟩ := Emit.stage_ok (e.compiles hv.arity) hs (hvacant.ready e) hstage
    exact ⟨hs.congr hscopes hholds, fun r hr => (hholds r).trans (hvacant r hr)⟩
  | @invoke callee args s t parked h =>
    obtain ⟨hs, hargs, hvacant⟩ := hm
    have hlends := (Emit.pass_ok hargs (fun e _ => e.compiles hv.arity) hs (fun e _ => hvacant.ready e) h).1
    intro r hr
    rw [hlends.holds, hvacant r hr, Bool.or_false, decide_eq_true_iff]

/-- The registers are as they must be at every moment. -/
theorem Moment.Reaches.steady (hv : sigs.Valid) (h : m.Reaches sigs m') (hm : m.part.Steady m.frame) :
    m'.part.Steady m'.frame := by
  induction h with
  | refl => exact hm
  | tail _ hlast ih => exact hlast.steady hv ih

end WordLang
