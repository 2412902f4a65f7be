import WordLang.Proofs.StepLaws

/-!
# Plain code

The code of an expression is a straight run of instructions: it holds no labels and no jumps, and it calls
only functions that the unit knows. Emitting it makes no labels and claims no local words. All of this is
true whatever state the registers and scopes are in.
-/

namespace WordLang

def Instruction.target? : Instruction → Option String
  | .jmp target | .jz _ target => some target
  | _ => none

theorem Instruction.Plain.target? {sigs : Signatures} {i : Instruction} (h : i.Plain sigs) :
    i.target? = none := by
  cases i with
  | jmp | jz => exact h.elim
  | _ => rfl

/-- The second frame is the first with plain code added, and with any registers, scopes and pushes. -/
structure Frame.Appends (sigs : Signatures) (s s' : Frame) : Prop where
  code : ∃ new : List Instruction,
    s'.code = s.code ++ (new.map Line.code).toArray ∧ ∀ i ∈ new, i.Plain sigs
  labels : s'.labels = s.labels
  returnLabel : s'.returnLabel = s.returnLabel
  localSlots : s'.localSlots = s.localSlots
  usedSlots : s'.usedSlots = s.usedSlots

namespace Frame.Appends

variable {sigs : Signatures} {s s' s'' : Frame}

protected theorem refl (s : Frame) : s.Appends sigs s :=
  ⟨⟨[], by simp, by simp⟩, rfl, rfl, rfl, rfl⟩

theorem within (s : Frame) (scopes : Scopes) : s.Appends sigs (s.within scopes) :=
  ⟨⟨[], by simp, by simp⟩, rfl, rfl, rfl, rfl⟩

theorem pooled (s : Frame) (pool : Pool) : s.Appends sigs (s.pooled pool) :=
  ⟨⟨[], by simp, by simp⟩, rfl, rfl, rfl, rfl⟩

theorem coded (s : Frame) {i : Instruction} (hi : i.Plain sigs) : s.Appends sigs (s.coded i) :=
  ⟨⟨[i], by simp, by simpa using hi⟩, rfl, rfl, rfl, rfl⟩

theorem pushed (s : Frame) (r : Register) : s.Appends sigs (s.pushed r) :=
  ⟨⟨[.push r], by simp, by simp [Instruction.Plain]⟩, rfl, rfl, rfl, rfl⟩

theorem popped (s : Frame) (r : Register) : s.Appends sigs (s.popped r) :=
  ⟨⟨[.pop r], by simp, by simp [Instruction.Plain]⟩, rfl, rfl, rfl, rfl⟩

protected theorem trans (h : s.Appends sigs s') (h' : s'.Appends sigs s'') : s.Appends sigs s'' := by
  obtain ⟨new, hn, hp⟩ := h.code
  obtain ⟨new', hn', hp'⟩ := h'.code
  refine ⟨⟨new ++ new', ?_, ?_⟩, h'.labels.trans h.labels, h'.returnLabel.trans h.returnLabel,
    h'.localSlots.trans h.localSlots, h'.usedSlots.trans h.usedSlots⟩
  · rw [hn', hn, List.map_append, ← List.append_toArray, Array.append_assoc]
  · intro i hi
    rcases List.mem_append.mp hi with hi | hi
    · exact hp i hi
    · exact hp' i hi

end Frame.Appends

namespace Emit

/-- Steps that only add plain code. -/
def Plain {α : Type} (sigs : Signatures) (x : Emit α) : Prop :=
  ∀ ⦃s a s'⦄, x s = .ok a s' → s.Appends sigs s'

namespace Plain

variable {α β : Type} {sigs : Signatures}

theorem law (sigs : Signatures) : ExprLaw sigs (fun _ => True) fun _ _ x => Plain sigs x :=
  .of_relation .refl (fun _ _ _ => .trans) .within (fun s _ hi => .coded s hi) .pooled .pushed .popped

protected theorem bind {x : Emit α} {f : α → Emit β} (hx : Plain sigs x) (hf : ∀ a, Plain sigs (f a)) :
    Plain sigs (x >>= f) :=
  (law sigs).bind_left (n := 0) (m := 0) hx hf

end Plain

end Emit

theorem Expr.emit_plain (sigs : Signatures) (e : Expr) (wanted : RegisterClass) :
    Emit.Plain sigs (e.emit sigs wanted) :=
  (Emit.Plain.law sigs).expr e (fun _ _ => trivial) wanted

end WordLang
