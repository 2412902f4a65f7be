import Mathlib.Logic.Relation
import WordLang.Proofs.Labels
import WordLang.Proofs.Semantics

/-!
# Running assembly

The machine runs a unit line by line. A call puts the address after it into the link register, a return
jumps to what the link register holds. An external call is answered by the oracle and may overwrite what a
caller has to save: the caller-saved registers, the link register and the memory below the stack pointer.
Straight code runs as its account by what must hold afterwards says, if every call in it does.
-/

namespace WordLang

/-- What a unit is run in: the number of arguments of external functions, their answers, and what they
leave in registers and memory that they may overwrite. -/
structure World where
  arity : String → Nat
  oracle : Oracle
  clobber : Machine → Machine

def World.event (world : World) (name : String) (m : Machine) : Event :=
  ⟨name, (Register.arguments.take (world.arity name)).map fun r => Int32.ofInt (m.reg r)⟩

def World.external (world : World) (name : String) (m : Machine) : Machine where
  reg r :=
    if r = Register.result then (world.oracle m.events (world.event name m)).toInt
    else if r ∈ RegisterClass.calleeSaved.members ∨ r = .fp ∨ r = .sp then m.reg r
    else (world.clobber m).reg r
  mem a := if m.reg .sp ≤ a then m.mem a else (world.clobber m).mem a
  events := world.event name m :: m.events

structure Config where
  pc : Int
  machine : Machine

namespace Assembly

def fetch (asm : Assembly) (pc : Int) : Option Line :=
  if 0 ≤ pc then asm.lines[pc.toNat]? else none

def position? (asm : Assembly) (label : String) : Option Nat :=
  asm.lines.idxOf? (.label label)

def jump (asm : Assembly) (label : String) (m : Machine) : Option Config :=
  (asm.position? label).map fun pc => ⟨pc, m⟩

def step (asm : Assembly) (world : World) : Config → Option Config
  | ⟨pc, m⟩ =>
    match asm.fetch pc with
    | none => none
    | some (.label _) => some ⟨pc + 1, m⟩
    | some (.code (.jmp target)) => asm.jump target m
    | some (.code (.jz rs target)) =>
      if Int32.ofInt (m.reg rs) = 0 then asm.jump target m else some ⟨pc + 1, m⟩
    | some (.code (.call (.internal name))) => asm.jump name (m.set .lr (pc + 1))
    | some (.code (.call (.external name))) => some ⟨pc + 1, world.external name m⟩
    | some (.code .ret) => some ⟨m.reg .lr, m⟩
    | some (.code i) => some ⟨pc + 1, i.effect m⟩

abbrev Reaches (asm : Assembly) (world : World) : Config → Config → Prop :=
  Relation.ReflTransGen fun c c' => asm.step world c = some c'

def At (asm : Assembly) (pc : Nat) (lines : List Line) : Prop :=
  ∀ i line, lines[i]? = some line → asm.lines[pc + i]? = some line

/-- What calls do, whatever follows them. -/
def calls (asm : Assembly) (world : World) : Calls :=
  fun callee m Q => ∀ pc : Nat, asm.At pc [.code (.call callee)] →
    ∃ m', asm.Reaches world ⟨pc, m⟩ ⟨pc + 1, m'⟩ ∧ Q m'

variable {asm : Assembly} {world : World} {pc : Nat} {m : Machine}

theorem At.of_append {before lines after : List Line} (h : asm.lines = before ++ lines ++ after) :
    asm.At before.length lines := by
  intro i line hline
  have hi : i < lines.length := (List.getElem?_eq_some_iff.mp hline).1
  rw [h, List.append_assoc, List.getElem?_append_right (by omega), Nat.add_sub_cancel_left,
    List.getElem?_append_left hi, hline]

theorem At.left {lines lines' : List Line} (h : asm.At pc (lines ++ lines')) : asm.At pc lines := by
  intro i line hline
  refine h i line ?_
  rw [List.getElem?_append_left (List.getElem?_eq_some_iff.mp hline).1, hline]

theorem At.right {lines lines' : List Line} (h : asm.At pc (lines ++ lines')) :
    asm.At (pc + lines.length) lines' := by
  intro i line hline
  rw [Nat.add_assoc]
  refine h (lines.length + i) line ?_
  rw [List.getElem?_append_right (by omega), Nat.add_sub_cancel_left, hline]

theorem At.routine {routine : Routine} (h : asm.At pc routine.lines) :
    asm.At pc [.label routine.label] ∧ asm.At (pc + 1) (routine.prologue.map .code) ∧
      asm.At (pc + 1 + routine.prologue.length) routine.body ∧
      asm.At (pc + 1 + routine.prologue.length + routine.body.length) (routine.epilogue.map .code) := by
  have hhead : asm.At pc ([.label routine.label] ++ routine.prologue.map .code) := h.left.left
  have hbody := h.left.right
  have hepilogue := h.right
  simp only [List.length_cons, List.length_append, List.length_map] at hbody hepilogue
  refine ⟨hhead.left, hhead.right, ?_, ?_⟩
  · rwa [Nat.add_assoc, Nat.add_comm 1]
  · rwa [Nat.add_assoc, Nat.add_assoc, ← Nat.add_assoc 1, Nat.add_comm 1]

theorem At.fetch {line : Line} {lines : List Line} (h : asm.At pc (line :: lines)) :
    asm.fetch pc = some line := by
  have hline := h 0 line rfl
  simpa [Assembly.fetch] using hline

private theorem idxOf?_label {lines : List Line} {label : String} {i : Nat}
    (hn : (lines.filterMap Line.label?).Nodup) (h : lines[i]? = some (.label label)) :
    lines.idxOf? (.label label) = some i := by
  induction lines generalizing i with
  | nil => simp at h
  | cons line rest ih =>
    rw [List.idxOf?_cons]
    cases i with
    | zero =>
      obtain rfl : line = .label label := by simpa using h
      simp
    | succ i =>
      rw [List.getElem?_cons_succ] at h
      have hmem : label ∈ rest.filterMap Line.label? :=
        List.mem_filterMap.mpr ⟨_, List.mem_of_getElem? h, rfl⟩
      have hne : line ≠ .label label := by
        rintro rfl
        have hcons : (label :: rest.filterMap Line.label?).Nodup := hn
        exact (List.nodup_cons.mp hcons).1 hmem
      have hrest : (rest.filterMap Line.label?).Nodup :=
        hn.sublist ((List.sublist_cons_self line rest).filterMap _)
      simp [hne, ih hrest h]

theorem At.position? (hn : asm.labels.Nodup) {label : String} {lines : List Line}
    (h : asm.At pc (.label label :: lines)) : asm.position? label = some pc :=
  idxOf?_label hn (h 0 _ rfl)

theorem step_label {label : String} (h : asm.At pc [.label label]) :
    asm.step world ⟨pc, m⟩ = some ⟨pc + 1, m⟩ := by
  simp [step, h.fetch]

theorem step_jmp {target : String} {p : Nat} (h : asm.At pc [.code (.jmp target)])
    (hp : asm.position? target = some p) : asm.step world ⟨pc, m⟩ = some ⟨p, m⟩ := by
  simp [step, h.fetch, jump, hp]

theorem step_jz {rs : Register} {target : String} {p : Nat} (h : asm.At pc [.code (.jz rs target)])
    (hp : asm.position? target = some p) :
    asm.step world ⟨pc, m⟩ = some (if Int32.ofInt (m.reg rs) = 0 then ⟨p, m⟩ else ⟨pc + 1, m⟩) := by
  by_cases hz : Int32.ofInt (m.reg rs) = 0 <;> simp [step, h.fetch, jump, hp, hz]

theorem step_ret (h : asm.At pc [.code .ret]) : asm.step world ⟨pc, m⟩ = some ⟨m.reg .lr, m⟩ := by
  simp [step, h.fetch]

theorem calls_monotone (asm : Assembly) (world : World) : (asm.calls world).Monotone := by
  intro callee m Q R hQ hR pc hat
  obtain ⟨m', hreach, hm'⟩ := hQ pc hat
  exact ⟨m', hreach, hR m' hm'⟩

/-- Straight code runs as its account says. -/
theorem reaches_of_after {code : List Instruction} {Q : Machine → Prop}
    (hat : asm.At pc (code.map .code)) (h : After (asm.calls world) code m Q) :
    ∃ m', asm.Reaches world ⟨pc, m⟩ ⟨(pc + code.length : Nat), m'⟩ ∧ Q m' := by
  induction code generalizing pc m with
  | nil => exact ⟨m, .refl, h⟩
  | cons i code ih =>
    have hsplit : asm.At pc ([.code i] ++ code.map .code) := hat
    have hfirst := hsplit.left
    have hrest : asm.At (pc + 1) (code.map .code) := hsplit.right
    have hnext {m₁ : Machine} (h₁ : After (asm.calls world) code m₁ Q)
        (hreach : asm.Reaches world ⟨pc, m⟩ ⟨pc + 1, m₁⟩) :
        ∃ m', asm.Reaches world ⟨pc, m⟩ ⟨(pc + (code.length + 1) : Nat), m'⟩ ∧ Q m' := by
      obtain ⟨m', hreach', hQ⟩ := ih hrest h₁
      rw [show pc + (code.length + 1) = pc + 1 + code.length by omega]
      exact ⟨m', hreach.trans hreach', hQ⟩
    cases i with
    | call callee =>
      obtain ⟨m₁, hreach, h₁⟩ := h pc hfirst
      exact hnext h₁ hreach
    | jmp _ | jz _ _ | ret => exact h.elim
    | _ => exact hnext h (.single (by simp [step, hfirst.fetch]))

end Assembly

end WordLang
