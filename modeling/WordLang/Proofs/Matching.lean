import Mathlib.Data.List.Forall2
import WordLang.Proofs.Reference
import WordLang.Proofs.Spilling

/-!
# Frames and machines

When a machine is in a state that the compiler's frame describes: every variable is where the frame says,
and the stack pointer is as far below the frame pointer as the frame counts. A piece of code may use free
registers and the memory below the stack pointer as it likes. What it must keep is said here once, together
with what it may rely on when it calls a function.
-/

namespace WordLang

/-- The homes of the variables of nested scopes, from the inside out. -/
abbrev Homes := List (String × Home)

def Homes.find? (homes : Homes) (name : String) : Option Home :=
  homes.lookup name

/-- A variable is stored where its home says. A variable that is a number is in a register, or in a word
between the stack pointer and `floor`. -/
def Storage.Holds (m : Machine) (floor : Int) : Storage → Home → Prop
  | .register r, .value v => m.reg r = v
  | .stack offset false, .value v =>
    m.reg .sp ≤ m.reg .fp + offset ∧ m.reg .fp + offset < floor ∧ m.mem (m.reg .fp + offset) = v
  | .stack offset false, .word address => address = m.reg .fp + offset
  | .stack offset true, .array address => address = m.reg .fp + offset
  | _, _ => False

def Located (m : Machine) (floor : Int) (layers : List Scope) (homes : Homes) : Prop :=
  List.Forall₂ (fun entry home => entry.1 = home.1 ∧ entry.2.Holds m floor home.2) layers.flatten homes

theorem Scopes.mem_registers_flatten {layers : List Scope} {r : Register} :
    r ∈ Scopes.registers layers ↔ ∃ entry ∈ layers.flatten, entry.2 = .register r := by
  rw [Scopes.mem_registers]
  constructor
  · rintro ⟨scope, hs, entry, he, hr⟩
    exact ⟨entry, List.mem_flatten_of_mem hs he, hr⟩
  · rintro ⟨entry, he, hr⟩
    obtain ⟨scope, hs, he⟩ := List.mem_flatten.mp he
    exact ⟨scope, hs, entry, he, hr⟩

theorem Scopes.findSome?_lookup (layers : List Scope) (name : String) :
    (layers.findSome? fun scope => scope.lookup name) = layers.flatten.lookup name := by
  induction layers with
  | nil => rfl
  | cons scope layers ih =>
    rw [List.findSome?_cons, List.flatten_cons, List.lookup_append, ← ih]
    cases scope.lookup name <;> rfl

namespace Located

variable {m m' : Machine} {floor : Int} {layers : List Scope} {homes : Homes}

private theorem forall₂_map_of_mem {α β γ : Type} {R : α → β → Prop} {S : γ → β → Prop} {f : α → γ}
    {l : List α} {l' : List β} (h : List.Forall₂ R l l') (hf : ∀ a ∈ l, ∀ b, R a b → S (f a) b) :
    List.Forall₂ S (l.map f) l' := by
  induction h with
  | nil => exact .nil
  | @cons a b l l' hab _ ih =>
    exact .cons (hf a List.mem_cons_self b hab) (ih fun a' ha' => hf a' (List.mem_cons_of_mem a ha'))

theorem map (h : Located m floor layers homes) (f : Storage → Storage)
    (hf : ∀ entry ∈ layers.flatten, ∀ home,
      entry.2.Holds m floor home → (f entry.2).Holds m' floor home) :
    Located m' floor (layers.map fun scope => scope.map fun entry => (entry.1, f entry.2)) homes := by
  unfold Located
  rw [← List.map_flatten]
  refine forall₂_map_of_mem h fun entry he home hhome => ?_
  exact ⟨hhome.1, hf entry he home.2 hhome.2⟩

theorem keep (h : Located m floor layers homes) (hfp : m'.reg .fp = m.reg .fp)
    (hsp : m'.reg .sp ≤ m.reg .sp) (hreg : ∀ r ∈ Scopes.registers layers, m'.reg r = m.reg r)
    (hmem : ∀ a, m.reg .sp ≤ a → a < floor → m'.mem a = m.mem a) : Located m' floor layers homes := by
  have hsame : Located m' floor
      (layers.map fun scope => scope.map fun entry => (entry.1, id entry.2)) homes := by
    refine h.map id ?_
    rintro ⟨name, storage⟩ he home hhome
    cases storage with
    | register r =>
      cases home with
      | value v =>
        have hr := hreg r (Scopes.mem_registers_flatten.mpr ⟨_, he, rfl⟩)
        exact hr.trans hhome
      | word _ | array _ => exact hhome.elim
    | stack offset array =>
      cases array with
      | true => cases home with
        | array address => exact hhome.trans (by rw [hfp])
        | value _ | word _ => exact hhome.elim
      | false => cases home with
        | value v =>
          obtain ⟨hlo, hhi, hv⟩ := hhome
          refine ⟨by rw [hfp]; omega, by rw [hfp]; exact hhi, ?_⟩
          rw [hfp, hmem _ hlo hhi, hv]
        | word address => exact hhome.trans (by rw [hfp])
        | array _ => exact hhome.elim
  simpa using hsame

theorem lookup (h : Located m floor layers homes) {name : String} {storage : Storage}
    (hl : (layers.findSome? fun scope => scope.lookup name) = some storage) :
    ∃ home, homes.find? name = some home ∧ storage.Holds m floor home := by
  rw [Scopes.findSome?_lookup] at hl
  unfold Located at h
  unfold Homes.find?
  generalize layers.flatten = entries at h hl
  induction h with
  | nil => simp at hl
  | @cons entry home entries homes hentry _ ih =>
    obtain ⟨declared, place⟩ := entry
    obtain ⟨declared', dwelling⟩ := home
    obtain ⟨rfl, hholds⟩ := hentry
    simp only [List.lookup_cons] at hl ⊢
    by_cases hname : name == declared
    · simp only [hname, Option.some.injEq] at hl ⊢
      exact ⟨dwelling, rfl, hl ▸ hholds⟩
    · simp only [hname] at hl ⊢
      exact ih hl

end Located

theorem Machine.read_above {m : Machine} {floor address v : Int}
    (h : (m.above floor).read address = some v) : floor ≤ address ∧ m.mem address = v := by
  unfold Outside.read at h
  split at h
  · rename_i hle
    exact ⟨hle, Option.some.inj h⟩
  · simp at h

theorem Storage.Holds.after_fetch {m : Machine} {floor : Int} {storage : Storage} {home : Home} {v : Int}
    (h : storage.Holds m floor home) (hv : home.read (m.above floor) = some v) (rd : Register)
    (calls : Calls) (Q : Machine → Prop) :
    (storage.fetch rd).After calls m Q ↔ Q (m.set rd v) := by
  cases storage with
  | register r =>
    cases home with
    | value w =>
      obtain rfl := Option.some.inj hv
      rw [← show m.reg r = w from h]
      rfl
    | word _ | array _ => exact h.elim
  | stack offset array =>
    cases array with
    | true => cases home with
      | array address =>
        obtain rfl := Option.some.inj hv
        rw [show address = m.reg .fp + offset from h]
        rfl
      | value _ | word _ => exact h.elim
    | false => cases home with
      | value w =>
        obtain rfl := Option.some.inj hv
        rw [← h.2.2]
        rfl
      | word address =>
        rw [← (Machine.read_above hv).2, show address = m.reg .fp + offset from h]
        rfl
      | array _ => exact h.elim

/-- What a call of a function leaves alone below `floor`. -/
structure Machine.Returned (floor : Int) (m m' : Machine) : Prop where
  fp : m'.reg .fp = m.reg .fp
  sp : m'.reg .sp = m.reg .sp
  saved : ∀ r ∈ RegisterClass.calleeSaved.members, m'.reg r = m.reg r
  mem : ∀ a, m.reg .sp ≤ a → a < floor → m'.mem a = m.mem a

/-- What expressions are evaluated in: the memory that they can read, the homes of their variables, and
what calls mean and do. Calls do what they mean. -/
structure Setting (sigs : Signatures) where
  floor : Int
  homes : Homes
  answers : Answers floor
  calls : Calls
  monotone : calls.Monotone
  honest : ∀ sig ∈ sigs.entries, ∀ (m : Machine) (args : List Int) (Q : Int → Outside floor → Prop),
    m.reg .sp ≤ floor → (Register.arguments.take sig.arity).map m.reg = args →
    args.length = sig.arity → answers sig.callee args (m.above floor) Q →
    calls sig.callee m fun m' => Q (m'.reg Register.result) (m'.above floor) ∧ m.Returned floor m'

variable {sigs : Signatures}

/-- A machine is in a state that a frame describes. -/
structure Frame.Matches (s : Frame) (k : Setting sigs) (m : Machine) : Prop where
  located : Located m k.floor s.scopes.layers k.homes
  sp : m.reg .sp = m.reg .fp - s.localSlots - s.stackDepth
  below : m.reg .sp ≤ k.floor

/-- What code between two frames keeps: the stack, the registers in use before, and the callee-saved
registers that the function still has not used afterwards. -/
structure Frame.Keeps (s s' : Frame) (k : Setting sigs) (m m' : Machine) : Prop where
  fp : m'.reg .fp = m.reg .fp
  sp : m'.reg .sp = m.reg .sp
  held : ∀ r, s.pool.holds r = true → m'.reg r = m.reg r
  saved : ∀ r ∈ RegisterClass.calleeSaved.members,
    s'.pool.touched.contains r = false → m'.reg r = m.reg r
  mem : ∀ a, m.reg .sp ≤ a → a < k.floor → m'.mem a = m.mem a

theorem RegisterClass.members_general {wanted : RegisterClass} {r : Register} (h : r ∈ wanted.members) :
    r ∈ Register.general := by
  cases wanted with
  | callerSaved => exact List.mem_append_left _ h
  | calleeSaved => exact List.mem_append_right _ h

theorem Register.general_ne {r : Register} (h : r ∈ Register.general) : r ≠ .sp ∧ r ≠ .fp := by
  constructor <;> rintro rfl <;> exact absurd h (by decide)

namespace Frame

variable {k : Setting sigs} {s s₁ s₂ t : Frame} {m m₁ m₂ : Machine}

protected theorem Keeps.refl (s s' : Frame) (k : Setting sigs) (m : Machine) : s.Keeps s' k m m :=
  ⟨rfl, rfl, fun _ _ => rfl, fun _ _ _ => rfl, fun _ _ _ => rfl⟩

protected theorem Keeps.trans (h : s.Keeps s₁ k m m₁) (h' : t.Keeps s₂ k m₁ m₂)
    (hheld : ∀ r, s.pool.holds r = true → t.pool.holds r = true)
    (htouched : ∀ r, s₁.pool.touched.contains r = true → s₂.pool.touched.contains r = true) :
    s.Keeps s₂ k m m₂ := by
  refine ⟨h'.fp.trans h.fp, h'.sp.trans h.sp, ?_, ?_, ?_⟩
  · intro r hr
    exact (h'.held r (hheld r hr)).trans (h.held r hr)
  · intro r hr hnot
    have hnot₁ : s₁.pool.touched.contains r = false := by
      cases hc : s₁.pool.touched.contains r with
      | false => rfl
      | true => rw [htouched r hc] at hnot; exact absurd hnot (by decide)
    exact (h'.saved r hr hnot).trans (h.saved r hr hnot₁)
  · intro a hlo hhi
    exact (h'.mem a (by rw [h.sp]; exact hlo) hhi).trans (h.mem a hlo hhi)

theorem Keeps.widen (h : s.Keeps s₁ k m m₁)
    (hheld : ∀ r, t.pool.holds r = true → s.pool.holds r = true)
    (htouched : ∀ r, s₁.pool.touched.contains r = true → s₂.pool.touched.contains r = true) :
    t.Keeps s₂ k m m₁ :=
  ((Keeps.refl t s₁ k m).trans h hheld fun _ hr => hr).trans (.refl t s₂ k m₁) (fun _ hr => hr) htouched

theorem Keeps.set (h : s.Keeps s₁ k m m₁) {rd : Register} (hg : rd ∈ Register.general)
    (hfree : s.pool.holds rd = false) (htouched : s₁.pool.touched.contains rd = true) (v : Int) :
    s.Keeps s₁ k m (m₁.set rd v) := by
  obtain ⟨hsp, hfp⟩ := Register.general_ne hg
  refine ⟨by simp [hfp.symm, h.fp], by simp [hsp.symm, h.sp], ?_, ?_, h.mem⟩
  · intro r hr
    have hne : r ≠ rd := fun he => by rw [he, hfree] at hr; exact absurd hr (by decide)
    simp [hne, h.held r hr]
  · intro r hr hnot
    have hne : r ≠ rd := fun he => by rw [he, htouched] at hnot; exact absurd hnot (by decide)
    simp [hne, h.saved r hr hnot]

/-- What keeps the stack and the registers in use keeps the variables in their places. -/
theorem Matches.keep (h : s.Matches k m) (hs : s.Sound) (hk : s.Keeps s₂ k m m₁)
    (hscopes : s₁.scopes = s.scopes) (hlocal : s₁.localSlots = s.localSlots)
    (hdepth : s₁.stackDepth = s.stackDepth) : s₁.Matches k m₁ := by
  refine ⟨?_, ?_, ?_⟩
  · rw [hscopes]
    exact h.located.keep hk.fp (Int.le_of_eq hk.sp) (fun r hr => hk.held r (hs.bound r hr)) hk.mem
  · rw [hk.sp, hk.fp, hlocal, hdepth]
    exact h.sp
  · rw [hk.sp]
    exact h.below

end Frame

end WordLang
