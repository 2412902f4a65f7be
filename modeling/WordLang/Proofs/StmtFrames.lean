import WordLang.Proofs.CallCode
import WordLang.Proofs.Units

/-!
# Frames between statements

Between two statements nothing is pushed, the registers in use are those of variables, and every variable
has a place of its own: a register, or a word of the part of the local area that is given away. A statement
gives away as many words as it declares. Around a block it may leave more variables, all of them in the local
area, and the scopes from before the block are again right after it.
-/

namespace WordLang

def Frame.entries (s : Frame) : List (String × Storage) :=
  s.scopes.layers.flatten

structure Frame.Idle (s : Frame) : Prop where
  sound : s.Sound
  held : ∀ r, s.pool.holds r = true → r ∈ Scopes.registers s.scopes.layers

/-- What holds of a frame between two statements. -/
structure Frame.Settled (s : Frame) : Prop where
  sound : s.Sound
  held : ∀ r, s.pool.holds r = true → r ∈ Scopes.registers s.scopes.layers
  caller : ∀ r ∈ Scopes.registers s.scopes.layers, r ∈ RegisterClass.callerSaved.members
  depth : s.stackDepth = 0
  used : 0 ≤ s.usedSlots
  room : s.usedSlots ≤ s.localSlots
  places : s.entries.Pairwise fun a b => a.2 = b.2 → ∃ offset, a.2 = .stack offset true
  offsets : ∀ entry ∈ s.entries, ∀ offset array, entry.2 = .stack offset array →
    -s.usedSlots ≤ offset

/-- The second frame differs from the first in code, labels and the registers ever used. -/
structure Frame.Rests (s s' : Frame) : Prop extends s.Stays s' where
  holds : ∀ q, s'.pool.holds q = s.pool.holds q
  usedSlots : s'.usedSlots = s.usedSlots

/-- The second frame is the first with some more variables in the local area. -/
structure Frame.Declares (s : Frame) (slots : Int) (s' : Frame) : Prop where
  settled : s'.Settled
  localSlots : s'.localSlots = s.localSlots
  usedSlots : s'.usedSlots = s.usedSlots + slots
  touched : ∀ q, s.pool.touched.contains q = true → s'.pool.touched.contains q = true
  added : ∃ new, s'.entries = new ++ s.entries ∧
    ∀ entry ∈ new, ∃ offset array, entry.2 = .stack offset array

namespace Frame

variable {s s' s₁ s₂ t : Frame} {rd : Register}

theorem Idle.ready (h : s.Idle) (e : Expr) : s.Ready e :=
  fun _ r _ hr => h.held r hr

theorem Settled.idle (h : s.Settled) : s.Idle :=
  ⟨h.sound, h.held⟩

theorem Settled.ready (h : s.Settled) (e : Expr) : s.Ready e :=
  h.idle.ready e

theorem Settled.rests (h : s.Settled) (hr : s.Rests s') : s'.Settled := by
  have hentries : s'.entries = s.entries := by rw [Frame.entries, hr.scopes]; rfl
  refine ⟨h.sound.congr hr.scopes hr.holds, ?_, by rw [hr.scopes]; exact h.caller,
    hr.stackDepth.trans h.depth, ?_, ?_, ?_, ?_⟩
  · intro r hheld
    rw [hr.scopes]
    exact h.held r (by rwa [← hr.holds])
  · rw [hr.usedSlots]
    exact h.used
  · rw [hr.usedSlots, hr.localSlots]
    exact h.room
  · rw [hentries]
    exact h.places
  · rw [hentries, hr.usedSlots]
    exact h.offsets

protected theorem Rests.refl (s : Frame) : s.Rests s :=
  ⟨⟨rfl, rfl, rfl, fun _ hq => hq⟩, fun _ => rfl, rfl⟩

protected theorem Rests.trans (h : s.Rests s₁) (h' : s₁.Rests s₂) : s.Rests s₂ :=
  ⟨h.toStays.trans h'.toStays, fun q => (h'.holds q).trans (h.holds q), h'.usedSlots.trans h.usedSlots⟩

theorem Rests.entries (h : s.Rests s') : s'.entries = s.entries := by
  rw [Frame.entries, h.scopes]
  rfl

private theorem Rests.declares (h : s.Rests s') (hs : s.Settled) : s.Declares 0 s' :=
  ⟨hs.rests h, h.localSlots, by rw [h.usedSlots, Int.add_zero], h.touched,
    [], h.entries, by simp⟩

theorem Gains.rests {wanted : RegisterClass} (h : s.Gains wanted rd t)
    (hused : t.usedSlots = s.usedSlots) : s.Rests (t.freed rd) := by
  refine ⟨⟨h.scopes, h.localSlots, h.stackDepth, h.touched⟩, ?_, hused⟩
  intro q
  rw [freed_pool, Pool.holds_release, h.holds]
  by_cases hq : q = rd <;> simp [hq, h.fresh]

theorem Rests.coded (h : s.Rests (t.freed rd)) (i : Instruction) : s.Rests ((t.coded i).freed rd) :=
  ⟨⟨h.scopes, h.localSlots, h.stackDepth, h.touched⟩, h.holds, h.usedSlots⟩

theorem Rests.numbered (s : Frame) (labels : LabelSupply) : s.Rests (s.numbered labels) :=
  ⟨⟨rfl, rfl, rfl, fun _ hq => hq⟩, fun _ => rfl, rfl⟩

theorem Rests.labelled (s : Frame) (label : String) : s.Rests (s.labelled label) :=
  ⟨⟨rfl, rfl, rfl, fun _ hq => hq⟩, fun _ => rfl, rfl⟩

theorem Rests.instruction (s : Frame) (i : Instruction) : s.Rests (s.coded i) :=
  ⟨⟨rfl, rfl, rfl, fun _ hq => hq⟩, fun _ => rfl, rfl⟩

private theorem Declares.trans {a b : Int} (h : s.Declares a s₁) (h' : s₁.Declares b s₂) :
    s.Declares (a + b) s₂ := by
  obtain ⟨new, hnew, hstack⟩ := h.added
  obtain ⟨new', hnew', hstack'⟩ := h'.added
  refine ⟨h'.settled, h'.localSlots.trans h.localSlots, ?_, fun q hq => h'.touched q (h.touched q hq),
    new' ++ new, by rw [hnew', hnew, List.append_assoc], ?_⟩
  · rw [h'.usedSlots, h.usedSlots, Int.add_assoc]
  · intro entry hentry
    rcases List.mem_append.mp hentry with hentry | hentry
    · exact hstack' entry hentry
    · exact hstack entry hentry

theorem Rests.trans_declares {n : Int} (h : s.Rests s₁) (h' : s₁.Declares n s₂) : s.Declares n s₂ := by
  exact ⟨h'.settled, h'.localSlots.trans h.localSlots, by rw [h'.usedSlots, h.usedSlots],
    fun q hq => h'.touched q (h.touched q hq), by rw [← h.entries]; exact h'.added⟩

theorem Declares.trans_rests {n : Int} (h : s.Declares n s₁) (h' : s₁.Rests s₂) : s.Declares n s₂ := by
  have hboth := h.trans (h'.declares h.settled)
  rwa [Int.add_zero] at hboth

theorem Settled.enter (h : s.Settled) : (s.within s.scopes.enter).Settled :=
  ⟨⟨h.sound.general, ⟨by simpa [Scopes.enter, Scopes.layers] using h.sound.tidy.names_nodup,
    h.sound.tidy.registers_nodup⟩, h.sound.bound⟩, h.held, h.caller, h.depth, h.used, h.room, h.places,
    h.offsets⟩

theorem Declares.of_enter {n : Int} (h : (s.within s.scopes.enter).Declares n t) : s.Declares n t :=
  ⟨h.settled, h.localSlots, h.usedSlots, h.touched, h.added⟩

theorem mem_registers {r : Register} :
    r ∈ Scopes.registers s.scopes.layers ↔ ∃ entry ∈ s.entries, entry.2 = .register r :=
  Scopes.mem_registers_flatten

private theorem Declares.leave {n : Int} (h : s.Declares n t) (hs : s.Settled) (hn : 0 ≤ n) :
    s.Declares n (t.within s.scopes) := by
  obtain ⟨new, hnew, hstack⟩ := h.added
  have hregisters (r : Register) :
      r ∈ Scopes.registers t.scopes.layers ↔ r ∈ Scopes.registers s.scopes.layers := by
    rw [mem_registers, mem_registers, hnew]
    constructor
    · rintro ⟨entry, hentry, hr⟩
      rcases List.mem_append.mp hentry with hentry | hentry
      · obtain ⟨offset, array, hplace⟩ := hstack entry hentry
        rw [hplace] at hr
        exact absurd hr (by simp)
      · exact ⟨entry, hentry, hr⟩
    · rintro ⟨entry, hentry, hr⟩
      exact ⟨entry, List.mem_append_right new hentry, hr⟩
  have ht := h.settled
  refine ⟨⟨⟨ht.sound.general, hs.sound.tidy, ?_⟩, ?_, hs.caller, ht.depth, ht.used, ht.room, hs.places, ?_⟩,
    h.localSlots, h.usedSlots, h.touched, [], rfl, by simp⟩
  · intro r hr
    exact ht.sound.bound r ((hregisters r).mpr hr)
  · intro r hr
    exact (hregisters r).mp (ht.held r hr)
  · intro entry hentry offset array hplace
    have hoffset := hs.offsets entry hentry offset array hplace
    have hused := h.usedSlots
    simp only [Frame.within_usedSlots]
    omega

theorem Settled.claimed {n : Int} (h : s.Settled) (hn : 0 ≤ n) (hroom : s.usedSlots + n ≤ s.localSlots) :
    (s.claimed n).Settled := by
  have hused := h.used
  refine ⟨⟨h.sound.general, h.sound.tidy, h.sound.bound⟩, h.held, h.caller, h.depth, ?_, hroom, h.places,
    ?_⟩
  · simp only [claimed_usedSlots]
    omega
  · intro entry hentry offset array hplace
    have hoffset := h.offsets entry hentry offset array hplace
    simp only [claimed_usedSlots]
    omega

theorem Sound.names_declare (h : s.Sound) {name : String}
    (hnew : s.scopes.inner.lookup name = none) (storage : Storage) :
    ∀ scope ∈ Scopes.layers ⟨(name, storage) :: s.scopes.inner, s.scopes.outer⟩,
      (scope.map (·.1)).Nodup := by
  have hnames := h.tidy.names_nodup
  intro scope hscope
  rcases List.mem_cons.mp hscope with rfl | hscope
  · change (name :: s.scopes.inner.map (·.1)).Nodup
    rw [List.nodup_cons]
    refine ⟨?_, hnames _ List.mem_cons_self⟩
    intro hmem
    obtain ⟨entry, hentry, hname⟩ := List.mem_map.mp hmem
    have hdiff := List.lookup_eq_none_iff.mp hnew entry hentry
    simp [hname] at hdiff
  · exact hnames scope (List.mem_cons_of_mem _ hscope)

private theorem Settled.declare {n : Int} {array : Bool} (h : s.Settled) (hn : 0 < n ∨ n = 0 ∧ array = true)
    (hroom : s.usedSlots + n ≤ s.localSlots) (ht : (s.claimed n).Rests t) {name : String}
    (hnew : t.scopes.inner.lookup name = none) :
    s.Declares n (t.within
      ⟨(name, .stack (-(s.usedSlots + n)) array) :: t.scopes.inner, t.scopes.outer⟩) := by
  have hsettled := (h.claimed (by omega) hroom).rests ht
  have hentries : t.entries = s.entries := by rw [Frame.entries, ht.scopes]; rfl
  have htused : t.usedSlots = s.usedSlots + n := ht.usedSlots
  have hregisters : Scopes.registers (Scopes.layers
      ⟨(name, .stack (-(s.usedSlots + n)) array) :: t.scopes.inner, t.scopes.outer⟩) =
        Scopes.registers t.scopes.layers := rfl
  refine ⟨⟨⟨hsettled.sound.general, ⟨?_, ?_⟩, ?_⟩, ?_, hregisters ▸ hsettled.caller, hsettled.depth,
    hsettled.used, hsettled.room, ?_, ?_⟩, ht.localSlots, htused, ht.touched,
    [(name, .stack (-(s.usedSlots + n)) array)], ?_, ?_⟩
  · exact hsettled.sound.names_declare hnew _
  · exact hregisters ▸ hsettled.sound.tidy.registers_nodup
  · intro r hr
    exact hsettled.sound.bound r (hregisters ▸ hr)
  · intro r hr
    exact hregisters ▸ hsettled.held r hr
  · refine List.Pairwise.cons ?_ hsettled.places
    intro entry hentry hsame
    have hoffset := h.offsets entry (hentries ▸ hentry) _ _ hsame.symm
    rcases hn with hpos | ⟨_, rfl⟩
    · omega
    · exact ⟨_, rfl⟩
  · intro entry hentry offset array' hplace
    rcases List.mem_cons.mp hentry with rfl | hentry
    · obtain ⟨rfl, _⟩ := Storage.stack.inj hplace
      simp [htused]
    · exact hsettled.offsets entry hentry offset array' hplace
  · rw [← hentries]
    rfl
  · intro entry hentry
    rw [List.mem_singleton.mp hentry]
    exact ⟨_, _, rfl⟩

theorem Settled.param (h : s.Settled) {r : Register} (hr : r ∈ RegisterClass.callerSaved.members)
    (hfree : s.pool.holds r = false) {name : String} (hnew : s.scopes.inner.lookup name = none) :
    ((s.taken r).within ⟨(name, .register r) :: s.scopes.inner, s.scopes.outer⟩).Settled := by
  have hunbound : r ∉ Scopes.registers s.scopes.layers := by
    intro hbound
    rw [h.sound.bound r hbound] at hfree
    exact absurd hfree (by decide)
  have hregisters : Scopes.registers (Scopes.layers
      ⟨(name, .register r) :: s.scopes.inner, s.scopes.outer⟩) = r :: Scopes.registers s.scopes.layers := rfl
  have hholds (q : Register) : (s.pool.take r).holds q = true ↔ q = r ∨ s.pool.holds q = true := by
    simp
  refine ⟨⟨?_, ⟨h.sound.names_declare hnew _, ?_⟩, ?_⟩, ?_, ?_, h.depth, h.used, h.room, ?_, ?_⟩
  · intro q hq
    rcases (hholds q).mp hq with rfl | hq
    · exact RegisterClass.members_general hr
    · exact h.sound.general q hq
  · exact hregisters ▸ List.nodup_cons.mpr ⟨hunbound, h.sound.tidy.registers_nodup⟩
  · intro q hq
    rcases List.mem_cons.mp (hregisters ▸ hq) with rfl | hq
    · exact (hholds q).mpr (.inl rfl)
    · exact (hholds q).mpr (.inr (h.sound.bound q hq))
  · intro q hq
    rcases (hholds q).mp hq with rfl | hq
    · exact hregisters ▸ List.mem_cons_self
    · exact hregisters ▸ List.mem_cons_of_mem r (h.held q hq)
  · intro q hq
    rcases List.mem_cons.mp (hregisters ▸ hq) with rfl | hq
    · exact hr
    · exact h.caller q hq
  · refine List.Pairwise.cons ?_ h.places
    intro entry hentry hsame
    exact absurd (Frame.mem_registers.mpr ⟨entry, hentry, hsame.symm⟩) hunbound
  · intro entry hentry offset array hplace
    rcases List.mem_cons.mp hentry with rfl | hentry
    · cases hplace
    · exact h.offsets entry hentry offset array hplace

end Frame

variable {sigs : Signatures} {s s' t : Frame} {u : Unit}

theorem Expr.emit_gains (hv : sigs.Valid) {e : Expr} {wanted : RegisterClass} {rd : Register}
    (hs : s.Idle) (h : e.emit sigs wanted s = .ok rd t) :
    s.Gains wanted rd t ∧ t.usedSlots = s.usedSlots :=
  ⟨(e.compiles hv.arity hs.sound (hs.ready e) h).1, (e.emit_plain sigs wanted h).usedSlots⟩

theorem Emit.branchUnless_rests (hv : sigs.Valid) {cond : Expr} {target : String} (hs : s.Idle)
    (h : Emit.branchUnless sigs cond target s = .ok u s') : s.Rests s' := by
  simp only [Emit.branchUnless, Emit.bind_ok, Emit.instruction_ok] at h
  obtain ⟨rs, t, hcond, _, _, rfl, hfree⟩ := h
  obtain ⟨_, rfl⟩ := Emit.free_ok hfree
  obtain ⟨hg, hused⟩ := Expr.emit_gains hv hs hcond
  exact (hg.rests hused).coded _

theorem Emit.assign_rests (hv : sigs.Valid) {target : Place} {value : Expr} (hs : s.Idle)
    (h : Emit.assign sigs target value s = .ok u s') : s.Rests s' := by
  cases target with
  | var name pos =>
    simp only [Emit.assign, Emit.bind_ok, Emit.lookup_ok] at h
    obtain ⟨_, _, ⟨_, rfl⟩, rs, t, hvalue, storage, _, ⟨_, rfl⟩, h⟩ := h
    obtain ⟨hg, hused⟩ := Expr.emit_gains hv hs hvalue
    have hstore {i : Instruction} (hi : (do Emit.instruction i; Emit.free rs) t = .ok u s') :
        s.Rests s' := by
      simp only [Emit.bind_ok, Emit.instruction_ok] at hi
      obtain ⟨_, _, rfl, hfree⟩ := hi
      obtain ⟨_, rfl⟩ := Emit.free_ok hfree
      exact (hg.rests hused).coded i
    cases storage with
    | register rd => exact hstore h
    | stack offset array =>
      cases array with
      | true =>
        obtain ⟨_, _, hthrow, _⟩ := Emit.bind_ok.mp h
        exact (Emit.throw_ok.mp hthrow).elim
      | false => exact hstore h
  | element name index pos =>
    simp only [Emit.assign, Emit.bind_ok, Emit.instruction_ok] at h
    obtain ⟨element, s₁, haddress, rs, s₂, hvalue, _, _, rfl, _, _, hfree, hfree'⟩ := h
    obtain ⟨_, rfl⟩ := Emit.free_ok hfree
    obtain ⟨_, rfl⟩ := Emit.free_ok hfree'
    obtain ⟨hg1, _⟩ := Emit.address_ok (index.compiles hv.arity) hs.sound (hs.ready index) haddress
    have hg2 := (value.compiles hv.arity (hg1.sound hs.sound) (hg1.ready (hs.ready value)) hvalue).1
    have hused₁ := ((Emit.Plain.law sigs).address (m := 0) trivial (index.emit_plain sigs _) haddress).usedSlots
    have hused₂ := (value.emit_plain sigs _ hvalue).usedSlots
    refine ⟨⟨hg2.scopes.trans hg1.scopes, hg2.localSlots.trans hg1.localSlots,
      hg2.stackDepth.trans hg1.stackDepth, ?_⟩, ?_, hused₂.trans hused₁⟩
    · intro q hq
      exact hg2.touched q (hg1.touched q hq)
    · intro q
      obtain ⟨hfree₂, hne⟩ := hg1.unheld hg2.fresh
      by_cases hq : q = element
      · simp [hq, hg1.fresh]
      · by_cases hq' : q = rs
        · simp [hq', hfree₂]
        · simp [hq, hq', hg2.holds, hg1.holds]

private theorem Frame.Finishes.none (sigs : Signatures) (t : Frame) : t.Finishes sigs t fun _ _ => True :=
  ⟨⟨rfl, rfl, rfl, fun _ hq => hq⟩, [], by simp, fun _ _ => ⟨trivial, rfl, .refl _ _ _ _⟩⟩

theorem Emit.call_discards (hv : sigs.Valid) {name : String} {args : List Expr} {pos : Nat}
    (hs : s.Idle) (h : Emit.call sigs name pos (Expr.emitAll sigs args) (pure ()) s = .ok u s') :
    s.Rests s' ∧ s.Computes sigs s'
      (fun k => (Expr.call name args pos).Yields sigs k.homes.find? k.answers) fun _ _ => True := by
  obtain ⟨t, t', hfinish, hholds, hrest⟩ := Emit.call_computes hv.arity (fun e _ => e.compiles hv.arity)
    hs.sound (fun r _ hr => hs.held r hr) h
  obtain ⟨_, rfl⟩ := Emit.pure_ok.mp hfinish
  obtain ⟨hpool, hst, hc⟩ := hrest _ (.none sigs t') fun _ _ _ _ _ => trivial
  have hplain : s.Appends sigs s' :=
    (Emit.Plain.law sigs).call trivial (fun e _ => e.emit_plain sigs _) ((Emit.Plain.law sigs).pure ()) h
  exact ⟨⟨hst, fun q => by rw [hpool, hholds], hplain.usedSlots⟩, hc⟩

theorem Simple.emit_declares (hv : sigs.Valid) (stmt : Simple) (hs : s.Settled)
    (hroom : s.usedSlots + stmt.slots ≤ s.localSlots) (h : stmt.emit sigs s = .ok u s') :
    s.Declares stmt.slots s' := by
  match stmt with
  | .var name none pos =>
    obtain ⟨hnew, rfl⟩ := Simple.emit_var_none_ok h
    exact hs.declare (.inl Int.one_pos) hroom (.refl _) hnew
  | .var name (some value) pos =>
    obtain ⟨rs, t, hvalue, hnew, rfl⟩ := Simple.emit_var_some_ok h
    obtain ⟨hg, hused⟩ := Expr.emit_gains hv (hs.claimed Int.one_nonneg hroom).idle hvalue
    exact hs.declare (.inl Int.one_pos) hroom ((hg.rests hused).coded _) hnew
  | .array name length pos =>
    obtain ⟨hnew, rfl⟩ := Simple.emit_array_ok h
    refine hs.declare ?_ hroom (.refl _) hnew
    rw [and_iff_left rfl]
    simp only [Simple.slots]
    omega
  | .assign target value => exact (Emit.assign_rests hv hs.idle h).declares hs
  | .expr (.call name args pos) => exact (Emit.call_discards hv hs.idle h).1.declares hs
  | .expr (.num _) | .expr (.var _ _) | .expr (.index _ _ _) | .expr (.unary _ _)
  | .expr (.binary _ _ _) =>
    obtain ⟨rs, t, hvalue, hfree⟩ := Emit.bind_ok.mp h
    obtain ⟨_, rfl⟩ := Emit.free_ok hfree
    obtain ⟨hg, hused⟩ := Expr.emit_gains hv hs.idle hvalue
    exact (hg.rests hused).declares hs

theorem Simple.forM_declares (hv : sigs.Valid) (stmt : Option Simple) (hs : s.Settled)
    (hroom : s.usedSlots + (stmt.map Simple.slots).getD 0 ≤ s.localSlots)
    (h : stmt.forM (Simple.emit sigs) s = .ok u s') :
    s.Declares (((stmt.map Simple.slots).getD 0 : Nat) : Int) s' := by
  cases stmt with
  | none =>
    obtain ⟨_, rfl⟩ := Emit.pure_ok.mp h
    exact (Frame.Rests.refl s').declares hs
  | some stmt => exact stmt.emit_declares hv hs hroom h

theorem Emit.forM_branchUnless_rests (hv : sigs.Valid) {cond : Option Expr} {target : String}
    (hs : s.Idle) (h : (cond.forM fun cond => Emit.branchUnless sigs cond target) s = .ok u s') :
    s.Rests s' := by
  cases cond with
  | none =>
    obtain ⟨_, rfl⟩ := Emit.pure_ok.mp h
    exact .refl s'
  | some cond => exact Emit.branchUnless_rests hv hs h

theorem Emit.returnLabel_rests {label : String} (h : Emit.returnLabel s = .ok label s') : s.Rests s' := by
  rcases Emit.returnLabel_ok h with ⟨_, rfl⟩ | ⟨_, _, rfl⟩
  · exact .refl s'
  · exact ⟨⟨rfl, rfl, rfl, fun _ hq => hq⟩, fun _ => rfl, rfl⟩

theorem Stmt.ret_rests (hv : sigs.Valid) {value : Option Expr} (hs : s.Idle)
    (h : (Stmt.ret value).emit sigs s = .ok u s') : s.Rests s' := by
  cases value with
  | none =>
    obtain ⟨label, t, hl, rfl⟩ := Stmt.emit_ret_none_ok h
    exact (Emit.returnLabel_rests hl).trans (.instruction _ _)
  | some value =>
    obtain ⟨rs, t, label, t', hvalue, _, hl, rfl⟩ := Stmt.emit_ret_some_ok h
    obtain ⟨hg, hused⟩ := Expr.emit_gains hv hs hvalue
    have hfreed := hg.rests hused
    have hmoved : s.Rests
        ((if rs = Register.result then t else t.coded (.mov Register.result rs)).freed rs) := by
      by_cases hrs : rs = Register.result
      · rw [if_pos hrs]
        exact hfreed
      · rw [if_neg hrs]
        exact hfreed.coded _
    exact (hmoved.trans (Emit.returnLabel_rests hl)).trans (.instruction _ _)

private theorem scope_declares {body : List Stmt}
    (ih : ∀ s s' : Frame, s.Settled → s.usedSlots + Stmt.slotsOf body ≤ s.localSlots →
      Stmt.emitAll sigs body s = .ok () s' → s.Declares (Stmt.slotsOf body) s')
    (hs : s.Settled) (hroom : s.usedSlots + Stmt.slotsOf body ≤ s.localSlots)
    (h : Stmt.emitAll sigs body (s.within s.scopes.enter) = .ok () t) :
    s.Declares (Stmt.slotsOf body) (t.within s.scopes) := by
  exact (ih _ _ hs.enter hroom h).of_enter.leave hs (by omega)

theorem Stmt.forLoop_frames (hv : sigs.Valid) {init step : Option Simple} {cond : Option Expr}
    {body : List Stmt} {labels : LabelSupply} {l l' : String} {r t' r' : Frame}
    (ih : ∀ s s' : Frame, s.Settled → s.usedSlots + Stmt.slotsOf body ≤ s.localSlots →
      Stmt.emitAll sigs body s = .ok () s' → s.Declares (Stmt.slotsOf body) s')
    (hs : s.Settled) (hroom : s.usedSlots + (Stmt.forLoop init cond step body).slots ≤ s.localSlots)
    (hinit : init.forM (Simple.emit sigs) ((s.numbered labels).within s.scopes.enter) = .ok () r)
    (htest : (cond.forM fun cond => Emit.branchUnless sigs cond l') (r.labelled l) = .ok () t)
    (hbody : Stmt.emitAll sigs body (t.within t.scopes.enter) = .ok () t')
    (hstep : step.forM (Simple.emit sigs) (t'.within t.scopes) = .ok () r') :
    s.Declares ((init.map Simple.slots).getD 0 : Nat) r ∧ (r.labelled l).Rests t ∧
      t.Declares (Stmt.slotsOf body) (t'.within t.scopes) ∧
      (t'.within t.scopes).Declares ((step.map Simple.slots).getD 0 : Nat) r' := by
  have hslots : s.usedSlots + ((init.map Simple.slots).getD 0 + (step.map Simple.slots).getD 0 +
      Stmt.slotsOf body : Nat) ≤ s.localSlots := hroom
  push_cast at hslots
  have hnumbered := Frame.Rests.numbered s labels
  have hr := hnumbered.trans_declares (Simple.forM_declares hv init (hs.rests hnumbered).enter
    (by simp only [Frame.within_usedSlots, Frame.within_localSlots, Frame.numbered_usedSlots,
      Frame.numbered_localSlots]; omega) hinit).of_enter
  have hlabelled := hr.settled.rests (.labelled r l)
  have hrests := Emit.forM_branchUnless_rests hv hlabelled.idle htest
  have hused_r := hr.usedSlots
  have hlocal_r := hr.localSlots
  have hused_t : t.usedSlots = r.usedSlots := hrests.usedSlots
  have hlocal_t : t.localSlots = r.localSlots := hrests.localSlots
  have hblock := scope_declares ih (hlabelled.rests hrests) (by omega) hbody
  have hused_b := hblock.usedSlots
  have hlocal_b := hblock.localSlots
  exact ⟨hr, hrests, hblock, Simple.forM_declares hv step hblock.settled (by omega) hstep⟩

theorem Stmt.emit_declares (hv : sigs.Valid) :
    (∀ (stmt : Stmt) (s s' : Frame), s.Settled → s.usedSlots + stmt.slots ≤ s.localSlots →
      stmt.emit sigs s = .ok () s' → s.Declares stmt.slots s') ∧
    ∀ (body : List Stmt) (s s' : Frame), s.Settled → s.usedSlots + Stmt.slotsOf body ≤ s.localSlots →
      Stmt.emitAll sigs body s = .ok () s' → s.Declares (Stmt.slotsOf body) s' := by
  apply Stmt.induction
  case simple =>
    intro stmt s s' hs hroom h
    exact stmt.emit_declares hv hs hroom h
  case ifThen =>
    intro cond body ih s s' hs hroom h
    obtain ⟨t, t', htest, hbody, rfl⟩ := Stmt.emit_ifThen_ok h
    have hnumbered := Frame.Rests.numbered s (s.labels.fresh "if").2
    have ht := hnumbered.trans (Emit.branchUnless_rests hv (hs.rests hnumbered).idle htest)
    have hblock := scope_declares ih (hs.rests ht) (by rw [ht.usedSlots, ht.localSlots]; exact hroom) hbody
    exact (ht.trans_declares hblock).trans_rests (.labelled _ _)
  case ifElse =>
    intro cond body other ihbody ihother s s' hs hroom h
    obtain ⟨t, t', r', htest, hbody, hother, rfl⟩ := Stmt.emit_ifElse_ok h
    have hslots : s.usedSlots + (Stmt.slotsOf body + Stmt.slotsOf other) ≤ s.localSlots := by
      simpa [Stmt.slots] using hroom
    have hnumbered := Frame.Rests.numbered s (s.labels.fresh "if").2
    have ht := hnumbered.trans (Emit.branchUnless_rests hv (hs.rests hnumbered).idle htest)
    have hfirst := scope_declares ihbody (hs.rests ht) (by rw [ht.usedSlots, ht.localSlots]; omega) hbody
    have hbetween := (ht.trans_declares hfirst).trans_rests ((Frame.Rests.instruction _
      (.jmp ((s.labels.fresh "if").1 ++ "_end"))).trans (.labelled _ ((s.labels.fresh "if").1 ++ "_else")))
    have hsecond := scope_declares ihother hbetween.settled
      (by rw [hbetween.usedSlots, hbetween.localSlots]; omega) hother
    have hall := (hbetween.trans hsecond).trans_rests
      (.labelled _ ((s.labels.fresh "if").1 ++ "_end"))
    simpa [Stmt.slots] using hall
  case whileLoop =>
    intro cond body ih s s' hs hroom h
    obtain ⟨t, t', htest, hbody, rfl⟩ := Stmt.emit_whileLoop_ok h
    have hhead := (Frame.Rests.numbered s (s.labels.fresh "while").2).trans
      (.labelled _ (s.labels.fresh "while").1)
    have ht := hhead.trans (Emit.branchUnless_rests hv (hs.rests hhead).idle htest)
    have hblock := scope_declares ih (hs.rests ht) (by rw [ht.usedSlots, ht.localSlots]; exact hroom) hbody
    exact (ht.trans_declares hblock).trans_rests ((Frame.Rests.instruction _ _).trans (.labelled _ _))
  case forLoop =>
    intro init cond step body ih s s' hs hroom h
    obtain ⟨r, t, t', r', hinit, htest, hbody, hstep, rfl⟩ := Stmt.emit_forLoop_ok h
    obtain ⟨hr, hrests, hblock, hstepped⟩ := Stmt.forLoop_frames hv ih hs hroom hinit htest hbody hstep
    have hround := ((hr.trans_rests ((Frame.Rests.labelled r _).trans hrests)).trans hblock).trans hstepped
    have hall := (hround.trans_rests ((Frame.Rests.instruction _ (.jmp (s.labels.fresh "for").1)).trans
      (.labelled _ ((s.labels.fresh "for").1 ++ "_end")))).leave hs (by omega)
    have htotal : ((Stmt.slots (.forLoop init cond step body) : Nat) : Int) =
        ((init.map Simple.slots).getD 0 : Nat) + (Stmt.slotsOf body : Nat) +
          ((step.map Simple.slots).getD 0 : Nat) := by
      simp only [Stmt.slots]
      omega
    rw [htotal]
    exact hall
  case ret =>
    intro value s s' hs hroom h
    exact (Stmt.ret_rests hv hs.idle h).declares hs
  case block =>
    intro body ih s s' hs hroom h
    obtain ⟨t, hbody, rfl⟩ := Stmt.emit_block_ok h
    exact scope_declares ih hs hroom hbody
  case nil =>
    intro s s' hs _ h
    obtain ⟨_, rfl⟩ := Emit.pure_ok.mp h
    exact (Frame.Rests.refl s').declares hs
  case cons =>
    intro stmt rest ihstmt ihrest s s' hs hroom h
    obtain ⟨t, hstmt, hrest⟩ := Stmt.emitAll_cons_ok h
    have hslots : s.usedSlots + (stmt.slots + Stmt.slotsOf rest) ≤ s.localSlots := by
      simpa [Stmt.slotsOf] using hroom
    have hfirst := ihstmt s t hs (by omega) hstmt
    have hsecond := ihrest t s' hfirst.settled (by rw [hfirst.usedSlots, hfirst.localSlots]; omega) hrest
    simpa [Stmt.slotsOf] using hfirst.trans hsecond

theorem Stmt.block_declares (hv : sigs.Valid) {body : List Stmt} (hs : s.Settled)
    (hroom : s.usedSlots + Stmt.slotsOf body ≤ s.localSlots)
    (h : Stmt.emitAll sigs body (s.within s.scopes.enter) = .ok () t) :
    s.Declares (Stmt.slotsOf body) (t.within s.scopes) :=
  scope_declares ((Stmt.emit_declares hv).2 body) hs hroom h

theorem Stmt.branch_frames (hv : sigs.Valid) {cond : Expr} {body : List Stmt} {target : String}
    {start t' : Frame} (hs : s.Settled) (hroom : s.usedSlots + Stmt.slotsOf body ≤ s.localSlots)
    (hstart : s.Rests start) (htest : Emit.branchUnless sigs cond target start = .ok () t)
    (hbody : Stmt.emitAll sigs body (t.within t.scopes.enter) = .ok () t') :
    start.Settled ∧ s.Rests t ∧ (t.within t.scopes.enter).Settled ∧
      t.usedSlots + Stmt.slotsOf body ≤ t.localSlots ∧ s.Declares (Stmt.slotsOf body) (t'.within t.scopes) := by
  have hsettled := hs.rests hstart
  have ht := hstart.trans (Emit.branchUnless_rests hv hsettled.idle htest)
  have hroom' : t.usedSlots + Stmt.slotsOf body ≤ t.localSlots := by
    rw [ht.usedSlots, ht.localSlots]
    exact hroom
  exact ⟨hsettled, ht, (hs.rests ht).enter, hroom',
    ht.trans_declares (Stmt.block_declares hv (hs.rests ht) hroom' hbody)⟩

theorem Stmt.forLoop_rooms (hv : sigs.Valid) {init step : Option Simple} {cond : Option Expr}
    {body : List Stmt} {labels : LabelSupply} {l l' : String} {r t' r' : Frame}
    (hs : s.Settled) (hroom : s.usedSlots + (Stmt.forLoop init cond step body).slots ≤ s.localSlots)
    (hinit : init.forM (Simple.emit sigs) ((s.numbered labels).within s.scopes.enter) = .ok () r)
    (htest : (cond.forM fun cond => Emit.branchUnless sigs cond l') (r.labelled l) = .ok () t)
    (hbody : Stmt.emitAll sigs body (t.within t.scopes.enter) = .ok () t')
    (hstep : step.forM (Simple.emit sigs) (t'.within t.scopes) = .ok () r') :
    (((s.numbered labels).within s.scopes.enter).Settled ∧
      s.usedSlots + ((init.map Simple.slots).getD 0 : Nat) ≤ s.localSlots) ∧
    (r.labelled l).Settled ∧
    ((t.within t.scopes.enter).Settled ∧ t.usedSlots + Stmt.slotsOf body ≤ t.localSlots) ∧
    (t'.within t.scopes).Settled ∧ t'.usedSlots + ((step.map Simple.slots).getD 0 : Nat) ≤ t'.localSlots := by
  obtain ⟨hr, hrests, hblock, _⟩ :=
    Stmt.forLoop_frames hv ((Stmt.emit_declares hv).2 body) hs hroom hinit htest hbody hstep
  have hslots : s.usedSlots + ((init.map Simple.slots).getD 0 + (step.map Simple.slots).getD 0 +
      Stmt.slotsOf body : Nat) ≤ s.localSlots := hroom
  push_cast at hslots
  have hlabelled := hr.settled.rests (.labelled r l)
  have hused_r := hr.usedSlots
  have hlocal_r := hr.localSlots
  have hused_t : t.usedSlots = r.usedSlots := hrests.usedSlots
  have hlocal_t : t.localSlots = r.localSlots := hrests.localSlots
  have hused_b : t'.usedSlots = t.usedSlots + Stmt.slotsOf body := hblock.usedSlots
  have hlocal_b : t'.localSlots = t.localSlots := hblock.localSlots
  exact ⟨⟨(hs.rests (.numbered s labels)).enter, by omega⟩, hlabelled,
    ⟨(hlabelled.rests hrests).enter, by omega⟩, hblock.settled, by omega⟩

end WordLang
