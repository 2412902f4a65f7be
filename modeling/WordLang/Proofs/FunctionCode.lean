import WordLang.Proofs.StmtCode

/-!
# Code for functions is correct

A function is entered with its arguments in registers and the address to return to in the link register. It
pushes what it has to keep, runs its body below that, and pops everything again. What it had to keep is known
only after its body was compiled: the callee-saved registers that the body ever used.
-/

namespace WordLang

namespace Machine

variable {m m₁ : Machine} {rs : List Register}

def pushAll (m : Machine) (rs : List Register) : Machine :=
  rs.foldl push m

def popAll (m : Machine) (rs : List Register) : Machine :=
  rs.foldl pop m

private theorem reg_pushAll (m : Machine) (rs : List Register) (q : Register) :
    (m.pushAll rs).reg q = if q = .sp then m.reg .sp - rs.length else m.reg q := by
  induction rs generalizing m with
  | nil =>
    by_cases hq : q = .sp <;> simp [pushAll, hq]
  | cons r rs ih =>
    rw [pushAll, List.foldl_cons, ← pushAll, ih]
    by_cases hq : q = .sp
    · simp only [hq, if_true, reg_push, List.length_cons]
      omega
    · simp [hq]

private theorem events_pushAll (m : Machine) (rs : List Register) : (m.pushAll rs).events = m.events := by
  induction rs generalizing m with
  | nil => rfl
  | cons r rs ih => exact ih (m.push r)

private theorem mem_pushAll (m : Machine) (rs : List Register) {a : Int} (ha : m.reg .sp ≤ a) :
    (m.pushAll rs).mem a = m.mem a := by
  induction rs generalizing m with
  | nil => rfl
  | cons r rs ih =>
    have hrest := ih (m.push r) (by simp only [reg_push, if_true]; omega)
    rw [pushAll, List.foldl_cons, ← pushAll, hrest, mem_push, if_neg (by omega)]

/-- A machine after registers that another one had pushed were popped again. -/
structure Popped (m m₁ : Machine) (rs : List Register) (m₂ : Machine) : Prop where
  sp : m₂.reg .sp = m.reg .sp
  saved : ∀ r ∈ rs, m₂.reg r = m.reg r
  other : ∀ r, r ≠ .sp → r ∉ rs → m₂.reg r = m₁.reg r
  mem : m₂.mem = m₁.mem
  events : m₂.events = m₁.events

/-- Pops bring back what was pushed, if nothing has overwritten it in between. -/
theorem popAll_popped (hrs : .sp ∉ rs) (hsp : m₁.reg .sp = m.reg .sp - rs.length)
    (hmem : ∀ a, m₁.reg .sp ≤ a → m₁.mem a = (m.pushAll rs).mem a) :
    m.Popped m₁ rs (m₁.popAll rs.reverse) := by
  induction rs generalizing m with
  | nil => exact ⟨by simpa [popAll] using hsp, by simp, fun _ _ _ => rfl, rfl, rfl⟩
  | cons r rs ih =>
    obtain ⟨hr, hrs⟩ := not_or.mp (mt List.mem_cons.mpr hrs)
    rw [List.length_cons] at hsp
    have hpushed : (m.push r).reg .sp = m.reg .sp - 1 := by simp
    have hinner := ih (m := m.push r) hrs (by omega) hmem
    have hlast : m₁.popAll (r :: rs).reverse = (m₁.popAll rs.reverse).pop r := by
      simp [popAll]
    have htop : m₁.mem (m.reg .sp - 1) = m.reg r := by
      rw [hmem _ (by omega)]
      change ((m.push r).pushAll rs).mem (m.reg .sp - 1) = m.reg r
      rw [mem_pushAll _ _ (by omega), mem_push, if_pos rfl]
    have hsp' := hinner.sp.trans hpushed
    rw [hlast]
    refine ⟨?_, ?_, ?_, hinner.mem, hinner.events⟩
    · rw [reg_pop, if_pos rfl, hsp']
      omega
    · intro q hq
      have hqsp : q ≠ .sp := by
        rintro rfl
        rcases List.mem_cons.mp hq with heq | hmem
        · exact hr heq
        · exact hrs hmem
      rw [reg_pop, if_neg hqsp]
      by_cases hqr : q = r
      · rw [if_pos hqr, hinner.mem, hsp', htop, hqr]
      · have hrest : q ∈ rs := (List.mem_cons.mp hq).resolve_left hqr
        rw [if_neg hqr, hinner.saved q hrest, reg_push, if_neg hqsp]
    · intro q hqsp hq
      obtain ⟨hqr, hrest⟩ := not_or.mp (mt List.mem_cons.mpr hq)
      rw [reg_pop, if_neg hqsp, if_neg hqr, hinner.other q hqsp hrest]

end Machine

private theorem after_pushes {calls : Calls} (rs : List Register) (m : Machine) (Q : Machine → Prop) :
    After calls (rs.map .push) m Q ↔ Q (m.pushAll rs) := by
  induction rs generalizing m with
  | nil => rfl
  | cons r rs ih => exact ih (m.push r)

private theorem after_pops {calls : Calls} (rs : List Register) (m : Machine) (Q : Machine → Prop) :
    After calls (rs.map .pop) m Q ↔ Q (m.popAll rs) := by
  induction rs generalizing m with
  | nil => rfl
  | cons r rs ih => exact ih (m.pop r)

/-- A machine after the prologue of a function. -/
structure Machine.Entered (m : Machine) (saved : List Register) (slots : Int) (m₀ : Machine) : Prop where
  fp : m₀.reg .fp = m.reg .sp - (saved.length + 2)
  sp : m₀.reg .sp = m.reg .sp - (saved.length + 2) - slots
  other : ∀ r, r ≠ .fp → r ≠ .sp → m₀.reg r = m.reg r
  mem : m₀.mem = (m.pushAll (.lr :: .fp :: saved)).mem
  events : m₀.events = m.events

namespace Routine

variable {calls : Calls} {m : Machine} {saved : List Register}

private theorem prologue_after (m : Machine) (saved : List Register) {slots : Int} (hslots : 0 ≤ slots) :
    After calls (prologueFor saved slots) m (m.Entered saved slots) := by
  have hcode : prologueFor saved slots = (Register.lr :: .fp :: saved).map Instruction.push ++
      ([.mov .fp .sp] ++ if 0 < slots then [.addi .sp .sp (-slots)] else []) := by
    simp [prologueFor]
  have hreg := m.reg_pushAll (.lr :: .fp :: saved)
  have hevents := m.events_pushAll (.lr :: .fp :: saved)
  have hdepth : (m.pushAll (.lr :: .fp :: saved)).reg .sp = m.reg .sp - (saved.length + 2) := by
    rw [hreg, if_pos rfl, List.length_cons, List.length_cons]
    omega
  rw [hcode, after_append, after_pushes, after_append]
  change After calls _ ((m.pushAll (.lr :: .fp :: saved)).set .fp _) _
  by_cases hpos : 0 < slots
  · rw [if_pos hpos]
    refine ⟨?_, ?_, ?_, rfl, hevents⟩
    · simpa [Instruction.effect] using hdepth
    · simp only [Instruction.effect, Machine.reg_set, if_true, if_neg (show Register.sp ≠ .fp by decide), hdepth]
      omega
    · intro r hfp hsp
      simp [Instruction.effect, hfp, hsp, hreg]
  · rw [if_neg hpos]
    refine ⟨?_, ?_, ?_, rfl, hevents⟩
    · simpa using hdepth
    · simp only [Machine.reg_set, if_neg (show Register.sp ≠ .fp by decide), hdepth]
      omega
    · intro r hfp hsp
      simp [hfp, hsp, hreg]

/-- The epilogue of a function returns to its caller, with the registers that the prologue saved. -/
theorem epilogue_reaches {asm : Assembly} {world : World} {pc : Nat} {m m₁ : Machine}
    (hat : asm.At pc ((epilogueFor saved).map .code)) (hsp : .sp ∉ saved)
    (hfp : m₁.reg .fp = m.reg .sp - (saved.length + 2))
    (hmem : ∀ a, m₁.reg .fp ≤ a → m₁.mem a = (m.pushAll (.lr :: .fp :: saved)).mem a) :
    ∃ m', asm.Reaches world ⟨pc, m₁⟩ ⟨m.reg .lr, m'⟩ ∧
      m.Popped (m₁.set .sp (m₁.reg .fp)) (.lr :: .fp :: saved) m' := by
  have hcode : (epilogueFor saved).map Line.code =
      (Instruction.mov .sp .fp :: (Register.lr :: .fp :: saved).reverse.map .pop).map .code ++
        [.code .ret] := by
    simp [epilogueFor]
  rw [hcode] at hat
  have hpopped : m.Popped (m₁.set .sp (m₁.reg .fp)) (.lr :: .fp :: saved)
      ((m₁.set .sp (m₁.reg .fp)).popAll (Register.lr :: .fp :: saved).reverse) := by
    refine Machine.popAll_popped (by simpa using hsp) ?_ (by simpa using hmem)
    simp only [Machine.reg_set, if_true, hfp, List.length_cons]
    omega
  have hpops : After (asm.calls world)
      (Instruction.mov .sp .fp :: (Register.lr :: .fp :: saved).reverse.map .pop) m₁
      (m.Popped (m₁.set .sp (m₁.reg .fp)) (.lr :: .fp :: saved)) :=
    (after_pops _ _ _).mpr hpopped
  obtain ⟨m', hreach, hm'⟩ := Assembly.reaches_of_after hat.left hpops
  have hret := hat.right
  rw [List.length_map] at hret
  refine ⟨m', hreach.tail ?_, hm'⟩
  rw [Assembly.step_ret hret, hm'.saved .lr List.mem_cons_self]

end Routine

/-- The second frame is the first with parameters in registers. -/
structure Frame.Receives (s : Frame) (params : List (String × Register)) (t : Frame) : Prop where
  settled : t.Settled
  entries : t.entries = (params.map fun p => (p.1, Storage.register p.2)).reverse ++ s.entries
  localSlots : t.localSlots = s.localSlots
  usedSlots : t.usedSlots = s.usedSlots
  code : t.code = s.code
  returnLabel : t.returnLabel = s.returnLabel

theorem Frame.start_settled (policy : FreePolicy) (labels : LabelSupply) (body : List Stmt) :
    (Frame.start policy labels body).Settled := by
  have hfree (r : Register) : (Frame.start policy labels body).pool.holds r ≠ true := by
    rw [Pool.holds, Frame.start, RegisterSet.contains_empty]
    decide
  refine ⟨⟨fun r hr => absurd hr (hfree r), ⟨?_, List.nodup_nil⟩, ?_⟩, fun r hr => absurd hr (hfree r), ?_,
    rfl, Int.le_refl 0, Int.natCast_nonneg _, List.Pairwise.nil, ?_⟩
  · simp [Frame.start, Scopes.layers]
  · simp [Frame.start, Scopes.registers, Scopes.layers]
  · simp [Frame.start, Scopes.registers, Scopes.layers]
  · simp [Frame.start, Frame.entries, Scopes.layers]

private theorem forM_receives {params : List (String × Register)} {pos : Option Nat} {s t : Frame} {u : Unit}
    (hcaller : ∀ p ∈ params, p.2 ∈ RegisterClass.callerSaved.members) (hs : s.Settled)
    (h : (params.forM fun p => do
      Emit.reserve p.2
      Emit.declare p.1 (.register p.2) pos : Emit Unit) s = .ok u t) : s.Receives params t := by
  induction params generalizing s with
  | nil =>
    obtain ⟨_, rfl⟩ := Emit.pure_ok.mp h
    exact ⟨hs, rfl, rfl, rfl, rfl, rfl⟩
  | cons p params ih =>
    simp only [List.forM_eq_forM, List.forM_cons, Emit.bind_ok] at h
    obtain ⟨_, _, ⟨_, _, hreserve, hdeclare⟩, hrest⟩ := h
    obtain ⟨_, hfree, rfl⟩ := Emit.reserve_ok hreserve
    obtain ⟨hnew, rfl⟩ := Emit.declare_ok hdeclare
    have hfirst := hs.param (hcaller p List.mem_cons_self) hfree hnew
    have hr := ih (fun q hq => hcaller q (List.mem_cons_of_mem p hq)) hfirst hrest
    refine ⟨hr.settled, ?_, hr.localSlots, hr.usedSlots, hr.code, hr.returnLabel⟩
    rw [hr.entries, List.map_cons, List.reverse_cons, List.append_assoc]
    rfl

theorem Header.emit_receives {header : Header} {s t : Frame} (hs : s.Settled)
    (h : header.emit s = .ok () t) : s.Receives (header.params.zip Register.arguments) t := by
  refine forM_receives (fun p hp => ?_) hs h
  refine Register.arguments_callerSaved Register.arguments.length p.2 ?_
  rw [List.take_length]
  exact (List.of_mem_zip hp).2

private theorem shown_params {m : Machine} {base : Int} {params : List String} {args : List Value}
    {rs : List Register} (h : List.Forall₂ Value.Agrees args ((rs.take params.length).map m.reg)) :
    List.Forall₂ (Shown m base) ((params.zip rs).map fun p => (p.1, Storage.register p.2))
      (params.zip args) := by
  induction params generalizing args rs with
  | nil => exact .nil
  | cons param params ih =>
    cases rs with
    | nil =>
      cases h
      exact .nil
    | cons r rs =>
      cases h with
      | cons hagree hrest => exact .cons ⟨rfl, m.reg r, rfl, hagree⟩ (ih hrest)

section Calls

variable {sigs : Signatures} {asm : Assembly} {world : World} {meaning : CallMeaning} {policy : FreePolicy}
  {labels : LabelSupply} {header : Header} {body : List Stmt} {frame : Frame} {pc fuel : Nat} {m : Machine}
  {args : List Value} {result : Value} {events' : List Event}

/-- Both ways to leave a body end at the label before the epilogue. -/
theorem Site.Ends.exits {site : Site asm} {base : Int} {last inner : Frame} {c : Config} {env : Env}
    {flow : Flow} (h : site.Ends world base last inner c site.exit env flow events') :
    ∃ m₁, m₁.events = events' ∧ last.Guards base c.machine m₁ ∧
      asm.Reaches world c ⟨site.exit, m₁⟩ ∧ flow.value.Agrees (m₁.reg Register.result) := by
  obtain ⟨m₁, hevents, hguards, hend⟩ := h
  cases flow with
  | next => exact ⟨m₁, hevents, hguards, hend.1, nofun⟩
  | returned value => exact ⟨m₁, hevents, hguards, hend⟩

private theorem exists_site {t : Frame} {start : Nat} (world : World) (hn : asm.labels.Nodup)
    (hlast : t.returnLabel = none ∧ frame = t ∨
      ∃ label, t.returnLabel = some label ∧ frame = t.labelled label)
    (hcode : asm.At start frame.code.toList) :
    ∃ site : Site asm, site.start = start ∧ site.exit = site.start + t.code.size ∧ t.Fits site ∧
      ∀ m, asm.Reaches world ⟨site.exit, m⟩ ⟨(start + frame.code.size : Nat), m⟩ := by
  refine ⟨⟨start, frame.code.toList, start + t.code.size, hcode⟩, rfl, rfl, ?_⟩
  rcases hlast with ⟨hnone, rfl⟩ | ⟨label, hlabel, rfl⟩
  · refine ⟨⟨List.prefix_refl _, fun l hl => ?_⟩, fun _ => .refl⟩
    exact absurd (hnone.symm.trans hl) (by simp)
  · have hline : asm.At (start + t.code.size) [.label label] := by
      have hall := hcode
      rw [Frame.labelled_code, Array.toList_push] at hall
      simpa using hall.right
    refine ⟨⟨⟨[.label label], by simp⟩, fun l hl => ?_⟩, fun m => .single ?_⟩
    · obtain rfl := Option.some.inj (hlabel.symm.trans hl)
      exact hline.position? hn
    · rw [Assembly.step_label hline, Frame.labelled_code, Array.size_push]
      rfl

private theorem restored {base slots : Int} {m₀ m₁ m₂ : Machine}
    (hentered : m.Entered frame.pool.saved slots m₀) (hbase : m₀.reg .fp = base)
    (hguards : frame.Guards base m₀ m₁)
    (hpopped : m.Popped (m₁.set .sp (m₁.reg .fp)) (.lr :: .fp :: frame.pool.saved) m₂) :
    m.Restored m₂ := by
  refine ⟨hpopped.saved .fp (by simp), hpopped.sp, ?_, ?_⟩
  · intro r hr
    by_cases hsaved : r ∈ frame.pool.saved
    · exact hpopped.saved r (by simp [hsaved])
    · have hroles : r ≠ .lr ∧ r ≠ .fp ∧ r ≠ .sp := by
        revert hr
        cases r <;> decide
      have huntouched : frame.pool.touched.contains r = false := by
        simpa [Pool.saved, hr] using hsaved
      rw [hpopped.other r hroles.2.2 (by simp [hroles, hsaved]), Machine.reg_set, if_neg hroles.2.2,
        hguards.saved r hr huntouched, hentered.other r hroles.2.1 hroles.2.2]
  · intro a ha
    have habove : base ≤ a := by
      have hfp := hentered.fp
      omega
    rw [hpopped.mem, Machine.mem_set, hguards.mem a habove, hentered.mem, Machine.mem_pushAll _ _ ha]

/-- A function that returns in the program returns on the machine. -/
theorem Header.emitBody_returns (hv : sigs.Valid) (hruns : meaning.Runs sigs asm world)
    (hn : asm.labels.Nodup) (hemit : header.emitBody sigs body (.start policy labels body) = .ok () frame)
    (hat : asm.At pc (Routine.lines ⟨header.name, Routine.prologueFor frame.pool.saved (Stmt.slotsOf body),
      frame.code.toList, Routine.epilogueFor frame.pool.saved⟩))
    (hargs : List.Forall₂ Value.Agrees args ((Register.arguments.take header.params.length).map m.reg))
    (hrun : header.perform sigs meaning body fuel args m.events = some (result, events')) :
    ∃ m', asm.Reaches world ⟨pc, m⟩ ⟨m.reg .lr, m'⟩ ∧ result.Agrees (m'.reg Register.result) ∧
      m'.events = events' ∧ m.Restored m' := by
  obtain ⟨t, t', hparams, hbody, hlast⟩ := Header.emitBody_ok hemit
  have hr := Header.emit_receives (Frame.start_settled policy labels body) hparams
  have hpool : t'.pool = frame.pool := by
    rcases hlast with ⟨_, rfl⟩ | ⟨_, _, rfl⟩ <;> rfl
  obtain ⟨start, hstart⟩ : ∃ start : Nat, start =
      pc + 1 + (Routine.prologueFor frame.pool.saved (Stmt.slotsOf body)).length := ⟨_, rfl⟩
  obtain ⟨hentry, hprologue, hcode, hepilogue⟩ : asm.At pc [.label header.name] ∧
      asm.At (pc + 1) ((Routine.prologueFor frame.pool.saved (Stmt.slotsOf body)).map .code) ∧
      asm.At start frame.code.toList ∧
      asm.At (start + frame.code.size) ((Routine.epilogueFor frame.pool.saved).map .code) :=
    hstart ▸ hat.routine
  obtain ⟨site, hsite, hexit, hfits, hleave⟩ := exists_site world hn hlast hcode
  unfold Header.perform at hrun
  split at hrun
  case isFalse => exact (Run.failure_some.mp hrun).elim
  obtain ⟨⟨env', flow⟩, _, hexec, hpure⟩ := Run.bind_some.mp hrun
  obtain ⟨rfl, rfl⟩ := Run.pure_some.mp hpure
  obtain ⟨m₀, hreach₀, hentered⟩ := Assembly.reaches_of_after hprologue
    (Routine.prologue_after m frame.pool.saved (Int.natCast_nonneg (Stmt.slotsOf body)))
  have hshows : t.Shows (m₀.reg .fp) (header.params.zip args).reverse m₀ := by
    refine ⟨rfl, ?_, ?_⟩
    · rw [hentered.sp, hentered.fp, hr.localSlots]
      rfl
    · have hmap : (Register.arguments.take header.params.length).map m₀.reg =
          (Register.arguments.take header.params.length).map m.reg := by
        refine List.map_congr_left fun r hmem => ?_
        obtain ⟨hsp, hfp, _⟩ := Register.callerSaved_ne (Register.arguments_callerSaved _ r hmem)
        exact hentered.other r hfp hsp
      have hentries : t.entries = ((header.params.zip Register.arguments).map
          fun p => (p.1, Storage.register p.2)).reverse := by
        rw [hr.entries]
        exact List.append_nil _
      rw [hentries, List.forall₂_reverse_iff]
      exact shown_params (hmap ▸ hargs)
  have hends := (Stmt.emit_simulates hv hruns hn site (m₀.reg .fp) fuel).2 body hr.settled
    (by rw [hr.usedSlots, hr.localSlots]; simp [Frame.start]) hbody hfits hshows (hentered.events ▸ hexec)
  obtain ⟨m₁, hevents, hguards', hreach₁, hagree⟩ := (hexit ▸ hends).exits
  have hguards : frame.Guards (m₀.reg .fp) m₀ m₁ := hguards'.touch fun r hr => hpool ▸ hr
  have hmem (a : Int) (ha : m₁.reg .fp ≤ a) :
      m₁.mem a = (m.pushAll (.lr :: .fp :: frame.pool.saved)).mem a := by
    rw [hguards.mem a (hguards.fp ▸ ha), hentered.mem]
  obtain ⟨m₂, hreach₂, hpopped⟩ := Routine.epilogue_reaches (m := m) hepilogue
    (by simp [Pool.saved, RegisterClass.members]) (hguards.fp.trans hentered.fp) hmem
  rw [← hstart] at hreach₀
  have hbegin : site.at t m₀ = ⟨start, m₀⟩ := by
    rw [Site.at, hr.code, hsite]
    rfl
  refine ⟨m₂, ?_, ?_, hpopped.events.trans hevents, restored hentered rfl hguards hpopped⟩
  · have hlabel : asm.Reaches world ⟨pc, m⟩ ⟨(pc + 1 : Nat), m⟩ := .single (Assembly.step_label hentry)
    exact hlabel.trans (hreach₀.trans ((hbegin ▸ hreach₁).trans ((hleave m₁).trans hreach₂)))
  · rw [hpopped.other Register.result (by decide) (by simp [Register.result, Pool.saved, RegisterClass.members])]
    exact hagree

end Calls

end WordLang
