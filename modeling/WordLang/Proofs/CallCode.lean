import WordLang.Proofs.ExprCode

/-!
# Code for calls is correct

A word that is pushed is still there when it is popped, and so are the registers that the code in between
keeps. Two parts of a call are such brackets, one inside the other for each register or argument: variables
in caller-saved registers are pushed and popped around the call, and all arguments are pushed before any of
them is popped into the register that carries it.
-/

namespace WordLang

theorem Register.callerSaved_ne {r : Register} (h : r ∈ RegisterClass.callerSaved.members) :
    r ≠ .sp ∧ r ≠ .fp ∧ r ∉ RegisterClass.calleeSaved.members := by
  revert h
  cases r <;> decide

private theorem Machine.above_push {m : Machine} {floor : Int} (h : m.reg .sp ≤ floor) (r : Register) :
    (m.push r).above floor = m.above floor := by
  have hmem : (fun a (_ : floor ≤ a) => (m.push r).mem a) = fun a _ => m.mem a := by
    funext a ha
    rw [Machine.mem_push, if_neg (by omega)]
  exact congrArg (fun mem => Outside.mk mem m.events) hmem

variable {sigs : Signatures}

namespace Frame

variable {k : Setting sigs} {s s' t u : Frame} {m m' : Machine} {r q : Register}

private theorem Keeps.bracket (h : t.Keeps u k (m.push r) m') (hbelow : m.reg .sp ≤ k.floor)
    (hq : q ∈ RegisterClass.callerSaved.members) (hback : s.pool.holds q = true → q = r) (hs : s.Sound)
    (hheld : ∀ p, s.pool.holds p = true → p ≠ q → t.pool.holds p = true)
    (htouched : ∀ p, u.pool.touched.contains p = true → s'.pool.touched.contains p = true) :
    s.Keeps s' k m (m'.pop q) ∧ (m'.pop q).reg q = m.reg r := by
  obtain ⟨hqsp, hqfp, hqsaved⟩ := Register.callerSaved_ne hq
  have hsp : m'.reg .sp = m.reg .sp - 1 := by simpa using h.sp
  have hword : m'.mem (m'.reg .sp) = m.reg r := by
    rw [h.mem _ (by simp [hsp]) (by rw [hsp]; omega), Machine.mem_push, if_pos hsp]
  have hpopped : (m'.pop q).reg q = m.reg r := by
    rw [Machine.reg_pop, if_neg hqsp, if_pos rfl, hword]
  have hother (p : Register) (hp : p ≠ .sp) (hpq : p ≠ q) (hkept : m'.reg p = (m.push r).reg p) :
      (m'.pop q).reg p = m.reg p := by
    rw [Machine.reg_pop, if_neg hp, if_neg hpq, hkept, Machine.reg_push, if_neg hp]
  refine ⟨⟨hother .fp (by decide) hqfp.symm h.fp, by simp [hsp], ?_, ?_, ?_⟩, hpopped⟩
  · intro p hp
    by_cases hpq : p = q
    · subst hpq
      rw [hpopped, hback hp]
    · exact hother p (Register.general_ne (hs.general p hp)).1 hpq (h.held p (hheld p hp hpq))
  · intro p hp hnot
    have hnot' : u.pool.touched.contains p = false := by
      cases hc : u.pool.touched.contains p with
      | false => rfl
      | true => rw [htouched p hc] at hnot; exact absurd hnot (by decide)
    have hgeneral : p ∈ Register.general := RegisterClass.members_general hp
    refine hother p (Register.general_ne hgeneral).1 ?_ (h.saved p hp hnot')
    rintro rfl
    exact hqsaved hp
  · intro a hlo hhi
    rw [Machine.mem_pop, h.mem a (by simp only [Machine.reg_push, if_true]; omega) hhi, Machine.mem_push,
      if_neg (by omega)]

private theorem located_push (h : s.Matches k m) (hs : s.Sound) (r : Register) :
    Located (m.push r) k.floor s.scopes.layers k.homes := by
  refine h.located.keep (by simp) (by simp only [Machine.reg_push, if_true]; omega) ?_ ?_
  · intro q hq
    have hne := (Register.general_ne (hs.general q (hs.bound q hq))).1
    simp [hne]
  · intro a hlo _
    rw [Machine.mem_push, if_neg (by omega)]

private theorem Matches.push (h : s.Matches k m) (hs : s.Sound) (r : Register) (hscopes : t.scopes = s.scopes)
    (hlocal : t.localSlots = s.localSlots) (hdepth : t.stackDepth = s.stackDepth + 1) :
    t.Matches k (m.push r) := by
  have hbelow := h.below
  refine ⟨by rw [hscopes]; exact located_push h hs r, ?_, ?_⟩
  · have hsp := h.sp
    simp only [Machine.reg_push, if_true, hlocal, hdepth, reduceCtorEq, if_false]
    omega
  · simp only [Machine.reg_push, if_true]
    omega

private theorem Matches.spilled (h : s.Matches k m) (hs : s.Sound) (r : Register) :
    (s.spilled r).Matches k (m.push r) := by
  have hpush := h.push (t := s.pushed r) hs r rfl rfl rfl
  have hbelow := h.below
  have hsp := h.sp
  refine ⟨?_, hpush.sp, hpush.below⟩
  refine Located.map (located_push h hs r) (fun storage => if storage = .register r then
    .stack (-(s.localSlots + (s.stackDepth + 1))) false else storage) ?_
  rintro ⟨name, storage⟩ hentry home hhome
  by_cases hr : storage = .register r
  · subst hr
    rw [if_pos rfl]
    cases home with
    | value v =>
      have hmem : r ∈ Scopes.registers s.scopes.layers :=
        Scopes.mem_registers_flatten.mpr ⟨_, hentry, rfl⟩
      have hne := (Register.general_ne (hs.general r (hs.bound r hmem))).1
      have haddress : m.reg .fp + -(s.localSlots + (s.stackDepth + 1)) = m.reg .sp - 1 := by omega
      have hv : m.reg r = v := by simpa [Storage.Holds, hne] using hhome
      simp only [Storage.Holds, Machine.reg_push, Machine.mem_push, reduceCtorEq, if_false, if_true,
        haddress]
      exact ⟨Int.le_refl _, by omega, hv⟩
    | word _ | array _ => exact hhome.elim
  · rw [if_neg hr]
    exact hhome

/-- Code between pushing variables and popping them back computes what it computes, and keeps the registers
of these variables too. -/
theorem Spilled.computes {β : Type}
    {means : (k : Setting sigs) → Outside k.floor → (β → Outside k.floor → Prop) → Prop}
    {out : Machine → β → Prop} {rs : List Register} {spills : List Spill}
    (h : s.Spilled rs spills t) (hs : s.Sound) (hrs : ∀ r ∈ rs, r ∈ RegisterClass.callerSaved.members)
    (hc : t.Computes sigs u means out)
    (hout : ∀ sp ∈ spills, ∀ m b, out m b → out (m.pop sp.register) b)
    (hcode : s'.code.toList = u.code.toList ++ spills.reverse.map fun sp => Line.code (.pop sp.register))
    (htouched : ∀ p, u.pool.touched.contains p = true → s'.pool.touched.contains p = true) :
    s.Computes sigs s' means out := by
  induction h generalizing s' with
  | nil s =>
    obtain ⟨code, hcodeU, hrun⟩ := hc
    refine ⟨code, by simpa [hcodeU] using hcode, ?_⟩
    intro k m Q hmatch hmeans
    refine After.mono k.monotone (hrun k m Q hmatch hmeans) ?_
    rintro m' ⟨hresult, hkeep⟩
    exact ⟨hresult, hkeep.widen (fun _ hp => hp) htouched⟩
  | skip _ _ ih => exact ih hs (fun r hr => hrs r (List.mem_cons_of_mem _ hr)) hc hout hcode htouched
  | @move r rs s t spills binding hr hb hrest ih =>
    have hinner : (s.spilled r).Computes sigs { u with
        code := u.code ++ (spills.reverse.map fun sp => Line.code (.pop sp.register)).toArray } means out :=
      ih (hs.spilled r) (fun q hq => hrs q (List.mem_cons_of_mem _ hq)) hc
        (fun sp hsp => hout sp (List.mem_cons_of_mem _ hsp)) (by simp) fun _ hp => hp
    obtain ⟨code, hcodeU, hrun⟩ := hinner
    refine ⟨.push r :: (code ++ [.pop r]), ?_, ?_⟩
    · rw [hcode, List.reverse_cons, List.map_append, ← List.append_assoc]
      simp only [Array.toList_append] at hcodeU
      rw [hcodeU]
      simp [Frame.spilled]
    · intro k m Q hmatch hmeans
      rw [after_cons, Instruction.after_push, after_append]
      rw [← Machine.above_push hmatch.below r] at hmeans
      refine After.mono k.monotone (hrun k (m.push r) Q (hmatch.spilled hs r) hmeans) ?_
      rintro m' ⟨⟨b, hQ, hb⟩, hkeep⟩
      rw [after_cons, Instruction.after_pop, after_nil]
      have hheld (p : Register) (hp : s.pool.holds p = true) (hne : p ≠ r) :
          (s.spilled r).pool.holds p = true := by simp [Frame.spilled, hp, hne]
      refine ⟨⟨b, hQ, hout _ List.mem_cons_self _ _ hb⟩, ?_⟩
      exact (hkeep.bracket hmatch.below (hrs r List.mem_cons_self) (fun _ => rfl) hs hheld htouched).1

theorem Spilled.unheld {rs : List Register} {spills : List Spill} (h : s.Spilled rs spills s')
    (hready : ∀ r ∈ rs, s.pool.holds r = true → r ∈ Scopes.registers s.scopes.layers) :
    ∀ r ∈ rs, s'.pool.holds r = false := by
  intro r hr
  rw [h.holds]
  cases hheld : s.pool.holds r with
  | false => rfl
  | true =>
    have hmem := h.mem_spills hr (hready r hr hheld)
    rw [Bool.true_and, decide_eq_true hmem, Bool.not_true]

/-- The second frame is the first with some more registers in use. -/
structure Lends (rs : List Register) (s s' : Frame) : Prop extends s.Stays s' where
  free : ∀ r ∈ rs, s.pool.holds r = false
  holds : ∀ q, s'.pool.holds q = (decide (q ∈ rs) || s.pool.holds q)

end Frame

/-- Arguments are passed if their values get into the registers that carry them. -/
def Frame.Passes (sigs : Signatures) (args : List Expr) (rs : List Register) (s s' : Frame) : Prop :=
  s.Lends rs s' ∧ s.Computes sigs s' (fun k => Expr.YieldsAll sigs k.homes.find? k.answers args)
    fun m' values => rs.map m'.reg = values

theorem Emit.stage_ok {e : Expr} (he : e.Compiles sigs) {s t : Frame} {u : Unit} (hs : s.Sound)
    (hready : s.Ready e) (h : Emit.stage (e.emit sigs .callerSaved) s = .ok u t) :
    (t.scopes = s.scopes ∧ t.localSlots = s.localSlots ∧ t.stackDepth = s.stackDepth + 1 ∧
      ∀ q, s.pool.touched.contains q = true → t.pool.touched.contains q = true) ∧
    (∀ q, t.pool.holds q = s.pool.holds q) ∧
    ∃ code : List Instruction, t.code.toList = s.code.toList ++ code.map Line.code ∧
      ∀ (k : Setting sigs) (m : Machine) (Q : Int → Outside k.floor → Prop), s.Matches k m →
        e.Yields sigs k.homes.find? k.answers (m.above k.floor) Q →
        After k.calls code m fun m' => ∃ m₁ rs, m' = m₁.push rs ∧ t.Matches k m' ∧
          Q (m₁.reg rs) (m'.above k.floor) ∧ s.Keeps t k m m₁ := by
  simp only [Emit.stage, Emit.bind_ok, Emit.push_ok] at h
  obtain ⟨rs, s₁, hemit, _, _, ⟨_, _, rfl⟩, hfree⟩ := h
  obtain ⟨_, rfl⟩ := Emit.free_ok hfree
  obtain ⟨hg, code, hcode, hrun⟩ := he hs hready hemit
  refine ⟨⟨hg.scopes, hg.localSlots, by simp [hg.stackDepth], by simpa using hg.touched⟩, ?_,
    code ++ [.push rs], by simp [hcode], ?_⟩
  · intro q
    by_cases hq : q = rs
    · simp [hq, hg.fresh]
    · simp [hq, hg.holds]
  · intro k m Q hmatch hyields
    rw [after_append]
    refine After.mono k.monotone (hrun k m Q hmatch hyields) ?_
    rintro m₁ ⟨⟨v, hQ, hv⟩, hkeep⟩
    have hmatch₁ := hmatch.stays hs hg.toStays hkeep
    rw [after_cons, Instruction.after_push, after_nil]
    refine ⟨m₁, rs, rfl, hmatch₁.push (hg.sound hs) rs rfl rfl rfl, ?_, ?_⟩
    · rw [hv, Machine.above_push hmatch₁.below]
      exact hQ
    · exact hkeep.widen (fun _ hq => hq) (by simp)

private theorem passes_pushed {args : List Expr} {rs : List Register} (hlength : args.length = rs.length)
    (hrs : ∀ r ∈ rs, r ∈ RegisterClass.callerSaved.members) (hargs : ∀ e ∈ args, e.Compiles sigs)
    {s s' : Frame} {u : Unit} (hs : s.Sound) (hready : ∀ e ∈ args, s.Ready e)
    (h : ((args.map (·.emit sigs .callerSaved)).forM Emit.stage >>= fun _ =>
      rs.reverse.forM fun r => do
        Emit.reserve r
        Emit.pop r) s = .ok u s') :
    s.Passes sigs args rs s' := by
  induction args generalizing s s' rs with
  | nil =>
    obtain rfl : rs = [] := List.length_eq_zero_iff.mp hlength.symm
    obtain rfl : s' = s := (Emit.pure_ok.mp h).2
    exact ⟨⟨⟨rfl, rfl, rfl, fun _ hq => hq⟩, by simp, by simp⟩, [], by simp,
      fun k m Q _ hQ => ⟨⟨[], hQ, rfl⟩, .refl _ _ _ _⟩⟩
  | cons e es ih =>
    obtain ⟨r, rs, rfl⟩ := List.exists_cons_of_length_eq_add_one hlength.symm
    simp only [List.map_cons, List.reverse_cons, List.forM_eq_forM, List.forM_append, List.forM_cons,
      List.forM_nil, Emit.bind_ok, Emit.pop_ok, Emit.pure_ok] at h
    obtain ⟨_, _, ⟨_, t, hstage, hstages⟩, _, v, hpops, _, _, ⟨_, _, hreserve, _, rfl⟩, _, rfl⟩ := h
    obtain ⟨hgeneral, hunheld, rfl⟩ := Emit.reserve_ok hreserve
    have he := hargs e List.mem_cons_self
    obtain ⟨⟨hscopes, hlocal, hdepth, htouched⟩, hholds, code, hcode, hrun⟩ :=
      Emit.stage_ok he hs (hready e List.mem_cons_self) hstage
    have ht : t.Sound := hs.congr hscopes hholds
    have hready' (e' : Expr) (he' : e' ∈ es) : t.Ready e' :=
      (hready e' (List.mem_cons_of_mem _ he')).congr hscopes hholds
    obtain ⟨hlends, code', hcode', hrun'⟩ := ih (Nat.succ.inj hlength)
      (fun q hq => hrs q (List.mem_cons_of_mem _ hq)) (fun e' he' => hargs e' (List.mem_cons_of_mem _ he'))
      ht hready' (Emit.bind_ok.mpr ⟨(), _, hstages, hpops⟩)
    obtain ⟨hnew, hfree⟩ : r ∉ rs ∧ s.pool.holds r = false := by
      simpa [hlends.holds, hholds] using hunheld
    have hcaller := hrs r List.mem_cons_self
    refine ⟨⟨⟨hlends.scopes.trans hscopes, hlends.localSlots.trans hlocal, ?_, ?_⟩, ?_, ?_⟩,
      code ++ (code' ++ [.pop r]), by simp [hcode', hcode], ?_⟩
    · simp [hlends.stackDepth, hdepth]
    · intro q hq
      simp [hlends.touched q (htouched q hq)]
    · intro q hq
      rcases List.mem_cons.mp hq with rfl | hq
      · exact hfree
      · rw [← hholds, hlends.free q hq]
    · intro q
      by_cases hq : q = r <;> simp [hq, hlends.holds, hholds]
    · intro k m Q hmatch hyields
      rw [after_append]
      refine After.mono k.monotone (hrun k m _ hmatch hyields) ?_
      rintro _ ⟨m₁, q, rfl, hmatch', hrest, hkeep⟩
      rw [after_append]
      refine After.mono k.monotone (hrun' k _ _ hmatch' hrest) ?_
      rintro m₂ ⟨⟨values, hQ, hvalues⟩, hkeep'⟩
      rw [after_cons, Instruction.after_pop, after_nil]
      have hbelow : m₁.reg .sp ≤ k.floor := by rw [hkeep.sp]; exact hmatch.below
      obtain ⟨hpop, hr⟩ : s.Keeps ((v.taken r).popped r) k m₁ (m₂.pop r) ∧ (m₂.pop r).reg r = m₁.reg q :=
        hkeep'.bracket hbelow hcaller (fun hheld => absurd hheld (by simp [hfree])) hs
          (fun p hp _ => by rw [hholds]; exact hp) (by simp +contextual)
      refine ⟨⟨m₁.reg q :: values, hQ, ?_⟩, ?_⟩
      · change (r :: rs).map (m₂.pop r).reg = m₁.reg q :: values
        rw [List.map_cons, hr, ← hvalues]
        refine congrArg _ (List.map_congr_left fun p hp => ?_)
        have hsp := (Register.callerSaved_ne (hrs p (List.mem_cons_of_mem _ hp))).1
        have hne : p ≠ r := fun he => hnew (he ▸ hp)
        simp [hsp, hne]
      · refine hkeep.trans hpop (fun _ hp => hp) fun p hp => ?_
        simp [hlends.touched p hp]

private theorem passes_one {e : Expr} (he : e.Compiles sigs) {s s' : Frame} {u : Unit} (hs : s.Sound)
    (hready : s.Ready e) (h : Emit.pass [e.emit sigs .callerSaved] s = .ok u s') :
    s.Passes sigs [e] [.r0] s' := by
  rw [Emit.pass] at h
  obtain ⟨rs, s₁, hemit, h⟩ := Emit.bind_ok.mp h
  obtain ⟨hg, hc⟩ := he hs hready hemit
  by_cases hrs : rs = .r0
  · rw [if_neg (not_not.mpr hrs)] at h
    obtain ⟨_, rfl⟩ := Emit.pure_ok.mp h
    subst hrs
    refine ⟨⟨hg.toStays, by simpa using hg.fresh, by simpa using hg.holds⟩, ?_⟩
    refine Frame.Computes.seq (fun k v o Q => Q [v] o) [] hc hs hg.toStays ⟨rfl, rfl, rfl, fun _ hq => hq⟩
      (by simp) ?_
    intro k m v Q _ hv hQ
    exact ⟨⟨[v], hQ, by simpa using hv⟩, .refl _ _ _ _⟩
  · rw [if_pos hrs] at h
    simp only [Emit.bind_ok, Emit.instruction_ok] at h
    obtain ⟨_, _, hreserve, _, _, rfl, hfree⟩ := h
    obtain ⟨hgeneral, hunheld, rfl⟩ := Emit.reserve_ok hreserve
    obtain ⟨_, rfl⟩ := Emit.free_ok hfree
    obtain ⟨hfresh, _⟩ := hg.unheld hunheld
    refine ⟨⟨⟨hg.scopes, hg.localSlots, hg.stackDepth, ?_⟩, by simpa using hfresh, ?_⟩, ?_⟩
    · intro q hq
      simp [hg.touched q hq]
    · intro q
      by_cases hq : q = rs
      · simp [hq, hrs, hg.fresh]
      · simp [hq, hg.holds]
    refine Frame.Computes.seq (fun k v o Q => Q [v] o) [.mov .r0 rs] hc hs hg.toStays
      ⟨rfl, rfl, rfl, by simp +contextual⟩ (by simp) ?_
    intro k m v Q _ hv hQ
    rw [after_cons, Instruction.after_mov, after_nil]
    refine ⟨⟨[v], hQ, by simpa using hv⟩, ?_⟩
    exact (Frame.Keeps.refl _ _ k m).set hgeneral hfresh (by simp) _

theorem Register.arguments_callerSaved (n : Nat) :
    ∀ r ∈ Register.arguments.take n, r ∈ RegisterClass.callerSaved.members := by
  intro r hr
  have hmem := List.mem_of_mem_take hr
  revert hmem
  cases r <;> decide

theorem Emit.pass_ok {args : List Expr} (hlength : args.length ≤ Register.arguments.length)
    (hargs : ∀ e ∈ args, e.Compiles sigs) {s s' : Frame} {u : Unit} (hs : s.Sound)
    (hready : ∀ e ∈ args, s.Ready e) (h : Emit.pass (Expr.emitAll sigs args) s = .ok u s') :
    s.Passes sigs args (Register.arguments.take args.length) s' := by
  rw [Expr.emitAll_eq] at h
  match args, hargs, hready with
  | [], hargs, hready =>
    exact passes_pushed rfl (by simp) hargs hs hready h
  | [e], hargs, hready =>
    exact passes_one (hargs e List.mem_cons_self) hs (hready e List.mem_cons_self) h
  | e :: e' :: es, hargs, hready =>
    have htake : (e :: e' :: es).length = (Register.arguments.take (e :: e' :: es).length).length := by
      rw [List.length_take]
      omega
    refine passes_pushed (u := u) htake (Register.arguments_callerSaved _) hargs hs hready ?_
    simpa [Emit.pass] using h

theorem Emit.forM_free_ok {rs : List Register} {s s' : Frame} {u : Unit}
    (h : rs.forM Emit.free s = .ok u s') :
    ∃ pool, s' = s.pooled pool ∧ (∀ q, pool.holds q = (!decide (q ∈ rs) && s.pool.holds q)) ∧
      pool.touched = s.pool.touched := by
  induction rs generalizing s with
  | nil =>
    obtain ⟨_, rfl⟩ := Emit.pure_ok.mp h
    exact ⟨s'.pool, rfl, by simp, rfl⟩
  | cons r rs ih =>
    obtain ⟨_, t, hfree, hrest⟩ := Emit.bind_ok.mp h
    obtain ⟨_, rfl⟩ := Emit.free_ok hfree
    obtain ⟨pool, rfl, hholds, htouched⟩ := ih hrest
    refine ⟨pool, rfl, ?_, htouched⟩
    intro q
    rw [hholds]
    by_cases hq : q = r <;> simp [hq]

/-- What `finish` adds to the code of a call that leaves the value of the call in `out`. -/
def Frame.Finishes (sigs : Signatures) (t t' : Frame) (out : Machine → Int → Prop) : Prop :=
  t.Stays t' ∧ ∃ code : List Instruction, t'.code.toList = t.code.toList ++ code.map Line.code ∧
    ∀ (k : Setting sigs) (m : Machine), After k.calls code m fun m' =>
      out m' (m.reg Register.result) ∧ m'.above k.floor = m.above k.floor ∧ t.Keeps t' k m m'

private theorem called_ok {sig : Signature} (hsig : sig ∈ sigs.entries) {args : List Expr}
    (hlength : sig.arity = args.length) (harity : args.length ≤ Register.arguments.length)
    {s s₁ t t' : Frame} (hs : s.Sound)
    (hfree : ∀ r ∈ RegisterClass.callerSaved.members, s.pool.holds r = false)
    (hpass : s.Passes sigs args (Register.arguments.take args.length) s₁)
    (hcode : t.code.toList = s₁.code.toList ++ [Line.code (.call sig.callee)]) (hst : s₁.Stays t)
    (hheld : ∀ q, s.pool.holds q = true → t.pool.holds q = true) {out : Machine → Int → Prop}
    (hfinish : t.Finishes sigs t' out) :
    s.Computes sigs t' (fun k o Q => Expr.YieldsAll sigs k.homes.find? k.answers args o fun values o' =>
      k.answers sig.callee values o' Q) out := by
  obtain ⟨hlends, hc⟩ := hpass
  obtain ⟨hst', code, hcode', hrun⟩ := hfinish
  refine Frame.Computes.seq (fun k values o Q => k.answers sig.callee values o Q)
    (.call sig.callee :: code) hc hs hlends.toStays (hst.trans hst') (by simp [hcode', hcode]) ?_
  intro k m values Q hmatch hvalues hanswers
  have hvaluesLength : values.length = sig.arity := by
    rw [← hvalues, List.length_map, List.length_take, hlength]
    omega
  have hcall := k.honest sig hsig m values Q hmatch.below (by rw [hlength]; exact hvalues) hvaluesLength
    hanswers
  rw [after_cons]
  refine k.monotone hcall ?_
  rintro m₁ ⟨hQ, hreturned⟩
  refine After.mono k.monotone (hrun k m₁) ?_
  rintro m₂ ⟨hout, habove, hkeep⟩
  refine ⟨⟨_, by rw [habove]; exact hQ, hout⟩, ?_⟩
  have hsaved (q : Register) (hq : s.pool.holds q = true) : q ∈ RegisterClass.calleeSaved.members := by
    rcases List.mem_append.mp (hs.general q hq) with hcaller | hcallee
    · exact absurd hq (by simp [hfree q hcaller])
    · exact hcallee
  have hkeep₁ : s.Keeps t k m m₁ := ⟨hreturned.fp, hreturned.sp,
    fun q hq => hreturned.saved q (hsaved q hq), fun q hq _ => hreturned.saved q hq, hreturned.mem⟩
  exact hkeep₁.trans hkeep hheld hst'.touched

/-- The frames of a call: after variables were pushed, after the arguments were passed, and around `finish`,
where the registers in use are again those from before the call. -/
theorem Emit.call_frames {α : Type} (harity : ∀ sig ∈ sigs.entries, sig.arity ≤ Register.arguments.length)
    {name : String} {args : List Expr} {pos : Nat} (hargs : ∀ e ∈ args, e.Compiles sigs) {finish : Emit α}
    {a : α} {s s' : Frame} (hs : s.Sound)
    (hready : ∀ r ∈ RegisterClass.callerSaved.members, s.pool.holds r = true →
      r ∈ Scopes.registers s.scopes.layers)
    (h : Emit.call sigs name pos (Expr.emitAll sigs args) finish s = .ok a s') :
    ∃ sig ∈ sigs.entries, ∃ spills s₁ s₂ pool t',
      (sigs.find? name = some sig ∧ sig.arity = args.length) ∧
      (Emit.spill s = .ok spills s₁ ∧ s.Spilled RegisterClass.callerSaved.members spills s₁) ∧
      (Emit.pass (Expr.emitAll sigs args) s₁ = .ok () s₂ ∧
        s₁.Passes sigs args (Register.arguments.take args.length) s₂) ∧
      finish ((s₂.coded (.call sig.callee)).pooled pool) = .ok a t' ∧
      (∀ q, pool.holds q = s.pool.holds q) ∧
      (∀ q, s₂.pool.touched.contains q = true → pool.touched.contains q = true) ∧
      (t'.scopes = s₂.scopes → s' = { t' with
        scopes := s.scopes
        stackDepth := t'.stackDepth - spills.length
        code := t'.code ++ (spills.reverse.map fun sp => Line.code (.pop sp.register)).toArray }) := by
  obtain ⟨sig, hsig, ⟨hfind, hlength⟩, h⟩ := Emit.call_ok h
  have hemitAll : (Expr.emitAll sigs args).length = args.length := by rw [Expr.emitAll_eq, List.length_map]
  rw [hemitAll] at h hlength
  simp only [Emit.bind_ok, Emit.instruction_ok, Emit.pure_ok] at h
  obtain ⟨spills, s₁, hspill, _, s₂, hpass, _, _, rfl, _, s₃, hfrees, _, s₄, hreclaim, _, t', hfinish,
    _, _, hrestore, rfl, rfl⟩ := h
  have hspilled := Emit.spill_ok hs hspill
  have hfree := hspilled.unheld hready
  obtain ⟨pool₃, rfl, hholds₃, htouched₃⟩ := Emit.forM_free_ok hfrees
  obtain ⟨pool₄, rfl, _, hholds₄, htouched₄⟩ := Emit.reclaim_ok hreclaim
  have hpasses := Emit.pass_ok (hlength ▸ harity sig hsig) hargs (hspilled.sound hs)
    (fun e _ _ r hr hheld => absurd hheld (by simp [hfree r hr])) hpass
  have hlends := hpasses.1
  have harguments (q : Register) (hq : s₁.pool.holds q = true) :
      q ∉ Register.arguments.take args.length := by
    intro hmem
    rw [hfree q (Register.arguments_callerSaved _ q hmem)] at hq
    exact absurd hq (by decide)
  refine ⟨sig, hsig, spills, s₁, s₂, pool₄, t', ⟨hfind, hlength⟩, ⟨hspill, hspilled⟩, ⟨hpass, hpasses⟩, hfinish,
    ?_, ?_, ?_⟩
  · intro q
    rw [hholds₄]
    by_cases hq : q ∈ spills.map Spill.register
    · obtain ⟨sp, hsp, rfl⟩ := List.mem_map.mp hq
      rw [decide_eq_true hq, Bool.true_or, hspilled.spilled_held sp hsp]
    · have hsame := hspilled.holds q
      rw [decide_eq_false hq, Bool.not_false, Bool.and_true] at hsame
      rw [decide_eq_false hq, Bool.false_or, Frame.pooled_pool, hholds₃, Frame.coded_pool, hlends.holds,
        ← hsame]
      cases hheld : s₁.pool.holds q with
      | false => by_cases hmem : q ∈ Register.arguments.take args.length <;> simp [hmem]
      | true => simp [harguments q hheld]
  · intro q hq
    refine htouched₄ q ?_
    rw [Frame.pooled_pool, htouched₃]
    exact hq
  · intro hscopes
    exact hspilled.restore_ok hs (hscopes.trans hlends.scopes) hrestore

/-- A whole call. Where `finish` runs, the registers in use are again those from before the call. -/
theorem Emit.call_computes {α : Type} (harity : ∀ sig ∈ sigs.entries, sig.arity ≤ Register.arguments.length)
    {name : String} {args : List Expr} {pos : Nat} (hargs : ∀ e ∈ args, e.Compiles sigs) {finish : Emit α}
    {a : α} {s s' : Frame} (hs : s.Sound)
    (hready : ∀ r ∈ RegisterClass.callerSaved.members, s.pool.holds r = true →
      r ∈ Scopes.registers s.scopes.layers)
    (h : Emit.call sigs name pos (Expr.emitAll sigs args) finish s = .ok a s') :
    ∃ t t', finish t = .ok a t' ∧ (∀ q, t.pool.holds q = s.pool.holds q) ∧
      ∀ out : Machine → Int → Prop, t.Finishes sigs t' out →
        (∀ r, s.pool.holds r = true → ∀ m v, out m v → out (m.pop r) v) →
        s'.pool = t'.pool ∧ s.Stays s' ∧ s.Computes sigs s'
          (fun k => (Expr.call name args pos).Yields sigs k.homes.find? k.answers) out := by
  obtain ⟨sig, hsig, spills, s₁, s₂, pool, s₅, ⟨hfind, hlength⟩, ⟨_, hspilled⟩, ⟨_, hpasses⟩, hfinish, hholds,
    htouched₂, hrestored⟩ := Emit.call_frames harity hargs hs hready h
  have hlends := hpasses.1
  have hst₂ : s₂.Stays ((s₂.coded (.call sig.callee)).pooled pool) := ⟨rfl, rfl, rfl, htouched₂⟩
  refine ⟨_, s₅, hfinish, hholds, ?_⟩
  intro out hfin hout
  obtain ⟨hlocal, hdepth, htouched, _⟩ := hspilled.frame
  obtain rfl := hrestored hfin.1.scopes
  refine ⟨rfl, ⟨rfl, ?_, ?_, ?_⟩, ?_⟩
  · exact hfin.1.localSlots.trans (hlends.localSlots.trans hlocal)
  · have hdepth₅ := hfin.1.stackDepth
    have hdepth₂ := hlends.stackDepth
    simp only [Frame.pooled_stackDepth, Frame.coded_stackDepth] at hdepth₅ ⊢
    omega
  · intro q hq
    exact hfin.1.touched q (htouched₂ q (hlends.touched q (by rwa [htouched])))
  · have hheld (q : Register) (hq : s₁.pool.holds q = true) : pool.holds q = true := by
      rw [hspilled.holds, Bool.and_eq_true] at hq
      rw [hholds, hq.1]
    have hcomputes := called_ok hsig hlength (hlength ▸ harity sig hsig) (hspilled.sound hs)
      (hspilled.unheld hready) hpasses (by simp) hst₂ hheld hfin
    refine Frame.Computes.weaken (hspilled.computes hs (fun r hr => hr) hcomputes
      (fun sp hsp => hout _ (hspilled.spilled_held sp hsp)) (by simp) fun _ hq => hq) ?_
    rintro k o Q ⟨sig', hfind', hyields⟩
    obtain rfl := Option.some.inj (hfind.symm.trans hfind')
    exact hyields

theorem Emit.receive_ok {wanted : RegisterClass} {rd : Register} {t t' : Frame}
    (h : Emit.receive wanted t = .ok rd t') :
    t.Gains wanted rd t' ∧ t.Finishes sigs t' fun m v => m.reg rd = v := by
  simp only [Emit.receive, Emit.get_bind_ok] at h
  split at h
  · rename_i hfree
    simp only [Emit.bind_ok, Emit.pure_ok] at h
    obtain ⟨_, _, hreserve, rfl, rfl⟩ := h
    obtain ⟨_, hunheld, rfl⟩ := Emit.reserve_ok hreserve
    have hg : t.Gains wanted Register.result (t.taken Register.result) :=
      .of_take (by rw [hfree.1]; decide) hunheld
    refine ⟨hg, hg.toStays, [], by simp, ?_⟩
    intro k m
    exact ⟨rfl, rfl, .refl _ _ _ _⟩
  · simp only [Emit.bind_ok, Emit.instruction_ok, Emit.pure_ok] at h
    obtain ⟨r, _, halloc, _, _, rfl, rfl, rfl⟩ := h
    obtain ⟨hm, hunheld, rfl⟩ := Emit.allocate_ok halloc
    have hg : t.Gains wanted rd ((t.taken rd).coded (.mov rd Register.result)) := .of_take hm hunheld
    refine ⟨hg, hg.toStays, [.mov rd Register.result], by simp, ?_⟩
    intro k m
    rw [after_cons, Instruction.after_mov, after_nil]
    exact ⟨by simp, rfl, (Frame.Keeps.refl _ _ k m).set hg.general hunheld hg.taken _⟩

private theorem Expr.compiles_call (harity : ∀ sig ∈ sigs.entries, sig.arity ≤ Register.arguments.length)
    (name : String) (args : List Expr) (pos : Nat) (hargs : ∀ e ∈ args, e.Compiles sigs) :
    (Expr.call name args pos).Compiles sigs := by
  intro s s' wanted rd hs hready h
  rw [Expr.emit] at h
  obtain ⟨t, t', hfinish, hholds, hrest⟩ := Emit.call_computes harity hargs hs (hready rfl) h
  obtain ⟨hg, hfin⟩ : t.Gains wanted rd t' ∧ t.Finishes sigs t' fun m v => m.reg rd = v :=
    Emit.receive_ok hfinish
  have hfresh : s.pool.holds rd = false := by rw [← hholds]; exact hg.fresh
  have hpop (r : Register) (hr : s.pool.holds r = true) (m : Machine) (v : Int) (hv : m.reg rd = v) :
      (m.pop r).reg rd = v := by
    have hne : rd ≠ r := fun he => by rw [he, hr] at hfresh; exact absurd hfresh (by decide)
    simpa [hne, (Register.general_ne hg.general).1] using hv
  obtain ⟨hpool, hst, hc⟩ := hrest _ hfin hpop
  refine ⟨⟨hst, hg.member, hfresh, ?_, by rw [hpool]; exact hg.taken⟩, hc⟩
  intro q
  rw [hpool, hg.holds, hholds]

/-- The code of every expression is right. -/
theorem Expr.compiles (harity : ∀ sig ∈ sigs.entries, sig.arity ≤ Register.arguments.length) (e : Expr) :
    e.Compiles sigs := by
  induction e using Expr.induction with
  | num value => exact Expr.compiles_num value
  | var name pos => exact Expr.compiles_var name pos
  | index name i pos ih => exact Expr.compiles_index name i pos ih
  | call name args pos ih => exact Expr.compiles_call harity name args pos ih
  | unary op operand ih => exact Expr.compiles_unary op operand ih
  | binary op lhs rhs ihl ihr => exact Expr.compiles_binary op lhs rhs ihl ihr

end WordLang
