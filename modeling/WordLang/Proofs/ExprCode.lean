import WordLang.Proofs.Matching

/-!
# Code for expressions is correct

An expression is compiled into straight code that leaves its value in a fresh register and keeps all else.
The proof follows the expression. Operators need two facts: a register in use is kept by the code of the
other operand, and that operand finds its variables where they were. Calls need a third: no caller-saved
register is in use when the function is called, since variables were pushed and the values of operands
were put into callee-saved registers.
-/

namespace WordLang

/-- Variables and stack of the second frame are those of the first. -/
structure Frame.Stays (s s' : Frame) : Prop where
  scopes : s'.scopes = s.scopes
  localSlots : s'.localSlots = s.localSlots
  stackDepth : s'.stackDepth = s.stackDepth
  touched : ∀ q, s.pool.touched.contains q = true → s'.pool.touched.contains q = true

/-- The second frame is the first with one more register in use, of a class, and with more code. -/
structure Frame.Gains (wanted : RegisterClass) (s : Frame) (rd : Register) (s' : Frame) : Prop
    extends s.Stays s' where
  member : rd ∈ wanted.members
  fresh : s.pool.holds rd = false
  holds : ∀ q, s'.pool.holds q = (decide (q = rd) || s.pool.holds q)
  taken : s'.pool.touched.contains rd = true

/-- What a piece of code computes. `means` says which values it can give, in which memory; `out` says where
the machine has such a value afterwards. -/
def Frame.Computes {β : Type} (sigs : Signatures) (s s' : Frame)
    (means : (k : Setting sigs) → Outside k.floor → (β → Outside k.floor → Prop) → Prop)
    (out : Machine → β → Prop) : Prop :=
  ∃ code : List Instruction, s'.code.toList = s.code.toList ++ code.map Line.code ∧
    ∀ (k : Setting sigs) (m : Machine) (Q : β → Outside k.floor → Prop), s.Matches k m →
      means k (m.above k.floor) Q →
      After k.calls code m fun m' =>
        (∃ b, Q b (m'.above k.floor) ∧ out m' b) ∧ s.Keeps s' k m m'

/-- The condition under which an expression can be compiled: if it calls functions, no caller-saved register
is in use but those of variables. -/
def Frame.Ready (s : Frame) (e : Expr) : Prop :=
  e.hasCall = true → ∀ r ∈ RegisterClass.callerSaved.members, s.pool.holds r = true →
    r ∈ Scopes.registers s.scopes.layers

theorem Frame.Ready.congr {s t : Frame} {e : Expr} (h : s.Ready e) (hscopes : t.scopes = s.scopes)
    (hholds : ∀ r, t.pool.holds r = s.pool.holds r) : t.Ready e := by
  intro hcall r hr hheld
  rw [hscopes]
  exact h hcall r hr (by rwa [← hholds])

/-- An expression's code is right in every frame. -/
def Expr.Compiles (sigs : Signatures) (e : Expr) : Prop :=
  ∀ ⦃s s' : Frame⦄ ⦃wanted : RegisterClass⦄ ⦃rd : Register⦄, s.Sound → s.Ready e →
    e.emit sigs wanted s = .ok rd s' →
    s.Gains wanted rd s' ∧
      s.Computes sigs s' (fun k => e.Yields sigs k.homes.find? k.answers) fun m' v => m'.reg rd = v

variable {sigs : Signatures}

namespace Frame

variable {s s' s₁ s₂ : Frame} {wanted found : RegisterClass} {rd rs : Register}

theorem Gains.general (h : s.Gains wanted rd s') : rd ∈ Register.general :=
  RegisterClass.members_general h.member

theorem Gains.held (h : s.Gains wanted rd s') (r : Register) (hr : s.pool.holds r = true) :
    s'.pool.holds r = true := by
  rw [h.holds, hr, Bool.or_true]

theorem Gains.holds_self (h : s.Gains wanted rd s') : s'.pool.holds rd = true := by
  rw [h.holds, decide_eq_true rfl, Bool.true_or]

theorem Gains.unheld (h : s.Gains wanted rd s') {r : Register} (hr : s'.pool.holds r = false) :
    s.pool.holds r = false ∧ r ≠ rd := by
  rw [h.holds, Bool.or_eq_false_iff] at hr
  exact ⟨hr.2, of_decide_eq_false hr.1⟩

theorem Gains.sound (h : s.Gains wanted rd s') (hs : s.Sound) : s'.Sound := by
  refine ⟨?_, by rw [h.scopes]; exact hs.tidy, ?_⟩
  · intro r hr
    rw [h.holds, Bool.or_eq_true, decide_eq_true_eq] at hr
    rcases hr with rfl | hr
    · exact h.general
    · exact hs.general r hr
  · intro r hr
    rw [h.scopes] at hr
    exact h.held r (hs.bound r hr)

theorem Gains.of_take {code : Array Line} (hm : rd ∈ wanted.members) (hfree : s.pool.holds rd = false) :
    s.Gains wanted rd { s with pool := s.pool.take rd, code } :=
  ⟨⟨rfl, rfl, rfl, by simp +contextual⟩, hm, hfree, by simp, by simp⟩

theorem Stays.trans (h : s.Stays s₁) (h' : s₁.Stays s₂) : s.Stays s₂ :=
  ⟨h'.scopes.trans h.scopes, h'.localSlots.trans h.localSlots, h'.stackDepth.trans h.stackDepth,
    fun q hq => h'.touched q (h.touched q hq)⟩

theorem Matches.stays {k : Setting sigs} {m m₁ : Machine} (h : s.Matches k m) (hs : s.Sound)
    (hst : s.Stays s₁) (hk : s.Keeps s₂ k m m₁) : s₁.Matches k m₁ :=
  h.keep hs hk hst.scopes hst.localSlots hst.stackDepth

theorem Gains.stays (h : s.Gains wanted rd s₁) (hst : s₁.Stays s₂)
    (hholds : ∀ q, s₂.pool.holds q = s₁.pool.holds q) : s.Gains wanted rd s₂ :=
  ⟨h.toStays.trans hst, h.member, h.fresh, fun q => (hholds q).trans (h.holds q), hst.touched _ h.taken⟩

theorem holds_taken_freed {zero : Register} (hfree : s.pool.holds zero = false) (q : Register) :
    ((s.pool.take zero).release zero).holds q = s.pool.holds q := by
  by_cases hq : q = zero <;> simp [hq, hfree]

theorem Computes.weaken {β : Type}
    {means means' : (k : Setting sigs) → Outside k.floor → (β → Outside k.floor → Prop) → Prop}
    {out : Machine → β → Prop} (h : s.Computes sigs s' means out)
    (hmeans : ∀ k o Q, means' k o Q → means k o Q) : s.Computes sigs s' means' out := by
  obtain ⟨code, hcode, hrun⟩ := h
  exact ⟨code, hcode, fun k m Q hmatch hQ => hrun k m Q hmatch (hmeans k _ Q hQ)⟩

/-- Code after code. What comes second may use the registers that the first has taken. -/
theorem Computes.seq {β γ : Type}
    {means : (k : Setting sigs) → Outside k.floor → (β → Outside k.floor → Prop) → Prop}
    (next : (k : Setting sigs) → β → Outside k.floor → (γ → Outside k.floor → Prop) → Prop)
    {out : Machine → β → Prop} {out' : Machine → γ → Prop} (code₂ : List Instruction)
    (h : s.Computes sigs s₁ means out) (hs : s.Sound) (hst : s.Stays s₁) (hst' : s₁.Stays s₂)
    (hcode : s₂.code.toList = s₁.code.toList ++ code₂.map Line.code)
    (hnext : ∀ (k : Setting sigs) (m : Machine) (b : β) (Q : γ → Outside k.floor → Prop),
      s₁.Matches k m → out m b → next k b (m.above k.floor) Q →
      After k.calls code₂ m fun m' => (∃ c, Q c (m'.above k.floor) ∧ out' m' c) ∧ s.Keeps s₂ k m m') :
    s.Computes sigs s₂ (fun k o Q => means k o fun b o' => next k b o' Q) out' := by
  obtain ⟨code₁, hcode₁, hrun⟩ := h
  refine ⟨code₁ ++ code₂, ?_, ?_⟩
  · rw [hcode, hcode₁, List.map_append, List.append_assoc]
  · intro k m Q hmatch hmeans
    rw [after_append]
    refine After.mono k.monotone (hrun k m _ hmatch hmeans) ?_
    rintro m₁ ⟨⟨b, hb, hout⟩, hkeep⟩
    refine After.mono k.monotone (hnext k m₁ b Q (hmatch.stays hs hst hkeep) hout hb) ?_
    rintro m₂ ⟨hresult, hkeep'⟩
    exact ⟨hresult, hkeep.trans hkeep' (fun _ hr => hr) hst'.touched⟩

end Frame

@[simp] theorem Machine.above_set (m : Machine) (r : Register) (v floor : Int) :
    (m.set r v).above floor = m.above floor := rfl

theorem Expr.compiles_num (value : Word) : (Expr.num value).Compiles sigs := by
  intro s s' wanted rd hs _ h
  simp only [Expr.emit, Emit.bind_ok, Emit.instruction_ok, Emit.pure_ok] at h
  obtain ⟨r, t, halloc, _, _, rfl, rfl, rfl⟩ := h
  obtain ⟨hm, hfree, rfl⟩ := Emit.allocate_ok halloc
  refine ⟨.of_take hm hfree, [.li rd value], by simp, ?_⟩
  intro k m Q _ hQ
  refine ⟨⟨value.toInt, hQ, by simp [Instruction.effect]⟩, ?_⟩
  exact (Frame.Keeps.refl _ _ k m).set (RegisterClass.members_general hm) hfree (by simp) _

theorem Expr.compiles_var (name : String) (pos : Nat) : (Expr.var name pos).Compiles sigs := by
  intro s s' wanted rd hs _ h
  simp only [Expr.emit, Emit.bind_ok, Emit.lookup_ok, Emit.instruction_ok, Emit.pure_ok] at h
  obtain ⟨storage, _, ⟨hlookup, rfl⟩, r, t, halloc, _, _, rfl, rfl, rfl⟩ := h
  obtain ⟨hm, hfree, rfl⟩ := Emit.allocate_ok halloc
  refine ⟨.of_take hm hfree, [storage.fetch rd], by simp, ?_⟩
  rintro k m Q hmatch ⟨home, v, hhome, hread, hQ⟩
  obtain ⟨home', hfound, hholds⟩ := hmatch.located.lookup hlookup
  obtain rfl := Option.some.inj (hhome.symm.trans hfound)
  rw [after_cons, hholds.after_fetch hread]
  refine ⟨⟨v, hQ, by simp⟩, ?_⟩
  exact (Frame.Keeps.refl _ _ k m).set (RegisterClass.members_general hm) hfree (by simp) _

theorem Emit.address_ok {name : String} {pos : Nat} {wanted : RegisterClass} {i : Expr} {s s' : Frame}
    {rd : Register} (hi : i.Compiles sigs) (hs : s.Sound) (hready : s.Ready i)
    (h : Emit.address name pos wanted (i.emit sigs wanted) s = .ok rd s') :
    s.Gains wanted rd s' ∧ ∃ rs s₁ storage, rs ≠ rd ∧ s.Gains wanted rs s₁ ∧ s₁.Stays s' ∧
      s.Computes sigs s₁ (fun k => i.Yields sigs k.homes.find? k.answers) (fun m' v => m'.reg rs = v) ∧
      (s₁.scopes.layers.findSome? fun scope => scope.lookup name) = some storage ∧
      s'.code.toList = s₁.code.toList ++ [Line.code (storage.fetch rd), .code (.binary .add rd rd rs)] := by
  simp only [Emit.address, Emit.bind_ok, Emit.lookup_ok, Emit.instruction_ok, Emit.pure_ok] at h
  obtain ⟨_, _, ⟨_, rfl⟩, rs, s₁, hindex, storage, _, ⟨hlookup, rfl⟩, _, t, halloc, _, _, rfl,
    _, _, rfl, _, _, hfree, rfl, rfl⟩ := h
  obtain ⟨hg, hcomputes⟩ := hi hs hready hindex
  obtain ⟨hm, hunheld, rfl⟩ := Emit.allocate_ok halloc
  obtain ⟨_, rfl⟩ := Emit.free_ok hfree
  obtain ⟨hfresh, hne⟩ := hg.unheld hunheld
  refine ⟨⟨⟨hg.scopes, hg.localSlots, hg.stackDepth, ?_⟩, hm, hfresh, ?_, by simp⟩,
    rs, s₁, storage, hne.symm, hg, ⟨rfl, rfl, rfl, by simp +contextual⟩, hcomputes, hlookup, by simp⟩
  · intro q hq
    simp [hg.touched q hq]
  · intro q
    by_cases hq : q = rs
    · simp [hq, hne.symm, hg.fresh]
    · simp [hq, hg.holds]

theorem Expr.compiles_index (name : String) (i : Expr) (pos : Nat) (hi : i.Compiles sigs) :
    (Expr.index name i pos).Compiles sigs := by
  intro s s' wanted rd hs hready h
  simp only [Expr.emit, Emit.bind_ok, Emit.instruction_ok, Emit.pure_ok] at h
  obtain ⟨r, t, haddress, _, _, rfl, rfl, rfl⟩ := h
  obtain ⟨hgt, rs, s₁, storage, hne, hg, hst, hcomputes, hlookup, hcode⟩ :=
    Emit.address_ok hi hs (fun hc => hready hc) haddress
  have hst' : t.Stays (t.coded (.load rd rd 0)) := ⟨rfl, rfl, rfl, fun _ hq => hq⟩
  refine ⟨hgt.stays hst' fun _ => rfl, ?_⟩
  refine Frame.Computes.seq (fun k index o Q => ∃ home base v, k.homes.find? name = some home ∧
    home.read o = some base ∧ o.read (Operation.add.apply base index) = some v ∧ Q v o)
    [storage.fetch rd, .binary .add rd rd rs, .load rd rd 0] hcomputes hs hg.toStays
    (hst.trans hst') (by simp [hcode]) ?_
  rintro k m index Q hmatch hrs ⟨home, base, v, hhome, hbase, hv, hQ⟩
  obtain ⟨home', hfound, hholds⟩ := hmatch.located.lookup hlookup
  obtain rfl := Option.some.inj (hhome.symm.trans hfound)
  rw [after_cons, hholds.after_fetch hbase]
  simp only [after_cons, after_nil, Instruction.after_binary, Instruction.after_load, Machine.set_set]
  simp only [Machine.reg_set, Machine.mem_set, if_pos, hne, if_false, Int.add_zero, hrs]
  rw [(Machine.read_above hv).2]
  refine ⟨⟨v, hQ, by simp⟩, ?_⟩
  exact (Frame.Keeps.refl s (t.coded (.load rd rd 0)) k m).set hgt.general hgt.fresh hgt.taken _

private theorem neg_apply (x : Int) :
    Operation.sub.apply (0 : Word).toInt x = (UnaryOp.neg.eval (Int32.ofInt x)).toInt := by
  simp [Operation.apply, Operation.eval, UnaryOp.eval]

theorem Expr.compiles_unary (op : UnaryOp) (operand : Expr) (ho : operand.Compiles sigs) :
    (Expr.unary op operand).Compiles sigs := by
  intro s s' wanted rd hs hready h
  simp only [Expr.emit, Emit.bind_ok, Emit.pure_ok] at h
  obtain ⟨r, s₁, hoperand, _, t, hop, rfl, rfl⟩ := h
  obtain ⟨hg, hcomputes⟩ := ho hs (fun hc => hready hc) hoperand
  cases op with
  | neg =>
    simp only [Emit.unary, Emit.withZero, Emit.bind_ok, Emit.instruction_ok] at hop
    obtain ⟨zero, _, halloc, _, _, rfl, _, _, rfl, hfree⟩ := hop
    obtain ⟨hm, hunheld, rfl⟩ := Emit.allocate_ok halloc
    obtain ⟨_, rfl⟩ := Emit.free_ok hfree
    obtain ⟨hfresh, hne⟩ := hg.unheld hunheld
    have hst : s₁.Stays ((((s₁.taken zero).coded (.li zero 0)).coded (.binary .sub rd zero rd)).freed zero) :=
      ⟨rfl, rfl, rfl, by simp +contextual⟩
    refine ⟨hg.stays hst (by simpa using Frame.holds_taken_freed hunheld), ?_⟩
    refine Frame.Computes.seq (fun k a o Q => Q (UnaryOp.neg.eval (Int32.ofInt a)).toInt o)
      [.li zero 0, .binary .sub rd zero rd] hcomputes hs hg.toStays hst (by simp) ?_
    intro k m a Q hmatch hrd hQ
    simp only [after_cons, after_nil, Instruction.after_li, Instruction.after_binary, Machine.reg_set,
      if_pos, hne.symm, if_false, hrd, neg_apply]
    refine ⟨⟨_, hQ, by simp⟩, ?_⟩
    exact ((Frame.Keeps.refl _ _ k m).set (RegisterClass.members_general hm) hfresh (by simp) _).set
      hg.general hg.fresh (hst.touched _ hg.taken) _
  | not =>
    simp only [Emit.unary, Emit.instruction_ok] at hop
    subst hop
    have hst : s₁.Stays (s₁.coded (.not rd rd)) := ⟨rfl, rfl, rfl, fun _ hq => hq⟩
    refine ⟨hg.stays hst fun _ => rfl, ?_⟩
    refine Frame.Computes.seq (fun k a o Q => Q (UnaryOp.not.eval (Int32.ofInt a)).toInt o)
      [.not rd rd] hcomputes hs hg.toStays hst (by simp) ?_
    intro k m a Q hmatch hrd hQ
    simp only [after_cons, after_nil, Instruction.after_not, hrd]
    refine ⟨⟨_, hQ, by simp [UnaryOp.eval]⟩, ?_⟩
    exact (Frame.Keeps.refl _ _ k m).set hg.general hg.fresh (hst.touched _ hg.taken) _

private theorem operation_apply {op : BinaryOp} (h : op.isLogical = false) (x y : Int) :
    op.operation.apply x y = (op.eval (Int32.ofInt x) (Int32.ofInt y)).toInt := by
  cases op with
  | land | lor => exact absurd h (by decide)
  | _ => rfl

private theorem logical_apply {op : BinaryOp} (h : op.isLogical = true) (x y : Int) :
    op.operation.apply (Operation.ne.apply x (0 : Word).toInt) (Operation.ne.apply y (0 : Word).toInt) =
      (op.eval (Int32.ofInt x) (Int32.ofInt y)).toInt := by
  have hne (z : Int) : Operation.ne.apply z (0 : Word).toInt = (Word.ofBool (Int32.ofInt z ≠ 0)).toInt := by
    simp [Operation.apply, Operation.eval]
  rw [hne, hne]
  cases op with
  | land | lor =>
    by_cases hx : Int32.ofInt x = 0 <;> by_cases hy : Int32.ofInt y = 0 <;>
      simp [BinaryOp.eval, BinaryOp.operation, Operation.apply, Operation.eval, Word.ofBool, hx, hy]
  | _ => exact absurd h (by decide)

/-- The first part of an operator's code makes the operands of a logical operator 0 or 1. After it, the
instruction for the operator computes what the operator means. -/
private theorem normalize_ok {s t t' : Frame} {op : BinaryOp} {rs1 rs2 : Register} {u : Unit}
    (h : (if op.isLogical then
        Emit.withZero fun zero => do
          Emit.instruction (.binary .ne rs1 rs1 zero)
          Emit.instruction (.binary .ne rs2 rs2 zero)
      else pure ()) t = .ok u t')
    (hfree : ∀ q, t.pool.holds q = false → s.pool.holds q = false)
    (hne : rs1 ≠ rs2)
    (h1 : rs1 ∈ Register.general ∧ s.pool.holds rs1 = false ∧ t.pool.holds rs1 = true ∧
      t.pool.touched.contains rs1 = true)
    (h2 : rs2 ∈ Register.general ∧ s.pool.holds rs2 = false ∧ t.pool.holds rs2 = true ∧
      t.pool.touched.contains rs2 = true) :
    t.Stays t' ∧ (∀ q, t'.pool.holds q = t.pool.holds q) ∧
      ∃ code : List Instruction, t'.code.toList = t.code.toList ++ code.map Line.code ∧
        ∀ (k : Setting sigs) (m : Machine), After k.calls code m fun m' =>
          op.operation.apply (m'.reg rs1) (m'.reg rs2) =
            (op.eval (Int32.ofInt (m.reg rs1)) (Int32.ofInt (m.reg rs2))).toInt ∧
          m'.above k.floor = m.above k.floor ∧ s.Keeps t' k m m' := by
  by_cases hop : op.isLogical = true
  · rw [if_pos hop] at h
    simp only [Emit.withZero, Emit.bind_ok, Emit.instruction_ok] at h
    obtain ⟨zero, _, halloc, _, _, rfl, _, _, ⟨_, _, rfl, rfl⟩, hrelease⟩ := h
    obtain ⟨hm, hunheld, rfl⟩ := Emit.allocate_ok halloc
    obtain ⟨_, rfl⟩ := Emit.free_ok hrelease
    have hz1 : zero ≠ rs1 := fun he => by rw [he, h1.2.2.1] at hunheld; exact absurd hunheld (by decide)
    have hz2 : zero ≠ rs2 := fun he => by rw [he, h2.2.2.1] at hunheld; exact absurd hunheld (by decide)
    refine ⟨⟨rfl, rfl, rfl, by simp +contextual⟩, by simpa using Frame.holds_taken_freed hunheld,
      [.li zero 0, .binary .ne rs1 rs1 zero, .binary .ne rs2 rs2 zero], by simp, ?_⟩
    intro k m
    have hvalue := logical_apply hop (m.reg rs1) (m.reg rs2)
    simp only [after_cons, after_nil, Instruction.after_li, Instruction.after_binary]
    refine ⟨?_, rfl, ?_⟩
    · simpa [hz1, hz1.symm, hz2.symm, hne, hne.symm] using hvalue
    · exact (((Frame.Keeps.refl _ _ k m).set (RegisterClass.members_general hm) (hfree zero hunheld)
        (by simp) _).set h1.1 h1.2.1 (by simp [h1.2.2.2]) _).set h2.1 h2.2.1 (by simp [h2.2.2.2]) _
  · rw [if_neg hop, Emit.pure_ok] at h
    obtain ⟨_, rfl⟩ := h
    refine ⟨⟨rfl, rfl, rfl, fun _ hq => hq⟩, fun _ => rfl, [], by simp, ?_⟩
    intro k m
    exact ⟨operation_apply (by simpa using hop) _ _, rfl, .refl _ _ _ _⟩

theorem Frame.Gains.ready {s s₁ : Frame} {rhs : Expr} {wanted : RegisterClass} {rs1 : Register}
    (hg : s.Gains (wanted.surviving rhs) rs1 s₁) (h : s.Ready rhs) : s₁.Ready rhs := by
  intro hcall r hr hheld
  have hmember := hg.member
  rw [RegisterClass.surviving, if_pos hcall] at hmember
  have hne : r ≠ rs1 := by
    rintro rfl
    revert hr hmember
    cases r <;> decide
  rw [hg.holds, decide_eq_false hne, Bool.false_or] at hheld
  rw [hg.scopes]
  exact h hcall r hr hheld

/-- The end of an operator's code: the instruction, and the registers that are given back. -/
private theorem finish_ok {s s₁ s₂ t s' : Frame} {op : BinaryOp} {wanted found : RegisterClass}
    {rs1 rs2 rd : Register} (hg1 : s.Gains found rs1 s₁) (hg2 : s₁.Gains .callerSaved rs2 s₂)
    (hst : s₂.Stays t) (hholds : ∀ q, t.pool.holds q = s₂.pool.holds q)
    (h : ((if found = wanted then pure rs1 else Emit.allocate wanted) >>= fun rd => do
      Emit.instruction (.binary op.operation rd rs1 rs2)
      Emit.free rs2
      (if rd ≠ rs1 then Emit.free rs1 else pure ()) >>= fun _ => pure rd) t = .ok rd s') :
    s.Gains wanted rd s' ∧ t.Stays s' ∧
      s'.code.toList = t.code.toList ++ [Line.code (.binary op.operation rd rs1 rs2)] := by
  obtain ⟨hfree2, hne⟩ := hg1.unheld hg2.fresh
  have hall (q : Register) : t.pool.holds q = (decide (q = rs2) || (decide (q = rs1) || s.pool.holds q)) := by
    rw [hholds, hg2.holds, hg1.holds]
  have hstays : s.Stays t := (hg1.toStays.trans hg2.toStays).trans hst
  have htaken : t.pool.touched.contains rs1 = true := hst.touched _ (hg2.touched _ hg1.taken)
  by_cases hfound : found = wanted
  · subst hfound
    rw [if_pos rfl, pure_bind] at h
    simp only [Emit.bind_ok, Emit.instruction_ok] at h
    obtain ⟨_, _, rfl, _, _, hfree, _, _, hlast, hpure⟩ := h
    rw [if_neg (not_not.mpr rfl), Emit.pure_ok] at hlast
    obtain ⟨_, rfl⟩ := hlast
    obtain ⟨rfl, rfl⟩ := Emit.pure_ok.mp hpure
    obtain ⟨_, rfl⟩ := Emit.free_ok hfree
    refine ⟨⟨⟨hstays.scopes, hstays.localSlots, hstays.stackDepth, hstays.touched⟩, hg1.member, hg1.fresh,
      ?_, htaken⟩, ⟨rfl, rfl, rfl, fun _ hq => hq⟩, by simp⟩
    intro q
    by_cases hq : q = rs2
    · simp [hq, hne, hfree2]
    · simp [hq, hall]
  · rw [if_neg hfound] at h
    simp only [Emit.bind_ok, Emit.instruction_ok] at h
    obtain ⟨r, _, halloc, _, _, rfl, _, _, hfree, _, _, hlast, hpure⟩ := h
    obtain ⟨rfl, rfl⟩ := Emit.pure_ok.mp hpure
    obtain ⟨hm, hunheld, rfl⟩ := Emit.allocate_ok halloc
    obtain ⟨_, rfl⟩ := Emit.free_ok hfree
    have hnot := hall rd
    rw [hunheld, eq_comm, Bool.or_eq_false_iff, Bool.or_eq_false_iff, decide_eq_false_iff_not,
      decide_eq_false_iff_not] at hnot
    obtain ⟨hne2, hne1, hfresh⟩ : rd ≠ rs2 ∧ rd ≠ rs1 ∧ s.pool.holds rd = false := hnot
    rw [if_pos hne1] at hlast
    obtain ⟨_, rfl⟩ := Emit.free_ok hlast
    refine ⟨⟨⟨hstays.scopes, hstays.localSlots, hstays.stackDepth, ?_⟩, hm, hfresh, ?_, by simp⟩,
      ⟨rfl, rfl, rfl, by simp +contextual⟩, by simp⟩
    · intro q hq
      simp [hstays.touched q hq]
    · intro q
      by_cases hq1 : q = rs1
      · simp [hq1, hne1.symm, hg1.fresh]
      · by_cases hq2 : q = rs2
        · simp [hq2, hne2.symm, hfree2]
        · simp [hq1, hq2, hall]

theorem Expr.compiles_binary (op : BinaryOp) (lhs rhs : Expr) (hl : lhs.Compiles sigs)
    (hr : rhs.Compiles sigs) : (Expr.binary op lhs rhs).Compiles sigs := by
  intro s s' wanted rd hs hready h
  rw [Expr.emit] at h
  obtain ⟨rs1, s₁, hlhs, h⟩ := Emit.bind_ok.mp h
  obtain ⟨rs2, s₂, hrhs, h⟩ := Emit.bind_ok.mp h
  rw [Emit.binary_eq] at h
  obtain ⟨_, t, hnorm, hfinish⟩ := Emit.bind_ok.mp h
  obtain ⟨hg1, hc1⟩ := hl hs (fun hc => hready (by simp [Expr.hasCall, hc])) hlhs
  obtain ⟨hg2, codeR, hcodeR, hrunR⟩ := hr (hg1.sound hs) (hg1.ready fun hc => hready (by simp [Expr.hasCall, hc])) hrhs
  obtain ⟨hfree2, hne⟩ := hg1.unheld hg2.fresh
  have hheld (q : Register) (hq : s₂.pool.holds q = false) : s.pool.holds q = false :=
    (hg1.unheld (hg2.unheld hq).1).1
  obtain ⟨hst, hholds, codeN, hcodeN, hrunN⟩ := normalize_ok hnorm hheld hne.symm
    ⟨hg1.general, hg1.fresh, hg2.held _ hg1.holds_self, hg2.touched _ hg1.taken⟩
    ⟨hg2.general, hfree2, hg2.holds_self, hg2.taken⟩
  obtain ⟨hg, hst', hcode⟩ := finish_ok hg1 hg2 hst hholds hfinish
  refine ⟨hg, ?_⟩
  refine Frame.Computes.seq (fun k a o Q => rhs.Yields sigs k.homes.find? k.answers o fun b o' =>
    Q (op.eval (Int32.ofInt a) (Int32.ofInt b)).toInt o')
    (codeR ++ (codeN ++ [.binary op.operation rd rs1 rs2])) hc1 hs hg1.toStays
    ((hg2.toStays.trans hst).trans hst') ?_ ?_
  · simp [hcode, hcodeN, hcodeR]
  intro k m a Q hmatch hrs1 hyields
  rw [after_append]
  refine After.mono k.monotone (hrunR k m _ hmatch hyields) ?_
  rintro m₁ ⟨⟨b, hQ, hrs2⟩, hkeep⟩
  rw [after_append]
  refine After.mono k.monotone (hrunN k m₁) ?_
  rintro m₂ ⟨hvalue, habove, hkeep'⟩
  have hrs1' : m₁.reg rs1 = a := (hkeep.held rs1 hg1.holds_self).trans hrs1
  rw [hrs1', hrs2] at hvalue
  rw [after_cons, Instruction.after_binary, after_nil, hvalue]
  refine ⟨⟨_, by rw [Machine.above_set, habove]; exact hQ, by simp⟩, ?_⟩
  have hboth : s.Keeps t k m m₂ := (hkeep.widen hg1.held hst.touched).trans hkeep' (fun _ hq => hq) fun _ hq => hq
  exact (hboth.widen (fun _ hq => hq) hst'.touched).set hg.general hg.fresh hg.taken _

end WordLang
