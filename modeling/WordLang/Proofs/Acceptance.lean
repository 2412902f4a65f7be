import Mathlib.Data.List.Nodup
import WordLang.Proofs.Counters
import WordLang.Proofs.FunctionCode
import WordLang.Proofs.Verdict

/-!
# Compilation accepts the well-formed units

The checks of the language are made while code is emitted, each where a name is met. Together they are the
static rules: a unit that compiles is well formed, and a well-formed one compiles unless registers run out or a
counter overflows, which does not happen to units that fit in the counters.
The scopes of the frame show at every point which variables the rules have declared there, since variables
that are pushed around a call stay declared and blocks give the scopes back as they were.
-/

namespace WordLang

variable {sigs : Signatures} {s s' t : Frame} {u : Unit}

namespace Emit

variable {β : Type} {q : Prop}

private theorem Judges.declare {name : String} {storage : Storage} {pos : Nat} {f : Unit → Emit β}
    (h : s.scopes.inner.lookup name = none →
      (f ()).Judges (s.within ⟨(name, storage) :: s.scopes.inner, s.scopes.outer⟩) q) :
    (Emit.declare name storage (some pos) >>= f).Judges s
      (s.scopes.declared.inner.lookup name = none ∧ q) := by
  have hshape : s.scopes.declared.inner.lookup name = (s.scopes.inner.lookup name).map Storage.isArray :=
    Scopes.lookup_shape _ _
  rw [hshape]
  refine Judges.bind ?_ ?_
  · refine Judges.get ?_
    cases hfound : s.scopes.inner.lookup name with
    | none =>
      simp only [Scopes.declare, hfound, Option.isSome_none, Bool.false_eq_true, if_false]
      exact .of_ok (a := ()) (modify_ok.mpr rfl) rfl
    | some storage =>
      simp only [Scopes.declare, hfound, Option.isSome_some, if_true]
      exact Judges.throw ⟨by simp, rfl⟩
  · intro _ t hrun
    obtain ⟨hnew, rfl⟩ := declare_ok hrun
    exact h hnew

private theorem declare_judges {name : String} {storage : Storage} {pos : Nat} :
    (declare name storage (some pos)).Judges s (s.scopes.declared.inner.lookup name = none) := by
  rw [← bind_pure (declare name storage (some pos))]
  exact (Judges.declare (q := True) fun _ => .pure trivial).congr (and_true _).to_iff

private theorem Judges.inScope {step : Emit Unit} {p : Prop} (h : step.Judges (s.within s.scopes.enter) p) :
    (Emit.inScope step).Judges s p := by
  refine Judges.get (Judges.step (a := ()) (modify_ok.mpr rfl) (h.before ?_))
  intro _ t _
  exact .of_ok (a := ()) (modify_ok.mpr rfl) trivial

private theorem branchUnless_judges (hv : sigs.Valid) (cond : Expr) (target : String) (hs : s.Settled) :
    (branchUnless sigs cond target).Judges s (cond.WellFormed sigs.arity? s.scopes.declared) := by
  refine (cond.judged hv hs.sound (hs.ready cond)).before ?_
  intro rs t hcond
  obtain ⟨hg, _⟩ := Expr.emit_gains hv hs.idle hcond
  exact .step instruction_run (.of_ok (free_run hg.general hg.holds_self) trivial)

private theorem assign_judges (hv : sigs.Valid) (target : Place) (value : Expr) (hs : s.Settled) :
    (assign sigs target value).Judges s
      ((Simple.assign target value).WellFormed sigs.arity? s.scopes.declared) := by
  cases target with
  | var name pos =>
    have hkind : ∀ storage, (s.scopes.layers.findSome? fun scope => scope.lookup name) = some storage →
        s.scopes.declared.find? name = some storage.isArray := by
      intro storage hfound
      rw [Scopes.find?_declared, hfound, Option.map_some]
    suffices hall : (assign sigs (.var name pos) value).Judges s
        ((s.scopes.declared.find? name).isSome = true ∧ value.WellFormed sigs.arity? s.scopes.declared ∧
          s.scopes.declared.find? name = some false) by
      refine hall.congr ?_
      simp only [Simple.WellFormed]
      constructor
      · rintro ⟨_, hvalue, hplain⟩
        exact ⟨hplain, hvalue⟩
      · rintro ⟨hplain, hvalue⟩
        exact ⟨by rw [hplain]; rfl, hvalue, hplain⟩
    refine Judges.lookup ?_
    intro storage hfound
    refine (value.judged hv hs.sound (hs.ready value)).bind ?_
    intro rs t hvalue
    obtain ⟨hg, _⟩ := Expr.emit_gains hv hs.idle hvalue
    have hagain := hfound
    rw [← hg.scopes] at hagain
    refine .step (lookup_ok.mpr ⟨hagain, rfl⟩) ?_
    rw [hkind storage hfound]
    cases storage with
    | register r =>
      refine .step instruction_run (.of_ok (free_run hg.general ?_) rfl)
      exact hg.holds_self
    | stack offset array =>
      cases array with
      | true => exact Judges.throw_bind ⟨by simp [Storage.isArray], rfl⟩
      | false =>
        refine .step instruction_run (.of_ok (free_run hg.general ?_) rfl)
        exact hg.holds_self
  | element name index pos =>
    refine ((address_judges (index.judged hv) (index.compiles hv.arity) hs.sound (hs.ready index)).bind
      ?_).congr and_assoc
    intro element s₁ haddress
    have hg1 := (address_ok (index.compiles hv.arity) hs.sound (hs.ready index) haddress).1
    have hs₁ := hg1.sound hs.sound
    have hready := hg1.ready (hs.ready value)
    rw [← hg1.scopes]
    refine (value.judged hv hs₁ hready).before ?_
    intro rs s₂ hvalue
    have hg2 := (value.compiles hv.arity hs₁ hready hvalue).1
    have hne : element ≠ rs := (hg1.unheld hg2.fresh).2.symm
    refine .step instruction_run (.step (free_run hg2.general hg2.holds_self) ?_)
    refine .of_ok (free_run hg1.general ?_) trivial
    simp [hne, hg2.held element hg1.holds_self]

end Emit

/-! ## Statements -/

private theorem Simple.emit_judges (hv : sigs.Valid) (stmt : Simple) (hs : s.Settled) :
    (stmt.emit sigs).Judges s (stmt.WellFormed sigs.arity? s.scopes.declared) := by
  match stmt with
  | .var name none pos =>
    refine Emit.claim_judges.after fun offset t hclaim => ?_
    obtain ⟨_, rfl, rfl⟩ := Emit.claim_ok.mp hclaim
    refine Emit.declare_judges.congr ?_
    simp [Simple.WellFormed]
  | .var name (some value) pos =>
    have hsound : (s.claimed 1).Sound := hs.sound.congr rfl fun _ => rfl
    have hready : (s.claimed 1).Ready value := (hs.ready value).congr rfl fun _ => rfl
    have hrule : value.WellFormed sigs.arity? s.scopes.declared ∧ s.scopes.declared.inner.lookup name = none ↔
        (Simple.var name (some value) pos).WellFormed sigs.arity? s.scopes.declared := by
      simp [Simple.WellFormed]
    refine Emit.claim_judges.after fun offset t hclaim => Emit.Judges.congr ?_ hrule
    obtain ⟨_, rfl, rfl⟩ := Emit.claim_ok.mp hclaim
    refine (value.judged hv hsound hready).bind ?_
    intro rs t hvalue
    have hg := (value.compiles hv.arity hsound hready hvalue).1
    refine .step Emit.instruction_run (.step (Emit.free_run hg.general hg.holds_self) ?_)
    have hscopes : t.scopes = s.scopes := hg.scopes
    rw [← hscopes]
    exact Emit.declare_judges
  | .array name length pos =>
    refine Emit.claim_judges.after fun offset t hclaim => ?_
    obtain ⟨_, rfl, rfl⟩ := Emit.claim_ok.mp hclaim
    exact Emit.declare_judges
  | .assign target value => exact Emit.assign_judges hv target value hs
  | .expr (.call name args pos) =>
    refine Emit.call_judges hv (fun e _ => e.judged hv) hs.sound (fun r _ hr => hs.held r hr)
      (fun _ => .pure trivial) ?_
    intro t t' _ hrun
    rw [(Emit.pure_ok.mp hrun).2]
  | .expr (.num _) | .expr (.var _ _) | .expr (.index _ _ _) | .expr (.unary _ _)
  | .expr (.binary _ _ _) =>
    refine (Expr.judged hv _ hs.sound (hs.ready _)).before ?_
    intro rs t hvalue
    obtain ⟨hg, _⟩ := Expr.emit_gains hv hs.idle hvalue
    exact .of_ok (Emit.free_run hg.general hg.holds_self) trivial

private theorem Simple.emit_declared (hv : sigs.Valid) (stmt : Simple) (hs : s.Settled)
    (h : stmt.emit sigs s = .ok u s') : s'.scopes.declared = s.scopes.declared.after stmt.declared? := by
  match stmt with
  | .var name none pos =>
    obtain ⟨_, rfl⟩ := Simple.emit_var_none_ok h
    rfl
  | .var name (some value) pos =>
    obtain ⟨rs, t, hvalue, _, rfl⟩ := Simple.emit_var_some_ok h
    have hsound : (s.claimed 1).Sound := hs.sound.congr rfl fun _ => rfl
    have hready : (s.claimed 1).Ready value := (hs.ready value).congr rfl fun _ => rfl
    have hscopes : t.scopes = s.scopes := (value.compiles hv.arity hsound hready hvalue).1.scopes
    simp only [Frame.within_scopes, hscopes]
    rfl
  | .array name length pos =>
    obtain ⟨_, rfl⟩ := Simple.emit_array_ok h
    rfl
  | .assign target value =>
    rw [(Emit.assign_rests hv hs.idle h).scopes]
    rfl
  | .expr (.call name args pos) =>
    rw [(Emit.call_discards hv hs.idle h).1.scopes]
    rfl
  | .expr (.num _) | .expr (.var _ _) | .expr (.index _ _ _) | .expr (.unary _ _)
  | .expr (.binary _ _ _) =>
    obtain ⟨rs, t, hvalue, hfree⟩ := Emit.bind_ok.mp h
    obtain ⟨_, rfl⟩ := Emit.free_ok hfree
    rw [Frame.freed_scopes, (Expr.emit_gains hv hs.idle hvalue).1.scopes]
    rfl

private theorem Simple.forM_judges (hv : sigs.Valid) (stmt : Option Simple) (hs : s.Settled) :
    (stmt.forM (Simple.emit sigs)).Judges s
      (∀ simple ∈ stmt, simple.WellFormed sigs.arity? s.scopes.declared) := by
  cases stmt with
  | none => exact .pure (by simp)
  | some stmt => exact (stmt.emit_judges hv hs).congr (by simp)

private theorem Simple.forM_declared (hv : sigs.Valid) (stmt : Option Simple) (hs : s.Settled)
    (h : stmt.forM (Simple.emit sigs) s = .ok u s') :
    s'.scopes.declared = s.scopes.declared.after (stmt.bind Simple.declared?) := by
  cases stmt with
  | none =>
    obtain ⟨_, rfl⟩ := Emit.pure_ok.mp h
    rfl
  | some stmt => exact stmt.emit_declared hv hs h

private theorem Emit.forM_branchUnless_judges (hv : sigs.Valid) (cond : Option Expr) (target : String)
    (hs : s.Settled) : (cond.forM fun cond => Emit.branchUnless sigs cond target).Judges s
      (∀ test ∈ cond, test.WellFormed sigs.arity? s.scopes.declared) := by
  cases cond with
  | none => exact .pure (by simp)
  | some cond => exact (Emit.branchUnless_judges hv cond target hs).congr (by simp)

private theorem Emit.returnLabel_succeeds : Emit.returnLabel.Succeeds s := by
  refine Emit.Succeeds.get ?_
  cases s.returnLabel with
  | some label => exact ⟨label, s, rfl⟩
  | none => exact ⟨_, _, rfl⟩

private theorem Stmt.emit_declared (hv : sigs.Valid) (stmt : Stmt) (hs : s.Settled)
    (h : stmt.emit sigs s = .ok () s') : s'.scopes.declared = s.scopes.declared.after stmt.declared? := by
  cases stmt with
  | simple stmt => exact stmt.emit_declared hv hs h
  | ifThen cond body =>
    obtain ⟨t, t', htest, _, rfl⟩ := Stmt.emit_ifThen_ok h
    have ht := Emit.branchUnless_rests hv (hs.rests (.numbered s _)).idle htest
    exact congrArg Scopes.declared ht.scopes
  | ifElse cond body other =>
    obtain ⟨t, t', r', htest, _, _, rfl⟩ := Stmt.emit_ifElse_ok h
    have ht := Emit.branchUnless_rests hv (hs.rests (.numbered s _)).idle htest
    exact congrArg Scopes.declared ht.scopes
  | whileLoop cond body =>
    obtain ⟨t, t', htest, _, rfl⟩ := Stmt.emit_whileLoop_ok h
    have hhead := (Frame.Rests.numbered s (s.labels.fresh "while").2).trans
      (.labelled _ (s.labels.fresh "while").1)
    have ht := Emit.branchUnless_rests hv (hs.rests hhead).idle htest
    exact congrArg Scopes.declared ht.scopes
  | forLoop init cond step body =>
    obtain ⟨r, t, t', r', _, _, _, _, rfl⟩ := Stmt.emit_forLoop_ok h
    rfl
  | ret value => exact congrArg Scopes.declared (Stmt.ret_rests hv hs.idle h).scopes
  | block body =>
    obtain ⟨t, _, rfl⟩ := Stmt.emit_block_ok h
    rfl

private theorem scope_judges {body : List Stmt}
    (ih : ∀ s : Frame, s.Settled → s.usedSlots + Stmt.slotsOf body ≤ s.localSlots →
      (Stmt.emitAll sigs body).Judges s (Stmt.allWellFormed sigs.arity? s.scopes.declared body))
    (hs : s.Settled) (hroom : s.usedSlots + Stmt.slotsOf body ≤ s.localSlots) :
    (Emit.inScope (Stmt.emitAll sigs body)).Judges s
      (Stmt.allWellFormed sigs.arity? s.scopes.declared.enter body) :=
  Emit.Judges.inScope (ih _ hs.enter hroom)

private theorem Stmt.forLoop_judges (hv : sigs.Valid) {init step : Option Simple} {cond : Option Expr}
    {body : List Stmt}
    (ih : ∀ s : Frame, s.Settled → s.usedSlots + Stmt.slotsOf body ≤ s.localSlots →
      (Stmt.emitAll sigs body).Judges s (Stmt.allWellFormed sigs.arity? s.scopes.declared body))
    (hs : s.Settled) (hroom : s.usedSlots + (Stmt.forLoop init cond step body).slots ≤ s.localSlots) :
    ((Stmt.forLoop init cond step body).emit sigs).Judges s
      ((Stmt.forLoop init cond step body).WellFormed sigs.arity? s.scopes.declared) := by
  have hslots : s.usedSlots + ((init.map Simple.slots).getD 0 + (step.map Simple.slots).getD 0 +
      Stmt.slotsOf body : Nat) ≤ s.localSlots := hroom
  push_cast at hslots
  have hstart := (hs.rests (.numbered s (s.labels.fresh "for").2)).enter
  rw [Stmt.emit]
  refine .step (Emit.freshLabel_ok.mpr ⟨rfl, rfl⟩) (Emit.Judges.inScope ?_)
  refine (Simple.forM_judges hv init hstart).bind ?_
  intro _ r hinit
  have hr := Simple.forM_declares hv init hstart
    (by simp only [Frame.within_usedSlots, Frame.within_localSlots, Frame.numbered_usedSlots,
      Frame.numbered_localSlots]; omega) hinit
  have hdeclared : r.scopes.declared = s.scopes.declared.afterStart init :=
    Simple.forM_declared hv init hstart hinit
  have hlabelled := hr.settled.rests (.labelled r (s.labels.fresh "for").1)
  rw [← hdeclared]
  refine .step Emit.block_run ((Emit.forM_branchUnless_judges hv cond _ hlabelled).bind ?_)
  intro _ t htest
  have ht := Emit.forM_branchUnless_rests hv hlabelled.idle htest
  have hused_r : r.usedSlots = s.usedSlots + ((init.map Simple.slots).getD 0 : Nat) := hr.usedSlots
  have hlocal_r : r.localSlots = s.localSlots := hr.localSlots
  have hused_t : t.usedSlots = r.usedSlots := ht.usedSlots
  have hlocal_t : t.localSlots = r.localSlots := ht.localSlots
  have hscopes : t.scopes = r.scopes := ht.scopes
  have hroom' : t.usedSlots + Stmt.slotsOf body ≤ t.localSlots := by omega
  rw [← hscopes]
  refine (scope_judges ih (hlabelled.rests ht) hroom').bind ?_
  intro _ t₁ hscope
  obtain ⟨t', hbody, rfl⟩ := Emit.inScope_ok hscope
  have hblock := Stmt.block_declares hv (hlabelled.rests ht) hroom' hbody
  exact (Simple.forM_judges hv step hblock.settled).before fun _ t' _ =>
    .step Emit.instruction_run (.of_ok Emit.block_run trivial)

/-- The code of a statement judges it, given enough words for what it declares. -/
theorem Stmt.emit_judges (hv : sigs.Valid) :
    (∀ (stmt : Stmt) (s : Frame), s.Settled → s.usedSlots + stmt.slots ≤ s.localSlots →
      (stmt.emit sigs).Judges s (stmt.WellFormed sigs.arity? s.scopes.declared)) ∧
    ∀ (body : List Stmt) (s : Frame), s.Settled → s.usedSlots + Stmt.slotsOf body ≤ s.localSlots →
      (Stmt.emitAll sigs body).Judges s (Stmt.allWellFormed sigs.arity? s.scopes.declared body) := by
  apply Stmt.induction
  case simple =>
    intro stmt s hs _
    exact stmt.emit_judges hv hs
  case ifThen =>
    intro cond body ih s hs hroom
    have hnumbered := Frame.Rests.numbered s (s.labels.fresh "if").2
    rw [Stmt.emit]
    refine .step (Emit.freshLabel_ok.mpr ⟨rfl, rfl⟩) ?_
    refine (Emit.branchUnless_judges hv cond _ (hs.rests hnumbered)).bind ?_
    intro _ t htest
    have ht := hnumbered.trans (Emit.branchUnless_rests hv (hs.rests hnumbered).idle htest)
    rw [← ht.scopes]
    refine (scope_judges ih (hs.rests ht) ?_).before fun _ t' _ => .of_ok Emit.block_run trivial
    rw [ht.usedSlots, ht.localSlots]
    exact hroom
  case ifElse =>
    intro cond body other ihbody ihother s hs hroom
    have hslots : s.usedSlots + (Stmt.slotsOf body + Stmt.slotsOf other) ≤ s.localSlots := by
      simpa [Stmt.slots] using hroom
    have hnumbered := Frame.Rests.numbered s (s.labels.fresh "if").2
    rw [Stmt.emit]
    refine .step (Emit.freshLabel_ok.mpr ⟨rfl, rfl⟩) ?_
    refine (Emit.branchUnless_judges hv cond _ (hs.rests hnumbered)).bind ?_
    intro _ t htest
    have ht := hnumbered.trans (Emit.branchUnless_rests hv (hs.rests hnumbered).idle htest)
    have hroom' : t.usedSlots + Stmt.slotsOf body ≤ t.localSlots := by
      rw [ht.usedSlots, ht.localSlots]
      omega
    rw [← ht.scopes]
    refine (scope_judges ihbody (hs.rests ht) hroom').bind ?_
    intro _ t₁ hscope
    obtain ⟨t', hbody, rfl⟩ := Emit.inScope_ok hscope
    have hblock := ht.trans_declares (Stmt.block_declares hv (hs.rests ht) hroom' hbody)
    have hbetween := hblock.trans_rests ((Frame.Rests.instruction _
      (.jmp ((s.labels.fresh "if").1 ++ "_end"))).trans (.labelled _ ((s.labels.fresh "if").1 ++ "_else")))
    refine .step Emit.instruction_run (.step Emit.block_run ?_)
    refine (scope_judges ihother hbetween.settled ?_).before fun _ t' _ => .of_ok Emit.block_run trivial
    rw [hbetween.usedSlots, hbetween.localSlots]
    omega
  case whileLoop =>
    intro cond body ih s hs hroom
    have hhead := (Frame.Rests.numbered s (s.labels.fresh "while").2).trans
      (.labelled _ (s.labels.fresh "while").1)
    rw [Stmt.emit]
    refine .step (Emit.freshLabel_ok.mpr ⟨rfl, rfl⟩) (.step Emit.block_run ?_)
    refine (Emit.branchUnless_judges hv cond _ (hs.rests hhead)).bind ?_
    intro _ t htest
    have ht := hhead.trans (Emit.branchUnless_rests hv (hs.rests hhead).idle htest)
    rw [← ht.scopes]
    refine (scope_judges ih (hs.rests ht) ?_).before fun _ t' _ =>
      .step Emit.instruction_run (.of_ok Emit.block_run trivial)
    rw [ht.usedSlots, ht.localSlots]
    exact hroom
  case forLoop =>
    intro init cond step body ih s hs hroom
    exact Stmt.forLoop_judges hv ih hs hroom
  case ret =>
    intro value s hs _
    have hjump : ∀ t : Frame, (Emit.returnLabel >>= fun label => Emit.instruction (.jmp label)).Judges t True :=
      fun t => Emit.returnLabel_succeeds.judges.after fun _ t' _ => .of_ok Emit.instruction_run trivial
    cases value with
    | none => exact (hjump s).congr (by simp [Stmt.WellFormed])
    | some value =>
      rw [Stmt.emit]
      refine ((value.judged hv hs.sound (hs.ready value)).before ?_).congr (by simp [Stmt.WellFormed])
      intro rs t hvalue
      obtain ⟨hg, _⟩ := Expr.emit_gains hv hs.idle hvalue
      refine .step (Emit.read_run hg.holds_self) ?_
      by_cases hrs : rs = Register.result
      · rw [if_neg (not_not.mpr hrs)]
        exact .step (Emit.free_run hg.general hg.holds_self) (hjump _)
      · rw [if_pos hrs]
        exact .step Emit.instruction_run (.step (Emit.free_run hg.general hg.holds_self) (hjump _))
  case block =>
    intro body ih s hs hroom
    rw [Stmt.emit_block]
    exact scope_judges ih hs hroom
  case nil =>
    intro s _ _
    exact .pure trivial
  case cons =>
    intro stmt rest ihstmt ihrest s hs hroom
    have hslots : s.usedSlots + (stmt.slots + Stmt.slotsOf rest) ≤ s.localSlots := by
      simpa [Stmt.slotsOf] using hroom
    rw [Stmt.emitAll]
    refine (ihstmt s hs (by omega)).bind ?_
    intro _ t hstmt
    have hfirst := (Stmt.emit_declares hv).1 stmt s t hs (by omega) hstmt
    rw [← stmt.emit_declared hv hs hstmt]
    apply ihrest t hfirst.settled
    rw [hfirst.usedSlots, hfirst.localSlots]
    omega

/-! ## Functions -/

private theorem Emit.Judges.params {β : Type} {q : Prop} {params : List (String × Register)} {pos : Nat}
    {f : Unit → Emit β} (hs : s.Settled) (hcaller : ∀ p ∈ params, p.2 ∈ RegisterClass.callerSaved.members)
    (hnodup : (params.map Prod.snd).Nodup) (hfree : ∀ p ∈ params, s.pool.holds p.2 = false)
    (h : ∀ t : Frame, t.Settled → t.usedSlots = s.usedSlots → t.localSlots = s.localSlots →
      t.scopes.declared = ⟨(params.map fun p => (p.1, false)).reverse ++ s.scopes.declared.inner,
        s.scopes.declared.outer⟩ → (f ()).Judges t q) :
    ((params.forM fun p => do
      Emit.reserve p.2
      Emit.declare p.1 (.register p.2) (some pos)) >>= f).Judges s
        ((params.map Prod.fst ++ s.scopes.inner.map Prod.fst).Nodup ∧ q) := by
  induction params generalizing s with
  | nil =>
    have hnames : (s.scopes.inner.map Prod.fst).Nodup := hs.sound.tidy.names_nodup _ List.mem_cons_self
    exact (h s hs rfl rfl rfl).congr (by simp [hnames])
  | cons p params ih =>
    obtain ⟨hp, hparams⟩ := List.forall_mem_cons.mp hcaller
    obtain ⟨hpfree, hfree⟩ := List.forall_mem_cons.mp hfree
    rw [List.map_cons, List.nodup_cons] at hnodup
    have hrule : s.scopes.declared.inner.lookup p.1 = none ∧
        (params.map Prod.fst ++ p.1 :: s.scopes.inner.map Prod.fst).Nodup ∧ q ↔
          (p.1 :: params.map Prod.fst ++ s.scopes.inner.map Prod.fst).Nodup ∧ q := by
      rw [List.nodup_middle, ← List.cons_append]
      refine ⟨And.right, fun hall => ⟨?_, hall⟩⟩
      have hnew : p.1 ∉ s.scopes.inner.map Prod.fst := by
        intro hmem
        exact (List.nodup_append.mp hall.1).2.2 p.1 List.mem_cons_self p.1 hmem rfl
      rw [Scopes.declared, Scopes.lookup_shape, List.lookup_eq_none_iff.mpr ?_, Option.map_none]
      intro entry hentry
      simpa using fun he : p.1 = entry.1 => hnew (he ▸ List.mem_map_of_mem hentry)
    simp only [List.forM_eq_forM, List.forM_cons, bind_assoc]
    refine .step (Emit.reserve_run (RegisterClass.members_general hp) hpfree) (Emit.Judges.congr ?_ hrule)
    refine Emit.Judges.declare ?_
    intro hnew
    refine ih (hs.param hp hpfree hnew) hparams hnodup.2 ?_ ?_
    · intro p' hp'
      have hne : p'.2 ≠ p.2 := fun he => hnodup.1 (he ▸ List.mem_map_of_mem hp')
      simp [hne, hfree p' hp']
    · intro t ht hused hlocal hdeclared
      refine h t ht hused hlocal (hdeclared.trans ?_)
      simp [Scopes.declared, Scopes.shape, Storage.isArray]

/-- The code of a function judges its parameters and its body. -/
theorem Header.emitBody_judges (hv : sigs.Valid) {header : Header} (policy : FreePolicy)
    (labels : LabelSupply) (body : List Stmt) (harity : header.params.length ≤ Register.arguments.length) :
    (header.emitBody sigs body).Judges (.start policy labels body)
      (header.params.Nodup ∧ Stmt.allWellFormed sigs.arity? (.ofParams header.params) body) := by
  have hnames : (header.params.zip Register.arguments).map Prod.fst = header.params :=
    List.map_fst_zip harity
  have hregisters : (header.params.zip Register.arguments).map Prod.snd =
      Register.arguments.take header.params.length := by
    rw [List.zip_eq_zip_take_min, Nat.min_eq_left harity, List.take_length, List.map_snd_zip]
    exact List.length_take_le _ _
  have hrule : ((header.params.zip Register.arguments).map Prod.fst ++
        (Frame.start policy labels body).scopes.inner.map Prod.fst).Nodup ∧
      Stmt.allWellFormed sigs.arity? (.ofParams header.params) body ↔
        header.params.Nodup ∧ Stmt.allWellFormed sigs.arity? (.ofParams header.params) body := by
    rw [hnames]
    simp [Frame.start]
  refine Emit.Judges.congr ?_ hrule
  refine Emit.Judges.params (Frame.start_settled policy labels body) ?_ ?_ ?_ ?_
  · intro p hp
    apply Register.arguments_callerSaved header.params.length
    rw [← hregisters]
    exact List.mem_map_of_mem hp
  · rw [hregisters]
    exact Register.arguments_nodup _
  · intro p _
    exact RegisterSet.contains_empty p.2
  · intro t ht hused hlocal hdeclared
    have hparams : t.scopes.declared = .ofParams header.params := by
      rw [hdeclared, Declared.ofParams]
      nth_rewrite 2 [← hnames]
      simp [Frame.start, Scopes.declared, Scopes.shape, Function.comp_def]
    rw [← hparams]
    refine ((Stmt.emit_judges hv).2 body t ht ?_).before ?_
    · rw [hused, hlocal]
      exact Int.le_of_eq (Int.zero_add _)
    · intro _ t' _
      refine Emit.Judges.get ?_
      cases t'.returnLabel with
      | none => exact .pure trivial
      | some label => exact .of_ok Emit.block_run trivial

/-! ## Units -/

/-- An outcome of compilation that tells whether what was compiled is well formed: if not, it is an error;
and if so, only running out of registers is one. -/
def Accepts {α : Type} (wf : Prop) : Except CompileError α → Prop
  | .ok _ => wf
  | .error e => e.Blames wf

namespace Accepts

variable {α β : Type} {x : Except CompileError α} {f : α → Except CompileError β} {p q : Prop}

private theorem congr (h : Accepts p x) (hpq : p ↔ q) : Accepts q x :=
  propext hpq ▸ h

private theorem bind (hx : Accepts p x) (hf : ∀ a, x = .ok a → Accepts q (f a)) : Accepts (p ∧ q) (x >>= f) := by
  cases x with
  | error e => exact CompileError.Blames.mono hx And.left
  | ok a =>
    have hnext := hf a rfl
    change Accepts (p ∧ q) (f a)
    cases hlast : f a with
    | error e =>
      rw [hlast] at hnext
      exact CompileError.Blames.mono hnext And.right
    | ok b =>
      rw [hlast] at hnext
      exact ⟨hx, hnext⟩

private theorem before (hx : Accepts p x) (hf : ∀ a, ∃ b, f a = .ok b) : Accepts p (x >>= f) := by
  refine (hx.bind (q := True) ?_).congr (and_true _).to_iff
  intro a _
  obtain ⟨b, hb⟩ := hf a
  rw [hb]
  trivial

end Accepts

private theorem Signatures.declare_accepts (sigs : Signatures) (sig : Signature) (pos : Nat) :
    Accepts (sig.name ≠ entryLabel ∧ sigs.find? sig.name = none ∧ sig.arity ≤ Register.arguments.length)
      (sigs.declare sig (some pos)) := by
  rw [Signatures.declare]
  by_cases hentry : sig.name = entryLabel
  · rw [if_pos hentry]
    exact ⟨fun h => h.1 hentry, rfl⟩
  rw [if_neg hentry]
  by_cases hfound : (sigs.find? sig.name).isSome = true
  · rw [if_pos hfound]
    exact ⟨fun h => by simp [h.2.1] at hfound, rfl⟩
  rw [if_neg hfound]
  by_cases harity : Register.arguments.length < sig.arity
  · rw [if_pos harity]
    exact ⟨fun h => absurd h.2.2 (Nat.not_le_of_lt harity), rfl⟩
  rw [if_neg harity]
  exact ⟨hentry, Option.not_isSome_iff_eq_none.mp hfound, Nat.le_of_not_lt harity⟩

private theorem Routine.compile_accepts (hv : sigs.Valid) (policy : FreePolicy) (labels : LabelSupply)
    {header : Header} (body : List Stmt) (harity : header.params.length ≤ Register.arguments.length) :
    Accepts (header.params.Nodup ∧ Stmt.allWellFormed sigs.arity? (.ofParams header.params) body)
      (Routine.compile sigs policy labels header body) := by
  have hjudges := header.emitBody_judges hv policy labels body harity
  rw [Emit.Judges] at hjudges
  by_cases hrange : Counter.InRange (Stmt.slotsOf body)
  · rw [compile_of_inRange hrange]
    cases hrun : header.emitBody sigs body (.start policy labels body) with
    | ok u frame =>
      rw [hrun] at hjudges
      exact hjudges
    | error e frame =>
      rw [hrun] at hjudges
      exact hjudges
  · rw [compile_of_not_inRange hrange]
    trivial

private theorem Signatures.find?_eq_none {name : String} :
    sigs.find? name = none ↔ name ∉ sigs.entries.map Signature.name := by
  rw [Signatures.find?, List.find?_eq_none]
  simp

namespace CompilationUnit

private theorem signaturesFrom_accepts (hv : sigs.Valid) (items : List Item) :
    Accepts (((items.filterMap Item.header?).map Header.name ++ sigs.entries.map Signature.name).Nodup ∧
      ∀ header ∈ items.filterMap Item.header?, header.name ≠ entryLabel ∧
        header.params.length ≤ Register.arguments.length) (signaturesFrom sigs items) := by
  induction items generalizing sigs with
  | nil => exact ⟨hv.names, by simp⟩
  | cons item items ih =>
    have hdeclared (header : Header) (hheader : item.header? = some header) (custom : Bool) :
        Accepts ((((item :: items).filterMap Item.header?).map Header.name ++
            sigs.entries.map Signature.name).Nodup ∧
          ∀ other ∈ (item :: items).filterMap Item.header?, other.name ≠ entryLabel ∧
            other.params.length ≤ Register.arguments.length)
          (sigs.declare ⟨header.name, header.params, custom⟩ (some header.pos) >>= fun known =>
            signaturesFrom known items) := by
      have hrest : ∀ known, sigs.declare ⟨header.name, header.params, custom⟩ (some header.pos) = .ok known →
          Accepts (((items.filterMap Item.header?).map Header.name ++
              header.name :: sigs.entries.map Signature.name).Nodup ∧
            ∀ other ∈ items.filterMap Item.header?, other.name ≠ entryLabel ∧
              other.params.length ≤ Register.arguments.length) (signaturesFrom known items) := by
        intro known hknown
        have hvalid := hv.declare hknown
        obtain ⟨_, _, _, rfl⟩ := Signatures.declare_ok hknown
        exact ih hvalid
      refine ((sigs.declare_accepts _ header.pos).bind hrest).congr ?_
      rw [List.filterMap_cons_some hheader, List.map_cons, List.forall_mem_cons, List.nodup_middle,
        Signatures.find?_eq_none, List.cons_append, List.nodup_cons]
      simp only [List.mem_append, Signature.arity]
      tauto
    cases item with
    | function header body => exact hdeclared header rfl true
    | external header => exact hdeclared header rfl false
    | stmt stmt => exact ih hv

private theorem signatures_accepts (unit : CompilationUnit) :
    Accepts ((unit.headers.map Header.name).Nodup ∧
      (∀ header ∈ unit.headers, header.name ∉ ["print", "putc", "exit", "start"]) ∧
      ∀ header ∈ unit.headers, header.params.length ≤ 4) unit.signatures := by
  have hreserved : ["print", "putc", "exit", "start"] =
      Signatures.builtin.entries.map Signature.name ++ [entryLabel] := rfl
  refine (signaturesFrom_accepts Signatures.builtin_valid unit.items).congr ?_
  rw [hreserved, List.nodup_append]
  constructor
  · rintro ⟨⟨hdistinct, _, hbuiltin⟩, hheaders⟩
    refine ⟨hdistinct, ?_, fun header hheader => (hheaders header hheader).2⟩
    intro header hheader hname
    rcases List.mem_append.mp hname with hname | hname
    · exact hbuiltin _ (List.mem_map_of_mem hheader) _ hname rfl
    · exact (hheaders header hheader).1 (List.mem_singleton.mp hname)
  · rintro ⟨hdistinct, hnames, hparams⟩
    refine ⟨⟨hdistinct, by decide, ?_⟩, fun header hheader => ⟨?_, hparams header hheader⟩⟩
    · rintro _ hname other hother rfl
      obtain ⟨header, hheader, rfl⟩ := List.mem_map.mp hname
      exact hnames header hheader (List.mem_append_left _ hother)
    · intro hname
      exact hnames header hheader (List.mem_append_right _ (List.mem_singleton.mpr hname))

private theorem headers_signatures (unit : CompilationUnit) :
    (unit.headers.map fun header => (header.name, header.params.length)) =
      (unit.items.filterMap Item.signature?).map fun sig => (sig.name, sig.arity) := by
  rw [headers, List.map_filterMap, List.map_filterMap]
  congr 1
  funext item
  cases item <;> rfl

private theorem signatures_arity {unit : CompilationUnit} (h : unit.signatures = .ok sigs) :
    sigs.arity? = unit.arity? := by
  obtain ⟨hv, hentries⟩ := signatures_ok h
  have hfound : ∀ sig ∈ sigs.entries, sigs.arity? sig.name = some sig.arity := by
    intro sig hsig
    rw [Signatures.arity?, hv.find?_eq hsig, Option.map_some]
  funext name
  rw [arity?]
  by_cases hbuiltin : name ∈ ["print", "putc", "exit"]
  · have hentry : ∀ name ∈ ["print", "putc", "exit"], ∃ sig ∈ Signatures.builtin.entries,
        sig.name = name ∧ sig.arity = 1 := by decide
    obtain ⟨sig, hsig, rfl, harity⟩ := hentry name hbuiltin
    rw [if_pos hbuiltin, hfound sig (by rw [hentries]; exact List.mem_append_right _ hsig), harity]
  rw [if_neg hbuiltin]
  cases hfind : unit.headers.find? fun header => header.name == name with
  | some header =>
    have hname : header.name = name := by simpa using List.find?_some hfind
    have hheader : (name, header.params.length) ∈
        unit.headers.map fun header => (header.name, header.params.length) :=
      List.mem_map.mpr ⟨header, List.mem_of_find?_eq_some hfind, by rw [hname]⟩
    rw [headers_signatures] at hheader
    obtain ⟨sig, hsig, hpair⟩ := List.mem_map.mp hheader
    obtain ⟨rfl, harity⟩ := Prod.mk.inj hpair
    rw [hfound sig (by rw [hentries]; exact List.mem_append_left _ (List.mem_reverse.mpr hsig)), harity,
      Option.map_some]
  | none =>
    rw [Signatures.arity?, Signatures.find?_eq_none.mpr ?_, Option.map_none, Option.map_none]
    intro hname
    obtain ⟨sig, hsig, rfl⟩ := List.mem_map.mp hname
    rw [hentries, List.mem_append, List.mem_reverse] at hsig
    rcases hsig with hsig | hsig
    · have hpair : (sig.name, sig.arity) ∈
          unit.headers.map fun header => (header.name, header.params.length) := by
        rw [headers_signatures]
        exact List.mem_map_of_mem hsig
      obtain ⟨header, hheader, hpair⟩ := List.mem_map.mp hpair
      have hdiff := List.find?_eq_none.mp hfind header hheader
      exact hdiff (by simpa using (Prod.mk.inj hpair).1)
    · exact hbuiltin (List.mem_map_of_mem hsig)

private theorem compileAll_accepts (hv : sigs.Valid) (policy : FreePolicy) (labels : LabelSupply)
    (functions : List (Header × List Stmt))
    (harity : ∀ f ∈ functions, f.1.params.length ≤ Register.arguments.length) :
    Accepts (∀ f ∈ functions, f.1.params.Nodup ∧
      Stmt.allWellFormed sigs.arity? (.ofParams f.1.params) f.2) (compileAll sigs policy labels functions) := by
  induction functions generalizing labels with
  | nil => exact fun f hf => absurd hf List.not_mem_nil
  | cons f rest ih =>
    obtain ⟨hf, hrest⟩ := List.forall_mem_cons.mp harity
    rw [List.forall_mem_cons]
    refine (Routine.compile_accepts hv policy labels f.2 hf).bind ?_
    intro result _
    exact (ih result.2 hrest).before fun others => ⟨_, rfl⟩

theorem functions_arity {unit : CompilationUnit} (h : unit.signatures = .ok sigs) :
    ∀ f ∈ unit.functions, f.1.params.length ≤ Register.arguments.length := by
  obtain ⟨hv, hentries⟩ := signatures_ok h
  rintro ⟨header, body⟩ hf
  rw [functions_eq, List.mem_append, mem_definitions, List.mem_singleton] at hf
  rcases hf with hf | hf
  · apply hv.arity ⟨header.name, header.params, true⟩
    rw [hentries]
    exact List.mem_append_left _ (List.mem_reverse.mpr (List.mem_filterMap.mpr ⟨_, hf, rfl⟩))
  · obtain ⟨rfl, _⟩ := Prod.mk.inj hf
    exact Nat.zero_le _

theorem compile_accepts (unit : CompilationUnit) (policy : FreePolicy) :
    Accepts unit.WellFormed (unit.compile policy) := by
  have hbodies : ∀ sigs, unit.signatures = .ok sigs → Accepts (∀ f ∈ unit.functions, f.1.params.Nodup ∧
      Stmt.allWellFormed unit.arity? (.ofParams f.1.params) f.2)
        (compileAll sigs policy {} unit.functions >>= fun routines => .ok (⟨routines⟩ : Assembly)) := by
    intro sigs hsigs
    have hv := (signatures_ok hsigs).1
    rw [← signatures_arity hsigs]
    exact (compileAll_accepts hv policy {} unit.functions (functions_arity hsigs)).before
      fun routines => ⟨_, rfl⟩
  refine ((signatures_accepts unit).bind hbodies).congr ?_
  rw [wellFormed_iff, and_assoc, and_assoc]

end CompilationUnit

end WordLang
