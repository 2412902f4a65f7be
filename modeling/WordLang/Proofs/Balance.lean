import Mathlib.Data.List.Forall2
import WordLang.Proofs.Moments
import WordLang.Proofs.StmtFrames
import WordLang.Proofs.WellFormed

/-!
# Balanced emission

The code of an expression takes one register of the class asked for, and leaves the other registers, the variables
and the stack as they were. When it calls a function, no caller-saved register is in use but those that carry the
arguments. A statement leaves the registers in use and the stack as they were, and adds at most the variable that
it declares to the innermost scope.
-/

namespace WordLang

variable {sigs : Signatures}

/-! ## Calls -/

/-- A call is emitted at a moment after `m`, when the code so far is `code`. -/
def Moment.CallsAt (sigs : Signatures) (m : Moment) (callee : Callee) (code : List Line) : Prop :=
  ∃ count t parked, m.Reaches sigs ⟨.calling callee count, t, parked⟩ ∧ t.code.toList = code

/-- The second frame is the first with code added, in which every call satisfies `P` with the code before it. -/
def Frame.Calls (P : Callee → List Line → Prop) (s s' : Frame) : Prop :=
  ∃ new : List Line, s'.code.toList = s.code.toList ++ new ∧
    ∀ before callee after, new = before ++ .code (.call callee) :: after → P callee (s.code.toList ++ before)

namespace Frame.Calls

variable {P : Callee → List Line → Prop} {s s' s'' : Frame}

private theorem of_appends (h : s.Appends ⟨[]⟩ s') : s.Calls P s' := by
  obtain ⟨new, hnew, hplain⟩ := h.code
  refine ⟨new.map Line.code, by rw [hnew, Array.toList_append], ?_⟩
  intro before callee after hcode
  have hmem : Line.code (.call callee) ∈ new.map Line.code := by
    rw [hcode]
    exact List.mem_append_right before List.mem_cons_self
  obtain ⟨i, hi, heq⟩ := List.mem_map.mp hmem
  cases heq
  obtain ⟨sig, hsig, _⟩ := hplain _ hi
  exact absurd hsig List.not_mem_nil

protected theorem refl (s : Frame) : s.Calls P s :=
  of_appends (.refl s)

protected theorem trans (h : s.Calls P s') (h' : s'.Calls P s'') : s.Calls P s'' := by
  obtain ⟨new, hnew, hcalls⟩ := h
  obtain ⟨new', hnew', hcalls'⟩ := h'
  refine ⟨new ++ new', by rw [hnew', hnew, List.append_assoc], ?_⟩
  intro before callee after hcode
  have hlater (rest : List Line) (hbefore : before = new ++ rest)
      (hrest : new' = rest ++ .code (.call callee) :: after) : P callee (s.code.toList ++ before) := by
    rw [hbefore, ← List.append_assoc, ← hnew]
    exact hcalls' rest callee after hrest
  rcases List.append_eq_append_iff.mp hcode with ⟨rest, hbefore, hrest⟩ | ⟨rest, hbefore, hrest⟩
  · exact hlater rest hbefore hrest
  · cases rest with
    | nil => exact hlater [] (by rw [hbefore]; simp) (by simpa using hrest.symm)
    | cons line rest =>
      cases hrest
      exact hcalls before callee rest hbefore

private theorem after {m m' : Moment} (h : s.Calls (m'.CallsAt sigs) s') (hreaches : m.Reaches sigs m') :
    s.Calls (m.CallsAt sigs) s' := by
  obtain ⟨new, hnew, hcalls⟩ := h
  refine ⟨new, hnew, ?_⟩
  intro before callee rest hcode
  obtain ⟨count, t, parked, hlater, ht⟩ := hcalls before callee rest hcode
  exact ⟨count, t, parked, hreaches.trans hlater, ht⟩

private theorem call {callee : Callee} (h : P callee s.code.toList) : s.Calls P (s.coded (.call callee)) := by
  refine ⟨[.code (.call callee)], by simp, ?_⟩
  intro before other after hcode
  cases before with
  | nil =>
    cases hcode
    rwa [List.append_nil]
  | cons line before => cases before <;> cases hcode

end Frame.Calls

private theorem Emit.spillRegister_pushes {r : Register} {s s' : Frame} {found : Spill}
    (h : Emit.spillRegister r s = .ok (some found) s') : ∃ offset t, Emit.push r s = .ok offset t := by
  simp only [Emit.spillRegister, Emit.get_bind_ok] at h
  by_cases hr : s.pool.holds r = true
  · rw [if_pos hr] at h
    cases hb : s.scopes.holder? r with
    | none =>
      simp only [hb] at h
      cases (Emit.pure_ok.mp h).1
    | some binding =>
      simp only [hb] at h
      obtain ⟨offset, t, hpush, _⟩ := Emit.bind_ok.mp h
      exact ⟨offset, t, hpush⟩
  · rw [if_neg hr] at h
    cases (Emit.pure_ok.mp h).1

private theorem Emit.spill_reaches {callee : Callee} {args : List Expr} {rs : List Register} {s s' : Frame}
    {spills : List Spill} (h : rs.filterMapM Emit.spillRegister s = .ok spills s') (parked : List Parked) :
    ∃ parked', Moment.Reaches sigs ⟨.spilling callee args rs, s, parked⟩
      ⟨.spilling callee args [], s', parked'⟩ := by
  induction rs generalizing s spills parked with
  | nil =>
    rw [(Emit.pure_ok.mp h).2]
    exact ⟨parked, .refl⟩
  | cons r rs ih =>
    rw [List.filterMapM_cons, Emit.bind_ok] at h
    obtain ⟨found, t, hfound, h⟩ := h
    cases found with
    | none =>
      obtain ⟨parked', hreaches⟩ := ih h parked
      exact ⟨parked', hreaches.head (.keep hfound)⟩
    | some found =>
      obtain ⟨rest, t', hrest, hpure⟩ := Emit.bind_ok.mp h
      obtain ⟨_, rfl⟩ := Emit.pure_ok.mp hpure
      obtain ⟨offset, _, hpush⟩ := Emit.spillRegister_pushes hfound
      obtain ⟨parked', hreaches⟩ := ih hrest (parked ++ [.variable found.binding offset])
      exact ⟨parked', hreaches.head (.spill hpush hfound)⟩

/-- Every call in the code of an expression is emitted at one of the moments. -/
def Expr.CallsKnown (sigs : Signatures) (e : Expr) : Prop :=
  ∀ ⦃s s' : Frame⦄ ⦃wanted : RegisterClass⦄ ⦃rd : Register⦄ (parked : List Parked),
    e.emit sigs wanted s = .ok rd s' → s.Calls (Moment.CallsAt sigs ⟨.expr e wanted, s, parked⟩) s'

namespace Emit

variable {args : List Expr} {s s' : Frame} {u : Unit}

private theorem stages_calls (hargs : ∀ e ∈ args, e.CallsKnown sigs) (parked : List Parked)
    (h : (args.map fun e => e.emit sigs .callerSaved).forM Emit.stage s = .ok u s') :
    s.Calls (Moment.CallsAt sigs ⟨.staging args, s, parked⟩) s' := by
  induction args generalizing s parked with
  | nil =>
    rw [(pure_ok.mp h).2]
    exact .refl s
  | cons e rest ih =>
    obtain ⟨_, t, hstage, hrest⟩ := bind_ok.mp h
    obtain ⟨rs, t₁, he, hstage⟩ := bind_ok.mp hstage
    obtain ⟨offset, t₂, hpush, hfree⟩ := bind_ok.mp hstage
    have hfirst := hargs e List.mem_cons_self parked he
    have hpushed : t₁.Appends ⟨[]⟩ t := ((Plain.law _).push rs hpush).trans ((Plain.law _).free rs hfree)
    have hlater := ih (fun e' he' => hargs e' (List.mem_cons_of_mem _ he')) (parked ++ [.argument offset]) hrest
    exact .trans (hfirst.after (.single .argument))
      (.trans (.of_appends hpushed) (hlater.after (.single (.stage he hpush hfree))))

private theorem pass_calls (hargs : ∀ e ∈ args, e.CallsKnown sigs) (callee : Callee) (parked : List Parked)
    (h : Emit.pass (Expr.emitAll sigs args) s = .ok u s') :
    s.Calls (Moment.CallsAt sigs ⟨.passing callee args, s, parked⟩) s' := by
  rw [Expr.emitAll_eq] at h
  match args, hargs with
  | [], _ =>
    rw [(pure_ok.mp h).2]
    exact .refl s
  | [e], hargs =>
    obtain ⟨rs, t, he, hmove⟩ := bind_ok.mp h
    have hfirst := hargs e List.mem_cons_self parked he
    have hmoved : t.Appends ⟨[]⟩ s' := by
      refine (Plain.law ⟨[]⟩).ite (n := 0) (m := 0) (Plain.bind ((Plain.law _).reserve _) fun _ => ?_)
        ((Plain.law _).pure _) hmove
      exact Plain.bind ((Plain.law _).instruction trivial) fun _ => (Plain.law _).free rs
    exact .trans (hfirst.after (.single .single)) (.of_appends hmoved)
  | e :: e' :: rest, hargs =>
    obtain ⟨_, t, hstages, hpops⟩ := bind_ok.mp h
    have hfirst := stages_calls hargs parked hstages
    have hpopped : t.Appends ⟨[]⟩ s' :=
      (Plain.law _).forM (k := 0) (fun r _ => Plain.bind ((Plain.law _).reserve r) fun _ => (Plain.law _).pop r) hpops
    exact .trans (hfirst.after (.single .several)) (.of_appends hpopped)

end Emit

private theorem Expr.calls_known (e : Expr) : e.CallsKnown sigs := by
  induction e using Expr.induction with
  | num value =>
    intro s s' wanted rd parked h
    rw [Expr.emit] at h
    exact .of_appends ((Expr.num value).emit_plain ⟨[]⟩ wanted h)
  | var name pos =>
    intro s s' wanted rd parked h
    rw [Expr.emit] at h
    exact .of_appends ((Expr.var name pos).emit_plain ⟨[]⟩ wanted h)
  | index name i pos ih =>
    intro s s' wanted rd parked h
    rw [Expr.emit] at h
    obtain ⟨r, t, haddress, hload⟩ := Emit.bind_ok.mp h
    obtain ⟨_, _, hlookup, haddress⟩ := Emit.bind_ok.mp haddress
    obtain ⟨_, rfl⟩ := Emit.lookup_ok.mp hlookup
    obtain ⟨rs, t₁, hi, hrest⟩ := Emit.bind_ok.mp haddress
    have haddressed : t₁.Appends ⟨[]⟩ t := by
      refine Emit.Plain.bind ((Emit.Plain.law _).lookup trivial) (fun base => ?_) hrest
      refine Emit.Plain.bind ((Emit.Plain.law _).allocate wanted) fun rd => ?_
      refine Emit.Plain.bind ((Emit.Plain.law _).instruction (base.fetch_plain _ rd)) fun _ => ?_
      refine Emit.Plain.bind ((Emit.Plain.law _).instruction trivial) fun _ => ?_
      exact Emit.Plain.bind ((Emit.Plain.law _).free rs) fun _ => (Emit.Plain.law _).pure rd
    have hloaded : t.Appends ⟨[]⟩ s' :=
      Emit.Plain.bind ((Emit.Plain.law _).instruction (i := .load r r 0) trivial)
        (fun _ => (Emit.Plain.law _).pure r) hload
    exact .trans ((ih parked hi).after (.single .index)) (.of_appends (haddressed.trans hloaded))
  | call name args pos ih =>
    intro s s' wanted rd parked h
    rw [Expr.emit] at h
    obtain ⟨sig, hsig, ⟨hfind, hlength⟩, h⟩ := Emit.call_ok h
    have harity : sig.arity = args.length := by rw [hlength, Expr.emitAll_eq, List.length_map]
    obtain ⟨spills, s₁, hspill, h⟩ := Emit.bind_ok.mp h
    obtain ⟨_, s₂, hpass, h⟩ := Emit.bind_ok.mp h
    obtain ⟨_, s₃, hcall, h⟩ := Emit.bind_ok.mp h
    rw [Emit.instruction_ok.mp hcall] at h
    have hspilled : s.Appends ⟨[]⟩ s₁ := (Emit.Plain.law _).spill hspill
    obtain ⟨parked', hreaches⟩ := Emit.spill_reaches hspill parked
    have hmoment : Moment.Reaches sigs ⟨.expr (.call name args pos) wanted, s, parked⟩
        ⟨.passing sig.callee args, s₁, parked'⟩ :=
      (hreaches.head (.call hfind harity)).tail .pass
    have hpassed := (Emit.pass_calls ih sig.callee parked' hpass).after hmoment
    have hcalled : s₂.Calls (Moment.CallsAt sigs ⟨.expr (.call name args pos) wanted, s, parked⟩)
        (s₂.coded (.call sig.callee)) :=
      .call ⟨args.length, s₂, parked', hmoment.tail (.invoke hpass), rfl⟩
    have hrest : (s₂.coded (.call sig.callee)).Appends ⟨[]⟩ s' := by
      refine Emit.Plain.bind ((Emit.Plain.law _).forM_zero fun r _ => (Emit.Plain.law _).free r) (fun _ => ?_) h
      refine Emit.Plain.bind ((Emit.Plain.law _).forM_zero fun s _ => (Emit.Plain.law _).reserve s.register) fun _ => ?_
      refine Emit.Plain.bind ((Emit.Plain.law _).receive wanted) fun result => ?_
      exact Emit.Plain.bind ((Emit.Plain.law _).restore spills) fun _ => (Emit.Plain.law _).pure result
    exact ((Frame.Calls.of_appends hspilled).trans hpassed).trans (hcalled.trans (.of_appends hrest))
  | unary op operand ih =>
    intro s s' wanted rd parked h
    rw [Expr.emit] at h
    obtain ⟨r, t, hoperand, hop⟩ := Emit.bind_ok.mp h
    have happlied : t.Appends ⟨[]⟩ s' := 
      Emit.Plain.bind ((Emit.Plain.law _).unary op r) (fun _ => (Emit.Plain.law _).pure r) hop
    exact .trans ((ih parked hoperand).after (.single .operand)) (.of_appends happlied)
  | binary op lhs rhs ihl ihr =>
    intro s s' wanted rd parked h
    rw [Expr.emit] at h
    obtain ⟨rs1, s₁, hlhs, h⟩ := Emit.bind_ok.mp h
    obtain ⟨rs2, s₂, hrhs, h⟩ := Emit.bind_ok.mp h
    have hleft := ihl parked hlhs
    have hright := ihr parked hrhs
    have happlied : s₂.Appends ⟨[]⟩ s' := (Emit.Plain.law _).binary op wanted _ rs1 rs2 h
    exact .trans (hleft.after (.single .left))
      (.trans (hright.after (.single (.right hlhs))) (.of_appends happlied))

/-! ## Statements -/

/-- The second frame has the same registers in use and the same words pushed as the first, and the same variables
but for those declared in between. They stand in the innermost scope and lie in the local area. -/
structure Frame.Balances (s : Frame) (declared : List (String × Bool)) (s' : Frame) : Prop where
  idle : s'.Idle
  holds : ∀ q, s'.pool.holds q = s.pool.holds q
  stackDepth : s'.stackDepth = s.stackDepth
  outer : s'.scopes.outer = s.scopes.outer
  inner : ∃ new : Scope, s'.scopes.inner = new ++ s.scopes.inner ∧
    List.Forall₂ (fun entry d => entry.1 = d.1 ∧ ∃ offset, entry.2 = .stack offset d.2) new declared

namespace Frame

variable {s s₁ s₂ t : Frame} {declared declared' : List (String × Bool)}

private theorem Idle.rests (hs : s.Idle) (h : s.Rests t) : t.Idle := by
  refine ⟨hs.sound.congr h.scopes h.holds, ?_⟩
  intro r hr
  rw [h.scopes]
  exact hs.held r (by rwa [← h.holds])

private theorem Idle.enter (hs : s.Idle) : (s.within s.scopes.enter).Idle := by
  refine ⟨⟨hs.sound.general, ⟨?_, hs.sound.tidy.registers_nodup⟩, hs.sound.bound⟩, hs.held⟩
  simpa [Scopes.enter, Scopes.layers] using hs.sound.tidy.names_nodup

private theorem Rests.balances (h : s.Rests t) (hs : s.Idle) : s.Balances [] t :=
  ⟨hs.rests h, h.holds, h.stackDepth, by rw [h.scopes], [], by rw [h.scopes, List.nil_append], .nil⟩

private theorem Balances.trans (h : s.Balances declared s₁) (h' : s₁.Balances declared' s₂) :
    s.Balances (declared' ++ declared) s₂ := by
  obtain ⟨new, hnew, hplaced⟩ := h.inner
  obtain ⟨new', hnew', hplaced'⟩ := h'.inner
  exact ⟨h'.idle, fun q => (h'.holds q).trans (h.holds q), h'.stackDepth.trans h.stackDepth,
    h'.outer.trans h.outer, new' ++ new, by rw [hnew', hnew, List.append_assoc], List.rel_append hplaced' hplaced⟩

private theorem Rests.trans_balances (h : s.Rests s₁) (hs : s.Idle) (h' : s₁.Balances declared s₂) :
    s.Balances declared s₂ := by
  have hboth := (h.balances hs).trans h'
  rwa [List.append_nil] at hboth

private theorem Balances.trans_rests (h : s.Balances declared s₁) (h' : s₁.Rests s₂) : s.Balances declared s₂ :=
  h.trans (h'.balances h.idle)

private theorem Balances.leave (h : (s.within s.scopes.enter).Balances declared t) (hs : s.Idle) :
    s.Balances [] (t.within s.scopes) := by
  have hholds (q : Register) : t.pool.holds q = s.pool.holds q := h.holds q
  refine ⟨⟨⟨h.idle.sound.general, hs.sound.tidy, ?_⟩, ?_⟩, h.holds, h.stackDepth, rfl, [], rfl, .nil⟩
  · intro r hr
    rw [within_pool, hholds]
    exact hs.sound.bound r hr
  · intro r hr
    rw [within_pool, hholds] at hr
    exact hs.held r hr

private theorem Idle.claimed (hs : s.Idle) (n : Int) : (s.claimed n).Idle :=
  ⟨⟨hs.sound.general, hs.sound.tidy, hs.sound.bound⟩, hs.held⟩

private theorem Idle.declare {n offset : Int} {array : Bool} {name : String} (hs : s.Idle) (ht : (s.claimed n).Rests t)
    (hnew : t.scopes.inner.lookup name = none) :
    s.Balances [(name, array)]
      (t.within ⟨(name, .stack offset array) :: t.scopes.inner, t.scopes.outer⟩) := by
  have hidle := (hs.claimed n).rests ht
  have hscopes : t.scopes = s.scopes := ht.scopes
  exact ⟨⟨⟨hidle.sound.general, ⟨hidle.sound.names_declare hnew _, hidle.sound.tidy.registers_nodup⟩,
    hidle.sound.bound⟩, hidle.held⟩, ht.holds, ht.stackDepth, by rw [within_scopes, hscopes],
    [(name, .stack offset array)], by rw [within_scopes, hscopes, List.singleton_append],
    .cons ⟨rfl, offset, rfl⟩ .nil⟩

end Frame

variable {s s' t : Frame} {u : Unit}

private theorem Simple.emit_balances (hv : sigs.Valid) (stmt : Simple) (hs : s.Idle)
    (h : stmt.emit sigs s = .ok u s') : s.Balances stmt.declared?.toList s' := by
  match stmt with
  | .var name none pos =>
    obtain ⟨hnew, rfl⟩ := Simple.emit_var_none_ok h
    exact hs.declare (.refl _) hnew
  | .var name (some value) pos =>
    obtain ⟨rs, t, hvalue, hnew, rfl⟩ := Simple.emit_var_some_ok h
    obtain ⟨hg, hused⟩ := Expr.emit_gains hv (hs.claimed 1) hvalue
    exact hs.declare ((hg.rests hused).coded _) hnew
  | .array name length pos =>
    obtain ⟨hnew, rfl⟩ := Simple.emit_array_ok h
    exact hs.declare (.refl _) hnew
  | .assign target value => exact (Emit.assign_rests hv hs h).balances hs
  | .expr (.call name args pos) => exact (Emit.call_discards hv hs h).1.balances hs
  | .expr (.num _) | .expr (.var _ _) | .expr (.index _ _ _) | .expr (.unary _ _)
  | .expr (.binary _ _ _) =>
    obtain ⟨rs, t, hvalue, hfree⟩ := Emit.bind_ok.mp h
    obtain ⟨_, rfl⟩ := Emit.free_ok hfree
    obtain ⟨hg, hused⟩ := Expr.emit_gains hv hs hvalue
    exact (hg.rests hused).balances hs

private theorem Simple.forM_balances (hv : sigs.Valid) (stmt : Option Simple) (hs : s.Idle)
    (h : stmt.forM (Simple.emit sigs) s = .ok u s') :
    s.Balances (stmt.bind Simple.declared?).toList s' := by
  cases stmt with
  | none =>
    obtain ⟨_, rfl⟩ := Emit.pure_ok.mp h
    exact (Frame.Rests.refl s').balances hs
  | some stmt => exact stmt.emit_balances hv hs h

/-- A statement is balanced; a list of statements leaves the variables of all, the last one innermost. -/
theorem Stmt.emit_balances (hv : sigs.Valid) :
    (∀ (stmt : Stmt) (s s' : Frame), s.Idle → stmt.emit sigs s = .ok () s' →
      s.Balances stmt.declared?.toList s') ∧
    ∀ (body : List Stmt) (s s' : Frame), s.Idle → Stmt.emitAll sigs body s = .ok () s' →
      s.Balances (body.reverse.filterMap Stmt.declared?) s' := by
  apply Stmt.induction
  case simple =>
    intro stmt s s' hs h
    exact stmt.emit_balances hv hs h
  case ifThen =>
    intro cond body ih s s' hs h
    obtain ⟨t, t', htest, hbody, rfl⟩ := Stmt.emit_ifThen_ok h
    have hnumbered := Frame.Rests.numbered s (s.labels.fresh "if").2
    have ht := hnumbered.trans (Emit.branchUnless_rests hv (hs.rests hnumbered) htest)
    have hblock := (ih _ _ (hs.rests ht).enter hbody).leave (hs.rests ht)
    exact (ht.trans_balances hs hblock).trans_rests (.labelled _ _)
  case ifElse =>
    intro cond body other ihbody ihother s s' hs h
    obtain ⟨t, t', r', htest, hbody, hother, rfl⟩ := Stmt.emit_ifElse_ok h
    have hnumbered := Frame.Rests.numbered s (s.labels.fresh "if").2
    have ht := hnumbered.trans (Emit.branchUnless_rests hv (hs.rests hnumbered) htest)
    have hfirst := (ihbody _ _ (hs.rests ht).enter hbody).leave (hs.rests ht)
    have hbetween := (ht.trans_balances hs hfirst).trans_rests ((Frame.Rests.instruction _
      (.jmp ((s.labels.fresh "if").1 ++ "_end"))).trans (.labelled _ ((s.labels.fresh "if").1 ++ "_else")))
    have hsecond := (ihother _ _ hbetween.idle.enter hother).leave hbetween.idle
    exact (hbetween.trans hsecond).trans_rests (.labelled _ _)
  case whileLoop =>
    intro cond body ih s s' hs h
    obtain ⟨t, t', htest, hbody, rfl⟩ := Stmt.emit_whileLoop_ok h
    have hhead := (Frame.Rests.numbered s (s.labels.fresh "while").2).trans
      (.labelled _ (s.labels.fresh "while").1)
    have ht := hhead.trans (Emit.branchUnless_rests hv (hs.rests hhead) htest)
    have hblock := (ih _ _ (hs.rests ht).enter hbody).leave (hs.rests ht)
    exact (ht.trans_balances hs hblock).trans_rests ((Frame.Rests.instruction _ _).trans (.labelled _ _))
  case forLoop =>
    intro init cond step body ih s s' hs h
    obtain ⟨r, t, t', r', hinit, htest, hbody, hstep, rfl⟩ := Stmt.emit_forLoop_ok h
    have hnumbered := Frame.Rests.numbered s (s.labels.fresh "for").2
    have hnumber := hs.rests hnumbered
    have hr := Simple.forM_balances hv init hnumber.enter hinit
    have hlabelled := Frame.Rests.labelled r (s.labels.fresh "for").1
    have ht := hlabelled.trans (Emit.forM_branchUnless_rests hv (hr.idle.rests hlabelled) htest)
    have hround := hr.trans_rests ht
    have hblock := (ih _ _ hround.idle.enter hbody).leave hround.idle
    have hstepped := Simple.forM_balances hv step hblock.idle hstep
    have hloop := (((hround.trans hblock).trans hstepped).trans_rests
      ((Frame.Rests.instruction _ (.jmp (s.labels.fresh "for").1)).trans
        (.labelled _ ((s.labels.fresh "for").1 ++ "_end")))).leave hnumber
    exact hnumbered.trans_balances hs hloop
  case ret =>
    intro value s s' hs h
    exact (Stmt.ret_rests hv hs h).balances hs
  case block =>
    intro body ih s s' hs h
    obtain ⟨t, hbody, rfl⟩ := Stmt.emit_block_ok h
    exact (ih _ _ hs.enter hbody).leave hs
  case nil =>
    intro s s' hs h
    obtain ⟨_, rfl⟩ := Emit.pure_ok.mp h
    exact (Frame.Rests.refl s').balances hs
  case cons =>
    intro stmt rest ihstmt ihrest s s' hs h
    obtain ⟨t, hstmt, hrest⟩ := Stmt.emitAll_cons_ok h
    have hfirst := ihstmt s t hs hstmt
    have hsecond := ihrest t s' hfirst.idle hrest
    have hdeclared : (stmt :: rest).reverse.filterMap Stmt.declared? =
        rest.reverse.filterMap Stmt.declared? ++ stmt.declared?.toList := by
      cases hstmt : stmt.declared? <;> simp [hstmt]
    rw [hdeclared]
    exact hfirst.trans hsecond

/-- Code generation is balanced. -/
theorem emission_balanced (hv : sigs.Valid) :
    (∀ (e : Expr) (wanted : RegisterClass) (s s' : Frame) (rd : Register), s.Sound → s.Ready e →
      e.emit sigs wanted s = .ok rd s' →
        s.Gains wanted rd s' ∧ s'.usedSlots = s.usedSlots ∧
        (∀ callee count t parked,
          Moment.Reaches sigs ⟨.expr e wanted, s, []⟩ ⟨.calling callee count, t, parked⟩ →
            ∀ r ∈ RegisterClass.callerSaved.members,
              t.pool.holds r = true ↔ r ∈ Register.arguments.take count) ∧
        ∀ before callee after,
          s'.code.toList = s.code.toList ++ (before ++ .code (.call callee) :: after) →
            Moment.CallsAt sigs ⟨.expr e wanted, s, []⟩ callee (s.code.toList ++ before)) ∧
    ∀ (stmt : Stmt) (s s' : Frame), s.Idle → stmt.emit sigs s = .ok () s' →
      s.Balances stmt.declared?.toList s' := by
  refine ⟨?_, (Stmt.emit_balances hv).1⟩
  intro e wanted s s' rd hs hready h
  refine ⟨(e.compiles hv.arity hs hready h).1, (e.emit_plain sigs wanted h).usedSlots, ?_, ?_⟩
  · intro callee count t parked hreaches
    have hsteady := hreaches.steady hv (show Part.Steady (.expr e wanted) s from ⟨hs, hready⟩)
    exact hsteady
  · intro before callee after hcode
    obtain ⟨new, hnew, hcalls⟩ := e.calls_known [] h
    rw [hnew] at hcode
    exact hcalls before callee after (List.append_cancel_left hcode)

namespace ShadowedCalls

/-- The functions that a unit with a function `f` of two parameters can call. -/
def table : Signatures :=
  ⟨⟨"f", ["a", "b"], true⟩ :: Signatures.builtin.entries⟩

/-- The expression `f(x, 1) + f(2, f(x, 3))`. -/
def expr : Expr :=
  .binary .add (.call "f" [.var "x" 2, .num 1] 0)
    (.call "f" [.num 2, .call "f" [.var "x" 16, .num 3] 14] 10)

/-- The variable `x` is in a register, as is another one that it shadows. -/
def frame : Frame :=
  { pool := (({} : Pool).take .r0).take .r1
    scopes := ⟨[("x", .register .r1)], [[("x", .register .r0)]]⟩
    localSlots := 1 }

/-- The statement `var y = f(x, 1) + f(2, f(x, 3));`. -/
def stmt : Stmt :=
  .simple (.var "y" (some expr) 0)

private theorem idle : frame.Idle := by
  refine ⟨⟨?_, ⟨by decide, by decide⟩, ?_⟩, ?_⟩ <;>
  · intro r
    cases r <;> decide

private theorem emits :
    (match expr.emit table .callerSaved frame with
      | .ok _ s' => decide (Line.code (.call (.internal "f")) ∈ s'.code.toList)
      | .error .. => false) = true ∧
    ((stmt.emit table frame) matches .ok ..) = true := by
  decide +kernel

end ShadowedCalls

theorem emission_balanced_shadowedCalls :
    (∃ rd s', ShadowedCalls.expr.emit ShadowedCalls.table .callerSaved ShadowedCalls.frame = .ok rd s' ∧
      ShadowedCalls.frame.Gains .callerSaved rd s' ∧
      ∃ before after, s'.code.toList = before ++ .code (.call (.internal "f")) :: after ∧
        Moment.CallsAt ShadowedCalls.table ⟨.expr ShadowedCalls.expr .callerSaved, ShadowedCalls.frame, []⟩
          (.internal "f") before) ∧
    ∃ s', ShadowedCalls.stmt.emit ShadowedCalls.table ShadowedCalls.frame = .ok () s' ∧
      ShadowedCalls.frame.Balances [("y", false)] s' := by
  have hvalid : ShadowedCalls.table.Valid := ⟨by decide, by decide, by decide⟩
  have hidle := ShadowedCalls.idle
  obtain ⟨hcall, hok⟩ := ShadowedCalls.emits
  obtain ⟨hexpr, hstmt⟩ := emission_balanced hvalid
  constructor
  · cases h : ShadowedCalls.expr.emit ShadowedCalls.table .callerSaved ShadowedCalls.frame with
    | error e s' => simp [h] at hcall
    | ok rd s' =>
      obtain ⟨hgains, _, _, hcalls⟩ := hexpr _ _ _ _ _ hidle.sound (hidle.ready _) h
      rw [h, decide_eq_true_iff] at hcall
      obtain ⟨before, after, hcode⟩ := List.append_of_mem hcall
      exact ⟨rd, s', rfl, hgains, before, after, hcode, hcalls before _ after hcode⟩
  · cases h : ShadowedCalls.stmt.emit ShadowedCalls.table ShadowedCalls.frame with
    | error e s' => simp [h] at hok
    | ok _ s' => exact ⟨s', rfl, hstmt _ _ _ hidle h⟩

end WordLang
