import WordLang.Proofs.StmtFrames
import WordLang.Proofs.WellFormed

/-!
# What the outcome of compilation says about expressions

A step of compilation judges a part of the program: it succeeds only if that part is well formed, and unless
it runs out of registers it fails only if it is not. The pool refuses nothing else: each register that is
given back is in use, and each one that is claimed is free. Spilling moves variables but leaves all of them
declared.
-/

namespace WordLang

/-- What an error says about a part of a program: nothing if registers ran out or a counter overflowed, and
otherwise that it is not well formed, at a place in the source. No other refusal of the pool can happen. -/
def CompileError.Blames (wf : Prop) : CompileError → Prop
  | .pool (.exhausted _) | .overflow _ => True
  | .pool _ => False
  | e => ¬ wf ∧ e.offset?.isSome = true

theorem CompileError.Blames.mono {p q : Prop} {e : CompileError} (h : e.Blames p) (hpq : q → p) :
    e.Blames q := by
  cases e with
  | pool cause => cases cause <;> exact h
  | overflow => exact h
  | duplicate | reservedName | unknownFunction | unknownVariable | tooManyParameters | wrongArity
  | notAssignable => exact ⟨fun hq => h.1 (hpq hq), h.2⟩

theorem CompileError.Blames.cases {p : Prop} {e : CompileError} (h : e.Blames p) :
    (∃ requested, e = .pool (.exhausted requested)) ∨ (∃ operation, e = .overflow operation) ∨ ¬ p := by
  cases e with
  | pool cause =>
    cases cause with
    | exhausted requested => exact .inl ⟨requested, rfl⟩
    | alreadyHeld | notPooled | freedTwice | readAfterFree => exact h.elim
  | overflow operation => exact .inr (.inl ⟨operation, rfl⟩)
  | duplicate | reservedName | unknownFunction | unknownVariable | tooManyParameters | wrongArity
  | notAssignable => exact .inr (.inr h.1)

namespace Emit

variable {α β : Type} {x : Emit α} {f : α → Emit β} {s t : Frame} {p q : Prop}

/-- A step that succeeds only if `wf` holds, and blames its failure. -/
def Judges (x : Emit α) (s : Frame) (wf : Prop) : Prop :=
  match x s with
  | .ok _ _ => wf
  | .error e _ => e.Blames wf

def Succeeds (x : Emit α) (s : Frame) : Prop :=
  ∃ a t, x s = .ok a t

theorem Judges.of_ok {a : α} (h : x s = .ok a t) (hp : p) : x.Judges s p := by
  simpa [Judges, h] using hp

theorem Judges.pure {a : α} (h : p) : (pure a : Emit α).Judges s p := h

theorem Judges.throw {e : CompileError} (h : e.Blames p) : (throw e : Emit α).Judges s p := h

theorem Judges.throw_bind {e : CompileError} (h : e.Blames p) : (MonadExcept.throw e >>= f).Judges s p := h

theorem Judges.get {f : Frame → Emit β} (h : (f s).Judges s q) : (get >>= f).Judges s q := h

theorem Judges.congr (h : x.Judges s p) (hpq : p ↔ q) : x.Judges s q :=
  (propext hpq) ▸ h

theorem Judges.step {a : α} (hx : x s = .ok a t) (h : (f a).Judges t q) : (x >>= f).Judges s q := by
  have hrun : (x >>= f) s = f a t := by simp [Bind.bind, EStateM.bind, hx]
  rwa [Judges, hrun]

theorem Judges.bind (hx : x.Judges s p) (hf : ∀ a t, x s = .ok a t → (f a).Judges t q) :
    (x >>= f).Judges s (p ∧ q) := by
  cases hrun : x s with
  | ok a t =>
    have hp : p := by simpa [Judges, hrun] using hx
    have hnext := hf a t hrun
    apply Judges.step hrun
    cases hlast : f a t with
    | ok b u =>
      simp only [Judges, hlast] at hnext ⊢
      exact ⟨hp, hnext⟩
    | error e u =>
      simp only [Judges, hlast] at hnext ⊢
      exact hnext.mono And.right
  | error e t =>
    have hstep : (x >>= f) s = .error e t := by simp [Bind.bind, EStateM.bind, hrun]
    simp only [Judges, hrun] at hx
    simp only [Judges, hstep]
    exact hx.mono And.left

theorem Judges.after (hx : x.Judges s True) (hf : ∀ a t, x s = .ok a t → (f a).Judges t q) :
    (x >>= f).Judges s q :=
  (hx.bind hf).congr (by simp)

theorem Judges.before (hx : x.Judges s p) (hf : ∀ a t, x s = .ok a t → (f a).Judges t True) :
    (x >>= f).Judges s p :=
  (hx.bind hf).congr (by simp)

theorem Succeeds.get {f : Frame → Emit β} (h : (f s).Succeeds s) : (get >>= f).Succeeds s := h

theorem Succeeds.judges (h : x.Succeeds s) : x.Judges s True := by
  obtain ⟨a, t, hrun⟩ := h
  exact .of_ok hrun trivial

private theorem Succeeds.step {a : α} (hx : x s = .ok a t) (h : (f a).Succeeds t) : (x >>= f).Succeeds s := by
  obtain ⟨b, u, hnext⟩ := h
  exact ⟨b, u, bind_ok.mpr ⟨a, t, hx, hnext⟩⟩

theorem instruction_run {i : Instruction} : instruction i s = .ok () (s.coded i) :=
  instruction_ok.mpr rfl

theorem block_run {label : String} : block label s = .ok () (s.labelled label) :=
  block_ok.mpr rfl

private theorem modify_judges (f : Frame → Frame) : (modify f : Emit PUnit).Judges s True :=
  .of_ok (a := ()) (modify_ok.mpr rfl) trivial

private theorem counting_judges : CountingLaw fun x => ∀ s, x.Judges s True where
  bind hx hf := fun s => (hx s).after fun a t hrun => hf s a t hrun t
  get_bind _ hf := fun s => Judges.get (hf s s)
  instruction _ := fun _ => modify_judges _
  counted operation n := by
    intro s
    rcases counted_cases operation n s with hrun | hrun
    · exact .of_ok hrun trivial
    · rw [Judges, hrun]
      trivial
  used _ := fun _ => modify_judges _
  deep _ := fun _ => modify_judges _

theorem claim_judges {size : Int} : (claim size).Judges s True :=
  counting_judges.claim size s

private theorem push_judges {r : Register} : (push r).Judges s True :=
  counting_judges.push r s

private theorem pop_judges {r : Register} : (pop r).Judges s True :=
  counting_judges.pop r s

theorem free_run {r : Register} (hr : r ∈ Register.general) (hheld : s.pool.holds r = true) :
    free r s = .ok () (s.freed r) := by
  apply withPool_run
  simp only [Pool.free, hr, hheld, not_true_eq_false, if_false, Bool.not_true, Bool.false_and,
    Bool.false_eq_true, Except.map]
  rfl

theorem reserve_run {r : Register} (hr : r ∈ Register.general) (hfree : s.pool.holds r = false) :
    reserve r s = .ok () (s.taken r) := by
  apply withPool_run
  simp only [Pool.reserve, hr, hfree, not_true_eq_false, if_false, Bool.false_eq_true, Except.map]

theorem read_run {r : Register} (hheld : s.pool.holds r = true) : read r s = .ok r s := by
  apply withPool_run
  simp only [Pool.read, hheld, if_true, Except.map]

/-- A step after one that takes a free register. Running out of registers is nobody's fault. -/
theorem Judges.allocate {wanted : RegisterClass} {f : Register → Emit β}
    (h : ∀ rd ∈ wanted.members, s.pool.holds rd = false → (f rd).Judges (s.taken rd) q) :
    (allocate wanted >>= f).Judges s q := by
  refine Judges.after ?_ ?_
  · cases hfree : wanted.members.find? fun r => !s.pool.holds r with
    | some r =>
      have hrun : s.pool.allocate wanted = .ok (r, s.pool.take r) := by simp only [Pool.allocate, hfree]
      exact .of_ok (withPool_run hrun) trivial
    | none =>
      refine Judges.get ?_
      simp only [Pool.allocate, hfree]
      exact Judges.throw trivial
  · intro rd t hrun
    obtain ⟨hmember, hfree, rfl⟩ := allocate_ok hrun
    exact h rd hmember hfree

private theorem forM_reserve_judges {ι : Type} {l : List ι} {r : ι → Register} {body : ι → Emit Unit}
    (hbody : ∀ i ∈ l, ∀ t : Frame, t.pool.holds (r i) = false → (body i).Judges t True)
    (hpool : ∀ i ∈ l, ∀ t t' : Frame, body i t = .ok () t' → t'.pool = t.pool.take (r i))
    (hnodup : (l.map r).Nodup) (hfree : ∀ i ∈ l, s.pool.holds (r i) = false) : (l.forM body).Judges s True := by
  induction l generalizing s with
  | nil => exact .pure trivial
  | cons i l ih =>
    rw [List.map_cons, List.nodup_cons] at hnodup
    refine (hbody i List.mem_cons_self s (hfree i List.mem_cons_self)).after fun _ t hrun => ?_
    refine ih (fun j hj => hbody j (List.mem_cons_of_mem i hj)) (fun j hj => hpool j (List.mem_cons_of_mem i hj))
      hnodup.2 fun j hj => ?_
    have hne : r j ≠ r i := fun he => hnodup.1 (he ▸ List.mem_map_of_mem hj)
    rw [hpool i List.mem_cons_self s t hrun, Pool.holds_take, decide_eq_false hne, hfree j (List.mem_cons_of_mem i hj),
      Bool.false_or]

private theorem forM_free_succeeds {rs : List Register} (hnodup : rs.Nodup)
    (hheld : ∀ r ∈ rs, r ∈ Register.general ∧ s.pool.holds r = true) : (rs.forM free).Succeeds s := by
  induction rs generalizing s with
  | nil => exact ⟨(), s, rfl⟩
  | cons r rs ih =>
    obtain ⟨hr, hr'⟩ := hheld r List.mem_cons_self
    rw [List.nodup_cons] at hnodup
    refine .step (free_run hr hr') (ih hnodup.2 ?_)
    intro q hq
    obtain ⟨hgeneral, hq'⟩ := hheld q (List.mem_cons_of_mem r hq)
    have hne : q ≠ r := fun he => hnodup.1 (he ▸ hq)
    exact ⟨hgeneral, by simp [hne, hq']⟩

end Emit

/-! ## Declared variables of a frame -/

def Storage.isArray : Storage → Bool
  | .register _ => false
  | .stack _ array => array

namespace Scopes

/-- What the variables of a scope are, without where they live. -/
def shape (scope : Scope) : List (String × Bool) :=
  scope.map fun entry => (entry.1, entry.2.isArray)

def declared (scopes : Scopes) : Declared :=
  ⟨shape scopes.inner, scopes.outer.map shape⟩

theorem lookup_shape (scope : Scope) (name : String) :
    (shape scope).lookup name = (scope.lookup name).map Storage.isArray := by
  induction scope with
  | nil => rfl
  | cons entry scope ih =>
    obtain ⟨declared, storage⟩ := entry
    simp only [shape, List.map_cons, List.lookup_cons] at ih ⊢
    split
    · rfl
    · exact ih

theorem find?_declared (scopes : Scopes) (name : String) :
    scopes.declared.find? name =
      (scopes.layers.findSome? fun scope => scope.lookup name).map Storage.isArray := by
  have hlayers : scopes.declared.inner :: scopes.declared.outer = scopes.layers.map shape := rfl
  rw [Declared.find?, hlayers]
  induction scopes.layers with
  | nil => rfl
  | cons scope layers ih =>
    rw [List.map_cons, List.findSome?_cons, List.findSome?_cons, lookup_shape, ih]
    cases scope.lookup name <;> rfl

private theorem declared_move (scopes : Scopes) (r : Register) (offset : Int) :
    (scopes.move r (.stack offset false)).declared = scopes.declared := by
  have hentry : ∀ entry : String × Storage,
      (moved r (.stack offset false) entry).2.isArray = entry.2.isArray := by
    intro entry
    by_cases hr : entry.2 = .register r
    · simp [moved, hr, Storage.isArray]
    · simp [moved, hr]
  have hshape : ∀ scope : Scope, shape (scope.map (moved r (.stack offset false))) = shape scope := by
    intro scope
    simp only [shape, List.map_map, Function.comp_def, hentry]
    rfl
  simp only [declared, move, List.map_map, Function.comp_def, hshape]

end Scopes

/-! ## Variables around a call -/

namespace Emit

variable {s t : Frame}

private theorem rebind_run {binding : Binding} {storage : Storage} (scopes : Scopes)
    (h : Scopes.rebindIn binding storage s.scopes.layers = some scopes.layers) :
    rebind binding storage s = .ok () (s.within scopes) := by
  rw [rebind, withScopes, get_bind_ok]
  simp only [Scopes.rebind, h]
  exact modify_ok.mpr rfl

private theorem spillRegister_judges (hs : s.Sound) (r : Register) : (spillRegister r).Judges s True := by
  refine Judges.get ?_
  by_cases hr : s.pool.holds r = true
  · rw [if_pos hr]
    cases hb : s.scopes.holder? r with
    | none => exact .pure trivial
    | some binding =>
      refine push_judges.after fun offset t hpush => ?_
      obtain ⟨_, rfl, rfl⟩ := push_ok.mp hpush
      have hmove := (hs.tidy.rebindIn_move hb (.stack (-(s.localSlots + (s.stackDepth + 1))) false)).1
      refine .step (rebind_run (s.scopes.move r _) hmove) ?_
      exact .step (free_run (hs.general r hr) hr) (.pure trivial)
  · rw [if_neg hr]
    exact .pure trivial

private theorem spill_judges (hs : s.Sound) (rs : List Register) : (rs.filterMapM spillRegister).Judges s True := by
  induction rs generalizing s with
  | nil => exact .pure trivial
  | cons r rs ih =>
    rw [List.filterMapM_cons]
    refine (spillRegister_judges hs r).after ?_
    intro found t hfound
    rcases spillRegister_ok hs hfound with ⟨rfl, _, rfl⟩ | ⟨binding, rfl, _, _, rfl⟩
    · exact ih hs
    · exact (ih (hs.spilled r)).after fun rest u _ => .pure trivial

end Emit

namespace Frame.Spilled

variable {rs : List Register} {s s' t : Frame} {spills : List Spill}

private theorem registers_sublist (h : s.Spilled rs spills s') : (spills.map Spill.register).Sublist rs := by
  induction h with
  | nil s => exact .slnil
  | skip _ _ ih => exact ih.cons _
  | move _ _ _ ih => exact ih.cons_cons _

/-- Variables that were pushed can be popped back where they came from. -/
theorem restore_judges (h : s.Spilled rs spills s') (hs : s.Sound) (ht : t.scopes = s'.scopes) :
    (Emit.restore spills).Judges t True := by
  induction h with
  | nil s => exact .pure trivial
  | skip _ _ ih => exact ih hs ht
  | @move r rs s s' spills binding _ hb hrest ih =>
    rw [Emit.restore, List.reverse_cons, List.forM_eq_forM, List.forM_append]
    refine (ih (hs.spilled r) ht).after ?_
    intro _ u hu
    obtain rfl := hrest.restore_ok (hs.spilled r) ht hu
    have hback := (hs.tidy.rebindIn_move hb (.stack (-(s.localSlots + (s.stackDepth + 1))) false)).2
    simp only [List.forM_cons, List.forM_nil, bind_assoc]
    refine Emit.pop_judges.after fun _ u hpop => ?_
    obtain ⟨_, rfl⟩ := Emit.pop_ok.mp hpop
    exact .step (Emit.rebind_run s.scopes hback) (.pure trivial)

private theorem declared (h : s.Spilled rs spills s') : s'.scopes.declared = s.scopes.declared := by
  induction h with
  | nil s => rfl
  | skip _ _ ih => exact ih
  | move _ _ _ ih => exact ih.trans (Scopes.declared_move _ _ _)

end Frame.Spilled

/-! ## Expressions -/

def Signatures.arity? (sigs : Signatures) (name : String) : Option Nat :=
  (sigs.find? name).map Signature.arity

/-- The code of an expression judges the expression, in every frame. -/
def Expr.Judged (sigs : Signatures) (e : Expr) : Prop :=
  ∀ ⦃s : Frame⦄ ⦃wanted : RegisterClass⦄, s.Sound → s.Ready e →
    (e.emit sigs wanted).Judges s (e.WellFormed sigs.arity? s.scopes.declared)

theorem Register.arguments_nodup (n : Nat) : (Register.arguments.take n).Nodup :=
  (List.take_sublist n Register.arguments).nodup (by decide)

variable {sigs : Signatures}

namespace Emit

variable {s t : Frame} {α β : Type} {q : Prop}

theorem Judges.lookup {name : String} {pos : Nat} {f : Storage → Emit β}
    (h : ∀ storage, (s.scopes.layers.findSome? fun scope => scope.lookup name) = some storage →
      (f storage).Judges s q) :
    (Emit.lookup name (some pos) >>= f).Judges s ((s.scopes.declared.find? name).isSome = true ∧ q) := by
  refine Judges.bind ?_ ?_
  · refine Judges.get ?_
    rw [Scopes.find?_declared]
    cases hfound : s.scopes.layers.findSome? fun scope => scope.lookup name with
    | some storage =>
      simp only [Scopes.lookup, hfound]
      exact Judges.pure rfl
    | none =>
      simp only [Scopes.lookup, hfound]
      exact Judges.throw ⟨by simp, rfl⟩
  · intro storage t hrun
    obtain ⟨hfound, rfl⟩ := lookup_ok.mp hrun
    exact h storage hfound

private theorem Judges.withZero {step : Register → Emit Unit} {f : Unit → Emit β}
    (hstep : ∀ zero t, ∃ t', step zero t = .ok () t' ∧ t'.pool = t.pool)
    (h : ∀ t : Frame, (∀ r, t.pool.holds r = s.pool.holds r) → (f ()).Judges t q) :
    (Emit.withZero step >>= f).Judges s q := by
  simp only [Emit.withZero, bind_assoc]
  refine Judges.allocate ?_
  intro zero hmember hfree
  obtain ⟨t, ht, hpool⟩ := hstep zero ((s.taken zero).coded (.li zero 0))
  have hheld : t.pool.holds zero = true := by simp [hpool]
  refine .step instruction_run (.step ht (.step (free_run (RegisterClass.members_general hmember) hheld) ?_))
  apply h
  intro r
  rw [Frame.freed_pool, hpool]
  exact Frame.holds_taken_freed hfree r

theorem address_judges {name : String} {pos : Nat} {wanted : RegisterClass} {i : Expr}
    (hi : i.Judged sigs) (hc : i.Compiles sigs) (hs : s.Sound) (hready : s.Ready i) :
    (address name pos wanted (i.emit sigs wanted)).Judges s
      ((s.scopes.declared.find? name).isSome = true ∧ i.WellFormed sigs.arity? s.scopes.declared) := by
  refine Judges.lookup ?_
  intro storage hfound
  refine (hi hs hready).before ?_
  intro rs t hindex
  have hg := (hc hs hready hindex).1
  rw [← hg.scopes] at hfound
  refine .step (lookup_ok.mpr ⟨hfound, rfl⟩) (Judges.allocate ?_)
  intro rd _ _
  refine .step instruction_run (.step instruction_run (.step (free_run hg.general ?_) (.pure trivial)))
  simp [hg.holds_self]

private theorem unary_judges {op : UnaryOp} {rd : Register} : (unary op rd).Judges s True := by
  cases op with
  | neg =>
    rw [← bind_pure (unary .neg rd)]
    exact Judges.withZero (fun zero t => ⟨_, instruction_run, rfl⟩) fun t _ => .pure trivial
  | not => exact .of_ok instruction_run trivial

private theorem binary_judges {op : BinaryOp} {wanted found : RegisterClass} {rs1 rs2 : Register}
    (h1 : rs1 ∈ Register.general ∧ s.pool.holds rs1 = true)
    (h2 : rs2 ∈ Register.general ∧ s.pool.holds rs2 = true) (hne : rs1 ≠ rs2) :
    (binary op wanted found rs1 rs2).Judges s True := by
  have hend : ∀ t : Frame, (∀ r, t.pool.holds r = s.pool.holds r) →
      ((if found = wanted then pure rs1 else allocate wanted) >>= fun rd => do
        instruction (.binary op.operation rd rs1 rs2)
        free rs2
        (if rd ≠ rs1 then free rs1 else pure ()) >>= fun _ => pure rd : Emit Register).Judges t True := by
    intro t ht
    have ht1 : t.pool.holds rs1 = true := (ht rs1).trans h1.2
    have ht2 : t.pool.holds rs2 = true := (ht rs2).trans h2.2
    by_cases hfound : found = wanted
    · rw [if_pos hfound]
      refine .step rfl (.step instruction_run (.step (free_run h2.1 ht2) ?_))
      rw [if_neg (not_not.mpr rfl)]
      exact .step rfl (.pure trivial)
    · rw [if_neg hfound]
      refine Judges.allocate ?_
      intro rd _ hfree
      have hrd : rd ≠ rs1 := by
        intro he
        rw [he, ht1] at hfree
        exact absurd hfree (by decide)
      refine .step instruction_run (.step (free_run h2.1 (by simp [ht2])) ?_)
      rw [if_pos hrd]
      exact .step (free_run h1.1 (by simp [hne, ht1])) (.pure trivial)
  rw [binary_eq]
  by_cases hop : op.isLogical = true
  · rw [if_pos hop]
    exact Judges.withZero (fun zero t => ⟨_, bind_ok.mpr ⟨(), _, instruction_run, instruction_run⟩, rfl⟩) hend
  · rw [if_neg hop]
    exact .step rfl (hend s fun _ => rfl)

private theorem Judges.stages {args : List Expr} {f : Unit → Emit β} (hv : sigs.Valid)
    (hargs : ∀ e ∈ args, e.Judged sigs) (hs : s.Sound) (hready : ∀ e ∈ args, s.Ready e)
    (h : ∀ t : Frame, (∀ r, t.pool.holds r = s.pool.holds r) → (f ()).Judges t True) :
    ((args.map (·.emit sigs .callerSaved)).forM stage >>= f).Judges s
      (Expr.allWellFormed sigs.arity? s.scopes.declared args) := by
  induction args generalizing s with
  | nil => exact h s fun _ => rfl
  | cons e es ih =>
    have he := hready e List.mem_cons_self
    have hstage : (stage (e.emit sigs .callerSaved)).Judges s
        (e.WellFormed sigs.arity? s.scopes.declared) := by
      refine (hargs e List.mem_cons_self hs he).before ?_
      intro rs t hemit
      have hg := (e.compiles hv.arity hs he hemit).1
      refine push_judges.after fun _ u hpush => ?_
      obtain ⟨_, _, rfl⟩ := push_ok.mp hpush
      exact .of_ok (free_run hg.general hg.holds_self) trivial
    simp only [List.map_cons, List.forM_eq_forM, List.forM_cons, bind_assoc]
    refine hstage.bind ?_
    intro _ t hrun
    obtain ⟨⟨hscopes, _⟩, hholds, _⟩ := stage_ok (e.compiles hv.arity) hs he hrun
    rw [← hscopes]
    refine ih (fun e' he' => hargs e' (List.mem_cons_of_mem e he')) (hs.congr hscopes hholds) ?_ ?_
    · intro e' he'
      exact (hready e' (List.mem_cons_of_mem e he')).congr hscopes hholds
    · intro t' ht'
      exact h t' fun r => (ht' r).trans (hholds r)

private theorem pass_judges {args : List Expr} (hv : sigs.Valid) (hargs : ∀ e ∈ args, e.Judged sigs) (hs : s.Sound)
    (hfree : ∀ r ∈ RegisterClass.callerSaved.members, s.pool.holds r = false) :
    (pass (Expr.emitAll sigs args)).Judges s (Expr.allWellFormed sigs.arity? s.scopes.declared args) := by
  have hready : ∀ e ∈ args, s.Ready e := fun e _ _ r hr hheld => absurd hheld (by simp [hfree r hr])
  rw [Expr.emitAll_eq]
  match args, hargs, hready with
  | [], _, _ => exact .pure trivial
  | [e], hargs, hready =>
    have he := hready e List.mem_cons_self
    refine ((hargs e List.mem_cons_self hs he).before ?_).congr (and_true _).symm.to_iff
    intro rs t hemit
    have hg := (e.compiles hv.arity hs he hemit).1
    by_cases hrs : rs = .r0
    · rw [if_neg (not_not.mpr hrs)]
      exact .pure trivial
    · rw [if_pos hrs]
      have hr0 : t.pool.holds .r0 = false := by
        rw [hg.holds, decide_eq_false (Ne.symm hrs), hfree .r0 (by decide), Bool.or_false]
      refine .step (reserve_run (by decide) hr0) (.step instruction_run ?_)
      exact .of_ok (free_run hg.general (by simp [hg.holds_self])) trivial
  | e :: e' :: es, hargs, hready =>
    refine Judges.stages hv hargs hs hready ?_
    intro t ht
    refine forM_reserve_judges (r := id) ?_ ?_ ?_ ?_
    · intro r hr u hu
      have hcaller := Register.arguments_callerSaved _ r (List.mem_reverse.mp hr)
      exact .step (reserve_run (RegisterClass.members_general hcaller) hu) pop_judges
    · intro r hr u u' hrun
      obtain ⟨_, _, hreserve, hpop⟩ := bind_ok.mp hrun
      obtain ⟨_, _, rfl⟩ := reserve_ok hreserve
      rw [(pop_ok.mp hpop).2]
      rfl
    · rw [List.map_id]
      exact List.pairwise_reverse.mpr ((Register.arguments_nodup _).imp Ne.symm)
    · intro r hr
      rw [id, ht]
      exact hfree r (Register.arguments_callerSaved _ r (List.mem_reverse.mp hr))

/-- A call after its checks. -/
theorem called_judges {callee : Callee} {args : List Expr} {finish : Emit α} (hv : sigs.Valid)
    (hargs : ∀ e ∈ args, e.Judged sigs) (hlength : args.length ≤ Register.arguments.length) (hs : s.Sound)
    (hready : ∀ r ∈ RegisterClass.callerSaved.members, s.pool.holds r = true →
      r ∈ Scopes.registers s.scopes.layers)
    (hfinish : ∀ t : Frame, finish.Judges t True)
    (hkeep : ∀ (t t' : Frame) (a : α), finish t = .ok a t' → t'.scopes = t.scopes) :
    (do
      let spills ← spill
      pass (Expr.emitAll sigs args)
      instruction (.call callee)
      (Register.arguments.take args.length).forM free
      reclaim spills
      let result ← finish
      restore spills
      return result : Emit α).Judges s (Expr.allWellFormed sigs.arity? s.scopes.declared args) := by
  refine (spill_judges hs _).after ?_
  intro spills s₁ hspill
  have hspilled := spill_ok hs hspill
  have hs₁ := hspilled.sound hs
  have hfree := hspilled.unheld hready
  rw [← hspilled.declared]
  refine (pass_judges hv hargs hs₁ hfree).before ?_
  intro _ s₂ hpass
  have hlends := (pass_ok hlength (fun e _ => e.compiles hv.arity) hs₁
    (fun e _ _ r hr hheld => absurd hheld (by simp [hfree r hr])) hpass).1
  have hused : ∀ r ∈ Register.arguments.take args.length, r ∈ Register.general ∧
      (s₂.coded (.call callee)).pool.holds r = true := by
    intro r hr
    refine ⟨RegisterClass.members_general (Register.arguments_callerSaved _ r hr), ?_⟩
    rw [Frame.coded_pool, hlends.holds, decide_eq_true hr, Bool.true_or]
  refine .step instruction_run ((forM_free_succeeds (Register.arguments_nodup _) hused).judges.after ?_)
  intro _ s₃ hfrees
  obtain ⟨pool, rfl, hholds, _⟩ := forM_free_ok hfrees
  have hspills : ∀ sp ∈ spills, sp.register ∈ RegisterClass.callerSaved.members := fun sp hsp =>
    hspilled.registers_sublist.subset (List.mem_map_of_mem hsp)
  have hreclaim : (reclaim spills).Judges ((s₂.coded (.call callee)).pooled pool) True := by
    refine forM_reserve_judges (r := Spill.register) ?_ ?_ ?_ ?_
    · intro sp hsp t ht
      exact .of_ok (reserve_run (RegisterClass.members_general (hspills sp hsp)) ht) trivial
    · intro sp hsp t t' hrun
      obtain ⟨_, _, rfl⟩ := reserve_ok hrun
      rfl
    · exact hspilled.registers_sublist.nodup (by decide)
    · intro sp hsp
      rw [Frame.pooled_pool, hholds, Frame.coded_pool, hlends.holds, hfree _ (hspills sp hsp), Bool.or_false,
        Bool.not_and_self]
  refine hreclaim.after ?_
  intro _ s₄ hrun
  obtain ⟨_, rfl, _⟩ := reclaim_ok hrun
  refine (hfinish _).after ?_
  intro a s₅ hrun
  have hscopes : s₅.scopes = s₁.scopes := (hkeep _ _ _ hrun).trans hlends.scopes
  exact (hspilled.restore_judges hs hscopes).after fun _ t _ => .pure trivial

theorem call_judges {name : String} {pos : Nat} {args : List Expr} {finish : Emit α} (hv : sigs.Valid)
    (hargs : ∀ e ∈ args, e.Judged sigs) (hs : s.Sound)
    (hready : ∀ r ∈ RegisterClass.callerSaved.members, s.pool.holds r = true →
      r ∈ Scopes.registers s.scopes.layers)
    (hfinish : ∀ t : Frame, finish.Judges t True)
    (hkeep : ∀ (t t' : Frame) (a : α), finish t = .ok a t' → t'.scopes = t.scopes) :
    (call sigs name pos (Expr.emitAll sigs args) finish).Judges s
      ((Expr.call name args pos).WellFormed sigs.arity? s.scopes.declared) := by
  have hlength : (Expr.emitAll sigs args).length = args.length := by rw [Expr.emitAll_eq, List.length_map]
  rw [call, Expr.WellFormed, Signatures.arity?, Signatures.lookup, hlength]
  cases hfind : sigs.find? name with
  | none => exact Judges.throw ⟨by simp, rfl⟩
  | some sig =>
    change Emit.Judges (ite _ _ _) s _
    by_cases harity : sig.arity = args.length
    · have hargs' : args.length ≤ Register.arguments.length :=
        harity ▸ hv.arity sig (List.mem_of_find?_eq_some hfind)
      rw [if_neg (not_not.mpr harity)]
      refine (called_judges hv hargs hargs' hs hready hfinish hkeep).congr ?_
      simp [harity]
    · rw [if_pos harity]
      refine Judges.throw_bind ⟨?_, rfl⟩
      simp [harity]

private theorem receive_judges (wanted : RegisterClass) (t : Frame) : (receive wanted).Judges t True := by
  refine Judges.get ?_
  split
  · rename_i hfree
    exact .step (reserve_run (by decide) hfree.2) (.pure trivial)
  · refine Judges.allocate ?_
    intro rd _ _
    exact .step instruction_run (.pure trivial)

end Emit

/-- The code of every expression judges it. -/
theorem Expr.judged (hv : sigs.Valid) (e : Expr) : e.Judged sigs := by
  induction e using Expr.induction with
  | num value =>
    intro s wanted hs hready
    rw [Expr.emit]
    refine Emit.Judges.allocate ?_
    intro rd _ _
    exact .step Emit.instruction_run (.pure trivial)
  | var name pos =>
    intro s wanted hs hready
    rw [Expr.emit]
    refine (Emit.Judges.lookup (q := True) ?_).congr (and_true _).to_iff
    intro storage _
    refine Emit.Judges.allocate ?_
    intro rd _ _
    exact .step Emit.instruction_run (.pure trivial)
  | index name i pos ih =>
    intro s wanted hs hready
    rw [Expr.emit]
    refine (Emit.address_judges ih (i.compiles hv.arity) hs hready).before ?_
    intro rd t _
    exact .step Emit.instruction_run (.pure trivial)
  | call name args pos ih =>
    intro s wanted hs hready
    rw [Expr.emit]
    refine Emit.call_judges hv ih hs (hready rfl) (Emit.receive_judges wanted) ?_
    intro t t' rd hrun
    have hreceived : t.Gains wanted rd t' ∧ t.Finishes sigs t' fun m v => m.reg rd = v :=
      Emit.receive_ok hrun
    exact hreceived.1.scopes
  | unary op operand ih =>
    intro s wanted hs hready
    rw [Expr.emit]
    refine (ih hs hready).before ?_
    intro rd t _
    exact Emit.unary_judges.before fun _ t' _ => .pure trivial
  | binary op lhs rhs ihl ihr =>
    intro s wanted hs hready
    have hl : s.Ready lhs := fun hcall => hready (by simp [Expr.hasCall, hcall])
    have hr : s.Ready rhs := fun hcall => hready (by simp [Expr.hasCall, hcall])
    rw [Expr.emit]
    refine (ihl hs hl).bind ?_
    intro rs1 s₁ hlhs
    have hg1 := (lhs.compiles hv.arity hs hl hlhs).1
    have hs₁ := hg1.sound hs
    rw [← hg1.scopes]
    refine (ihr hs₁ (hg1.ready hr)).before ?_
    intro rs2 s₂ hrhs
    have hg2 := (rhs.compiles hv.arity hs₁ (hg1.ready hr) hrhs).1
    have hne : rs1 ≠ rs2 := (hg1.unheld hg2.fresh).2.symm
    exact Emit.binary_judges ⟨hg1.general, hg2.held rs1 hg1.holds_self⟩ ⟨hg2.general, hg2.holds_self⟩ hne

end WordLang
