import Mathlib.Data.List.Nodup
import WordLang.Proofs.FunctionCode
import WordLang.Proofs.Moments

/-!
# The local area

The words that the declarations of a body take are counted before its code is emitted. While it is emitted, each
declaration gets words of its own, and in the end all words of the local area are given away. The words that a call
pushes lie below the local area, each below the one before it, and a variable that is moved out of its register
around a call is found in its pushed word.
-/

namespace WordLang

/-! ## Words -/

/-- The offsets of the `n` words below the topmost `base` ones, from the top. -/
def wordsBelow (base : Int) (n : Nat) : List Int :=
  (List.range n).map fun k : Nat => -(base + (k + 1))

private theorem wordsBelow_add (base : Int) (n m : Nat) :
    wordsBelow base (n + m) = wordsBelow base n ++ wordsBelow (base + n) m := by
  simp only [wordsBelow, List.range_add, List.map_append, List.map_map, Function.comp_def]
  congr 1
  apply List.map_congr_left
  intro k _
  push_cast
  omega

private theorem wordsBelow_succ (base : Int) (n : Nat) :
    wordsBelow base (n + 1) = wordsBelow base n ++ [-(base + (n + 1))] := by
  rw [wordsBelow, List.range_succ, List.map_append]
  rfl

private theorem wordsBelow_nodup (base : Int) (n : Nat) : (wordsBelow base n).Nodup := by
  apply List.Nodup.map_on _ List.nodup_range
  intro k _ j _ heq
  omega

private theorem mem_wordsBelow {base w : Int} {n : Nat} : w ∈ wordsBelow base n ↔ -(base + n) ≤ w ∧ w < -base := by
  simp only [wordsBelow, List.mem_map, List.mem_range]
  constructor
  · rintro ⟨k, hk, rfl⟩
    omega
  · intro hw
    exact ⟨(-base - w - 1).toNat, by omega, by omega⟩

private theorem range_perm_wordsBelow (base : Int) (n : Nat) :
    ((List.range n).map fun k : Nat => -(base + n) + k).Perm (wordsBelow base n) := by
  have hnodup : ((List.range n).map fun k : Nat => -(base + n) + k).Nodup := by
    apply List.Nodup.map_on _ List.nodup_range
    intro k _ j _ heq
    omega
  rw [List.perm_ext_iff_of_nodup hnodup (wordsBelow_nodup base n)]
  intro w
  rw [mem_wordsBelow, List.mem_map]
  constructor
  · rintro ⟨k, hk, rfl⟩
    have hlt := List.mem_range.mp hk
    omega
  · intro hw
    exact ⟨(w + (base + n)).toNat, List.mem_range.mpr (by omega), by omega⟩

/-! ## Places of variables around calls -/

namespace Scopes

/-- Where a declaration lives, shadowed or not. -/
def place? (binding : Binding) : List Scope → Option Storage
  | [] => none
  | scope :: outer =>
    if outer.length = binding.depth then scope.lookup binding.name else place? binding outer

private theorem length_rebindIn {binding : Binding} {storage : Storage} {layers layers' : List Scope}
    (h : rebindIn binding storage layers = some layers') : layers'.length = layers.length := by
  induction layers generalizing layers' with
  | nil => cases h
  | cons scope outer ih =>
    unfold rebindIn at h
    split at h
    · obtain ⟨scope', _, rfl⟩ := Option.map_eq_some_iff.mp h
      rfl
    · obtain ⟨outer', houter, rfl⟩ := Option.map_eq_some_iff.mp h
      rw [List.length_cons, List.length_cons, ih houter]

private theorem lookup_rebind {scope scope' : Scope} {name : String} {storage : Storage}
    (h : scope.rebind name storage = some scope') (other : String) :
    scope'.lookup other = if other = name then some storage else scope.lookup other := by
  induction scope generalizing scope' with
  | nil => cases h
  | cons entry rest ih =>
    obtain ⟨declared, old⟩ := entry
    unfold Scope.rebind at h
    split at h
    · obtain rfl := Option.some.inj h
      subst declared
      rw [List.lookup_cons, List.lookup_cons]
      by_cases hother : other = name
      · simp [hother]
      · simp [hother, beq_eq_false_iff_ne.mpr hother]
    · rename_i hne
      obtain ⟨rest', hrest, rfl⟩ := Option.map_eq_some_iff.mp h
      rw [List.lookup_cons, List.lookup_cons, ih hrest]
      by_cases hother : other = declared
      · subst declared
        simp [hne]
      · simp [beq_eq_false_iff_ne.mpr hother]

private theorem place?_rebindIn {binding : Binding} {storage : Storage} {layers layers' : List Scope}
    (h : rebindIn binding storage layers = some layers') (other : Binding) :
    place? other layers' = if other = binding then some storage else place? other layers := by
  obtain ⟨depth, name⟩ := binding
  obtain ⟨depth', name'⟩ := other
  induction layers generalizing layers' with
  | nil => cases h
  | cons scope outer ih =>
    unfold rebindIn at h
    split at h
    · rename_i hdepth
      obtain ⟨scope', hscope, rfl⟩ := Option.map_eq_some_iff.mp h
      simp only [place?, lookup_rebind hscope, Binding.mk.injEq]
      grind
    · rename_i hdepth
      obtain ⟨outer', houter, rfl⟩ := Option.map_eq_some_iff.mp h
      simp only [place?, length_rebindIn houter, ih houter, Binding.mk.injEq]
      grind

private theorem Tidy.place?_move {layers : List Scope} (ht : Tidy layers) {r : Register} {binding : Binding}
    (h : holderIn r layers = some binding) (storage : Storage) :
    place? binding layers = some (.register r) ∧
      ∀ other, place? other (layers.map fun scope => scope.map (moved r storage)) =
        if other = binding then some storage else place? other layers := by
  obtain ⟨hmove, hback⟩ := ht.rebindIn_move h storage
  refine ⟨?_, place?_rebindIn hmove⟩
  rw [place?_rebindIn hback, if_pos rfl]

end Scopes

/-- The words that calls have pushed since a frame: they lie one below the other under the local area, variables
that were moved are found there, and all other variables are where they were. -/
structure Moment.Stacked (start : Frame) (m : Moment) : Prop where
  localSlots : m.frame.localSlots = start.localSlots
  usedSlots : m.frame.usedSlots = start.usedSlots
  stackDepth : m.frame.stackDepth = m.parked.length
  offsets : m.parked.map Parked.offset = wordsBelow start.localSlots m.parked.length
  moved : ∀ binding offset, .variable binding offset ∈ m.parked →
    Scopes.place? binding m.frame.scopes.layers = some (.stack offset false)
  others : ∀ binding, (∀ offset, .variable binding offset ∉ m.parked) →
    Scopes.place? binding m.frame.scopes.layers = Scopes.place? binding start.scopes.layers

namespace Moment

variable {sigs : Signatures} {start s t : Frame} {m m' : Moment} {part part' : Part} {parked : List Parked}

private theorem Stacked.initial (part : Part) (hs : s.stackDepth = 0) : Stacked s ⟨part, s, []⟩ :=
  ⟨rfl, rfl, hs, rfl, by simp, fun _ _ => rfl⟩

/-- Nothing is pushed, and the frames agree on variables and words. -/
theorem Stacked.congr (h : Stacked start ⟨part, s, parked⟩) (hstays : s.Stays t)
    (hused : t.usedSlots = s.usedSlots) (part' : Part) : Stacked start ⟨part', t, parked⟩ := by
  refine ⟨hstays.localSlots.trans h.localSlots, hused.trans h.usedSlots, hstays.stackDepth.trans h.stackDepth,
    h.offsets, ?_, ?_⟩
  · rw [hstays.scopes]
    exact h.moved
  · rw [hstays.scopes]
    exact h.others

private theorem Stacked.offsets_push (h : Stacked start ⟨part, s, parked⟩) {p : Parked}
    (hp : p.offset = -(s.localSlots + (s.stackDepth + 1))) :
    (parked ++ [p]).map Parked.offset = wordsBelow start.localSlots (parked ++ [p]).length := by
  have hoffsets : parked.map Parked.offset = wordsBelow start.localSlots parked.length := h.offsets
  have hlocal : s.localSlots = start.localSlots := h.localSlots
  have hdepth : s.stackDepth = parked.length := h.stackDepth
  rw [List.map_append, hoffsets, List.length_append, List.length_singleton, wordsBelow_succ, List.map_singleton,
    hp, hlocal, hdepth]

private theorem Stacked.spilled (h : Stacked start ⟨part, s, parked⟩) (hs : s.Sound) {r : Register} {binding : Binding}
    (hholder : Scopes.holderIn r s.scopes.layers = some binding) (part' : Part) :
    Stacked start ⟨part', s.spilled r,
      parked ++ [.variable binding (-(s.localSlots + (s.stackDepth + 1)))]⟩ := by
  obtain ⟨hplace, hmove⟩ := hs.tidy.place?_move hholder (.stack (-(s.localSlots + (s.stackDepth + 1))) false)
  have hdepth : s.stackDepth = parked.length := h.stackDepth
  have hmoved (b : Binding) (offset : Int) (hb : .variable b offset ∈ parked) :
      Scopes.place? b s.scopes.layers = some (.stack offset false) := h.moved b offset hb
  refine ⟨h.localSlots, h.usedSlots, ?_, h.offsets_push rfl, ?_, ?_⟩
  · simp [Frame.spilled, hdepth]
  · intro other offset hmem
    refine (hmove other).trans ?_
    rcases List.mem_append.mp hmem with hearlier | hlast
    · have hne : other ≠ binding := by
        rintro rfl
        have hstill := hplace.symm.trans (hmoved other offset hearlier)
        cases hstill
      rw [if_neg hne]
      exact hmoved other offset hearlier
    · cases List.mem_singleton.mp hlast
      rw [if_pos rfl]
  · intro other hother
    have hne : other ≠ binding := by
      rintro rfl
      exact hother _ (List.mem_append_right parked List.mem_cons_self)
    refine (hmove other).trans ?_
    rw [if_neg hne]
    exact h.others other fun offset hmem => hother offset (List.mem_append_left _ hmem)

private theorem Enters.stacked (hv : sigs.Valid) (h : m.Enters sigs m') (hsteady : m.part.Steady m.frame)
    (hm : m.Stacked start) : m'.Stacked start := by
  cases h with
  | index | operand | left | call | pass | single | several | argument =>
    exact hm.congr ⟨rfl, rfl, rfl, fun _ hq => hq⟩ rfl _
  | @right op lhs rhs wanted s t parked rs h =>
    obtain ⟨hs, hready⟩ := hsteady
    have hg := (lhs.compiles hv.arity hs (fun hcall => hready (by simp [Expr.hasCall, hcall])) h).1
    exact hm.congr hg.toStays (lhs.emit_plain sigs _ h).usedSlots _
  | @keep callee args r rest s t parked h =>
    rcases Emit.spillRegister_ok hsteady.1 h with ⟨_, _, rfl⟩ | ⟨_, hfound, _⟩
    · exact hm.congr ⟨rfl, rfl, rfl, fun _ hq => hq⟩ rfl _
    · cases hfound
  | @spill callee args r rest s t t' parked found offset hpush h =>
    obtain ⟨_, rfl, _⟩ := Emit.push_ok.mp hpush
    rcases Emit.spillRegister_ok hsteady.1 h with ⟨hfound, _⟩ | ⟨binding, hfound, _, hholder, rfl⟩
    · cases hfound
    · obtain rfl := Option.some.inj hfound
      exact hm.spilled hsteady.1 hholder _
  | @stage e rest s t t' t'' parked rs offset he hpush hfree =>
    obtain ⟨hs, hvacant⟩ := hsteady
    have hg := (e.compiles hv.arity hs (hvacant.ready e) he).1
    have ht := hm.congr hg.toStays (e.emit_plain sigs _ he).usedSlots (.staging rest)
    obtain ⟨_, rfl, rfl⟩ := Emit.push_ok.mp hpush
    obtain ⟨_, rfl⟩ := Emit.free_ok hfree
    have hdepth : t.stackDepth = parked.length := ht.stackDepth
    refine ⟨ht.localSlots, ht.usedSlots, by simp [hdepth], ht.offsets_push rfl, ?_, ?_⟩
    · intro binding offset hmem
      rcases List.mem_append.mp hmem with hmem | hmem
      · exact ht.moved binding offset hmem
      · cases List.mem_singleton.mp hmem
    · intro binding hnone
      exact ht.others binding fun offset hmem => hnone offset (List.mem_append_left _ hmem)
  | @invoke callee args s t parked h =>
    obtain ⟨hs, hargs, hvacant⟩ := hsteady
    have hlends := (Emit.pass_ok hargs (fun e _ => e.compiles hv.arity) hs (fun e _ => hvacant.ready e) h).1
    have hplain : s.Appends sigs t := (Emit.Plain.law sigs).pass (fun e _ => e.emit_plain sigs _) h
    exact hm.congr hlends.toStays hplain.usedSlots _

/-- At every moment of an expression the pushed words are stacked below the local area. -/
theorem Reaches.stacked (hv : sigs.Valid) (h : m.Reaches sigs m') (hsteady : m.part.Steady m.frame)
    (hm : m.Stacked start) : m'.Stacked start := by
  induction h with
  | refl => exact hm
  | tail hpath hlast ih => exact hlast.stacked hv (Reaches.steady hv hpath hsteady) ih

end Moment

/-! ## Declarations and expressions of a body -/

/-- The frame that a step leaves. -/
def Emit.after {α : Type} (step : Emit α) (s : Frame) : Frame :=
  match step s with
  | .ok _ t | .error _ t => t

private theorem Emit.after_ok {α : Type} {step : Emit α} {a : α} {s t : Frame} (h : step s = .ok a t) :
    step.after s = t := by
  rw [Emit.after, h]

/-- A point in the emission of a body: the code of an expression starts there, or a variable has just been
declared. -/
inductive Occasion where
  | evaluates (e : Expr) (wanted : RegisterClass) (frame : Frame)
  | declares (name : String) (size : Nat) (frame : Frame)

namespace Occasion

def frame : Occasion → Frame
  | .evaluates _ _ frame | .declares _ _ frame => frame

/-- The words of a variable that has just been declared, from where it was placed upwards. -/
def words : Occasion → List Int
  | .evaluates _ _ _ => []
  | .declares name size frame =>
    match frame.scopes.inner.lookup name with
    | some (.stack offset _) => (List.range size).map fun k : Nat => offset + k
    | _ => []

end Occasion

/-- The occasions of a simple statement. The words of a variable are claimed before its initial value is
computed. -/
def Simple.occasions (sigs : Signatures) (stmt : Simple) (s : Frame) : List Occasion :=
  match stmt with
  | .var name none _ => [.declares name 1 ((stmt.emit sigs).after s)]
  | .var name (some value) _ =>
    [.evaluates value .callerSaved ((Emit.claim 1).after s), .declares name 1 ((stmt.emit sigs).after s)]
  | .array name length _ => [.declares name length.toInt.toNat ((stmt.emit sigs).after s)]
  | .assign (.var _ _) value => [.evaluates value .callerSaved s]
  | .assign (.element name index pos) value =>
    let wanted := RegisterClass.callerSaved.surviving value
    [.evaluates index wanted s,
      .evaluates value .callerSaved ((Emit.address name pos wanted (index.emit sigs wanted)).after s)]
  | .expr e => [.evaluates e .callerSaved s]

mutual

/-- The occasions of a statement, in the order of emission. -/
def Stmt.occasions (sigs : Signatures) : Stmt → Frame → List Occasion
  | .simple stmt, s => stmt.occasions sigs s
  | .ifThen cond body, s =>
    let label := (s.labels.fresh "if").1
    let start := s.numbered (s.labels.fresh "if").2
    let t := (Emit.branchUnless sigs cond (label ++ "_end")).after start
    .evaluates cond .callerSaved start :: occasionsOf sigs body (t.within t.scopes.enter)
  | .ifElse cond body other, s =>
    let label := (s.labels.fresh "if").1
    let start := s.numbered (s.labels.fresh "if").2
    let t := (Emit.branchUnless sigs cond (label ++ "_else")).after start
    let t' := ((Stmt.emitAll sigs body).after (t.within t.scopes.enter)).within t.scopes
    let r := (t'.coded (.jmp (label ++ "_end"))).labelled (label ++ "_else")
    .evaluates cond .callerSaved start ::
      (occasionsOf sigs body (t.within t.scopes.enter) ++ occasionsOf sigs other (r.within r.scopes.enter))
  | .whileLoop cond body, s =>
    let label := (s.labels.fresh "while").1
    let start := (s.numbered (s.labels.fresh "while").2).labelled label
    let t := (Emit.branchUnless sigs cond (label ++ "_end")).after start
    .evaluates cond .callerSaved start :: occasionsOf sigs body (t.within t.scopes.enter)
  | .forLoop init cond step body, s =>
    let label := (s.labels.fresh "for").1
    let start := (s.numbered (s.labels.fresh "for").2).within s.scopes.enter
    let head := ((init.forM (Simple.emit sigs)).after start).labelled label
    let t := (cond.forM fun cond => Emit.branchUnless sigs cond (label ++ "_end")).after head
    let t' := ((Stmt.emitAll sigs body).after (t.within t.scopes.enter)).within t.scopes
    (init.toList.flatMap fun stmt => stmt.occasions sigs start) ++
      (cond.toList.map (.evaluates · .callerSaved head) ++
        (occasionsOf sigs body (t.within t.scopes.enter) ++
          step.toList.flatMap fun stmt => stmt.occasions sigs t'))
  | .ret value, s => value.toList.map (.evaluates · .callerSaved s)
  | .block body, s => occasionsOf sigs body (s.within s.scopes.enter)

def Stmt.occasionsOf (sigs : Signatures) : List Stmt → Frame → List Occasion
  | [], _ => []
  | stmt :: rest, s => stmt.occasions sigs s ++ occasionsOf sigs rest ((stmt.emit sigs).after s)

end

def Header.occasions (header : Header) (sigs : Signatures) (body : List Stmt) (s : Frame) : List Occasion :=
  Stmt.occasionsOf sigs body (header.emit.after s)

/-- The occasions share out the next `n` words of the local area, and each expression starts with nothing pushed. -/
structure Frame.Covers (s : Frame) (n : Nat) (occasions : List Occasion) : Prop where
  words : (occasions.flatMap Occasion.words).Perm (wordsBelow s.usedSlots n)
  slots : ∀ o ∈ occasions, o.frame.localSlots = s.localSlots ∧ s.usedSlots ≤ o.frame.usedSlots ∧
    o.frame.usedSlots ≤ s.usedSlots + n
  steady : ∀ e wanted t, .evaluates e wanted t ∈ occasions → t.Sound ∧ t.Ready e ∧ t.stackDepth = 0

namespace Frame.Covers

variable {s s' t : Frame} {n m : Nat} {first rest : List Occasion}

protected theorem nil (s : Frame) : s.Covers 0 [] :=
  ⟨.refl [], by simp, by simp⟩

protected theorem append (h : s.Covers n first) (h' : t.Covers m rest) (hlocal : t.localSlots = s.localSlots)
    (hused : t.usedSlots = s.usedSlots + n) : s.Covers (n + m) (first ++ rest) := by
  refine ⟨?_, ?_, ?_⟩
  · rw [List.flatMap_append, wordsBelow_add, ← hused]
    exact h.words.append h'.words
  · intro o ho
    rcases List.mem_append.mp ho with ho | ho
    · have ho := h.slots o ho
      omega
    · have ho := h'.slots o ho
      omega
  · intro e wanted r hr
    rcases List.mem_append.mp hr with hr | hr
    · exact h.steady e wanted r hr
    · exact h'.steady e wanted r hr

private theorem congr (h : t.Covers n rest) (hlocal : t.localSlots = s.localSlots) (hused : t.usedSlots = s.usedSlots) :
    s.Covers n rest := by
  refine ⟨hused ▸ h.words, ?_, h.steady⟩
  rw [← hlocal, ← hused]
  exact h.slots

private theorem evaluates {e : Expr} {wanted : RegisterClass} (h : s.Covers n rest)
    (ht : t.Sound ∧ t.Ready e ∧ t.stackDepth = 0) (hlocal : t.localSlots = s.localSlots)
    (hused : s.usedSlots ≤ t.usedSlots ∧ t.usedSlots ≤ s.usedSlots + n) :
    s.Covers n (.evaluates e wanted t :: rest) := by
  refine ⟨h.words, ?_, ?_⟩
  · intro o ho
    rcases List.mem_cons.mp ho with rfl | ho
    · exact ⟨hlocal, hused⟩
    · exact h.slots o ho
  · intro e' wanted' r hr
    rcases List.mem_cons.mp hr with heq | hr
    · cases heq
      exact ht
    · exact h.steady e' wanted' r hr

private theorem starts {e : Expr} {wanted : RegisterClass} (h : s.Covers n rest)
    (ht : t.Sound ∧ t.Ready e ∧ t.stackDepth = 0) (hlocal : t.localSlots = s.localSlots)
    (hused : t.usedSlots = s.usedSlots) : s.Covers n (.evaluates e wanted t :: rest) :=
  h.evaluates ht hlocal (by omega)

private theorem startsIf (h : s.Covers n rest) (e : Option Expr) (wanted : RegisterClass) (ht : t.Settled)
    (hlocal : t.localSlots = s.localSlots) (hused : t.usedSlots = s.usedSlots) :
    s.Covers n (e.toList.map (.evaluates · wanted t) ++ rest) := by
  cases e with
  | none => exact h
  | some e => exact h.starts ⟨ht.sound, ht.ready e, ht.depth⟩ hlocal hused

private theorem declares {name : String} {array : Bool}
    (hplace : t.scopes.inner.lookup name = some (.stack (-(s.usedSlots + n)) array))
    (hlocal : t.localSlots = s.localSlots) (hused : t.usedSlots = s.usedSlots + n) :
    s.Covers n [.declares name n t] := by
  refine ⟨?_, ?_, by simp⟩
  · rw [List.flatMap_singleton, Occasion.words, hplace]
    exact range_perm_wordsBelow s.usedSlots n
  · intro o ho
    rw [List.mem_singleton.mp ho]
    exact ⟨hlocal, by simp only [Occasion.frame]; omega, by simp only [Occasion.frame]; omega⟩

end Frame.Covers

variable {sigs : Signatures} {s s' t : Frame} {u : Unit}

private theorem Simple.covers (hv : sigs.Valid) (stmt : Simple) (hs : s.Settled)
    (hroom : s.usedSlots + stmt.slots ≤ s.localSlots) (h : stmt.emit sigs s = .ok u s') :
    s.Covers stmt.slots (stmt.occasions sigs s) := by
  have hdeclares := stmt.emit_declares hv hs hroom h
  have hafter := Emit.after_ok h
  have hstart (e : Expr) : s.Sound ∧ s.Ready e ∧ s.stackDepth = 0 := ⟨hs.sound, hs.ready e, hs.depth⟩
  match stmt with
  | .var name none pos =>
    simp only [Simple.occasions, hafter]
    obtain ⟨_, rfl⟩ := Simple.emit_var_none_ok h
    exact .declares List.lookup_cons_self hdeclares.localSlots hdeclares.usedSlots
  | .var name (some value) pos =>
    simp only [Simple.occasions, hafter]
    obtain ⟨_, _, hclaim, _⟩ := Emit.bind_ok.mp h
    obtain ⟨rs, t, hvalue, _, rfl⟩ := Simple.emit_var_some_ok h
    have hclaimed := hs.claimed Int.one_nonneg hroom
    rw [Emit.after_ok hclaim, (Emit.claim_ok.mp hclaim).2.2]
    refine .evaluates (.declares List.lookup_cons_self hdeclares.localSlots hdeclares.usedSlots)
      ⟨hclaimed.sound, hclaimed.ready value, hclaimed.depth⟩ rfl ?_
    simp only [Frame.claimed_usedSlots, Simple.slots]
    omega
  | .array name length pos =>
    simp only [Simple.occasions, hafter]
    obtain ⟨_, rfl⟩ := Simple.emit_array_ok h
    exact .declares List.lookup_cons_self hdeclares.localSlots hdeclares.usedSlots
  | .assign (.var name pos) value =>
    exact .starts (.nil s) (hstart value) rfl rfl
  | .assign (.element name index pos) value =>
    simp only [Simple.emit, Emit.assign, Emit.bind_ok] at h
    obtain ⟨element, s₁, haddress, _⟩ := h
    have hg := (Emit.address_ok (index.compiles hv.arity) hs.sound (hs.ready index) haddress).1
    have hused := ((Emit.Plain.law sigs).address (m := 0) trivial (index.emit_plain sigs _) haddress).usedSlots
    simp only [Simple.occasions, Emit.after_ok haddress]
    have hvalue : s.Covers 0 [.evaluates value .callerSaved s₁] :=
      .starts (.nil s) ⟨hg.sound hs.sound, hg.ready (hs.ready value), hg.stackDepth.trans hs.depth⟩
        hg.localSlots hused
    exact hvalue.starts (hstart index) rfl rfl
  | .expr e => exact .starts (.nil s) (hstart e) rfl rfl

private theorem Simple.forM_covers (hv : sigs.Valid) (stmt : Option Simple) (hs : s.Settled)
    (hroom : s.usedSlots + (stmt.map Simple.slots).getD 0 ≤ s.localSlots)
    (h : stmt.forM (Simple.emit sigs) s = .ok u s') :
    s.Covers ((stmt.map Simple.slots).getD 0) (stmt.toList.flatMap fun stmt => stmt.occasions sigs s) := by
  cases stmt with
  | none => exact .nil s
  | some stmt =>
    rw [Option.toList_some, List.flatMap_singleton]
    exact stmt.covers hv hs hroom h

/-- The declarations of a statement share out the words that were counted for it. -/
theorem Stmt.covers (hv : sigs.Valid) :
    (∀ (stmt : Stmt) (s s' : Frame), s.Settled → s.usedSlots + stmt.slots ≤ s.localSlots →
      stmt.emit sigs s = .ok () s' → s.Covers stmt.slots (stmt.occasions sigs s)) ∧
    ∀ (body : List Stmt) (s s' : Frame), s.Settled → s.usedSlots + Stmt.slotsOf body ≤ s.localSlots →
      Stmt.emitAll sigs body s = .ok () s' → s.Covers (Stmt.slotsOf body) (Stmt.occasionsOf sigs body s) := by
  apply Stmt.induction
  case simple =>
    intro stmt s s' hs hroom h
    exact stmt.covers hv hs hroom h
  case ifThen =>
    intro cond body ih s s' hs hroom h
    obtain ⟨t, t', htest, hbody, rfl⟩ := Stmt.emit_ifThen_ok h
    obtain ⟨hstart, ht, hinner, hroom', _⟩ := Stmt.branch_frames hv hs hroom (.numbered s _) htest hbody
    have hblock := (ih _ _ hinner hroom' hbody).congr ht.localSlots ht.usedSlots
    simp only [Stmt.occasions, Emit.after_ok htest]
    exact hblock.starts ⟨hstart.sound, hstart.ready cond, hstart.depth⟩ rfl rfl
  case ifElse =>
    intro cond body other ihbody ihother s s' hs hroom h
    obtain ⟨t, t', r', htest, hbody, hother, rfl⟩ := Stmt.emit_ifElse_ok h
    have hslots : s.usedSlots + (Stmt.slotsOf body + Stmt.slotsOf other) ≤ s.localSlots := by
      simpa [Stmt.slots] using hroom
    obtain ⟨hstart, ht, hinner, hroom', hdeclares⟩ :=
      Stmt.branch_frames hv hs (by omega) (.numbered s _) htest hbody
    have hfirst := (ihbody _ _ hinner hroom' hbody).congr ht.localSlots ht.usedSlots
    have hbetween := hdeclares.trans_rests
      ((Frame.Rests.instruction _ (.jmp ((s.labels.fresh "if").1 ++ "_end"))).trans
        (.labelled _ ((s.labels.fresh "if").1 ++ "_else")))
    have hused := hbetween.usedSlots
    have hlocal := hbetween.localSlots
    have hsecond := ihother _ _ hbetween.settled.enter
      (by simp only [Frame.within_usedSlots, Frame.within_localSlots]; omega) hother
    have hboth := hfirst.append hsecond hlocal hused
    simp only [Stmt.occasions, Emit.after_ok htest, Emit.after_ok hbody]
    exact hboth.starts ⟨hstart.sound, hstart.ready cond, hstart.depth⟩ rfl rfl
  case whileLoop =>
    intro cond body ih s s' hs hroom h
    obtain ⟨t, t', htest, hbody, rfl⟩ := Stmt.emit_whileLoop_ok h
    have hhead := (Frame.Rests.numbered s (s.labels.fresh "while").2).trans
      (.labelled _ (s.labels.fresh "while").1)
    obtain ⟨hstart, ht, hinner, hroom', _⟩ := Stmt.branch_frames hv hs hroom hhead htest hbody
    have hblock := (ih _ _ hinner hroom' hbody).congr ht.localSlots ht.usedSlots
    simp only [Stmt.occasions, Emit.after_ok htest]
    exact hblock.starts ⟨hstart.sound, hstart.ready cond, hstart.depth⟩ rfl rfl
  case forLoop =>
    intro init cond step body ih s s' hs hroom h
    obtain ⟨r, t, t', r', hinit, htest, hbody, hstep, rfl⟩ := Stmt.emit_forLoop_ok h
    obtain ⟨hr, hrests, hblock, _⟩ :=
      Stmt.forLoop_frames hv ((Stmt.emit_declares hv).2 body) hs hroom hinit htest hbody hstep
    obtain ⟨⟨hstart, hroom₁⟩, hlabelled, ⟨hinner, hroom₂⟩, hsettled, hroom₃⟩ :=
      Stmt.forLoop_rooms hv hs hroom hinit htest hbody hstep
    have hfirst := Simple.forM_covers hv init hstart hroom₁ hinit
    have hround := ih _ _ hinner hroom₂ hbody
    have hlast := Simple.forM_covers hv step hsettled hroom₃ hstep
    have hrest := (hround.append hlast hblock.localSlots hblock.usedSlots).congr hrests.localSlots hrests.usedSlots
    have htested := hrest.startsIf cond .callerSaved hlabelled rfl rfl
    have htotal : Stmt.slots (.forLoop init cond step body) = (init.map Simple.slots).getD 0 +
        (Stmt.slotsOf body + (step.map Simple.slots).getD 0) := by
      simp only [Stmt.slots]
      omega
    rw [htotal]
    simp only [Stmt.occasions, Emit.after_ok hinit, Emit.after_ok htest, Emit.after_ok hbody]
    exact (hfirst.append htested hr.localSlots hr.usedSlots).congr rfl rfl
  case ret =>
    intro value s s' hs hroom h
    have hvalue := (Frame.Covers.nil s).startsIf value .callerSaved hs rfl rfl
    rw [List.append_nil] at hvalue
    exact hvalue
  case block =>
    intro body ih s s' hs hroom h
    obtain ⟨t, hbody, rfl⟩ := Stmt.emit_block_ok h
    exact (ih _ _ hs.enter hroom hbody).congr rfl rfl
  case nil =>
    intro s s' hs _ h
    exact .nil s
  case cons =>
    intro stmt rest ihstmt ihrest s s' hs hroom h
    obtain ⟨t, hstmt, hrest⟩ := Stmt.emitAll_cons_ok h
    have hslots : s.usedSlots + (stmt.slots + Stmt.slotsOf rest) ≤ s.localSlots := by
      simpa [Stmt.slotsOf] using hroom
    have hfirst := (Stmt.emit_declares hv).1 stmt s t hs (by omega) hstmt
    have hlater := ihrest t s' hfirst.settled (by rw [hfirst.usedSlots, hfirst.localSlots]; omega) hrest
    simp only [Stmt.occasionsOf, Emit.after_ok hstmt]
    exact (ihstmt s t hs (by omega) hstmt).append hlater hfirst.localSlots hfirst.usedSlots

/-- Emission shares out the local area as it was counted beforehand: the words of the declarations, those in all
nested blocks together, are the words of the local area, each once. The words that are pushed around calls lie
below, no two of them at one offset. -/
theorem Header.emitBody_area (hv : sigs.Valid) {header : Header} {body : List Stmt} {policy : FreePolicy}
    {labels : LabelSupply} {frame : Frame}
    (h : header.emitBody sigs body (.start policy labels body) = .ok () frame) :
    frame.usedSlots = Stmt.slotsOf body ∧
    (∀ o ∈ header.occasions sigs body (.start policy labels body), o.frame.usedSlots ≤ Stmt.slotsOf body) ∧
    ((header.occasions sigs body (.start policy labels body)).flatMap Occasion.words).Nodup ∧
    (∀ w, w ∈ (header.occasions sigs body (.start policy labels body)).flatMap Occasion.words ↔
      -(Stmt.slotsOf body : Int) ≤ w ∧ w ≤ -1) ∧
    ∀ e wanted t, .evaluates e wanted t ∈ header.occasions sigs body (.start policy labels body) →
      ∀ m, Moment.Reaches sigs ⟨.expr e wanted, t, []⟩ m →
        m.Stacked t ∧ m.frame.usedSlots ≤ Stmt.slotsOf body ∧ (m.parked.map Parked.offset).Nodup ∧
        ∀ p ∈ m.parked, p.offset < -(Stmt.slotsOf body : Int) := by
  obtain ⟨t, t', hparams, hbody, hlast⟩ := Header.emitBody_ok h
  have hr := Header.emit_receives (Frame.start_settled policy labels body) hparams
  have hused : t.usedSlots = 0 := hr.usedSlots
  have hlocal : t.localSlots = Stmt.slotsOf body := hr.localSlots
  have hroom : t.usedSlots + Stmt.slotsOf body ≤ t.localSlots := by omega
  have hdeclares := (Stmt.emit_declares hv).2 body t t' hr.settled hroom hbody
  have hcovers := (Stmt.covers hv).2 body t t' hr.settled hroom hbody
  rw [Header.occasions, Emit.after_ok hparams]
  refine ⟨?_, ?_, ?_, ?_, ?_⟩
  · have hend : frame.usedSlots = t'.usedSlots := by
      rcases hlast with ⟨_, rfl⟩ | ⟨_, _, rfl⟩ <;> rfl
    have htotal := hdeclares.usedSlots
    omega
  · intro o ho
    have hslots := hcovers.slots o ho
    omega
  · exact hcovers.words.nodup_iff.mpr (wordsBelow_nodup _ _)
  · intro w
    rw [hcovers.words.mem_iff, mem_wordsBelow]
    omega
  · intro e wanted r hmem m hreaches
    obtain ⟨hsound, hready, hdepth⟩ := hcovers.steady e wanted r hmem
    have hslots := hcovers.slots _ hmem
    have hstacked := hreaches.stacked hv ⟨hsound, hready⟩ (.initial _ hdepth)
    have hlocal' : r.localSlots = Stmt.slotsOf body := hslots.1.trans hlocal
    refine ⟨hstacked, ?_, ?_, ?_⟩
    · have hle : r.usedSlots ≤ t.usedSlots + Stmt.slotsOf body := hslots.2.2
      rw [hstacked.usedSlots]
      omega
    · rw [hstacked.offsets]
      exact wordsBelow_nodup _ _
    · intro p hp
      have hword : p.offset ∈ wordsBelow r.localSlots m.parked.length :=
        hstacked.offsets ▸ List.mem_map_of_mem hp
      rw [mem_wordsBelow, hlocal'] at hword
      exact hword.2

namespace NestedDeclarations

def table : Signatures :=
  ⟨⟨"g", ["a"], true⟩ :: Signatures.builtin.entries⟩

def header : Header :=
  ⟨"g", ["a"], 0⟩

/-- The call `g(g(1))`. -/
def call : Expr :=
  .call "g" [.call "g" [.num 1] 2] 0

/-- An array of two words, the call, and a variable in each branch of an `if`, one of them set to the parameter. -/
def body : List Stmt :=
  [.simple (.array "v" 2 0), .simple (.expr call),
    .ifElse (.var "a" 0) [.simple (.var "x" (some (.var "a" 0)) 0)] [.simple (.var "y" none 0)]]

def start : Frame :=
  .start .strict {} body

def declared : Frame :=
  ((Simple.array "v" 2 0).emit table).after (header.emit.after start)

private theorem emits :
    ((header.emitBody table body start) matches .ok ..) = true ∧
    (match Emit.spillRegister .r0 declared with
      | .ok (some found) _ => decide (found.binding = ⟨0, "a"⟩)
      | _ => false) = true ∧
    -5 = -(declared.localSlots + (declared.stackDepth + 1)) := by
  decide +kernel

end NestedDeclarations

theorem Header.emitBody_area_nestedDeclarations :
    ∃ frame, NestedDeclarations.header.emitBody NestedDeclarations.table NestedDeclarations.body
        NestedDeclarations.start = .ok () frame ∧ frame.usedSlots = 4 ∧
      (∀ w, w ∈ (NestedDeclarations.header.occasions NestedDeclarations.table NestedDeclarations.body
        NestedDeclarations.start).flatMap Occasion.words ↔ -4 ≤ w ∧ w ≤ -1) ∧
      ∃ t m, .evaluates NestedDeclarations.call .callerSaved t ∈ NestedDeclarations.header.occasions
          NestedDeclarations.table NestedDeclarations.body NestedDeclarations.start ∧
        Moment.Reaches NestedDeclarations.table ⟨.expr NestedDeclarations.call .callerSaved, t, []⟩ m ∧
        m.parked = [.variable ⟨0, "a"⟩ (-5)] ∧
        Scopes.place? ⟨0, "a"⟩ m.frame.scopes.layers = some (.stack (-5) false) := by
  have hvalid : NestedDeclarations.table.Valid := ⟨by decide, by decide, by decide⟩
  obtain ⟨hok, hspills, hoffset⟩ := NestedDeclarations.emits
  cases h : NestedDeclarations.header.emitBody NestedDeclarations.table NestedDeclarations.body
      NestedDeclarations.start with
  | error e s' => simp [h] at hok
  | ok _ frame =>
    obtain ⟨hused, _, _, hwords, hmoments⟩ := Header.emitBody_area hvalid h
    refine ⟨frame, rfl, hused, hwords, ?_⟩
    have hmem : Occasion.evaluates NestedDeclarations.call .callerSaved NestedDeclarations.declared ∈
        NestedDeclarations.header.occasions NestedDeclarations.table NestedDeclarations.body
          NestedDeclarations.start :=
      List.mem_cons_of_mem _ List.mem_cons_self
    cases hspill : Emit.spillRegister .r0 NestedDeclarations.declared with
    | error e t => simp [hspill] at hspills
    | ok found t =>
      cases found with
      | none => simp [hspill] at hspills
      | some found =>
        have hbinding : found.binding = ⟨0, "a"⟩ := by simpa [hspill] using hspills
        have hpush : Emit.push .r0 NestedDeclarations.declared = .ok (-5) (NestedDeclarations.declared.pushed .r0) :=
          Emit.push_ok.mpr ⟨by rw [Frame.CanPush]; decide, hoffset, rfl⟩
        have hreaches : Moment.Reaches NestedDeclarations.table
            ⟨.expr NestedDeclarations.call .callerSaved, NestedDeclarations.declared, []⟩
            ⟨.spilling (.internal "g") [.call "g" [.num 1] 2] [.r1, .r2, .r3, .r4, .r5], t,
              [.variable found.binding (-5)]⟩ :=
          (Relation.ReflTransGen.single (.call rfl rfl)).tail (.spill hpush hspill)
        have hstacked := (hmoments _ _ _ hmem _ hreaches).1
        rw [hbinding] at hstacked hreaches
        exact ⟨_, _, hmem, hreaches, rfl, hstacked.moved _ _ List.mem_cons_self⟩

end WordLang
