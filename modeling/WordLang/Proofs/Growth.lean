import WordLang.Proofs.LabelText
import WordLang.Proofs.PlainCode

/-!
# What statements add to a frame

A statement adds lines to the code: plain instructions, jumps to generated labels or to the label before
the epilogue, and label lines. The labels it places are pairwise distinct and were all given out while the
statement was compiled; the label before the epilogue is never among them.
-/

namespace WordLang

open LabelSupply

/-- The lines that occur in the body of a routine whose epilogue has the label `last`. -/
inductive Line.Known (sigs : Signatures) (last : Option String) : Line → Prop
  | label (name : String) : Known sigs last (.label name)
  | plain {i : Instruction} (h : i.Plain sigs) : Known sigs last (.code i)
  | jmp {target : String} (h : Generated target ∨ last = some target) : Known sigs last (.code (.jmp target))
  | jz {rs : Register} {target : String} (h : Generated target ∨ last = some target) :
    Known sigs last (.code (.jz rs target))

private theorem Line.Known.later {sigs : Signatures} {last last' : Option String} {line : Line}
    (h : line.Known sigs last) (hl : ∀ l, last = some l → last' = some l) : line.Known sigs last' := by
  cases h with
  | label name => exact .label name
  | plain hi => exact .plain hi
  | jmp ht => exact .jmp (ht.imp_right (hl _))
  | jz ht => exact .jz (ht.imp_right (hl _))

/-- The second frame is the first with plain code added, and with any registers, scopes, pushes and local
words. -/
structure Frame.Prolongs (sigs : Signatures) (s s' : Frame) : Prop where
  code : ∃ new : List Instruction,
    s'.code = s.code ++ (new.map Line.code).toArray ∧ ∀ i ∈ new, i.Plain sigs
  labels : s'.labels = s.labels
  returnLabel : s'.returnLabel = s.returnLabel

theorem Frame.Appends.prolongs {sigs : Signatures} {s s' : Frame} (h : s.Appends sigs s') :
    s.Prolongs sigs s' :=
  ⟨h.code, h.labels, h.returnLabel⟩

protected theorem Frame.Prolongs.trans {sigs : Signatures} {s s' s'' : Frame} (h : s.Prolongs sigs s')
    (h' : s'.Prolongs sigs s'') : s.Prolongs sigs s'' := by
  obtain ⟨new, hn, hp⟩ := h.code
  obtain ⟨new', hn', hp'⟩ := h'.code
  refine ⟨⟨new ++ new', ?_, ?_⟩, h'.labels.trans h.labels, h'.returnLabel.trans h.returnLabel⟩
  · rw [hn', hn, List.map_append, ← List.append_toArray, Array.append_assoc]
  · intro i hi
    rcases List.mem_append.mp hi with hi | hi
    · exact hp i hi
    · exact hp' i hi

/-- The label before the epilogue is still the same, or it was given out in between. -/
def Frame.Returns (s s' : Frame) : Prop :=
  s'.returnLabel = s.returnLabel ∨
    s.returnLabel = none ∧ ∃ l, s'.returnLabel = some l ∧ Gave ["return"] s.labels s'.labels l

/-- The second frame is the first with lines added whose labels are distinct and satisfy `P`. -/
structure Frame.Grows (sigs : Signatures) (P : String → Prop) (s s' : Frame) : Prop where
  code : ∃ new : List Line, s'.code.toList = s.code.toList ++ new ∧
    (∀ line ∈ new, line.Known sigs s'.returnLabel) ∧
    (new.filterMap Line.label?).Nodup ∧ ∀ l ∈ new.filterMap Line.label?, P l
  labels : s.labels.Precedes s'.labels
  returns : s.Returns s'

namespace Frame

variable {sigs : Signatures} {P P' : String → Prop} {s s' s'' : Frame}

theorem Returns.keep (h : s.Returns s') (l : String) (hl : s.returnLabel = some l) :
    s'.returnLabel = some l := by
  rcases h with h | ⟨h, _⟩
  · rw [h, hl]
  · simp [h] at hl

private theorem Returns.trans (h : s.Returns s') (h' : s'.Returns s'') (hl : s.labels.Precedes s'.labels)
    (hl' : s'.labels.Precedes s''.labels) : s.Returns s'' := by
  rcases h with h | ⟨hnone, l, hsome, hgave⟩
  · rcases h' with h' | ⟨hnone', l, hsome', hgave'⟩
    · exact .inl (h'.trans h)
    · exact .inr ⟨by rw [← h, hnone'], l, hsome',
        hgave'.widen (List.Subset.refl _) hl (.refl _)⟩
  · exact .inr ⟨hnone, l, h'.keep l hsome, hgave.widen (List.Subset.refl _) (.refl _) hl'⟩

namespace Grows

private theorem of_prolongs (h : s.Prolongs sigs s') : s.Grows sigs (fun _ => False) s' := by
  obtain ⟨new, hnew, hplain⟩ := h.code
  have hlabels : (new.map Line.code).filterMap Line.label? = [] := by
    rw [List.filterMap_map]
    exact List.filterMap_eq_nil_iff.mpr fun i _ => rfl
  refine ⟨⟨new.map Line.code, by simp [hnew], ?_, by simp [hlabels], by simp [hlabels]⟩, ?_,
    .inl h.returnLabel⟩
  · intro line hline
    obtain ⟨i, hi, rfl⟩ := List.mem_map.mp hline
    exact .plain (hplain i hi)
  · rw [h.labels]
    exact .refl _

theorem of_appends (h : s.Appends sigs s') : s.Grows sigs (fun _ => False) s' :=
  of_prolongs h.prolongs

protected theorem mono (h : s.Grows sigs P s') (hP : ∀ l, P l → P' l) : s.Grows sigs P' s' := by
  obtain ⟨new, hnew, hknown, hnodup, hall⟩ := h.code
  exact ⟨⟨new, hnew, hknown, hnodup, fun l hl => hP l (hall l hl)⟩, h.labels, h.returns⟩

/-- Growth in two steps, if the labels of the two steps are different. -/
protected theorem trans (h : s.Grows sigs P s') (h' : s'.Grows sigs P' s'')
    (hd : ∀ l, P l → P' l → False) : s.Grows sigs (fun l => P l ∨ P' l) s'' := by
  obtain ⟨new, hnew, hknown, hnodup, hall⟩ := h.code
  obtain ⟨new', hnew', hknown', hnodup', hall'⟩ := h'.code
  refine ⟨⟨new ++ new', by rw [hnew', hnew, List.append_assoc], ?_, ?_, ?_⟩, h.labels.trans h'.labels,
    h.returns.trans h'.returns h.labels h'.labels⟩
  · intro line hline
    rcases List.mem_append.mp hline with hline | hline
    · exact (hknown line hline).later h'.returns.keep
    · exact hknown' line hline
  · rw [List.filterMap_append, List.nodup_append]
    refine ⟨hnodup, hnodup', ?_⟩
    rintro l hl _ hl' rfl
    exact hd l (hall l hl) (hall' l hl')
  · intro l hl
    rw [List.filterMap_append] at hl
    rcases List.mem_append.mp hl with hl | hl
    · exact .inl (hall l hl)
    · exact .inr (hall' l hl)

theorem quiet_trans (h : s.Grows sigs (fun _ => False) s') (h' : s'.Grows sigs P s'') :
    s.Grows sigs P s'' :=
  (h.trans h' fun _ hf _ => hf).mono fun _ hl => hl.elim False.elim id

private theorem trans_quiet (h : s.Grows sigs P s') (h' : s'.Grows sigs (fun _ => False) s'') :
    s.Grows sigs P s'' :=
  (h.trans h' fun _ _ hf => hf).mono fun _ hl => hl.elim id False.elim

private theorem fresh (s : Frame) (kind : String) :
    s.Grows sigs (fun _ => False) { s with labels := (s.labels.fresh kind).2 } :=
  ⟨⟨[], by simp, by simp, by simp, by simp⟩, precedes_fresh _ _, .inl rfl⟩

theorem block (s : Frame) (label : String) :
    s.Grows sigs (· = label) { s with code := s.code.push (.label label) } := by
  refine ⟨⟨[.label label], by simp, ?_, by simp [Line.label?], by simp [Line.label?]⟩, .refl _, .inl rfl⟩
  intro line hline
  rw [List.mem_singleton.mp hline]
  exact .label label

private theorem instruction (s : Frame) (i : Instruction) (hi : (Line.code i).Known sigs s.returnLabel) :
    s.Grows sigs (fun _ => False) { s with code := s.code.push (.code i) } := by
  refine ⟨⟨[.code i], by simp, ?_, List.nodup_nil, fun l hl => List.not_mem_nil hl⟩, .refl _, .inl rfl⟩
  intro line hline
  rw [List.mem_singleton.mp hline]
  exact hi

private theorem gave_trans {some : List String} (hsub : some ⊆ kinds)
    (h : s.Grows sigs (Gave some s.labels s'.labels) s')
    (h' : s'.Grows sigs (Gave some s'.labels s''.labels) s'') :
    s.Grows sigs (Gave some s.labels s''.labels) s'' := by
  refine (h.trans h' fun l hl hl' => hl.disjoint hsub hsub (.refl _) hl').mono fun l hl => ?_
  rcases hl with hl | hl
  · exact hl.widen (List.Subset.refl _) (.refl _) h'.labels
  · exact hl.widen (List.Subset.refl _) h.labels (.refl _)

end Grows

end Frame

namespace Emit

/-- Steps that only add plain code and claim local words. -/
def Prolongs {α : Type} (sigs : Signatures) (x : Emit α) : Prop :=
  ∀ ⦃s a s'⦄, x s = .ok a s' → s.Prolongs sigs s'

theorem Plain.prolongs {α : Type} {sigs : Signatures} {x : Emit α} (h : Plain sigs x) : Prolongs sigs x :=
  fun _ _ _ hx => (h hx).prolongs

private theorem Prolongs.law (sigs : Signatures) : SimpleLaw sigs (fun _ => True) fun _ _ x => Prolongs sigs x where
  toExprLaw := .of_relation (fun s => (Frame.Appends.refl s).prolongs) (fun _ _ _ => .trans)
    (fun s scopes => (Frame.Appends.within s scopes).prolongs) (fun s _ hi => (Frame.Appends.coded s hi).prolongs)
    (fun s pool => (Frame.Appends.pooled s pool).prolongs) (fun s r => (Frame.Appends.pushed s r).prolongs)
    (fun s r => (Frame.Appends.popped s r).prolongs)
  claim size := by
    intro s offset s' h
    obtain ⟨_, _, rfl⟩ := claim_ok.mp h
    exact ⟨⟨[], by simp, by simp⟩, rfl, rfl⟩

/-- Steps that place no labels. -/
def Quiet {α : Type} (sigs : Signatures) (x : Emit α) : Prop :=
  ∀ ⦃s a s'⦄, x s = .ok a s' → s.Grows sigs (fun _ => False) s'

private theorem Prolongs.quiet {α : Type} {sigs : Signatures} {x : Emit α} (h : Prolongs sigs x) : Quiet sigs x :=
  fun _ _ _ hx => .of_prolongs (h hx)

private theorem Plain.quiet {α : Type} {sigs : Signatures} {x : Emit α} (h : Plain sigs x) : Quiet sigs x :=
  h.prolongs.quiet

namespace Quiet

variable {α β : Type} {sigs : Signatures}

protected theorem bind {x : Emit α} {f : α → Emit β} (hx : Quiet sigs x)
    (hf : ∀ a, Quiet sigs (f a)) : Quiet sigs (x >>= f) := by
  intro s b s' h
  obtain ⟨a, t, ha, hb⟩ := bind_ok.mp h
  exact (hx ha).quiet_trans (hf a hb)

private theorem jump {i : Instruction} (hi : (Line.code i).Known sigs none) : Quiet sigs (instruction i) := by
  intro s u s' h
  rw [instruction_ok.mp h]
  exact .instruction s i (hi.later (by simp))

private theorem branchUnless (cond : Expr) {target : String} (ht : Generated target) :
    Quiet sigs (branchUnless sigs cond target) := by
  refine (cond.emit_plain sigs _).quiet.bind fun rs => ?_
  exact (jump (.jz (.inl ht))).bind fun _ => ((Plain.law sigs).free rs).quiet

protected theorem forM {o : Option β} {f : β → Emit PUnit} (hf : ∀ x, Quiet sigs (f x)) :
    Quiet sigs (o.forM f) := by
  cases o with
  | none => exact ((Plain.law sigs).pure _).quiet
  | some x => exact hf x

end Quiet

/-- Looking up the label before the epilogue places no label, and jumping to it is allowed afterwards. -/
theorem returnLabel_grows {sigs : Signatures} {s s' : Frame} {label : String}
    (h : returnLabel s = .ok label s') :
    s.Grows sigs (fun _ => False) { s' with code := s'.code.push (.code (.jmp label)) } := by
  rcases returnLabel_ok h with ⟨hl, rfl⟩ | ⟨hnone, rfl, rfl⟩
  · exact .instruction s' _ (.jmp (.inr hl))
  · have hgiven : s.Grows sigs (fun _ => False) { s with
        labels := (s.labels.fresh "return").2, returnLabel := some (s.labels.fresh "return").1 } := by
      refine ⟨⟨[], by simp, by simp, by simp, by simp⟩, precedes_fresh _ _, .inr ⟨hnone, _, rfl, ?_⟩⟩
      rw [fresh_label_bare]
      exact gave_fresh s.labels (by simp) (by simp [endings])
    exact hgiven.quiet_trans (.instruction _ _ (.jmp (.inr rfl)))

end Emit

theorem Simple.emit_prolongs (sigs : Signatures) (stmt : Simple) : Emit.Prolongs sigs (stmt.emit sigs) :=
  (Emit.Prolongs.law sigs).simple stmt fun _ _ => trivial

theorem Simple.emit_quiet (sigs : Signatures) (stmt : Simple) : Emit.Quiet sigs (stmt.emit sigs) :=
  (stmt.emit_prolongs sigs).quiet

private theorem constructs_sub : constructs ⊆ kinds :=
  List.subset_cons_self _ _

/-- On the way through a construct of a kind that starts at frame `s`: the label lines so far are those of
the statements inside it, and its own ones with the endings `placed`. -/
structure Frame.Builds (sigs : Signatures) (kind : String) (s : Frame) (placed : List String)
    (t : Frame) : Prop where
  inside : (s.labels.fresh kind).2.Precedes t.labels
  own : placed ⊆ endings kind
  grows : s.Grows sigs (fun l => Gave constructs (s.labels.fresh kind).2 t.labels l ∨
    ∃ ending ∈ placed, l = text kind (s.labels.next kind) ending) t

namespace Frame.Builds

variable {sigs : Signatures} {kind : String} {s t t' : Frame} {placed : List String}

private theorem start (s : Frame) (kind : String) :
    s.Builds sigs kind [] { s with labels := (s.labels.fresh kind).2 } :=
  ⟨.refl _, List.nil_subset _, (Frame.Grows.fresh s kind).mono fun _ hf => hf.elim⟩

private theorem quiet (h : s.Builds sigs kind placed t) (hq : t.Grows sigs (fun _ => False) t') :
    s.Builds sigs kind placed t' := by
  refine ⟨h.inside.trans hq.labels, h.own, (h.grows.trans_quiet hq).mono fun l hl => ?_⟩
  exact hl.imp_left fun hg => hg.widen (List.Subset.refl _) (.refl _) hq.labels

private theorem body (h : s.Builds sigs kind placed t) (hk : kind ∈ constructs)
    (hb : t.Grows sigs (Gave constructs t.labels t'.labels) t') : s.Builds sigs kind placed t' := by
  refine ⟨h.inside.trans hb.labels, h.own, (h.grows.trans hb ?_).mono ?_⟩
  · rintro l (hl | ⟨ending, he, rfl⟩) hl'
    · exact hl.disjoint constructs_sub constructs_sub (.refl _) hl'
    · exact (gave_fresh s.labels hk (h.own he)).disjoint constructs_sub constructs_sub h.inside hl'
  · rintro l ((hl | hl) | hl)
    · exact .inl (hl.widen (List.Subset.refl _) (.refl _) hb.labels)
    · exact .inr hl
    · exact .inl (hl.widen (List.Subset.refl _) h.inside (.refl _))

private theorem place (h : s.Builds sigs kind placed t) (hk : kind ∈ constructs) {ending : String}
    (he : ending ∈ endings kind) (hnew : ending ∉ placed) :
    s.Builds sigs kind (ending :: placed)
      { t with code := t.code.push (.label (text kind (s.labels.next kind) ending)) } := by
  refine ⟨h.inside, List.cons_subset.mpr ⟨he, h.own⟩, (h.grows.trans (Frame.Grows.block t _) ?_).mono ?_⟩
  · rintro l (hl | ⟨other, ho, rfl⟩) hl'
    · rw [hl'] at hl
      exact (gave_fresh s.labels hk he).disjoint constructs_sub constructs_sub (.refl _) hl
    · obtain ⟨_, _, rfl⟩ := text_inj (constructs_sub hk) (constructs_sub hk) (h.own ho) he hl'
      exact hnew ho
  · rintro l ((hl | ⟨other, ho, rfl⟩) | rfl)
    · exact .inl hl
    · exact .inr ⟨other, List.mem_cons_of_mem _ ho, rfl⟩
    · exact .inr ⟨ending, List.mem_cons_self, rfl⟩

private theorem finish (h : s.Builds sigs kind placed t) (hk : kind ∈ constructs) :
    s.Grows sigs (Gave constructs s.labels t.labels) t := by
  refine h.grows.mono fun l hl => ?_
  rcases hl with hl | ⟨ending, he, rfl⟩
  · exact hl.widen (List.Subset.refl _) (precedes_fresh _ _) (.refl _)
  · exact (gave_fresh s.labels hk (h.own he)).widen (List.Subset.refl _) (.refl _) h.inside

private theorem rescope (h : s.Builds sigs kind placed t) (scopes : Scopes) :
    s.Builds sigs kind placed { t with scopes } :=
  ⟨h.inside, h.own, h.grows.code, h.grows.labels, h.grows.returns⟩

private theorem jump (h : s.Builds sigs kind placed t) (hk : kind ∈ constructs) {ending : String}
    (he : ending ∈ endings kind) :
    s.Builds sigs kind placed
      { t with code := t.code.push (.code (.jmp (text kind (s.labels.next kind) ending))) } :=
  h.quiet (.instruction t _ (.jmp (.inl ⟨kind, constructs_sub hk, _, ending, he, rfl⟩)))

end Frame.Builds

private theorem own_generated {kind ending : String} (before : LabelSupply) (hk : kind ∈ constructs)
    (he : ending ∈ endings kind) : Generated (text kind (before.next kind) ending) :=
  (gave_fresh before hk he).generated constructs_sub

/-- A statement places labels that were given out for it, and each of them once. -/
theorem Stmt.emit_grows (sigs : Signatures) :
    (∀ (stmt : Stmt) (s s' : Frame), stmt.emit sigs s = .ok () s' →
      s.Grows sigs (Gave constructs s.labels s'.labels) s') ∧
    ∀ (body : List Stmt) (s s' : Frame), Stmt.emitAll sigs body s = .ok () s' →
      s.Grows sigs (Gave constructs s.labels s'.labels) s' := by
  apply Stmt.induction
  case simple =>
    intro stmt s s' h
    rw [Stmt.emit] at h
    exact (stmt.emit_quiet sigs h).mono fun _ hf => hf.elim
  case ifThen =>
    intro cond body ih s s' h
    obtain ⟨t, t', htest, hbody, rfl⟩ := Stmt.emit_ifThen_ok h
    have hend : "_end" ∈ endings "if" := by decide
    have hk : "if" ∈ constructs := by decide
    have hafter := ((Frame.Builds.start s "if").quiet
      (Emit.Quiet.branchUnless cond (own_generated s.labels hk hend) htest)).rescope t.scopes.enter
    have hplaced := (hafter.body hk (ih _ _ hbody)).place hk hend (by simp)
    exact (hplaced.rescope t.scopes).finish hk
  case ifElse =>
    intro cond body other ihbody ihother s s' h
    obtain ⟨t, t', r', htest, hbody, hother, rfl⟩ := Stmt.emit_ifElse_ok h
    have helse : "_else" ∈ endings "if" := by decide
    have hend : "_end" ∈ endings "if" := by decide
    have hk : "if" ∈ constructs := by decide
    have hafter := ((Frame.Builds.start s "if").quiet
      (Emit.Quiet.branchUnless cond (own_generated s.labels hk helse) htest)).rescope t.scopes.enter
    have hsecond := ((hafter.body hk (ihbody _ _ hbody)).jump hk hend).place hk helse (by simp)
    have hplaced := ((hsecond.rescope t.scopes.enter).body hk (ihother _ _ hother)).place hk hend (by simp)
    exact (hplaced.rescope t.scopes).finish hk
  case whileLoop =>
    intro cond body ih s s' h
    obtain ⟨t, t', htest, hbody, rfl⟩ := Stmt.emit_whileLoop_ok h
    rw [fresh_label, fresh_label_bare] at htest ⊢
    have hstart : "" ∈ endings "while" := by decide
    have hend : "_end" ∈ endings "while" := by decide
    have hk : "while" ∈ constructs := by decide
    have hafter := (((Frame.Builds.start s "while").place hk hstart (by simp)).quiet
      (Emit.Quiet.branchUnless cond (own_generated s.labels hk hend) htest)).rescope t.scopes.enter
    have hplaced := ((hafter.body hk (ih _ _ hbody)).jump hk hstart).place hk hend (by simp)
    exact (hplaced.rescope t.scopes).finish hk
  case forLoop =>
    intro init cond step body ih s s' h
    obtain ⟨r, t, t', r', hinit, htest, hbody, hstep, rfl⟩ := Stmt.emit_forLoop_ok h
    rw [fresh_label, fresh_label_bare] at htest ⊢
    have hstart : "" ∈ endings "for" := by decide
    have hend : "_end" ∈ endings "for" := by decide
    have hk : "for" ∈ constructs := by decide
    have hfirst := ((Frame.Builds.start s "for").rescope s.scopes.enter).quiet
      (Emit.Quiet.forM (Simple.emit_quiet sigs) hinit)
    have hafter := ((hfirst.place hk hstart (by simp)).quiet (Emit.Quiet.forM
      (fun cond => Emit.Quiet.branchUnless cond (own_generated s.labels hk hend)) htest)).rescope
        t.scopes.enter
    have hround := ((hafter.body hk (ih _ _ hbody)).rescope t.scopes).quiet
      (Emit.Quiet.forM (Simple.emit_quiet sigs) hstep)
    have hplaced := (hround.jump hk hstart).place hk hend (by simp)
    exact (hplaced.rescope s.scopes).finish hk
  case ret =>
    intro value s s' h
    suffices hquiet : s.Grows sigs (fun _ => False) s' from hquiet.mono fun _ hf => hf.elim
    cases value with
    | none =>
      obtain ⟨label, t, hl, rfl⟩ := Stmt.emit_ret_none_ok h
      exact Emit.returnLabel_grows hl
    | some value =>
      obtain ⟨rs, t, label, t', hvalue, _, hl, rfl⟩ := Stmt.emit_ret_some_ok h
      have hmove : t.Appends sigs
          ((if rs = Register.result then t else t.coded (.mov Register.result rs)).freed rs) := by
        by_cases hrs : rs = Register.result
        · rw [if_pos hrs]
          exact ⟨⟨[], by simp, by simp⟩, rfl, rfl, rfl, rfl⟩
        · rw [if_neg hrs]
          exact ⟨⟨[.mov Register.result rs], by simp, by simp [Instruction.Plain]⟩, rfl, rfl, rfl, rfl⟩
      have hcode := Frame.Grows.of_appends ((value.emit_plain sigs _ hvalue).trans hmove)
      exact hcode.quiet_trans (Emit.returnLabel_grows hl)
  case block =>
    intro body ih s s' h
    obtain ⟨t, hbody, rfl⟩ := Stmt.emit_block_ok h
    have hgrows := ih _ _ hbody
    exact ⟨hgrows.code, hgrows.labels, hgrows.returns⟩
  case nil =>
    intro s s' h
    obtain ⟨_, rfl⟩ := Emit.pure_ok.mp h
    exact (Frame.Grows.of_appends (.refl s')).mono fun _ hf => hf.elim
  case cons =>
    intro stmt rest ihstmt ihrest s s' h
    obtain ⟨t, hstmt, hrest⟩ := Stmt.emitAll_cons_ok h
    exact (ihstmt _ _ hstmt).gave_trans constructs_sub (ihrest _ _ hrest)

end WordLang
