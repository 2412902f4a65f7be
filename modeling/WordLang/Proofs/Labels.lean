import Mathlib.Data.List.Perm.Basic
import WordLang.Proofs.Units

/-!
# Labels of a compiled unit

The labels inside the routines of a unit are pairwise distinct, and so are the labels of the routines.
Nothing keeps the two apart but the names that the functions of a unit happen to have: labels of the unit
are pairwise distinct exactly if no function has the name of a label that the compiler made up.
-/

namespace WordLang

open LabelSupply

def Routine.blockLabels (routine : Routine) : List String :=
  routine.body.filterMap Line.label?

namespace Assembly

def labels (asm : Assembly) : List String :=
  asm.lines.filterMap Line.label?

def blockLabels (asm : Assembly) : List String :=
  asm.routines.flatMap Routine.blockLabels

private theorem routine_labels (routine : Routine) :
    routine.lines.filterMap Line.label? = routine.label :: routine.blockLabels := by
  have hcode (is : List Instruction) : (is.map Line.code).filterMap Line.label? = [] := by
    rw [List.filterMap_map]
    exact List.filterMap_eq_nil_iff.mpr fun _ _ => rfl
  simp [Routine.lines, Routine.blockLabels, hcode, Line.label?]

theorem labels_perm (asm : Assembly) :
    asm.labels.Perm (asm.routines.map Routine.label ++ asm.blockLabels) := by
  have hlabels : asm.labels = asm.routines.flatMap fun r => r.label :: r.blockLabels := by
    rw [labels, lines, List.filterMap_flatMap]
    exact List.flatMap_congr fun r _ => routine_labels r
  rw [hlabels]
  exact (List.map_append_flatMap_perm _ _ _).symm

end Assembly

theorem Header.emit_plain (header : Header) (sigs : Signatures) : Emit.Plain sigs header.emit :=
  (Emit.Plain.law sigs).forM_zero fun param _ =>
    Emit.Plain.bind ((Emit.Plain.law sigs).reserve param.2) fun _ => (Emit.Plain.law sigs).declare trivial

theorem Header.emitBody_ok {header : Header} {sigs : Signatures} {body : List Stmt} {s s' : Frame}
    (h : header.emitBody sigs body s = .ok () s') :
    ∃ t t', header.emit s = .ok () t ∧ Stmt.emitAll sigs body t = .ok () t' ∧
      (t'.returnLabel = none ∧ s' = t' ∨
        ∃ label, t'.returnLabel = some label ∧ s' = t'.labelled label) := by
  simp only [Header.emitBody, Emit.bind_ok] at h
  obtain ⟨_, t, ht, _, t', ht', _, _, hget, h⟩ := h
  obtain ⟨rfl, rfl⟩ := Emit.get_ok.mp hget
  refine ⟨t, t', ht, ht', ?_⟩
  cases hl : t'.returnLabel with
  | none =>
    simp only [hl, Emit.pure_ok] at h
    exact .inl ⟨rfl, h.2⟩
  | some label =>
    simp only [hl, Emit.block_ok] at h
    exact .inr ⟨label, rfl, h⟩

/-- The body of a function places labels given out for it. The label before the epilogue comes last and is
of a kind of its own. -/
theorem Header.emitBody_grows {header : Header} {sigs : Signatures} {body : List Stmt} {s s' : Frame}
    (hnone : s.returnLabel = none) (h : header.emitBody sigs body s = .ok () s') :
    s.Grows sigs (Gave kinds s.labels s'.labels) s' := by
  obtain ⟨t, t', ht, ht', hlast⟩ := Header.emitBody_ok h
  have hbody : s.Grows sigs (Gave constructs s.labels t'.labels) t' := by
    refine (Frame.Grows.of_appends (header.emit_plain sigs ht)).quiet_trans ?_
    have hgrows := (Stmt.emit_grows sigs).2 body t t' ht'
    rwa [(header.emit_plain sigs ht).labels] at hgrows
  have hsub : constructs ⊆ kinds := List.subset_cons_self _ _
  rcases hlast with ⟨_, rfl⟩ | ⟨last, hl, rfl⟩
  · exact hbody.mono fun l hgave => hgave.widen hsub (.refl _) (.refl _)
  · have hgave : Gave ["return"] s.labels t'.labels last := by
      rcases hbody.returns with hr | ⟨_, l, hr, hgave⟩
      · simp [hl, hnone] at hr
      · rwa [← Option.some.inj (hl.symm.trans hr)] at hgave
    refine (hbody.trans (Frame.Grows.block t' last) ?_).mono ?_
    · rintro l ⟨kind, hk, number, ending, he, _, _, rfl⟩ rfl
      obtain ⟨kind', hk', number', ending', he', _, _, htext⟩ := hgave
      obtain rfl := List.mem_singleton.mp hk'
      obtain ⟨rfl, _, _⟩ := text_inj (hsub hk) (by decide) he he' htext
      exact absurd hk (by decide)
    · rintro l (hl' | rfl)
      · exact hl'.widen hsub (.refl _) (.refl _)
      · exact hgave.widen (by decide) (.refl _) (.refl _)

namespace CompilationUnit

theorem compileAll_names {sigs : Signatures} {policy : FreePolicy} {labels : LabelSupply}
    {functions : List (Header × List Stmt)} {routines : List Routine}
    (h : compileAll sigs policy labels functions = .ok routines) :
    routines.map Routine.label = functions.map fun f => f.1.name := by
  induction functions generalizing labels routines with
  | nil =>
    obtain rfl : [] = routines := by simpa [compileAll] using h
    rfl
  | cons f rest ih =>
    obtain ⟨routine, labels', others, hr, ho, rfl⟩ := compileAll_cons_ok h
    obtain ⟨frame, _, _, rfl⟩ := Routine.compile_ok hr
    simp [ih ho]

/-- The supply that is left when functions have been compiled one after the other. -/
def supplyAfter (sigs : Signatures) (policy : FreePolicy) (labels : LabelSupply)
    (functions : List (Header × List Stmt)) : Except CompileError LabelSupply :=
  functions.foldlM (fun labels f => Prod.snd <$> Routine.compile sigs policy labels f.1 f.2) labels

theorem supplyAfter_cons {sigs : Signatures} {policy : FreePolicy} {labels labels' : LabelSupply}
    {f : Header × List Stmt} {rest : List (Header × List Stmt)} {routine : Routine}
    (h : Routine.compile sigs policy labels f.1 f.2 = .ok (routine, labels')) :
    supplyAfter sigs policy labels (f :: rest) = supplyAfter sigs policy labels' rest := by
  simp [supplyAfter, h, bind, Except.bind, Functor.map, Except.map]

/-- The labels inside routines compiled one after the other, each with the labels left by those before. -/
theorem compileAll_blockLabels {sigs : Signatures} {policy : FreePolicy} {labels : LabelSupply}
    {functions : List (Header × List Stmt)} {routines : List Routine}
    (h : compileAll sigs policy labels functions = .ok routines) :
    ∃ labels', supplyAfter sigs policy labels functions = .ok labels' ∧ labels.Precedes labels' ∧
      (routines.flatMap Routine.blockLabels).Nodup ∧
      ∀ l ∈ routines.flatMap Routine.blockLabels, Gave kinds labels labels' l := by
  induction functions generalizing labels routines with
  | nil =>
    obtain rfl : [] = routines := by simpa [compileAll] using h
    exact ⟨labels, rfl, .refl _, by simp, by simp⟩
  | cons f rest ih =>
    obtain ⟨routine, labels', others, hr, ho, rfl⟩ := compileAll_cons_ok h
    obtain ⟨frame, he, rfl, rfl⟩ := Routine.compile_ok hr
    have hgrows := Header.emitBody_grows rfl he
    obtain ⟨new, hnew, _, hnodup, hgave⟩ := hgrows.code
    obtain ⟨after, hafter, hprec, hnodup', hgave'⟩ := ih ho
    have hblocks : Routine.blockLabels ⟨f.1.name, Routine.prologueFor frame.pool.saved (Stmt.slotsOf f.2),
        frame.code.toList, Routine.epilogueFor frame.pool.saved⟩ = new.filterMap Line.label? := by
      rw [Routine.blockLabels, hnew]
      rfl
    refine ⟨after, (supplyAfter_cons hr).trans hafter, hgrows.labels.trans hprec, ?_, ?_⟩
    · rw [List.flatMap_cons, hblocks, List.nodup_append]
      refine ⟨hnodup, hnodup', ?_⟩
      rintro l hl _ hl' rfl
      exact (hgave l hl).disjoint (List.Subset.refl _) (List.Subset.refl _) (.refl _) (hgave' l hl')
    · intro l hl
      rw [List.flatMap_cons, hblocks, List.mem_append] at hl
      rcases hl with hl | hl
      · exact (hgave l hl).widen (List.Subset.refl _) (.refl _) hprec
      · exact (hgave' l hl).widen (List.Subset.refl _) hgrows.labels (.refl _)

variable {unit : CompilationUnit} {policy : FreePolicy} {asm : Assembly}

theorem compile_blockLabels (h : unit.compile policy = .ok asm) :
    asm.blockLabels.Nodup ∧ ∀ l ∈ asm.blockLabels, Generated l := by
  obtain ⟨sigs, _, hall⟩ := compile_ok h
  obtain ⟨_, _, _, hnodup, hgave⟩ := compileAll_blockLabels hall
  exact ⟨hnodup, fun l hl => (hgave l hl).generated (List.Subset.refl _)⟩

private theorem entry_not_generated : ¬ Generated entryLabel := by
  rintro ⟨kind, _, number, ending, _, h⟩
  have hhead := congrArg (fun text : String => text.toList.head?) h
  simp [entryLabel, text] at hhead

theorem labels_nodup (h : unit.compile policy = .ok asm)
    (hclear : ∀ header body, Item.function header body ∈ unit.items → header.name ∉ asm.blockLabels) :
    asm.labels.Nodup := by
  obtain ⟨sigs, hsigs, hall⟩ := compile_ok h
  obtain ⟨hnodup, hgenerated⟩ := compile_blockLabels h
  rw [(asm.labels_perm).nodup_iff, compileAll_names hall, List.nodup_append]
  refine ⟨functions_names hsigs, hnodup, ?_⟩
  rintro name hname _ hblock rfl
  rw [functions_eq, List.map_append, List.mem_append] at hname
  rcases hname with hname | hname
  · obtain ⟨⟨header, body⟩, hdef, rfl⟩ := List.mem_map.mp hname
    exact hclear header body (mem_definitions.mp hdef) hblock
  · obtain rfl : name = entryLabel := by simpa using hname
    exact entry_not_generated (hgenerated _ hblock)

/-- The labels of a unit are pairwise distinct exactly if no function that it defines has the name of a
label inside a routine. Labels inside routines are always distinct, and have the texts of generated labels. -/
theorem labels_nodup_iff (h : unit.compile policy = .ok asm) :
    (asm.labels.Nodup ↔
      ∀ header body, Item.function header body ∈ unit.items → header.name ∉ asm.blockLabels) ∧
    asm.blockLabels.Nodup ∧ ∀ l ∈ asm.blockLabels, Generated l := by
  refine ⟨⟨?_, labels_nodup h⟩, compile_blockLabels h⟩
  intro hnodup header body hitem hblock
  obtain ⟨sigs, _, hall⟩ := compile_ok h
  rw [(asm.labels_perm).nodup_iff, compileAll_names hall, List.nodup_append] at hnodup
  refine hnodup.2.2 header.name ?_ header.name hblock rfl
  rw [functions_eq, List.map_append]
  exact List.mem_append_left _ (List.mem_map.mpr ⟨(header, body), mem_definitions.mpr hitem, rfl⟩)

/-- A loop in a function `f` and another in the entry. -/
def twoLoops : CompilationUnit :=
  ⟨[.function ⟨"f", ["x"], 9⟩ [.whileLoop (.var "x" 21) [.ret (some (.num 1))]],
    .stmt (.whileLoop (.num 0) [])]⟩

theorem labels_nodup_twoLoops : ∃ asm, twoLoops.compile .strict = .ok asm ∧ asm.labels.Nodup := by
  have hrun : ∃ asm, twoLoops.compile .strict = .ok asm ∧ "f" ∉ asm.blockLabels :=
    exists_ok_of_any (by decide +kernel)
  obtain ⟨asm, h, hclear⟩ := hrun
  refine ⟨asm, h, (labels_nodup_iff h).1.mpr ?_⟩
  intro header body hitem
  obtain ⟨rfl, _⟩ : header = ⟨"f", ["x"], 9⟩ ∧ _ := by simpa [twoLoops] using hitem
  exact hclear

/-- A function can have the name of the label of a loop, and the unit then has this label twice. -/
theorem labels_not_nodup : ∃ asm,
    CompilationUnit.compile ⟨[.function ⟨"_while0", [], 9⟩ [], .stmt (.whileLoop (.num 0) [])]⟩ .strict =
      .ok asm ∧ ¬ asm.labels.Nodup :=
  exists_ok_of_any (by decide +kernel)

end CompilationUnit

end WordLang
