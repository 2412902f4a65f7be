import WordLang.Proofs.LinkedLabels

/-!
# What linking reads in the text of a unit

The text of a compiled unit is written with letters, digits, underscores and a few marks. A linker that reads
it line by line finds the labels of the unit and the external functions that it calls, and no brackets.
-/

namespace WordLang

open LabelSupply

def Assembly.Named (asm : Assembly) : Prop :=
  ∀ line ∈ asm.lines, ∀ name ∈ line.names, Text.Named name

/-! ## The characters of a line -/

/-- The characters that instructions are written with. -/
def Instruction.Writes (c : Char) : Prop :=
  Text.isNameChar c = true ∨ c ∈ [' ', ',', '(', ')', '-', '@']

instance : DecidablePred Instruction.Writes :=
  fun c => inferInstanceAs (Decidable (Text.isNameChar c = true ∨ c ∈ [' ', ',', '(', ')', '-', '@']))

namespace Instruction

def Written (text : String) : Prop :=
  ∀ c ∈ text.toList, Writes c

instance : DecidablePred Written :=
  fun text => List.decidableBAll Writes text.toList

private theorem written_append {s t : String} : Written (s ++ t) ↔ Written s ∧ Written t := by
  unfold Written
  rw [String.toList_append]
  exact List.forall_mem_append

private theorem Written.of_named {name : String} (h : Text.Named name) : Written name :=
  fun c hc => .inl (h c hc)

private theorem written_int (i : Int) : Written (toString i) := by
  intro c hc
  rcases Link.digit_of_mem_toString hc with hdigit | rfl
  · exact .inl (by simp [Text.isNameChar, Char.isAlphanum, hdigit])
  · decide

private theorem written_register (r : Register) : Written r.text := by
  cases r <;> decide

private theorem written_operation (op : Operation) : Written op.text := by
  cases op <;> decide

private theorem written_text {i : Instruction} (hnames : ∀ name ∈ i.names, Text.Named name) : Written i.text := by
  have hcomma : Written ", " := by decide
  have hspace : Written " " := by decide
  have hopen : Written "(" := by decide
  have hclose : Written ")" := by decide
  cases i with
  | call callee =>
    have hname := Written.of_named (hnames callee.name (by simp [names]))
    cases callee with
    | internal name => exact written_append.mpr ⟨by decide, hname⟩
    | external name => exact written_append.mpr ⟨by decide, written_append.mpr ⟨by decide, hname⟩⟩
  | jmp target =>
    have htarget := Written.of_named (hnames target (by simp [names]))
    exact written_append.mpr ⟨by decide, htarget⟩
  | jz rs target =>
    have htarget := Written.of_named (hnames target (by simp [names]))
    simp only [text, written_append]
    exact ⟨⟨⟨by decide, written_register rs⟩, hcomma⟩, htarget⟩
  | binary op rd rs1 rs2 =>
    simp only [text, written_append]
    simp only [written_operation, written_register, hspace, hcomma, and_self]
  | ret => decide
  | _ =>
    simp only [text, written_append]
    simp only [written_register, written_int, hcomma, hopen, hclose, and_true]
    decide

end Instruction

namespace Line

variable {line : Line} (hnames : ∀ name ∈ line.names, Text.Named name)
include hnames

private theorem writes_or_colon {c : Char} (hc : c ∈ line.text.toList) : Instruction.Writes c ∨ c = ':' := by
  cases line with
  | label name =>
    rw [text, String.toList_append, List.mem_append] at hc
    rcases hc with hc | hc
    · exact .inl (.inl (hnames name List.mem_cons_self c hc))
    · exact .inr (List.mem_singleton.mp hc)
  | code i =>
    have hwritten : Instruction.Written (Line.code i).text :=
      Instruction.written_append.mpr ⟨by decide, Instruction.written_text hnames⟩
    exact .inl (hwritten c hc)

private theorem not_mem_text {c : Char} (hc : ¬ (Instruction.Writes c ∨ c = ':')) : c ∉ line.text.toList :=
  fun hmem => hc (writes_or_colon hnames hmem)

theorem lines_text : Text.lines line.text.toList = [line.text.toList] := by
  have hline : '\n' ∉ line.text.toList := not_mem_text hnames (by decide)
  have hself : Text.lines (line.text.toList ++ []) = [line.text.toList ++ []] := Text.lines_append hline rfl
  rwa [List.append_nil] at hself

end Line

/-! ## Labels and references -/

private theorem Text.trim_eq_self {cs : List Char} (hfirst : ∀ c ∈ cs.head?, isBlank c = false)
    (hlast : ∀ c ∈ cs.getLast?, isBlank c = false) : trim cs = cs := by
  have hdrop {ds : List Char} (h : ∀ c ∈ ds.head?, isBlank c = false) : ds.dropWhile isBlank = ds := by
    cases ds with
    | nil => rfl
    | cons d ds => simp [h d rfl]
  rw [trim, hdrop hfirst, hdrop (by rwa [List.head?_reverse]), List.reverse_reverse]

namespace Link

private theorem colon_mem_of_lineLabel? {cs : List Char} {label : String} (h : lineLabel? cs = some label) :
    ':' ∈ cs := by
  unfold lineLabel? at h
  split at h
  · rename_i name hname
    have hmem : ':' ∈ Text.trim (cs.takeWhile (· != '#')) := by
      rw [← List.mem_reverse, hname]
      exact List.mem_cons_self
    have hdrop {c : Char} {ds : List Char} (hc : c ∈ ds.dropWhile Text.isBlank) : c ∈ ds :=
      (List.dropWhile_suffix _).subset hc
    exact (List.takeWhile_prefix _).subset (hdrop (List.mem_reverse.mp (hdrop (List.mem_reverse.mp hmem))))
  · simp at h

variable {line : Line} {asm : Assembly}

private theorem lineLabel?_label {name : String} (h : Text.Named name) :
    lineLabel? (Line.label name).text.toList = if isLabelName name.toList then some name else none := by
  have hcode : '#' ∉ (Line.label name).text.toList := by
    have hnames : ∀ other ∈ (Line.label name).names, Text.Named other := by simpa [Line.names] using h
    exact Line.not_mem_text hnames (by decide)
  have hcomment : ((Line.label name).text.toList ++ []).takeWhile (· != '#') =
      (Line.label name).text.toList := takeWhile_comment hcode (by simp)
  rw [List.append_nil] at hcomment
  have htrim : Text.trim (Line.label name).text.toList = name.toList ++ [':'] := by
    rw [Line.text, String.toList_append]
    apply Text.trim_eq_self
    · intro c hc
      cases hname : name.toList with
      | nil =>
        obtain rfl : c = ':' := by simpa [hname, eq_comm] using hc
        decide
      | cons d ds =>
        obtain rfl : c = d := by simpa [hname, eq_comm] using hc
        exact Text.isBlank_of_isNameChar (h c (by simp [hname]))
    · intro c hc
      obtain rfl : c = ':' := by simpa [eq_comm] using hc
      decide
  rw [lineLabel?, hcomment, htrim, List.reverse_append]
  simp

theorem lineLabel?_text (hnames : ∀ name ∈ line.names, Text.Named name) :
    lineLabel? line.text.toList = line.label?.filter fun name => isLabelName name.toList := by
  cases line with
  | label name =>
    rw [lineLabel?_label (hnames name List.mem_cons_self), Line.label?, Option.filter_some]
  | code i =>
    have hcolon : ':' ∉ (Line.code i).text.toList := by
      have hwritten : Instruction.Written (Line.code i).text :=
        Instruction.written_append.mpr ⟨by decide, Instruction.written_text hnames⟩
      exact fun hmem => absurd (hwritten _ hmem) (by decide)
    cases hlabel : lineLabel? (Line.code i).text.toList with
    | none => rfl
    | some label => exact absurd (colon_mem_of_lineLabel? hlabel) hcolon

private theorem markers_text (hnames : ∀ name ∈ line.names, Text.Named name) :
    markers false line.text.toList = line.external?.toList.filter fun name => startsName name.toList := by
  have hline := markers_line hnames []
  rw [markers_lines, Text.lines_append_newline, Line.lines_text hnames] at hline
  simpa [markers, Text.lines] using hline

end Link

namespace Assembly

open Link

variable {asm : Assembly}

theorem text_eq (asm : Assembly) : asm.text = Builtin.ofLines (asm.lines.map Line.text) := by
  rw [text, Builtin.ofLines, List.map_map]
  rfl

/-- The labels that linking sees in the text. -/
theorem Named.definedLabels_text (h : asm.Named) :
    definedLabels asm.text = asm.labels.filter fun label => isLabelName label.toList := by
  have hline {line : Line} (hl : line ∈ asm.lines) : definedLabels line.text =
      (line.label?.filter fun label => isLabelName label.toList).toList := by
    rw [definedLabels, Line.lines_text (h line hl), List.filterMap_cons, lineLabel?_text (h line hl)]
    cases line.label?.filter fun label => isLabelName label.toList <;> rfl
  rw [text_eq, Builtin.definedLabels_ofLines, List.flatMap_map, List.flatMap_congr fun line hl => hline hl,
    labels, List.filter_filterMap, List.filterMap_eq_flatMap_toList]

theorem Named.mem_references_text (h : asm.Named) {name : String} :
    name ∈ references asm.text ↔ name ∈ asm.externals ∧ startsName name.toList = true := by
  rw [text_eq, Builtin.references_ofLines, List.mem_eraseDups, List.flatMap_map,
    List.flatMap_congr fun line hl => markers_text (h line hl), externals]
  simp only [List.mem_flatMap, List.mem_filter, Option.mem_toList, List.mem_filterMap]
  constructor
  · rintro ⟨line, hl, hname, hstart⟩
    exact ⟨⟨line, hl, hname⟩, hstart⟩
  · rintro ⟨⟨line, hl, hname⟩, hstart⟩
    exact ⟨line, hl, hname, hstart⟩

theorem Named.open_not_mem (h : asm.Named) : '[' ∉ asm.text.toList := by
  intro hmem
  simp only [text, String.toList_join, List.mem_flatMap, List.mem_map] at hmem
  obtain ⟨_, ⟨line, hl, rfl⟩, hmem⟩ := hmem
  rw [String.toList_append, List.mem_append] at hmem
  rcases hmem with hmem | hmem
  · exact Line.not_mem_text (h line hl) (by decide) hmem
  · exact absurd hmem (by decide)

end Assembly

/-! ## The names in compiled code -/

private theorem Line.Known.external {sigs : Signatures} {last : Option String} {line : Line} {name : String}
    (h : line.Known sigs last) (hname : line.external? = some name) :
    ∃ sig ∈ sigs.entries, sig.custom = false ∧ sig.name = name := by
  cases h with
  | label _ | jmp _ | jz _ => simp [Line.external?] at hname
  | @plain i hi =>
    cases i with
    | call callee =>
      obtain ⟨sig, hsig, rfl⟩ := hi
      unfold Signature.callee at hname
      split at hname
      · simp [Line.external?] at hname
      · rename_i hcustom
        exact ⟨sig, hsig, by simpa using hcustom, by simpa [Line.external?] using hname⟩
    | _ => simp [Line.external?] at hname

private theorem Routine.compile_external {sigs : Signatures} {policy : FreePolicy} {labels labels' : LabelSupply}
    {header : Header} {body : List Stmt} {routine : Routine} {line : Line} {name : String}
    (h : Routine.compile sigs policy labels header body = .ok (routine, labels'))
    (hline : line ∈ routine.lines) (hname : line.external? = some name) :
    ∃ sig ∈ sigs.entries, sig.custom = false ∧ sig.name = name := by
  obtain ⟨frame, hemit, _, rfl⟩ := Routine.compile_ok h
  have hcode {is : List Instruction} (his : ∀ i ∈ is, (Line.code i).external? = none) :
      line ∉ is.map Line.code := by
    intro hmem
    obtain ⟨i, hi, rfl⟩ := List.mem_map.mp hmem
    simp [his i hi] at hname
  have hprologue : ∀ i ∈ prologueFor frame.pool.saved (Stmt.slotsOf body), (Line.code i).external? = none := by
    unfold prologueFor
    split <;> simp [Line.external?, or_imp, forall_and]
  have hepilogue : ∀ i ∈ epilogueFor frame.pool.saved, (Line.code i).external? = none := by
    simp [epilogueFor, Line.external?, or_imp, forall_and]
  simp only [Routine.lines, List.mem_cons, List.mem_append, hcode hprologue, hcode hepilogue, or_false] at hline
  rcases hline with rfl | hbody
  · simp [Line.external?] at hname
  · obtain ⟨new, hnew, hknown, _⟩ := (Header.emitBody_grows rfl hemit).code
    have hmem : line ∈ new := by
      rw [hnew] at hbody
      exact hbody
    exact (hknown line hmem).external hname

namespace CompilationUnit

variable {unit : CompilationUnit} {policy : FreePolicy} {asm : Assembly}

private theorem compileAll_external {sigs : Signatures} {labels : LabelSupply} {functions : List (Header × List Stmt)}
    {routines : List Routine} (h : compileAll sigs policy labels functions = .ok routines) {routine : Routine}
    (hr : routine ∈ routines) {line : Line} (hline : line ∈ routine.lines) {name : String}
    (hname : line.external? = some name) : ∃ sig ∈ sigs.entries, sig.custom = false ∧ sig.name = name := by
  induction functions generalizing labels routines with
  | nil =>
    obtain rfl : [] = routines := by simpa [compileAll] using h
    exact absurd hr List.not_mem_nil
  | cons f rest ih =>
    obtain ⟨first, labels', others, hfirst, ho, rfl⟩ := compileAll_cons_ok h
    rcases List.mem_cons.mp hr with rfl | hr
    · exact Routine.compile_external hfirst hline hname
    · exact ih ho hr

/-- A unit calls external functions that it declares, or builtin ones. -/
theorem mem_externals (h : unit.compile policy = .ok asm) {name : String} (hname : name ∈ asm.externals) :
    (∃ header, Item.external header ∈ unit.items ∧ header.name = name) ∨
      ∃ sig ∈ Signatures.builtin.entries, sig.name = name := by
  obtain ⟨sigs, hsigs, hall⟩ := compile_ok h
  obtain ⟨line, hline, hexternal⟩ := List.mem_filterMap.mp hname
  obtain ⟨routine, hr, hline⟩ := List.mem_flatMap.mp hline
  obtain ⟨sig, hsig, hcustom, rfl⟩ := compileAll_external hall hr hline hexternal
  rw [(signatures_ok hsigs).2, List.mem_append, List.mem_reverse, List.mem_filterMap] at hsig
  rcases hsig with ⟨item, hitem, hsig⟩ | hsig
  · cases item with
    | function header body =>
      obtain rfl := Option.some.inj hsig
      simp at hcustom
    | external header =>
      obtain rfl := Option.some.inj hsig
      exact .inl ⟨header, hitem, rfl⟩
    | stmt stmt => simp [Item.signature?] at hsig
  · exact .inr ⟨sig, hsig, rfl⟩

/-- The labels of a unit: its functions, the entry, and the labels inside routines. -/
theorem mem_labels (h : unit.compile policy = .ok asm) {label : String} :
    label ∈ asm.labels ↔ (∃ header body, Item.function header body ∈ unit.items ∧ header.name = label) ∨
      label = entryLabel ∨ label ∈ asm.blockLabels := by
  obtain ⟨sigs, _, hall⟩ := compile_ok h
  rw [asm.labels_perm.mem_iff, compileAll_names hall, functions_eq, List.map_append, List.mem_append,
    List.mem_append, or_assoc, List.mem_map]
  simp only [Prod.exists, mem_definitions, List.map_cons, List.map_nil, List.mem_singleton]

theorem function_not_builtin (h : unit.compile policy = .ok asm) {header : Header} {body : List Stmt}
    (hitem : Item.function header body ∈ unit.items) {sig : Signature}
    (hsig : sig ∈ Signatures.builtin.entries) : header.name ≠ sig.name := by
  obtain ⟨sigs, hsigs, _⟩ := compile_ok h
  obtain ⟨hvalid, hentries⟩ := signatures_ok hsigs
  have hnames := hvalid.names
  rw [hentries, List.map_append, List.nodup_append] at hnames
  refine hnames.2.2 _ (List.mem_map.mpr ⟨⟨header.name, header.params, true⟩, ?_, rfl⟩) _
    (List.mem_map_of_mem hsig)
  exact List.mem_reverse.mpr (List.mem_filterMap.mpr ⟨_, hitem, rfl⟩)

end CompilationUnit

end WordLang
