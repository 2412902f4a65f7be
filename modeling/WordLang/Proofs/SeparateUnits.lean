import WordLang.Proofs.BuiltinLinks

/-!
# Separately compiled units

Every compiled unit has an entry, also one that is only there for its functions, and numbers the labels inside
its routines from zero. So the text of one unit never links with that of another: both define the label of the
entry. With the entry taken out of one of them, they link exactly if no label inside their routines is common.
-/

namespace WordLang

open LabelSupply

namespace Assembly

def withoutEntry (asm : Assembly) : Assembly :=
  ⟨asm.routines.filter fun routine => routine.label != entryLabel⟩

variable {asm : Assembly}

private theorem lines_withoutEntry (asm : Assembly) : asm.withoutEntry.lines ⊆ asm.lines := by
  intro line hline
  obtain ⟨routine, hr, hline⟩ := List.mem_flatMap.mp hline
  exact List.mem_flatMap_of_mem (List.mem_filter.mp hr).1 hline

private theorem blockLabels_withoutEntry (asm : Assembly) : asm.withoutEntry.blockLabels ⊆ asm.blockLabels := by
  intro label hlabel
  obtain ⟨routine, hr, hlabel⟩ := List.mem_flatMap.mp hlabel
  exact List.mem_flatMap_of_mem (List.mem_filter.mp hr).1 hlabel

private theorem blockLabels_subset (asm : Assembly) : asm.blockLabels ⊆ asm.labels := by
  intro label hlabel
  exact asm.labels_perm.mem_iff.mpr (List.mem_append_right _ hlabel)

private theorem Named.label (h : asm.Named) {label : String} (hlabel : label ∈ asm.labels) : Text.Named label := by
  obtain ⟨line, hline, hdefines⟩ := List.mem_filterMap.mp hlabel
  cases line with
  | label name =>
    obtain rfl := Option.some.inj hdefines
    exact h _ hline name List.mem_cons_self
  | code i => simp [Line.label?] at hdefines

end Assembly

private theorem LabelSupply.Generated.underscore {label : String} (h : Generated label) :
    ∃ rest, label.toList = '_' :: rest := by
  obtain ⟨kind, _, number, ending, _, rfl⟩ := h
  exact ⟨kind.toList ++ (toString number).toList ++ ending.toList, by simp [text]⟩

private theorem LabelSupply.Generated.startsName_eq {label : String} (h : Generated label) :
    Link.startsName label.toList = false := by
  obtain ⟨rest, hlist⟩ := h.underscore
  rw [hlist]
  show '_'.isAlpha = false
  decide

namespace CompilationUnit

open Link

/-- The functions of a unit have names that start with a letter, and none of the builtin labels. -/
def PlainNames (unit : CompilationUnit) : Prop :=
  ∀ header body, Item.function header body ∈ unit.items →
    startsName header.name.toList = true ∧ header.name ∉ Builtin.labels

/-- The first unit consists of functions, and has those that the second one declares as external. Both have
plain names, and none in common. -/
structure Supplies (lib main : CompilationUnit) : Prop where
  functions : ∀ item ∈ lib.items, ∃ header body, item = .function header body
  externals : ∀ header, Item.external header ∈ main.items →
    ∃ header' body, Item.function header' body ∈ lib.items ∧ header'.name = header.name
  plain : lib.PlainNames ∧ main.PlainNames
  disjoint : ∀ header body header' body', Item.function header body ∈ lib.items →
    Item.function header' body' ∈ main.items → header.name ≠ header'.name

variable {unit main lib : CompilationUnit} {policy policy' : FreePolicy} {asm asm' : Assembly}

private theorem function_ne_entry (h : unit.compile policy = .ok asm) {header : Header} {body : List Stmt}
    (hitem : Item.function header body ∈ unit.items) : header.name ≠ entryLabel := by
  obtain ⟨sigs, hsigs, _⟩ := compile_ok h
  obtain ⟨hvalid, hentries⟩ := signatures_ok hsigs
  apply hvalid.reserved ⟨header.name, header.params, true⟩
  rw [hentries, List.mem_append, List.mem_reverse]
  exact .inl (List.mem_filterMap.mpr ⟨_, hitem, rfl⟩)

private theorem mem_labels_withoutEntry (h : unit.compile policy = .ok asm) {label : String} :
    label ∈ asm.withoutEntry.labels ↔
      (∃ header body, Item.function header body ∈ unit.items ∧ header.name = label) ∨
        label ∈ asm.withoutEntry.blockLabels := by
  obtain ⟨sigs, _, hall⟩ := compile_ok h
  have hroutines : asm.withoutEntry.routines.map Routine.label =
      (unit.functions.map fun f => f.1.name).filter (· != entryLabel) := by
    rw [← compileAll_names hall, List.filter_map]
    rfl
  rw [asm.withoutEntry.labels_perm.mem_iff, List.mem_append, hroutines, functions_eq, List.map_append,
    List.mem_filter, List.mem_append, List.mem_map]
  simp only [Prod.exists, mem_definitions, List.map_cons, List.map_nil, List.mem_singleton]
  refine or_congr_left ?_
  constructor
  · rintro ⟨hfunction | rfl, hne⟩
    · exact hfunction
    · simp at hne
  · rintro ⟨header, body, hitem, rfl⟩
    exact ⟨.inl ⟨header, body, hitem, rfl⟩, by simpa using function_ne_entry h hitem⟩

private theorem PlainNames.letter_or_block (hplain : unit.PlainNames) (h : unit.compile policy = .ok asm)
    {label : String} (hlabel : label ∈ asm.labels) :
    startsName label.toList = true ∨ label ∈ asm.blockLabels := by
  rcases (mem_labels h).mp hlabel with ⟨header, body, hitem, rfl⟩ | rfl | hblock
  · exact .inl (hplain header body hitem).1
  · exact .inl (by decide)
  · exact .inr hblock

theorem isLabelName_label (h : unit.compile policy = .ok asm) (hnamed : asm.Named)
    (hfunctions : ∀ header body, Item.function header body ∈ unit.items →
      ∃ c cs, header.name.toList = c :: cs ∧ c.isDigit = false)
    {label : String} (hlabel : label ∈ asm.labels) : isLabelName label.toList = true := by
  have hfirst : ∃ c cs, label.toList = c :: cs ∧ c.isDigit = false := by
    rcases (mem_labels h).mp hlabel with ⟨header, body, hitem, rfl⟩ | rfl | hblock
    · exact hfunctions header body hitem
    · exact ⟨'s', "tart".toList, by decide, by decide⟩
    · obtain ⟨rest, hlist⟩ := ((compile_blockLabels h).2 label hblock).underscore
      exact ⟨'_', rest, hlist, by decide⟩
  obtain ⟨c, cs, hlist, hdigit⟩ := hfirst
  rw [hlist, isLabelName, hdigit, Bool.not_false, Bool.true_and, List.all_eq_true, ← hlist]
  exact hnamed.label hlabel

private theorem PlainNames.isLabelName_label (hplain : unit.PlainNames) (h : unit.compile policy = .ok asm)
    (hnamed : asm.Named) {label : String} (hlabel : label ∈ asm.labels) :
    isLabelName label.toList = true := by
  refine CompilationUnit.isLabelName_label h hnamed ?_ hlabel
  intro header body hitem
  have hstart := (hplain header body hitem).1
  cases hlist : header.name.toList with
  | nil => simp [hlist, startsName] at hstart
  | cons c cs =>
    rw [hlist] at hstart
    exact ⟨c, cs, rfl, isDigit_of_isAlpha hstart⟩

private theorem PlainNames.definedLabels_text (hplain : unit.PlainNames) (h : unit.compile policy = .ok asm)
    (hnamed : asm.Named) {part : Assembly} (hlines : part.lines ⊆ asm.lines) :
    definedLabels part.text = part.labels := by
  have hpart : part.Named := fun line hline => hnamed line (hlines hline)
  rw [hpart.definedLabels_text, List.filter_eq_self]
  intro label hlabel
  exact hplain.isLabelName_label h hnamed (List.filterMap_subset _ hlines hlabel)

private theorem find?_builtin {sig : Signature} (hsig : sig ∈ Signatures.builtin.entries) :
    (Builtin.find? sig.name).isSome = true := by
  have hall : ∀ sig ∈ Signatures.builtin.entries, (Builtin.find? sig.name).isSome = true := by decide
  exact hall sig hsig

/-- Apart from the entry, two such units have at most labels inside routines in common. -/
theorem Supplies.common_label (h : lib.Supplies main) (hmain : main.compile policy = .ok asm)
    (hlib : lib.compile policy' = .ok asm') {label : String} (hlabel : label ∈ asm.labels)
    (hlabel' : label ∈ asm'.withoutEntry.labels) :
    label ∈ asm.blockLabels ∧ label ∈ asm'.withoutEntry.blockLabels := by
  have hgenerated {l : String} (hstart : startsName l.toList = true) : ¬ Generated l := by
    intro hgenerated
    rw [hgenerated.startsName_eq] at hstart
    exact Bool.noConfusion hstart
  rcases (mem_labels_withoutEntry hlib).mp hlabel' with ⟨header', body', hitem', rfl⟩ | hblock'
  · rcases (mem_labels hmain).mp hlabel with ⟨header, body, hitem, hname⟩ | hentry | hblock
    · exact absurd hname.symm (h.disjoint header' body' header body hitem' hitem)
    · exact absurd hentry (function_ne_entry hlib hitem')
    · exact absurd ((compile_blockLabels hmain).2 _ hblock) (hgenerated (h.plain.1 header' body' hitem').1)
  · rcases h.plain.2.letter_or_block hmain hlabel with hstart | hblock
    · exact absurd ((compile_blockLabels hlib).2 label (asm'.blockLabels_withoutEntry hblock'))
        (hgenerated hstart)
    · exact ⟨hblock, hblock'⟩

section

variable (h : lib.Supplies main) (hmain : main.compile policy = .ok asm)
  (hlib : lib.compile policy' = .ok asm') (hnamed : asm.Named) (hnamed' : asm'.Named)
include h hmain hlib hnamed hnamed'

private theorem Supplies.selfContained {part : Assembly} (hlines : part.lines ⊆ asm'.lines)
    (hfunctions : ∀ header body, Item.function header body ∈ lib.items → header.name ∈ part.labels) :
    SelfContained asm.text [part.text] := by
  have hpart : part.Named := fun line hline => hnamed' line (hlines hline)
  have hlabels := h.plain.2.definedLabels_text hmain hnamed (List.Subset.refl _)
  have hlabels' := h.plain.1.definedLabels_text hlib hnamed' hlines
  constructor
  · simp only [List.forall_mem_cons, List.flatMap_cons, List.flatMap_nil, List.append_nil, hlabels']
    refine ⟨?_, ?_, List.forall_mem_nil _⟩
    · intro name hname
      rcases mem_externals hmain (hnamed.mem_references_text.mp hname).1 with
        ⟨header, hitem, rfl⟩ | ⟨sig, hsig, rfl⟩
      · obtain ⟨header', body, hitem', hname'⟩ := h.externals header hitem
        rw [← hname']
        exact .inr (hfunctions header' body hitem')
      · exact .inl (find?_builtin hsig)
    · intro name hname
      have hexternal : name ∈ asm'.externals :=
        List.filterMap_subset _ hlines (hpart.mem_references_text.mp hname).1
      rcases mem_externals hlib hexternal with ⟨header, hitem, _⟩ | ⟨sig, hsig, rfl⟩
      · obtain ⟨_, _, hfunction⟩ := h.functions _ hitem
        exact Item.noConfusion hfunction
      · exact .inl (find?_builtin hsig)
  · simp only [List.forall_mem_cons, hlabels, hlabels']
    refine ⟨fun label hlabel => ?_, fun label hlabel => ?_, List.forall_mem_nil _⟩
    · exact label_not_builtin hmain (fun header body hitem => (h.plain.2 header body hitem).2) hlabel
    · exact label_not_builtin hlib (fun header body hitem => (h.plain.1 header body hitem).2)
        (List.filterMap_subset _ hlines hlabel)
  · simp only [List.forall_mem_cons]
    exact ⟨hnamed.open_not_mem, hpart.open_not_mem, List.forall_mem_nil _⟩

/-- A unit linked with all functions of one that supplies it, and with some or all of its other code: they
clash in the least label that both define, and link if there is none. -/
theorem Supplies.link_pair {part : Assembly} (hlines : part.lines ⊆ asm'.lines)
    (hfunctions : ∀ header body, Item.function header body ∈ lib.items → header.name ∈ part.labels)
    (files : Files) (dirs requested : List String) :
    (Text.least? (asm.labels.filter fun label => decide (label ∈ part.labels)) = none →
      ∃ image, link files dirs .standard asm.text [part.text] requested = .ok image) ∧
    ∀ label, Text.least? (asm.labels.filter fun label => decide (label ∈ part.labels)) = some label →
      link files dirs .standard asm.text [part.text] requested =
        .error (.duplicateLabel label "unit 0" "main unit") := by
  have hsections : unitSections [part.text] ++ [⟨"main unit", asm.text⟩] =
      [⟨"unit 0", part.text⟩, ⟨"main unit", asm.text⟩] := rfl
  have hresult := (h.selfContained hmain hlib hnamed hnamed' hlines hfunctions).link_result
    Constants.standard_suffice files dirs requested
  rw [hsections, Section.checkLabels_pair,
    h.plain.2.definedLabels_text hmain hnamed (List.Subset.refl _),
    h.plain.1.definedLabels_text hlib hnamed' hlines] at hresult
  constructor
  · intro hnone
    rw [hnone] at hresult
    exact hresult.1 rfl
  · intro label hsome
    rw [hsome] at hresult
    exact hresult.2 _ rfl

private theorem Supplies.exists_clash (files : Files) (dirs requested : List String) :
    ∃ label, Text.least? (asm.labels.filter fun label => decide (label ∈ asm'.labels)) = some label ∧
      link files dirs .standard asm.text [asm'.text] requested =
        .error (.duplicateLabel label "unit 0" "main unit") := by
  obtain ⟨_, hclash⟩ := h.link_pair hmain hlib hnamed hnamed' (List.Subset.refl _)
    (fun header body hitem => (mem_labels hlib).mpr (.inl ⟨header, body, hitem, rfl⟩)) files dirs requested
  cases hleast : Text.least? (asm.labels.filter fun label => decide (label ∈ asm'.labels)) with
  | some label => exact ⟨label, rfl, hclash label hleast⟩
  | none =>
    have hentry : entryLabel ∈ asm.labels.filter fun label => decide (label ∈ asm'.labels) := by
      rw [List.mem_filter, decide_eq_true_eq]
      exact ⟨(mem_labels hmain).mpr (.inr (.inl rfl)), (mem_labels hlib).mpr (.inr (.inl rfl))⟩
    rw [Text.least?_eq_none hleast] at hentry
    exact absurd hentry List.not_mem_nil

private theorem Supplies.link_withoutEntry_iff (files : Files) (dirs requested : List String) :
    (∃ image, link files dirs .standard asm.text [asm'.withoutEntry.text] requested = .ok image) ↔
      ∀ label ∈ asm.blockLabels, label ∉ asm'.withoutEntry.blockLabels := by
  obtain ⟨hlinks, hclash⟩ := h.link_pair hmain hlib hnamed hnamed' asm'.lines_withoutEntry
    (fun header body hitem => (mem_labels_withoutEntry hlib).mpr (.inl ⟨header, body, hitem, rfl⟩)) files dirs
    requested
  constructor
  · rintro ⟨image, himage⟩ label hlabel hlabel'
    cases hleast : Text.least? (asm.labels.filter fun label => decide (label ∈ asm'.withoutEntry.labels)) with
    | some other =>
      rw [hclash other hleast] at himage
      simp at himage
    | none =>
      have hcommon := List.filter_eq_nil_iff.mp (Text.least?_eq_none hleast) label
        (asm.blockLabels_subset hlabel)
      exact hcommon (decide_eq_true (asm'.withoutEntry.blockLabels_subset hlabel'))
  · intro hblocks
    apply hlinks
    have hnone : (asm.labels.filter fun label => decide (label ∈ asm'.withoutEntry.labels)) = [] := by
      rw [List.filter_eq_nil_iff]
      intro label hlabel hlabel'
      obtain ⟨hblock, hblock'⟩ := h.common_label hmain hlib hlabel (of_decide_eq_true hlabel')
      exact hblocks label hblock hblock'
    rw [hnone]
    rfl

end

/-- The text of a unit never links with that of another, since both define the entry; the message is about
the least label that both define. With the entry left out of the one that supplies the functions, the two link
exactly if their routines have no labels in common. -/
theorem link_separate (hmain : main.compile policy = .ok asm) (hlib : lib.compile policy' = .ok asm')
    (hnamed : main.Named) (hnamed' : lib.Named) (h : lib.Supplies main) (files : Files)
    (dirs requested : List String) :
    (∃ label, Text.least? (asm.labels.filter fun label => decide (label ∈ asm'.labels)) = some label ∧
      link files dirs .standard asm.text [asm'.text] requested =
        .error (.duplicateLabel label "unit 0" "main unit")) ∧
    ((∃ image, link files dirs .standard asm.text [asm'.withoutEntry.text] requested = .ok image) ↔
      ∀ label ∈ asm.blockLabels, label ∉ asm'.withoutEntry.blockLabels) := by
  have hcode : asm.Named := fun line hline name hn => compile_named hmain hnamed hline hn
  have hcode' : asm'.Named := fun line hline name hn => compile_named hlib hnamed' hline hn
  exact ⟨h.exists_clash hmain hlib hcode hcode' files dirs requested,
    h.link_withoutEntry_iff hmain hlib hcode hcode' files dirs requested⟩

/-- The unit `function f(x) { return x; }`. -/
def definesF : CompilationUnit :=
  ⟨[.function ⟨"f", ["x"], 9⟩ [.ret (some (.var "x" 23))]]⟩

/-- The unit `extern function f(x); print(f(1));`. -/
def callsF : CompilationUnit :=
  ⟨[.external ⟨"f", ["x"], 16⟩, .stmt (.simple (.expr (.call "print" [.call "f" [.num 1] 28] 22)))]⟩

private theorem definesF_supplies : definesF.Supplies callsF where
  functions := by simp [definesF]
  externals := by simp [definesF, callsF]
  plain := by
    simp only [PlainNames, definesF, callsF, List.mem_cons, List.not_mem_nil, or_false, Item.function.injEq,
      Builtin.labels_eq]
    refine ⟨?_, by simp⟩
    rintro header body ⟨rfl, rfl⟩
    decide
  disjoint := by simp [callsF]

private theorem definesF_named : definesF.Named := by
  simp only [CompilationUnit.Named, Item.Named, definesF, List.forall_mem_cons, Item.signature?,
    Option.some.injEq, forall_eq']
  decide

private theorem callsF_named : callsF.Named := by
  simp only [CompilationUnit.Named, Item.Named, callsF, List.forall_mem_cons, Item.signature?,
    Option.some.injEq, forall_eq']
  decide

theorem link_separate_definesF : ∃ asm asm',
    callsF.compile .strict = .ok asm ∧ definesF.compile .strict = .ok asm' ∧
    link (fun _ => .missing) [] .standard asm.text [asm'.text] [] =
      .error (.duplicateLabel "start" "unit 0" "main unit") ∧
    ∃ image, link (fun _ => .missing) [] .standard asm.text [asm'.withoutEntry.text] [] = .ok image := by
  have hrun : ∃ asm, callsF.compile .strict = .ok asm ∧ asm.labels = ["start"] ∧ asm.blockLabels = [] :=
    exists_ok_of_any (by decide +kernel)
  have hrun' : ∃ asm', definesF.compile .strict = .ok asm' ∧ asm'.labels = ["f", "_return0", "start"] :=
    exists_ok_of_any (by decide +kernel)
  obtain ⟨asm, h, hlabels, hblocks⟩ := hrun
  obtain ⟨asm', h', hlabels'⟩ := hrun'
  obtain ⟨⟨label, hleast, hclash⟩, hlinks⟩ :=
    link_separate h h' callsF_named definesF_named definesF_supplies (fun _ => .missing) [] []
  obtain rfl : label = "start" := by
    rw [hlabels, hlabels'] at hleast
    exact (Option.some.inj hleast).symm
  refine ⟨asm, asm', h, h', hclash, hlinks.mpr ?_⟩
  rw [hblocks]
  exact List.forall_mem_nil _

/-- The unit `function g() { while (0) { } }`. -/
def loopsInG : CompilationUnit :=
  ⟨[.function ⟨"g", [], 9⟩ [.whileLoop (.num 0) []]]⟩

/-- The unit `extern function g(); while (0) { } g();`. -/
def loopsBeforeG : CompilationUnit :=
  ⟨[.external ⟨"g", [], 16⟩, .stmt (.whileLoop (.num 0) []), .stmt (.simple (.expr (.call "g" [] 35)))]⟩

private theorem loopsInG_supplies : loopsInG.Supplies loopsBeforeG where
  functions := by simp [loopsInG]
  externals := by simp [loopsInG, loopsBeforeG]
  plain := by
    simp only [PlainNames, loopsInG, loopsBeforeG, List.mem_cons, List.not_mem_nil, or_false,
      Item.function.injEq, Builtin.labels_eq]
    refine ⟨?_, by simp⟩
    rintro header body ⟨rfl, rfl⟩
    decide
  disjoint := by simp [loopsBeforeG]

/-- Two units that both have a loop clash even without the entry of one of them: their first loops have the
same label. -/
theorem loops_not_linked : loopsInG.Supplies loopsBeforeG ∧ ∃ asm asm',
    loopsBeforeG.compile .strict = .ok asm ∧ loopsInG.compile .strict = .ok asm' ∧
    link (fun _ => .missing) [] .standard asm.text [asm'.text] [] =
      .error (.duplicateLabel "_while0" "unit 0" "main unit") ∧
    link (fun _ => .missing) [] .standard asm.text [asm'.withoutEntry.text] [] =
      .error (.duplicateLabel "_while0" "unit 0" "main unit") := by
  have hrun : ∃ asm, loopsBeforeG.compile .strict = .ok asm ∧
      asm.labels = ["start", "_while0", "_while0_end"] :=
    exists_ok_of_any (by decide +kernel)
  have hrun' : ∃ asm', loopsInG.compile .strict = .ok asm' ∧
      asm'.labels = ["g", "_while0", "_while0_end", "start"] ∧
      asm'.withoutEntry.labels = ["g", "_while0", "_while0_end"] :=
    exists_ok_of_any (by decide +kernel)
  have hnamed : loopsBeforeG.Named ∧ loopsInG.Named := by
    simp only [CompilationUnit.Named, Item.Named, loopsBeforeG, loopsInG, List.forall_mem_cons,
      Item.signature?, Option.some.injEq, forall_eq']
    decide
  obtain ⟨asm, h, hlabels⟩ := hrun
  obtain ⟨asm', h', hlabels', hrest⟩ := hrun'
  have hcode : asm.Named := fun line hline name hn => compile_named h hnamed.1 hline hn
  have hcode' : asm'.Named := fun line hline name hn => compile_named h' hnamed.2 hline hn
  refine ⟨loopsInG_supplies, asm, asm', h, h', ?_, ?_⟩
  · apply (loopsInG_supplies.link_pair h h' hcode hcode' (List.Subset.refl _) ?_ _ _ _).2
    · rw [hlabels, hlabels']
      decide
    · rw [hlabels']
      simp [loopsInG]
  · apply (loopsInG_supplies.link_pair h h' hcode hcode' asm'.lines_withoutEntry ?_ _ _ _).2
    · rw [hlabels, hrest]
      decide
    · rw [hrest]
      simp [loopsInG]

end CompilationUnit

end WordLang
