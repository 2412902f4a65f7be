import WordLang.Link.Marker
import WordLang.Proofs.Labels
import WordLang.Proofs.Names

/-!
# References in the text of a unit

Linking sees the text of a unit only. A call of an external function is written with the sigil `@`, and a
marker is a sigil before a letter. So the markers of a text are the external callees that start with a
letter: all of them, unless the unit calls a function whose name starts with an underscore.
-/

namespace WordLang

open LabelSupply

def Callee.name : Callee → String
  | internal name | external name => name

def Instruction.names : Instruction → List String
  | .jmp target | .jz _ target => [target]
  | .call callee => [callee.name]
  | _ => []

namespace Line

def names : Line → List String
  | label name => [name]
  | code i => i.names

def external? : Line → Option String
  | code (.call (.external name)) => some name
  | _ => none

private theorem Known.names {sigs : Signatures} {last : Option String} {line : Line} (h : line.Known sigs last)
    (name : String) (hn : name ∈ line.names) :
    line.label? = some name ∨ Generated name ∨ last = some name ∨ ∃ sig ∈ sigs.entries, name = sig.name := by
  cases h with
  | label other => exact .inl (by simpa [Line.names, eq_comm, label?] using hn)
  | jmp ht =>
    obtain rfl : name = _ := by simpa [Line.names, Instruction.names] using hn
    exact .inr (ht.imp_right .inl)
  | jz ht =>
    obtain rfl : name = _ := by simpa [Line.names, Instruction.names] using hn
    exact .inr (ht.imp_right .inl)
  | @plain i hi =>
    cases i with
    | call callee =>
      obtain ⟨sig, hsig, rfl⟩ := hi
      obtain rfl : name = sig.callee.name := by simpa [Line.names, Instruction.names] using hn
      refine .inr (.inr (.inr ⟨sig, hsig, ?_⟩))
      unfold Signature.callee
      split <;> rfl
    | jmp _ | jz _ _ => exact hi.elim
    | _ => simp [Line.names, Instruction.names] at hn

end Line

/-- The external functions that a unit calls, in order and with repetitions. -/
def Assembly.externals (asm : Assembly) : List String :=
  asm.lines.filterMap Line.external?

namespace CompilationUnit

private theorem frame_names {sigs : Signatures} {header : Header} {body : List Stmt} {s s' : Frame}
    (hnone : s.returnLabel = none) (hcode : s.code = #[])
    (h : header.emitBody sigs body s = .ok () s') {line : Line} (hline : line ∈ s'.code.toList)
    {name : String} (hn : name ∈ line.names) :
    Generated name ∨ ∃ sig ∈ sigs.entries, name = sig.name := by
  have hgrows := Header.emitBody_grows hnone h
  obtain ⟨new, hnew, hknown, _, hgave⟩ := hgrows.code
  have hmem : line ∈ new := by simpa [hnew, hcode] using hline
  rcases (hknown line hmem).names name hn with hl | hg | hl | hsig
  · have hlabel := hgave name (List.mem_filterMap.mpr ⟨line, hmem, hl⟩)
    exact .inl (hlabel.generated (List.Subset.refl _))
  · exact .inl hg
  · rcases hgrows.returns with hr | ⟨_, l, hr, hlast⟩
    · simp [hr, hnone] at hl
    · obtain rfl := Option.some.inj (hl.symm.trans hr)
      exact .inl (hlast.generated (by decide))
  · exact .inr hsig

private theorem prologueFor_names (saved : List Register) (slots : Int) :
    ∀ i ∈ Routine.prologueFor saved slots, i.names = [] := by
  unfold Routine.prologueFor
  split <;> simp [Instruction.names, or_imp, forall_and]

private theorem epilogueFor_names (saved : List Register) :
    ∀ i ∈ Routine.epilogueFor saved, i.names = [] := by
  simp [Routine.epilogueFor, Instruction.names, or_imp, forall_and]

private theorem routine_names {routine : Routine} (hpro : ∀ i ∈ routine.prologue, i.names = [])
    (hepi : ∀ i ∈ routine.epilogue, i.names = []) {line : Line} (hline : line ∈ routine.lines)
    {name : String} (hn : name ∈ line.names) : name = routine.label ∨ line ∈ routine.body := by
  have hnone {is : List Instruction} (his : ∀ i ∈ is, i.names = []) (hmem : line ∈ is.map Line.code) :
      False := by
    obtain ⟨i, hi, rfl⟩ := List.mem_map.mp hmem
    simp [Line.names, his i hi] at hn
  simp only [Routine.lines, List.mem_cons, List.mem_append] at hline
  rcases hline with ((rfl | hmem) | hmem) | hmem
  · exact .inl (by simpa [Line.names] using hn)
  · exact (hnone hpro hmem).elim
  · exact .inr hmem
  · exact (hnone hepi hmem).elim

private theorem compileAll_line_names {sigs : Signatures} {policy : FreePolicy} {labels : LabelSupply}
    {functions : List (Header × List Stmt)} {routines : List Routine}
    (h : compileAll sigs policy labels functions = .ok routines) {routine : Routine}
    (hr : routine ∈ routines) {line : Line} (hline : line ∈ routine.lines) {name : String}
    (hn : name ∈ line.names) :
    (∃ f ∈ functions, name = f.1.name) ∨ Generated name ∨ ∃ sig ∈ sigs.entries, name = sig.name := by
  induction functions generalizing labels routines with
  | nil =>
    obtain rfl : [] = routines := by simpa [compileAll] using h
    exact absurd hr List.not_mem_nil
  | cons f rest ih =>
    obtain ⟨first, labels', others, hfirst, ho, rfl⟩ := compileAll_cons_ok h
    rcases List.mem_cons.mp hr with rfl | hr
    · obtain ⟨frame, he, _, rfl⟩ := Routine.compile_ok hfirst
      rcases routine_names (prologueFor_names _ _) (epilogueFor_names _) hline hn with hown | hbody
      · exact .inl ⟨f, List.mem_cons_self, hown⟩
      · exact .inr (frame_names rfl rfl he hbody hn)
    · refine (ih ho hr).imp_left ?_
      rintro ⟨g, hg, hname⟩
      exact ⟨g, List.mem_cons_of_mem f hg, hname⟩

end CompilationUnit

namespace Link

def Unmarked (cs : List Char) : Prop :=
  ∀ c ∈ cs, c ≠ '@' ∧ c ≠ '#'

instance (cs : List Char) : Decidable (Unmarked cs) :=
  List.decidableBAll (fun c => c ≠ '@' ∧ c ≠ '#') cs

private theorem unmarked_append {xs ys : List Char} : Unmarked (xs ++ ys) ↔ Unmarked xs ∧ Unmarked ys :=
  List.forall_mem_append

private theorem Unmarked.of_nameChars {cs : List Char} (h : ∀ c ∈ cs, Text.isNameChar c = true) : Unmarked cs := by
  intro c hc
  constructor
  · rintro rfl
    exact absurd (h _ hc) (by decide)
  · rintro rfl
    exact absurd (h _ hc) (by decide)

private theorem markers_append {xs : List Char} (h : Unmarked xs) (ys : List Char) :
    markers false (xs ++ ys) = markers false ys := by
  induction xs with
  | nil => rfl
  | cons c cs ih =>
    have hc := h c List.mem_cons_self
    have hcs : Unmarked cs := fun d hd => h d (List.mem_cons_of_mem c hd)
    simp [markers, hc.1, hc.2, ih hcs]

theorem unmark_append {xs : List Char} (h : Unmarked xs) (ys : List Char) :
    unmark false (xs ++ ys) = xs ++ unmark false ys := by
  induction xs with
  | nil => rfl
  | cons c cs ih =>
    have hc := h c List.mem_cons_self
    have hcs : Unmarked cs := fun d hd => h d (List.mem_cons_of_mem c hd)
    simp [unmark, hc.1, hc.2, ih hcs]

private theorem unmarked_nat (n : Nat) : Unmarked (toString n).toList := by
  refine Unmarked.of_nameChars fun c hc => ?_
  have hdigit : c.isDigit = true :=
    Nat.isDigit_of_mem_toDigits (b := 10) (by decide) (by decide) (by simpa using hc)
  simp [Text.isNameChar, Char.isAlphanum, hdigit]

private theorem unmarked_int (i : Int) : Unmarked (toString i).toList := by
  cases i with
  | ofNat n => exact unmarked_nat n
  | negSucc n =>
    have htext : (toString (Int.negSucc n)).toList = ['-'] ++ (toString (n + 1)).toList := by
      simp [toString, Int.repr]
    rw [htext, unmarked_append]
    exact ⟨by decide, unmarked_nat _⟩

private theorem unmarked_register (r : Register) : Unmarked r.text.toList := by
  cases r <;> decide

private theorem unmarked_operation (op : Operation) : Unmarked op.text.toList := by
  cases op <;> decide

private theorem unmarked_instruction {i : Instruction} (hnames : ∀ name ∈ i.names, Unmarked name.toList)
    (hinternal : (Line.code i).external? = none) : Unmarked i.text.toList := by
  have hspace : Unmarked (" ").toList := by decide
  have hcomma : Unmarked (", ").toList := by decide
  have hopen : Unmarked ("(").toList := by decide
  have hclose : Unmarked (")").toList := by decide
  cases i with
  | call callee =>
    cases callee with
    | internal name =>
      have hname := hnames name (by simp [Instruction.names, Callee.name])
      simp only [Instruction.text, Callee.text, String.toList_append, unmarked_append]
      exact ⟨by decide, hname⟩
    | external name => simp [Line.external?] at hinternal
  | jmp target =>
    have htarget := hnames target (by simp [Instruction.names])
    simp only [Instruction.text, String.toList_append, unmarked_append]
    exact ⟨by decide, htarget⟩
  | jz rs target =>
    have htarget := hnames target (by simp [Instruction.names])
    simp only [Instruction.text, String.toList_append, unmarked_append]
    exact ⟨⟨⟨by decide, unmarked_register rs⟩, hcomma⟩, htarget⟩
  | binary op rd rs1 rs2 =>
    simp only [Instruction.text, String.toList_append, unmarked_append]
    simp only [unmarked_operation, unmarked_register, hspace, hcomma, and_self]
  | ret => decide
  | _ =>
    simp only [Instruction.text, String.toList_append, unmarked_append]
    simp only [unmarked_register, unmarked_int, hcomma, hopen, hclose, and_true]
    decide

/-- A line shows no sigil, or it is a call of an external function. -/
theorem line_text {line : Line} (hnames : ∀ name ∈ line.names, Unmarked name.toList) :
    line.external? = none ∧ Unmarked line.text.toList ∨
      ∃ name, line.external? = some name ∧ name ∈ line.names ∧
        line.text.toList = "    call ".toList ++ '@' :: name.toList := by
  cases line with
  | label name =>
    refine .inl ⟨rfl, ?_⟩
    simp only [Line.text, String.toList_append, unmarked_append]
    exact ⟨hnames name (by simp [Line.names]), by decide⟩
  | code i =>
    cases hext : (Line.code i).external? with
    | none =>
      refine .inl ⟨rfl, ?_⟩
      simp only [Line.text, String.toList_append, unmarked_append]
      exact ⟨by decide, unmarked_instruction hnames hext⟩
    | some name =>
      have hcall : i = .call (.external name) := by
        unfold Line.external? at hext
        split at hext
        · rename_i other hi
          rw [Line.code.inj hi, Option.some.inj hext]
        · simp at hext
      subst hcall
      exact .inr ⟨name, rfl, by simp [Line.names, Instruction.names, Callee.name], by
        simp [Line.text, Instruction.text, Callee.text]⟩

private theorem startsName_append (name : String) (rest : List Char) :
    startsName (name.toList ++ '\n' :: rest) = startsName name.toList := by
  cases name.toList with
  | nil => rfl
  | cons c cs => rfl

private theorem takeWhile_name {name : String} (h : Text.Named name)
    (rest : List Char) :
    String.ofList ((name.toList ++ '\n' :: rest).takeWhile Text.isNameChar) = name := by
  have hend : Text.isNameChar '\n' = false := by decide
  rw [List.takeWhile_append_of_pos h]
  simp [hend]

variable {line : Line} (hnames : ∀ name ∈ line.names, Text.Named name)
include hnames

theorem markers_line (rest : List Char) :
    markers false (line.text.toList ++ '\n' :: rest) =
      (line.external?.toList.filter fun name => startsName name.toList) ++ markers false rest := by
  rcases line_text fun name hn => Unmarked.of_nameChars (hnames name hn) with
    ⟨hext, hplain⟩ | ⟨name, hext, hn, htext⟩
  · have hline : Unmarked (line.text.toList ++ ['\n']) := unmarked_append.mpr ⟨hplain, by decide⟩
    rw [← List.singleton_append, ← List.append_assoc, markers_append hline, hext]
    rfl
  · have hname : Unmarked (name.toList ++ ['\n']) :=
      unmarked_append.mpr ⟨.of_nameChars (hnames name hn), by decide⟩
    have hafter : markers false (name.toList ++ '\n' :: rest) = markers false rest := by
      rw [← List.singleton_append, ← List.append_assoc, markers_append hname]
    have hcall : Unmarked "    call ".toList := by decide
    rw [htext, hext, List.append_assoc, markers_append hcall, List.cons_append]
    simp only [markers, startsName_append, takeWhile_name (hnames name hn), hafter]
    by_cases hs : startsName name.toList = true <;> simp [hs]

/-- A sigil that stays in a line belongs to a function whose name a marker cannot carry. -/
theorem mem_unmark_line (rest : List Char) :
    '@' ∈ unmark false (line.text.toList ++ '\n' :: rest) ↔
      (∃ name, line.external? = some name ∧ startsName name.toList = false) ∨
        '@' ∈ unmark false rest := by
  have hplainly {cs : List Char} (h : Unmarked cs) : '@' ∉ cs := fun hmem => (h _ hmem).1 rfl
  rcases line_text fun name hn => Unmarked.of_nameChars (hnames name hn) with
    ⟨hext, hplain⟩ | ⟨name, hext, hn, htext⟩
  · have hline : Unmarked (line.text.toList ++ ['\n']) := unmarked_append.mpr ⟨hplain, by decide⟩
    rw [← List.singleton_append, ← List.append_assoc, unmark_append hline]
    simp [hext, hplainly hplain]
  · have hchars : Unmarked name.toList := .of_nameChars (hnames name hn)
    have hname : Unmarked (name.toList ++ ['\n']) := unmarked_append.mpr ⟨hchars, by decide⟩
    have hafter : unmark false (name.toList ++ '\n' :: rest) =
        name.toList ++ '\n' :: unmark false rest := by
      rw [← List.singleton_append, ← List.append_assoc, unmark_append hname, List.append_assoc,
        List.singleton_append]
    have hcall : Unmarked "    call ".toList := by decide
    rw [htext, hext, List.append_assoc, unmark_append hcall, List.cons_append]
    simp only [unmark, startsName_append, hafter, List.mem_append, hplainly hcall]
    by_cases hs : startsName name.toList = true <;> simp [hs, hplainly hchars]

end Link

namespace CompilationUnit

open Link

variable {unit : CompilationUnit} {policy : FreePolicy} {asm : Assembly}

private theorem generated_named {label : String} (h : Generated label) : Text.Named label := by
  obtain ⟨kind, hk, number, ending, he, rfl⟩ := h
  have hdigits : Text.Named (toString number) := by
    intro c hc
    have hdigit : c.isDigit = true :=
      Nat.isDigit_of_mem_toDigits (b := 10) (by decide) (by decide) (by simpa using hc)
    simp [Text.isNameChar, Char.isAlphanum, hdigit]
  have hkind : Text.Named kind := by
    simp only [kinds, constructs, List.mem_cons, List.not_mem_nil, or_false] at hk
    rcases hk with rfl | rfl | rfl | rfl <;> decide
  have hending : Text.Named ending := by
    simp only [kinds, constructs, List.mem_cons, List.not_mem_nil, or_false] at hk
    rcases hk with rfl | rfl | rfl | rfl <;>
      simp only [endings, List.mem_cons, List.not_mem_nil, or_false] at he
    · subst he
      decide
    all_goals rcases he with rfl | rfl <;> decide
  have hsigil : Text.Named "_" := by decide
  intro c hc
  simp only [text, String.toList_append, List.mem_append] at hc
  rcases hc with ((hc | hc) | hc) | hc
  · exact hsigil c hc
  · exact hkind c hc
  · exact hdigits c hc
  · exact hending c hc

/-- In a unit whose functions are named by letters, digits and underscores, so is all that its code
mentions. -/
theorem compile_named (h : unit.compile policy = .ok asm) (hnamed : unit.Named) {line : Line}
    (hline : line ∈ asm.lines) {name : String} (hn : name ∈ line.names) : Text.Named name := by
  obtain ⟨sigs, hsigs, hall⟩ := compile_ok h
  obtain ⟨routine, hr, hline⟩ := List.mem_flatMap.mp hline
  rcases compileAll_line_names hall hr hline hn with ⟨f, hf, rfl⟩ | hgen | ⟨sig, hsig, rfl⟩
  · rw [functions_eq, List.mem_append] at hf
    rcases hf with hf | hf
    · exact hnamed _ (mem_definitions.mp hf) _ rfl
    · rw [List.mem_singleton.mp hf]
      have hentry : Text.Named entryLabel := by decide
      exact hentry
  · exact generated_named hgen
  · rw [(signatures_ok hsigs).2, List.mem_append, List.mem_reverse, List.mem_filterMap] at hsig
    rcases hsig with ⟨item, hitem, hsig⟩ | hsig
    · exact hnamed item hitem sig hsig
    · have hbuiltin : ∀ sig ∈ Signatures.builtin.entries, Text.Named sig.name := by decide
      exact hbuiltin sig hsig

private theorem toList_text (asm : Assembly) :
    asm.text.toList = asm.lines.flatMap fun line => line.text.toList ++ ['\n'] := by
  simp [Assembly.text, String.toList_join, List.flatMap_map]

private theorem markers_lines {lines : List Line}
    (hnames : ∀ line ∈ lines, ∀ name ∈ line.names, Text.Named name) :
    markers false (lines.flatMap fun line => line.text.toList ++ ['\n']) =
      (lines.filterMap Line.external?).filter fun name => startsName name.toList := by
  induction lines with
  | nil => rfl
  | cons line lines ih =>
    rw [List.flatMap_cons, List.append_assoc, List.singleton_append,
      markers_line (hnames line List.mem_cons_self),
      ih fun other ho => hnames other (List.mem_cons_of_mem line ho)]
    cases hext : line.external? with
    | none => simp [hext]
    | some name => by_cases hs : startsName name.toList = true <;> simp [hext, hs]

private theorem mem_unmark_lines {lines : List Line}
    (hnames : ∀ line ∈ lines, ∀ name ∈ line.names, Text.Named name) :
    '@' ∈ unmark false (lines.flatMap fun line => line.text.toList ++ ['\n']) ↔
      ∃ name ∈ lines.filterMap Line.external?, startsName name.toList = false := by
  induction lines with
  | nil => simp [unmark]
  | cons line lines ih =>
    rw [List.flatMap_cons, List.append_assoc, List.singleton_append,
      mem_unmark_line (hnames line List.mem_cons_self),
      ih fun other ho => hnames other (List.mem_cons_of_mem line ho)]
    cases hext : line.external? with
    | none => simp [hext]
    | some name => simp [hext]

/-- What linking finds in the text of a unit: the distinct external callees that start with a letter, in the
order of their first calls. It finds all external callees, and removes all sigils, exactly if every one of
them starts with a letter. -/
theorem references_text (h : unit.compile policy = .ok asm) (hnamed : unit.Named) :
    references asm.text = (asm.externals.filter fun name => startsName name.toList).eraseDups ∧
    (references asm.text = asm.externals.eraseDups ↔
      ∀ name ∈ asm.externals, startsName name.toList = true) ∧
    ('@' ∉ (stripMarkers asm.text).toList ↔
      ∀ name ∈ asm.externals, startsName name.toList = true) := by
  have hlines : ∀ line ∈ asm.lines, ∀ name ∈ line.names, Text.Named name :=
    fun line hline name hn => compile_named h hnamed hline hn
  have hrefs : references asm.text =
      (asm.externals.filter fun name => startsName name.toList).eraseDups := by
    rw [references, toList_text, markers_lines hlines]
    rfl
  refine ⟨hrefs, ?_, ?_⟩
  · rw [hrefs]
    constructor
    · intro heq name hname
      have hmem : name ∈ (asm.externals.filter fun name => startsName name.toList).eraseDups := by
        rw [heq]
        exact List.mem_eraseDups.mpr hname
      exact (List.mem_filter.mp (List.mem_eraseDups.mp hmem)).2
    · intro hall
      rw [List.filter_eq_self.mpr hall]
  · rw [stripMarkers, String.toList_ofList, toList_text, mem_unmark_lines hlines]
    simp [Assembly.externals]

/-- A unit that calls an external function `abs` and one named by an underscore and a letter. -/
def twoExternals : CompilationUnit :=
  ⟨[.external ⟨"abs", ["x"], 16⟩, .external ⟨"_a", [], 40⟩,
    .stmt (.simple (.expr (.call "abs" [.num 1] 46))), .stmt (.simple (.expr (.call "_a" [] 54)))]⟩

theorem references_text_twoExternals : ∃ asm, twoExternals.compile .strict = .ok asm ∧
    references asm.text = ["abs"] ∧ references asm.text ≠ asm.externals.eraseDups ∧
    '@' ∈ (stripMarkers asm.text).toList := by
  have hrun : ∃ asm, twoExternals.compile .strict = .ok asm ∧ asm.externals = ["abs", "_a"] :=
    exists_ok_of_any (by decide +kernel)
  obtain ⟨asm, h, hext⟩ := hrun
  have hnamed : twoExternals.Named := by
    simp only [CompilationUnit.Named, Item.Named, twoExternals, List.forall_mem_cons, Item.signature?,
      Option.some.injEq, forall_eq']
    decide
  obtain ⟨hrefs, hfull, hstrip⟩ := references_text h hnamed
  rw [hext] at hrefs hfull hstrip
  refine ⟨asm, h, by rw [hrefs]; decide, ?_, ?_⟩
  · rw [hext, ne_eq, hfull]
    decide
  · exact Decidable.not_not.mp fun hnot => absurd (hstrip.mp hnot) (by decide)

/-- An external function can have a name that no marker carries. Linking then does not look for it. -/
theorem references_incomplete : ∃ asm,
    CompilationUnit.compile ⟨[.external ⟨"_hidden", [], 16⟩,
      .stmt (.simple (.expr (.call "_hidden" [] 27)))]⟩ .strict = .ok asm ∧
    asm.externals = ["_hidden"] ∧ references asm.text = [] :=
  exists_ok_of_any (by decide +kernel)

end CompilationUnit

end WordLang
