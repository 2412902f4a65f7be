import WordLang.Proofs.ErrorPlaces
import WordLang.Proofs.SeparateUnits

/-!
# Labels read back

A linker knows a unit by its text alone. From the text of a unit that was parsed and compiled it reads the labels
that were written into it, in their order: an instruction has no colon in it, and a label is an identifier of the
source or one that the compiler made up.
-/

namespace WordLang

open Link

namespace Token

private theorem isDigit_of_isIdentStart {c : Char} (h : isIdentStart c = true) : c.isDigit = false := by
  simp only [isIdentStart, Bool.or_eq_true, beq_iff_eq] at h
  rcases h with halpha | rfl
  · exact isDigit_of_isAlpha halpha
  · decide

private theorem Identifier.first {cs : List Char} (h : Identifier cs) : ∃ d ds, cs = d :: ds ∧ d.isDigit = false := by
  cases cs with
  | nil => exact h.elim
  | cons d ds => exact ⟨d, ds, rfl, isDigit_of_isIdentStart h.1⟩

end Token

namespace CompilationUnit

variable {source : String} {unit : CompilationUnit} {policy : FreePolicy} {asm : Assembly}

private theorem parse_function_name (hparse : CompilationUnit.parse source = .ok unit) {header : Header}
    {body : List Stmt}
    (hitem : Item.function header body ∈ unit.items) : Token.Identifier header.name.toList := by
  have hname : (header.name, header.pos) ∈ unit.names :=
    Item.names_subset_names hitem List.mem_cons_self
  obtain ⟨t, ht, hkind, htext, -⟩ := Grammar.mem_identifiers.mp (parse_names hparse hname)
  obtain ⟨_, _, _, _, _, hlongest⟩ := (Tokens.scan_eq_iff.mp rfl).token_at ht
  have hspells := hlongest.spells
  rwa [hkind, htext] at hspells

/-- What linking reads as labels in the text of a unit are its labels, line by line: those of its functions and
those inside of them. -/
theorem compile_labels_text (hparse : CompilationUnit.parse source = .ok unit)
    (h : unit.compile policy = .ok asm) :
    (∀ line ∈ asm.lines, lineLabel? line.text.toList = line.label?) ∧
    definedLabels asm.text = asm.labels ∧
    ∀ label, label ∈ definedLabels asm.text ↔
      label ∈ asm.routines.map Routine.label ∨ label ∈ asm.blockLabels := by
  have hnamed : asm.Named := fun line hline name => compile_named h (parse_named hparse) hline
  have hlabels {label : String} (hlabel : label ∈ asm.labels) : isLabelName label.toList = true :=
    isLabelName_label h hnamed (fun header body hitem => (parse_function_name hparse hitem).first) hlabel
  have htext : definedLabels asm.text = asm.labels := by
    rw [hnamed.definedLabels_text, List.filter_eq_self]
    exact fun label => hlabels
  refine ⟨?_, htext, ?_⟩
  · intro line hline
    rw [lineLabel?_text (hnamed line hline)]
    cases hlabel : line.label? with
    | none => rfl
    | some label => rw [Option.filter_some, if_pos (hlabels (List.mem_filterMap.mpr ⟨line, hline, hlabel⟩))]
  · intro label
    rw [htext, asm.labels_perm.mem_iff, List.mem_append]

/-- A loop in a function. -/
def loopInF : CompilationUnit :=
  ⟨[.function ⟨"f", [], 9⟩ [.whileLoop (.num 0) []]]⟩

set_option maxRecDepth 2000 in
private theorem scan_loopInF : Tokens.scan "function f()\x7bwhile(0)\x7b\x7d\x7d" =
    ⟨[⟨.kwFunction, "function", 0, 8⟩, ⟨.identifier, "f", 9, 10⟩, ⟨.lparen, "(", 10, 11⟩, ⟨.rparen, ")", 11, 12⟩,
    ⟨.lbrace, "\x7b", 12, 13⟩, ⟨.kwWhile, "while", 13, 18⟩, ⟨.lparen, "(", 18, 19⟩, ⟨.number, "0", 19, 20⟩,
    ⟨.rparen, ")", 20, 21⟩, ⟨.lbrace, "\x7b", 21, 22⟩, ⟨.rbrace, "\x7d", 22, 23⟩, ⟨.rbrace, "\x7d", 23, 24⟩],
    none⟩ := by
  rfl

open Grammar in
private theorem parse_loopInF : CompilationUnit.parse "function f()\x7bwhile(0)\x7b\x7d\x7d" = .ok loopInF := by
  rw [parse, scan_loopInF]
  apply run_eq_ok
  have hzero : Derives [.nonterminal .number] [⟨.number, "0", 19, 20⟩] (0, ()) :=
    .of_index 67 rfl (.token rfl .nil) rfl
  have hcond := (Derives.of_index 64 rfl hzero rfl).expr_of_primary
  have hempty : Derives [.nonterminal .block] [⟨.lbrace, "\x7b", 21, 22⟩, ⟨.rbrace, "\x7d", 22, 23⟩] ([], ()) :=
    .of_index 10 rfl (.token rfl (.token rfl .nil)) rfl
  have hloop : Derives [.nonterminal .stmt] [⟨.kwWhile, "while", 13, 18⟩, ⟨.lparen, "(", 18, 19⟩,
      ⟨.number, "0", 19, 20⟩, ⟨.rparen, ")", 20, 21⟩, ⟨.lbrace, "\x7b", 21, 22⟩, ⟨.rbrace, "\x7d", 22, 23⟩]
      (.whileLoop (.num 0) [], ()) :=
    .of_index 16 rfl (.token rfl (.token rfl (hcond.cons (.token rfl hempty)))) rfl
  have hstmts := Derives.of_index 12 rfl hloop rfl
  have hbody : Derives [.nonterminal .block] [⟨.lbrace, "\x7b", 12, 13⟩, ⟨.kwWhile, "while", 13, 18⟩,
      ⟨.lparen, "(", 18, 19⟩, ⟨.number, "0", 19, 20⟩, ⟨.rparen, ")", 20, 21⟩, ⟨.lbrace, "\x7b", 21, 22⟩,
      ⟨.rbrace, "\x7d", 22, 23⟩, ⟨.rbrace, "\x7d", 23, 24⟩] ([.whileLoop (.num 0) []], ()) :=
    .of_index 11 rfl (.token rfl (hstmts.cons (.token rfl .nil))) rfl
  have hname : Derives [.nonterminal .name] [⟨.identifier, "f", 9, 10⟩] (("f", 9), ()) :=
    .of_index 68 rfl (.token rfl .nil) rfl
  have hparams : Derives [.nonterminal .params] [] ([], ()) := .of_index 69 rfl .nil rfl
  have hheader : Derives [.nonterminal .header] [⟨.kwFunction, "function", 0, 8⟩, ⟨.identifier, "f", 9, 10⟩,
      ⟨.lparen, "(", 10, 11⟩, ⟨.rparen, ")", 11, 12⟩] (⟨"f", [], 9⟩, ()) :=
    .of_index 8 rfl (.token rfl (hname.cons (.token rfl (hparams.cons (.token rfl .nil))))) rfl
  have hfunction := Derives.of_index 9 rfl (hheader.cons hbody) rfl
  exact .of_index 2 rfl (.of_index 3 rfl (.of_index 5 rfl hfunction rfl) rfl) rfl

theorem compile_labels_text_loopInF :
    CompilationUnit.parse "function f()\x7bwhile(0)\x7b\x7d\x7d" = .ok loopInF ∧
    ∃ asm, loopInF.compile .strict = .ok asm ∧
    asm.routines.map Routine.label = ["f", "start"] ∧ asm.blockLabels = ["_while0", "_while0_end"] ∧
    definedLabels asm.text = ["f", "_while0", "_while0_end", "start"] := by
  have hrun : ∃ asm, loopInF.compile .strict = .ok asm ∧ asm.labels = ["f", "_while0", "_while0_end", "start"] ∧
      asm.routines.map Routine.label = ["f", "start"] ∧ asm.blockLabels = ["_while0", "_while0_end"] :=
    exists_ok_of_any (by decide +kernel)
  obtain ⟨asm, h, hlabels, hfunctions, hblocks⟩ := hrun
  exact ⟨parse_loopInF, asm, h, hfunctions, hblocks, (compile_labels_text parse_loopInF h).2.1.trans hlabels⟩

end CompilationUnit

end WordLang
