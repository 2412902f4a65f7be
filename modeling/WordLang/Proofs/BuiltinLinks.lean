import WordLang.Build
import WordLang.Proofs.Parsing
import WordLang.Proofs.Residue
import WordLang.Proofs.SectionLabels
import WordLang.Proofs.UnitText

/-!
# Links without libraries

Some texts refer only to builtin functions and to the labels of units. Linking them looks into no library,
whatever the libraries are; the modules that it pulls in are builtin ones, whose labels and placeholders are
known. Such a link fails only if two of the units define one label.
-/

namespace WordLang

private theorem Text.mem_of_mem_lines {cs l : List Char} {c : Char} (hl : l ∈ lines cs) (hc : c ∈ l) : c ∈ cs := by
  induction cs generalizing l with
  | nil =>
    obtain rfl := List.mem_singleton.mp hl
    exact hc
  | cons d cs ih =>
    by_cases hd : d = '\n'
    · rw [hd, lines_newline_cons, List.mem_cons] at hl
      rcases hl with rfl | hl
      · simp at hc
      · exact List.mem_cons_of_mem d (ih hl hc)
    · obtain ⟨first, others, hcs⟩ := exists_lines cs
      rw [lines_cons hd hcs, List.mem_cons] at hl
      rcases hl with rfl | hl
      · rcases List.mem_cons.mp hc with rfl | hc
        · exact List.mem_cons_self
        · exact List.mem_cons_of_mem d (ih (hcs ▸ List.mem_cons_self) hc)
      · exact List.mem_cons_of_mem d (ih (hcs ▸ List.mem_cons_of_mem first hl) hc)

namespace Link

/-! ## The builtin modules -/

namespace Builtin

private theorem definedLabels_entryStub : definedLabels entryStub = ["_init"] := by
  rw [entryStub, definedLabels_ofLines]
  decide

/-- The builtin modules, with the labels that each defines and the names that it refers to. -/
def summary : List (String × List String × List String) :=
  [("print", ["print", "_print_unsigned"], ["putc", "print_digits"]),
    ("print_digits", ["print_digits", "_print_digits_last"], ["putc"]),
    ("putc", ["putc"], []),
    ("exit", ["exit"], [])]

private theorem modules_summary :
    (modules.map fun entry => (entry.1, definedLabels entry.2, references entry.2)) = summary := by
  simp only [modules, print, printDigits, putc, exit, List.map_cons, List.map_nil, definedLabels_ofLines,
    references_ofLines]
  decide +kernel

def labels : List String :=
  definedLabels entryStub ++ modules.flatMap fun entry => definedLabels entry.2

theorem labels_eq : labels =
    ["_init", "print", "_print_unsigned", "print_digits", "_print_digits_last", "putc", "exit"] := by
  have hmodules := congrArg (List.flatMap fun entry => entry.2.1) modules_summary
  rw [List.flatMap_map] at hmodules
  rw [labels, definedLabels_entryStub, hmodules]
  rfl

section

variable {name other body body' inner : String}

theorem mem_modules (h : find? name = some body) : (name, body) ∈ modules := by
  obtain ⟨before, after, hmodules, _⟩ := List.lookup_eq_some_iff.mp h
  rw [hmodules]
  simp

private theorem mem_summary (h : find? name = some body) : (name, definedLabels body, references body) ∈ summary := by
  rw [← modules_summary]
  exact List.mem_map_of_mem (mem_modules h)

private theorem find?_references (h : find? name = some body) (hinner : inner ∈ references body) :
    (find? inner).isSome = true := by
  have hall : ∀ entry ∈ summary, ∀ inner ∈ entry.2.2, (find? inner).isSome = true := by decide
  exact hall _ (mem_summary h) inner hinner

private theorem stub_disjoint (h : find? name = some body) :
    ∀ label ∈ definedLabels body, label ∉ definedLabels entryStub := by
  have hall : ∀ entry ∈ summary, ∀ label ∈ entry.2.1, label ∉ ["_init"] := by decide
  rw [definedLabels_entryStub]
  exact hall _ (mem_summary h)

private theorem definedLabels_disjoint (h : find? name = some body) (h' : find? other = some body')
    (hne : name ≠ other) : ∀ label ∈ definedLabels body', label ∉ definedLabels body := by
  have hall : ∀ entry ∈ summary, ∀ entry' ∈ summary, entry.1 ≠ entry'.1 →
      ∀ label ∈ entry'.2.1, label ∉ entry.2.1 := by
    decide
  exact hall _ (mem_summary h) _ (mem_summary h') hne

end

end Builtin

/-! ## Pulling in modules -/

private theorem exists_foldlM {ε α β : Type} {step : β → α → Except ε β} {xs : List α}
    (h : ∀ x ∈ xs, ∀ b, ∃ b', step b x = .ok b') (b : β) : ∃ b', xs.foldlM step b = .ok b' := by
  induction xs generalizing b with
  | nil => exact ⟨b, rfl⟩
  | cons x xs ih =>
    obtain ⟨b₁, hfirst⟩ := h x List.mem_cons_self b
    obtain ⟨b', hrest⟩ := ih (fun y hy => h y (List.mem_cons_of_mem x hy)) b₁
    exact ⟨b', by rw [List.foldlM_cons, hfirst]; exact hrest⟩

namespace Closure

/-- Names that resolve without libraries, through builtin modules at most `n` deep. -/
inductive Resolvable (sources : Sources) : Nat → String → Prop
  | unit {n : Nat} {name : String} (hbuiltin : Builtin.find? name = none)
    (hunit : name ∈ sources.unitLabels) : Resolvable sources n name
  | builtin {n : Nat} {name body : String} (hfind : Builtin.find? name = some body)
    (hinner : ∀ inner ∈ references body, Resolvable sources n inner) : Resolvable sources (n + 1) name

variable {sources : Sources} {name : String}

private theorem Resolvable.resolve {n depth : Nat} (h : Resolvable sources n name) (hn : n ≤ depth) (origin : String)
    (c : Closure) : ∃ c', Closure.resolve sources depth origin c name = .ok c' := by
  induction h generalizing depth origin c with
  | unit hbuiltin hunit =>
    unfold Closure.resolve
    split
    · exact ⟨c, rfl⟩
    · simp [Sources.provider, hbuiltin, hunit]
  | @builtin n name body hfind hinner ih =>
    unfold Closure.resolve
    split
    · exact ⟨c, rfl⟩
    · simp only [Sources.provider, hfind]
      split
      · exact ⟨_, rfl⟩
      · cases depth with
        | zero => omega
        | succ depth =>
          obtain ⟨c₁, hfold⟩ := exists_foldlM
            (fun inner hi c => ih inner hi (Nat.le_of_succ_le_succ hn) (Module.builtin name).describe c)
            { c with resolved := name :: c.resolved, visited := .builtin name :: c.visited }
          exact ⟨_, bind_eq_ok.mpr ⟨c₁, hfold, rfl⟩⟩

/-- The builtin functions call each other at most three deep. -/
theorem resolvable_of_find? (sources : Sources) {body : String} (h : Builtin.find? name = some body) :
    ∃ n ≤ Builtin.modules.length, Resolvable sources n name := by
  have hsummary := Builtin.modules_summary
  simp only [Builtin.modules, Builtin.summary, List.map_cons, List.map_nil, List.cons.injEq, Prod.mk.injEq,
    true_and, and_true] at hsummary
  obtain ⟨⟨_, hprint⟩, ⟨_, hdigits⟩, ⟨_, hputc⟩, ⟨_, hexit⟩⟩ := hsummary
  have putc (n : Nat) : Resolvable sources (n + 1) "putc" := .builtin rfl (by simp [hputc])
  have digits (n : Nat) : Resolvable sources (n + 2) "print_digits" := by
    apply Resolvable.builtin rfl
    simpa [hdigits] using putc n
  have print : Resolvable sources 3 "print" := by
    apply Resolvable.builtin rfl
    simpa [hprint] using ⟨putc 1, digits 0⟩
  have hentry := Builtin.mem_modules h
  simp only [Builtin.modules, List.mem_cons, Prod.mk.injEq, List.not_mem_nil, or_false] at hentry
  rcases hentry with ⟨rfl, _⟩ | ⟨rfl, _⟩ | ⟨rfl, _⟩ | ⟨rfl, _⟩
  · exact ⟨3, by decide, print⟩
  · exact ⟨2, by decide, digits 0⟩
  · exact ⟨1, by decide, putc 0⟩
  · exact ⟨1, by decide, .builtin rfl (by simp [hexit])⟩

/-- All modules are builtin ones, each pulled in once. -/
structure OfBuiltins (c : Closure) : Prop where
  builtin : ∀ entry ∈ c.modules, ∃ name, entry.1 = .builtin name ∧ Builtin.find? name = some entry.2
  nodup : (c.modules.map Prod.fst).Nodup

end Closure

/-- Texts that need no library: they refer to builtin functions and to labels of units, define no label of
the builtin modules, and have no placeholders. -/
structure SelfContained (main : String) (units : List String) : Prop where
  references : ∀ text ∈ main :: units, ∀ name ∈ references text,
    (Builtin.find? name).isSome = true ∨ name ∈ units.flatMap definedLabels
  labels : ∀ text ∈ main :: units, ∀ label ∈ definedLabels text, label ∉ Builtin.labels
  brackets : ∀ text ∈ main :: units, '[' ∉ text.toList

variable {files : Files} {dirs : List String} {constants : Constants} {main : String}
  {units requested : List String} {c : Closure}

private theorem SelfContained.reachable (h : SelfContained main units) {name : String}
    (hname : (Sources.ofUnits files dirs units requested).Reachable (main :: units) name) :
    (Builtin.find? name).isSome = true ∨ name ∈ units.flatMap definedLabels := by
  induction hname with
  | direct htext hname => exact h.references _ htext _ hname
  | through _ hprovides hinner ih =>
    cases hprovides with
    | builtin hfind => exact .inl (Builtin.find?_references hfind hinner)
    | library hbuiltin hunit =>
      rcases ih with hfound | hlabel
      · simp [hbuiltin] at hfound
      · exact absurd hlabel hunit

private theorem SelfContained.exists_closure (h : SelfContained main units) (files : Files)
    (dirs requested : List String) :
    ∃ c, closureOf (.ofUnits files dirs units requested) (⟨"main unit", main⟩ :: unitSections units) =
      .ok c ∧ c.OfBuiltins := by
  have hresolvable {text name : String} (htext : text ∈ main :: units) (hname : name ∈ Link.references text) :
      ∃ n ≤ Closure.bound (.ofUnits files dirs units requested),
        Closure.Resolvable (.ofUnits files dirs units requested) n name := by
    cases hfind : Builtin.find? name with
    | some body =>
      obtain ⟨n, hn, hresolvable⟩ := Closure.resolvable_of_find? (.ofUnits files dirs units requested) hfind
      exact ⟨n, Nat.le_trans hn (Nat.le_add_right _ _), hresolvable⟩
    | none =>
      rcases h.references text htext name hname with hfound | hlabel
      · simp [hfind] at hfound
      · exact ⟨0, Nat.zero_le _, .unit hfind hlabel⟩
  have hsections : ∀ s ∈ (⟨"main unit", main⟩ :: unitSections units : List Section),
      s.text ∈ main :: units := by
    intro s hs
    have hmem := List.mem_map_of_mem (f := Section.text) hs
    rwa [List.map_cons, unitSections_text] at hmem
  have hclosure : ∃ c, closureOf (.ofUnits files dirs units requested)
      (⟨"main unit", main⟩ :: unitSections units) = .ok c := by
    apply exists_foldlM
    intro s hs c
    apply exists_foldlM
    intro name hname c
    obtain ⟨n, hn, hname⟩ := hresolvable (hsections s hs) hname
    exact hname.resolve hn s.origin c
  obtain ⟨c, hc⟩ := hclosure
  obtain ⟨hpulls, _⟩ := closureOf_units hc
  refine ⟨c, hc, ?_, hpulls.nodup⟩
  intro entry hentry
  obtain ⟨name, hname, hprovides⟩ := hpulls.needed entry hentry
  obtain ⟨m, body⟩ := entry
  cases hprovides with
  | builtin hfind => exact ⟨name, rfl, hfind⟩
  | library hbuiltin hunit =>
    rcases h.reachable (hpulls.reachable name hname) with hfound | hlabel
    · simp [hbuiltin] at hfound
    · exact absurd hlabel hunit

/-! ## Labels -/

private theorem mem_texts {s : Section} (hs : s ∈ unitSections units ++ [⟨"main unit", main⟩]) :
    s.text ∈ main :: units := by
  have htext := List.mem_map_of_mem (f := Section.text) hs
  rw [List.map_append, unitSections_text] at htext
  simpa [or_comm] using htext

namespace Closure

def supplied (c : Closure) : List Section :=
  ⟨"init stub", Builtin.entryStub⟩ :: c.modules.map fun entry => ⟨entry.1.describe, entry.2⟩

private theorem sections_eq (c : Closure) (main : String) (units : List String) :
    c.sections main units = c.supplied ++ (unitSections units ++ [⟨"main unit", main⟩]) :=
  List.append_assoc _ _ _

private theorem OfBuiltins.labels (h : c.OfBuiltins) {s : Section} (hs : s ∈ c.supplied) {label : String}
    (hlabel : label ∈ definedLabels s.text) : label ∈ Builtin.labels := by
  rcases List.mem_cons.mp hs with rfl | hs
  · exact List.mem_append_left _ hlabel
  · obtain ⟨entry, hentry, rfl⟩ := List.mem_map.mp hs
    obtain ⟨name, _, hfind⟩ := h.builtin entry hentry
    exact List.mem_append_right _ (List.mem_flatMap_of_mem (Builtin.mem_modules hfind) hlabel)

private theorem OfBuiltins.pairwise (h : c.OfBuiltins) :
    c.supplied.Pairwise fun a b => ∀ label ∈ definedLabels b.text, label ∉ definedLabels a.text := by
  rw [supplied, List.pairwise_cons, List.pairwise_map]
  constructor
  · intro s hs label hlabel
    obtain ⟨entry, hentry, rfl⟩ := List.mem_map.mp hs
    obtain ⟨name, _, hfind⟩ := h.builtin entry hentry
    exact Builtin.stub_disjoint hfind label hlabel
  · have hnodup := h.nodup
    rw [List.Nodup, List.pairwise_map] at hnodup
    apply hnodup.imp_of_mem
    intro a b ha hb hne
    obtain ⟨name, hname, hfind⟩ := h.builtin a ha
    obtain ⟨other, hother, hfind'⟩ := h.builtin b hb
    apply Builtin.definedLabels_disjoint hfind hfind'
    intro heq
    rw [hname, hother, heq] at hne
    exact hne rfl

private theorem OfBuiltins.checkLabels_sections (hc : c.OfBuiltins) (h : SelfContained main units) :
    Section.checkLabels (c.sections main units) =
      Section.checkLabels (unitSections units ++ [⟨"main unit", main⟩]) := by
  have hsupplied : Section.checkLabels c.supplied = .ok () :=
    Section.checkFrom_eq_ok (List.pairwise_map.mpr hc.pairwise)
  have hclear : ∀ s ∈ c.supplied, ∀ s' ∈ unitSections units ++ [⟨"main unit", main⟩],
      ∀ label ∈ definedLabels s'.text, label ∉ definedLabels s.text := by
    intro s hs s' hs' label hlabel hmem
    exact h.labels s'.text (mem_texts hs') label hlabel (hc.labels hs hmem)
  rw [Section.checkLabels] at hsupplied
  rw [sections_eq, Section.checkLabels, List.map_append, Section.checkFrom_append, hsupplied,
    List.nil_append, ← List.append_nil (c.supplied.map _)]
  apply Section.checkFrom_clear
  simpa only [List.forall_mem_map] using hclear

end Closure

/-! ## Placeholders -/

section

variable {cs us vs xs ys : List Char}

/-- Lines are replaced one by one, since a placeholder lies within one line. -/
theorem Substitutes.append_newline (hxs : Substitutes constants xs us) (hys : Substitutes constants ys vs) :
    Substitutes constants (xs ++ '\n' :: ys) (us ++ '\n' :: vs) := by
  rw [← substituteFrom_eq_ok] at hxs hys ⊢
  rw [substituteFrom_append_newline, hxs, hys]
  rfl

private theorem exists_substitutes (h : ∀ l ∈ Text.lines cs, ∃ us, Substitutes constants l us) :
    ∃ us, Substitutes constants cs us := by
  induction hn : cs.length using Nat.strongRecOn generalizing cs with
  | _ n ih =>
    by_cases hline : '\n' ∈ cs
    · obtain ⟨xs, ys, rfl, hxs⟩ := List.eq_append_cons_of_mem hline
      rw [Text.lines_append_newline, List.forall_mem_append] at h
      have hlength : xs.length + (ys.length + 1) = n := by simpa using hn
      obtain ⟨us, hus⟩ := ih xs.length (by omega) h.1 rfl
      obtain ⟨vs, hvs⟩ := ih ys.length (by omega) h.2 rfl
      exact ⟨_, hus.append_newline hvs⟩
    · have hself : Text.lines (cs ++ []) = [cs ++ []] := Text.lines_append hline rfl
      rw [List.append_nil] at hself
      exact h cs (by rw [hself]; exact List.mem_singleton_self cs)

private theorem Substitutes.append_left (hxs : '[' ∉ xs) (hys : Substitutes constants ys us) :
    Substitutes constants (xs ++ ys) (xs ++ us) := by
  induction xs with
  | nil => exact hys
  | cons c xs ih =>
    rw [List.mem_cons, not_or] at hxs
    exact .char (fun hopen => absurd hopen.symm hxs.1) (ih hxs.2)

end

/-- Constants for the placeholders of the builtin modules. -/
structure Constants.Suffice (constants : Constants) : Prop where
  screen : (constants.get? "SCREEN_PTR").isSome = true
  stack : (constants.get? "STACK_TOP").isSome = true

theorem Constants.standard_suffice : Constants.standard.Suffice :=
  ⟨by decide, by decide⟩

namespace Builtin

/-- A line without brackets, or with one of the two placeholders of the builtin modules at its end. -/
def Placed (line : List Char) : Prop :=
  '[' ∉ line ∨ ∃ name ∈ ["SCREEN_PTR", "STACK_TOP"],
    line = line.takeWhile (· != '[') ++ '[' :: (name.toList ++ [']'])

instance : DecidablePred Placed :=
  fun line => inferInstanceAs (Decidable ('[' ∉ line ∨ ∃ name ∈ ["SCREEN_PTR", "STACK_TOP"],
    line = line.takeWhile (· != '[') ++ '[' :: (name.toList ++ [']'])))

private theorem placed_ofLines {ls : List String} (h : ∀ l ∈ ls, ∀ line ∈ Text.lines l.toList, Placed line) :
    ∀ line ∈ Text.lines (ofLines ls).toList, Placed line := by
  intro line hline
  rw [lines_ofLines, List.mem_append, List.mem_flatMap] at hline
  rcases hline with ⟨l, hl, hline⟩ | hline
  · exact h l hl line hline
  · rw [List.mem_singleton.mp hline]
    decide

private theorem placed_entryStub : ∀ line ∈ Text.lines entryStub.toList, Placed line :=
  placed_ofLines (by decide +kernel)

private theorem placed_modules {name body : String} (h : find? name = some body) :
    ∀ line ∈ Text.lines body.toList, Placed line := by
  have hall : ∀ entry ∈ modules, ∀ line ∈ Text.lines entry.2.toList, Placed line := by
    simp only [modules, List.forall_mem_cons]
    refine ⟨placed_ofLines ?_, placed_ofLines ?_, placed_ofLines ?_, placed_ofLines ?_, by simp⟩
    all_goals decide +kernel
  exact hall _ (mem_modules h)

private theorem Placed.exists_substitutes {line : List Char} (h : Placed line) (hconstants : constants.Suffice) :
    ∃ us, Substitutes constants line us := by
  rcases h with hplain | ⟨name, hname, hline⟩
  · exact ⟨line, .self hplain⟩
  · have hvalue : ∃ value, constants.get? name = some value := by
      simp only [List.mem_cons, List.not_mem_nil, or_false] at hname
      rcases hname with rfl | rfl
      · exact Option.isSome_iff_exists.mp hconstants.screen
      · exact Option.isSome_iff_exists.mp hconstants.stack
    have hupper : ∀ name ∈ ["SCREEN_PTR", "STACK_TOP"], isPlaceholderName name.toList = true := by decide
    have hopen : '[' ∉ line.takeWhile (· != '[') := by
      intro hmem
      simpa using List.mem_takeWhile_imp hmem
    obtain ⟨value, hvalue⟩ := hvalue
    rw [hline]
    exact ⟨_, .append_left hopen (.value (hupper name hname) (by rwa [String.ofList_toList]) .nil)⟩

end Builtin

private theorem SelfContained.exists_substituted (h : SelfContained main units) (hc : c.OfBuiltins)
    (hconstants : constants.Suffice) :
    ∃ cs, substituteFrom constants 0 (Section.chars (c.sections main units)) = .ok cs := by
  have hlines : ∀ s ∈ c.sections main units, ∀ line ∈ Text.lines s.text.toList,
      ∃ us, Substitutes constants line us := by
    intro s hs line hline
    rw [Closure.sections_eq, List.mem_append, Closure.supplied, List.mem_cons] at hs
    rcases hs with (rfl | hmodule) | hunit
    · exact (Builtin.placed_entryStub line hline).exists_substitutes hconstants
    · obtain ⟨entry, hentry, rfl⟩ := List.mem_map.mp hmodule
      obtain ⟨name, _, hfind⟩ := hc.builtin entry hentry
      exact (Builtin.placed_modules hfind line hline).exists_substitutes hconstants
    · have hopen := h.brackets s.text (mem_texts hunit)
      exact ⟨line, .self fun hmem => hopen (Text.mem_of_mem_lines hline hmem)⟩
  obtain ⟨cs, hcs⟩ := exists_substitutes ((Section.forall_lines ⟨[], .nil⟩).mpr hlines)
  exact ⟨cs, substituteFrom_eq_ok.mpr hcs⟩

/-- Texts that need no library link exactly if no two of them define one label, whatever libraries there
are. -/
theorem SelfContained.link_result (h : SelfContained main units) (hconstants : constants.Suffice)
    (files : Files) (dirs requested : List String) :
    (Section.checkLabels (unitSections units ++ [⟨"main unit", main⟩]) = .ok () →
      ∃ image, link files dirs constants main units requested = .ok image) ∧
    ∀ e, Section.checkLabels (unitSections units ++ [⟨"main unit", main⟩]) = .error e →
      link files dirs constants main units requested = .error e := by
  obtain ⟨c, hclosure, hc⟩ := h.exists_closure files dirs requested
  obtain ⟨cs, hcs⟩ := h.exists_substituted hc hconstants
  rw [← hc.checkLabels_sections h]
  constructor
  · intro hlabels
    exact ⟨_, by rw [link_eq, linkChars, hclosure]; simp only [hlabels, hcs, bind, Except.bind]; rfl⟩
  · intro e hlabels
    rw [link_eq, linkChars, hclosure]
    simp only [hlabels, bind, Except.bind]

/-! ## Compiled programs -/

/-- A generated label has a number in it, and no label of the builtin modules does. -/
theorem Builtin.generated_not_mem {label : String} (h : LabelSupply.Generated label) :
    label ∉ Builtin.labels := by
  intro hmem
  obtain ⟨kind, _, number, ending, _, rfl⟩ := h
  have hall : ∀ label ∈ ["_init", "print", "_print_unsigned", "print_digits", "_print_digits_last", "putc",
      "exit"], ∀ c ∈ label.toList, c.isDigit = false := by
    simp
  rw [Builtin.labels_eq] at hmem
  obtain ⟨c, hc⟩ := List.exists_mem_of_ne_nil _ (Nat.toDigits_ne_nil (b := 10) (n := number))
  have hdigit : c.isDigit = true := Nat.isDigit_of_mem_toDigits (by decide) (by decide) hc
  have hnone := hall _ hmem c (by simp [LabelSupply.text, hc])
  rw [hdigit] at hnone
  exact Bool.noConfusion hnone

end Link

namespace CompilationUnit

open Link

variable {unit : CompilationUnit} {policy : FreePolicy} {asm : Assembly}

private theorem function_not_label (h : unit.compile policy = .ok asm) {header : Header} {body : List Stmt}
    (hitem : Item.function header body ∈ unit.items)
    (hinternal : header.name ∉ ["print_digits", "_print_digits_last", "_print_unsigned", "_init"]) :
    header.name ∉ Builtin.labels := by
  have hbuiltin (sig : Signature) (hsig : sig ∈ Signatures.builtin.entries) : header.name ≠ sig.name :=
    function_not_builtin h hitem hsig
  have hprint := hbuiltin ⟨"print", ["value"], false⟩ (by decide)
  have hputc := hbuiltin ⟨"putc", ["ch"], false⟩ (by decide)
  have hexit := hbuiltin ⟨"exit", ["code"], false⟩ (by decide)
  rw [Builtin.labels_eq]
  simp only [List.mem_cons, List.not_mem_nil, or_false, not_or] at hinternal ⊢
  exact ⟨hinternal.2.2.2, hprint, hinternal.2.2.1, hinternal.1, hinternal.2.1, hputc, hexit⟩

theorem label_not_builtin (h : unit.compile policy = .ok asm)
    (hnames : ∀ header body, Item.function header body ∈ unit.items → header.name ∉ Builtin.labels)
    {label : String} (hlabel : label ∈ asm.labels) : label ∉ Builtin.labels := by
  rcases (mem_labels h).mp hlabel with ⟨header, body, hitem, rfl⟩ | rfl | hblock
  · exact hnames header body hitem
  · rw [Builtin.labels_eq]
    decide
  · exact Builtin.generated_not_mem ((compile_blockLabels h).2 label hblock)

end CompilationUnit

/-- A program that calls no external functions but builtin ones, and that defines none of the labels inside
the builtin modules, can always be linked, whatever libraries are asked for and whatever is in them. -/
theorem compileAndLink_ok {options : Options} {source : String} {unit : CompilationUnit} {asm : Assembly}
    (hparse : CompilationUnit.parse source = .ok unit) (hcompile : unit.compile options.policy = .ok asm)
    (hexternals : ∀ name ∈ asm.externals, name ∈ ["print", "putc", "exit"])
    (hnames : ∀ header body, Item.function header body ∈ unit.items →
      header.name ∉ ["print_digits", "_print_digits_last", "_print_unsigned", "_init"])
    (hscreen : (options.constants.get? "SCREEN_PTR").isSome = true)
    (hstack : (options.constants.get? "STACK_TOP").isSome = true) (files : Files) :
    ∃ text, compileAndLink options files source [] = .ok text := by
  have hnamed : asm.Named :=
    fun line hline name hn => CompilationUnit.compile_named hcompile (CompilationUnit.parse_named hparse) hline hn
  have hself : Link.SelfContained asm.text [] := by
    constructor
    all_goals
      intro text htext
      obtain rfl := List.mem_singleton.mp htext
    · intro name hname
      have hbuiltin : ∀ name ∈ ["print", "putc", "exit"], (Link.Builtin.find? name).isSome = true := by decide
      exact .inl (hbuiltin name (hexternals name (hnamed.mem_references_text.mp hname).1))
    · intro label hlabel
      rw [hnamed.definedLabels_text] at hlabel
      apply CompilationUnit.label_not_builtin hcompile _ (List.mem_filter.mp hlabel).1
      intro header body hitem
      exact CompilationUnit.function_not_label hcompile hitem (hnames header body hitem)
    · exact hnamed.open_not_mem
  have hlabels : Link.Section.checkLabels (Link.unitSections [] ++ [⟨"main unit", asm.text⟩]) = .ok () :=
    Link.Section.checkFrom_eq_ok (List.pairwise_singleton _ _)
  obtain ⟨image, himage⟩ :=
    (hself.link_result ⟨hscreen, hstack⟩ files options.libraryDirs options.libraries).1 hlabels
  exact ⟨image.text, by simp [compileAndLink, compile, hparse, hcompile, himage, bind, Except.bind]⟩

/-- The program `print(1);`. -/
def CompilationUnit.printOne : CompilationUnit :=
  ⟨[.stmt (.simple (.expr (.call "print" [.num 1] 0)))]⟩

set_option maxRecDepth 2000 in
private theorem scan_printOne : Tokens.scan "print(1);" = ⟨[⟨.identifier, "print", 0, 5⟩,
    ⟨.lparen, "(", 5, 6⟩, ⟨.number, "1", 6, 7⟩, ⟨.rparen, ")", 7, 8⟩, ⟨.semicolon, ";", 8, 9⟩], none⟩ := by
  rfl

open Grammar in
private theorem CompilationUnit.parse_printOne : CompilationUnit.parse "print(1);" = .ok printOne := by
  rw [parse, scan_printOne]
  apply run_eq_ok
  have hone : Derives [.nonterminal .number] [⟨.number, "1", 6, 7⟩] (1, ()) :=
    .of_index 67 rfl (.token rfl .nil) rfl
  have hargs : Derives [.nonterminal .args] [⟨.number, "1", 6, 7⟩] ([.num 1], ()) :=
    .of_index 76 rfl (Derives.of_index 64 rfl hone rfl).expr_of_primary rfl
  have hname : Derives [.nonterminal .name] [⟨.identifier, "print", 0, 5⟩] (("print", 0), ()) :=
    .of_index 68 rfl (.token rfl .nil) rfl
  have hcall : Derives [.nonterminal .primary] [⟨.identifier, "print", 0, 5⟩, ⟨.lparen, "(", 5, 6⟩,
      ⟨.number, "1", 6, 7⟩, ⟨.rparen, ")", 7, 8⟩] (.call "print" [.num 1] 0, ()) :=
    .of_index 66 rfl (hname.cons (.token rfl (hargs.cons (.token rfl .nil)))) rfl
  have hsimple := Derives.of_index 36 rfl hcall.expr_of_primary rfl
  have hstmt : Derives [.nonterminal .stmt] [⟨.identifier, "print", 0, 5⟩, ⟨.lparen, "(", 5, 6⟩,
      ⟨.number, "1", 6, 7⟩, ⟨.rparen, ")", 7, 8⟩, ⟨.semicolon, ";", 8, 9⟩]
      (.simple (.expr (.call "print" [.num 1] 0)), ()) :=
    .of_index 14 rfl (hsimple.cons (.token rfl .nil)) rfl
  exact .of_index 2 rfl (.of_index 3 rfl (.of_index 7 rfl hstmt rfl) rfl) rfl

/-- A build that asks for a library which does not exist. -/
def Options.absentLibrary : Options :=
  { input := "one.toy", libraries := ["absent"] }

theorem compileAndLink_ok_printOne :
    ∃ text, compileAndLink .absentLibrary (fun _ => .missing) "print(1);" [] = .ok text := by
  have hrun : ∃ asm, CompilationUnit.printOne.compile Options.absentLibrary.policy = .ok asm ∧
      asm.externals = ["print"] :=
    exists_ok_of_any (by decide +kernel)
  obtain ⟨asm, hcompile, hexternals⟩ := hrun
  apply compileAndLink_ok CompilationUnit.parse_printOne hcompile
  · rw [hexternals]
    decide
  · intro header body hitem
    simp [CompilationUnit.printOne] at hitem
  · decide
  · decide

end WordLang
