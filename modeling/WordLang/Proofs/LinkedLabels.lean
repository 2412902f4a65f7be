import Mathlib.Data.List.TakeWhile
import WordLang.Proofs.References
import WordLang.Proofs.Substitution

/-!
# The labels of an image

A line that defines a label goes through a link as it is, apart from its comment: before the comment it has
neither brackets nor sigils. So every label that a section defines is a label of the image, and every name
that a section refers to is one of these.
-/

namespace WordLang

private theorem Text.blank_or_mem_trim {c : Char} {cs : List Char} (h : c ∈ cs) :
    Text.isBlank c = true ∨ c ∈ Text.trim cs := by
  have hdrop : ∀ ds : List Char, c ∈ ds → Text.isBlank c = true ∨ c ∈ ds.dropWhile Text.isBlank := by
    intro ds hds
    rw [← List.takeWhile_append_dropWhile (p := Text.isBlank) (l := ds), List.mem_append] at hds
    exact hds.imp_left List.mem_takeWhile_imp
  rcases hdrop cs h with hblank | hmem
  · exact .inl hblank
  · have hends := hdrop _ (List.mem_reverse.mpr hmem)
    rwa [← List.mem_reverse] at hends

namespace Link

theorem isNameChar_of_mem {c : Char} {name : List Char} (h : isLabelName name = true) (hc : c ∈ name) :
    Text.isNameChar c = true := by
  cases name with
  | nil => simp at hc
  | cons d ds =>
    rw [isLabelName, Bool.and_eq_true, List.all_eq_true] at h
    exact h.2 c hc

variable {constants : Constants} {line code tail us : List Char} {label : String}

theorem takeWhile_comment (hcode : '#' ∉ code) (htail : ∀ c ∈ tail.head?, c = '#') :
    (code ++ tail).takeWhile (· != '#') = code := by
  rw [List.takeWhile_append_of_pos]
  · cases tail with
    | nil => simp
    | cons c tail => simp [htail c rfl]
  · intro c hc
    simp only [bne_iff_ne]
    exact fun heq => hcode (heq ▸ hc)

private theorem lineLabel?_append (hcode : '#' ∉ code) (htail : ∀ c ∈ tail.head?, c = '#') :
    lineLabel? (code ++ tail) = lineLabel? code := by
  have hself : (code ++ []).takeWhile (· != '#') = code := takeWhile_comment hcode (by simp)
  rw [List.append_nil] at hself
  rw [lineLabel?, lineLabel?, takeWhile_comment hcode htail, hself]

private theorem lineLabel?_chars (hcode : '#' ∉ code) (h : lineLabel? code = some label) {c : Char}
    (hc : c ∈ code) : Text.isBlank c = true ∨ Text.isNameChar c = true ∨ c = ':' := by
  have hself : (code ++ []).takeWhile (· != '#') = code := takeWhile_comment hcode (by simp)
  rw [List.append_nil] at hself
  rw [lineLabel?, hself] at h
  split at h
  · rename_i name hname
    split at h
    · rename_i hlabel
      rcases Text.blank_or_mem_trim hc with hblank | hmem
      · exact .inl hblank
      · right
        rw [← List.mem_reverse, hname, List.mem_cons] at hmem
        rcases hmem with hcolon | hmem
        · exact .inr hcolon
        · exact .inl (isNameChar_of_mem hlabel (List.mem_reverse.mpr hmem))
    · simp at h
  · simp at h

private theorem exists_code (line : List Char) :
    ∃ code tail, line = code ++ tail ∧ '#' ∉ code ∧ ∀ c ∈ tail.head?, c = '#' := by
  by_cases h : '#' ∈ line
  · obtain ⟨code, tail, rfl, hcode⟩ := List.eq_append_cons_of_mem h
    exact ⟨code, '#' :: tail, rfl, hcode, by simp⟩
  · exact ⟨line, [], by simp, h, by simp⟩

private theorem Substitutes.lineLabel? (h : Substitutes constants line us)
    (hlabel : Link.lineLabel? line = some label) : Link.lineLabel? us = some label := by
  obtain ⟨code, tail, rfl, hcode, htail⟩ := exists_code line
  rw [lineLabel?_append hcode htail] at hlabel
  have hopen : '[' ∉ code := fun hmem => absurd (lineLabel?_chars hcode hlabel hmem) (by decide)
  obtain ⟨vs, rfl, hvs⟩ := (Substitutes.self hopen).append_inv hopen h
  have hcomment : ∀ c ∈ vs.head?, c = '#' := by
    cases tail with
    | nil => simp [hvs.nil_inv]
    | cons c tail =>
      obtain rfl := htail c rfl
      obtain ⟨ws, rfl, _⟩ := hvs.cons_inv (by decide)
      simp
  rw [lineLabel?_append hcode hcomment, hlabel]

private theorem lineLabel?_unmark (hlabel : lineLabel? line = some label) :
    lineLabel? (unmark false line) = some label := by
  obtain ⟨code, tail, rfl, hcode, htail⟩ := exists_code line
  rw [lineLabel?_append hcode htail] at hlabel
  have hplain : Unmarked code := by
    intro c hc
    refine ⟨fun heq => ?_, fun heq => hcode (heq ▸ hc)⟩
    exact absurd (lineLabel?_chars hcode hlabel (heq ▸ hc)) (by decide)
  have hcomment : ∀ c ∈ (unmark false tail).head?, c = '#' := by
    cases tail with
    | nil => simp [unmark]
    | cons c tail => simp [unmark, htail c rfl]
  rw [unmark_append hplain, lineLabel?_append hcode hcomment, hlabel]

private theorem Section.mem_definedLabels_unmark {sections : List Section} {s : Section} (hs : s ∈ sections)
    (hlabel : label ∈ definedLabels s.text) (h : Substitutes constants (Section.chars sections) us) :
    label ∈ definedLabels (String.ofList (unmark false us)) := by
  obtain ⟨line, hline, hdefines⟩ := List.mem_filterMap.mp hlabel
  have hne : line ≠ [] := by
    rintro rfl
    simp [lineLabel?, Text.trim] at hdefines
  have hjoined := (Section.lines_chars sections line hne).mpr ⟨s, hs, hline⟩
  have hlines := h.lines
  obtain ⟨i, hi, rfl⟩ := List.getElem_of_mem hjoined
  rw [List.forall₂_iff_get] at hlines
  have hi' : i < (Text.lines us).length := hlines.1 ▸ hi
  have hsub : Substitutes constants (Text.lines (Section.chars sections))[i] (Text.lines us)[i] :=
    hlines.2 i hi hi'
  rw [definedLabels, String.toList_ofList, lines_unmark, List.filterMap_map, List.mem_filterMap]
  exact ⟨_, List.getElem_mem hi', lineLabel?_unmark (hsub.lineLabel? hdefines)⟩

namespace Builtin

theorem lines_ofLines (ls : List String) :
    Text.lines (ofLines ls).toList = ls.flatMap (fun l => Text.lines l.toList) ++ [[]] := by
  induction ls with
  | nil => rfl
  | cons l ls ih =>
    have htext : (ofLines (l :: ls)).toList = l.toList ++ '\n' :: (ofLines ls).toList := by
      simp [ofLines]
    rw [htext, Text.lines_append_newline, ih, List.flatMap_cons, List.append_assoc]

theorem definedLabels_ofLines (ls : List String) : definedLabels (ofLines ls) = ls.flatMap definedLabels := by
  rw [definedLabels, lines_ofLines, List.filterMap_append, List.filterMap_flatMap]
  exact List.append_nil _

theorem references_ofLines (ls : List String) :
    references (ofLines ls) = (ls.flatMap fun l => markers false l.toList).eraseDups := by
  rw [references, markers_lines, lines_ofLines, List.flatMap_append, List.flatMap_assoc]
  have hline : (fun l : String => (Text.lines l.toList).flatMap (markers false)) =
      fun l => markers false l.toList := funext fun l => (markers_lines l.toList).symm
  rw [hline]
  simp [markers]

private theorem find?_defines {name body : String} (h : find? name = some body) : name ∈ definedLabels body := by
  have hlabel : ∀ {ls : List String} {l label : String}, l ∈ ls → label ∈ definedLabels l →
      label ∈ definedLabels (ofLines ls) := by
    intro ls l label hl hdefines
    rw [definedLabels_ofLines]
    exact List.mem_flatMap_of_mem hl hdefines
  have hall : ∀ entry ∈ modules, entry.1 ∈ definedLabels entry.2 := by
    simp only [modules, List.forall_mem_cons]
    refine ⟨hlabel (l := "print:") ?_ (by decide), hlabel (l := "print_digits:") ?_ (by decide),
      hlabel (l := "putc:") ?_ (by decide), hlabel (l := "exit:") ?_ (by decide), by simp⟩
    all_goals exact List.mem_cons_of_mem _ List.mem_cons_self
  obtain ⟨before, after, hmodules, _⟩ := List.lookup_eq_some_iff.mp h
  exact hall (name, body) (by rw [hmodules]; simp)

private theorem references_entryStub : references entryStub = [] := by
  rw [entryStub, references_ofLines]
  decide

end Builtin

section

variable {files : Files} {dirs : List String} {main : String} {units requested : List String}
  {c : Closure} {name : String}

private theorem Closure.references_sections
    (h : c.Pulls (.ofUnits files dirs units requested) (main :: units) [])
    (hroots : ∀ text ∈ main :: units, references text ⊆ c.resolved) {s : Section}
    (hs : s ∈ c.sections main units) : references s.text ⊆ c.resolved := by
  simp only [sections, List.cons_append, List.mem_cons, List.mem_append, List.mem_map, List.not_mem_nil,
    or_false] at hs
  rcases hs with rfl | (⟨entry, hentry, rfl⟩ | hunit) | rfl
  · simp [Builtin.references_entryStub]
  · exact h.closed entry hentry
  · have hmem := List.mem_map_of_mem (f := Section.text) hunit
    rw [unitSections_text] at hmem
    exact hroots s.text (List.mem_cons_of_mem main hmem)
  · exact hroots main List.mem_cons_self

/-- A name that was resolved is a label of a section, provided that libraries define what they export. -/
theorem Closure.resolved_defined
    (hlibraries : ∀ library ∈ Library.searchOrder requested, ∀ found,
      Library.load files dirs library = .ok (some found) →
        ∀ f ∈ found.functions, f.name ∈ definedLabels found.body)
    (h : c.Pulls (.ofUnits files dirs units requested) (main :: units) []) (hname : name ∈ c.resolved) :
    ∃ s ∈ c.sections main units, name ∈ definedLabels s.text := by
  obtain ⟨found, hfound, _⟩ := h.found name hname
  rcases Sources.provider_ok hfound with ⟨_, hunit⟩ | ⟨m, body, rfl, hprovides⟩
  · obtain ⟨text, htext, hdefines⟩ := List.mem_flatMap.mp hunit
    rw [← unitSections_text units] at htext
    obtain ⟨s, hs, rfl⟩ := List.mem_map.mp htext
    exact ⟨s, by simp [sections, hs], hdefines⟩
  · have hentry := (h.complete_or_pending hname hprovides).resolve_right List.not_mem_nil
    have hsection : (⟨m.describe, body⟩ : Section) ∈ c.sections main units := by
      simp only [sections, List.cons_append, List.mem_cons, List.mem_append, List.mem_map]
      exact .inr (.inl (.inl ⟨_, hentry, rfl⟩))
    refine ⟨_, hsection, ?_⟩
    cases hprovides with
    | builtin hfind => exact Builtin.find?_defines hfind
    | @library library exporter _ _ hfirst hload =>
      obtain ⟨exporter', hload', hexports⟩ := Sources.exports_eq_true.mp (List.find?_some hfirst)
      obtain rfl : exporter = exporter' := by simpa [hload] using hload'
      obtain ⟨f, hf, hfname⟩ := List.any_eq_true.mp hexports
      rw [← beq_iff_eq.mp hfname]
      exact hlibraries library (List.mem_of_find?_eq_some hfirst) exporter hload f hf

end

theorem substitute_joined {constants : Constants} {sections : List Section} {cs : List Char}
    (h : substituteFrom constants 0 (Section.chars sections) = .ok cs) :
    (substitute constants (Section.joined sections)).map stripMarkers =
      .ok (String.ofList (unmark false cs)) := by
  rw [Section.chars] at h
  simp [substitute, Section.joined, h, stripMarkers, bind, Except.bind, pure, Except.pure, Except.map]

/-- No reference of a linked image dangles: if each library defines the labels that it exports, then each
name that a section of the image refers to is a label of the final text. -/
theorem link_references_defined {files : Files} {dirs : List String} {constants : Constants} {main : String}
    {units requested : List String} {image : Image}
    (hlibraries : ∀ library ∈ Library.searchOrder requested, ∀ found,
      Library.load files dirs library = .ok (some found) →
        ∀ f ∈ found.functions, f.name ∈ definedLabels found.body)
    (h : link files dirs constants main units requested = .ok image) :
    ∃ c, closureOf (.ofUnits files dirs units requested) (⟨"main unit", main⟩ :: unitSections units) =
        .ok c ∧ image.modules = c.modules.map (fun entry => entry.1.describe) ∧
      (substitute constants (Section.joined (c.sections main units))).map stripMarkers =
        .ok image.text ∧
      ∀ s ∈ c.sections main units, ∀ name ∈ references s.text, name ∈ definedLabels image.text := by
  obtain ⟨c, cs, hclosure, _, hcs, rfl⟩ := link_ok h
  obtain ⟨hpulls, hroots⟩ := closureOf_units hclosure
  refine ⟨c, hclosure, rfl, substitute_joined hcs, ?_⟩
  intro s hs name hname
  have hresolved := Closure.references_sections hpulls hroots hs hname
  obtain ⟨provider, hprovider, hdefines⟩ := Closure.resolved_defined hlibraries hpulls hresolved
  exact Section.mem_definedLabels_unmark hprovider hdefines (substituteFrom_eq_ok.mp hcs)

private theorem cyclicLibraries_defined {library : String} {found : Library}
    (hlibrary : library ∈ Library.searchOrder ["even", "odd"])
    (hload : Library.load cyclicLibraries [""] library = .ok (some found)) {f : ExportedFunction}
    (hf : f ∈ found.functions) : f.name ∈ definedLabels found.body := by
  have hall : ∀ library ∈ Library.searchOrder ["even", "odd"],
      ((Library.load cyclicLibraries [""] library).toOption.join.all fun found =>
        decide (∀ f ∈ found.functions, f.name ∈ definedLabels found.body)) = true := by
    decide +kernel
  have hdefined := hall library hlibrary
  simp only [hload, Except.toOption, Option.join_some, Option.all_some, decide_eq_true_eq] at hdefined
  exact hdefined f hf

theorem link_references_defined_cyclic : ∃ image,
    link cyclicLibraries [""] .standard "@even @tick" ["tick: # @odd"] ["even", "odd"] = .ok image ∧
    image.modules = ["runtime/exit", "odd", "even"] ∧
    ∃ c, closureOf (.ofUnits cyclicLibraries [""] ["tick: # @odd"] ["even", "odd"])
        (⟨"main unit", "@even @tick"⟩ :: unitSections ["tick: # @odd"]) = .ok c ∧
      image.modules = c.modules.map (fun entry => entry.1.describe) ∧
      (substitute .standard (Section.joined (c.sections "@even @tick" ["tick: # @odd"]))).map stripMarkers =
        .ok image.text ∧
      ∀ s ∈ c.sections "@even @tick" ["tick: # @odd"], ∀ name ∈ references s.text,
        name ∈ definedLabels image.text := by
  obtain ⟨image, hlink, hmodules, _⟩ : ∃ image,
      link cyclicLibraries [""] .standard "@even @tick" ["tick: # @odd"] ["even", "odd"] = .ok image ∧ _ :=
    exists_link_cyclicLibraries (by simp [cyclicUses])
  refine ⟨image, hlink, hmodules, link_references_defined ?_ hlink⟩
  exact fun library hlibrary found hload f hf => cyclicLibraries_defined hlibrary hload hf

end Link

end WordLang
