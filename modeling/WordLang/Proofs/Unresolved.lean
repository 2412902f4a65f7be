import Mathlib.Data.List.Perm.Subperm
import WordLang.Proofs.BuiltinLinks

/-!
# Unresolved symbols

Where all libraries can be read, linking fails to resolve a symbol exactly if the program depends on a name
that nothing defines. The name that the error reports is one of these, and the section that the error points
at does refer to it.
-/

namespace WordLang.Link

theorem bind_eq_error {ε α β : Type} {x : Except ε α} {f : α → Except ε β} {e : ε} :
    (x >>= f) = .error e ↔ x = .error e ∨ ∃ a, x = .ok a ∧ f a = .error e := by
  cases x with
  | error e => simp [bind, Except.bind]
  | ok a => simp [bind, Except.bind]

private theorem foldlM_eq_error {ε α β : Type} {step : β → α → Except ε β} {xs : List α} {b : β} {e : ε}
    (h : xs.foldlM step b = .error e) :
    ∃ before x after b', xs = before ++ x :: after ∧ before.foldlM step b = .ok b' ∧
      step b' x = .error e := by
  induction xs generalizing b with
  | nil => simp [pure, Except.pure] at h
  | cons x xs ih =>
    rw [List.foldlM_cons, bind_eq_error] at h
    rcases h with hfirst | ⟨b₁, hfirst, hrest⟩
    · exact ⟨[], x, xs, b, rfl, rfl, hfirst⟩
    · rcases ih hrest with ⟨before, y, after, b', rfl, hbefore, hy⟩
      exact ⟨x :: before, y, after, b', rfl, by rw [List.foldlM_cons, hfirst]; exact hbefore, hy⟩

private theorem infix_of_mem_markers {comment : Bool} {cs : List Char} {name : String}
    (h : name ∈ markers comment cs) : ('@' :: name.toList) <:+: cs := by
  induction cs generalizing comment with
  | nil => simp [markers] at h
  | cons c cs ih =>
    unfold markers at h
    split at h
    · exact (ih h).trans (List.suffix_cons c cs).isInfix
    · split at h
      · exact (ih h).trans (List.suffix_cons c cs).isInfix
      · split at h
        · rename_i hmarker
          rcases List.mem_cons.mp h with rfl | h
          · rw [hmarker.1, String.toList_ofList]
            apply List.IsPrefix.isInfix
            exact (List.prefix_cons_inj _).mpr (List.takeWhile_prefix _)
          · exact (ih h).trans (List.suffix_cons c cs).isInfix
        · exact (ih h).trans (List.suffix_cons c cs).isInfix

namespace Sources

/-- All libraries can be read, but for the standard one, which may be absent. -/
def Readable (sources : Sources) : Prop :=
  ∀ library ∈ sources.search,
    (∃ found, Library.load sources.files sources.dirs library = .ok (some found)) ∨
      library = Library.standard ∧ Library.load sources.files sources.dirs library = .ok none

/-- Nothing defines a name: no builtin module, no unit, and no library of the search. -/
structure Undefined (sources : Sources) (name : String) : Prop where
  builtin : Builtin.find? name = none
  unit : name ∉ sources.unitLabels
  library : ∀ library ∈ sources.search, ∀ found,
    Library.load sources.files sources.dirs library = .ok (some found) → found.provides name = false

/-- The sections whose references count, as messages call them: the main unit, the others by their position,
and the modules that provide names which these depend on. -/
inductive Involves (sources : Sources) (main : String) (units : List String) : Section → Prop
  | main : Involves sources main units ⟨"main unit", main⟩
  | unit {i : Nat} {text : String} (h : units[i]? = some text) :
    Involves sources main units ⟨"unit " ++ toString i, text⟩
  | module {name : String} {m : Module} {body : String} (hname : sources.Reachable (main :: units) name)
    (hprovides : sources.Provides name m body) : Involves sources main units ⟨m.describe, body⟩

/-- An error that reports a name which nothing defines, and a section that refers to it. -/
def Reports (sources : Sources) (main : String) (units : List String) (e : LinkError) : Prop :=
  ∃ name s, e = .unresolvedSymbol name s.origin ∧ sources.Undefined name ∧
    sources.Involves main units s ∧ name ∈ references s.text

def candidates (sources : Sources) : List Module :=
  Builtin.modules.map (fun entry => .builtin entry.1) ++ sources.search.map .library

variable {sources : Sources} {main : String} {units : List String} {name : String} {m : Module}
  {body : String}

private theorem length_candidates (sources : Sources) : sources.candidates.length = Closure.bound sources := by
  simp [candidates, Closure.bound]

private theorem Provides.mem_candidates (h : sources.Provides name m body) : m ∈ sources.candidates := by
  apply List.mem_append.mpr
  cases h with
  | builtin hfind => exact .inl (List.mem_map_of_mem (Builtin.mem_modules hfind))
  | library _ _ hfirst _ => exact .inr (List.mem_map_of_mem (List.mem_of_find?_eq_some hfirst))

private theorem Involves.reachable {s : Section} (h : sources.Involves main units s)
    (hname : name ∈ references s.text) : sources.Reachable (main :: units) name := by
  cases h with
  | main => exact .direct List.mem_cons_self hname
  | unit hunit => exact .direct (List.mem_cons_of_mem main (List.mem_of_getElem? hunit)) hname
  | module hreach hprovides => exact .through hreach hprovides hname

private theorem involves_of_mem {s : Section} (h : s ∈ ⟨"main unit", main⟩ :: unitSections units) :
    sources.Involves main units s := by
  rcases List.mem_cons.mp h with rfl | h
  · exact .main
  · rcases List.mem_map.mp h with ⟨⟨text, i⟩, hentry, rfl⟩
    exact .unit (List.mk_mem_zipIdx_iff_getElem?.mp hentry)

private theorem Reachable.mono {texts texts' : List String} (h : sources.Reachable texts name)
    (hsub : texts ⊆ texts') : sources.Reachable texts' name := by
  induction h with
  | direct htext hname => exact .direct (hsub htext) hname
  | through _ hprovides hinner ih => exact .through ih hprovides hinner

private theorem Readable.libraryProvider (h : sources.Readable) (name : String) {libraries : List String}
    (hsub : libraries ⊆ sources.search) : ∃ found, sources.libraryProvider name libraries = .ok found := by
  induction libraries with
  | nil => exact ⟨none, rfl⟩
  | cons library rest ih =>
    have hrest := ih fun other hother => hsub (List.mem_cons_of_mem library hother)
    unfold Sources.libraryProvider
    rcases h library (hsub List.mem_cons_self) with ⟨found, hload⟩ | ⟨hstandard, hload⟩
    · rw [hload]
      show ∃ result, (if found.provides name then _ else _) = Except.ok result
      split
      · exact ⟨_, rfl⟩
      · exact hrest
    · rw [hload]
      show ∃ result, (if library = Library.standard then _ else _) = Except.ok result
      rw [if_pos hstandard]
      exact hrest

/-- What resolving a name finds where all libraries can be read: nothing, exactly if nothing defines it. -/
theorem Readable.provider (h : sources.Readable) (name : String) :
    ∃ found, sources.provider name = .ok found ∧ (found = none ↔ sources.Undefined name) := by
  unfold Sources.provider
  cases hbuiltin : Builtin.find? name with
  | some body =>
    apply Exists.intro _
    apply And.intro rfl
    constructor
    · intro hnone
      cases hnone
    · intro hundefined
      rw [hundefined.builtin] at hbuiltin
      cases hbuiltin
  | none =>
    by_cases hunit : name ∈ sources.unitLabels
    · apply Exists.intro (some Provider.unit)
      apply And.intro
      · simp [hunit]
      · constructor
        · intro hnone
          cases hnone
        · intro hundefined
          exact absurd hunit hundefined.unit
    · rcases h.libraryProvider name (List.Subset.refl _) with ⟨found, hfound⟩
      apply Exists.intro found
      apply And.intro
      · simpa [hunit] using hfound
      · rcases libraryProvider_ok hfound with ⟨hnone, rfl⟩ | ⟨library, exporter, hfirst, hload, hname, rfl⟩
        · apply iff_of_true rfl
          apply Undefined.mk hbuiltin hunit
          intro library hlibrary exporter hload
          have hskip := List.find?_eq_none.mp hnone library hlibrary
          rw [exports_eq_true] at hskip
          by_contra hname
          exact hskip ⟨exporter, hload, by simpa using hname⟩
        · constructor
          · intro hnone
            cases hnone
          · intro hundefined
            have hmem := List.mem_of_find?_eq_some hfirst
            rw [hundefined.library library hmem exporter hload] at hname
            cases hname

end Sources

namespace Closure

variable {sources : Sources} {main : String} {units : List String} {pending : List Module} {c : Closure}
  {name : String} {s : Section} {m : Module} {body : String} {depth : Nat} {e : LinkError}

private theorem Pulls.mono {texts texts' : List String} (h : Pulls sources texts pending c)
    (hsub : texts ⊆ texts') : Pulls sources texts' pending c :=
  { h with reachable := fun name hname => (h.reachable name hname).mono hsub }

/-- Modules that wait for each other are distinct, so there are at most as many as can be pulled in. -/
theorem Pulls.length_pending_lt {texts : List String} (h : Pulls sources texts pending c)
    (hpending : pending ⊆ sources.candidates) (hm : m ∉ c.visited) (hcandidate : m ∈ sources.candidates) :
    pending.length < bound sources := by
  have hnodup : (m :: pending).Nodup := (List.nodup_append.mp (h.begin hm).nodup).1
  have hsub : m :: pending ⊆ sources.candidates := List.cons_subset.mpr ⟨hcandidate, hpending⟩
  have hlength := (hnodup.subperm hsub).length_le
  rw [Sources.length_candidates, List.length_cons] at hlength
  exact hlength

/-- What resolving a name can fail at: the name itself, or a name in the body of the module that is pulled in
for it. -/
theorem resolve_error {origin : String} (h : resolve sources depth origin c name = .error e) :
    sources.provider name = .error e ∨
    (sources.provider name = .ok none ∧ e = .unresolvedSymbol name origin) ∨
    ∃ m body, sources.provider name = .ok (some (.module m body)) ∧ m ∉ c.visited ∧
      (depth = 0 ∨ ∃ depth', depth = depth' + 1 ∧
        (references body).foldlM (resolve sources depth' m.describe)
          { c with resolved := name :: c.resolved, visited := m :: c.visited } = .error e) := by
  unfold resolve at h
  split at h
  · cases h
  · cases hprovider : sources.provider name with
    | error e' =>
      left
      simpa [hprovider] using h
    | ok provider =>
      right
      cases provider with
      | none =>
        left
        simpa [hprovider, eq_comm] using h
      | some found =>
        right
        cases found with
        | unit => simp [hprovider] at h
        | module m body =>
          simp only [hprovider] at h
          split at h
          · cases h
          · rename_i hvisited
            refine ⟨m, body, rfl, by simpa using hvisited, ?_⟩
            cases depth with
            | zero => exact .inl rfl
            | succ depth' =>
              rcases bind_eq_error.mp h with hfold | ⟨c₁, _, hdone⟩
              · exact .inr ⟨depth', rfl, hfold⟩
              · cases hdone

-- Induction on the depth. The modules that wait above a name make up for what is missing of the bound, so the
-- depth is never exhausted: a new module would then be one more than there are.
private theorem resolve_reports (hread : sources.Readable) (hpulls : Pulls sources (main :: units) pending c)
    (hpending : pending ⊆ sources.candidates) (hdepth : bound sources ≤ depth + pending.length)
    (hs : sources.Involves main units s) (hname : name ∈ references s.text)
    (h : resolve sources depth s.origin c name = .error e) : sources.Reports main units e := by
  induction depth using Nat.strongRecOn generalizing pending c s name with
  | _ depth ih =>
    rcases hread.provider name with ⟨found, hfound, hundefined⟩
    rcases resolve_error h with herror | ⟨hnone, rfl⟩ | ⟨m, body, hmodule, hnew, hinside⟩
    · rw [hfound] at herror
      cases herror
    · rw [hfound, Except.ok.injEq] at hnone
      exact ⟨name, s, rfl, hundefined.mp hnone, hs, hname⟩
    · have hprovides := Sources.provides_of_provider hmodule
      have hlt := hpulls.length_pending_lt hpending hnew hprovides.mem_candidates
      rcases hinside with hzero | ⟨depth', rfl, hfold⟩
      · omega
      · have hreach := hs.reachable hname
        have hbody : sources.Involves main units ⟨m.describe, body⟩ := .module hreach hprovides
        have hbegun := hpulls.begin_for hnew hreach hmodule
        rcases foldlM_eq_error hfold with ⟨before, inner, after, c₁, hsplit, hbefore, hinner⟩
        have hnames : ∀ other ∈ before, sources.Reachable (main :: units) other := by
          intro other hother
          apply hbody.reachable
          rw [hsplit]
          exact List.mem_append_left _ hother
        have hpulls₁ := ((resolve_resolves sources _ depth' m.describe).foldlM hnames hbegun hbefore).1
        apply ih depth' (Nat.lt_succ_self _) hpulls₁ _ _ hbody _ hinner
        · exact List.cons_subset.mpr ⟨hprovides.mem_candidates, hpending⟩
        · rw [List.length_cons]
          omega
        · rw [hsplit]
          exact List.mem_append_right _ List.mem_cons_self

end Closure

private theorem closureOf_reports {sources : Sources} {main : String} {units : List String} {e : LinkError}
    (hread : sources.Readable)
    (h : closureOf sources (⟨"main unit", main⟩ :: unitSections units) = .error e) :
    sources.Reports main units e := by
  rcases foldlM_eq_error h with ⟨before, s, after, c, hsplit, hbefore, hs⟩
  have htexts : before.map Section.text ⊆ main :: units := by
    have hall := congrArg (List.map Section.text) hsplit
    rw [List.map_cons, unitSections_text, List.map_append] at hall
    rw [hall]
    exact List.subset_append_left _ _
  have hpulls := (closureOf_pulls hbefore).1.mono htexts
  have hinvolved : sources.Involves main units s := by
    apply Sources.involves_of_mem
    rw [hsplit]
    exact List.mem_append_right _ List.mem_cons_self
  rcases foldlM_eq_error hs with ⟨names, name, rest, c₁, hreferences, hnames, hname⟩
  have hmem : ∀ other ∈ names ++ [name], other ∈ references s.text := by
    intro other hother
    rw [hreferences, List.append_cons]
    exact List.mem_append_left _ hother
  have hpulls₁ := ((Closure.resolve_resolves sources _ _ s.origin).foldlM
    (fun other hother => hinvolved.reachable (hmem other (List.mem_append_left _ hother))) hpulls hnames).1
  apply Closure.resolve_reports hread hpulls₁ (List.nil_subset _) (Nat.le_refl _) hinvolved _ hname
  exact hmem name (List.mem_append_right _ (List.mem_singleton_self name))

private theorem Section.checkFrom_error {earlier rest : List (String × List String)} {e : LinkError}
    (h : checkFrom earlier rest = .error e) :
    ∃ label first second, e = .duplicateLabel label first second := by
  induction rest generalizing earlier with
  | nil => cases h
  | cons entry rest ih =>
    unfold checkFrom at h
    split at h
    · cases h
      exact ⟨_, _, _, rfl⟩
    · exact ih h

private theorem substituteFrom_error {constants : Constants} {cs : List Char} {e : LinkError}
    (h : substituteFrom constants 0 cs = .error e) : ∃ name, e = .unresolvedPlaceholder name := by
  induction cs using read_induction with
  | nil => cases h
  | placeholder name cs hname ih =>
    cases hvalue : constants.get? (String.ofList name) with
    | none =>
      rw [substituteFrom_unknown hname hvalue] at h
      cases h
      exact ⟨_, rfl⟩
    | some value =>
      rw [substituteFrom_value hname hvalue] at h
      rcases bind_eq_error.mp h with hrest | ⟨_, _, hdone⟩
      · exact ih hrest
      · cases hdone
  | char c cs hplain ih =>
    rw [substituteFrom_char hplain] at h
    rcases bind_eq_error.mp h with hrest | ⟨_, _, hdone⟩
    · exact ih hrest
    · cases hdone

section

variable {files : Files} {dirs : List String} {constants : Constants} {main : String}
  {units requested : List String}

private theorem link_eq_unresolved {name origin : String} :
    link files dirs constants main units requested = .error (.unresolvedSymbol name origin) ↔
      closureOf (.ofUnits files dirs units requested) (⟨"main unit", main⟩ :: unitSections units) =
        .error (.unresolvedSymbol name origin) := by
  rw [link_eq, linkChars]
  constructor
  · intro h
    rcases bind_eq_error.mp h with h | ⟨_, _, hdone⟩
    · rcases bind_eq_error.mp h with hclosure | ⟨c, _, h⟩
      · exact hclosure
      · rcases bind_eq_error.mp h with hlabels | ⟨_, _, h⟩
        · rcases Section.checkFrom_error hlabels with ⟨_, _, _, heq⟩
          cases heq
        · rcases bind_eq_error.mp h with hcs | ⟨_, _, hdone⟩
          · rcases substituteFrom_error hcs with ⟨_, heq⟩
            cases heq
          · cases hdone
    · cases hdone
  · intro hclosure
    rw [hclosure]
    rfl

/-- A link reports an unresolved symbol exactly if its units depend on a name that nothing defines. The report
names such a name, and a section that refers to it with a marker. -/
theorem link_unresolved_iff (hread : (Sources.ofUnits files dirs units requested).Readable) :
    ((∃ name origin, link files dirs constants main units requested =
        .error (.unresolvedSymbol name origin)) ↔
      ∃ name, (Sources.ofUnits files dirs units requested).Reachable (main :: units) name ∧
        (Sources.ofUnits files dirs units requested).Undefined name) ∧
    ∀ name origin, link files dirs constants main units requested =
        .error (.unresolvedSymbol name origin) →
      (Sources.ofUnits files dirs units requested).Reachable (main :: units) name ∧
      (Sources.ofUnits files dirs units requested).Undefined name ∧
      ∃ s, (Sources.ofUnits files dirs units requested).Involves main units s ∧ s.origin = origin ∧
        name ∈ references s.text ∧ ('@' :: name.toList) <:+: s.text.toList := by
  have hreport : ∀ name origin, link files dirs constants main units requested =
        .error (.unresolvedSymbol name origin) →
      (Sources.ofUnits files dirs units requested).Reachable (main :: units) name ∧
      (Sources.ofUnits files dirs units requested).Undefined name ∧
      ∃ s, (Sources.ofUnits files dirs units requested).Involves main units s ∧ s.origin = origin ∧
        name ∈ references s.text ∧ ('@' :: name.toList) <:+: s.text.toList := by
    intro name origin hlink
    rcases closureOf_reports hread (link_eq_unresolved.mp hlink) with
      ⟨name', s, heq, hundefined, hs, hname⟩
    cases heq
    have hmarker := infix_of_mem_markers (List.mem_eraseDups.mp hname)
    exact ⟨hs.reachable hname, hundefined, s, hs, rfl, hname, hmarker⟩
  refine ⟨⟨?_, ?_⟩, hreport⟩
  · intro h
    rcases h with ⟨name, origin, hlink⟩
    exact ⟨name, (hreport name origin hlink).1, (hreport name origin hlink).2.1⟩
  · intro h
    rcases h with ⟨name, hreach, hundefined⟩
    cases hclosure : closureOf (.ofUnits files dirs units requested)
        (⟨"main unit", main⟩ :: unitSections units) with
    | error e =>
      rcases closureOf_reports hread hclosure with ⟨name', s, rfl, _⟩
      exact ⟨name', s.origin, link_eq_unresolved.mpr hclosure⟩
    | ok c =>
      have hpulls := closureOf_units hclosure
      rcases hpulls.1.found name (hpulls.1.mem_resolved hpulls.2 hreach) with ⟨found, hfound, _⟩
      rcases hread.provider name with ⟨found', hfound', hnone⟩
      rw [hfound, Except.ok.injEq] at hfound'
      rw [hnone.mpr hundefined] at hfound'
      cases hfound'

end

/-- A library whose body refers to a name that nothing defines. -/
def danglingLibrary : Files :=
  textFiles [("even.json", "[[[\"even\"]]]"), ("even.asm", "even:\n@odd")]

theorem link_unresolved_iff_dangling :
    (Sources.ofUnits danglingLibrary [""] ["tick:\n@even"] ["even"]).Readable ∧
    link danglingLibrary [""] .standard "@tick" ["tick:\n@even"] ["even"] =
      .error (.unresolvedSymbol "odd" "even") ∧
    (Sources.ofUnits danglingLibrary [""] ["tick:\n@even"] ["even"]).Reachable ["@tick", "tick:\n@even"]
      "odd" ∧
    (Sources.ofUnits danglingLibrary [""] ["tick:\n@even"] ["even"]).Undefined "odd" ∧
    ∃ s, (Sources.ofUnits danglingLibrary [""] ["tick:\n@even"] ["even"]).Involves "@tick" ["tick:\n@even"]
        s ∧ s.origin = "even" ∧ "odd" ∈ references s.text ∧ ['@', 'o', 'd', 'd'] <:+: s.text.toList := by
  have hread : (Sources.ofUnits danglingLibrary [""] ["tick:\n@even"] ["even"]).Readable := by
    have heven : ∃ found, Library.load danglingLibrary [""] "even" = .ok found ∧ found.isSome = true :=
      exists_ok_of_any (by decide +kernel)
    have habsent : ∃ found, Library.load danglingLibrary [""] "stdlib" = .ok found ∧ found.isNone = true :=
      exists_ok_of_any (by decide +kernel)
    intro library hlibrary
    have hcases : library = "stdlib" ∨ library = "even" := by
      simpa [Sources.ofUnits, Library.searchOrder, Library.standard, List.eraseDups_cons] using hlibrary
    rcases hcases with rfl | rfl
    · right
      rcases habsent with ⟨found, hload, hnone⟩
      rw [Option.isNone_iff_eq_none.mp hnone] at hload
      exact ⟨rfl, hload⟩
    · left
      rcases heven with ⟨found, hload, hsome⟩
      rcases Option.isSome_iff_exists.mp hsome with ⟨loaded, rfl⟩
      exact ⟨loaded, hload⟩
  have hfails : linkChars danglingLibrary [""] .standard "@tick" ["tick:\n@even"] ["even"] =
      .error (.unresolvedSymbol "odd" "even") := by
    decide +kernel
  have hlink : link danglingLibrary [""] .standard "@tick" ["tick:\n@even"] ["even"] =
      .error (.unresolvedSymbol "odd" "even") := by
    rw [link_eq, hfails]
    rfl
  exact ⟨hread, hlink, (link_unresolved_iff hread).2 "odd" "even" hlink⟩

end WordLang.Link
