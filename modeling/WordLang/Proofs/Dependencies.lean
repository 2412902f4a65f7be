import Mathlib.Data.List.Nodup
import WordLang.Link.Image
import WordLang.Proofs.References

/-!
# The modules of an image

A module is pulled into an image if it provides a name that the image depends on: one that the main unit or
another unit refers to, or one that the body of such a module refers to. Linking finds all of these modules
and no others, and each of them once, however the libraries refer to each other.
-/

namespace WordLang.Link

theorem bind_eq_ok {ε α β : Type} {x : Except ε α} {f : α → Except ε β} {b : β} :
    (x >>= f) = .ok b ↔ ∃ a, x = .ok a ∧ f a = .ok b := by
  cases x with
  | error e => simp [bind, Except.bind]
  | ok a => simp [bind, Except.bind]

theorem pure_eq_ok {ε α : Type} {a b : α} : (pure a : Except ε α) = .ok b ↔ a = b := by
  simp [pure, Except.pure]

namespace Sources

def ofUnits (files : Files) (dirs units requested : List String) : Sources where
  files := files
  dirs := dirs
  search := Library.searchOrder requested
  unitLabels := units.flatMap definedLabels

/-- Whether a library can be read and exports a name. -/
def exports (sources : Sources) (name library : String) : Bool :=
  match Library.load sources.files sources.dirs library with
  | .ok (some found) => found.provides name
  | _ => false

/-- The module that provides a name, with its body: that of a builtin function, or else, unless a unit
defines the name, the first library in search order that exports it. -/
inductive Provides (sources : Sources) (name : String) : Module → String → Prop
  | builtin {body : String} (h : Builtin.find? name = some body) :
    Provides sources name (.builtin name) body
  | library {library : String} {found : Library} (hbuiltin : Builtin.find? name = none)
    (hunit : name ∉ sources.unitLabels)
    (hfirst : sources.search.find? (sources.exports name) = some library)
    (hload : Library.load sources.files sources.dirs library = .ok (some found)) :
    Provides sources name (.library library) found.body

/-- The names that texts depend on. -/
inductive Reachable (sources : Sources) (texts : List String) : String → Prop
  | direct {text name : String} (htext : text ∈ texts) (hname : name ∈ references text) :
    Reachable sources texts name
  | through {name inner : String} {m : Module} {body : String} (h : Reachable sources texts name)
    (hprovides : sources.Provides name m body) (hinner : inner ∈ references body) :
    Reachable sources texts inner

variable {sources : Sources} {name : String} {m : Module} {body : String}

theorem exports_eq_true {library : String} :
    sources.exports name library = true ↔
      ∃ found, Library.load sources.files sources.dirs library = .ok (some found) ∧
        found.provides name = true := by
  unfold exports
  cases Library.load sources.files sources.dirs library with
  | error e => simp
  | ok found => cases found <;> simp

theorem libraryProvider_ok {libraries : List String} {found : Option Provider}
    (h : sources.libraryProvider name libraries = .ok found) :
    (libraries.find? (sources.exports name) = none ∧ found = none) ∨
      ∃ library exporter, libraries.find? (sources.exports name) = some library ∧
        Library.load sources.files sources.dirs library = .ok (some exporter) ∧
        exporter.provides name = true ∧ found = some (.module (.library library) exporter.body) := by
  induction libraries with
  | nil =>
    left
    simpa [libraryProvider, eq_comm] using h
  | cons library rest ih =>
    unfold libraryProvider at h
    cases hload : Library.load sources.files sources.dirs library with
    | error e => simp [hload] at h
    | ok loaded =>
      cases loaded with
      | none =>
        have hskip : sources.exports name library = false := by simp [exports, hload]
        rw [List.find?_cons_of_neg (by simp [hskip])]
        simp only [hload] at h
        split at h
        · exact ih h
        · simp at h
      | some exporter =>
        have hexports : sources.exports name library = exporter.provides name := by simp [exports, hload]
        by_cases hname : exporter.provides name = true
        · right
          simp only [hload, hname, if_true, Except.ok.injEq] at h
          exact ⟨library, exporter, List.find?_cons_of_pos (by rw [hexports, hname]), hload, hname, h.symm⟩
        · simp only [hload, hname] at h
          rw [List.find?_cons_of_neg (by simpa [hexports] using hname)]
          exact ih h

private theorem Provides.provider_eq {found : Option Provider} (hp : sources.Provides name m body)
    (h : sources.provider name = .ok found) : found = some (.module m body) := by
  unfold provider at h
  cases hp with
  | builtin hfind =>
    simp only [hfind, Except.ok.injEq] at h
    exact h.symm
  | @library library exporter hbuiltin hunit hfirst hload =>
    simp only [hbuiltin, List.contains_iff_mem, hunit, if_false] at h
    rcases libraryProvider_ok h with ⟨hnone, _⟩ | ⟨first, other, hfirst', hload', _, hfound⟩
    · simp [hnone] at hfirst
    · obtain rfl : library = first := Option.some.inj (hfirst.symm.trans hfirst')
      obtain rfl : exporter = other := by simpa [hload] using hload'
      exact hfound

theorem provider_ok {found : Provider} (h : sources.provider name = .ok (some found)) :
    (found = .unit ∧ name ∈ sources.unitLabels) ∨
      ∃ m body, found = .module m body ∧ sources.Provides name m body := by
  unfold provider at h
  cases hbuiltin : Builtin.find? name with
  | some body =>
    simp only [hbuiltin, Except.ok.injEq, Option.some.injEq] at h
    exact .inr ⟨_, _, h.symm, .builtin hbuiltin⟩
  | none =>
    simp only [hbuiltin] at h
    by_cases hunit : name ∈ sources.unitLabels
    · simp only [List.contains_iff_mem, hunit, if_true, Except.ok.injEq, Option.some.injEq] at h
      exact .inl ⟨h.symm, hunit⟩
    · simp only [List.contains_iff_mem, hunit, if_false] at h
      rcases libraryProvider_ok h with ⟨_, hnone⟩ | ⟨library, exporter, hfirst, hload, _, hfound⟩
      · simp at hnone
      · exact .inr ⟨_, _, Option.some.inj hfound, .library hbuiltin hunit hfirst hload⟩

theorem provides_of_provider (h : sources.provider name = .ok (some (.module m body))) :
    sources.Provides name m body := by
  rcases provider_ok h with ⟨hunit, _⟩ | ⟨_, _, heq, hprovides⟩
  · cases hunit
  · cases heq
    exact hprovides

private theorem Provides.body_eq {other body' : String} (h : sources.Provides name m body)
    (h' : sources.Provides other m body') : body = body' := by
  cases h with
  | builtin hfind =>
    cases h' with
    | builtin hfind' => exact Option.some.inj (hfind.symm.trans hfind')
  | library _ _ _ hload =>
    cases h' with
    | library _ _ _ hload' =>
      rw [hload, Except.ok.injEq, Option.some.injEq] at hload'
      rw [hload']

end Sources

namespace Closure

/-- What holds while modules are pulled in for texts. Those in `pending` wait for what they refer to. -/
structure Pulls (sources : Sources) (texts : List String) (pending : List Module) (c : Closure) :
    Prop where
  reachable : ∀ name ∈ c.resolved, sources.Reachable texts name
  found : ∀ name ∈ c.resolved, ∃ found, sources.provider name = .ok (some found) ∧
    ∀ m body, found = .module m body → m ∈ c.visited
  visited : ∀ m, m ∈ c.visited ↔ m ∈ pending ++ c.modules.map Prod.fst
  nodup : (pending ++ c.modules.map Prod.fst).Nodup
  needed : ∀ entry ∈ c.modules, ∃ name ∈ c.resolved, sources.Provides name entry.1 entry.2
  closed : ∀ entry ∈ c.modules, ∀ name ∈ references entry.2, name ∈ c.resolved

variable {sources : Sources} {texts : List String} {pending : List Module} {c c' : Closure}
  {name origin : String} {m : Module} {body : String} {depth : Nat}

/-- What resolving a name can do: nothing, note the name, or also pull in the module that provides it. -/
theorem resolve_ok (h : resolve sources depth origin c name = .ok c') :
    (name ∈ c.resolved ∧ c' = c) ∨
    (∃ found, sources.provider name = .ok (some found) ∧
      (∀ m body, found = .module m body → m ∈ c.visited) ∧
      c' = { c with resolved := name :: c.resolved }) ∨
    ∃ m body depth' c₁, sources.provider name = .ok (some (.module m body)) ∧ m ∉ c.visited ∧
      depth = depth' + 1 ∧
      (references body).foldlM (resolve sources depth' m.describe)
        { c with resolved := name :: c.resolved, visited := m :: c.visited } = .ok c₁ ∧
      c' = { c₁ with modules := c₁.modules ++ [(m, body)] } := by
  unfold resolve at h
  split at h
  · rename_i hname
    left
    exact ⟨by simpa using hname, by simpa using h.symm⟩
  · right
    cases hprovider : sources.provider name with
    | error e => simp [hprovider] at h
    | ok provider =>
      cases provider with
      | none => simp [hprovider] at h
      | some found =>
        cases found with
        | unit =>
          left
          simp only [hprovider, Except.ok.injEq] at h
          exact ⟨.unit, rfl, by simp, h.symm⟩
        | module m body =>
          simp only [hprovider] at h
          split at h
          · rename_i hvisited
            left
            simp only [Except.ok.injEq] at h
            refine ⟨.module m body, rfl, ?_, h.symm⟩
            intro m' body' heq
            obtain ⟨rfl, rfl⟩ := Provider.module.inj heq
            simpa using hvisited
          · rename_i hvisited
            right
            cases depth with
            | zero => simp at h
            | succ depth' =>
              simp only [bind_eq_ok, pure_eq_ok] at h
              obtain ⟨c₁, hfold, rfl⟩ := h
              exact ⟨m, body, depth', c₁, rfl, by simpa using hvisited, rfl, hfold, rfl⟩

theorem Pulls.note (h : Pulls sources texts pending c) {found : Provider}
    (hname : sources.Reachable texts name) (hfound : sources.provider name = .ok (some found))
    (hvisited : ∀ m body, found = .module m body → m ∈ c.visited) :
    Pulls sources texts pending { c with resolved := name :: c.resolved } where
  reachable := by
    intro other hother
    rcases List.mem_cons.mp hother with rfl | hother
    · exact hname
    · exact h.reachable other hother
  found := by
    intro other hother
    rcases List.mem_cons.mp hother with rfl | hother
    · exact ⟨found, hfound, hvisited⟩
    · exact h.found other hother
  visited := h.visited
  nodup := h.nodup
  needed := by
    intro entry hentry
    obtain ⟨other, hother, hprovides⟩ := h.needed entry hentry
    exact ⟨other, List.mem_cons_of_mem name hother, hprovides⟩
  closed := by
    intro entry hentry other hother
    exact List.mem_cons_of_mem name (h.closed entry hentry other hother)

theorem Pulls.begin (h : Pulls sources texts pending c) (hm : m ∉ c.visited) :
    Pulls sources texts (m :: pending) { c with visited := m :: c.visited } where
  reachable := h.reachable
  found := by
    intro other hother
    obtain ⟨found, hfound, hvisited⟩ := h.found other hother
    exact ⟨found, hfound, fun m' body' heq => List.mem_cons_of_mem m (hvisited m' body' heq)⟩
  visited := by
    intro m'
    simp only [List.mem_cons, List.cons_append, h.visited]
  nodup := by
    rw [List.cons_append, List.nodup_cons]
    exact ⟨fun hmem => hm ((h.visited m).mpr hmem), h.nodup⟩
  needed := h.needed
  closed := h.closed

theorem Pulls.begin_for (h : Pulls sources texts pending c) (hm : m ∉ c.visited)
    (hname : sources.Reachable texts name) (hfound : sources.provider name = .ok (some (.module m body))) :
    Pulls sources texts (m :: pending)
      { c with resolved := name :: c.resolved, visited := m :: c.visited } := by
  apply (h.begin hm).note hname hfound
  intro m' body' heq
  rw [← (Provider.module.inj heq).1]
  exact List.mem_cons_self

theorem Pulls.complete (h : Pulls sources texts (m :: pending) c) (hname : name ∈ c.resolved)
    (hprovides : sources.Provides name m body) (hbody : ∀ inner ∈ references body, inner ∈ c.resolved) :
    Pulls sources texts pending { c with modules := c.modules ++ [(m, body)] } where
  reachable := h.reachable
  found := h.found
  visited := by
    intro m'
    rw [h.visited]
    simp only [List.cons_append, List.mem_cons, List.mem_append, List.map_append, List.map_cons,
      List.map_nil, List.not_mem_nil, or_false]
    rw [or_comm, or_assoc]
  nodup := by
    rw [List.map_append, ← List.append_assoc, List.map_singleton]
    exact (List.perm_append_singleton m _).nodup_iff.mpr h.nodup
  needed := by
    intro entry hentry
    rcases List.mem_append.mp hentry with hentry | hentry
    · exact h.needed entry hentry
    · rw [List.mem_singleton.mp hentry]
      exact ⟨name, hname, hprovides⟩
  closed := by
    intro entry hentry
    rcases List.mem_append.mp hentry with hentry | hentry
    · exact h.closed entry hentry
    · rw [List.mem_singleton.mp hentry]
      exact hbody

/-- A step that resolves one name. -/
def Resolves (sources : Sources) (texts : List String) (step : Closure → String → Except LinkError Closure) :
    Prop :=
  ∀ ⦃pending c name c'⦄, Pulls sources texts pending c → sources.Reachable texts name →
    step c name = .ok c' →
    Pulls sources texts pending c' ∧ name ∈ c'.resolved ∧ c.resolved ⊆ c'.resolved

theorem Resolves.foldlM {step : Closure → String → Except LinkError Closure}
    (hstep : Resolves sources texts step) {names : List String}
    (hnames : ∀ name ∈ names, sources.Reachable texts name) (h : Pulls sources texts pending c)
    (hfold : names.foldlM step c = .ok c') :
    Pulls sources texts pending c' ∧ names ⊆ c'.resolved ∧ c.resolved ⊆ c'.resolved := by
  induction names generalizing c with
  | nil =>
    rw [List.foldlM_nil, pure_eq_ok] at hfold
    subst hfold
    exact ⟨h, List.nil_subset _, List.Subset.refl _⟩
  | cons name names ih =>
    rw [List.foldlM_cons, bind_eq_ok] at hfold
    obtain ⟨c₁, hfirst, hrest⟩ := hfold
    obtain ⟨h₁, hname, hsub⟩ := hstep h (hnames name List.mem_cons_self) hfirst
    obtain ⟨h', hall, hsub'⟩ := ih (fun other ho => hnames other (List.mem_cons_of_mem name ho)) h₁ hrest
    exact ⟨h', List.cons_subset.mpr ⟨hsub' hname, hall⟩, List.Subset.trans hsub hsub'⟩

-- Induction on the depth: the names in the body of a module are resolved at a smaller one. The module waits
-- meanwhile, so a cycle that comes back to it finds it visited.
theorem resolve_resolves (sources : Sources) (texts : List String) (depth : Nat) (origin : String) :
    Resolves sources texts (resolve sources depth origin) := by
  induction depth using Nat.strongRecOn generalizing origin with
  | _ depth ih =>
    intro pending c name c' h hname hresolve
    rcases resolve_ok hresolve with ⟨hmem, rfl⟩ | ⟨found, hfound, hvisited, rfl⟩ |
      ⟨m, body, depth', c₁, hfound, hnew, hdepth, hfold, rfl⟩
    · exact ⟨h, hmem, List.Subset.refl _⟩
    · exact ⟨h.note hname hfound hvisited, List.mem_cons_self, List.subset_cons_self _ _⟩
    · have hprovides := Sources.provides_of_provider hfound
      have hbegun := h.begin_for hnew hname hfound
      have hinner : ∀ inner ∈ references body, sources.Reachable texts inner :=
        fun inner hi => .through hname hprovides hi
      obtain ⟨h₁, hbody, hsub⟩ := (ih depth' (by omega) m.describe).foldlM hinner hbegun hfold
      have hresolved : name ∈ c₁.resolved := hsub List.mem_cons_self
      exact ⟨h₁.complete hresolved hprovides hbody, hresolved,
        fun other ho => hsub (List.mem_cons_of_mem name ho)⟩

private theorem resolveText_pulls {text : String} (htext : text ∈ texts) (h : Pulls sources texts pending c)
    (hresolve : resolveText sources c origin text = .ok c') :
    Pulls sources texts pending c' ∧ references text ⊆ c'.resolved ∧ c.resolved ⊆ c'.resolved :=
  (resolve_resolves sources texts _ origin).foldlM (fun _ hname => .direct htext hname) h hresolve

/-- A name that has been resolved is provided by a module that is complete or waits. -/
theorem Pulls.complete_or_pending (h : Pulls sources texts pending c) (hname : name ∈ c.resolved)
    (hprovides : sources.Provides name m body) : (m, body) ∈ c.modules ∨ m ∈ pending := by
  obtain ⟨found, hfound, hvisited⟩ := h.found name hname
  have hmodule := Option.some.inj (hprovides.provider_eq hfound)
  rcases List.mem_append.mp ((h.visited m).mp (hvisited m body hmodule)) with hpending | hmem
  · exact .inr hpending
  · obtain ⟨⟨m', body'⟩, hentry, rfl⟩ := List.mem_map.mp hmem
    obtain ⟨other, _, hother⟩ := h.needed _ hentry
    obtain rfl := hprovides.body_eq hother
    exact .inl hentry

/-- Once nothing is pending, all names that the texts depend on are resolved. -/
theorem Pulls.mem_resolved (h : Pulls sources texts [] c)
    (htexts : ∀ text ∈ texts, references text ⊆ c.resolved) (hname : sources.Reachable texts name) :
    name ∈ c.resolved := by
  induction hname with
  | direct htext hname => exact htexts _ htext hname
  | @through name inner m body _ hprovides hinner ih =>
    have hentry := (h.complete_or_pending ih hprovides).resolve_right List.not_mem_nil
    exact h.closed (m, body) hentry inner hinner

/-- The modules are then those that provide a name which the texts depend on. -/
theorem Pulls.mem_modules (h : Pulls sources texts [] c)
    (htexts : ∀ text ∈ texts, references text ⊆ c.resolved) :
    m ∈ c.modules.map Prod.fst ↔
      ∃ name body, sources.Reachable texts name ∧ sources.Provides name m body := by
  constructor
  · intro hm
    obtain ⟨entry, hentry, rfl⟩ := List.mem_map.mp hm
    obtain ⟨name, hname, hprovides⟩ := h.needed entry hentry
    exact ⟨name, entry.2, h.reachable name hname, hprovides⟩
  · rintro ⟨name, body, hname, hprovides⟩
    have hresolved := h.mem_resolved htexts hname
    exact List.mem_map_of_mem ((h.complete_or_pending hresolved hprovides).resolve_right List.not_mem_nil)

def sections (c : Closure) (main : String) (units : List String) : List Section :=
  ⟨"init stub", Builtin.entryStub⟩ :: c.modules.map (fun (m, body) => ⟨m.describe, body⟩) ++
    unitSections units ++ [⟨"main unit", main⟩]

end Closure

def Section.chars (sections : List Section) : List Char :=
  sections.foldl (fun text s => append text s.text.toList) []

theorem unitSections_text (units : List String) : (unitSections units).map Section.text = units := by
  unfold unitSections
  rw [List.map_map]
  exact (List.zipIdx_map_fst 0 units)

theorem closureOf_pulls {sources : Sources} {sections : List Section} {c : Closure}
    (h : closureOf sources sections = .ok c) :
    Closure.Pulls sources (sections.map Section.text) [] c ∧
      ∀ text ∈ sections.map Section.text, references text ⊆ c.resolved := by
  have hrun : ∀ (rest : List Section) (c₀ : Closure), rest ⊆ sections →
      Closure.Pulls sources (sections.map Section.text) [] c₀ →
      rest.foldlM (fun closure s => Closure.resolveText sources closure s.origin s.text) c₀ = .ok c →
      Closure.Pulls sources (sections.map Section.text) [] c ∧ c₀.resolved ⊆ c.resolved ∧
        ∀ s ∈ rest, references s.text ⊆ c.resolved := by
    intro rest
    induction rest with
    | nil =>
      intro c₀ _ hc hfold
      rw [List.foldlM_nil, pure_eq_ok] at hfold
      subst hfold
      exact ⟨hc, List.Subset.refl _, by simp⟩
    | cons s rest ih =>
      intro c₀ hsub hc hfold
      rw [List.foldlM_cons, bind_eq_ok] at hfold
      obtain ⟨c₁, hfirst, hfold⟩ := hfold
      obtain ⟨hs, hrest⟩ := List.cons_subset.mp hsub
      obtain ⟨h₁, hrefs, hgrow⟩ := Closure.resolveText_pulls (List.mem_map_of_mem hs) hc hfirst
      obtain ⟨h', hgrow', hall⟩ := ih c₁ hrest h₁ hfold
      refine ⟨h', List.Subset.trans hgrow hgrow', ?_⟩
      intro other hother
      rcases List.mem_cons.mp hother with rfl | hother
      · exact List.Subset.trans hrefs hgrow'
      · exact hall other hother
  have hstart : Closure.Pulls sources (sections.map Section.text) [] {} := by
    constructor <;> simp
  obtain ⟨hc, _, hall⟩ := hrun sections {} (List.Subset.refl _) hstart h
  refine ⟨hc, ?_⟩
  intro text htext
  obtain ⟨s, hs, rfl⟩ := List.mem_map.mp htext
  exact hall s hs

section

variable {files : Files} {dirs : List String} {constants : Constants} {main : String}
  {units requested : List String} {image : Image}

theorem closureOf_units {c : Closure}
    (h : closureOf (.ofUnits files dirs units requested) (⟨"main unit", main⟩ :: unitSections units) =
      .ok c) :
    Closure.Pulls (.ofUnits files dirs units requested) (main :: units) [] c ∧
      ∀ text ∈ main :: units, references text ⊆ c.resolved := by
  have hpulls := closureOf_pulls h
  rwa [List.map_cons, unitSections_text] at hpulls

/-- A link as far as characters go: those of the image, and the names of its modules. -/
def linkChars (files : Files) (dirs : List String) (constants : Constants) (main : String)
    (units requested : List String) : Except LinkError (List Char × List String) := do
  let c ← closureOf (.ofUnits files dirs units requested) (⟨"main unit", main⟩ :: unitSections units)
  Section.checkLabels (c.sections main units)
  let cs ← substituteFrom constants 0 (Section.chars (c.sections main units))
  return (unmark false cs, c.modules.map fun entry => entry.1.describe)

theorem link_eq (files : Files) (dirs : List String) (constants : Constants) (main : String)
    (units requested : List String) :
    link files dirs constants main units requested =
      (linkChars files dirs constants main units requested >>= fun result =>
        pure ⟨String.ofList result.1, result.2⟩) := by
  simp only [link, linkChars, substitute, stripMarkers, Section.joined, String.toList_ofList, bind_assoc,
    pure_bind, Sources.ofUnits, Closure.sections, Section.chars]

theorem exists_link {P : List Char → List String → Prop} [∀ cs modules, Decidable (P cs modules)]
    (h : ((linkChars files dirs constants main units requested).toOption.any
      fun result => decide (P result.1 result.2)) = true) :
    ∃ image, link files dirs constants main units requested = .ok image ∧
      P image.text.toList image.modules := by
  obtain ⟨result, hresult, hP⟩ := exists_ok_of_any
    (P := fun result : List Char × List String => P result.1 result.2) h
  refine ⟨⟨String.ofList result.1, result.2⟩, by rw [link_eq, hresult]; rfl, ?_⟩
  rwa [String.toList_ofList]

/-- The stages of a link. -/
theorem link_ok (h : link files dirs constants main units requested = .ok image) :
    ∃ c cs, closureOf (.ofUnits files dirs units requested) (⟨"main unit", main⟩ :: unitSections units) =
        .ok c ∧
      Section.checkLabels (c.sections main units) = .ok () ∧
      substituteFrom constants 0 (Section.chars (c.sections main units)) = .ok cs ∧
      image = ⟨String.ofList (unmark false cs), c.modules.map fun entry => entry.1.describe⟩ := by
  rw [link_eq, bind_eq_ok] at h
  obtain ⟨result, hresult, himage⟩ := h
  obtain ⟨c, hclosure, h⟩ := bind_eq_ok.mp hresult
  obtain ⟨_, hlabels, h⟩ := bind_eq_ok.mp h
  obtain ⟨cs, hcs, h⟩ := bind_eq_ok.mp h
  rw [← pure_eq_ok.mp h] at himage
  exact ⟨c, cs, hclosure, hlabels, hcs, (pure_eq_ok.mp himage).symm⟩

private theorem Module.describe_eq {m m' : Module} (h : m.describe = m'.describe) :
    m = m' ∨ (∃ name, m = .builtin name ∧ m' = .library ("runtime/" ++ name)) ∨
      ∃ name, m = .library ("runtime/" ++ name) ∧ m' = .builtin name := by
  cases m with
  | builtin name =>
    cases m' with
    | builtin name' => simpa [describe] using h
    | library name' => simpa [describe, eq_comm] using h
  | library name =>
    cases m' with
    | builtin name' => simpa [describe] using h
    | library name' => simpa [describe] using h

/-- What a link pulls in: the modules that its units depend on, each of them once. The image lists them by
their names, and a library can have the name that is listed for a builtin module; only then is an entry
repeated. -/
theorem link_modules (h : link files dirs constants main units requested = .ok image) :
    ∃ modules : List Module, image.modules = modules.map Module.describe ∧ modules.Nodup ∧
      (∀ m, m ∈ modules ↔ ∃ name body,
        (Sources.ofUnits files dirs units requested).Reachable (main :: units) name ∧
          (Sources.ofUnits files dirs units requested).Provides name m body) ∧
      (image.modules.Nodup ↔
        ∀ name, Module.builtin name ∈ modules → Module.library ("runtime/" ++ name) ∉ modules) := by
  obtain ⟨c, text, hclosure, _, _, rfl⟩ := link_ok h
  obtain ⟨hpulls, hroots⟩ := closureOf_units hclosure
  have hnodup : (c.modules.map Prod.fst).Nodup := hpulls.nodup
  have hlist : c.modules.map (fun entry => entry.1.describe) =
      (c.modules.map Prod.fst).map Module.describe := by
    rw [List.map_map]
    rfl
  refine ⟨c.modules.map Prod.fst, hlist, hnodup, fun m => hpulls.mem_modules hroots, ?_⟩
  rw [hlist, List.nodup_map_iff_inj_on hnodup]
  constructor
  · intro hinj name hbuiltin hlibrary
    exact Module.noConfusion (hinj _ hbuiltin _ hlibrary rfl)
  · intro hapart m hm m' hm' hname
    rcases Module.describe_eq hname with rfl | ⟨name, rfl, rfl⟩ | ⟨name, rfl, rfl⟩
    · rfl
    · exact absurd hm' (hapart name hm)
    · exact absurd hm (hapart name hm')

end

def textFiles (texts : List (String × String)) : Files := fun path =>
  match texts.lookup path with
  | some text => .file text.toUTF8
  | none => .missing

/-- Two libraries that refer to each other. The first refers to itself too, the second to a builtin. -/
def cyclicLibraries : Files :=
  textFiles [("even.json", "[[[\"even\"]]]"), ("even.asm", "even:\n@odd\n@even"),
    ("odd.json", "[[[\"odd\"]]]"), ("odd.asm", "odd:\n@even\n@exit")]

def cyclicUses : List (String × List String) :=
  [("@even", []), ("@even @tick", ["tick: # @odd"]), ("@even [STACK_TOP]", [])]

theorem exists_link_cyclicLibraries {main : String} {units : List String}
    (h : (main, units) ∈ cyclicUses) :
    ∃ image, link cyclicLibraries [""] .standard main units ["even", "odd"] = .ok image ∧
      image.modules = ["runtime/exit", "odd", "even"] ∧ references image.text = [] := by
  have hall : ∀ use ∈ cyclicUses,
      ((linkChars cyclicLibraries [""] .standard use.1 use.2 ["even", "odd"]).toOption.any fun result =>
        decide (result.2 = ["runtime/exit", "odd", "even"] ∧ (markers false result.1).eraseDups = [])) =
          true := by
    decide +kernel
  obtain ⟨image, hlink, hmodules, hmarkers⟩ := exists_link (P := fun cs modules =>
    modules = ["runtime/exit", "odd", "even"] ∧ (markers false cs).eraseDups = []) (hall _ h)
  exact ⟨image, hlink, hmodules, hmarkers⟩

theorem link_modules_cyclic : ∃ image,
    link cyclicLibraries [""] .standard "@even" [] ["even", "odd"] = .ok image ∧
    image.modules = ["runtime/exit", "odd", "even"] ∧
    ∃ modules : List Module, image.modules = modules.map Module.describe ∧ modules.Nodup ∧
      (∀ m, m ∈ modules ↔ ∃ name body,
        (Sources.ofUnits cyclicLibraries [""] [] ["even", "odd"]).Reachable ["@even"] name ∧
          (Sources.ofUnits cyclicLibraries [""] [] ["even", "odd"]).Provides name m body) ∧
      (image.modules.Nodup ↔
        ∀ name, Module.builtin name ∈ modules → Module.library ("runtime/" ++ name) ∉ modules) := by
  obtain ⟨image, hlink, hmodules, _⟩ : ∃ image,
      link cyclicLibraries [""] .standard "@even" [] ["even", "odd"] = .ok image ∧ _ :=
    exists_link_cyclicLibraries (by simp [cyclicUses])
  exact ⟨image, hlink, hmodules, link_modules hlink⟩

/-- A library can be listed under the name of a builtin module, so the list of an image can repeat a name. -/
theorem link_modules_not_nodup : ∃ image,
    link (textFiles [("runtime/exit.json", "[[[\"f\"]]]"), ("runtime/exit.asm", "f:\n")]) [""] .standard
      "@exit @f" [] ["runtime/exit"] = .ok image ∧ ¬ image.modules.Nodup :=
  exists_link (P := fun _ modules => ¬ modules.Nodup) (by decide +kernel)

end WordLang.Link
