import WordLang.Proofs.Dependencies

/-!
# Links with added libraries

The search for a name ends at the first library that exports it, and libraries behind that one are not read.
So a link that succeeds is the same when further libraries are asked for at the end, whatever these are: each
name is found where it was found before, and by the same way through the modules.
-/

namespace WordLang

private theorem Library.searchOrder_append {requested added : List String}
    (h : standard ∉ added ∨ standard ∈ requested) :
    searchOrder requested <+: searchOrder (requested ++ added) := by
  have hfirst (libraries : List String) : libraries.eraseDups <+: (libraries ++ added).eraseDups := by
    rw [List.eraseDups_append]
    exact List.prefix_append _ _
  unfold searchOrder
  by_cases hplaced : standard ∈ requested
  · have hstill : standard ∈ requested ++ added := List.mem_append_left added hplaced
    rw [if_pos (List.contains_iff_mem.mpr hplaced), if_pos (List.contains_iff_mem.mpr hstill)]
    exact hfirst requested
  · have hstill : standard ∉ requested ++ added := by
      simpa [hplaced] using h.resolve_right hplaced
    rw [if_neg (by simpa using hplaced), if_neg (by simpa using hstill), ← List.cons_append]
    exact hfirst (standard :: requested)

namespace Link

private theorem foldlM_ok_of_step {ε α β : Type} {step step' : β → α → Except ε β} {xs : List α} {b b' : β}
    (hstep : ∀ x b b', step b x = .ok b' → step' b x = .ok b') (h : xs.foldlM step b = .ok b') :
    xs.foldlM step' b = .ok b' := by
  induction xs generalizing b with
  | nil => exact h
  | cons x xs ih =>
    rw [List.foldlM_cons, bind_eq_ok] at h ⊢
    obtain ⟨b₁, hfirst, hrest⟩ := h
    exact ⟨b₁, hstep x b b₁ hfirst, ih hrest⟩

namespace Sources

/-- The same files and units, and the same libraries with others behind them. -/
structure Extends (sources sources' : Sources) : Prop where
  files : sources'.files = sources.files
  dirs : sources'.dirs = sources.dirs
  unitLabels : sources'.unitLabels = sources.unitLabels
  search : sources.search <+: sources'.search

variable {sources sources' : Sources} {name : String} {found : Provider}

private theorem extends_ofUnits (files : Files) (dirs units : List String) {requested added : List String}
    (h : Library.standard ∉ added ∨ Library.standard ∈ requested) :
    (ofUnits files dirs units requested).Extends (ofUnits files dirs units (requested ++ added)) :=
  ⟨rfl, rfl, rfl, Library.searchOrder_append h⟩

private theorem Extends.libraryProvider (h : sources.Extends sources') {libraries : List String} (rest : List String)
    (hfound : sources.libraryProvider name libraries = .ok (some found)) :
    sources'.libraryProvider name (libraries ++ rest) = .ok (some found) := by
  induction libraries with
  | nil => simp [Sources.libraryProvider] at hfound
  | cons library libraries ih =>
    rw [List.cons_append]
    unfold Sources.libraryProvider at hfound ⊢
    rw [h.files, h.dirs]
    cases hload : Library.load sources.files sources.dirs library with
    | error e => simp [hload] at hfound
    | ok loaded =>
      cases loaded with
      | none =>
        by_cases hstandard : library = Library.standard
        · simp only [hload, if_pos hstandard] at hfound ⊢
          exact ih hfound
        · simp [hload, hstandard] at hfound
      | some exporter =>
        by_cases hname : exporter.provides name = true
        · simp only [hload, hname, if_true] at hfound ⊢
          exact hfound
        · simp only [hload, hname] at hfound ⊢
          exact ih hfound

private theorem Extends.provider (h : sources.Extends sources') (hfound : sources.provider name = .ok (some found)) :
    sources'.provider name = .ok (some found) := by
  unfold Sources.provider at hfound ⊢
  rw [h.unitLabels]
  cases hbuiltin : Builtin.find? name with
  | some body =>
    rw [hbuiltin] at hfound
    exact hfound
  | none =>
    rw [hbuiltin] at hfound
    obtain ⟨rest, hsearch⟩ := h.search
    by_cases hunit : name ∈ sources.unitLabels
    · simpa [hunit] using hfound
    · simp only [List.contains_iff_mem, hunit, if_false, ← hsearch] at hfound ⊢
      exact h.libraryProvider rest hfound

end Sources

namespace Closure

variable {sources sources' : Sources} {c c' c₁ : Closure} {name origin : String} {m : Module} {body : String}
  {depth depth' : Nat}

private theorem resolve_of_mem (hname : name ∈ c.resolved) : resolve sources depth origin c name = .ok c := by
  unfold resolve
  rw [if_pos (List.contains_iff_mem.mpr hname)]

private theorem resolve_note {found : Provider} (hname : name ∉ c.resolved)
    (hfound : sources.provider name = .ok (some found))
    (hvisited : ∀ m body, found = .module m body → m ∈ c.visited) :
    resolve sources depth origin c name = .ok { c with resolved := name :: c.resolved } := by
  unfold resolve
  rw [if_neg (by simpa using hname)]
  cases found with
  | unit => simp [hfound]
  | module m body => simp [hfound, hvisited m body rfl]

private theorem resolve_pull (hname : name ∉ c.resolved)
    (hfound : sources.provider name = .ok (some (.module m body))) (hm : m ∉ c.visited)
    (hfold : (references body).foldlM (resolve sources depth m.describe)
      { c with resolved := name :: c.resolved, visited := m :: c.visited } = .ok c₁) :
    resolve sources (depth + 1) origin c name =
      .ok { c₁ with modules := c₁.modules ++ [(m, body)] } := by
  unfold resolve
  rw [if_neg (by simpa using hname)]
  simp only [hfound, List.contains_iff_mem, hm, if_false]
  exact bind_eq_ok.mpr ⟨c₁, hfold, rfl⟩

private theorem resolve_extends (h : sources.Extends sources') (hdepth : depth ≤ depth')
    (hresolve : resolve sources depth origin c name = .ok c') :
    resolve sources' depth' origin c name = .ok c' := by
  induction depth using Nat.strongRecOn generalizing depth' c c' name origin with
  | _ depth ih =>
    by_cases hname : name ∈ c.resolved
    · rw [resolve_of_mem hname] at hresolve ⊢
      exact hresolve
    · rcases resolve_ok hresolve with ⟨hmem, _⟩ | ⟨found, hfound, hvisited, rfl⟩ |
        ⟨m, body, inner, c₁, hfound, hnew, rfl, hfold, rfl⟩
      · exact absurd hmem hname
      · exact resolve_note hname (h.provider hfound) hvisited
      · obtain ⟨inner', rfl⟩ : ∃ inner', depth' = inner' + 1 := Nat.exists_eq_add_one.mpr (by omega)
        apply resolve_pull hname (h.provider hfound) hnew
        apply foldlM_ok_of_step _ hfold
        intro other c₂ c₃ hstep
        exact ih inner (Nat.lt_succ_self inner) (Nat.le_of_succ_le_succ hdepth) hstep

private theorem bound_mono (h : sources.Extends sources') : bound sources ≤ bound sources' := by
  have hlength := h.search.length_le
  unfold bound
  omega

end Closure

private theorem closureOf_extends {sources sources' : Sources} (h : sources.Extends sources')
    {sections : List Section} {c : Closure} (hclosure : closureOf sources sections = .ok c) :
    closureOf sources' sections = .ok c := by
  apply foldlM_ok_of_step _ hclosure
  intro s c₁ c₂ hresolve
  apply foldlM_ok_of_step _ hresolve
  intro name c₃ c₄ hstep
  exact Closure.resolve_extends h (Closure.bound_mono h) hstep

/-- A link that succeeds gives the same image when libraries are added at the end of the request, also if they
cannot be read or export names that are looked for. -/
theorem link_added_libraries {files : Files} {dirs : List String} {constants : Constants} {main : String}
    {units requested added : List String} {image : Image}
    (hplaced : Library.standard ∉ added ∨ Library.standard ∈ requested)
    (h : link files dirs constants main units requested = .ok image) :
    link files dirs constants main units (requested ++ added) = .ok image := by
  rw [link_eq, linkChars, bind_eq_ok] at h ⊢
  obtain ⟨result, hresult, himage⟩ := h
  obtain ⟨c, hclosure, hrest⟩ := bind_eq_ok.mp hresult
  have hadded := closureOf_extends (Sources.extends_ofUnits files dirs units hplaced) hclosure
  exact ⟨result, bind_eq_ok.mpr ⟨c, hadded, hrest⟩, himage⟩

theorem link_added_libraries_absent : ∃ image,
    link cyclicLibraries [""] .standard "@even" [] ["even", "odd"] = .ok image ∧
    link cyclicLibraries [""] .standard "@even" [] (["even", "odd"] ++ ["absent", "even"]) = .ok image := by
  obtain ⟨image, hlink, _⟩ : ∃ image,
      link cyclicLibraries [""] .standard "@even" [] ["even", "odd"] = .ok image ∧ _ :=
    exists_link_cyclicLibraries (by simp [cyclicUses])
  exact ⟨image, hlink, link_added_libraries (.inl (by decide)) hlink⟩

end Link

end WordLang
