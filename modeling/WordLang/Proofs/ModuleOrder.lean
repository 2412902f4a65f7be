import Mathlib.Logic.Relation
import WordLang.Proofs.Dependencies

/-!
# The order of the modules of an image

A module is complete once all names that its body refers to are resolved. The module of such a name is then
complete itself, or it still waits. Those that wait do so for each other: each of them refers to the next one,
and the last to the module at hand. So a module stands behind every module that it refers to, but for those
that depend on it in turn.
-/

namespace WordLang.Link

private theorem foldlM_keeps {ε α β : Type} {P : β → Prop} {step : β → α → Except ε β} {xs : List α} {b b' : β}
    (hstep : ∀ x ∈ xs, ∀ b b', P b → step b x = .ok b' → P b') (hb : P b)
    (h : xs.foldlM step b = .ok b') : P b' := by
  induction xs generalizing b with
  | nil =>
    rw [List.foldlM_nil, pure_eq_ok] at h
    exact h ▸ hb
  | cons x xs ih =>
    rw [List.foldlM_cons, bind_eq_ok] at h
    obtain ⟨b₁, hfirst, hrest⟩ := h
    have hb₁ := hstep x List.mem_cons_self b b₁ hb hfirst
    exact ih (fun y hy => hstep y (List.mem_cons_of_mem x hy)) hb₁ hrest

namespace Sources

def Mentions (sources : Sources) (m : Module) (name : String) : Prop :=
  ∃ own body, sources.Provides own m body ∧ name ∈ references body

/-- A chain of modules leads from the first to the second, each of which refers to a name that the next one
provides. -/
def DependsOn (sources : Sources) : Module → Module → Prop :=
  Relation.TransGen fun m m' => ∃ name body, sources.Mentions m name ∧ sources.Provides name m' body

variable {sources : Sources} {m m' : Module} {name body : String}

private theorem Mentions.dependsOn (h : sources.Mentions m name) (hprovides : sources.Provides name m' body) :
    sources.DependsOn m m' :=
  .single ⟨name, body, h, hprovides⟩

end Sources

namespace Closure

/-- What holds of the order while modules are pulled in for texts. Of those in `pending`, each was begun for a
name that the next one refers to. -/
structure Ordered (sources : Sources) (texts : List String) (pending : List Module) (c : Closure) : Prop
    extends Pulls sources texts pending c where
  waits : pending.Pairwise fun inner outer => sources.DependsOn outer inner
  behind : ∀ before m body after, c.modules = before ++ (m, body) :: after → ∀ name ∈ references body,
    ∀ m' body', sources.Provides name m' body' → (m', body') ∈ before ∨ sources.DependsOn m' m

variable {sources : Sources} {texts : List String} {pending : List Module} {c c' : Closure}
  {name origin : String} {m : Module} {body : String} {depth : Nat}

/-- A module that is begun for a name waits inside of the one that refers to the name. -/
theorem Ordered.begin (h : Ordered sources texts pending c) (hm : m ∉ c.visited)
    (hname : sources.Reachable texts name) (hfound : sources.provider name = .ok (some (.module m body)))
    (hinner : ∀ top ∈ pending.head?, sources.Mentions top name) :
    Ordered sources texts (m :: pending)
      { c with resolved := name :: c.resolved, visited := m :: c.visited } where
  toPulls := h.toPulls.begin_for hm hname hfound
  waits := by
    refine List.pairwise_cons.mpr ⟨?_, h.waits⟩
    intro outer houter
    cases pending with
    | nil => simp at houter
    | cons top pending =>
      have htop : sources.DependsOn top m :=
        (hinner top rfl).dependsOn (Sources.provides_of_provider hfound)
      rcases List.mem_cons.mp houter with rfl | houter
      · exact htop
      · exact (List.rel_of_pairwise_cons h.waits houter).trans htop
  behind := h.behind

/-- A module that is complete goes behind the complete ones. What it refers to is among these, or waits for
it. -/
theorem Ordered.complete (h : Ordered sources texts (m :: pending) c) (hname : name ∈ c.resolved)
    (hprovides : sources.Provides name m body) (hbody : ∀ inner ∈ references body, inner ∈ c.resolved) :
    Ordered sources texts pending { c with modules := c.modules ++ [(m, body)] } where
  toPulls := h.toPulls.complete hname hprovides hbody
  waits := h.waits.of_cons
  behind := by
    intro before m₁ body₁ after hsplit
    rcases List.eq_nil_or_concat after with rfl | ⟨after, last, rfl⟩
    · obtain ⟨rfl, hlast⟩ := List.append_inj' hsplit rfl
      obtain ⟨rfl, rfl⟩ := Prod.mk.inj (List.singleton_inj.mp hlast)
      intro inner hinner m' body' hprovides'
      rcases h.complete_or_pending (hbody inner hinner) hprovides' with hmem | hpending
      · exact .inl hmem
      · right
        rcases List.mem_cons.mp hpending with rfl | hpending
        · exact Sources.Mentions.dependsOn ⟨name, body, hprovides, hinner⟩ hprovides'
        · exact List.rel_of_pairwise_cons h.waits hpending
    · have hrest : c.modules ++ [(m, body)] = (before ++ (m₁, body₁) :: after) ++ [last] := by
        simpa using hsplit
      exact h.behind before m₁ body₁ after (List.append_inj' hrest rfl).1

private theorem resolve_ordered (h : Ordered sources texts pending c) (hname : sources.Reachable texts name)
    (hinner : ∀ top ∈ pending.head?, sources.Mentions top name)
    (hresolve : resolve sources depth origin c name = .ok c') : Ordered sources texts pending c' := by
  induction depth using Nat.strongRecOn generalizing pending c c' name origin with
  | _ depth ih =>
    rcases resolve_ok hresolve with ⟨_, rfl⟩ | ⟨found, hfound, hvisited, rfl⟩ |
      ⟨m, body, depth', c₁, hfound, hnew, rfl, hfold, rfl⟩
    · exact h
    · exact ⟨h.toPulls.note hname hfound hvisited, h.waits, h.behind⟩
    · have hprovides := Sources.provides_of_provider hfound
      have hbegun := h.begin hnew hname hfound hinner
      have hreach : ∀ inner ∈ references body, sources.Reachable texts inner :=
        fun inner hi => .through hname hprovides hi
      obtain ⟨_, hbody, hsub⟩ :=
        (resolve_resolves sources texts depth' m.describe).foldlM hreach hbegun.toPulls hfold
      have hc₁ : Ordered sources texts (m :: pending) c₁ := by
        apply foldlM_keeps _ hbegun hfold
        intro inner hi c₂ c₃ hc₂ hstep
        apply ih depth' (Nat.lt_succ_self _) hc₂ (hreach inner hi) _ hstep
        intro top htop
        obtain rfl := Option.some.inj htop
        exact ⟨name, body, hprovides, hi⟩
      exact hc₁.complete (hsub List.mem_cons_self) hprovides hbody

end Closure

private theorem closureOf_ordered {sources : Sources} {sections : List Section} {c : Closure}
    (h : closureOf sources sections = .ok c) :
    Closure.Ordered sources (sections.map Section.text) [] c := by
  have hstart : Closure.Ordered sources (sections.map Section.text) [] {} := by
    constructor
    · constructor <;> simp
    · exact .nil
    · simp
  rw [closureOf] at h
  apply foldlM_keeps _ hstart h
  intro s hs c₁ c₂ hc₁ hresolve
  rw [Closure.resolveText] at hresolve
  apply foldlM_keeps _ hc₁ hresolve
  intro name hname c₃ c₄ hc₃ hstep
  exact Closure.resolve_ordered hc₃ (.direct (List.mem_map_of_mem hs) hname) (by simp) hstep

/-- Dependencies come first: a module of an image stands behind each module that provides a name in its body,
unless that module depends on it in turn. -/
theorem link_modules_ordered {files : Files} {dirs : List String} {constants : Constants} {main : String}
    {units requested : List String} {image : Image}
    (h : link files dirs constants main units requested = .ok image) :
    ∃ c, closureOf (.ofUnits files dirs units requested) (⟨"main unit", main⟩ :: unitSections units) =
        .ok c ∧ image.modules = c.modules.map (fun entry => entry.1.describe) ∧
      ∀ before m body after, c.modules = before ++ (m, body) :: after →
        (∃ own, (Sources.ofUnits files dirs units requested).Provides own m body) ∧
        ∀ name ∈ references body, ∀ m' body',
          (Sources.ofUnits files dirs units requested).Provides name m' body' →
            (m', body') ∈ before ∨ (Sources.ofUnits files dirs units requested).DependsOn m' m := by
  obtain ⟨c, _, hclosure, _, _, rfl⟩ := link_ok h
  have hordered := closureOf_ordered hclosure
  refine ⟨c, hclosure, rfl, ?_⟩
  intro before m body after hsplit
  obtain ⟨own, _, hprovides⟩ := hordered.needed (m, body) (by simp [hsplit])
  exact ⟨⟨own, hprovides⟩, hordered.behind before m body after hsplit⟩

theorem link_modules_ordered_cyclic : ∃ image,
    link cyclicLibraries [""] .standard "@even" [] ["even", "odd"] = .ok image ∧
    image.modules = ["runtime/exit", "odd", "even"] ∧
    ∃ c, closureOf (.ofUnits cyclicLibraries [""] [] ["even", "odd"])
        (⟨"main unit", "@even"⟩ :: unitSections []) = .ok c ∧
      image.modules = c.modules.map (fun entry => entry.1.describe) ∧
      ∀ before m body after, c.modules = before ++ (m, body) :: after →
        (∃ own, (Sources.ofUnits cyclicLibraries [""] [] ["even", "odd"]).Provides own m body) ∧
        ∀ name ∈ references body, ∀ m' body',
          (Sources.ofUnits cyclicLibraries [""] [] ["even", "odd"]).Provides name m' body' →
            (m', body') ∈ before ∨
              (Sources.ofUnits cyclicLibraries [""] [] ["even", "odd"]).DependsOn m' m := by
  obtain ⟨image, hlink, hmodules, _⟩ : ∃ image,
      link cyclicLibraries [""] .standard "@even" [] ["even", "odd"] = .ok image ∧ _ :=
    exists_link_cyclicLibraries (by simp [cyclicUses])
  exact ⟨image, hlink, hmodules, link_modules_ordered hlink⟩

end WordLang.Link
