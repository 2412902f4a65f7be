import WordLang.Proofs.Emission

/-!
# Variables around a call

Before a call the variables that live in caller-saved registers are pushed, and afterwards they are popped
again. In between each lives in its pushed word. Since no register is the home of two variables, moving the
variable of a register is moving whatever lives there; and since the registers come back in the opposite
order, popping the last one undoes the last move.
-/

namespace WordLang

def Storage.register? : Storage → Option Register
  | .register r => some r
  | .stack _ _ => none

namespace Scopes

def registers (layers : List Scope) : List Register :=
  layers.flatMap fun scope => scope.filterMap fun entry => entry.2.register?

/-- A variable moves if it lives in a certain register. -/
def moved (r : Register) (storage : Storage) (entry : String × Storage) : String × Storage :=
  (entry.1, if entry.2 = .register r then storage else entry.2)

def move (scopes : Scopes) (r : Register) (storage : Storage) : Scopes :=
  ⟨scopes.inner.map (moved r storage), scopes.outer.map fun scope => scope.map (moved r storage)⟩

@[simp] theorem layers_move (scopes : Scopes) (r : Register) (storage : Storage) :
    (scopes.move r storage).layers = scopes.layers.map fun scope => scope.map (moved r storage) := rfl

/-- Scopes in which every name is declared once, and every register is the home of one variable. -/
structure Tidy (layers : List Scope) : Prop where
  names_nodup : ∀ scope ∈ layers, (scope.map (·.1)).Nodup
  registers_nodup : (registers layers).Nodup

private theorem holder?_mem {scope : Scope} {r : Register} {name : String}
    (h : scope.holder? r = some name) : (name, Storage.register r) ∈ scope := by
  obtain ⟨⟨declared, storage⟩, hentry, rfl⟩ := List.mem_map.mp (Text.least?_mem h)
  obtain ⟨hmem, hstorage⟩ := List.mem_filter.mp hentry
  obtain rfl : storage = .register r := by simpa using hstorage
  exact hmem

private theorem holder?_eq_none {scope : Scope} {r : Register} (h : scope.holder? r = none) :
    ∀ entry ∈ scope, entry.2 ≠ .register r := by
  intro entry hentry hstorage
  have hempty := List.map_eq_nil_iff.mp (Text.least?_eq_none h)
  exact List.filter_eq_nil_iff.mp hempty entry hentry (by simpa using hstorage)

private theorem rebind_split {front back : Scope} {name : String} {old storage : Storage}
    (h : name ∉ front.map (·.1)) :
    Scope.rebind (front ++ (name, old) :: back) name storage = some (front ++ (name, storage) :: back) := by
  induction front with
  | nil => simp [Scope.rebind]
  | cons entry front ih =>
    obtain ⟨declared, st⟩ := entry
    have hne : declared ≠ name := fun he => h (by simp [he])
    have hrest : name ∉ front.map (·.1) := fun hm => h (List.mem_cons_of_mem _ hm)
    simp [Scope.rebind, hne, ih hrest]

private theorem rebindIn_split {inner outer : List Scope} {scope scope' : Scope} {name : String}
    {storage : Storage} (h : scope.rebind name storage = some scope') :
    rebindIn ⟨outer.length, name⟩ storage (inner ++ scope :: outer) = some (inner ++ scope' :: outer) := by
  induction inner with
  | nil => simp [rebindIn, h]
  | cons first inner ih =>
    have hne : (inner ++ scope :: outer).length ≠ outer.length := by
      simp only [List.length_append, List.length_cons]
      omega
    simp only [List.cons_append, rebindIn, if_neg hne, ih, Option.map_some]

private theorem holderIn_split {layers : List Scope} {r : Register} {binding : Binding}
    (h : holderIn r layers = some binding) :
    ∃ inner outer front back, binding = ⟨outer.length, binding.name⟩ ∧
      layers = inner ++ (front ++ (binding.name, .register r) :: back) :: outer := by
  induction layers with
  | nil => simp [holderIn] at h
  | cons scope outer ih =>
    unfold holderIn at h
    split at h
    · rename_i name hname
      obtain ⟨front, back, hscope⟩ := List.append_of_mem (holder?_mem hname)
      obtain rfl := Option.some.inj h
      exact ⟨[], outer, front, back, rfl, by rw [hscope]; rfl⟩
    · obtain ⟨inner, outer', front, back, hb, hl⟩ := ih h
      exact ⟨scope :: inner, outer', front, back, hb, by rw [hl]; rfl⟩

theorem mem_registers {layers : List Scope} {r : Register} :
    r ∈ registers layers ↔ ∃ scope ∈ layers, ∃ entry ∈ scope, entry.2 = .register r := by
  simp only [registers, List.mem_flatMap, List.mem_filterMap]
  refine exists_congr fun scope => and_congr_right fun _ => exists_congr fun entry =>
    and_congr_right fun _ => ?_
  cases entry.2 with
  | register q => simp [Storage.register?]
  | stack offset array => simp [Storage.register?]

private theorem map_moved {scope : Scope} {r : Register} (storage : Storage)
    (h : ∀ entry ∈ scope, entry.2 ≠ .register r) : scope.map (moved r storage) = scope := by
  have hsame : ∀ entry ∈ scope, moved r storage entry = entry := fun entry he => by
    simp [moved, h entry he]
  exact (List.map_congr_left hsame).trans (List.map_id' scope)

private theorem map_map_moved {layers : List Scope} {r : Register} (storage : Storage)
    (h : r ∉ registers layers) : (layers.map fun scope => scope.map (moved r storage)) = layers := by
  have hsame : ∀ scope ∈ layers, scope.map (moved r storage) = scope := fun scope hs =>
    map_moved storage fun entry he hr => h (mem_registers.mpr ⟨scope, hs, entry, he, hr⟩)
  exact (List.map_congr_left hsame).trans (List.map_id' layers)

/-- Rebinding the variable that lives in a register moves what lives there, and can be undone. -/
theorem Tidy.rebindIn_move {layers : List Scope} (ht : Tidy layers) {r : Register} {binding : Binding}
    (h : holderIn r layers = some binding) (storage : Storage) :
    rebindIn binding storage layers = some (layers.map fun scope => scope.map (moved r storage)) ∧
      rebindIn binding (.register r) (layers.map fun scope => scope.map (moved r storage)) =
        some layers := by
  obtain ⟨inner, outer, front, back, hb, rfl⟩ := holderIn_split h
  have hfresh : binding.name ∉ front.map (·.1) := by
    have hnames := ht.names_nodup _ (List.mem_append_right inner List.mem_cons_self)
    rw [List.map_append, List.nodup_append] at hnames
    intro hmem
    exact hnames.2.2 _ hmem _ (by simp) rfl
  have hregs := ht.registers_nodup
  simp only [registers, List.flatMap_append, List.flatMap_cons, List.filterMap_append,
    List.filterMap_cons, Storage.register?] at hregs
  have hinner : r ∉ registers inner := by
    intro hmem
    exact (List.nodup_append.mp hregs).2.2 r hmem r (by simp) rfl
  have hscope := (List.nodup_append.mp (List.nodup_append.mp hregs).2.1)
  have houter : r ∉ registers outer := by
    intro hmem
    exact hscope.2.2 r (by simp) r hmem rfl
  have hfront : ∀ entry ∈ front, entry.2 ≠ .register r := by
    intro entry he hr
    refine (List.nodup_append.mp hscope.1).2.2 r ?_ r List.mem_cons_self rfl
    exact List.mem_filterMap.mpr ⟨entry, he, by simp [hr]⟩
  have hback : ∀ entry ∈ back, entry.2 ≠ .register r := by
    intro entry he hr
    refine (List.nodup_cons.mp (List.nodup_append.mp hscope.1).2.1).1 ?_
    exact List.mem_filterMap.mpr ⟨entry, he, by simp [hr]⟩
  have hmoved : ((inner ++ (front ++ (binding.name, .register r) :: back) :: outer).map fun scope =>
      scope.map (moved r storage)) = inner ++ (front ++ (binding.name, storage) :: back) :: outer := by
    rw [List.map_append, List.map_cons, map_map_moved storage hinner, map_map_moved storage houter,
      List.map_append, List.map_cons, map_moved storage hfront, map_moved storage hback]
    simp [moved]
  rw [hmoved, hb]
  exact ⟨rebindIn_split (rebind_split hfresh), rebindIn_split (rebind_split hfresh)⟩

theorem registers_move (layers : List Scope) (r : Register) (offset : Int) (array : Bool) :
    registers (layers.map fun scope => scope.map (moved r (.stack offset array))) =
      (registers layers).filter fun q => decide (q ≠ r) := by
  have hentry (entry : String × Storage) : (moved r (.stack offset array) entry).2.register? =
      entry.2.register?.filter fun q => decide (q ≠ r) := by
    obtain ⟨name, storage⟩ := entry
    cases storage with
    | register q => by_cases hq : q = r <;> simp [moved, Storage.register?, Option.filter, hq]
    | stack offset' array' => simp [moved, Storage.register?]
  have hscope (scope : Scope) : (scope.map (moved r (.stack offset array))).filterMap
      (fun entry => entry.2.register?) =
        (scope.filterMap fun entry => entry.2.register?).filter fun q => decide (q ≠ r) := by
    simp only [List.filterMap_map, Function.comp_def, hentry, List.filter_filterMap]
  simp only [registers, List.flatMap_map, hscope, List.filter_flatMap]

private theorem Tidy.move {layers : List Scope} (ht : Tidy layers) (r : Register) (offset : Int) (array : Bool) :
    Tidy (layers.map fun scope => scope.map (moved r (.stack offset array))) := by
  refine ⟨?_, ?_⟩
  · intro scope hs
    obtain ⟨old, hold, rfl⟩ := List.mem_map.mp hs
    have hnames : (old.map (moved r (.stack offset array))).map (·.1) = old.map (·.1) := by
      simp [moved, Function.comp_def]
    rw [hnames]
    exact ht.names_nodup old hold
  · rw [registers_move]
    exact ht.registers_nodup.filter _

private theorem holderIn_eq_none {layers : List Scope} {r : Register} (h : holderIn r layers = none) :
    r ∉ registers layers := by
  rw [mem_registers]
  rintro ⟨scope, hs, entry, he, hr⟩
  induction layers with
  | nil => exact absurd hs List.not_mem_nil
  | cons first rest ih =>
    unfold holderIn at h
    split at h
    · simp at h
    · rename_i hnone
      rcases List.mem_cons.mp hs with rfl | hs
      · exact holder?_eq_none hnone entry he hr
      · exact ih h hs

end Scopes

/-- What holds of registers and scopes between any two steps: only general registers are held, and those in
which variables live are held, each by one variable. -/
structure Frame.Sound (s : Frame) : Prop where
  general : ∀ r, s.pool.holds r = true → r ∈ Register.general
  tidy : Scopes.Tidy s.scopes.layers
  bound : ∀ r ∈ Scopes.registers s.scopes.layers, s.pool.holds r = true

namespace Frame

def spilled (s : Frame) (r : Register) : Frame :=
  { s with
    pool := s.pool.release r
    scopes := s.scopes.move r (.stack (-(s.localSlots + (s.stackDepth + 1))) false)
    stackDepth := s.stackDepth + 1
    code := s.code.push (.code (.push r)) }

theorem Sound.congr {s t : Frame} (h : s.Sound) (hscopes : t.scopes = s.scopes)
    (hholds : ∀ r, t.pool.holds r = s.pool.holds r) : t.Sound := by
  refine ⟨?_, by rw [hscopes]; exact h.tidy, ?_⟩
  · intro r hr
    exact h.general r (by rwa [← hholds])
  · intro r hr
    rw [hholds]
    exact h.bound r (by rwa [← hscopes])

theorem Sound.spilled {s : Frame} (hs : s.Sound) (r : Register) : (s.spilled r).Sound := by
  refine ⟨?_, hs.tidy.move r _ _, ?_⟩
  · intro q hq
    refine hs.general q ?_
    simp only [Frame.spilled, Pool.holds_release, Bool.and_eq_true] at hq
    exact hq.2
  · intro q hq
    have hmem : q ∈ Scopes.registers s.scopes.layers ∧ q ≠ r := by
      simpa [Frame.spilled, Scopes.registers_move] using hq
    simp [Frame.spilled, hmem.2, hs.bound q hmem.1]

/-- Pushing the variables that live in some registers, one register after the other. -/
inductive Spilled : List Register → Frame → List Spill → Frame → Prop
  | nil (s : Frame) : Spilled [] s [] s
  | skip {r : Register} {rs : List Register} {s s' : Frame} {spills : List Spill}
    (hr : r ∉ Scopes.registers s.scopes.layers) (h : Spilled rs s spills s') : Spilled (r :: rs) s spills s'
  | move {r : Register} {rs : List Register} {s s' : Frame} {spills : List Spill} {binding : Binding}
    (hr : s.pool.holds r = true) (hb : Scopes.holderIn r s.scopes.layers = some binding)
    (h : Spilled rs (s.spilled r) spills s') : Spilled (r :: rs) s (⟨binding, r⟩ :: spills) s'

end Frame

namespace Emit

theorem spillRegister_ok {s s' : Frame} (hs : s.Sound) {r : Register} {found : Option Spill}
    (h : spillRegister r s = .ok found s') :
    (found = none ∧ r ∉ Scopes.registers s.scopes.layers ∧ s' = s) ∨
      ∃ binding, found = some ⟨binding, r⟩ ∧ s.pool.holds r = true ∧
        Scopes.holderIn r s.scopes.layers = some binding ∧ s' = s.spilled r := by
  simp only [spillRegister, get_bind_ok] at h
  by_cases hr : s.pool.holds r = true
  · rw [if_pos hr] at h
    cases hb : s.scopes.holder? r with
    | none =>
      simp only [hb, pure_ok] at h
      exact .inl ⟨h.1, Scopes.holderIn_eq_none hb, h.2⟩
    | some binding =>
      simp only [hb, bind_ok, push_ok, pure_ok] at h
      obtain ⟨_, _, ⟨_, rfl, rfl⟩, _, _, hrebind, _, _, hfree, rfl, rfl⟩ := h
      obtain ⟨inner, outer, hlayers, rfl⟩ := rebind_ok hrebind
      obtain ⟨_, rfl⟩ := free_ok hfree
      have hmove := (hs.tidy.rebindIn_move hb _).1.symm.trans hlayers
      refine .inr ⟨binding, rfl, hr, hb, ?_⟩
      obtain ⟨rfl, rfl⟩ := List.cons.inj (Option.some.inj hmove)
      rfl
  · rw [if_neg hr, pure_ok] at h
    exact .inl ⟨h.1, fun hmem => hr (hs.bound r hmem), h.2⟩

theorem spill_ok {s s' : Frame} (hs : s.Sound) {rs : List Register} {spills : List Spill}
    (h : rs.filterMapM spillRegister s = .ok spills s') : s.Spilled rs spills s' := by
  induction rs generalizing s spills with
  | nil =>
    obtain ⟨rfl, rfl⟩ := pure_ok.mp h
    exact .nil s'
  | cons r rs ih =>
    rw [List.filterMapM_cons, bind_ok] at h
    obtain ⟨found, t, hfound, h⟩ := h
    rcases spillRegister_ok hs hfound with ⟨rfl, hr, rfl⟩ | ⟨binding, rfl, hr, hb, rfl⟩
    · exact .skip hr (ih hs h)
    · obtain ⟨rest, t', hrest, hpure⟩ := bind_ok.mp h
      obtain ⟨rfl, rfl⟩ := pure_ok.mp hpure
      exact .move hr hb (ih (hs.spilled r) hrest)

theorem reclaim_ok {s s' : Frame} {spills : List Spill} (h : reclaim spills s = .ok () s') :
    ∃ pool, s' = s.pooled pool ∧ (∀ sp ∈ spills, s.pool.holds sp.register = false) ∧
      (∀ q, pool.holds q = (decide (q ∈ spills.map Spill.register) || s.pool.holds q)) ∧
      ∀ q, s.pool.touched.contains q = true → pool.touched.contains q = true := by
  induction spills generalizing s with
  | nil =>
    obtain ⟨_, rfl⟩ := pure_ok.mp h
    exact ⟨s'.pool, rfl, by simp, by simp, fun _ hq => hq⟩
  | cons sp spills ih =>
    obtain ⟨_, t, hreserve, hrest⟩ := bind_ok.mp h
    obtain ⟨_, hfree, rfl⟩ := reserve_ok hreserve
    obtain ⟨pool, rfl, hall, hholds, htouched⟩ := ih hrest
    refine ⟨pool, rfl, ?_, ?_, ?_⟩
    · intro other hother
      rcases List.mem_cons.mp hother with rfl | hother
      · exact hfree
      · have hnot := hall other hother
        simp only [Frame.taken_pool, Pool.holds_take, Bool.or_eq_false_iff] at hnot
        exact hnot.2
    · intro q
      rw [hholds]
      by_cases hq : q = sp.register <;> simp [hq]
    · intro q hq
      exact htouched q (by simp [hq])

end Emit

namespace Frame.Spilled

variable {rs : List Register} {s s' : Frame} {spills : List Spill}

theorem sound (h : s.Spilled rs spills s') (hs : s.Sound) : s'.Sound := by
  induction h with
  | nil s => exact hs
  | skip _ _ ih => exact ih hs
  | move _ _ _ ih => exact ih (hs.spilled _)

theorem holds (h : s.Spilled rs spills s') (q : Register) :
    s'.pool.holds q = (s.pool.holds q && !decide (q ∈ spills.map Spill.register)) := by
  induction h with
  | nil s => simp
  | skip _ _ ih => exact ih
  | @move r rs s s' spills binding _ _ _ ih =>
    rw [ih]
    by_cases hq : q = r <;> simp [Frame.spilled, hq]

theorem spilled_held (h : s.Spilled rs spills s') : ∀ sp ∈ spills, s.pool.holds sp.register = true := by
  induction h with
  | nil s => simp
  | skip _ _ ih => exact ih
  | @move r rs s s' spills binding hr _ _ ih =>
    intro sp hsp
    rcases List.mem_cons.mp hsp with rfl | hsp
    · exact hr
    · have hheld := ih sp hsp
      simp only [Frame.spilled, Pool.holds_release, Bool.and_eq_true] at hheld
      exact hheld.2

theorem mem_spills (h : s.Spilled rs spills s') {q : Register} (hq : q ∈ rs)
    (hbound : q ∈ Scopes.registers s.scopes.layers) : q ∈ spills.map Spill.register := by
  induction h with
  | nil s => exact absurd hq List.not_mem_nil
  | skip hr _ ih =>
    rcases List.mem_cons.mp hq with rfl | hq
    · exact absurd hbound hr
    · exact ih hq hbound
  | @move r rs s s' spills binding _ _ _ ih =>
    by_cases hne : q = r
    · exact List.mem_cons.mpr (.inl hne)
    · have hrest : q ∈ rs := (List.mem_cons.mp hq).resolve_left hne
      have hbound' : q ∈ Scopes.registers (s.spilled r).scopes.layers := by
        simpa [Frame.spilled, Scopes.registers_move] using ⟨hbound, hne⟩
      exact List.mem_cons_of_mem _ (ih hrest hbound')

theorem frame (h : s.Spilled rs spills s') :
    s'.localSlots = s.localSlots ∧ s'.stackDepth = s.stackDepth + spills.length ∧
      s'.pool.touched = s.pool.touched ∧
      s'.code = s.code ++ (spills.map fun sp => Line.code (.push sp.register)).toArray := by
  induction h with
  | nil s => simp
  | skip _ _ ih => exact ih
  | @move r rs s s' spills binding _ _ _ ih =>
    obtain ⟨hlocal, hdepth, htouched, hcode⟩ := ih
    refine ⟨hlocal, ?_, htouched, ?_⟩
    · rw [hdepth, List.length_cons]
      simp only [Frame.spilled]
      omega
    · rw [hcode]
      simp [Frame.spilled]

/-- Popping pushed variables back brings back the scopes from before they were pushed. -/
theorem restore_ok (h : s.Spilled rs spills s') (hs : s.Sound) {t t' : Frame}
    (ht : t.scopes = s'.scopes) (hr : Emit.restore spills t = .ok () t') :
    t' = { t with
      scopes := s.scopes
      stackDepth := t.stackDepth - spills.length
      code := t.code ++ (spills.reverse.map fun sp => Line.code (.pop sp.register)).toArray } := by
  induction h generalizing t' with
  | nil s =>
    obtain ⟨_, rfl⟩ := Emit.pure_ok.mp hr
    simp [← ht]
  | skip _ _ ih => exact ih hs ht hr
  | @move r rs s s' spills binding _ hb _ ih =>
    rw [Emit.restore, List.reverse_cons, List.forM_eq_forM, List.forM_append, Emit.bind_ok] at hr
    obtain ⟨_, u, hrest, hlast⟩ := hr
    obtain rfl := ih (hs.spilled r) ht hrest
    simp only [List.forM_cons, List.forM_nil, Emit.bind_ok, Emit.pop_ok, Emit.pure_ok] at hlast
    obtain ⟨_, _, ⟨_, _, ⟨_, rfl⟩, hrebind⟩, _, rfl⟩ := hlast
    obtain ⟨inner, outer, hlayers, rfl⟩ := Emit.rebind_ok hrebind
    have hback := (hs.tidy.rebindIn_move hb _).2.symm.trans hlayers
    obtain ⟨rfl, rfl⟩ := List.cons.inj (Option.some.inj hback)
    simp [Frame.popped, Frame.within]
    omega

end Frame.Spilled

end WordLang
