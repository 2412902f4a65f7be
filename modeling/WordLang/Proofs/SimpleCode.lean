import WordLang.Proofs.Agreement
import WordLang.Proofs.StmtFrames

/-!
# Code for simple statements is correct

At any point of a function the machine has the variables of the program in the places that the frame says,
and the code from there on is the rest of the routine. A declaration, an assignment or an expression leads
to the point after its code, with the variables that the program then has, and a condition to one of two
points.
-/

namespace WordLang

/-- The place of a variable holds a number that agrees with its value. -/
def Shown (m : Machine) (base : Int) (entry : String × Storage) (var : String × Value) : Prop :=
  entry.1 = var.1 ∧ ∃ v, entry.2.Holds m base (.value v) ∧ var.2.Agrees v

/-- A machine has the variables of a function where its frame says. The local area ends at `base`. -/
structure Frame.Shows (s : Frame) (base : Int) (env : Env) (m : Machine) : Prop where
  fp : m.reg .fp = base
  sp : m.reg .sp = base - s.localSlots
  shown : List.Forall₂ (Shown m base) s.entries env

/-- What code that belongs to a function keeps: the memory outside its frame, and the callee-saved registers
that the function has not used. -/
structure Frame.Guards (s : Frame) (base : Int) (m m' : Machine) : Prop where
  fp : m'.reg .fp = m.reg .fp
  saved : ∀ r ∈ RegisterClass.calleeSaved.members,
    s.pool.touched.contains r = false → m'.reg r = m.reg r
  mem : ∀ a, base ≤ a → m'.mem a = m.mem a

/-- Where the body of a routine stands, and where it is left. -/
structure Site (asm : Assembly) where
  start : Nat
  body : List Line
  exit : Nat
  stands : asm.At start body

def Site.at {asm : Assembly} (site : Site asm) (s : Frame) (m : Machine) : Config :=
  ⟨(site.start + s.code.size : Nat), m⟩

/-- The code of a frame is the beginning of the routine's body, and the label before the epilogue is where
the body is left. -/
def Frame.Fits {asm : Assembly} (s : Frame) (site : Site asm) : Prop :=
  s.code.toList <+: site.body ∧ ∀ l, s.returnLabel = some l → asm.position? l = some site.exit

private theorem shown_iff {m : Machine} {base : Int} {layers : List Scope} {env : Env} :
    List.Forall₂ (Shown m base) layers.flatten env ↔ ∃ homes, Located m base layers homes ∧ env.Agrees homes := by
  unfold Located Env.Agrees
  generalize layers.flatten = entries
  constructor
  · intro h
    induction h with
    | nil => exact ⟨[], .nil, .nil⟩
    | @cons entry var entries env hshown _ ih =>
      obtain ⟨hname, v, hholds, hv⟩ := hshown
      obtain ⟨homes, hlocated, hagrees⟩ := ih
      exact ⟨(entry.1, .value v) :: homes, .cons ⟨rfl, hholds⟩ hlocated,
        .cons ⟨hname.symm, v, rfl, hv⟩ hagrees⟩
  · rintro ⟨homes, hlocated, hagrees⟩
    induction hlocated generalizing env with
    | nil =>
      cases hagrees
      exact .nil
    | cons hentry _ ih =>
      cases hagrees with
      | cons hvar hrest =>
        obtain ⟨hname, v, hvalue, hv⟩ := hvar
        rw [hvalue] at hentry
        exact .cons ⟨hentry.1.trans hname.symm, v, hentry.2, hv⟩ (ih hrest)

section Shown

variable {m m' : Machine} {base : Int} {entries : List (String × Storage)} {env env' : Env}

private theorem Storage.Holds.write {storage : Storage} {v : Int} (h : storage.Holds m base (.value v))
    (address x : Int) (hne : ∀ offset, storage = .stack offset false → m.reg .fp + offset ≠ address) :
    storage.Holds (m.write address x) base (.value v) := by
  cases storage with
  | register r => exact h
  | stack offset array =>
    cases array with
    | true => exact h.elim
    | false =>
      obtain ⟨hlo, hhi, hv⟩ := h
      refine ⟨hlo, hhi, ?_⟩
      simp only [Machine.reg_write, Machine.mem_write, if_neg (hne offset rfl)]
      exact hv

private theorem Storage.Holds.set {storage : Storage} {v : Int} (h : storage.Holds m base (.value v))
    {rd : Register} (hg : rd ∈ Register.general) (x : Int) (hne : storage ≠ .register rd) :
    storage.Holds (m.set rd x) base (.value v) := by
  obtain ⟨hsp, hfp⟩ := Register.general_ne hg
  cases storage with
  | register r =>
    have hr : r ≠ rd := fun he => hne (by rw [he])
    simpa [Storage.Holds, hr] using h
  | stack offset array =>
    cases array with
    | true => exact h.elim
    | false => simpa [Storage.Holds, hsp.symm, hfp.symm] using h

private theorem shown_mono (h : List.Forall₂ (Shown m base) entries env)
    (hkeep : ∀ entry ∈ entries, ∀ v, entry.2.Holds m base (.value v) → entry.2.Holds m' base (.value v)) :
    List.Forall₂ (Shown m' base) entries env := by
  induction h with
  | nil => exact .nil
  | @cons entry var entries env hshown _ ih =>
    obtain ⟨hname, v, hholds, hv⟩ := hshown
    refine .cons ⟨hname, v, hkeep entry List.mem_cons_self v hholds, hv⟩ (ih fun other hother => ?_)
    exact hkeep other (List.mem_cons_of_mem entry hother)

private theorem shown_mem (h : List.Forall₂ (Shown m base) entries env) {entry : String × Storage}
    (hentry : entry ∈ entries) : ∃ v, entry.2.Holds m base (.value v) := by
  induction h with
  | nil => exact absurd hentry List.not_mem_nil
  | cons hshown _ ih =>
    rcases List.mem_cons.mp hentry with rfl | hentry
    · exact ⟨_, hshown.2.choose_spec.1⟩
    · exact ih hentry

private theorem mem_of_lookup {name : String} {storage : Storage}
    (h : entries.lookup name = some storage) : (name, storage) ∈ entries := by
  obtain ⟨front, back, hentries, _⟩ := List.lookup_eq_some_iff.mp h
  rw [hentries]
  exact List.mem_append_right front List.mem_cons_self

private theorem shown_assign (h : List.Forall₂ (Shown m base) entries env)
    (hplaces : entries.Pairwise fun a b => a.2 = b.2 → ∃ offset, a.2 = .stack offset true)
    {name : String} {storage : Storage} {value : Value} (hl : entries.lookup name = some storage)
    (ha : Env.assign name value env = some env') {v : Int} (hv : value.Agrees v)
    (hnew : storage.Holds m' base (.value v))
    (hother : ∀ other w, other ≠ storage → other.Holds m base (.value w) → other.Holds m' base (.value w)) :
    List.Forall₂ (Shown m' base) entries env' := by
  induction h generalizing env' with
  | nil => simp at hl
  | @cons entry var entries env hshown hrest ih =>
    obtain ⟨declared, place⟩ := entry
    obtain ⟨declared', old⟩ := var
    obtain ⟨rfl, w, hholds, hw⟩ := hshown
    obtain ⟨hfirst, hplaces⟩ := List.pairwise_cons.mp hplaces
    rw [List.lookup_cons] at hl
    simp only [Env.assign] at ha
    by_cases hname : declared = name
    · subst hname
      obtain rfl : place = storage := by simpa using hl
      obtain rfl : (declared, value) :: env = env' := by simpa using ha
      refine .cons ⟨rfl, v, hnew, hv⟩ (shown_mono hrest fun other hmem w' hw' => ?_)
      refine hother other.2 w' ?_ hw'
      intro hsame
      obtain ⟨offset, rfl⟩ := hfirst other hmem hsame.symm
      exact hnew.elim
    · have hl' : entries.lookup name = some storage := by
        simpa [show (name == declared) = false by simpa using fun he => hname he.symm] using hl
      rw [if_neg hname] at ha
      obtain ⟨rest, hassign, rfl⟩ := Option.map_eq_some_iff.mp ha
      refine .cons ⟨rfl, w, hother place w ?_ hholds, hw⟩ (ih hplaces hl' hassign)
      rintro rfl
      obtain ⟨offset, rfl⟩ := hfirst _ (mem_of_lookup hl') rfl
      exact hholds.elim

end Shown

namespace Frame

variable {asm : Assembly} {site : Site asm} {s s' t : Frame} {base : Int} {env : Env} {m m₁ m₂ : Machine}

theorem Guards.refl (s : Frame) (base : Int) (m : Machine) : s.Guards base m m :=
  ⟨rfl, fun _ _ _ => rfl, fun _ _ => rfl⟩

theorem Guards.trans (h : s.Guards base m m₁) (h' : t.Guards base m₁ m₂)
    (htouched : ∀ r, s.pool.touched.contains r = true → t.pool.touched.contains r = true) :
    t.Guards base m m₂ := by
  refine ⟨h'.fp.trans h.fp, ?_, fun a ha => (h'.mem a ha).trans (h.mem a ha)⟩
  intro r hr hnot
  have hnot' : s.pool.touched.contains r = false := by
    cases hc : s.pool.touched.contains r with
    | false => rfl
    | true => rw [htouched r hc] at hnot; exact absurd hnot (by decide)
  exact (h'.saved r hr hnot).trans (h.saved r hr hnot')

private theorem Guards.write (h : s.Guards base m m₁) {address : Int} (ha : address < base) (x : Int) :
    s.Guards base m (m₁.write address x) := by
  refine ⟨h.fp, h.saved, fun a hle => ?_⟩
  rw [Machine.mem_write, if_neg (by omega)]
  exact h.mem a hle

theorem Guards.set (h : s.Guards base m m₁) {rd : Register}
    (hrd : rd ∈ RegisterClass.callerSaved.members) (x : Int) : s.Guards base m (m₁.set rd x) := by
  obtain ⟨_, hfp, hcallee⟩ := Register.callerSaved_ne hrd
  refine ⟨by simp [hfp.symm, h.fp], fun r hr hnot => ?_, h.mem⟩
  have hne : r ≠ rd := fun he => hcallee (he ▸ hr)
  simp [hne, h.saved r hr hnot]

theorem Guards.touch (h : s.Guards base m m₁)
    (htouched : ∀ r, s.pool.touched.contains r = true → t.pool.touched.contains r = true) :
    t.Guards base m m₁ :=
  h.trans (.refl t base m₁) htouched

theorem Shows.congr (h : s.Shows base env m) (hentries : t.entries = s.entries)
    (hlocal : t.localSlots = s.localSlots) : t.Shows base env m :=
  ⟨h.fp, by rw [hlocal]; exact h.sp, by rw [hentries]; exact h.shown⟩

theorem Shows.rests (h : s.Shows base env m) (hr : s.Rests t) : t.Shows base env m :=
  h.congr hr.entries hr.localSlots

theorem Shows.leave {n : Nat} {new : List (String × Storage)} (h : s.Shows base env m)
    (hentries : s.entries = new ++ t.entries) (hlocal : t.localSlots = s.localSlots)
    (hn : t.entries.length = n) : t.Shows base (env.leave n) m := by
  refine ⟨h.fp, by rw [hlocal]; exact h.sp, ?_⟩
  have hlength := h.shown.length_eq
  have hdrop := List.forall₂_drop (env.length - n) h.shown
  rwa [← hlength, hentries, List.length_append, hn, Nat.add_sub_cancel, List.drop_left,
    show env.drop new.length = env.leave n by
      rw [Env.leave, ← hlength, hentries, List.length_append, hn, Nat.add_sub_cancel]] at hdrop

private theorem Fits.at (h : s'.Fits site) (new : List Line) (hcode : s'.code.toList = s.code.toList ++ new) :
    asm.At (site.start + s.code.size) new := by
  obtain ⟨rest, hrest⟩ := h.1
  have hbody := site.stands
  rw [← hrest, hcode, List.append_assoc] at hbody
  simpa using hbody.right.left

private theorem Fits.sub (h : s'.Fits site) (new : List Line) (hcode : s'.code.toList = s.code.toList ++ new)
    (hreturn : s'.returnLabel = s.returnLabel) : s.Fits site :=
  ⟨List.IsPrefix.trans ⟨new, hcode.symm⟩ h.1, fun l hl => h.2 l (hreturn.trans hl)⟩

theorem Fits.of_coded {i : Instruction} (h : (s.coded i).Fits site) : s.Fits site :=
  h.sub [.code i] (by simp) rfl

theorem Fits.of_labelled {l : String} (h : (s.labelled l).Fits site) : s.Fits site :=
  h.sub [.label l] (by simp) rfl

theorem Fits.position? {l : String} (h : (s.labelled l).Fits site) (hn : asm.labels.Nodup) :
    asm.position? l = some (site.start + s.code.size) :=
  (h.at (s := s) [.label l] (by simp)).position? hn

private theorem Fits.of_appends {sigs : Signatures} (h : s'.Fits site) (ha : s.Appends sigs s') : s.Fits site := by
  obtain ⟨new, hnew, _⟩ := ha.code
  exact h.sub (new.map .code) (by simp [hnew]) ha.returnLabel

theorem Fits.earlier {sigs : Signatures} {P : String → Prop} (h : s'.Fits site)
    (hg : s.Grows sigs P s') : s.Fits site := by
  obtain ⟨new, hnew, _⟩ := hg.code
  exact ⟨List.IsPrefix.trans ⟨new, hnew.symm⟩ h.1, fun l hl => h.2 l (hg.returns.keep l hl)⟩

end Frame

section Simulation

variable {sigs : Signatures} {asm : Assembly} {world : World} {meaning : CallMeaning} {site : Site asm}
  {s s' t : Frame} {base : Int} {env env' : Env} {m : Machine} {events' : List Event}

private theorem Frame.Computes.reaches (hv : sigs.Valid) (hruns : meaning.Runs sigs asm world) {e : Expr}
    {out : Machine → Int → Prop} {value : Value}
    (hc : s.Computes sigs t (fun k => e.Yields sigs k.homes.find? k.answers) out) (hs : s.Settled)
    (hfits : t.Fits site) (hshows : s.Shows base env m)
    (heval : e.eval sigs meaning env m.events = some (value, events')) :
    ∃ m' v, asm.Reaches world (site.at s m) (site.at t m') ∧ out m' v ∧ value.Agrees v ∧
      m'.events = events' ∧ s.Shows base env m' ∧ t.Guards base m m' := by
  obtain ⟨homes, hlocated, hagrees⟩ := shown_iff.mp hshows.shown
  obtain ⟨code, hcode, hrun⟩ := hc
  have hsp : m.reg .sp = m.reg .fp - s.localSlots - s.stackDepth := by
    rw [hshows.sp, hshows.fp, hs.depth, Int.sub_zero]
  have hbelow : m.reg .sp ≤ base := by
    have hroom := hs.room
    have hused := hs.used
    rw [hshows.sp]
    omega
  have hmatch : s.Matches (Setting.ofMeaning hv hruns base homes) m := ⟨hlocated, hsp, hbelow⟩
  have hyields : e.Yields sigs homes.find? (meaning.answers sigs base) (m.above base)
      (fun v o => value.Agrees v ∧ o = ⟨(m.above base).mem, events'⟩) :=
    e.eval_yields hagrees heval fun v hagree => ⟨hagree, rfl⟩
  obtain ⟨m', hreach, ⟨v, ⟨hvalue, habove⟩, hout⟩, hkeep⟩ :=
    Assembly.reaches_of_after (hfits.at _ hcode) (hrun _ m _ hmatch hyields)
  have hmatch' := hmatch.keep hs.sound hkeep rfl rfl rfl
  have hsize : t.code.size = s.code.size + code.length := by
    simpa using congrArg List.length hcode
  have hend : site.at t m' = ⟨(site.start + s.code.size + code.length : Nat), m'⟩ := by
    rw [Site.at, hsize, Nat.add_assoc]
  have hmem (a : Int) (ha : base ≤ a) : m'.mem a = m.mem a :=
    congrFun (congrFun (congrArg Outside.mem habove) a) ha
  refine ⟨m', v, hend ▸ hreach, hout, hvalue, congrArg Outside.events habove, ?_, ?_⟩
  · exact ⟨hkeep.fp.trans hshows.fp, hkeep.sp.trans hshows.sp,
      shown_iff.mpr ⟨homes, hmatch'.located, hagrees⟩⟩
  · exact ⟨hkeep.fp, hkeep.saved, hmem⟩

theorem Expr.emit_reaches (hv : sigs.Valid) (hruns : meaning.Runs sigs asm world) {e : Expr}
    {wanted : RegisterClass} {rd : Register} {value : Value} (hs : s.Settled)
    (h : e.emit sigs wanted s = .ok rd t) (hfits : t.Fits site) (hshows : s.Shows base env m)
    (heval : e.eval sigs meaning env m.events = some (value, events')) :
    ∃ m', asm.Reaches world (site.at s m) (site.at t m') ∧ value.Agrees (m'.reg rd) ∧
      m'.events = events' ∧ s.Shows base env m' ∧ t.Guards base m m' := by
  have hc := (e.compiles hv.arity hs.sound (hs.ready e) h).2
  obtain ⟨m', v, hreach, rfl, hvalue, hevents, hshows', hguards⟩ := hc.reaches hv hruns hs hfits hshows heval
  exact ⟨m', hreach, hvalue, hevents, hshows', hguards⟩

theorem Frame.Fits.reaches_coded {i : Instruction} {m₁ : Machine} (h : (s.coded i).Fits site)
    (hi : i.After (asm.calls world) m (· = m₁)) :
    asm.Reaches world (site.at s m) (site.at (s.coded i) m₁) := by
  have hafter : After (asm.calls world) [i] m (· = m₁) := hi
  obtain ⟨_, hreach, rfl⟩ := Assembly.reaches_of_after (h.at (s := s) [.code i] (by simp)) hafter
  have hend (m' : Machine) : site.at (s.coded i) m' = ⟨(site.start + s.code.size + 1 : Nat), m'⟩ := by
    simp [Site.at, Nat.add_assoc]
  rw [hend]
  exact hreach

theorem Frame.Fits.reaches_labelled {l : String} (h : (s.labelled l).Fits site) (m : Machine) :
    asm.Reaches world (site.at s m) (site.at (s.labelled l) m) := by
  have hend : site.at (s.labelled l) m = ⟨(site.start + s.code.size : Nat) + 1, m⟩ := by
    simp [Site.at, Int.add_assoc]
  rw [hend]
  exact .single (Assembly.step_label (h.at (s := s) [.label l] (by simp)))

theorem Frame.Fits.reaches_jmp {l : String} {p : Nat} (h : (s.coded (.jmp l)).Fits site)
    (hp : asm.position? l = some p) (m : Machine) : asm.Reaches world (site.at s m) ⟨p, m⟩ :=
  .single (Assembly.step_jmp (h.at (s := s) [.code (.jmp l)] (by simp)) hp)

theorem Emit.branchUnless_fits {cond : Expr} {target : String} {u : Unit}
    (h : Emit.branchUnless sigs cond target s = .ok u t) (hfits : t.Fits site) : s.Fits site := by
  simp only [Emit.branchUnless, Emit.bind_ok, Emit.instruction_ok] at h
  obtain ⟨rs, s₁, hcond, _, _, rfl, hfree⟩ := h
  obtain ⟨_, rfl⟩ := Emit.free_ok hfree
  have hcoded : (s₁.coded (.jz rs target)).Fits site := ⟨hfits.1, hfits.2⟩
  exact hcoded.of_coded.of_appends (cond.emit_plain sigs _ hcond)

/-- A test goes on after it, or at its target if the condition is false. -/
theorem Emit.branchUnless_reaches (hv : sigs.Valid) (hruns : meaning.Runs sigs asm world) {cond : Expr}
    {target : String} {u : Unit} {p : Nat} {b : Bool} (hs : s.Settled)
    (h : Emit.branchUnless sigs cond target s = .ok u t) (hfits : t.Fits site)
    (hp : asm.position? target = some p) (hshows : s.Shows base env m)
    (htest : cond.test sigs meaning env m.events = some (b, events')) :
    ∃ m', m'.events = events' ∧ t.Guards base m m' ∧ s.Shows base env m' ∧
      asm.Reaches world (site.at s m) ⟨((if b then site.start + t.code.size else p : Nat) : Int), m'⟩ := by
  simp only [Emit.branchUnless, Emit.bind_ok, Emit.instruction_ok] at h
  obtain ⟨rs, s₁, hcond, _, _, rfl, hfree⟩ := h
  obtain ⟨_, rfl⟩ := Emit.free_ok hfree
  simp only [Expr.test, Run.bind_some, Run.lift_some, Run.pure_some] at htest
  obtain ⟨value, _, heval, word, _, ⟨rfl, rfl⟩, rfl, rfl⟩ := htest
  have hcoded : (s₁.coded (.jz rs target)).Fits site := ⟨hfits.1, hfits.2⟩
  obtain ⟨m', hreach, hagree, hevents, hshows', hguards⟩ :=
    cond.emit_reaches hv hruns hs hcond hcoded.of_coded hshows heval
  refine ⟨m', hevents, hguards.touch fun _ hr => hr, hshows', hreach.tail ?_⟩
  rw [Site.at, Assembly.step_jz (hcoded.at (s := s₁) [.code (.jz rs target)] (by simp)) hp,
    hagree word rfl, Int32.ofInt_toInt]
  by_cases hz : word = 0 <;> simp [hz, Int.add_assoc]

theorem Emit.forM_branchUnless_fits {cond : Option Expr} {target : String} {u : Unit}
    (h : (cond.forM fun cond => Emit.branchUnless sigs cond target) s = .ok u t) (hfits : t.Fits site) :
    s.Fits site := by
  cases cond with
  | none =>
    obtain ⟨_, rfl⟩ := Emit.pure_ok.mp h
    exact hfits
  | some cond => exact Emit.branchUnless_fits h hfits

theorem Emit.forM_branchUnless_reaches (hv : sigs.Valid) (hruns : meaning.Runs sigs asm world)
    {cond : Option Expr} {target : String} {u : Unit} {p : Nat} {b : Bool} (hs : s.Settled)
    (h : (cond.forM fun cond => Emit.branchUnless sigs cond target) s = .ok u t) (hfits : t.Fits site)
    (hp : asm.position? target = some p) (hshows : s.Shows base env m)
    (htest : cond.elim (pure true) (·.test sigs meaning env) m.events = some (b, events')) :
    ∃ m', m'.events = events' ∧ t.Guards base m m' ∧ s.Shows base env m' ∧
      asm.Reaches world (site.at s m) ⟨((if b then site.start + t.code.size else p : Nat) : Int), m'⟩ := by
  cases cond with
  | none =>
    obtain ⟨_, rfl⟩ := Emit.pure_ok.mp h
    obtain ⟨rfl, rfl⟩ := Run.pure_some.mp htest
    exact ⟨m, rfl, .refl _ _ _, hshows, .refl⟩
  | some cond => exact Emit.branchUnless_reaches hv hruns hs h hfits hp hshows htest

private theorem shows_declare {name : String} {value : Value} {v : Int} {m' : Machine} (hs : s.Settled)
    (hroom : s.usedSlots + 1 ≤ s.localSlots) (hshows : s.Shows base env m)
    (hscopes : t.scopes = s.scopes) (hlocal : t.localSlots = s.localSlots) (hv : value.Agrees v)
    (hm' : m' = m.write (m.reg .fp + -(s.usedSlots + 1)) v) :
    (t.within ⟨(name, .stack (-(s.usedSlots + 1)) false) :: t.scopes.inner, t.scopes.outer⟩).Shows base
      ((name, value) :: env) m' := by
  subst hm'
  have hused := hs.used
  have hfp := hshows.fp
  have hsp := hshows.sp
  have hentries : (t.within ⟨(name, .stack (-(s.usedSlots + 1)) false) :: t.scopes.inner,
      t.scopes.outer⟩).entries = (name, .stack (-(s.usedSlots + 1)) false) :: s.entries := by
    simp [Frame.entries, Scopes.layers, hscopes]
  refine ⟨hfp, by simp [hlocal, hsp], ?_⟩
  rw [hentries]
  refine .cons ⟨rfl, v, ⟨?_, ?_, by simp⟩, hv⟩ (shown_mono hshows.shown ?_)
  · simp only [Machine.reg_write]
    omega
  · simp only [Machine.reg_write]
    omega
  · intro entry hentry w hw
    refine hw.write _ _ fun offset hplace => ?_
    have hoffset := hs.offsets entry hentry offset false hplace
    omega

private theorem assign_reaches (hv : sigs.Valid) (hruns : meaning.Runs sigs asm world) {u : Unit}
    {name : String} {pos : Nat} {value : Expr} {v : Value} (hs : s.Settled)
    (h : Emit.assign sigs (.var name pos) value s = .ok u s') (hfits : s'.Fits site)
    (hshows : s.Shows base env m) (heval : value.eval sigs meaning env m.events = some (v, events'))
    (hassign : Env.assign name v env = some env') :
    ∃ m', asm.Reaches world (site.at s m) (site.at s' m') ∧ m'.events = events' ∧
      s'.Shows base env' m' ∧ s'.Guards base m m' := by
  simp only [Emit.assign, Emit.bind_ok, Emit.lookup_ok] at h
  obtain ⟨_, _, ⟨_, rfl⟩, rs, t, hvalue, storage, _, ⟨hlookup, rfl⟩, h⟩ := h
  obtain ⟨hg, _⟩ := Expr.emit_gains hv hs.idle hvalue
  have hentries : t.entries = s.entries := by rw [Frame.entries, hg.scopes]; rfl
  have hplace : s.entries.lookup name = some storage := by
    rw [← hentries, Frame.entries, ← Scopes.findSome?_lookup]
    exact hlookup
  have hstore (i : Instruction) (hi : (do Emit.instruction i; Emit.free rs) t = .ok u s')
      (hafter : ∀ m₁ : Machine, s.Shows base env m₁ → t.Guards base m m₁ → v.Agrees (m₁.reg rs) →
        ∃ m₂, i.After (asm.calls world) m₁ (· = m₂) ∧ m₂.events = m₁.events ∧
          s.Shows base env' m₂ ∧ t.Guards base m m₂) :
      ∃ m', asm.Reaches world (site.at s m) (site.at s' m') ∧ m'.events = events' ∧
        s'.Shows base env' m' ∧ s'.Guards base m m' := by
    simp only [Emit.bind_ok, Emit.instruction_ok] at hi
    obtain ⟨_, _, rfl, hfree⟩ := hi
    obtain ⟨_, rfl⟩ := Emit.free_ok hfree
    have hcoded : (t.coded i).Fits site := ⟨hfits.1, hfits.2⟩
    obtain ⟨m₁, hreach, hagree, hevents, hshows₁, hguards⟩ :=
      value.emit_reaches hv hruns hs hvalue hcoded.of_coded hshows heval
    obtain ⟨m₂, hi, hevents₂, hshows₂, hguards₂⟩ := hafter m₁ hshows₁ hguards hagree
    exact ⟨m₂, hreach.trans (hcoded.reaches_coded hi), hevents₂.trans hevents,
      hshows₂.congr hentries hg.localSlots, hguards₂.touch fun _ hr => hr⟩
  cases storage with
  | register rd =>
    have hcaller : rd ∈ RegisterClass.callerSaved.members :=
      hs.caller rd (Frame.mem_registers.mpr ⟨_, mem_of_lookup hplace, rfl⟩)
    obtain ⟨hsp, hfp, _⟩ := Register.callerSaved_ne hcaller
    refine hstore (.mov rd rs) h fun m₁ hshows₁ hguards hagree => ?_
    refine ⟨m₁.set rd (m₁.reg rs), rfl, rfl, ⟨?_, ?_, ?_⟩, hguards.set hcaller _⟩
    · simpa [hfp.symm] using hshows₁.fp
    · simpa [hsp.symm] using hshows₁.sp
    · refine shown_assign hshows₁.shown hs.places hplace hassign hagree (by simp [Storage.Holds]) ?_
      intro other w hne hw
      exact hw.set (RegisterClass.members_general hcaller) _ hne
  | stack offset array =>
    cases array with
    | true =>
      obtain ⟨_, _, hthrow, _⟩ := Emit.bind_ok.mp h
      exact (Emit.throw_ok.mp hthrow).elim
    | false =>
      refine hstore (.store rs .fp offset) h fun m₁ hshows₁ hguards hagree => ?_
      obtain ⟨_, hlo, hhi, _⟩ := shown_mem hshows₁.shown (mem_of_lookup hplace)
      refine ⟨m₁.write (m₁.reg .fp + offset) (m₁.reg rs), rfl, rfl, ⟨hshows₁.fp, hshows₁.sp, ?_⟩,
        hguards.write hhi _⟩
      refine shown_assign hshows₁.shown hs.places hplace hassign hagree ⟨hlo, hhi, by simp⟩ ?_
      intro other w hne hw
      refine hw.write _ _ fun offset' hother => ?_
      have hdiff : offset' ≠ offset := fun he => hne (by rw [hother, he])
      omega

theorem Simple.emit_reaches (hv : sigs.Valid) (hruns : meaning.Runs sigs asm world) (stmt : Simple)
    {u : Unit} (hs : s.Settled) (hroom : s.usedSlots + stmt.slots ≤ s.localSlots)
    (h : stmt.emit sigs s = .ok u s') (hfits : s'.Fits site) (hshows : s.Shows base env m)
    (hexec : stmt.exec sigs meaning env m.events = some (env', events')) :
    ∃ m', asm.Reaches world (site.at s m) (site.at s' m') ∧ m'.events = events' ∧
      s'.Shows base env' m' ∧ s'.Guards base m m' := by
  match stmt with
  | .var name none pos =>
    obtain ⟨hnew, rfl⟩ := Simple.emit_var_none_ok h
    obtain ⟨rfl, rfl⟩ := Run.pure_some.mp hexec
    refine ⟨m, .refl, rfl, ?_, .refl _ _ _⟩
    refine shows_declare (v := m.mem (m.reg .fp + -(s.usedSlots + 1))) hs hroom hshows rfl rfl
      (fun _ hword => by cases hword) ?_
    ext a
    · rfl
    · simp only [Machine.mem_write]
      split <;> simp_all
    · rfl
  | .var name (some value) pos =>
    obtain ⟨rs, t, hvalue, hnew, rfl⟩ := Simple.emit_var_some_ok h
    simp only [Simple.exec, Run.bind_some, Run.pure_some] at hexec
    obtain ⟨v, _, heval, rfl, rfl⟩ := hexec
    have hclaimed := hs.claimed Int.one_nonneg hroom
    obtain ⟨hg, _⟩ := Expr.emit_gains hv hclaimed.idle hvalue
    have hcoded : (t.coded (.store rs .fp (-(s.usedSlots + 1)))).Fits site := ⟨hfits.1, hfits.2⟩
    obtain ⟨m₁, hreach, hagree, hevents, hshows₁, hguards⟩ := value.emit_reaches hv hruns hclaimed hvalue
      hcoded.of_coded (hshows.congr rfl rfl) heval
    have hstore : asm.Reaches world (site.at t m₁) (site.at (t.coded (.store rs .fp (-(s.usedSlots + 1))))
        (m₁.write (m₁.reg .fp + -(s.usedSlots + 1)) (m₁.reg rs))) := hcoded.reaches_coded rfl
    have haddress : m₁.reg .fp + -(s.usedSlots + 1) < base := by
      have hused := hs.used
      rw [hshows₁.fp]
      omega
    refine ⟨_, hreach.trans hstore, hevents, ?_, (hguards.write haddress _).touch fun _ hr => hr⟩
    exact shows_declare hs hroom (hshows₁.congr rfl rfl) hg.scopes hg.localSlots hagree rfl
  | .array name length pos => exact (Run.failure_some.mp hexec).elim
  | .assign (.var name pos) value =>
    simp only [Simple.exec, Run.bind_some, Run.lift_some] at hexec
    obtain ⟨v, _, heval, hassign, rfl⟩ := hexec
    exact assign_reaches hv hruns hs h hfits hshows heval hassign
  | .assign (.element name index pos) value => exact (Run.failure_some.mp hexec).elim
  | .expr (.call name args pos) =>
    simp only [Simple.exec, Run.bind_some, Run.pure_some] at hexec
    obtain ⟨v, _, heval, rfl, rfl⟩ := hexec
    obtain ⟨hrests, hc⟩ := Emit.call_discards hv hs.idle h
    obtain ⟨m', _, hreach, _, _, hevents, hshows', hguards⟩ := hc.reaches hv hruns hs hfits hshows heval
    exact ⟨m', hreach, hevents, hshows'.congr (by rw [Frame.entries, hrests.scopes]; rfl) hrests.localSlots,
      hguards⟩
  | .expr (.num _) | .expr (.var _ _) | .expr (.index _ _ _) | .expr (.unary _ _)
  | .expr (.binary _ _ _) =>
    simp only [Simple.exec, Run.bind_some, Run.pure_some] at hexec
    obtain ⟨v, _, heval, rfl, rfl⟩ := hexec
    obtain ⟨rs, t, hvalue, hfree⟩ := Emit.bind_ok.mp h
    obtain ⟨_, rfl⟩ := Emit.free_ok hfree
    obtain ⟨hg, _⟩ := Expr.emit_gains hv hs.idle hvalue
    obtain ⟨m', hreach, _, hevents, hshows', hguards⟩ :=
      Expr.emit_reaches hv hruns hs hvalue ⟨hfits.1, hfits.2⟩ hshows heval
    exact ⟨m', hreach, hevents, hshows'.congr (by rw [Frame.entries, Frame.freed_scopes, hg.scopes]; rfl)
      hg.localSlots, hguards.touch fun _ hr => hr⟩

theorem Simple.forM_reaches (hv : sigs.Valid) (hruns : meaning.Runs sigs asm world) (stmt : Option Simple)
    {u : Unit} (hs : s.Settled) (hroom : s.usedSlots + (stmt.map Simple.slots).getD 0 ≤ s.localSlots)
    (h : stmt.forM (Simple.emit sigs) s = .ok u s') (hfits : s'.Fits site) (hshows : s.Shows base env m)
    (hexec : stmt.elim (pure env) (·.exec sigs meaning env) m.events = some (env', events')) :
    ∃ m', asm.Reaches world (site.at s m) (site.at s' m') ∧ m'.events = events' ∧
      s'.Shows base env' m' ∧ s'.Guards base m m' := by
  cases stmt with
  | none =>
    obtain ⟨_, rfl⟩ := Emit.pure_ok.mp h
    obtain ⟨rfl, rfl⟩ := Run.pure_some.mp hexec
    exact ⟨m, .refl, rfl, hshows, .refl _ _ _⟩
  | some stmt => exact stmt.emit_reaches hv hruns hs hroom h hfits hshows hexec

end Simulation

end WordLang
