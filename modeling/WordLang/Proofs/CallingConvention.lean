import WordLang.Proofs.FunctionCode
import WordLang.Proofs.Verdict

/-!
# The calling convention

A compiled function keeps the callee's side of the calling convention. Its body writes general registers only,
and callee-saved ones only if the prologue saves them. What the code between two block borders pushes it pops
again and nothing else, so the height of the stack at a line does not depend on the path to that line.
-/

namespace WordLang

def Instruction.destination? : Instruction → Option Register
  | .li rd _ | .mov rd _ | .addi rd _ _ | .binary _ rd _ _ | .not rd _ | .load rd _ _ | .pop rd => some rd
  | .store _ _ _ | .push _ | .jmp _ | .jz _ _ | .call _ | .ret => none

def Instruction.pushed? : Instruction → Option Register
  | .push r => some r
  | _ => none

def Instruction.popped? : Instruction → Option Register
  | .pop r => some r
  | _ => none

namespace Line

/-- The words that a line adds to the stack. -/
def rise : Line → Int
  | .code (.push _) => 1
  | .code (.pop _) => -1
  | _ => 0

def riseOf : List Line → Int
  | [] => 0
  | line :: lines => line.rise + riseOf lines

/-- Lines at which a path can leave or enter straight code: labels and jumps. -/
def IsBorder : Line → Prop
  | .label _ | .code (.jmp _) | .code (.jz _ _) => True
  | _ => False

private theorem isBorder_of_target {i : Instruction} {label : String} (h : i.target? = some label) :
    (code i).IsBorder := by
  cases i with
  | jmp | jz => trivial
  | _ => cases h

@[simp] theorem riseOf_nil : riseOf [] = 0 := rfl

@[simp] theorem riseOf_cons (line : Line) (lines : List Line) :
    riseOf (line :: lines) = line.rise + riseOf lines := rfl

@[simp] theorem riseOf_append (xs ys : List Line) : riseOf (xs ++ ys) = riseOf xs + riseOf ys := by
  induction xs with
  | nil => simp
  | cons line xs ih => rw [List.cons_append, riseOf_cons, riseOf_cons, ih, Int.add_assoc]

/-- Lines that pop what they push and nothing else, and have popped all of it at every border. -/
structure Level (lines : List Line) : Prop where
  whole : riseOf lines = 0
  above : ∀ k, 0 ≤ riseOf (lines.take k)
  borders : ∀ k line, lines[k]? = some line → line.IsBorder → riseOf (lines.take k) = 0

private theorem Level.nil : Level [] :=
  ⟨rfl, by simp, by simp⟩

private theorem Level.single {line : Line} (h : line.rise = 0) : Level [line] := by
  have htake (k : Nat) : riseOf ([line].take k) = 0 := by
    cases k <;> simp [h]
  exact ⟨htake 1, fun k => Int.le_of_eq (htake k).symm, fun k _ _ _ => htake k⟩

private theorem Level.append {xs ys : List Line} (h : Level xs) (h' : Level ys) : Level (xs ++ ys) := by
  refine ⟨by rw [riseOf_append, h.whole, h'.whole, Int.add_zero], ?_, ?_⟩
  · intro k
    rw [List.take_append, riseOf_append]
    exact Int.add_nonneg (h.above k) (h'.above _)
  · intro k line hline hborder
    rw [List.take_append, riseOf_append]
    by_cases hk : k < xs.length
    · rw [List.getElem?_append_left hk] at hline
      have hzero : k - xs.length = 0 := by omega
      rw [h.borders k line hline hborder, hzero, List.take_zero]
      rfl
    · rw [List.getElem?_append_right (Nat.le_of_not_lt hk)] at hline
      rw [h'.borders _ line hline hborder, List.take_of_length_le (Nat.le_of_not_lt hk), h.whole]
      rfl

private theorem Level.bracket {xs : List Line} (h : Level xs) (hstraight : ∀ line ∈ xs, ¬ line.IsBorder)
    (r r' : Register) : Level (.code (.push r) :: (xs ++ [.code (.pop r')])) := by
  refine ⟨by simp [h.whole, rise], ?_, ?_⟩
  · intro k
    cases k with
    | zero => simp
    | succ k =>
      have hinner := h.above k
      have hlast : -1 ≤ riseOf ([Line.code (.pop r')].take (k - xs.length)) := by
        cases k - xs.length <;> simp [rise]
      rw [List.take_succ_cons, riseOf_cons, List.take_append, riseOf_append]
      simp only [rise]
      omega
  · intro k line hline hborder
    have hmem := List.mem_of_getElem? hline
    rcases List.mem_cons.mp hmem with rfl | hmem
    · exact hborder.elim
    · rcases List.mem_append.mp hmem with hmem | hmem
      · exact absurd hborder (hstraight line hmem)
      · rw [List.mem_singleton.mp hmem] at hborder
        exact hborder.elim

end Line

/-- The registers that code may write: general ones, and callee-saved ones only if they were given out. -/
def Pool.Admits (pool : Pool) (rd : Register) : Prop :=
  rd ∈ Register.general ∧ (rd ∈ RegisterClass.calleeSaved.members → pool.touched.contains rd = true)

private theorem Pool.admits_callerSaved (pool : Pool) {r : Register} (h : r ∈ RegisterClass.callerSaved.members) :
    pool.Admits r := by
  have hdisjoint : ∀ r ∈ RegisterClass.callerSaved.members, r ∉ RegisterClass.calleeSaved.members := by
    decide
  exact ⟨RegisterClass.members_general h, fun hcallee => absurd hcallee (hdisjoint r h)⟩

/-- The second frame is the first with level code added that consists of lines of some kind and writes only
what it may. -/
structure Frame.Lays (kind : Line → Prop) (s s' : Frame) : Prop where
  code : ∃ new : List Line, s'.code.toList = s.code.toList ++ new ∧ Line.Level new ∧
    (∀ line ∈ new, kind line) ∧
    ∀ i rd, Line.code i ∈ new → i.destination? = some rd → s'.pool.Admits rd
  touched : ∀ q, s.pool.touched.contains q = true → s'.pool.touched.contains q = true

def Line.Straight (line : Line) : Prop :=
  ¬ line.IsBorder

namespace Frame

variable {kind kind' : Line → Prop} {s s₁ s₂ t : Frame}

private theorem Gains.admits {wanted : RegisterClass} {rd : Register} (h : s.Gains wanted rd t) :
    t.pool.Admits rd :=
  ⟨h.general, fun _ => h.taken⟩

namespace Lays

private theorem same (hcode : t.code = s.code)
    (htouched : ∀ q, s.pool.touched.contains q = true → t.pool.touched.contains q = true) :
    s.Lays kind t :=
  ⟨⟨[], by simp [hcode], .nil, by simp, by simp⟩, htouched⟩

private theorem admits {rd : Register} (h : s.Lays kind t) (hrd : s.pool.Admits rd) : t.pool.Admits rd :=
  ⟨hrd.1, fun hcallee => h.touched rd (hrd.2 hcallee)⟩

protected theorem trans (h : s.Lays kind s₁) (h' : s₁.Lays kind s₂) : s.Lays kind s₂ := by
  obtain ⟨new, hnew, hlevel, hkind, hadmits⟩ := h.code
  obtain ⟨new', hnew', hlevel', hkind', hadmits'⟩ := h'.code
  refine ⟨⟨new ++ new', by rw [hnew', hnew, List.append_assoc], hlevel.append hlevel', ?_, ?_⟩,
    fun q hq => h'.touched q (h.touched q hq)⟩
  · intro line hline
    rcases List.mem_append.mp hline with hline | hline
    · exact hkind line hline
    · exact hkind' line hline
  · intro i rd hi hrd
    rcases List.mem_append.mp hi with hi | hi
    · exact h'.admits (hadmits i rd hi hrd)
    · exact hadmits' i rd hi hrd

private theorem mono (h : s.Lays kind t) (hkind : ∀ line, kind line → kind' line) : s.Lays kind' t := by
  obtain ⟨new, hnew, hlevel, hall, hadmits⟩ := h.code
  exact ⟨⟨new, hnew, hlevel, fun line hline => hkind line (hall line hline), hadmits⟩, h.touched⟩

private theorem taken (h : s.Lays kind t) (r : Register) : s.Lays kind (t.taken r) :=
  h.trans (same rfl (by simp +contextual))

private theorem freed (h : s.Lays kind t) (r : Register) : s.Lays kind (t.freed r) :=
  h.trans (same rfl fun _ hq => hq)

private theorem line (h : s.Lays kind t) {line : Line} (hkind : kind line) (hrise : line.rise = 0)
    (hadmits : ∀ i rd, line = .code i → i.destination? = some rd → t.pool.Admits rd) :
    s.Lays kind { t with code := t.code.push line } := by
  refine h.trans ⟨⟨[line], by simp, .single hrise, by simpa using hkind, ?_⟩, fun _ hq => hq⟩
  intro i rd hi hrd
  exact hadmits i rd (List.mem_singleton.mp hi).symm hrd

private theorem writes (h : s.Lays kind t) {i : Instruction} {rd : Register} (hkind : kind (.code i))
    (hrise : (Line.code i).rise = 0) (hrd : i.destination? = some rd) (hadmits : t.pool.Admits rd) :
    s.Lays kind (t.coded i) := by
  apply h.line hkind hrise
  intro j q hj hq
  cases hj
  rw [hrd] at hq
  cases hq
  exact hadmits

private theorem reads (h : s.Lays kind t) {i : Instruction} (hkind : kind (.code i))
    (hrise : (Line.code i).rise = 0) (hnone : i.destination? = none) : s.Lays kind (t.coded i) := by
  apply h.line hkind hrise
  intro j q hj hq
  cases hj
  rw [hnone] at hq
  cases hq

protected theorem refl (s : Frame) : s.Lays kind s :=
  same rfl fun _ hq => hq

private theorem bracket (h : s₁.Lays Line.Straight s₂) (r r' : Register)
    (hpush : s₁.code = s.code.push (.code (.push r))) (hpop : t.code = s₂.code.push (.code (.pop r')))
    (hfirst : ∀ q, s.pool.touched.contains q = true → s₁.pool.touched.contains q = true)
    (hlast : ∀ q, s₂.pool.touched.contains q = true → t.pool.touched.contains q = true)
    (hr' : t.pool.Admits r') : s.Lays Line.Straight t := by
  obtain ⟨new, hnew, hlevel, hstraight, hadmits⟩ := h.code
  refine ⟨⟨.code (.push r) :: (new ++ [.code (.pop r')]), by simp [hpop, hnew, hpush],
    hlevel.bracket hstraight r r', ?_, ?_⟩, fun q hq => hlast q (h.touched q (hfirst q hq))⟩
  · intro line hline
    rcases List.mem_cons.mp hline with rfl | hline
    · exact id
    · rcases List.mem_append.mp hline with hline | hline
      · exact hstraight line hline
      · rw [List.mem_singleton.mp hline]
        exact id
  · intro i rd hi hrd
    rcases List.mem_cons.mp hi with heq | hi
    · cases heq
      cases hrd
    · rcases List.mem_append.mp hi with hi | hi
      · have hold := hadmits i rd hi hrd
        exact ⟨hold.1, fun hcallee => hlast rd (hold.2 hcallee)⟩
      · cases List.mem_singleton.mp hi
        cases hrd
        exact hr'

end Lays

end Frame

/-! ## Expressions -/

variable {sigs : Signatures}

/-- The code of an expression is straight and level, in every frame. -/
def Expr.LaysCode (sigs : Signatures) (e : Expr) : Prop :=
  ∀ ⦃s s' : Frame⦄ ⦃wanted : RegisterClass⦄ ⦃rd : Register⦄, s.Sound → s.Ready e →
    e.emit sigs wanted s = .ok rd s' → s.Lays Line.Straight s'

private theorem Storage.fetch_destination (storage : Storage) (rd : Register) :
    (storage.fetch rd).destination? = some rd ∧ (Line.code (storage.fetch rd)).rise = 0 ∧
      (Line.code (storage.fetch rd)).Straight := by
  cases storage with
  | register r => exact ⟨rfl, rfl, id⟩
  | stack offset array => cases array <;> exact ⟨rfl, rfl, id⟩

namespace Emit

variable {s s' t : Frame} {wanted : RegisterClass} {rd : Register}

private theorem address_lays (hv : sigs.Valid) {name : String} {pos : Nat} {i : Expr} (hi : i.LaysCode sigs)
    (hs : s.Sound) (hready : s.Ready i)
    (h : address name pos wanted (i.emit sigs wanted) s = .ok rd s') : s.Lays Line.Straight s' := by
  have hgains := (address_ok (i.compiles hv.arity) hs hready h).1
  simp only [address, bind_ok, lookup_ok, instruction_ok, pure_ok] at h
  obtain ⟨_, _, ⟨_, rfl⟩, rs, s₁, hindex, storage, _, ⟨_, rfl⟩, _, _, halloc, _, _, rfl, _, _, rfl, _, _, hfree,
    rfl, rfl⟩ := h
  obtain ⟨_, _, rfl⟩ := allocate_ok halloc
  obtain ⟨_, rfl⟩ := free_ok hfree
  obtain ⟨hdest, hrise, hstraight⟩ := storage.fetch_destination rd
  have hfetched := ((hi hs hready hindex).taken rd).writes hstraight hrise hdest hgains.admits
  exact (hfetched.writes (i := .binary .add rd rd rs) id rfl rfl hgains.admits).freed rs

private theorem unary_lays {op : UnaryOp} {u : Unit} (h : unary op rd s = .ok u s') (hrd : s.pool.Admits rd) :
    s.Lays Line.Straight s' := by
  cases op with
  | neg =>
    simp only [unary, withZero, bind_ok, instruction_ok] at h
    obtain ⟨zero, _, halloc, _, _, rfl, _, _, rfl, hfree⟩ := h
    obtain ⟨hmember, hunheld, rfl⟩ := allocate_ok halloc
    obtain ⟨_, rfl⟩ := free_ok hfree
    have hzero : s.Lays Line.Straight (s.taken zero) := (Frame.Lays.refl s).taken zero
    have hloaded := hzero.writes (i := .li zero 0) id rfl rfl (Pool.admits_callerSaved _ hmember)
    exact (hloaded.writes (i := .binary .sub rd zero rd) id rfl rfl (hloaded.admits hrd)).freed zero
  | not =>
    rw [instruction_ok.mp h]
    exact (Frame.Lays.refl s).writes id rfl rfl hrd

private theorem binary_lays {op : BinaryOp} {found : RegisterClass} {rs1 rs2 : Register}
    (h : binary op wanted found rs1 rs2 s = .ok rd s') (h1 : s.pool.Admits rs1) (h2 : s.pool.Admits rs2) :
    s.Lays Line.Straight s' := by
  rw [binary_eq] at h
  obtain ⟨_, t, hnormal, h⟩ := bind_ok.mp h
  have hfirst : s.Lays Line.Straight t := by
    by_cases hop : op.isLogical = true
    · rw [if_pos hop] at hnormal
      simp only [withZero, bind_ok, instruction_ok] at hnormal
      obtain ⟨zero, _, halloc, _, _, rfl, _, _, ⟨_, _, rfl, rfl⟩, hfree⟩ := hnormal
      obtain ⟨hmember, _, rfl⟩ := allocate_ok halloc
      obtain ⟨_, rfl⟩ := free_ok hfree
      have hzero : s.Lays Line.Straight (s.taken zero) := (Frame.Lays.refl s).taken zero
      have hloaded := hzero.writes (i := .li zero 0) id rfl rfl (Pool.admits_callerSaved _ hmember)
      have hleft := hloaded.writes (i := .binary .ne rs1 rs1 zero) id rfl rfl (hloaded.admits h1)
      exact (hleft.writes (i := .binary .ne rs2 rs2 zero) id rfl rfl (hleft.admits h2)).freed zero
    · rw [if_neg hop, pure_ok] at hnormal
      rw [hnormal.2]
      exact .refl s
  obtain ⟨r, t₁, halloc, h⟩ := bind_ok.mp h
  simp only [bind_ok, instruction_ok, pure_ok] at h
  obtain ⟨_, _, rfl, _, _, hfree, _, t₂, hlast, rfl, rfl⟩ := h
  obtain ⟨_, rfl⟩ := free_ok hfree
  have hsecond : s.Lays Line.Straight t₁ ∧ t₁.pool.Admits rd := by
    by_cases hfound : found = wanted
    · rw [if_pos hfound, pure_ok] at halloc
      rw [halloc.1, halloc.2]
      exact ⟨hfirst, hfirst.admits h1⟩
    · rw [if_neg hfound] at halloc
      obtain ⟨hmember, hunheld, rfl⟩ := allocate_ok halloc
      exact ⟨hfirst.taken rd, (Frame.Gains.of_take hmember hunheld).admits⟩
  have hdone := (hsecond.1.writes (i := .binary op.operation rd rs1 rs2) id rfl rfl hsecond.2).freed rs2
  by_cases hrd : rd ≠ rs1
  · rw [if_pos hrd] at hlast
    obtain ⟨_, rfl⟩ := free_ok hlast
    exact hdone.freed rs1
  · rw [if_neg hrd, pure_ok] at hlast
    rw [hlast.2]
    exact hdone

private theorem receive_lays (h : receive wanted s = .ok rd s') : s.Lays Line.Straight s' := by
  simp only [receive, get_bind_ok] at h
  split at h
  · simp only [bind_ok, pure_ok] at h
    obtain ⟨_, _, hreserve, rfl, rfl⟩ := h
    obtain ⟨_, _, rfl⟩ := reserve_ok hreserve
    exact (Frame.Lays.refl s).taken _
  · simp only [bind_ok, instruction_ok, pure_ok] at h
    obtain ⟨r, _, halloc, _, _, rfl, rfl, rfl⟩ := h
    obtain ⟨hmember, hunheld, rfl⟩ := allocate_ok halloc
    exact ((Frame.Lays.refl s).taken rd).writes (i := .mov rd Register.result) id rfl rfl
      (Frame.Gains.of_take hmember hunheld).admits

/-- Arguments that are pushed and then popped into registers: each is popped after those that follow it. -/
theorem stages_lays (hv : sigs.Valid) {args : List Expr} {rs : List Register}
    (hlength : args.length = rs.length) (hrs : ∀ r ∈ rs, r ∈ RegisterClass.callerSaved.members)
    (hargs : ∀ e ∈ args, e.LaysCode sigs) {u : Unit} (hs : s.Sound) (hready : ∀ e ∈ args, s.Ready e)
    (h : ((args.map (·.emit sigs .callerSaved)).forM stage >>= fun _ =>
      rs.reverse.forM fun r => do
        reserve r
        pop r) s = .ok u s') :
    s.Lays Line.Straight s' := by
  induction args generalizing s s' rs with
  | nil =>
    obtain rfl : rs = [] := List.length_eq_zero_iff.mp hlength.symm
    rw [(pure_ok.mp h).2]
    exact .refl s
  | cons e es ih =>
    obtain ⟨r, rs, rfl⟩ := List.exists_cons_of_length_eq_add_one hlength.symm
    simp only [List.map_cons, List.reverse_cons, List.forM_eq_forM, List.forM_append, List.forM_cons,
      List.forM_nil, bind_ok, pop_ok, pure_ok] at h
    obtain ⟨_, _, ⟨_, t, hstage, hstages⟩, _, v, hpops, _, _, ⟨_, _, hreserve, _, rfl⟩, _, rfl⟩ := h
    obtain ⟨_, _, rfl⟩ := reserve_ok hreserve
    have he := hready e List.mem_cons_self
    obtain ⟨⟨hscopes, _⟩, hholds, _⟩ := stage_ok (e.compiles hv.arity) hs he hstage
    have hrest : t.Lays Line.Straight v := by
      apply ih (Nat.succ.inj hlength) (fun q hq => hrs q (List.mem_cons_of_mem _ hq))
        (fun e' he' => hargs e' (List.mem_cons_of_mem _ he')) (hs.congr hscopes hholds) _
        (bind_ok.mpr ⟨(), _, hstages, hpops⟩)
      intro e' he'
      exact (hready e' (List.mem_cons_of_mem _ he')).congr hscopes hholds
    simp only [stage, bind_ok, push_ok] at hstage
    obtain ⟨rs', s₁, hemit, _, _, ⟨_, _, rfl⟩, hfree⟩ := hstage
    obtain ⟨_, rfl⟩ := free_ok hfree
    have hfirst := hargs e List.mem_cons_self hs he hemit
    refine hfirst.trans (hrest.bracket rs' r rfl rfl (fun _ hq => hq) ?_ ?_)
    · simp +contextual
    · exact Pool.admits_callerSaved _ (hrs r List.mem_cons_self)

private theorem pass_lays (hv : sigs.Valid) {args : List Expr} (hlength : args.length ≤ Register.arguments.length)
    (hargs : ∀ e ∈ args, e.LaysCode sigs) {u : Unit} (hs : s.Sound) (hready : ∀ e ∈ args, s.Ready e)
    (h : pass (Expr.emitAll sigs args) s = .ok u s') : s.Lays Line.Straight s' := by
  rw [Expr.emitAll_eq] at h
  match args, hargs, hready with
  | [], _, _ =>
    rw [(pure_ok.mp h).2]
    exact .refl s
  | [e], hargs, hready =>
    rw [List.map_cons, List.map_nil, pass] at h
    obtain ⟨rs, s₁, hemit, h⟩ := bind_ok.mp h
    have hfirst := hargs e List.mem_cons_self hs (hready e List.mem_cons_self) hemit
    by_cases hrs : rs ≠ .r0
    · rw [if_pos hrs] at h
      simp only [bind_ok, instruction_ok] at h
      obtain ⟨_, _, hreserve, _, _, rfl, hfree⟩ := h
      obtain ⟨_, _, rfl⟩ := reserve_ok hreserve
      obtain ⟨_, rfl⟩ := free_ok hfree
      have hmoved := (hfirst.taken .r0).writes (i := .mov .r0 rs) id rfl rfl
        (Pool.admits_callerSaved _ (by decide))
      exact hmoved.freed rs
    · rw [if_neg hrs, pure_ok] at h
      rw [h.2]
      exact hfirst
  | e :: e' :: es, hargs, hready =>
    have htake : (e :: e' :: es).length = (Register.arguments.take (e :: e' :: es).length).length := by
      rw [List.length_take]
      omega
    apply stages_lays (u := u) hv htake (Register.arguments_callerSaved _) hargs hs hready
    simpa [pass] using h

end Emit

private theorem Frame.Spilled.lays {rs : List Register} {spills : List Spill} {s t u s' : Frame}
    (h : s.Spilled rs spills t) (hrs : ∀ r ∈ rs, r ∈ RegisterClass.callerSaved.members)
    (hinner : t.Lays Line.Straight u)
    (hcode : s'.code = u.code ++ (spills.reverse.map fun sp => Line.code (.pop sp.register)).toArray)
    (htouched : ∀ q, u.pool.touched.contains q = true → s'.pool.touched.contains q = true) :
    s.Lays Line.Straight s' := by
  induction h generalizing s' with
  | nil s => exact hinner.trans (.same (by simpa using hcode) htouched)
  | skip _ _ ih => exact ih (fun r hr => hrs r (List.mem_cons_of_mem _ hr)) hinner hcode htouched
  | @move r rs s t spills binding hr hb hrest ih =>
    have hinside : (s.spilled r).Lays Line.Straight { u with
        code := u.code ++ (spills.reverse.map fun sp => Line.code (.pop sp.register)).toArray } :=
      ih (fun q hq => hrs q (List.mem_cons_of_mem _ hq)) hinner rfl fun _ hq => hq
    refine hinside.bracket r r rfl ?_ (fun _ hq => hq) htouched ?_
    · simp [hcode]
    · exact Pool.admits_callerSaved _ (hrs r List.mem_cons_self)

private theorem Emit.call_lays {α : Type} (hv : sigs.Valid) {name : String} {args : List Expr} {pos : Nat}
    (hargs : ∀ e ∈ args, e.LaysCode sigs) {finish : Emit α} {a : α} {s s' : Frame} (hs : s.Sound)
    (hready : ∀ r ∈ RegisterClass.callerSaved.members, s.pool.holds r = true →
      r ∈ Scopes.registers s.scopes.layers)
    (hfinish : ∀ t t', finish t = .ok a t' → t.Lays Line.Straight t' ∧ t'.scopes = t.scopes)
    (h : Emit.call sigs name pos (Expr.emitAll sigs args) finish s = .ok a s') :
    s.Lays Line.Straight s' := by
  obtain ⟨sig, hsig, spills, s₁, s₂, pool, t', ⟨_, hlength⟩, ⟨_, hspilled⟩, ⟨hpass, _⟩, hlast, _, htouched,
    hrestored⟩ := Emit.call_frames hv.arity (fun e _ => e.compiles hv.arity) hs hready h
  have hfree := hspilled.unheld hready
  have hpassed := Emit.pass_lays hv (hlength ▸ hv.arity sig hsig) hargs (hspilled.sound hs)
    (fun e _ _ r hr hheld => absurd hheld (by simp [hfree r hr])) hpass
  have hcalled := hpassed.reads (i := .call sig.callee) id rfl rfl
  have hpooled : s₁.Lays Line.Straight ((s₂.coded (.call sig.callee)).pooled pool) :=
    hcalled.trans (.same rfl htouched)
  obtain ⟨hdone, hscopes⟩ := hfinish _ _ hlast
  obtain rfl := hrestored hscopes
  exact hspilled.lays (fun r hr => hr) (hpooled.trans hdone) rfl fun _ hq => hq

private theorem Expr.emit_lays (hv : sigs.Valid) (e : Expr) : e.LaysCode sigs := by
  induction e using Expr.induction with
  | num value =>
    intro s s' wanted rd hs hready h
    have hg := ((Expr.num value).compiles hv.arity hs hready h).1
    simp only [Expr.emit, Emit.bind_ok, Emit.instruction_ok, Emit.pure_ok] at h
    obtain ⟨r, _, halloc, _, _, rfl, rfl, rfl⟩ := h
    obtain ⟨_, _, rfl⟩ := Emit.allocate_ok halloc
    exact ((Frame.Lays.refl s).taken rd).writes (i := .li rd value) id rfl rfl hg.admits
  | var name pos =>
    intro s s' wanted rd hs hready h
    have hg := ((Expr.var name pos).compiles hv.arity hs hready h).1
    simp only [Expr.emit, Emit.bind_ok, Emit.lookup_ok, Emit.instruction_ok, Emit.pure_ok] at h
    obtain ⟨storage, _, ⟨_, rfl⟩, r, _, halloc, _, _, rfl, rfl, rfl⟩ := h
    obtain ⟨_, _, rfl⟩ := Emit.allocate_ok halloc
    obtain ⟨hdest, hrise, hstraight⟩ := storage.fetch_destination rd
    exact ((Frame.Lays.refl s).taken rd).writes hstraight hrise hdest hg.admits
  | index name i pos ih =>
    intro s s' wanted rd hs hready h
    simp only [Expr.emit, Emit.bind_ok, Emit.instruction_ok, Emit.pure_ok] at h
    obtain ⟨r, t, haddress, _, _, rfl, rfl, rfl⟩ := h
    have hg := (Emit.address_ok (i.compiles hv.arity) hs hready haddress).1
    exact (Emit.address_lays hv ih hs hready haddress).writes (i := .load rd rd 0) id rfl rfl hg.admits
  | call name args pos ih =>
    intro s s' wanted rd hs hready h
    rw [Expr.emit] at h
    apply Emit.call_lays hv ih hs (hready rfl) _ h
    intro t t' hreceive
    have hreceived : t.Gains wanted rd t' ∧ t.Finishes sigs t' fun m v => m.reg rd = v :=
      Emit.receive_ok hreceive
    exact ⟨Emit.receive_lays hreceive, hreceived.1.scopes⟩
  | unary op operand ih =>
    intro s s' wanted rd hs hready h
    simp only [Expr.emit, Emit.bind_ok, Emit.pure_ok] at h
    obtain ⟨r, s₁, hoperand, _, t, hop, rfl, rfl⟩ := h
    have hg := (operand.compiles hv.arity hs hready hoperand).1
    exact (ih hs hready hoperand).trans (Emit.unary_lays hop hg.admits)
  | binary op lhs rhs ihl ihr =>
    intro s s' wanted rd hs hready h
    have hl : s.Ready lhs := fun hcall => hready (by simp [Expr.hasCall, hcall])
    have hr : s.Ready rhs := fun hcall => hready (by simp [Expr.hasCall, hcall])
    rw [Expr.emit] at h
    obtain ⟨rs1, s₁, hlhs, h⟩ := Emit.bind_ok.mp h
    obtain ⟨rs2, s₂, hrhs, h⟩ := Emit.bind_ok.mp h
    have hg1 := (lhs.compiles hv.arity hs hl hlhs).1
    have hg2 := (rhs.compiles hv.arity (hg1.sound hs) (hg1.ready hr) hrhs).1
    have hsecond := ihr (hg1.sound hs) (hg1.ready hr) hrhs
    exact ((ihl hs hl hlhs).trans hsecond).trans
      (Emit.binary_lays h (hsecond.admits hg1.admits) hg2.admits)

/-! ## Statements -/

def Line.Any (_ : Line) : Prop :=
  True

namespace Frame.Lays

variable {kind : Line → Prop} {s t : Frame}

private theorem any (h : s.Lays Line.Straight t) : s.Lays Line.Any t :=
  h.mono fun _ _ => trivial

private theorem labelled (h : s.Lays Line.Any t) (label : String) : s.Lays Line.Any (t.labelled label) := by
  apply h.line trivial rfl
  intro i rd hi
  cases hi

private theorem jumped (h : s.Lays Line.Any t) (target : String) : s.Lays Line.Any (t.coded (.jmp target)) :=
  h.reads trivial rfl rfl

private theorem rescope {scopes : Scopes} (h : (s.within scopes).Lays kind t) (scopes' : Scopes) :
    s.Lays kind (t.within scopes') :=
  ⟨h.code, h.touched⟩

end Frame.Lays

variable {s s' t : Frame} {u : Unit}

private theorem Expr.emit_lays_settled (hv : sigs.Valid) {e : Expr} {wanted : RegisterClass} {rd : Register}
    (hs : s.Settled) (h : e.emit sigs wanted s = .ok rd t) : s.Lays Line.Straight t :=
  e.emit_lays hv hs.sound (hs.ready e) h

private theorem Emit.branchUnless_lays (hv : sigs.Valid) {cond : Expr} {target : String} (hs : s.Settled)
    (h : Emit.branchUnless sigs cond target s = .ok u s') : s.Lays Line.Any s' := by
  simp only [Emit.branchUnless, Emit.bind_ok, Emit.instruction_ok] at h
  obtain ⟨rs, t, hcond, _, _, rfl, hfree⟩ := h
  obtain ⟨_, rfl⟩ := Emit.free_ok hfree
  have htest := (Expr.emit_lays_settled hv hs hcond).any
  exact (htest.reads (i := .jz rs target) trivial rfl rfl).freed rs

private theorem Emit.forM_branchUnless_lays (hv : sigs.Valid) {cond : Option Expr} {target : String} (hs : s.Settled)
    (h : (cond.forM fun cond => Emit.branchUnless sigs cond target) s = .ok u s') : s.Lays Line.Any s' := by
  cases cond with
  | none =>
    rw [(Emit.pure_ok.mp h).2]
    exact .refl s
  | some cond => exact Emit.branchUnless_lays hv hs h

private theorem Frame.Settled.admits (hs : s.Settled) {name : String} {rd : Register}
    (h : (s.scopes.layers.findSome? fun scope => scope.lookup name) = some (.register rd)) (pool : Pool) :
    pool.Admits rd := by
  rw [Scopes.findSome?_lookup] at h
  obtain ⟨before, after, hentries, _⟩ := List.lookup_eq_some_iff.mp h
  apply Pool.admits_callerSaved
  apply hs.caller
  apply Scopes.mem_registers_flatten.mpr
  exact ⟨(name, .register rd), by rw [hentries]; exact List.mem_append_right _ List.mem_cons_self, rfl⟩

private theorem Emit.assign_lays (hv : sigs.Valid) {target : Place} {value : Expr} (hs : s.Settled)
    (h : Emit.assign sigs target value s = .ok u s') : s.Lays Line.Straight s' := by
  cases target with
  | var name pos =>
    simp only [Emit.assign, Emit.bind_ok, Emit.lookup_ok] at h
    obtain ⟨_, _, ⟨_, rfl⟩, rs, t, hvalue, storage, _, ⟨hlookup, rfl⟩, h⟩ := h
    have hlays := Expr.emit_lays_settled hv hs hvalue
    have hg := (Expr.emit_gains hv hs.idle hvalue).1
    cases storage with
    | register rd =>
      obtain ⟨_, _, hmov, hfree⟩ := Emit.bind_ok.mp h
      obtain rfl := Emit.instruction_ok.mp hmov
      obtain ⟨_, rfl⟩ := Emit.free_ok hfree
      rw [hg.scopes] at hlookup
      exact (hlays.writes (i := .mov rd rs) id rfl rfl (hs.admits hlookup _)).freed rs
    | stack offset array =>
      cases array with
      | true =>
        obtain ⟨_, _, hthrow, _⟩ := Emit.bind_ok.mp h
        exact (Emit.throw_ok.mp hthrow).elim
      | false =>
        obtain ⟨_, _, hstore, hfree⟩ := Emit.bind_ok.mp h
        obtain rfl := Emit.instruction_ok.mp hstore
        obtain ⟨_, rfl⟩ := Emit.free_ok hfree
        exact (hlays.reads (i := .store rs .fp offset) id rfl rfl).freed rs
  | element name index pos =>
    simp only [Emit.assign, Emit.bind_ok, Emit.instruction_ok] at h
    obtain ⟨element, s₁, haddress, rs, s₂, hvalue, _, _, rfl, _, _, hfree, hfree'⟩ := h
    obtain ⟨_, rfl⟩ := Emit.free_ok hfree
    obtain ⟨_, rfl⟩ := Emit.free_ok hfree'
    have hg := (Emit.address_ok (index.compiles hv.arity) hs.sound (hs.ready index) haddress).1
    have hfirst := Emit.address_lays hv (index.emit_lays hv) hs.sound (hs.ready index) haddress
    have hsecond := value.emit_lays hv (hg.sound hs.sound) (hg.ready (hs.ready value)) hvalue
    have hstored := (hfirst.trans hsecond).reads (i := .store rs element 0) id rfl rfl
    exact (hstored.freed rs).freed element

private theorem Simple.emit_lays (hv : sigs.Valid) (stmt : Simple) (hs : s.Settled)
    (hroom : s.usedSlots + stmt.slots ≤ s.localSlots) (h : stmt.emit sigs s = .ok u s') :
    s.Lays Line.Straight s' := by
  match stmt with
  | .var name none pos =>
    obtain ⟨_, rfl⟩ := Simple.emit_var_none_ok h
    exact .same rfl fun _ hq => hq
  | .var name (some value) pos =>
    obtain ⟨rs, t, hvalue, _, rfl⟩ := Simple.emit_var_some_ok h
    have hclaimed : s.Lays Line.Straight (s.claimed 1) := .same rfl fun _ hq => hq
    have hvalued := hclaimed.trans (Expr.emit_lays_settled hv (hs.claimed Int.one_nonneg hroom) hvalue)
    have hstored := (hvalued.reads (i := .store rs .fp (-(s.usedSlots + 1))) id rfl rfl).freed rs
    exact hstored.trans (.same rfl fun _ hq => hq)
  | .array name length pos =>
    obtain ⟨_, rfl⟩ := Simple.emit_array_ok h
    exact .same rfl fun _ hq => hq
  | .assign target value => exact Emit.assign_lays hv hs h
  | .expr (.call name args pos) =>
    apply Emit.call_lays hv (fun e _ => e.emit_lays hv) hs.sound (fun r _ hr => hs.held r hr) _ h
    intro t t' hfinish
    rw [(Emit.pure_ok.mp hfinish).2]
    exact ⟨.refl t, rfl⟩
  | .expr (.num _) | .expr (.var _ _) | .expr (.index _ _ _) | .expr (.unary _ _)
  | .expr (.binary _ _ _) =>
    obtain ⟨rs, t, hvalue, hfree⟩ := Emit.bind_ok.mp h
    obtain ⟨_, rfl⟩ := Emit.free_ok hfree
    exact (Expr.emit_lays_settled hv hs hvalue).freed rs

private theorem Simple.forM_lays (hv : sigs.Valid) (stmt : Option Simple) (hs : s.Settled)
    (hroom : s.usedSlots + (stmt.map Simple.slots).getD 0 ≤ s.localSlots)
    (h : stmt.forM (Simple.emit sigs) s = .ok u s') : s.Lays Line.Any s' := by
  cases stmt with
  | none =>
    rw [(Emit.pure_ok.mp h).2]
    exact .refl s
  | some stmt => exact (stmt.emit_lays hv hs hroom h).any

private theorem Emit.returnLabel_lays {label : String} (h : Emit.returnLabel s = .ok label s') :
    s.Lays Line.Any s' := by
  rcases Emit.returnLabel_ok h with ⟨_, rfl⟩ | ⟨_, _, rfl⟩
  · exact .refl s'
  · exact .same rfl fun _ hq => hq

private theorem Stmt.ret_lays (hv : sigs.Valid) {value : Option Expr} (hs : s.Settled)
    (h : (Stmt.ret value).emit sigs s = .ok u s') : s.Lays Line.Any s' := by
  cases value with
  | none =>
    obtain ⟨label, t, hl, rfl⟩ := Stmt.emit_ret_none_ok h
    exact (Emit.returnLabel_lays hl).jumped label
  | some value =>
    obtain ⟨rs, t, label, t', hvalue, _, hl, rfl⟩ := Stmt.emit_ret_some_ok h
    have hlays := (Expr.emit_lays_settled hv hs hvalue).any
    have hmoved : s.Lays Line.Any (if rs = Register.result then t else t.coded (.mov Register.result rs)) := by
      split
      · exact hlays
      · exact hlays.writes (i := .mov Register.result rs) trivial rfl rfl
          (Pool.admits_callerSaved _ (by decide))
    exact ((hmoved.freed rs).trans (Emit.returnLabel_lays hl)).jumped label

private theorem Stmt.emit_lays (hv : sigs.Valid) :
    (∀ (stmt : Stmt) (s s' : Frame), s.Settled → s.usedSlots + stmt.slots ≤ s.localSlots →
      stmt.emit sigs s = .ok () s' → s.Lays Line.Any s') ∧
    ∀ (body : List Stmt) (s s' : Frame), s.Settled → s.usedSlots + Stmt.slotsOf body ≤ s.localSlots →
      Stmt.emitAll sigs body s = .ok () s' → s.Lays Line.Any s' := by
  have hnumber (s : Frame) (kind : String) : s.Lays Line.Any (s.numbered (s.labels.fresh kind).2) :=
    .same rfl fun _ hq => hq
  apply Stmt.induction
  case simple =>
    intro stmt s s' hs hroom h
    exact (stmt.emit_lays hv hs hroom h).any
  case ifThen =>
    intro cond body ih s s' hs hroom h
    obtain ⟨t, t', htest, hbody, rfl⟩ := Stmt.emit_ifThen_ok h
    obtain ⟨hstart, _, hinner, hroom', _⟩ := Stmt.branch_frames hv hs hroom (.numbered s _) htest hbody
    have htested := (hnumber s "if").trans (Emit.branchUnless_lays hv hstart htest)
    have hblock := ih _ _ hinner hroom' hbody
    exact (htested.trans (hblock.rescope t.scopes)).labelled _
  case ifElse =>
    intro cond body other ihbody ihother s s' hs hroom h
    obtain ⟨t, t', r', htest, hbody, hother, rfl⟩ := Stmt.emit_ifElse_ok h
    have hslots : s.usedSlots + (Stmt.slotsOf body + Stmt.slotsOf other) ≤ s.localSlots := by
      simpa [Stmt.slots] using hroom
    obtain ⟨hstart, _, hinner, hroom', hdeclares⟩ :=
      Stmt.branch_frames hv hs (by omega) (.numbered s _) htest hbody
    have htested := (hnumber s "if").trans (Emit.branchUnless_lays hv hstart htest)
    have hfirst := ihbody _ _ hinner hroom' hbody
    have hbetween := hdeclares.trans_rests ((Frame.Rests.instruction _
      (.jmp ((s.labels.fresh "if").1 ++ "_end"))).trans (.labelled _ ((s.labels.fresh "if").1 ++ "_else")))
    have hused := hbetween.usedSlots
    have hlocal := hbetween.localSlots
    have hsecond := ihother _ _ hbetween.settled.enter
      (by simp only [Frame.within_usedSlots, Frame.within_localSlots]; omega) hother
    have hjumped := ((htested.trans (hfirst.rescope t.scopes)).jumped
      ((s.labels.fresh "if").1 ++ "_end")).labelled ((s.labels.fresh "if").1 ++ "_else")
    exact (hjumped.trans (hsecond.rescope t.scopes)).labelled _
  case whileLoop =>
    intro cond body ih s s' hs hroom h
    obtain ⟨t, t', htest, hbody, rfl⟩ := Stmt.emit_whileLoop_ok h
    have hhead := (Frame.Rests.numbered s (s.labels.fresh "while").2).trans
      (.labelled _ (s.labels.fresh "while").1)
    obtain ⟨hstart, _, hinner, hroom', _⟩ := Stmt.branch_frames hv hs hroom hhead htest hbody
    have htested := ((hnumber s "while").labelled _).trans (Emit.branchUnless_lays hv hstart htest)
    have hblock := ih _ _ hinner hroom' hbody
    exact ((htested.trans (hblock.rescope t.scopes)).jumped _).labelled _
  case forLoop =>
    intro init cond step body ih s s' hs hroom h
    obtain ⟨r, t, t', r', hinit, htest, hbody, hstep, rfl⟩ := Stmt.emit_forLoop_ok h
    obtain ⟨⟨hstart, hroom₁⟩, hlabelled, ⟨hinner, hroom₂⟩, hsettled, hroom₃⟩ :=
      Stmt.forLoop_rooms hv hs hroom hinit htest hbody hstep
    have hfirst := Simple.forM_lays hv init hstart hroom₁ hinit
    have htested := Emit.forM_branchUnless_lays hv hlabelled htest
    have hinside := ih _ _ hinner hroom₂ hbody
    have hlast := Simple.forM_lays hv step hsettled hroom₃ hstep
    have hbegun : s.Lays Line.Any r := (hnumber s "for").trans ⟨hfirst.code, hfirst.touched⟩
    have hround := (((hbegun.labelled _).trans htested).trans (hinside.rescope t.scopes)).trans hlast
    have hend := (hround.jumped (s.labels.fresh "for").1).labelled ((s.labels.fresh "for").1 ++ "_end")
    exact ⟨hend.code, hend.touched⟩
  case ret =>
    intro value s s' hs hroom h
    exact Stmt.ret_lays hv hs h
  case block =>
    intro body ih s s' hs hroom h
    obtain ⟨t, hbody, rfl⟩ := Stmt.emit_block_ok h
    exact (ih _ _ hs.enter hroom hbody).rescope s.scopes
  case nil =>
    intro s s' hs _ h
    rw [(Emit.pure_ok.mp h).2]
    exact .refl s
  case cons =>
    intro stmt rest ihstmt ihrest s s' hs hroom h
    obtain ⟨t, hstmt, hrest⟩ := Stmt.emitAll_cons_ok h
    have hslots : s.usedSlots + (stmt.slots + Stmt.slotsOf rest) ≤ s.localSlots := by
      simpa [Stmt.slotsOf] using hroom
    have hfirst := (Stmt.emit_declares hv).1 stmt s t hs (by omega) hstmt
    have hsecond := ihrest t s' hfirst.settled (by rw [hfirst.usedSlots, hfirst.localSlots]; omega) hrest
    exact (ihstmt s t hs (by omega) hstmt).trans hsecond

/-! ## Routines -/

/-- The code of a body is level, and writes general registers, callee-saved ones only if the pool at the end
says to save them. -/
theorem Header.emitBody_lays (hv : sigs.Valid) {header : Header} {body : List Stmt} {policy : FreePolicy}
    {labels : LabelSupply} {frame : Frame}
    (h : header.emitBody sigs body (.start policy labels body) = .ok () frame) :
    (Frame.start policy labels body).Lays Line.Any frame := by
  obtain ⟨t, t', hparams, hbody, hlast⟩ := Header.emitBody_ok h
  have hreceives := Header.emit_receives (Frame.start_settled policy labels body) hparams
  have hroom : t.usedSlots + Stmt.slotsOf body ≤ t.localSlots := by
    rw [hreceives.usedSlots, hreceives.localSlots]
    show (0 : Int) + Stmt.slotsOf body ≤ Stmt.slotsOf body
    omega
  have hplaced : (Frame.start policy labels body).Lays Line.Any t := by
    apply Frame.Lays.same hreceives.code
    intro q hq
    rw [Frame.start, RegisterSet.contains_empty] at hq
    cases hq
  have hlays := hplaced.trans ((Stmt.emit_lays hv).2 body t t' hreceives.settled hroom hbody)
  rcases hlast with ⟨_, rfl⟩ | ⟨label, _, rfl⟩
  · exact hlays
  · exact hlays.labelled label

/-- Lines after which the next line can run: all but jumps that are always taken. -/
def Line.Falls : Line → Prop
  | .code (.jmp _) | .code .ret => False
  | _ => True

namespace Routine

/-- The paths through the body of a routine. A path that starts at the first line arrives at a line with a
number of words on the stack. -/
inductive Arrives (routine : Routine) : Nat → Int → Prop
  | start : Arrives routine 0 0
  | next {k : Nat} {depth : Int} {line : Line} (h : Arrives routine k depth)
    (hline : routine.body[k]? = some line) (hfalls : line.Falls) : Arrives routine (k + 1) (depth + line.rise)
  | jump {k target : Nat} {depth : Int} {i : Instruction} {label : String} (h : Arrives routine k depth)
    (hline : routine.body[k]? = some (.code i)) (hi : i.target? = some label)
    (htarget : routine.body[target]? = some (.label label)) : Arrives routine target depth

/-- The callee's side of the calling convention. -/
structure Conventional (routine : Routine) : Prop where
  /-- The body keeps the registers with a fixed role. -/
  fixed : ∀ i rd, .code i ∈ routine.body → i.destination? = some rd → rd ∉ [.fp, .sp, .lr]
  /-- What the prologue saves the epilogue restores, and this is all that the body has to keep. -/
  saved : ∃ saved : List Register, routine.prologue.filterMap Instruction.pushed? = [.lr, .fp] ++ saved ∧
    routine.epilogue.filterMap Instruction.popped? = saved.reverse ++ [.fp, .lr] ∧
    ∀ i rd, .code i ∈ routine.body → i.destination? = some rd →
      rd ∈ RegisterClass.calleeSaved.members → rd ∈ saved
  /-- The body pops what it pushes, and has done so at every border and at its end. -/
  level : Line.Level routine.body
  /-- All paths arrive at a line with the words that the lines before it push. -/
  depth : ∀ k depth, routine.Arrives k depth → depth = Line.riseOf (routine.body.take k)

/-- In level code the stack has one height at each line. -/
theorem Arrives.depth_eq {routine : Routine} (hlevel : Line.Level routine.body) {k : Nat} {depth : Int}
    (h : routine.Arrives k depth) : depth = Line.riseOf (routine.body.take k) := by
  induction h with
  | start => rfl
  | next _ hline _ ih => rw [ih, List.take_add_one, hline, Line.riseOf_append]; simp
  | jump _ hline hi htarget ih =>
    rw [ih, hlevel.borders _ _ htarget trivial]
    exact hlevel.borders _ _ hline (Line.isBorder_of_target hi)

private theorem prologueFor_pushes (saved : List Register) (localSlots : Int) :
    (prologueFor saved localSlots).filterMap Instruction.pushed? = [.lr, .fp] ++ saved := by
  have hsaved : (saved.map Instruction.push).filterMap Instruction.pushed? = saved := by
    rw [List.filterMap_map]
    exact List.filterMap_some
  simp [prologueFor, hsaved, Instruction.pushed?]

private theorem epilogueFor_pops (saved : List Register) :
    (epilogueFor saved).filterMap Instruction.popped? = saved.reverse ++ [.fp, .lr] := by
  have hsaved : (saved.reverse.map Instruction.pop).filterMap Instruction.popped? = saved.reverse := by
    rw [List.filterMap_map]
    exact List.filterMap_some
  simp only [epilogueFor, List.filterMap_append, hsaved]
  rfl

end Routine

namespace CompilationUnit

variable {unit : CompilationUnit} {policy : FreePolicy} {asm : Assembly}

/-- Every routine of a compiled unit obeys the calling convention. -/
theorem compile_conventional (h : unit.compile policy = .ok asm) :
    ∀ routine ∈ asm.routines, routine.Conventional := by
  intro routine hroutine
  obtain ⟨sigs, hsigs, hall⟩ := compile_ok h
  obtain ⟨header, body, labels, frame, _, hemit, rfl⟩ := compileAll_origin hall hroutine
  obtain ⟨new, hnew, hlevel, _, hadmits⟩ := (Header.emitBody_lays (signatures_ok hsigs).1 hemit).code
  obtain rfl : frame.code.toList = new := hnew
  refine ⟨?_, ⟨frame.pool.saved, Routine.prologueFor_pushes _ _, Routine.epilogueFor_pops _, ?_⟩, hlevel,
    fun k depth harrives => harrives.depth_eq hlevel⟩
  · intro i rd hi hrd
    have hgeneral : ∀ r ∈ Register.general, r ∉ [Register.fp, .sp, .lr] := by decide
    exact hgeneral rd (hadmits i rd hi hrd).1
  · intro i rd hi hrd hcallee
    exact List.mem_filter.mpr ⟨hcallee, (hadmits i rd hi hrd).2 hcallee⟩

/-- A loop that returns out of a sum of two calls, the second with a call among its arguments. -/
def sumOfCalls : CompilationUnit :=
  ⟨[.function ⟨"f", ["x", "y"], 9⟩
      [.whileLoop (.var "x" 21)
        [.ret (some (.binary .add (.call "f" [.var "y" 30, .num 0] 28)
          (.call "f" [.num 1, .call "f" [.var "x" 50, .num 2] 48] 40)))]]]⟩

theorem compile_conventional_sumOfCalls : ∃ asm, sumOfCalls.compile .strict = .ok asm ∧
    (∃ routine ∈ asm.routines, .push .r6 ∈ routine.prologue) ∧
    ∀ routine ∈ asm.routines, routine.Conventional := by
  have hrun : ∃ asm, sumOfCalls.compile .strict = .ok asm ∧
      ∃ routine ∈ asm.routines, .push .r6 ∈ routine.prologue :=
    exists_ok_of_any (by decide +kernel)
  obtain ⟨asm, h, hsaves⟩ := hrun
  exact ⟨asm, h, hsaves, compile_conventional h⟩

end CompilationUnit

end WordLang
