import WordLang.Proofs.Growth

/-!
# Compiled units

What a successful compilation of a unit says about its functions: their names are new and are not that of
the entry, the table of signatures holds exactly what the unit declares beside the builtin functions, and
every function was compiled into one routine.
-/

namespace WordLang

/-- A computation that succeeds with a testable property is checked by running it. -/
theorem exists_ok_of_any {ε α : Type} {x : Except ε α} {P : α → Prop} [DecidablePred P]
    (h : (x.toOption.any fun a => decide (P a)) = true) : ∃ a, x = .ok a ∧ P a := by
  cases x with
  | error e => simp [Except.toOption] at h
  | ok a => exact ⟨a, rfl, by simpa [Except.toOption] using h⟩

def Item.signature? : Item → Option Signature
  | .function header _ => some ⟨header.name, header.params, true⟩
  | .external header => some ⟨header.name, header.params, false⟩
  | .stmt _ => none

private theorem except_bind_error {ε α β : Type} {x : Except ε α} {f : α → Except ε β} {e : ε}
    (h : (x >>= f) = .error e) :
    x = .error e ∨ ∃ a, x = .ok a ∧ f a = .error e := by
  cases x with
  | error e' => exact .inl (by simpa [bind, Except.bind] using h)
  | ok a => exact .inr ⟨a, rfl, h⟩

namespace Signatures

/-- Tables in which no two functions have one name, none that of the entry, and registers carry all
arguments. -/
structure Valid (sigs : Signatures) : Prop where
  names : (sigs.entries.map Signature.name).Nodup
  reserved : ∀ sig ∈ sigs.entries, sig.name ≠ entryLabel
  arity : ∀ sig ∈ sigs.entries, sig.arity ≤ Register.arguments.length

theorem builtin_valid : builtin.Valid :=
  ⟨by decide, by decide, by decide⟩

theorem declare_ok {sigs sigs' : Signatures} {sig : Signature} {pos : Option Nat}
    (h : sigs.declare sig pos = .ok sigs') :
    sig.name ≠ entryLabel ∧ sigs.find? sig.name = none ∧ sig.arity ≤ Register.arguments.length ∧
      sigs' = ⟨sig :: sigs.entries⟩ := by
  unfold declare at h
  split at h
  · simp at h
  · rename_i hname
    split at h
    · simp at h
    · rename_i hnew
      split at h
      · simp at h
      · rename_i harity
        exact ⟨hname, Option.not_isSome_iff_eq_none.mp hnew, Nat.le_of_not_lt harity,
          (Except.ok.inj h).symm⟩

private theorem declare_error {sigs : Signatures} {sig : Signature} {pos : Nat} {e : CompileError}
    (h : sigs.declare sig (some pos) = .error e) : e.name? = some sig.name ∧ e.offset? = some pos := by
  unfold declare at h
  repeat' split at h
  all_goals cases h
  all_goals exact ⟨rfl, rfl⟩

theorem Valid.declare {sigs sigs' : Signatures} {sig : Signature} {pos : Option Nat} (hv : sigs.Valid)
    (h : sigs.declare sig pos = .ok sigs') : sigs'.Valid := by
  obtain ⟨hname, hnew, harity, rfl⟩ := declare_ok h
  refine ⟨?_, ?_, ?_⟩
  · rw [List.map_cons, List.nodup_cons]
    refine ⟨?_, hv.names⟩
    intro hmem
    obtain ⟨other, hother, heq⟩ := List.mem_map.mp hmem
    have hdiff := List.find?_eq_none.mp hnew other hother
    exact hdiff (by simpa using heq)
  · rintro other (_ | ⟨_, hother⟩)
    · exact hname
    · exact hv.reserved other hother
  · rintro other (_ | ⟨_, hother⟩)
    · exact harity
    · exact hv.arity other hother

theorem Valid.find?_eq {sigs : Signatures} (hv : sigs.Valid) {sig : Signature}
    (hsig : sig ∈ sigs.entries) : sigs.find? sig.name = some sig := by
  obtain ⟨entries⟩ := sigs
  have hnames := hv.names
  clear hv
  unfold find?
  induction entries with
  | nil => exact absurd hsig List.not_mem_nil
  | cons first rest ih =>
    rw [List.map_cons, List.nodup_cons] at hnames
    rcases List.mem_cons.mp hsig with rfl | hrest
    · simp
    · have hne : first.name ≠ sig.name := fun he => hnames.1 (he ▸ List.mem_map_of_mem hrest)
      rw [List.find?_cons_of_neg (by simpa using hne)]
      exact ih hrest hnames.2

end Signatures

namespace CompilationUnit

private theorem signaturesFrom_ok {sigs sigs' : Signatures} {items : List Item}
    (h : signaturesFrom sigs items = .ok sigs') (hv : sigs.Valid) :
    sigs'.Valid ∧ sigs'.entries = (items.filterMap Item.signature?).reverse ++ sigs.entries := by
  induction items generalizing sigs with
  | nil =>
    obtain rfl : sigs = sigs' := by simpa [signaturesFrom] using h
    exact ⟨hv, rfl⟩
  | cons item items ih =>
    have hdeclared (sig : Signature) (hsig : item.signature? = some sig) {pos : Option Nat}
        (hd : (sigs.declare sig pos >>= fun known => signaturesFrom known items) = .ok sigs') :
        sigs'.Valid ∧
          sigs'.entries = ((item :: items).filterMap Item.signature?).reverse ++ sigs.entries := by
      cases hdecl : sigs.declare sig pos with
      | error e => simp [hdecl, bind, Except.bind] at hd
      | ok known =>
        obtain ⟨hvalid, hentries⟩ := ih (by simpa [hdecl, bind, Except.bind] using hd) (hv.declare hdecl)
        obtain ⟨_, _, _, rfl⟩ := Signatures.declare_ok hdecl
        exact ⟨hvalid, by simp [hentries, List.filterMap_cons_some hsig]⟩
    cases item with
    | function header body => exact hdeclared _ rfl h
    | external header => exact hdeclared _ rfl h
    | stmt stmt => exact ih h hv

theorem signaturesFrom_error {sigs : Signatures} {items : List Item} {e : CompileError}
    (h : signaturesFrom sigs items = .error e) :
    ∃ name pos, e.name? = some name ∧ e.offset? = some pos ∧ (name, pos) ∈ items.flatMap Item.names := by
  induction items generalizing sigs with
  | nil => simp [signaturesFrom] at h
  | cons item items ih =>
    rw [List.flatMap_cons]
    have hlater {known : Signatures} (h : signaturesFrom known items = .error e) :
        ∃ name pos, e.name? = some name ∧ e.offset? = some pos ∧
          (name, pos) ∈ item.names ++ items.flatMap Item.names := by
      obtain ⟨name, pos, hname, hpos, hmem⟩ := ih h
      exact ⟨name, pos, hname, hpos, List.mem_append_right _ hmem⟩
    have hdeclared {sig : Signature} {pos : Nat} (hmem : (sig.name, pos) ∈ item.names)
        (h : (sigs.declare sig (some pos) >>= fun known => signaturesFrom known items) = .error e) :
        ∃ name pos, e.name? = some name ∧ e.offset? = some pos ∧
          (name, pos) ∈ item.names ++ items.flatMap Item.names := by
      rcases except_bind_error h with h | ⟨known, -, h⟩
      · obtain ⟨hname, hpos⟩ := Signatures.declare_error h
        exact ⟨sig.name, pos, hname, hpos, List.mem_append_left _ hmem⟩
      · exact hlater h
    cases item with
    | function header body => exact hdeclared List.mem_cons_self h
    | external header => exact hdeclared List.mem_cons_self h
    | stmt stmt => exact hlater h

theorem signatures_ok {unit : CompilationUnit} {sigs : Signatures} (h : unit.signatures = .ok sigs) :
    sigs.Valid ∧
      sigs.entries = (unit.items.filterMap Item.signature?).reverse ++ Signatures.builtin.entries :=
  signaturesFrom_ok h Signatures.builtin_valid

/-- The functions whose code comes before the entry. -/
def definitions (unit : CompilationUnit) : List (Header × List Stmt) :=
  unit.items.filterMap fun
    | .function header body => some (header, body)
    | _ => none

theorem functions_eq (unit : CompilationUnit) :
    unit.functions = unit.definitions ++ [(⟨entryLabel, [], 0⟩, unit.topLevel)] := rfl

theorem mem_definitions {unit : CompilationUnit} {header : Header} {body : List Stmt} :
    (header, body) ∈ unit.definitions ↔ Item.function header body ∈ unit.items := by
  rw [definitions, List.mem_filterMap]
  constructor
  · rintro ⟨item, hitem, hsome⟩
    cases item with
    | function header' body' =>
      obtain ⟨rfl, rfl⟩ : header' = header ∧ body' = body := by simpa using hsome
      exact hitem
    | external header' => simp at hsome
    | stmt stmt => simp at hsome
  · intro hitem
    exact ⟨_, hitem, rfl⟩

theorem compile_ok {unit : CompilationUnit} {policy : FreePolicy} {asm : Assembly}
    (h : unit.compile policy = .ok asm) :
    ∃ sigs, unit.signatures = .ok sigs ∧ compileAll sigs policy {} unit.functions = .ok asm.routines := by
  unfold compile at h
  cases hs : unit.signatures with
  | error e => simp [hs, bind, Except.bind] at h
  | ok sigs =>
    simp only [hs, bind, Except.bind] at h
    cases hr : compileAll sigs policy {} unit.functions with
    | error e => simp [hr] at h
    | ok routines =>
      obtain rfl : (⟨routines⟩ : Assembly) = asm := by simpa [hr, pure, Except.pure] using h
      exact ⟨sigs, rfl, hr⟩

theorem functions_names {unit : CompilationUnit} {sigs : Signatures}
    (h : unit.signatures = .ok sigs) : (unit.functions.map fun f => f.1.name).Nodup := by
  obtain ⟨hvalid, hentries⟩ := signatures_ok h
  have hsub : (unit.definitions.map fun f => f.1.name).Sublist
      ((unit.items.filterMap Item.signature?).map Signature.name) := by
    rw [definitions]
    induction unit.items with
    | nil => exact List.Sublist.slnil
    | cons item items ih =>
      cases item with
      | function header body => exact ih.cons_cons header.name
      | external header => exact ih.cons header.name
      | stmt stmt => exact ih
  have hnodup : ((unit.items.filterMap Item.signature?).map Signature.name).Nodup := by
    have hall := hvalid.names
    rw [hentries, List.map_append, List.map_reverse, List.nodup_append] at hall
    exact (List.reverse_perm _).nodup_iff.mp hall.1
  rw [functions_eq, List.map_append, List.nodup_append]
  refine ⟨hsub.nodup hnodup, by simp, ?_⟩
  rintro name hname _ hentry rfl
  obtain ⟨sig, hsig, rfl⟩ := List.mem_map.mp (hsub.subset hname)
  have hmem : sig ∈ sigs.entries := by
    rw [hentries]
    exact List.mem_append_left _ (List.mem_reverse.mpr hsig)
  exact hvalid.reserved sig hmem (by simpa using hentry)

end CompilationUnit

/-! ## The local area -/

/-- A step of the count that adds `n` words, unless the counter overflows. -/
def Counter.Adds (n : Nat) (f : Int → Except CompileError Int) : Prop :=
  ∀ total, 0 ≤ total → InRange total → f total = check "add" (total + n)

namespace Counter.Adds

private theorem zero : Adds 0 .ok := by
  intro total _ hrange
  simp [check, hrange]

private theorem bind {n m : Nat} {f g : Int → Except CompileError Int} (hf : Adds n f) (hg : Adds m g) :
    Adds (n + m) fun total => f total >>= g := by
  intro total hpos hrange
  have hcast : total + (n + m : Nat) = total + n + m := by omega
  simp only [hf total hpos hrange, hcast]
  by_cases hsum : InRange (total + n)
  · have hok : check "add" (total + n) = .ok (total + n) := check_ok.mpr ⟨hsum, rfl⟩
    rw [hok]
    exact hg (total + n) (by omega) hsum
  · have hover : ¬ InRange (total + n + m) := by
      simp only [InRange] at hsum hrange ⊢
      omega
    rw [check, check, if_neg hsum, if_neg hover]
    rfl

end Counter.Adds

private theorem Simple.countSlots_adds (stmt : Simple) :
    Counter.Adds stmt.slots fun total => stmt.countSlots total := by
  cases stmt with
  | var | array => exact fun _ _ _ => rfl
  | assign | expr => exact .zero

private theorem countOption_adds (o : Option Simple) :
    Counter.Adds ((o.map Simple.slots).getD 0) fun total => o.toList.foldlM Simple.countSlots total := by
  cases o with
  | none => exact .zero
  | some stmt =>
    have h : (fun total => (some stmt).toList.foldlM Simple.countSlots total) = fun total => stmt.countSlots total := by
      funext total
      simp
    rw [h]
    exact stmt.countSlots_adds

private theorem Stmt.countSlots_adds :
    (∀ stmt : Stmt, Counter.Adds stmt.slots stmt.countSlots) ∧
      ∀ body, Counter.Adds (slotsOf body) (countSlotsOf body) := by
  apply Stmt.induction
  case simple => exact fun stmt => stmt.countSlots_adds
  case ifThen => exact fun _ _ ih => ih
  case ifElse => exact fun _ _ _ ihbody ihother => ihbody.bind ihother
  case whileLoop => exact fun _ _ ih => ih
  case forLoop =>
    intro init cond step body ih
    refine Counter.Adds.bind (g := countSlotsOf body) ?_ ih
    simp only [List.foldlM_append]
    exact (countOption_adds init).bind (countOption_adds step)
  case ret => exact fun _ => .zero
  case block => exact fun _ ih => ih
  case nil => exact .zero
  case cons => exact fun _ _ ihstmt ihrest => ihstmt.bind ihrest

/-- The counter ends at the words of all declarations, unless they are too many for it. -/
theorem Stmt.countSlotsOf_eq (body : List Stmt) : countSlotsOf body 0 = Counter.check "add" (slotsOf body) := by
  have h := Stmt.countSlots_adds.2 body 0 (Int.le_refl 0) (by decide)
  rwa [Int.zero_add] at h

def Frame.start (policy : FreePolicy) (labels : LabelSupply) (body : List Stmt) : Frame :=
  { pool := { policy }, localSlots := Stmt.slotsOf body, labels }

namespace Routine

variable {sigs : Signatures} {policy : FreePolicy} {labels labels' : LabelSupply} {header : Header}
  {body : List Stmt} {routine : Routine}

theorem compile_of_not_inRange (h : ¬ Counter.InRange (Stmt.slotsOf body)) :
    Routine.compile sigs policy labels header body = .error (.overflow "add") := by
  rw [Routine.compile, Stmt.countSlotsOf_eq, Counter.check, if_neg h]
  rfl

theorem compile_of_inRange (h : Counter.InRange (Stmt.slotsOf body)) :
    Routine.compile sigs policy labels header body =
      match header.emitBody sigs body (.start policy labels body) with
      | .ok _ frame => .ok (⟨header.name, prologueFor frame.pool.saved (Stmt.slotsOf body), frame.code.toList,
          epilogueFor frame.pool.saved⟩, frame.labels)
      | .error e _ => .error e := by
  rw [Routine.compile, Stmt.countSlotsOf_eq, Counter.check, if_pos h]
  rfl

theorem compile_ok (h : Routine.compile sigs policy labels header body = .ok (routine, labels')) :
    ∃ frame, header.emitBody sigs body (.start policy labels body) = .ok () frame ∧
      labels' = frame.labels ∧
      routine = ⟨header.name, prologueFor frame.pool.saved (Stmt.slotsOf body),
        frame.code.toList, epilogueFor frame.pool.saved⟩ := by
  by_cases hrange : Counter.InRange (Stmt.slotsOf body)
  · rw [compile_of_inRange hrange] at h
    split at h
    · rename_i frame he
      simp only [Except.ok.injEq, Prod.mk.injEq] at h
      exact ⟨frame, he, h.2.symm, h.1.symm⟩
    · simp at h
  · simp [compile_of_not_inRange hrange] at h

theorem compile_error {e : CompileError} (h : Routine.compile sigs policy labels header body = .error e) :
    (e = .overflow "add" ∧ ¬ Counter.InRange (Stmt.slotsOf body)) ∨
      ∃ frame, header.emitBody sigs body (.start policy labels body) = .error e frame := by
  by_cases hrange : Counter.InRange (Stmt.slotsOf body)
  · rw [compile_of_inRange hrange] at h
    split at h
    · cases h
    · rename_i e' frame hrun
      obtain rfl := Except.error.inj h
      exact .inr ⟨frame, hrun⟩
  · rw [compile_of_not_inRange hrange] at h
    exact .inl ⟨(Except.error.inj h).symm, hrange⟩

end Routine

private theorem CompilationUnit.compileAll_error {sigs : Signatures} {policy : FreePolicy} {labels : LabelSupply}
    {functions : List (Header × List Stmt)} {e : CompileError}
    (h : compileAll sigs policy labels functions = .error e) :
    ∃ f ∈ functions, ∃ labels', Routine.compile sigs policy labels' f.1 f.2 = .error e := by
  induction functions generalizing labels with
  | nil => simp [compileAll] at h
  | cons f rest ih =>
    rcases except_bind_error h with h | ⟨result, -, h⟩
    · exact ⟨f, List.mem_cons_self, labels, h⟩
    · rcases except_bind_error h with h | ⟨_, -, h⟩
      · obtain ⟨f', hf', hfailed⟩ := ih h
        exact ⟨f', List.mem_cons_of_mem f hf', hfailed⟩
      · cases h

theorem CompilationUnit.compile_error {unit : CompilationUnit} {policy : FreePolicy} {e : CompileError}
    (h : unit.compile policy = .error e) :
    unit.signatures = .error e ∨
      ∃ sigs labels, ∃ f ∈ unit.functions, Routine.compile sigs policy labels f.1 f.2 = .error e := by
  rcases except_bind_error h with h | ⟨sigs, -, h⟩
  · exact .inl h
  · rcases except_bind_error h with h | ⟨_, -, h⟩
    · obtain ⟨f, hf, labels, hfailed⟩ := compileAll_error h
      exact .inr ⟨sigs, labels, f, hf, hfailed⟩
    · cases h

theorem CompilationUnit.compileAll_cons_ok {sigs : Signatures} {policy : FreePolicy}
    {labels : LabelSupply} {header : Header} {body : List Stmt} {rest : List (Header × List Stmt)}
    {routines : List Routine}
    (h : compileAll sigs policy labels ((header, body) :: rest) = .ok routines) :
    ∃ routine labels' others, Routine.compile sigs policy labels header body = .ok (routine, labels') ∧
      compileAll sigs policy labels' rest = .ok others ∧ routines = routine :: others := by
  unfold compileAll at h
  cases hr : Routine.compile sigs policy labels header body with
  | error e => simp [hr, bind, Except.bind] at h
  | ok result =>
    obtain ⟨routine, labels'⟩ := result
    simp only [hr, bind, Except.bind] at h
    cases ho : compileAll sigs policy labels' rest with
    | error e => simp [ho] at h
    | ok others =>
      obtain rfl : routine :: others = routines := by simpa [ho, pure, Except.pure] using h
      exact ⟨routine, labels', others, rfl, ho, rfl⟩

theorem CompilationUnit.compileAll_origin {sigs : Signatures} {policy : FreePolicy} {labels : LabelSupply}
    {functions : List (Header × List Stmt)} {routines : List Routine} {routine : Routine}
    (h : compileAll sigs policy labels functions = .ok routines) (hr : routine ∈ routines) :
    ∃ header body labels' frame, (header, body) ∈ functions ∧
      header.emitBody sigs body (.start policy labels' body) = .ok () frame ∧
      routine = ⟨header.name, Routine.prologueFor frame.pool.saved (Stmt.slotsOf body), frame.code.toList,
        Routine.epilogueFor frame.pool.saved⟩ := by
  induction functions generalizing labels routines with
  | nil =>
    obtain rfl : [] = routines := by simpa [compileAll] using h
    exact absurd hr List.not_mem_nil
  | cons f rest ih =>
    obtain ⟨first, labels', others, hfirst, ho, rfl⟩ := compileAll_cons_ok h
    rcases List.mem_cons.mp hr with rfl | hr
    · obtain ⟨frame, hemit, _, rfl⟩ := Routine.compile_ok hfirst
      exact ⟨f.1, f.2, labels, frame, List.mem_cons_self, hemit, rfl⟩
    · obtain ⟨header, body, labels₁, frame, hf, hemit, rfl⟩ := ih ho hr
      exact ⟨header, body, labels₁, frame, List.mem_cons_of_mem f hf, hemit, rfl⟩

end WordLang
