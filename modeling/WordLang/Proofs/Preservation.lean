import WordLang.Proofs.FunctionCode

/-!
# Compilation preserves what programs do

A call of a function that a unit defines runs the routine that it was compiled to, and returns behind the
call. A call of any other function is one external call. By induction on the depth of calls, all calls do
on the machine what they mean, and so does the unit: a program that ends makes the same external calls, with
the same arguments, as its code.
-/

namespace WordLang

/-- The world that passes to external functions as many arguments as their signatures say. -/
def World.of (sigs : Signatures) (oracle : Oracle) (clobber : Machine → Machine) : World where
  arity name := ((sigs.find? name).map Signature.arity).getD 0
  oracle := oracle
  clobber := clobber

private theorem eq_map_some {args : List Value} {words : List Word} (h : args.mapM id = some words) :
    args = words.map some := by
  induction args generalizing words with
  | nil =>
    obtain rfl : [] = words := Option.some.inj h
    rfl
  | cons arg args ih =>
    rw [List.mapM_cons] at h
    obtain ⟨word, harg, hrest⟩ := Option.bind_eq_some_iff.mp h
    obtain ⟨others, hothers, hcons⟩ := Option.bind_eq_some_iff.mp hrest
    obtain rfl : word :: others = words := Option.some.inj hcons
    rw [List.map_cons, ← ih hothers]
    exact congrArg (· :: args) harg

private theorem Oracle.perform_some {oracle : Oracle} {name : String} {args : List Value} {result : Value}
    {events events' : List Event} (h : oracle.perform name args events = some (result, events')) :
    ∃ words : List Word, args = words.map some ∧ result = some (oracle events ⟨name, words⟩) ∧
      events' = ⟨name, words⟩ :: events := by
  obtain ⟨words, _, hlift, hanswer⟩ := Run.bind_some.mp h
  obtain ⟨hwords, rfl⟩ := Run.lift_some.mp hlift
  obtain ⟨rfl, rfl⟩ := Prod.mk.inj (Option.some.inj hanswer)
  exact ⟨words, eq_map_some hwords, rfl, rfl⟩

section External

variable {world : World} {name : String} {m : Machine}

private theorem World.reg_external_result (world : World) (name : String) (m : Machine) :
    (world.external name m).reg Register.result =
      (world.oracle m.events (world.event name m)).toInt := by
  simp [World.external]

private theorem World.external_restored (world : World) (name : String) (m : Machine) :
    m.Restored (world.external name m) := by
  refine ⟨rfl, rfl, ?_, fun a ha => if_pos ha⟩
  intro r hr
  have hne : r ≠ Register.result := by
    rintro rfl
    exact absurd hr (by decide)
  simp [World.external, hne, hr]

private theorem World.event_eq {words : List Word}
    (h : List.Forall₂ Value.Agrees (words.map some)
      ((Register.arguments.take (world.arity name)).map m.reg)) : world.event name m = ⟨name, words⟩ := by
  rw [List.forall₂_map_left_iff, List.forall₂_map_right_iff] at h
  rw [World.event]
  congr 1
  generalize Register.arguments.take (world.arity name) = rs at h
  induction h with
  | nil => rfl
  | cons hagree _ ih => rw [List.map_cons, ih, hagree _ rfl, Int32.ofInt_toInt]

end External

private theorem Assembly.exists_at {asm : Assembly} {routine : Routine} (h : routine ∈ asm.routines) :
    ∃ pc, asm.At pc routine.lines := by
  obtain ⟨before, after, hsplit⟩ := List.append_of_mem h
  have hlines : asm.lines =
      before.flatMap Routine.lines ++ routine.lines ++ after.flatMap Routine.lines := by
    rw [Assembly.lines, hsplit, List.flatMap_append, List.flatMap_cons, List.append_assoc]
  exact ⟨_, Assembly.At.of_append hlines⟩

namespace CompilationUnit

private theorem compileAll_mem {sigs : Signatures} {policy : FreePolicy} {labels : LabelSupply}
    {functions : List (Header × List Stmt)} {routines : List Routine} {header : Header} {body : List Stmt}
    (h : compileAll sigs policy labels functions = .ok routines) (hf : (header, body) ∈ functions) :
    ∃ labels' frame, header.emitBody sigs body (.start policy labels' body) = .ok () frame ∧
      ⟨header.name, Routine.prologueFor frame.pool.saved (Stmt.slotsOf body), frame.code.toList,
        Routine.epilogueFor frame.pool.saved⟩ ∈ routines := by
  induction functions generalizing labels routines with
  | nil => exact absurd hf List.not_mem_nil
  | cons f rest ih =>
    obtain ⟨routine, labels', others, hr, ho, rfl⟩ := compileAll_cons_ok h
    rcases List.mem_cons.mp hf with rfl | hf
    · obtain ⟨frame, hemit, _, rfl⟩ := Routine.compile_ok hr
      exact ⟨labels, frame, hemit, List.mem_cons_self⟩
    · obtain ⟨labels₁, frame, hemit, hmem⟩ := ih ho hf
      exact ⟨labels₁, frame, hemit, List.mem_cons_of_mem routine hmem⟩

variable {unit : CompilationUnit} {policy : FreePolicy} {asm : Assembly} {sigs : Signatures} {oracle : Oracle}
  {header : Header} {body : List Stmt} {meaning : CallMeaning} {world : World} {fuel : Nat} {m : Machine}
  {args : List Value} {result : Value} {events' : List Event}

private theorem function_returns (hv : sigs.Valid) (hruns : meaning.Runs sigs asm world) (hn : asm.labels.Nodup)
    (hall : compileAll sigs policy {} unit.functions = .ok asm.routines)
    (hf : (header, body) ∈ unit.functions)
    (hargs : List.Forall₂ Value.Agrees args ((Register.arguments.take header.params.length).map m.reg))
    (hrun : header.perform sigs meaning body fuel args m.events = some (result, events')) :
    ∃ pc m', asm.position? header.name = some pc ∧ asm.Reaches world ⟨pc, m⟩ ⟨m.reg .lr, m'⟩ ∧
      result.Agrees (m'.reg Register.result) ∧ m'.events = events' ∧ m.Restored m' := by
  obtain ⟨labels, frame, hemit, hroutine⟩ := compileAll_mem hall hf
  obtain ⟨pc, hat⟩ := Assembly.exists_at hroutine
  obtain ⟨m', hreturns⟩ := Header.emitBody_returns hv hruns hn hemit hat hargs hrun
  exact ⟨pc, m', hat.routine.1.position? hn, hreturns⟩

private theorem internal_runs (hv : sigs.Valid) (hruns : meaning.Runs sigs asm world)
    (hn : asm.labels.Nodup) (hall : compileAll sigs policy {} unit.functions = .ok asm.routines)
    {sig : Signature} (hsig : sig ∈ sigs.entries)
    (hfind : unit.definitions.find? (fun f => f.1.name == sig.name) = some (header, body))
    (hargs : List.Forall₂ Value.Agrees args ((Register.arguments.take sig.arity).map m.reg))
    (hrun : header.perform sigs meaning body fuel args m.events = some (result, events')) :
    asm.calls world (.internal sig.name) m fun m' =>
      result.Agrees (m'.reg Register.result) ∧ m'.events = events' ∧ m.Restored m' := by
  intro pc hat
  have hmem : (header, body) ∈ unit.functions := by
    rw [functions_eq]
    exact List.mem_append_left _ (List.mem_of_find?_eq_some hfind)
  have hname : header.name = sig.name := by simpa using List.find?_some hfind
  have harity : header.params.length = sig.arity := by
    have hlength := hargs.length_eq
    have hbound := hv.arity sig hsig
    unfold Header.perform at hrun
    split at hrun
    · rename_i hparams
      simp only [List.length_map, List.length_take] at hlength
      omega
    · exact (Run.failure_some.mp hrun).elim
  have hlink : (Register.arguments.take sig.arity).map (m.set .lr (pc + 1)).reg =
      (Register.arguments.take sig.arity).map m.reg := by
    refine List.map_congr_left fun r hr => ?_
    have hne : r ≠ .lr := by
      rintro rfl
      exact absurd (Register.arguments_callerSaved _ _ hr) (by decide)
    simp [hne]
  obtain ⟨start, m', hposition, hreach, hresult, hevents, hrestored⟩ :=
    function_returns (m := m.set .lr (pc + 1)) hv hruns hn hall hmem
      (by rw [harity, hlink]; exact hargs) hrun
  have hcall : asm.step world ⟨pc, m⟩ = some ⟨start, m.set .lr (pc + 1)⟩ := by
    simp [Assembly.step, hat.fetch, Assembly.jump, ← hname, hposition]
  refine ⟨m', .head hcall ?_, hresult, hevents, ?_⟩
  · simpa using hreach
  · refine ⟨hrestored.fp, hrestored.sp, fun r hr => ?_, hrestored.mem⟩
    have hne : r ≠ .lr := by
      rintro rfl
      exact absurd hr (by decide)
    simpa [hne] using hrestored.saved r hr

/-- Calls do what they mean, whatever their depth. -/
theorem callMeaning_runs (hv : sigs.Valid) (hn : asm.labels.Nodup)
    (hall : compileAll sigs policy {} unit.functions = .ok asm.routines) (oracle : Oracle)
    (clobber : Machine → Machine) (fuel : Nat) :
    (unit.callMeaning sigs oracle fuel).Runs sigs asm (.of sigs oracle clobber) := by
  induction fuel with
  | zero =>
    intro sig _ m args result events' h
    exact (Run.failure_some.mp h).elim
  | succ fuel ih =>
    intro sig hsig m args result events' h hargs
    rw [callMeaning] at h
    rw [Signature.callee]
    by_cases hcustom : sig.custom
    · rw [if_pos hcustom] at h ⊢
      obtain ⟨⟨header, body⟩, _, hlift, hrun⟩ := Run.bind_some.mp h
      obtain ⟨hfind, rfl⟩ := Run.lift_some.mp hlift
      exact internal_runs hv ih hn hall hsig hfind hargs hrun
    · rw [if_neg hcustom] at h ⊢
      obtain ⟨words, rfl, rfl, rfl⟩ := Oracle.perform_some h
      have harity : (World.of sigs oracle clobber).arity sig.name = sig.arity := by
        simp [World.of, hv.find?_eq hsig]
      have hevent := World.event_eq (harity ▸ hargs)
      intro pc hat
      refine ⟨(World.of sigs oracle clobber).external sig.name m, .single ?_, ?_, ?_,
        World.external_restored _ _ _⟩
      · simp [Assembly.step, hat.fetch]
      · rintro word ⟨⟩
        rw [World.reg_external_result, hevent]
        rfl
      · simp [World.external, hevent]

/-- Compilation preserves what programs do. If a program ends, its code called as a function returns to its
caller, after the same external calls with the same arguments and answers, whatever external functions
leave in what they may overwrite. -/
theorem compile_preserves (h : unit.compile policy = .ok asm) (hsigs : unit.signatures = .ok sigs)
    (hclear : ∀ header body, Item.function header body ∈ unit.items → header.name ∉ asm.blockLabels)
    {value : Value} {events : List Event} (hrun : unit.run sigs oracle fuel = some (value, events))
    (clobber : Machine → Machine) (m : Machine) (hm : m.events = []) :
    ∃ pc m', asm.position? entryLabel = some pc ∧
      asm.Reaches (.of sigs oracle clobber) ⟨pc, m⟩ ⟨m.reg .lr, m'⟩ ∧
      value.Agrees (m'.reg Register.result) ∧ m'.events = events ∧ m.Restored m' := by
  obtain ⟨sigs', hsigs', hall⟩ := compile_ok h
  obtain rfl : sigs' = sigs := Except.ok.inj (hsigs'.symm.trans hsigs)
  have hv := (signatures_ok hsigs).1
  have hn := labels_nodup h hclear
  have hentry : ((⟨entryLabel, [], 0⟩ : Header), unit.topLevel) ∈ unit.functions := by
    rw [functions_eq]
    exact List.mem_append_right _ List.mem_cons_self
  have hperform : Header.perform sigs' (unit.callMeaning sigs' oracle fuel) ⟨entryLabel, [], 0⟩ unit.topLevel
      fuel [] m.events = some (value, events) := by
    rw [hm]
    exact hrun
  exact function_returns hv (callMeaning_runs hv hn hall oracle clobber fuel) hn hall hentry .nil hperform

/-- Prints the factorials of the numbers from one that it reads down to 1. -/
def factorials : CompilationUnit :=
  ⟨[.external ⟨"read", [], 0⟩,
    .function ⟨"fact", ["n"], 0⟩
      [.ifThen (.binary .lt (.var "n" 0) (.num 2)) [.ret (some (.num 1))],
        .ret (some (.binary .mul (.var "n" 0) (.call "fact" [.binary .sub (.var "n" 0) (.num 1)] 0)))],
    .stmt (.forLoop (some (.var "n" (some (.call "read" [] 0)) 0)) (some (.var "n" 0))
      (some (.assign (.var "n" 0) (.binary .sub (.var "n" 0) (.num 1))))
      [.simple (.var "f" (some (.call "fact" [.var "n" 0] 0)) 0),
        .simple (.expr (.call "print" [.var "f" 0] 0))])]⟩

theorem compile_preserves_factorials : ∃ asm sigs pc m', factorials.compile .strict = .ok asm ∧
    factorials.signatures = .ok sigs ∧ asm.position? entryLabel = some pc ∧
    asm.Reaches (.of sigs (fun _ event => if event.callee = "read" then 3 else 0)
      fun _ => ⟨fun _ => 77, fun _ => 77, []⟩)
      ⟨pc, ⟨fun r => if r = .lr then -1 else 0, fun _ => 0, []⟩⟩ ⟨-1, m'⟩ ∧
    m'.events = [⟨"print", [1]⟩, ⟨"print", [2]⟩, ⟨"print", [6]⟩, ⟨"read", []⟩] := by
  have hcompile : ∃ asm, factorials.compile .strict = .ok asm ∧ "fact" ∉ asm.blockLabels :=
    exists_ok_of_any (by decide +kernel)
  obtain ⟨asm, hasm, hfact⟩ := hcompile
  have hmeaning : ∃ sigs, factorials.signatures = .ok sigs ∧
      factorials.run sigs (fun _ event => if event.callee = "read" then 3 else 0) 5 =
        some (none, [⟨"print", [1]⟩, ⟨"print", [2]⟩, ⟨"print", [6]⟩, ⟨"read", []⟩]) :=
    exists_ok_of_any (by decide +kernel)
  obtain ⟨sigs, hsigs, hrun⟩ := hmeaning
  have hclear (header : Header) (body : List Stmt) (h : Item.function header body ∈ factorials.items) :
      header.name ∉ asm.blockLabels := by
    obtain ⟨rfl, _⟩ : header = ⟨"fact", ["n"], 0⟩ ∧ _ := by simpa [factorials] using h
    exact hfact
  obtain ⟨pc, m', hposition, hreach, _, hevents, _⟩ := compile_preserves hasm hsigs hclear hrun
    (fun _ => ⟨fun _ => 77, fun _ => 77, []⟩) ⟨fun r => if r = .lr then -1 else 0, fun _ => 0, []⟩ rfl
  exact ⟨asm, sigs, pc, m', hasm, hsigs, hposition, hreach, hevents⟩

end CompilationUnit

end WordLang
