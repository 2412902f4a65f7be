import WordLang.Proofs.SimpleCode

/-!
# Code for statements is correct

A statement that ends in the program ends on the machine, with the same external calls: at the line after its
code with variables that agree, or at the label before the epilogue with the value that it returns. Jumps
find their labels since all labels of the unit are distinct. A loop is simulated round by round.
-/

namespace WordLang

/-- A statement ends as it does in the program. It may go on at `next`, where the machine has the variables
of the frame `inner`, and it keeps what the frame `last` has to keep. -/
def Site.Ends {asm : Assembly} (site : Site asm) (world : World) (base : Int) (last inner : Frame)
    (c : Config) (next : Nat) (env : Env) (flow : Flow) (events : List Event) : Prop :=
  ∃ m, m.events = events ∧ last.Guards base c.machine m ∧
    match flow with
    | .next => asm.Reaches world c ⟨next, m⟩ ∧ inner.Shows base env m
    | .returned value => asm.Reaches world c ⟨site.exit, m⟩ ∧ value.Agrees (m.reg Register.result)

section Simulation

variable {sigs : Signatures} {asm : Assembly} {world : World} {meaning : CallMeaning} {site : Site asm}
  {s s' t : Frame} {base : Int} {env env' : Env} {m : Machine} {events' : List Event}

namespace Site.Ends

variable {last last' inner inner' : Frame} {c c' : Config} {next next' : Nat} {flow : Flow}

private theorem prepend (h : site.Ends world base last inner c' next env' flow events')
    (hreach : asm.Reaches world c c') (hguards : last'.Guards base c.machine c'.machine)
    (htouched : ∀ r, last'.pool.touched.contains r = true → last.pool.touched.contains r = true) :
    site.Ends world base last inner c next env' flow events' := by
  obtain ⟨m', hevents, hguards', hend⟩ := h
  refine ⟨m', hevents, hguards.trans hguards' htouched, ?_⟩
  cases flow with
  | next => exact ⟨hreach.trans hend.1, hend.2⟩
  | returned value => exact ⟨hreach.trans hend.1, hend.2⟩

private theorem append (h : site.Ends world base last inner c next env' flow events')
    (hreach : ∀ m', asm.Reaches world ⟨next, m'⟩ ⟨next', m'⟩)
    (htouched : ∀ r, last.pool.touched.contains r = true → last'.pool.touched.contains r = true)
    (hentries : inner'.entries = inner.entries) (hlocal : inner'.localSlots = inner.localSlots) :
    site.Ends world base last' inner' c next' env' flow events' := by
  obtain ⟨m', hevents, hguards, hend⟩ := h
  refine ⟨m', hevents, hguards.touch htouched, ?_⟩
  cases flow with
  | next => exact ⟨hend.1.trans (hreach m'), hend.2.congr hentries hlocal⟩
  | returned value => exact hend

private theorem leave {new : List (String × Storage)} {n : Nat}
    (h : site.Ends world base last inner c next env' flow events')
    (hentries : inner.entries = new ++ inner'.entries) (hlocal : inner'.localSlots = inner.localSlots)
    (hn : inner'.entries.length = n) :
    site.Ends world base last inner' c next (env'.leave n) flow events' := by
  obtain ⟨m', hevents, hguards, hend⟩ := h
  refine ⟨m', hevents, hguards, ?_⟩
  cases flow with
  | next => exact ⟨hend.1, hend.2.leave hentries hlocal hn⟩
  | returned value => exact hend

end Site.Ends

/-- The test of a loop, from the line that the frame `head` has reached to one of two lines. -/
def Site.Tests (site : Site asm) (world : World) (base : Int) (last head : Frame) (pcTrue pcFalse : Nat)
    (test : Env → Run Bool) : Prop :=
  ∀ ⦃env m b events'⦄, head.Shows base env m → test env m.events = some (b, events') →
    ∃ m', m'.events = events' ∧ last.Guards base m m' ∧ head.Shows base env m' ∧
      asm.Reaches world (site.at head m) ⟨((if b then pcTrue else pcFalse : Nat) : Int), m'⟩

def Site.Rounds (site : Site asm) (world : World) (base : Int) (last head : Frame) (pc next : Nat)
    (body : Env → Run (Env × Flow)) : Prop :=
  ∀ ⦃env m env' flow events'⦄, head.Shows base env m → body env m.events = some ((env', flow), events') →
    site.Ends world base last head ⟨pc, m⟩ next env' flow events'

def Site.Steps (site : Site asm) (world : World) (base : Int) (last head : Frame) (pc : Nat)
    (step : Env → Run Env) : Prop :=
  ∀ ⦃env m env' events'⦄, head.Shows base env m → step env m.events = some (env', events') →
    ∃ m', m'.events = events' ∧ last.Guards base m m' ∧ head.Shows base env' m' ∧
      asm.Reaches world ⟨pc, m⟩ (site.at head m')

private theorem Site.loop {test : Env → Run Bool} {body : Env → Run (Env × Flow)} {step : Env → Run Env}
    {head last : Frame} {pcBody pcStep pcEnd : Nat}
    (htest : site.Tests world base last head pcBody pcEnd test)
    (hbody : site.Rounds world base last head pcBody pcStep body)
    (hstep : site.Steps world base last head pcStep step)
    (fuel : Nat) {flow : Flow} (hshows : head.Shows base env m)
    (h : Run.repeat test body step fuel env m.events = some ((env', flow), events')) :
    site.Ends world base last head (site.at head m) pcEnd env' flow events' := by
  induction fuel generalizing env m with
  | zero => exact (Run.failure_some.mp h).elim
  | succ fuel ih =>
    simp only [Run.repeat, Run.bind_some] at h
    obtain ⟨b, _, hb, h⟩ := h
    obtain ⟨m₁, rfl, hguards₁, hshows₁, hreach₁⟩ := htest hshows hb
    cases b with
    | false =>
      obtain ⟨rfl, rfl, rfl⟩ := Run.pair_some.mp h
      exact ⟨m₁, rfl, hguards₁, hreach₁, hshows₁⟩
    | true =>
      simp only [if_true, Run.bind_some] at h
      obtain ⟨⟨env₂, flow₂⟩, _, hround, h⟩ := h
      obtain ⟨m₂, rfl, hguards₂, hend⟩ := (hbody hshows₁ hround).prepend hreach₁
        hguards₁ fun _ hr => hr
      cases flow₂ with
      | next =>
        obtain ⟨env₃, _, hs₃, h⟩ := Run.bind_some.mp h
        obtain ⟨m₃, rfl, hguards₃, hshows₃, hreach₃⟩ := hstep hend.2 hs₃
        exact (ih hshows₃ h).prepend (hend.1.trans hreach₃) (hguards₂.trans hguards₃ fun _ hr => hr)
          fun _ hr => hr
      | returned value =>
        obtain ⟨rfl, rfl, rfl⟩ := Run.pair_some.mp h
        exact ⟨m₂, rfl, hguards₂, hend⟩

/-- The code of statements does what the statements do. -/
def Site.Simulates (site : Site asm) (world : World) (base : Int) (emit : Emit Unit) (slots : Nat)
    (exec : Env → Run (Env × Flow)) : Prop :=
  ∀ ⦃s s' : Frame⦄, s.Settled → s.usedSlots + slots ≤ s.localSlots → emit s = .ok () s' → s'.Fits site →
    ∀ ⦃env m env' flow events'⦄, s.Shows base env m → exec env m.events = some ((env', flow), events') →
      site.Ends world base s' s' (site.at s m) (site.start + s'.code.size) env' flow events'

private theorem block_ends (hv : sigs.Valid) {body : List Stmt} {exec : Env → Run (Env × Flow)}
    {flow : Flow} (ih : site.Simulates world base (Stmt.emitAll sigs body) (Stmt.slotsOf body) exec)
    (hs : s.Settled) (hroom : s.usedSlots + Stmt.slotsOf body ≤ s.localSlots)
    (h : Stmt.emitAll sigs body (s.within s.scopes.enter) = .ok () t) (hfits : t.Fits site)
    (hshows : s.Shows base env m)
    (hexec : Run.scoped exec env m.events = some ((env', flow), events')) :
    site.Ends world base t (t.within s.scopes) (site.at s m) (site.start + t.code.size) env' flow events' := by
  obtain ⟨last, hbody, rfl⟩ := Run.scoped_some.mp hexec
  have hdeclares := ((Stmt.emit_declares hv).2 body _ t hs.enter hroom h).of_enter
  obtain ⟨new, hnew, _⟩ := hdeclares.added
  have hlength : s.entries.length = env.length := hshows.shown.length_eq
  exact (ih hs.enter hroom h hfits (hshows.congr rfl rfl) hbody).leave hnew rfl hlength

private theorem ifThen_simulates (hv : sigs.Valid) (hruns : meaning.Runs sigs asm world)
    (hn : asm.labels.Nodup) {fuel : Nat} (cond : Expr) (body : List Stmt)
    (ih : site.Simulates world base (Stmt.emitAll sigs body) (Stmt.slotsOf body)
      (Stmt.execAll sigs meaning fuel body)) :
    site.Simulates world base ((Stmt.ifThen cond body).emit sigs) (Stmt.ifThen cond body).slots
      ((Stmt.ifThen cond body).exec sigs meaning fuel) := by
  intro s s' hs hroom h hfits env m env' flow events' hshows hexec
  obtain ⟨t, t', htest, hbody, rfl⟩ := Stmt.emit_ifThen_ok h
  have hnumbered := Frame.Rests.numbered s (s.labels.fresh "if").2
  have hs₁ := hs.rests hnumbered
  have hrests := Emit.branchUnless_rests hv hs₁.idle htest
  have ht := hs₁.rests hrests
  have hroom_t : t.usedSlots + Stmt.slotsOf body ≤ t.localSlots := by
    rw [hrests.usedSlots, hrests.localSlots]
    exact hroom
  have hblock := Stmt.block_declares hv ht hroom_t hbody
  have hfits' : t'.Fits site := ⟨hfits.of_labelled.1, hfits.of_labelled.2⟩
  have hentered := hfits'.earlier ((Stmt.emit_grows sigs).2 body _ _ hbody)
  simp only [Stmt.exec, Run.bind_some] at hexec
  obtain ⟨b, _, hb, hexec⟩ := hexec
  obtain ⟨m₁, rfl, hguards, hshows₁, hreach⟩ := Emit.branchUnless_reaches hv hruns hs₁ htest
    ⟨hentered.1, hentered.2⟩ (hfits.position? hn) (hshows.rests hnumbered) hb
  have hshows_t := hshows₁.rests hrests
  cases b with
  | false =>
    obtain ⟨rfl, rfl, rfl⟩ := Run.pair_some.mp hexec
    exact ⟨m₁, rfl, hguards.touch hblock.touched, hreach.trans (hfits.reaches_labelled m₁),
      hshows_t.congr rfl hblock.localSlots⟩
  | true =>
    have hends := block_ends hv ih ht hroom_t hbody hfits' hshows_t hexec
    exact Site.Ends.prepend (Site.Ends.append hends (fun m' => hfits.reaches_labelled m')
      (fun _ hr => hr) rfl rfl) hreach hguards hblock.touched

private theorem ifElse_simulates (hv : sigs.Valid) (hruns : meaning.Runs sigs asm world)
    (hn : asm.labels.Nodup) {fuel : Nat} (cond : Expr) (body other : List Stmt)
    (ihbody : site.Simulates world base (Stmt.emitAll sigs body) (Stmt.slotsOf body)
      (Stmt.execAll sigs meaning fuel body))
    (ihother : site.Simulates world base (Stmt.emitAll sigs other) (Stmt.slotsOf other)
      (Stmt.execAll sigs meaning fuel other)) :
    site.Simulates world base ((Stmt.ifElse cond body other).emit sigs) (Stmt.ifElse cond body other).slots
      ((Stmt.ifElse cond body other).exec sigs meaning fuel) := by
  intro s s' hs hroom h hfits env m env' flow events' hshows hexec
  obtain ⟨t, t', r', htest, hbody, hother, rfl⟩ := Stmt.emit_ifElse_ok h
  have hslots : s.usedSlots + (Stmt.slotsOf body + Stmt.slotsOf other) ≤ s.localSlots := by
    simpa [Stmt.slots] using hroom
  have hnumbered := Frame.Rests.numbered s (s.labels.fresh "if").2
  have hs₁ := hs.rests hnumbered
  have hrests := Emit.branchUnless_rests hv hs₁.idle htest
  have ht := hs₁.rests hrests
  have hused : t.usedSlots = s.usedSlots := hrests.usedSlots
  have hlocal : t.localSlots = s.localSlots := hrests.localSlots
  have hfirst := Stmt.block_declares hv ht (by omega) hbody
  have hjump := Frame.Rests.instruction (t'.within t.scopes) (.jmp ((s.labels.fresh "if").1 ++ "_end"))
  have helse := hjump.trans (.labelled _ ((s.labels.fresh "if").1 ++ "_else"))
  have hbetween := hfirst.trans_rests helse
  have hroom' := hbetween.usedSlots
  have hlocal' := hbetween.localSlots
  have hsecond := Stmt.block_declares hv hbetween.settled (by omega) hother
  have hfits_r : r'.Fits site := ⟨hfits.of_labelled.1, hfits.of_labelled.2⟩
  have hentered' := hfits_r.earlier ((Stmt.emit_grows sigs).2 other _ _ hother)
  have hfits_else : (((t'.within t.scopes).coded (.jmp ((s.labels.fresh "if").1 ++ "_end"))).labelled
      ((s.labels.fresh "if").1 ++ "_else")).Fits site := ⟨hentered'.1, hentered'.2⟩
  have hfits' : t'.Fits site :=
    ⟨hfits_else.of_labelled.of_coded.1, hfits_else.of_labelled.of_coded.2⟩
  have hentered := hfits'.earlier ((Stmt.emit_grows sigs).2 body _ _ hbody)
  simp only [Stmt.exec, Run.bind_some] at hexec
  obtain ⟨b, _, hb, hexec⟩ := hexec
  obtain ⟨m₁, rfl, hguards, hshows₁, hreach⟩ := Emit.branchUnless_reaches hv hruns hs₁ htest
    ⟨hentered.1, hentered.2⟩ (hfits_else.position? hn) (hshows.rests hnumbered) hb
  have hshows_t := hshows₁.rests hrests
  have htouched (r : Register) (hr : t.pool.touched.contains r = true) :
      r'.pool.touched.contains r = true := hsecond.touched r (hfirst.touched r hr)
  cases b with
  | true =>
    have hends := block_ends hv ihbody ht (by omega) hbody hfits' hshows_t hexec
    refine Site.Ends.prepend (Site.Ends.append hends (fun m' => ?_) hsecond.touched rfl hsecond.localSlots)
      hreach hguards htouched
    exact (hfits_else.of_labelled.reaches_jmp (hfits.position? hn) m').trans (hfits.reaches_labelled m')
  | false =>
    have hshows_else := hshows_t.congr (t := ((t'.within t.scopes).coded
      (.jmp ((s.labels.fresh "if").1 ++ "_end"))).labelled ((s.labels.fresh "if").1 ++ "_else"))
      rfl hfirst.localSlots
    have hends := block_ends hv ihother hbetween.settled (by omega) hother hfits_r hshows_else hexec
    exact Site.Ends.prepend (Site.Ends.append hends (fun m' => hfits.reaches_labelled m')
      (fun _ hr => hr) rfl rfl) (hreach.trans (hfits_else.reaches_labelled m₁)) hguards htouched

private theorem whileLoop_simulates (hv : sigs.Valid) (hruns : meaning.Runs sigs asm world)
    (hn : asm.labels.Nodup) {fuel : Nat} (cond : Expr) (body : List Stmt)
    (ih : site.Simulates world base (Stmt.emitAll sigs body) (Stmt.slotsOf body)
      (Stmt.execAll sigs meaning fuel body)) :
    site.Simulates world base ((Stmt.whileLoop cond body).emit sigs) (Stmt.whileLoop cond body).slots
      ((Stmt.whileLoop cond body).exec sigs meaning fuel) := by
  intro s s' hs hroom h hfits env m env' flow events' hshows hexec
  obtain ⟨t, t', htest, hbody, rfl⟩ := Stmt.emit_whileLoop_ok h
  have hnumbered := Frame.Rests.numbered s (s.labels.fresh "while").2
  have hlabelled := Frame.Rests.labelled (s.numbered (s.labels.fresh "while").2) (s.labels.fresh "while").1
  have hs₁ := (hs.rests hnumbered).rests hlabelled
  have hrests := Emit.branchUnless_rests hv hs₁.idle htest
  have ht := hs₁.rests hrests
  have hroom_t : t.usedSlots + Stmt.slotsOf body ≤ t.localSlots := by
    rw [hrests.usedSlots, hrests.localSlots]
    exact hroom
  have hblock := Stmt.block_declares hv ht hroom_t hbody
  have hfits' : t'.Fits site := ⟨hfits.of_labelled.of_coded.1, hfits.of_labelled.of_coded.2⟩
  have hentered := hfits'.earlier ((Stmt.emit_grows sigs).2 body _ _ hbody)
  have hfits_t : t.Fits site := ⟨hentered.1, hentered.2⟩
  have hfits₁ := Emit.branchUnless_fits htest hfits_t
  have hentries : t.entries = s.entries := hrests.entries
  have hlocal : t.localSlots = s.localSlots := hrests.localSlots
  have htestLoop : site.Tests world base t' (s.numbered (s.labels.fresh "while").2)
      (site.start + t.code.size)
      (site.start + ((t'.within t.scopes).coded (.jmp (s.labels.fresh "while").1)).code.size)
      (cond.test sigs meaning) := by
    intro env m b events' hshows htest'
    obtain ⟨m', hevents, hguards, hshows', hreach⟩ := Emit.branchUnless_reaches hv hruns hs₁ htest hfits_t
      (hfits.position? hn) (hshows.rests hlabelled) htest'
    exact ⟨m', hevents, hguards.touch hblock.touched, hshows'.congr rfl rfl,
      (hfits₁.reaches_labelled m).trans hreach⟩
  have hbodyLoop : site.Rounds world base t' (s.numbered (s.labels.fresh "while").2)
      (site.start + t.code.size) (site.start + t'.code.size)
      (Run.scoped (Stmt.execAll sigs meaning fuel body)) := by
    intro env m env' flow events' hshows hround
    have hends := block_ends hv ih ht hroom_t hbody hfits' (hshows.congr hentries hlocal) hround
    exact hends.append (fun _ => .refl) (fun _ hr => hr) hentries.symm (hlocal.symm.trans hblock.localSlots.symm)
  have hstepLoop : site.Steps world base t' (s.numbered (s.labels.fresh "while").2)
      (site.start + t'.code.size) pure := by
    intro env m env' events' hshows hpure
    obtain ⟨rfl, rfl⟩ := Run.pure_some.mp hpure
    exact ⟨m, rfl, .refl _ _ _, hshows, hfits.of_labelled.reaches_jmp (hfits₁.position? hn) m⟩
  have hloop := Site.loop htestLoop hbodyLoop hstepLoop fuel (hshows.rests hnumbered) hexec
  exact Site.Ends.append hloop (fun m' => hfits.reaches_labelled m') (fun _ hr => hr) hentries
    (hblock.localSlots.trans hlocal)

private theorem forLoop_simulates (hv : sigs.Valid) (hruns : meaning.Runs sigs asm world)
    (hn : asm.labels.Nodup) {fuel : Nat} (init : Option Simple) (cond : Option Expr) (step : Option Simple)
    (body : List Stmt)
    (ih : site.Simulates world base (Stmt.emitAll sigs body) (Stmt.slotsOf body)
      (Stmt.execAll sigs meaning fuel body)) :
    site.Simulates world base ((Stmt.forLoop init cond step body).emit sigs)
      (Stmt.forLoop init cond step body).slots
      ((Stmt.forLoop init cond step body).exec sigs meaning fuel) := by
  intro s s' hs hroom h hfits env m env' flow events' hshows hexec
  obtain ⟨r, t, t', r', hinit, htest, hbody, hstep, rfl⟩ := Stmt.emit_forLoop_ok h
  obtain ⟨hr, hrests, hblock, hround⟩ :=
    Stmt.forLoop_frames hv ((Stmt.emit_declares hv).2 body) hs hroom hinit htest hbody hstep
  have hslots : s.usedSlots + ((init.map Simple.slots).getD 0 + (step.map Simple.slots).getD 0 +
      Stmt.slotsOf body : Nat) ≤ s.localSlots := hroom
  push_cast at hslots
  have hentered := (hs.rests (.numbered s (s.labels.fresh "for").2)).enter
  have hinitRoom : s.usedSlots + (init.map Simple.slots).getD 0 ≤ s.localSlots := by omega
  have hlabelled := Frame.Rests.labelled r (s.labels.fresh "for").1
  have hs₁ := hr.settled.rests hlabelled
  have ht := hs₁.rests hrests
  have hused_r := hr.usedSlots
  have hlocal_r := hr.localSlots
  have hused_t : t.usedSlots = r.usedSlots := hrests.usedSlots
  have hlocal_t : t.localSlots = r.localSlots := hrests.localSlots
  have hused_b := hblock.usedSlots
  have hlocal_b := hblock.localSlots
  have hfits_end : ((r'.coded (.jmp (s.labels.fresh "for").1)).labelled
      ((s.labels.fresh "for").1 ++ "_end")).Fits site := ⟨hfits.1, hfits.2⟩
  have hfits_jmp := hfits_end.of_labelled
  have hfits_b := hfits_jmp.of_coded.earlier (Emit.Quiet.forM (Simple.emit_quiet sigs) hstep)
  have hfits' : t'.Fits site := ⟨hfits_b.1, hfits_b.2⟩
  have hentered' := hfits'.earlier ((Stmt.emit_grows sigs).2 body _ _ hbody)
  have hfits_t : t.Fits site := ⟨hentered'.1, hentered'.2⟩
  have hfits₁ := Emit.forM_branchUnless_fits htest hfits_t
  have hentries : t.entries = r.entries := hrests.entries
  have htouched (q : Register) (hq : t.pool.touched.contains q = true) :
      r'.pool.touched.contains q = true := hround.touched q (hblock.touched q hq)
  have htestLoop : site.Tests world base r' r (site.start + t.code.size)
      (site.start + (r'.coded (.jmp (s.labels.fresh "for").1)).code.size)
      (fun env => cond.elim (pure true) (·.test sigs meaning env)) := by
    intro env m b events' hshows htest'
    obtain ⟨m', hevents, hguards, hshows', hreach⟩ := Emit.forM_branchUnless_reaches hv hruns hs₁ htest
      hfits_t (hfits_end.position? hn) (hshows.rests hlabelled) htest'
    exact ⟨m', hevents, hguards.touch htouched, hshows'.congr rfl rfl,
      (hfits₁.reaches_labelled m).trans hreach⟩
  have hbodyLoop : site.Rounds world base r' r (site.start + t.code.size) (site.start + t'.code.size)
      (Run.scoped (Stmt.execAll sigs meaning fuel body)) := by
    intro env m env' flow events' hshows hexec'
    have hends := block_ends hv ih ht (by omega) hbody hfits' (hshows.congr hentries hlocal_t) hexec'
    exact hends.append (fun _ => .refl) hround.touched hentries.symm (hlocal_t.symm.trans hlocal_b.symm)
  have hstepLoop : site.Steps world base r' r (site.start + t'.code.size)
      (fun env => return (← step.elim (pure env) (·.exec sigs meaning env)).leave env.length) := by
    intro env m env' events' hshows hexec'
    obtain ⟨last, _, hlast, hpure⟩ := Run.bind_some.mp hexec'
    obtain ⟨rfl, rfl⟩ := Run.pure_some.mp hpure
    obtain ⟨m', hreach, hevents, hshows', hguards⟩ := Simple.forM_reaches hv hruns step hblock.settled
      (by omega) hstep hfits_jmp.of_coded (hshows.congr hentries (hlocal_b.trans hlocal_t)) hlast
    obtain ⟨new, hnew, _⟩ := hround.added
    have hleave := hshows'.leave (t := r) (hnew.trans (congrArg _ hentries))
      (by rw [hround.localSlots, hlocal_b, hlocal_t]) hshows.shown.length_eq
    exact ⟨m', hevents, hguards, hleave, hreach.trans (hfits_jmp.reaches_jmp (hfits₁.position? hn) m')⟩
  rw [Stmt.exec] at hexec
  obtain ⟨last, hall, rfl⟩ := Run.scoped_some.mp hexec
  obtain ⟨inner, _, hfirst, hloop⟩ := Run.bind_some.mp hall
  obtain ⟨m₁, hreach, rfl, hshows₁, hguards⟩ := Simple.forM_reaches hv hruns init hentered hinitRoom hinit
    hfits₁.of_labelled (hshows.congr rfl rfl) hfirst
  have hloop := Site.loop htestLoop hbodyLoop hstepLoop fuel hshows₁ hloop
  have hends := (hloop.append (fun m' => hfits_end.reaches_labelled m') (fun _ hr => hr) rfl rfl).prepend
    hreach hguards fun q hq => htouched q (hrests.touched q hq)
  obtain ⟨new, hnew, _⟩ := hr.added
  have hlocal' : r'.localSlots = s.localSlots := by
    rw [hround.localSlots, hlocal_b, hlocal_t, hlocal_r]
  exact (hends.leave hnew hlocal_r.symm hshows.shown.length_eq).append (fun _ => .refl) (fun _ hr => hr)
    rfl hlocal'

private theorem Emit.returnLabel_reaches {label : String} (h : Emit.returnLabel s = .ok label t)
    (hfits : (t.coded (.jmp label)).Fits site) :
    s.Fits site ∧ ∀ m, asm.Reaches world (site.at s m) ⟨site.exit, m⟩ := by
  rcases Emit.returnLabel_ok h with ⟨hlabel, rfl⟩ | ⟨hnone, _, rfl⟩
  · exact ⟨hfits.of_coded, hfits.reaches_jmp (hfits.2 label hlabel)⟩
  · refine ⟨⟨hfits.of_coded.1, ?_⟩, hfits.reaches_jmp (hfits.2 label rfl)⟩
    intro l hl
    exact absurd (hnone.symm.trans hl) (by simp)

private theorem ret_simulates (hv : sigs.Valid) (hruns : meaning.Runs sigs asm world) {fuel : Nat}
    (value : Option Expr) :
    site.Simulates world base ((Stmt.ret value).emit sigs) (Stmt.ret value).slots
      ((Stmt.ret value).exec sigs meaning fuel) := by
  intro s s' hs _ h hfits env m env' flow events' hshows hexec
  cases value with
  | none =>
    obtain ⟨label, t, hl, rfl⟩ := Stmt.emit_ret_none_ok h
    obtain ⟨rfl, rfl, rfl⟩ := Run.pair_some.mp hexec
    exact ⟨m, rfl, .refl _ _ _, (Emit.returnLabel_reaches hl hfits).2 m, nofun⟩
  | some value =>
    obtain ⟨rs, t, label, t', hvalue, _, hl, rfl⟩ := Stmt.emit_ret_some_ok h
    obtain ⟨result, _, heval, hpure⟩ := Run.bind_some.mp hexec
    obtain ⟨rfl, rfl, rfl⟩ := Run.pair_some.mp hpure
    have htouched := (Emit.returnLabel_rests hl).touched
    obtain ⟨hfits₁, hjump⟩ := Emit.returnLabel_reaches hl hfits
    by_cases hresult : rs = Register.result
    · rw [if_pos hresult] at hfits₁ hjump htouched
      obtain ⟨m', hreach, hagree, hevents, _, hguards⟩ :=
        value.emit_reaches hv hruns hs hvalue ⟨hfits₁.1, hfits₁.2⟩ hshows heval
      exact ⟨m', hevents, hguards.touch htouched, hreach.trans (hjump m'), hresult ▸ hagree⟩
    · rw [if_neg hresult] at hfits₁ hjump htouched
      have hcoded : (t.coded (.mov Register.result rs)).Fits site := ⟨hfits₁.1, hfits₁.2⟩
      obtain ⟨m', hreach, hagree, hevents, _, hguards⟩ :=
        value.emit_reaches hv hruns hs hvalue hcoded.of_coded hshows heval
      have hmove : asm.Reaches world (site.at t m') (site.at (t.coded (.mov Register.result rs))
          (m'.set Register.result (m'.reg rs))) := hcoded.reaches_coded rfl
      refine ⟨m'.set Register.result (m'.reg rs), hevents, ?_, hreach.trans (hmove.trans (hjump _)),
        by simpa using hagree⟩
      exact (hguards.set (by decide) _).touch htouched

/-- A statement that ends in the program ends on the machine. -/
theorem Stmt.emit_simulates (hv : sigs.Valid) (hruns : meaning.Runs sigs asm world)
    (hn : asm.labels.Nodup) (site : Site asm) (base : Int) (fuel : Nat) :
    (∀ stmt : Stmt, site.Simulates world base (stmt.emit sigs) stmt.slots (stmt.exec sigs meaning fuel)) ∧
    ∀ body : List Stmt, site.Simulates world base (Stmt.emitAll sigs body) (Stmt.slotsOf body)
      (Stmt.execAll sigs meaning fuel body) := by
  apply Stmt.induction
  case simple =>
    intro stmt s s' hs hroom h hfits env m env' flow events' hshows hexec
    obtain ⟨env₁, _, hstmt, hpure⟩ := Run.bind_some.mp hexec
    obtain ⟨rfl, rfl, rfl⟩ := Run.pair_some.mp hpure
    obtain ⟨m', hreach, hevents, hshows', hguards⟩ :=
      stmt.emit_reaches hv hruns hs hroom h hfits hshows hstmt
    exact ⟨m', hevents, hguards, hreach, hshows'⟩
  case ifThen => exact fun cond body ih => ifThen_simulates hv hruns hn cond body ih
  case ifElse => exact fun cond body other ihbody ihother =>
    ifElse_simulates hv hruns hn cond body other ihbody ihother
  case whileLoop => exact fun cond body ih => whileLoop_simulates hv hruns hn cond body ih
  case forLoop => exact fun init cond step body ih => forLoop_simulates hv hruns hn init cond step body ih
  case ret => exact fun value => ret_simulates hv hruns value
  case block =>
    intro body ih s s' hs hroom h hfits env m env' flow events' hshows hexec
    obtain ⟨t, hbody, rfl⟩ := Stmt.emit_block_ok h
    have hends := block_ends hv ih hs hroom hbody ⟨hfits.1, hfits.2⟩ hshows hexec
    exact hends.append (fun _ => .refl) (fun _ hr => hr) rfl rfl
  case nil =>
    intro s s' _ _ h _ env m env' flow events' hshows hexec
    obtain ⟨_, rfl⟩ := Emit.pure_ok.mp h
    obtain ⟨rfl, rfl, rfl⟩ := Run.pair_some.mp hexec
    exact ⟨m, rfl, .refl _ _ _, .refl, hshows⟩
  case cons =>
    intro stmt rest ihstmt ihrest s s' hs hroom h hfits env m env' flow events' hshows hexec
    obtain ⟨t, hstmt, hrest⟩ := Stmt.emitAll_cons_ok h
    have hslots : s.usedSlots + (stmt.slots + Stmt.slotsOf rest) ≤ s.localSlots := by
      simpa [Stmt.slotsOf] using hroom
    have hfirst := (Stmt.emit_declares hv).1 stmt s t hs (by omega) hstmt
    have hused := hfirst.usedSlots
    have hlocal := hfirst.localSlots
    have hlater := (Stmt.emit_declares hv).2 rest t s' hfirst.settled (by omega) hrest
    have hfits_t := hfits.earlier ((Stmt.emit_grows sigs).2 rest _ _ hrest)
    simp only [Stmt.execAll, Run.bind_some] at hexec
    obtain ⟨⟨env₁, flow₁⟩, _, hexec₁, hexec⟩ := hexec
    obtain ⟨m₁, rfl, hguards, hend⟩ := ihstmt hs (by omega) hstmt hfits_t hshows hexec₁
    cases flow₁ with
    | next =>
      exact (ihrest hfirst.settled (by omega) hrest hfits hend.2 hexec).prepend hend.1 hguards hlater.touched
    | returned value =>
      obtain ⟨rfl, rfl, rfl⟩ := Run.pair_some.mp hexec
      exact ⟨m₁, rfl, hguards.touch hlater.touched, hend⟩

end Simulation

end WordLang
