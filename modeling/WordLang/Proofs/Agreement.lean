import WordLang.Proofs.CallCode
import WordLang.Proofs.Execution

/-!
# Values of the program and of the machine

The machine has some number where the program leaves a value undetermined, and the same number otherwise.
If the calls of a unit do on the machine what they mean, then an expression that has a value in the program
can have only values on the machine that agree with it, and the external calls are the same.
-/

namespace WordLang

def Value.Agrees (value : Value) (v : Int) : Prop :=
  ∀ word, value = some word → v = word.toInt

/-- All variables are numbers that agree with their values. -/
def Env.Agrees (env : Env) (homes : Homes) : Prop :=
  List.Forall₂ (fun var home => var.1 = home.1 ∧ ∃ v, home.2 = .value v ∧ var.2.Agrees v) env homes

/-- What a call keeps for its caller. -/
structure Machine.Restored (m m' : Machine) : Prop where
  fp : m'.reg .fp = m.reg .fp
  sp : m'.reg .sp = m.reg .sp
  saved : ∀ r ∈ RegisterClass.calleeSaved.members, m'.reg r = m.reg r
  mem : ∀ a, m.reg .sp ≤ a → m'.mem a = m.mem a

namespace CallMeaning

/-- The account of calls by the numbers that their results can be. -/
def answers (meaning : CallMeaning) (sigs : Signatures) (floor : Int) : Answers floor :=
  fun callee args o Q => ∃ sig ∈ sigs.entries, sig.callee = callee ∧ ∃ values result events',
    List.Forall₂ Value.Agrees values args ∧ meaning sig values o.events = some (result, events') ∧
      ∀ v, result.Agrees v → Q v ⟨o.mem, events'⟩

/-- Calls do on the machine what they mean. -/
def Runs (meaning : CallMeaning) (sigs : Signatures) (asm : Assembly) (world : World) : Prop :=
  ∀ sig ∈ sigs.entries, ∀ (m : Machine) (values : List Value) (result : Value) (events' : List Event),
    meaning sig values m.events = some (result, events') →
    List.Forall₂ Value.Agrees values ((Register.arguments.take sig.arity).map m.reg) →
    asm.calls world sig.callee m fun m' =>
      result.Agrees (m'.reg Register.result) ∧ m'.events = events' ∧ m.Restored m'

end CallMeaning

private theorem Signatures.Valid.callee_inj {sigs : Signatures} (hv : sigs.Valid) {sig sig' : Signature}
    (h : sig ∈ sigs.entries) (h' : sig' ∈ sigs.entries) (hc : sig.callee = sig'.callee) : sig = sig' := by
  have hname : sig.name = sig'.name := by
    unfold Signature.callee at hc
    by_cases hcustom : sig.custom <;> by_cases hcustom' : sig'.custom <;>
      simp [hcustom, hcustom'] at hc <;> exact hc
  have hfind := hv.find?_eq h
  rw [hname, hv.find?_eq h'] at hfind
  exact (Option.some.inj hfind).symm

/-- The setting in which calls have a meaning that the machine follows. -/
def Setting.ofMeaning {sigs : Signatures} (hv : sigs.Valid) {asm : Assembly} {world : World}
    {meaning : CallMeaning} (hruns : meaning.Runs sigs asm world) (floor : Int) (homes : Homes) :
    Setting sigs where
  floor := floor
  homes := homes
  answers := meaning.answers sigs floor
  calls := asm.calls world
  monotone := asm.calls_monotone world
  honest := by
    intro sig hsig m args Q hsp hargs _ hanswers
    obtain ⟨sig', hsig', hcallee, values, result, events', hvalues, hmeaning, hQ⟩ := hanswers
    obtain rfl := hv.callee_inj hsig' hsig hcallee
    have hcall := hruns sig' hsig m values result events' hmeaning (by rwa [hargs])
    refine asm.calls_monotone world hcall ?_
    rintro m' ⟨hresult, hevents, hrestored⟩
    have habove : m'.above floor = ⟨(m.above floor).mem, events'⟩ := by
      unfold Machine.above
      rw [hevents]
      congr 1
      funext a ha
      exact hrestored.mem a (by omega)
    rw [habove]
    exact ⟨hQ _ hresult, hrestored.fp, hrestored.sp, hrestored.saved, fun a ha _ => hrestored.mem a ha⟩

private theorem Env.Agrees.lookup {env : Env} {homes : Homes} (h : env.Agrees homes) {name : String}
    {value : Value} (hl : env.lookup name = some value) :
    ∃ v, homes.find? name = some (.value v) ∧ value.Agrees v := by
  unfold Homes.find?
  induction h with
  | nil => simp at hl
  | @cons var home env homes hvar _ ih =>
    obtain ⟨declared, w⟩ := var
    obtain ⟨declared', dwelling⟩ := home
    obtain ⟨rfl, v, rfl, hagrees⟩ := hvar
    simp only [List.lookup_cons] at hl ⊢
    by_cases hname : name == declared
    · simp only [hname, Option.some.injEq] at hl ⊢
      exact ⟨v, rfl, hl ▸ hagrees⟩
    · simp only [hname] at hl ⊢
      exact ih hl

private theorem Value.Agrees.map {value : Value} {v : Int} (h : value.Agrees v) (f : Word → Word) :
    Value.Agrees (value.map f) (f (Int32.ofInt v)).toInt := by
  intro word hword
  obtain ⟨x, rfl, rfl⟩ := Option.map_eq_some_iff.mp hword
  rw [h x rfl, Int32.ofInt_toInt]

private theorem Value.Agrees.map₂ {a b : Value} {x y : Int} (ha : a.Agrees x) (hb : b.Agrees y)
    (f : Word → Word → Word) :
    Value.Agrees (a.bind fun a => b.map (f a)) (f (Int32.ofInt x) (Int32.ofInt y)).toInt := by
  intro word hword
  obtain ⟨p, rfl, hword⟩ := Option.bind_eq_some_iff.mp hword
  obtain ⟨q, rfl, rfl⟩ := Option.map_eq_some_iff.mp hword
  rw [ha p rfl, hb q rfl, Int32.ofInt_toInt, Int32.ofInt_toInt]

namespace Expr

variable {sigs : Signatures} {meaning : CallMeaning} {floor : Int} {env : Env} {homes : Homes}
  {mem : (a : Int) → floor ≤ a → Int} {events events' : List Event}

private theorem evalAll_yields {es : List Expr} {values : List Value}
    (ih : ∀ e ∈ es, ∀ (value : Value) (events events' : List Event) (Q : Int → Outside floor → Prop),
      e.eval sigs meaning env events = some (value, events') →
      (∀ v, value.Agrees v → Q v ⟨mem, events'⟩) →
      e.Yields sigs homes.find? (meaning.answers sigs floor) ⟨mem, events⟩ Q)
    (h : evalAll sigs meaning es env events = some (values, events')) {Q : List Int → Outside floor → Prop}
    (hQ : ∀ vs, List.Forall₂ Value.Agrees values vs → Q vs ⟨mem, events'⟩) :
    YieldsAll sigs homes.find? (meaning.answers sigs floor) es ⟨mem, events⟩ Q := by
  induction es generalizing values events Q with
  | nil =>
    obtain ⟨rfl, rfl⟩ := Run.pure_some.mp h
    exact hQ [] .nil
  | cons e es ihs =>
    simp only [evalAll, Run.bind_some, Run.pure_some] at h
    obtain ⟨value, mid, he, rest, _, hes, rfl, rfl⟩ := h
    refine ih e List.mem_cons_self value events mid _ he fun v hv => ?_
    refine ihs (fun e' he' => ih e' (List.mem_cons_of_mem e he')) hes fun vs hvs => ?_
    exact hQ (v :: vs) (.cons hv hvs)

/-- The values of an expression on the machine agree with its value in the program. -/
theorem eval_yields (e : Expr) (hagrees : env.Agrees homes) {value : Value}
    {Q : Int → Outside floor → Prop} (h : e.eval sigs meaning env events = some (value, events'))
    (hQ : ∀ v, value.Agrees v → Q v ⟨mem, events'⟩) :
    e.Yields sigs homes.find? (meaning.answers sigs floor) ⟨mem, events⟩ Q := by
  induction e using Expr.induction generalizing events events' value Q with
  | num word =>
    obtain ⟨rfl, rfl⟩ := Run.pure_some.mp h
    exact hQ word.toInt fun x hx => by rw [Option.some.inj hx]
  | var name pos =>
    obtain ⟨hlookup, rfl⟩ := Run.lift_some.mp h
    obtain ⟨v, hfind, hv⟩ := hagrees.lookup hlookup
    exact ⟨.value v, v, hfind, rfl, hQ v hv⟩
  | index name i pos ih => exact (Run.failure_some.mp h).elim
  | call name args pos ih =>
    simp only [eval, Run.bind_some, Run.lift_some] at h
    obtain ⟨sig, _, ⟨hfind, rfl⟩, values, mid, hargs, hcall⟩ := h
    refine ⟨sig, hfind, evalAll_yields (fun e he _ _ _ _ hv hR => ih e he hv hR) hargs fun vs hvs => ?_⟩
    exact ⟨sig, List.mem_of_find?_eq_some hfind, rfl, values, value, events', hvs, hcall, hQ⟩
  | unary op operand ih =>
    simp only [eval, Run.bind_some, Run.pure_some] at h
    obtain ⟨a, _, ha, rfl, rfl⟩ := h
    exact ih ha fun v hv => hQ _ (hv.map op.eval)
  | binary op lhs rhs ihl ihr =>
    simp only [eval, Run.bind_some, Run.pure_some] at h
    obtain ⟨a, mid, ha, b, _, hb, rfl, rfl⟩ := h
    exact ihl ha fun x hx => ihr hb fun y hy => hQ _ (hx.map₂ hy op.eval)

end Expr

end WordLang
