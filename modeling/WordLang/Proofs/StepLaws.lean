import WordLang.Proofs.Emission

/-!
# Laws of compilation steps

Many facts about compilation hold of single steps and pass from steps to sequences of steps, with a count of the
words claimed and of the words moved to or from the stack. Such a fact holds of all code as soon as it holds of
the few steps that emission is made of. The induction over the syntax is made once here, for any such fact.
-/

namespace WordLang

/-! ## Names and moved words -/

mutual

/-- The names in an expression, each with its place. -/
def Expr.names : Expr → List (String × Nat)
  | .num _ => []
  | .var name pos => [(name, pos)]
  | .index name i pos => (name, pos) :: i.names
  | .call callee args pos => (callee, pos) :: namesOf args
  | .unary _ operand => operand.names
  | .binary _ lhs rhs => lhs.names ++ rhs.names

def Expr.namesOf : List Expr → List (String × Nat)
  | [] => []
  | e :: es => e.names ++ namesOf es

end

def Place.names : Place → List (String × Nat)
  | .var name pos => [(name, pos)]
  | .element name index pos => (name, pos) :: index.names

def Simple.names : Simple → List (String × Nat)
  | .var name init pos => (name, pos) :: (init.map Expr.names).getD []
  | .array name _ pos => [(name, pos)]
  | .assign target value => target.names ++ value.names
  | .expr value => value.names

mutual

def Stmt.names : Stmt → List (String × Nat)
  | .simple stmt => stmt.names
  | .ifThen cond body => cond.names ++ namesOf body
  | .ifElse cond body other => cond.names ++ (namesOf body ++ namesOf other)
  | .whileLoop cond body => cond.names ++ namesOf body
  | .forLoop init cond step body =>
    (init.map Simple.names).getD [] ++ ((cond.map Expr.names).getD [] ++
      ((step.map Simple.names).getD [] ++ namesOf body))
  | .ret value => (value.map Expr.names).getD []
  | .block body => namesOf body

def Stmt.namesOf : List Stmt → List (String × Nat)
  | [] => []
  | stmt :: rest => stmt.names ++ namesOf rest

end

def Item.names : Item → List (String × Nat)
  | .function header body => (header.name, header.pos) :: Stmt.namesOf body
  | .external header => [(header.name, header.pos)]
  | .stmt s => s.names

def CompilationUnit.names (unit : CompilationUnit) : List (String × Nat) :=
  unit.items.flatMap Item.names

private theorem Expr.names_subset_namesOf {e : Expr} {es : List Expr} (h : e ∈ es) : e.names ⊆ namesOf es := by
  induction es with
  | nil => simp at h
  | cons e' es ih =>
    rw [namesOf]
    rcases List.mem_cons.mp h with rfl | h
    · exact List.subset_append_left _ _
    · exact List.subset_append_of_subset_right _ (ih h)

mutual

/-- How many words the code of an expression moves to or from the stack at most: a call pushes the caller-saved
registers and its arguments, and pops them again. -/
def Expr.moves : Expr → Nat
  | .num _ | .var _ _ => 0
  | .index _ i _ => i.moves
  | .call _ args _ => 12 + 2 * args.length + movesOf args
  | .unary _ operand => operand.moves
  | .binary _ lhs rhs => lhs.moves + rhs.moves

def Expr.movesOf : List Expr → Nat
  | [] => 0
  | e :: es => e.moves + movesOf es

end

def Place.moves : Place → Nat
  | .var _ _ => 0
  | .element _ index _ => index.moves

def Simple.moves : Simple → Nat
  | .var _ init _ => (init.map Expr.moves).getD 0
  | .array _ _ _ => 0
  | .assign target value => target.moves + value.moves
  | .expr value => value.moves

mutual

def Stmt.moves : Stmt → Nat
  | .simple stmt => stmt.moves
  | .ifThen cond body => cond.moves + movesOf body
  | .ifElse cond body other => cond.moves + (movesOf body + movesOf other)
  | .whileLoop cond body => cond.moves + movesOf body
  | .forLoop init cond step body =>
    (init.map Simple.moves).getD 0 + ((cond.map Expr.moves).getD 0 +
      ((step.map Simple.moves).getD 0 + movesOf body))
  | .ret value => (value.map Expr.moves).getD 0
  | .block body => movesOf body

def Stmt.movesOf : List Stmt → Nat
  | [] => 0
  | stmt :: rest => stmt.moves + movesOf rest

end

@[elab_as_elim]
theorem Expr.induction {P : Expr → Prop} (num : ∀ value, P (.num value))
    (var : ∀ name pos, P (.var name pos))
    (index : ∀ name i pos, P i → P (.index name i pos))
    (call : ∀ callee args pos, (∀ e ∈ args, P e) → P (.call callee args pos))
    (unary : ∀ op operand, P operand → P (.unary op operand))
    (binary : ∀ op lhs rhs, P lhs → P rhs → P (.binary op lhs rhs)) (e : Expr) : P e := by
  refine @Expr.rec P (fun args => ∀ e ∈ args, P e) ?_ ?_ ?_ ?_ ?_ ?_ ?_ ?_ e
  · exact num
  · exact var
  · exact index
  · exact call
  · exact unary
  · exact binary
  · simp
  · intro first rest hfirst hrest e he
    rcases List.mem_cons.mp he with rfl | he
    · exact hfirst
    · exact hrest e he

theorem Stmt.induction {P : Stmt → Prop} {Ps : List Stmt → Prop} (simple : ∀ stmt, P (.simple stmt))
    (ifThen : ∀ cond body, Ps body → P (.ifThen cond body))
    (ifElse : ∀ cond body other, Ps body → Ps other → P (.ifElse cond body other))
    (whileLoop : ∀ cond body, Ps body → P (.whileLoop cond body))
    (forLoop : ∀ init cond step body, Ps body → P (.forLoop init cond step body))
    (ret : ∀ value, P (.ret value)) (block : ∀ body, Ps body → P (.block body))
    (nil : Ps []) (cons : ∀ stmt rest, P stmt → Ps rest → Ps (stmt :: rest)) :
    (∀ stmt, P stmt) ∧ ∀ body, Ps body :=
  ⟨@Stmt.rec P Ps simple ifThen ifElse whileLoop forLoop ret block nil cons,
    @Stmt.rec_1 P Ps simple ifThen ifElse whileLoop forLoop ret block nil cons⟩

/-! ## Steps -/

def CompileError.name? : CompileError → Option String
  | pool _ | overflow _ => none
  | duplicate name _ | reservedName name _ | unknownFunction name _ | unknownVariable name _
  | tooManyParameters name _ _ | wrongArity name _ _ _ | notAssignable name _ => some name

/-- Instructions after which the next one follows, and calls of known functions. -/
def Instruction.Plain (sigs : Signatures) : Instruction → Prop
  | .jmp _ | .jz _ _ | .ret => False
  | .call callee => ∃ sig ∈ sigs.entries, callee = sig.callee
  | _ => True

theorem Storage.fetch_plain (sigs : Signatures) (storage : Storage) (rd : Register) :
    (storage.fetch rd).Plain sigs := by
  cases storage with
  | register r => trivial
  | stack offset array => cases array <;> trivial

/-- The frame under the policy that overlooks a register freed twice. -/
def Frame.lenient (s : Frame) : Frame :=
  { s with pool := { s.pool with policy := .lenient } }

namespace Emit

variable {α β : Type}

private theorem spill_length {s t : Frame} {spills : List Spill} (h : spill s = .ok spills t) : spills.length ≤ 6 := by
  have hlength {rs : List Register} {s : Frame} {spills : List Spill}
      (h : rs.filterMapM spillRegister s = .ok spills t) : spills.length ≤ rs.length := by
    induction rs generalizing s spills with
    | nil =>
      obtain ⟨rfl, -⟩ := pure_ok.mp h
      exact Nat.le_refl _
    | cons r rs ih =>
      rw [List.filterMapM_cons] at h
      obtain ⟨found, u, -, h⟩ := bind_ok.mp h
      cases found with
      | none => exact Nat.le_succ_of_le (ih h)
      | some _ =>
        obtain ⟨others, _, hothers, h⟩ := bind_ok.mp h
        obtain ⟨rfl, rfl⟩ := pure_ok.mp h
        exact Nat.succ_le_succ (ih hothers)
  exact hlength h

/-- A fact about steps that claim at most `claims` words and move at most `moves` words to or from the stack. -/
abbrev StepFact := {α : Type} → (claims moves : Nat) → Emit α → Prop

/-- The fact passes to sequences of steps, and it holds of the steps that code for expressions is made of. The
names that are met satisfy `K`. Steps read nothing of the pool's policy. -/
structure ExprLaw (sigs : Signatures) (K : String × Nat → Prop) (P : StepFact) : Prop where
  pure {α : Type} (a : α) : P 0 0 (pure a : Emit α)
  bind {α β : Type} {x : Emit α} {f : α → Emit β} {n m n' m' : Nat} (hx : P n m x)
    (hf : ∀ s a t, x s = .ok a t → P n' m' (f a)) : P (n + n') (m + m') (x >>= f)
  mono {α : Type} {x : Emit α} {n m n' m' : Nat} (hx : P n m x) (hn : n ≤ n') (hm : m ≤ m') : P n' m' x
  throw {α : Type} {e : CompileError} {name : String} (hname : e.name? = some name)
    (hpos : ∀ pos, e.offset? = some pos → K (name, pos)) : P 0 0 (throw e : Emit α)
  get_bind {β : Type} {f : Frame → Emit β} {n m : Nat} (hread : ∀ s : Frame, f s.lenient = f s)
    (hf : ∀ s, P n m (f s)) : P n m (get >>= f)
  within (scopes : Scopes) : P 0 0 (modify fun s => { s with scopes } : Emit PUnit)
  instruction {i : Instruction} (hi : i.Plain sigs) : P 0 0 (instruction i)
  allocate (wanted : RegisterClass) : P 0 0 (allocate wanted)
  reserve (r : Register) : P 0 0 (reserve r)
  free (r : Register) : P 0 0 (free r)
  push (r : Register) : P 0 1 (push r)
  pop (r : Register) : P 0 1 (pop r)

structure SimpleLaw (sigs : Signatures) (K : String × Nat → Prop) (P : StepFact) : Prop
    extends ExprLaw sigs K P where
  claim (size : Nat) : P size 0 (claim size)

structure StmtLaw (sigs : Signatures) (K : String × Nat → Prop) (P : StepFact) : Prop
    extends SimpleLaw sigs K P where
  jump (i : Instruction) : P 0 0 (Emit.instruction i)
  block (label : String) : P 0 0 (block label)
  numbered (labels : LabelSupply) : P 0 0 (modify fun s => { s with labels } : Emit PUnit)
  returning (label : String) : P 0 0 (modify fun s => { s with returnLabel := some label } : Emit PUnit)
  read (r : Register) : P 0 0 (read r)

/-- The fact passes to sequences of steps, and it holds of the steps that counting is made of. -/
structure CountingLaw (P : {α : Type} → Emit α → Prop) : Prop where
  bind {α β : Type} {x : Emit α} {f : α → Emit β} (hx : P x) (hf : ∀ s a t, x s = .ok a t → P (f a)) : P (x >>= f)
  get_bind {β : Type} {f : Frame → Emit β} (hread : ∀ s : Frame, f s.lenient = f s) (hf : ∀ s, P (f s)) :
    P (get >>= f)
  instruction (i : Instruction) : P (instruction i)
  counted (operation : String) (n : Int) : P (counted operation n)
  used {n : Int} (hn : Counter.InRange n) : P (modify fun s => { s with usedSlots := n } : Emit PUnit)
  deep {n : Int} (hn : Counter.InRange n) : P (modify fun s => { s with stackDepth := n } : Emit PUnit)

namespace CountingLaw

variable {P : {α : Type} → Emit α → Prop} (law : CountingLaw P)

include law

theorem claim (size : Int) : P (claim size) := by
  refine law.get_bind (fun _ => rfl) fun s => law.bind (law.counted _ _) fun _ _ _ hrun => ?_
  obtain ⟨hrange, rfl, rfl⟩ := counted_ok.mp hrun
  exact law.bind (law.used hrange) fun _ _ _ _ => law.counted _ _

theorem push (r : Register) : P (push r) := by
  refine law.bind (law.instruction _) fun _ _ _ _ => law.get_bind (fun _ => rfl) fun s => ?_
  refine law.bind (law.counted _ _) fun _ _ _ hrun => ?_
  obtain ⟨hrange, rfl, rfl⟩ := counted_ok.mp hrun
  refine law.bind (law.deep hrange) fun _ _ _ _ => law.get_bind (fun _ => rfl) fun s => ?_
  exact law.bind (law.counted _ _) fun _ _ _ _ => law.counted _ _

theorem pop (r : Register) : P (pop r) := by
  refine law.bind (law.instruction _) fun _ _ _ _ => law.get_bind (fun _ => rfl) fun s => ?_
  refine law.bind (law.counted _ _) fun _ _ _ hrun => ?_
  obtain ⟨hrange, rfl, rfl⟩ := counted_ok.mp hrun
  exact law.deep hrange

end CountingLaw

namespace ExprLaw

variable {sigs : Signatures} {K : String × Nat → Prop} {P : StepFact} (law : ExprLaw sigs K P) {n m : Nat}

include law

theorem bind_left {x : Emit α} {f : α → Emit β} (hx : P n m x) (hf : ∀ a, P 0 0 (f a)) : P n m (x >>= f) :=
  law.bind hx fun _ a _ _ => hf a

private theorem bind_right {x : Emit α} {f : α → Emit β} (hx : P 0 0 x) (hf : ∀ a, P n m (f a)) : P n m (x >>= f) := by
  have h := law.bind hx fun _ a _ _ => hf a
  rwa [Nat.zero_add, Nat.zero_add] at h

private theorem bind_both {x : Emit α} {f : α → Emit β} {m₁ m₂ : Nat} (hx : P 0 m₁ x) (hf : ∀ a, P 0 m₂ (f a)) :
    P 0 (m₁ + m₂) (x >>= f) :=
  law.bind hx fun _ a _ _ => hf a

private theorem of_zero {x : Emit α} (hx : P 0 0 x) : P n m x :=
  law.mono hx (Nat.zero_le _) (Nat.zero_le _)

theorem ite {c : Prop} [Decidable c] {x y : Emit α} (hx : P n m x) (hy : P 0 0 y) :
    P n m (if c then x else y) := by
  split
  · exact hx
  · exact law.of_zero hy

protected theorem forM {xs : List β} {f : β → Emit PUnit} {k : Nat} (hf : ∀ x ∈ xs, P 0 k (f x)) :
    P 0 (xs.length * k) (forM xs f) := by
  induction xs with
  | nil => exact law.of_zero (law.pure _)
  | cons x xs ih =>
    rw [List.forM_cons, List.length_cons, Nat.succ_mul, Nat.add_comm]
    exact law.bind_both (hf x List.mem_cons_self) fun _ => ih fun y hy => hf y (List.mem_cons_of_mem x hy)

theorem forM_zero {xs : List β} {f : β → Emit PUnit} (hf : ∀ x ∈ xs, P 0 0 (f x)) : P 0 0 (forM xs f) := by
  have h := law.forM hf
  rwa [Nat.mul_zero] at h

private theorem filterMapM {xs : List α} {f : α → Emit (Option β)} {k : Nat} (hf : ∀ x, P 0 k (f x)) :
    P 0 (xs.length * k) (xs.filterMapM f) := by
  induction xs with
  | nil => exact law.of_zero (law.pure _)
  | cons x xs ih =>
    rw [List.filterMapM_cons, List.length_cons, Nat.succ_mul, Nat.add_comm]
    refine law.bind_both (hf x) fun found => ?_
    cases found with
    | none => exact ih
    | some b => exact law.bind_left ih fun bs => law.pure _

/-! ### Expressions -/

theorem lookup {name : String} {pos : Nat} (hname : K (name, pos)) : P 0 0 (lookup name (some pos)) := by
  refine law.get_bind (fun _ => rfl) fun s => ?_
  rw [Scopes.lookup]
  cases s.scopes.layers.findSome? fun scope => scope.lookup name with
  | some storage => exact law.pure storage
  | none => exact law.throw rfl fun _ hpos => Option.some.inj hpos ▸ hname

private theorem withScopes {operation : Scopes → Except CompileError Scopes}
    (h : ∀ scopes e, operation scopes = .error e →
      ∃ name, e.name? = some name ∧ ∀ pos, e.offset? = some pos → K (name, pos)) : P 0 0 (withScopes operation) := by
  refine law.get_bind (fun _ => rfl) fun s => ?_
  cases hscopes : operation s.scopes with
  | ok scopes => exact law.within scopes
  | error e =>
    obtain ⟨name, hname, hpos⟩ := h _ e hscopes
    exact law.throw hname hpos

theorem declare {name : String} {storage : Storage} {pos : Nat} (hname : K (name, pos)) :
    P 0 0 (declare name storage (some pos)) := by
  refine law.withScopes fun scopes e hscopes => ?_
  rw [Scopes.declare] at hscopes
  split at hscopes <;> cases hscopes
  exact ⟨name, rfl, fun _ hpos => Option.some.inj hpos ▸ hname⟩

private theorem rebind (binding : Binding) (storage : Storage) : P 0 0 (rebind binding storage) := by
  refine law.withScopes fun scopes e hscopes => ?_
  rw [Scopes.rebind] at hscopes
  split at hscopes <;> cases hscopes
  exact ⟨binding.name, rfl, fun _ hpos => by cases hpos⟩

private theorem withZero {step : Register → Emit Unit} (hs : ∀ r, P 0 0 (step r)) : P 0 0 (withZero step) := by
  refine law.bind_left (law.allocate _) fun zero => law.bind_left (law.instruction trivial) fun _ => ?_
  exact law.bind_left (hs zero) fun _ => law.free zero

theorem address {name : String} {pos : Nat} {wanted : RegisterClass} {index : Emit Register}
    (hname : K (name, pos)) (hi : P 0 m index) : P 0 m (address name pos wanted index) := by
  refine law.bind_right (law.lookup hname) fun _ => law.bind_left hi fun rs => ?_
  refine law.bind_left (law.lookup hname) fun base => law.bind_left (law.allocate wanted) fun rd => ?_
  refine law.bind_left (law.instruction (base.fetch_plain sigs rd)) fun _ => ?_
  exact law.bind_left (law.instruction trivial) fun _ => law.bind_left (law.free rs) fun _ => law.pure rd

private theorem stage {argument : Emit Register} (ha : P 0 m argument) : P 0 (m + 1) (stage argument) :=
  law.bind_both ha fun rs => law.bind_left (law.push rs) fun _ => law.free rs

theorem pass {args : List Expr} (ha : ∀ e ∈ args, P 0 e.moves (e.emit sigs .callerSaved)) :
    P 0 (2 * args.length + Expr.movesOf args) (pass (Expr.emitAll sigs args)) := by
  have hstage : ∀ args : List Expr, (∀ e ∈ args, P 0 e.moves (e.emit sigs .callerSaved)) →
      P 0 (args.length + Expr.movesOf args) (ForM.forM (Expr.emitAll sigs args) Emit.stage) := by
    intro args ha
    induction args with
    | nil => exact law.of_zero (law.pure _)
    | cons e es ih =>
      rw [Expr.emitAll, List.forM_cons]
      refine law.mono (law.bind_both (law.stage (ha e List.mem_cons_self)) fun _ =>
        ih fun e' he' => ha e' (List.mem_cons_of_mem e he')) (Nat.le_refl _) ?_
      rw [List.length_cons, Expr.movesOf]
      omega
  cases args with
  | nil => exact law.of_zero (law.pure _)
  | cons first others =>
    cases others with
    | nil =>
      refine law.mono (law.bind_left (ha first List.mem_cons_self) fun rs => law.ite ?_ (law.pure _)) (Nat.le_refl _)
        (by simp [Expr.movesOf])
      exact law.bind_left (law.reserve _) fun _ => law.bind_left (law.instruction trivial) fun _ => law.free rs
    | cons second rest =>
      refine law.mono (law.bind_both (hstage _ ha) fun _ => law.forM fun r _ =>
        law.bind_right (law.reserve r) fun _ => law.pop r) (Nat.le_refl _) ?_
      simp only [List.length_reverse, List.length_take, List.length_cons, Expr.emitAll_eq, List.length_map]
      omega

theorem receive (wanted : RegisterClass) : P 0 0 (receive wanted) := by
  refine law.get_bind (fun _ => rfl) fun s => law.ite ?_ ?_
  · exact law.bind_left (law.reserve _) fun _ => law.pure _
  · refine law.bind_left (law.allocate wanted) fun rd => ?_
    exact law.bind_left (law.instruction trivial) fun _ => law.pure rd

private theorem spillRegister (r : Register) : P 0 1 (spillRegister r) := by
  refine law.get_bind (fun _ => rfl) fun s => law.ite ?_ (law.of_zero (law.pure _))
  cases s.scopes.holder? r with
  | none => exact law.of_zero (law.pure _)
  | some binding =>
    refine law.bind_left (law.push r) fun offset => law.bind_left (law.rebind _ _) fun _ => ?_
    exact law.bind_left (law.free r) fun _ => law.pure _

theorem spill : P 0 6 spill := by
  have h : P 0 (RegisterClass.callerSaved.members.length * 1) Emit.spill := law.filterMapM law.spillRegister
  exact h

theorem restore (spills : List Spill) : P 0 spills.length (restore spills) := by
  refine law.mono (law.forM fun s _ => law.bind_left (law.pop s.register) fun _ => law.rebind s.binding _)
    (Nat.le_refl _) (Nat.le_of_eq ?_)
  rw [List.length_reverse, Nat.mul_one]

theorem call {name : String} {pos : Nat} {args : List Expr} {finish : Emit α} (hname : K (name, pos))
    (ha : ∀ e ∈ args, P 0 e.moves (e.emit sigs .callerSaved)) (hf : P 0 0 finish) :
    P 0 (12 + 2 * args.length + Expr.movesOf args) (call sigs name pos (Expr.emitAll sigs args) finish) := by
  unfold Emit.call
  rw [Signatures.lookup]
  cases hfind : sigs.find? name with
  | none => exact law.of_zero (law.throw rfl fun _ hpos => Option.some.inj hpos ▸ hname)
  | some sig =>
    have hcall : (Instruction.call sig.callee).Plain sigs := ⟨sig, List.mem_of_find?_eq_some hfind, rfl⟩
    have hbody : P 0 (6 + (2 * args.length + Expr.movesOf args + 6)) (do
        let spills ← Emit.spill
        Emit.pass (Expr.emitAll sigs args)
        Emit.instruction (.call sig.callee)
        (Register.arguments.take (Expr.emitAll sigs args).length).forM Emit.free
        Emit.reclaim spills
        let result ← finish
        Emit.restore spills
        return result : Emit α) := by
      refine law.bind law.spill fun _ spills _ hspill => law.bind_both (law.pass ha) fun _ => ?_
      refine law.bind_right (law.instruction hcall) fun _ => ?_
      refine law.bind_right (law.forM_zero fun r _ => law.free r) fun _ => ?_
      refine law.bind_right (law.forM_zero fun s _ => law.reserve s.register) fun _ => ?_
      refine law.bind_right hf fun result => ?_
      exact law.bind_left (law.mono (law.restore spills) (Nat.le_refl _) (spill_length hspill)) fun _ => law.pure result
    refine law.mono (n := 0) (m := 6 + (2 * args.length + Expr.movesOf args + 6)) ?_ (Nat.le_refl _) (by omega)
    dsimp only
    split
    · exact law.bind_right (law.throw rfl fun _ hpos => Option.some.inj hpos ▸ hname) fun _ => hbody
    · exact hbody

theorem unary (op : UnaryOp) (rd : Register) : P 0 0 (unary op rd) := by
  cases op with
  | neg => exact law.withZero fun zero => law.instruction trivial
  | not => exact law.instruction trivial

theorem binary (op : BinaryOp) (wanted found : RegisterClass) (rs1 rs2 : Register) :
    P 0 0 (binary op wanted found rs1 rs2) := by
  rw [binary_eq]
  refine law.bind_left (law.ite (law.withZero fun zero => ?_) (law.pure _)) fun _ => ?_
  · exact law.bind_left (law.instruction trivial) fun _ => law.instruction trivial
  refine law.bind_left (law.ite (law.pure _) (law.allocate wanted)) fun rd => ?_
  refine law.bind_left (law.instruction trivial) fun _ => law.bind_left (law.free rs2) fun _ => ?_
  exact law.bind_left (law.ite (law.free rs1) (law.pure _)) fun _ => law.pure rd

theorem expr (e : Expr) (hK : ∀ place ∈ e.names, K place) (wanted : RegisterClass) :
    P 0 e.moves (e.emit sigs wanted) := by
  induction e using Expr.induction generalizing wanted with
  | num value =>
    rw [Expr.emit]
    exact law.bind_left (law.allocate wanted) fun rd => law.bind_left (law.instruction trivial) fun _ => law.pure rd
  | var name pos =>
    rw [Expr.emit]
    refine law.bind_left (law.lookup (hK _ List.mem_cons_self)) fun storage => ?_
    refine law.bind_left (law.allocate wanted) fun rd => ?_
    exact law.bind_left (law.instruction (storage.fetch_plain sigs rd)) fun _ => law.pure rd
  | index name i pos ih =>
    rw [Expr.emit, Expr.moves]
    rw [Expr.names, List.forall_mem_cons] at hK
    refine law.bind_left (law.address hK.1 (ih hK.2 wanted)) fun rd => ?_
    exact law.bind_left (law.instruction trivial) fun _ => law.pure rd
  | call callee args pos ih =>
    rw [Expr.emit_call, Expr.moves]
    rw [Expr.names, List.forall_mem_cons] at hK
    refine law.call hK.1 (fun e he => ih e he (fun place hplace => ?_) .callerSaved) (law.receive wanted)
    exact hK.2 place (Expr.names_subset_namesOf he hplace)
  | unary op operand ih =>
    rw [Expr.emit, Expr.moves]
    refine law.bind_left (ih hK wanted) fun rd => ?_
    exact law.bind_left (law.unary op rd) fun _ => law.pure rd
  | binary op lhs rhs ihl ihr =>
    rw [Expr.emit, Expr.moves]
    rw [Expr.names, List.forall_mem_append] at hK
    refine law.bind_both (ihl hK.1 _) fun rs1 => ?_
    exact law.bind_left (ihr hK.2 _) fun rs2 => law.binary op wanted _ rs1 rs2

private theorem assign (target : Place) (value : Expr) (hK : ∀ place ∈ target.names ++ value.names, K place) :
    P 0 (target.moves + value.moves) (assign sigs target value) := by
  rw [List.forall_mem_append] at hK
  cases target with
  | var name pos =>
    have hname := hK.1 _ List.mem_cons_self
    rw [Place.moves, Nat.zero_add]
    refine law.bind_right (law.lookup hname) fun _ => law.bind_left (law.expr value hK.2 _) fun rs => ?_
    refine law.bind_left (law.lookup hname) fun storage => ?_
    cases storage with
    | register rd => exact law.bind_left (law.instruction trivial) fun _ => law.free rs
    | stack offset array =>
      cases array with
      | true => exact law.bind_left (law.throw rfl fun _ hpos => Option.some.inj hpos ▸ hname) fun _ => law.free rs
      | false => exact law.bind_left (law.instruction trivial) fun _ => law.free rs
  | element name index pos =>
    have hindex := List.forall_mem_cons.mp hK.1
    refine law.bind_both (law.address hindex.1 (law.expr index hindex.2 _)) fun element => ?_
    refine law.bind_left (law.expr value hK.2 _) fun rs => ?_
    exact law.bind_left (law.instruction trivial) fun _ => law.bind_left (law.free rs) fun _ => law.free element

omit law in
/-- A reflexive and transitive relation between the frames before and after successful steps obeys the law, if the
steps of expressions keep to it. -/
theorem of_relation {R : Frame → Frame → Prop} (refl : ∀ s, R s s)
    (trans : ∀ ⦃s t u⦄, R s t → R t u → R s u) (within : ∀ (s : Frame) scopes, R s (s.within scopes))
    (coded : ∀ (s : Frame) ⦃i⦄, i.Plain sigs → R s (s.coded i)) (pooled : ∀ (s : Frame) pool, R s (s.pooled pool))
    (pushed : ∀ (s : Frame) r, R s (s.pushed r)) (popped : ∀ (s : Frame) r, R s (s.popped r)) :
    ExprLaw sigs (fun _ => True) fun _ _ x => ∀ ⦃s a s'⦄, x s = .ok a s' → R s s' where
  pure a := by
    intro s b s' h
    obtain ⟨_, rfl⟩ := pure_ok.mp h
    exact refl s'
  bind hx hf := by
    intro s b s' h
    obtain ⟨a, t, ha, hb⟩ := bind_ok.mp h
    exact trans (hx ha) (hf s a t ha hb)
  mono hx _ _ := hx
  throw _ _ := fun _ _ _ h => (throw_ok.mp h).elim
  get_bind _ hf := fun s _ _ h => hf s (get_bind_ok.mp h)
  within scopes := by
    intro s u s' h
    rw [modify_ok.mp h]
    exact within s scopes
  instruction hi := by
    intro s u s' h
    rw [instruction_ok.mp h]
    exact coded s hi
  allocate wanted := by
    intro s r s' h
    obtain ⟨_, _, rfl⟩ := allocate_ok h
    exact pooled s _
  reserve r := by
    intro s u s' h
    obtain ⟨_, _, rfl⟩ := reserve_ok h
    exact pooled s _
  free r := by
    intro s u s' h
    obtain ⟨_, rfl⟩ := free_ok h
    exact pooled s _
  push r := by
    intro s offset s' h
    obtain ⟨_, _, rfl⟩ := push_ok.mp h
    exact pushed s r
  pop r := by
    intro s u s' h
    obtain ⟨_, rfl⟩ := pop_ok.mp h
    exact popped s r

end ExprLaw

variable {sigs : Signatures} {K : String × Nat → Prop} {P : StepFact}

theorem SimpleLaw.simple (law : SimpleLaw sigs K P) (stmt : Simple) (hK : ∀ place ∈ stmt.names, K place) :
    P stmt.slots stmt.moves (stmt.emit sigs) := by
  match stmt with
  | .var name none pos =>
    exact law.bind_left (law.claim 1) fun offset => law.declare (hK _ List.mem_cons_self)
  | .var name (some value) pos =>
    obtain ⟨hname, hvalue⟩ := List.forall_mem_cons.mp hK
    have hinit (offset : Int) : P 0 value.moves (do
        let rs ← value.emit sigs .callerSaved
        Emit.instruction (.store rs .fp offset)
        Emit.free rs
        Emit.declare name (.stack offset false) (some pos)) := by
      refine law.bind_left (law.expr value hvalue _) fun rs => ?_
      exact law.bind_left (law.instruction trivial) fun _ => law.bind_left (law.free rs) fun _ => law.declare hname
    have h := law.bind (law.claim 1) fun _ offset _ _ => hinit offset
    rwa [Nat.zero_add] at h
  | .array name length pos =>
    exact law.bind_left (law.claim _) fun offset => law.declare (hK _ List.mem_cons_self)
  | .assign target value => exact law.assign target value hK
  | .expr (.call name args pos) =>
    rw [Simple.names, Expr.names, List.forall_mem_cons] at hK
    rw [Simple.moves, Expr.moves]
    refine law.call hK.1 (fun e he => law.expr e (fun place hplace => ?_) _) (law.pure ())
    exact hK.2 place (Expr.names_subset_namesOf he hplace)
  | .expr (.num _) | .expr (.var _ _) | .expr (.index _ _ _) | .expr (.unary _ _)
  | .expr (.binary _ _ _) => exact law.bind_left (law.expr _ hK _) fun rs => law.free rs

namespace StmtLaw

variable (law : StmtLaw sigs K P) {n m : Nat}

include law

private theorem freshLabel (kind : String) : P 0 0 (freshLabel kind) :=
  law.get_bind (fun _ => rfl) fun _ => law.bind_left (law.numbered _) fun _ => law.pure _

private theorem returnLabel : P 0 0 returnLabel := by
  refine law.get_bind (fun _ => rfl) fun s => ?_
  cases s.returnLabel with
  | some label => exact law.pure label
  | none =>
    refine law.bind_left (law.freshLabel "return") fun label => ?_
    exact law.bind_left (law.returning label) fun _ => law.pure label

private theorem inScope {step : Emit Unit} (hs : P n m step) : P n m (inScope step) := by
  refine law.get_bind (fun _ => rfl) fun s => law.bind_right (law.within _) fun _ => ?_
  exact law.bind_left hs fun _ => law.within _

private theorem branchUnless (cond : Expr) (hK : ∀ place ∈ cond.names, K place) (target : String) :
    P 0 cond.moves (branchUnless sigs cond target) := by
  refine law.bind_left (law.expr cond hK _) fun rs => ?_
  exact law.bind_left (law.jump _) fun _ => law.free rs

private theorem option {o : Option β} {f : β → Emit PUnit} {slots moves : β → Nat}
    (hf : ∀ x, o = some x → P (slots x) (moves x) (f x)) :
    P ((o.map slots).getD 0) ((o.map moves).getD 0) (o.forM f) := by
  cases o with
  | none => exact law.pure _
  | some x => exact hf x rfl

private theorem stmts :
    (∀ stmt : Stmt, (∀ place ∈ stmt.names, K place) → P stmt.slots stmt.moves (stmt.emit sigs)) ∧
      ∀ body, (∀ place ∈ Stmt.namesOf body, K place) →
        P (Stmt.slotsOf body) (Stmt.movesOf body) (Stmt.emitAll sigs body) := by
  apply Stmt.induction
  case simple =>
    intro stmt hK
    rw [Stmt.emit]
    exact law.simple stmt hK
  case ifThen =>
    intro cond body ih hK
    rw [Stmt.names, List.forall_mem_append] at hK
    rw [Stmt.emit, Stmt.slots, Stmt.moves]
    refine law.bind_right (law.freshLabel _) fun label => ?_
    refine law.mono (law.bind (law.branchUnless cond hK.1 _) fun _ _ _ _ => ?_) (Nat.le_of_eq (Nat.zero_add _))
      (Nat.le_refl _)
    exact law.bind_left (law.inScope (ih hK.2)) fun _ => law.block _
  case ifElse =>
    intro cond body other ihbody ihother hK
    rw [Stmt.names, List.forall_mem_append, List.forall_mem_append] at hK
    rw [Stmt.emit, Stmt.slots, Stmt.moves]
    refine law.bind_right (law.freshLabel _) fun label => ?_
    refine law.mono (law.bind (law.branchUnless cond hK.1 _) fun _ _ _ _ => ?_) (Nat.le_of_eq (Nat.zero_add _))
      (Nat.le_refl _)
    refine law.bind (law.inScope (ihbody hK.2.1)) fun _ _ _ _ => law.bind_right (law.jump _) fun _ => ?_
    refine law.bind_right (law.block _) fun _ => ?_
    exact law.bind_left (law.inScope (ihother hK.2.2)) fun _ => law.block _
  case whileLoop =>
    intro cond body ih hK
    rw [Stmt.names, List.forall_mem_append] at hK
    rw [Stmt.emit, Stmt.slots, Stmt.moves]
    refine law.bind_right (law.freshLabel _) fun label => law.bind_right (law.block _) fun _ => ?_
    refine law.mono (law.bind (law.branchUnless cond hK.1 _) fun _ _ _ _ => ?_) (Nat.le_of_eq (Nat.zero_add _))
      (Nat.le_refl _)
    refine law.bind_left (law.inScope (ih hK.2)) fun _ => ?_
    exact law.bind_left (law.jump _) fun _ => law.block _
  case forLoop =>
    intro init cond step body ih hK
    rw [Stmt.names, List.forall_mem_append, List.forall_mem_append, List.forall_mem_append] at hK
    obtain ⟨hinit, hcond, hstep, hbody⟩ := hK
    rw [Stmt.emit]
    refine law.bind_right (law.freshLabel _) fun label => law.inScope ?_
    have hfirst : P ((init.map Simple.slots).getD 0) ((init.map Simple.moves).getD 0)
        (init.forM (Simple.emit sigs)) :=
      law.option fun stmt h => law.simple stmt (by simpa [h] using hinit)
    have hlast : P ((step.map Simple.slots).getD 0) ((step.map Simple.moves).getD 0)
        (step.forM (Simple.emit sigs)) :=
      law.option fun stmt h => law.simple stmt (by simpa [h] using hstep)
    have hbranch : P ((cond.map fun _ => 0).getD 0) ((cond.map Expr.moves).getD 0)
        (cond.forM fun cond => Emit.branchUnless sigs cond (label ++ "_end")) :=
      law.option fun e h => law.branchUnless e (by simpa [h] using hcond) _
    have hend : P ((step.map Simple.slots).getD 0) ((step.map Simple.moves).getD 0) (do
        step.forM (Simple.emit sigs)
        Emit.instruction (.jmp label)
        Emit.block (label ++ "_end")) :=
      law.bind_left hlast fun _ => law.bind_left (law.jump _) fun _ => law.block _
    refine law.mono (law.bind hfirst fun _ _ _ _ => law.bind_right (law.block _) fun _ =>
      law.bind hbranch fun _ _ _ _ => law.bind (law.inScope (ih hbody)) fun _ _ _ _ => hend) ?_ ?_
    · rw [Stmt.slots]
      cases cond <;> simp only [Option.map_none, Option.map_some, Option.getD_none, Option.getD_some] <;> omega
    · rw [Stmt.moves]
      omega
  case ret =>
    intro value hK
    have hjump : P 0 0 (Emit.returnLabel >>= fun label => Emit.instruction (.jmp label)) :=
      law.bind_left law.returnLabel fun label => law.jump _
    cases value with
    | none => exact hjump
    | some value =>
      rw [Stmt.emit]
      refine law.bind_left (law.expr value hK _) fun rs => law.bind_left (law.read rs) fun rs => ?_
      refine law.ite (law.bind_left (law.jump _) fun _ => ?_) ?_
      all_goals exact law.bind_left (law.free rs) fun _ => hjump
  case block =>
    intro body ih hK
    rw [Stmt.emit_block, Stmt.slots, Stmt.moves]
    exact law.inScope (ih hK)
  case nil =>
    intro _
    exact law.pure _
  case cons =>
    intro stmt rest ihstmt ihrest hK
    rw [Stmt.namesOf, List.forall_mem_append] at hK
    rw [Stmt.emitAll, Stmt.slotsOf, Stmt.movesOf]
    exact law.bind (ihstmt hK.1) fun _ _ _ _ => ihrest hK.2

theorem rest (body : List Stmt) (hK : ∀ place ∈ Stmt.namesOf body, K place) :
    P (Stmt.slotsOf body) (Stmt.movesOf body) (do
      Stmt.emitAll sigs body
      match (← get).returnLabel with
      | some label => Emit.block label
      | none => pure ()) := by
  refine law.bind_left (law.stmts.2 body hK) fun _ => law.get_bind (fun _ => rfl) fun s => ?_
  cases s.returnLabel with
  | some label => exact law.block label
  | none => exact law.pure _

theorem emitBody (hK : ∀ place, K place) (header : Header) (body : List Stmt) :
    P (Stmt.slotsOf body) (Stmt.movesOf body) (header.emitBody sigs body) := by
  refine law.bind_right (law.forM_zero fun param _ => ?_) fun _ => law.rest body fun place _ => hK place
  exact law.bind_left (law.reserve param.2) fun _ => law.declare (hK _)

end StmtLaw

end Emit

end WordLang
