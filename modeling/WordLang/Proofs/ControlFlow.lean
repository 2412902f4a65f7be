import Mathlib.Data.List.Nodup
import WordLang.Proofs.Labels

/-!
# Closed control flow

The labels that a unit asks its supply for are determined by the constructs in its functions, in order: a group
for each conditional and each loop, and one label for each function with a return. No two of them are equal.
Every jump in a routine goes to a label that stands once in the same routine, and a call inside the unit goes to
a function that the unit defines.
-/

namespace WordLang

/-! ## The labels that a supply gives out -/

namespace LabelSupply

/-- Gives out a group of labels for each kind in a list, with all endings that the kind has. -/
def issue (supply : LabelSupply) : List String → List String × LabelSupply
  | [] => ([], supply)
  | kind :: rest =>
    let (group, after) := supply.freshGroup kind (endings kind)
    let (others, last) := after.issue rest
    (group ++ others, last)

variable {supply : LabelSupply} {requests : List String}

private theorem issue_cons (supply : LabelSupply) (kind : String) (rest : List String) :
    supply.issue (kind :: rest) = ((endings kind).map (text kind (supply.next kind)) ++
      ((supply.fresh kind).2.issue rest).1, ((supply.fresh kind).2.issue rest).2) := rfl

private theorem issue_append (supply : LabelSupply) (xs ys : List String) :
    (supply.issue (xs ++ ys)).2 = ((supply.issue xs).2.issue ys).2 := by
  induction xs generalizing supply with
  | nil => rfl
  | cons kind xs ih => exact ih _

private theorem precedes_issue (supply : LabelSupply) (requests : List String) :
    supply.Precedes (supply.issue requests).2 := by
  induction requests generalizing supply with
  | nil => exact .refl _
  | cons kind rest ih => exact (precedes_fresh supply kind).trans (ih _)

private theorem mem_issue (hkinds : requests ⊆ kinds) {label : String} :
    label ∈ (supply.issue requests).1 ↔ Gave kinds supply (supply.issue requests).2 label := by
  induction requests generalizing supply with
  | nil =>
    constructor
    · intro h
      exact absurd h List.not_mem_nil
    · intro h
      obtain ⟨_, _, _, _, _, hlow, hhigh, _⟩ := h
      exact absurd hhigh (Nat.not_lt.mpr hlow)
  | cons kind rest ih =>
    obtain ⟨hkind, hrest⟩ := List.cons_subset.mp hkinds
    rw [issue_cons, List.mem_append, List.mem_map, ih hrest]
    constructor
    · intro h
      rcases h with ⟨ending, hending, rfl⟩ | h
      · exact (gave_fresh supply hkind hending).widen (List.Subset.refl _) (.refl _) (precedes_issue _ _)
      · exact h.widen (List.Subset.refl _) (precedes_fresh _ _) (.refl _)
    · intro h
      obtain ⟨other, hother, number, ending, hending, hlow, hhigh, rfl⟩ := h
      by_cases hfirst : other = kind ∧ number = supply.next kind
      · obtain ⟨rfl, rfl⟩ := hfirst
        exact .inl ⟨ending, hending, rfl⟩
      · refine .inr ⟨other, hother, number, ending, hending, ?_, hhigh, rfl⟩
        rw [next_fresh]
        split
        · rename_i heq
          subst heq
          have hne : number ≠ supply.next other := fun h => hfirst ⟨rfl, h⟩
          omega
        · exact hlow

/-- A supply never gives a label out twice. -/
theorem issue_nodup (hkinds : requests ⊆ kinds) : (supply.issue requests).1.Nodup := by
  induction requests generalizing supply with
  | nil => exact List.nodup_nil
  | cons kind rest ih =>
    obtain ⟨hkind, hrest⟩ := List.cons_subset.mp hkinds
    have hendings : ∀ kind ∈ kinds, (endings kind).Nodup := by decide
    rw [issue_cons, List.nodup_append]
    refine ⟨?_, ih hrest, ?_⟩
    · apply List.Nodup.map_on _ (hendings kind hkind)
      intro ending hending ending' hending' h
      exact (text_inj hkind hkind hending hending' h).2.2
    · intro label hlabel label' hlabel' heq
      obtain ⟨ending, hending, rfl⟩ := List.mem_map.mp hlabel
      subst heq
      exact (gave_fresh supply hkind hending).disjoint (List.Subset.refl _) (List.Subset.refl _) (.refl _)
        ((mem_issue hrest).mp hlabel')

/-- The requests for constructs of some kinds: the label before the epilogue is asked for once. -/
def once (asked : Bool) : List String → List String
  | [] => []
  | kind :: rest =>
    if kind = "return" then if asked then once true rest else kind :: once true rest
    else kind :: once asked rest

private theorem once_append (asked : Bool) (xs ys : List String) :
    once asked (xs ++ ys) = once asked xs ++ once (asked || decide ("return" ∈ xs)) ys := by
  induction xs generalizing asked with
  | nil => simp [once]
  | cons kind xs ih =>
    by_cases hkind : kind = "return"
    · cases asked <;> simp [once, hkind, ih]
    · have hother : "return" ≠ kind := Ne.symm hkind
      simp [once, hkind, ih, hother]

private theorem once_subset {asked : Bool} : once asked requests ⊆ requests := by
  induction requests generalizing asked with
  | nil => exact List.Subset.refl _
  | cons kind rest ih =>
    unfold once
    split
    · split
      · exact List.Subset.trans ih (List.subset_cons_self _ _)
      · exact List.cons_subset_cons _ ih
    · exact List.cons_subset_cons _ ih

end LabelSupply

open LabelSupply

/-! ## The control flow of a piece of code -/

/-- What a piece of code does to the control flow: its jumps go to labels inside it, to `places`, or to the
label before the epilogue, and its constructs have some kinds. -/
structure Frame.Flows (places constructs : List String) (s s' : Frame) : Prop where
  code : ∃ new : List Line, s'.code.toList = s.code.toList ++ new ∧
    ∀ i l, Line.code i ∈ new → i.target? = some l →
      Line.label l ∈ new ∨ l ∈ places ∨ s'.returnLabel = some l
  labels : s'.labels = (s.labels.issue (once s.returnLabel.isSome constructs)).2
  asked : s'.returnLabel.isSome = (s.returnLabel.isSome || decide ("return" ∈ constructs))
  keeps : ∀ l, s.returnLabel = some l → s'.returnLabel = some l

namespace Frame.Flows

variable {sigs : Signatures} {places places' constructs constructs' : List String} {s s' s'' t : Frame}

private theorem straight {new : List Line} (hcode : s'.code.toList = s.code.toList ++ new)
    (hnew : ∀ i, Line.code i ∈ new → i.target? = none) (hlabels : s'.labels = s.labels)
    (hreturn : s'.returnLabel = s.returnLabel) : s.Flows places [] s' := by
  refine ⟨⟨new, hcode, ?_⟩, hlabels, by simp [hreturn], fun l hl => hreturn.trans hl⟩
  intro i l hi hl
  rw [hnew i hi] at hl
  cases hl

private theorem of_prolongs (h : s.Prolongs sigs s') : s.Flows places [] s' := by
  obtain ⟨new, hnew, hplain⟩ := h.code
  apply straight (by rw [hnew, Array.toList_append]) _ h.labels h.returnLabel
  intro i hi
  obtain ⟨j, hj, heq⟩ := List.mem_map.mp hi
  cases heq
  exact (hplain _ hj).target?

protected theorem refl (s : Frame) : s.Flows places [] s :=
  straight (List.append_nil _).symm (by simp) rfl rfl

protected theorem trans (h : s.Flows places constructs s') (h' : s'.Flows places constructs' s'') :
    s.Flows places (constructs ++ constructs') s'' := by
  obtain ⟨new, hnew, haims⟩ := h.code
  obtain ⟨new', hnew', haims'⟩ := h'.code
  refine ⟨⟨new ++ new', by rw [hnew', hnew, List.append_assoc], ?_⟩, ?_, ?_,
    fun l hl => h'.keeps l (h.keeps l hl)⟩
  · intro i l hi hl
    rcases List.mem_append.mp hi with hi | hi
    · rcases haims i l hi hl with hinside | hplace | hreturn
      · exact .inl (List.mem_append_left _ hinside)
      · exact .inr (.inl hplace)
      · exact .inr (.inr (h'.keeps l hreturn))
    · exact (haims' i l hi hl).imp_left (List.mem_append_right _)
  · rw [h'.labels, h.labels, h.asked, once_append, issue_append]
  · simp [h'.asked, h.asked, Bool.or_assoc]

private theorem before (h : s.Flows places [] s') (h' : s'.Flows places constructs s'') :
    s.Flows places constructs s'' :=
  h.trans h'

private theorem after (h : s.Flows places constructs s') (h' : s'.Flows places [] s'') :
    s.Flows places constructs s'' := by
  rw [← List.append_nil constructs]
  exact h.trans h'

private theorem mono (h : s.Flows places constructs s') (hplaces : places ⊆ places') :
    s.Flows places' constructs s' := by
  obtain ⟨new, hnew, haims⟩ := h.code
  refine ⟨⟨new, hnew, ?_⟩, h.labels, h.asked, h.keeps⟩
  intro i l hi hl
  exact (haims i l hi hl).imp_right (Or.imp_left (hplaces ·))

private theorem group (s : Frame) {kind : String} (hkind : kind ≠ "return") :
    s.Flows places [kind] (s.numbered (s.labels.fresh kind).2) := by
  refine ⟨⟨[], (List.append_nil _).symm, by simp⟩, ?_, ?_, fun _ hl => hl⟩
  · simp [once, hkind, issue_cons, issue]
  · simp [hkind.symm]

private theorem head {label : String} (h : (s.labelled label).Flows (label :: places) constructs t) :
    s.Flows places constructs t := by
  obtain ⟨new, hnew, haims⟩ := h.code
  refine ⟨⟨.label label :: new, by simp [hnew], ?_⟩, h.labels, h.asked, h.keeps⟩
  intro i l hi hl
  rcases List.mem_cons.mp hi with hi | hi
  · cases hi
  · rcases haims i l hi hl with hinside | hplace | hreturn
    · exact .inl (List.mem_cons_of_mem _ hinside)
    · rcases List.mem_cons.mp hplace with rfl | hplace
      · exact .inl List.mem_cons_self
      · exact .inr (.inl hplace)
    · exact .inr (.inr hreturn)

private theorem place {label : String} (h : s.Flows (label :: places) constructs t) :
    s.Flows places constructs (t.labelled label) := by
  obtain ⟨new, hnew, haims⟩ := h.code
  refine ⟨⟨new ++ [.label label], by simp [hnew], ?_⟩, h.labels, h.asked, h.keeps⟩
  intro i l hi hl
  rcases List.mem_append.mp hi with hi | hi
  · rcases haims i l hi hl with hinside | hplace | hreturn
    · exact .inl (List.mem_append_left _ hinside)
    · rcases List.mem_cons.mp hplace with rfl | hplace
      · exact .inl (List.mem_append_right _ List.mem_cons_self)
      · exact .inr (.inl hplace)
    · exact .inr (.inr hreturn)
  · cases List.mem_singleton.mp hi

private theorem jump (h : s.Flows places constructs t) {i : Instruction} {label : String}
    (hi : i.target? = some label) (hplace : label ∈ places ∨ t.returnLabel = some label) :
    s.Flows places constructs (t.coded i) := by
  refine h.after ⟨⟨[.code i], by simp, ?_⟩, rfl, by simp, fun _ hl => hl⟩
  intro j l hj hl
  cases List.mem_singleton.mp hj
  rw [hi] at hl
  cases hl
  exact .inr hplace

private theorem rescope {scopes : Scopes} (h : (s.within scopes).Flows places constructs t) (scopes' : Scopes) :
    s.Flows places constructs (t.within scopes') :=
  ⟨h.code, h.labels, h.asked, h.keeps⟩

private theorem block {scopes : Scopes} (h : s.Flows places constructs t)
    (hbody : (t.within scopes).Flows [] constructs' s') (scopes' : Scopes) :
    s.Flows places (constructs ++ constructs') (s'.within scopes') :=
  h.trans ((hbody.rescope scopes').mono (List.nil_subset _))

end Frame.Flows

/-! ## Statements -/

mutual

/-- The kinds of the constructs in a statement, in the order in which their labels are asked for. -/
def Stmt.constructs : Stmt → List String
  | .simple _ => []
  | .ifThen _ body => "if" :: constructsOf body
  | .ifElse _ body other => "if" :: (constructsOf body ++ constructsOf other)
  | .whileLoop _ body => "while" :: constructsOf body
  | .forLoop _ _ _ body => "for" :: constructsOf body
  | .ret _ => ["return"]
  | .block body => constructsOf body

def Stmt.constructsOf : List Stmt → List String
  | [] => []
  | stmt :: rest => stmt.constructs ++ constructsOf rest

end

variable {sigs : Signatures} {places : List String} {s s' : Frame} {u : Unit}

private theorem Emit.branchUnless_flows {cond : Expr} {target : String} (htarget : target ∈ places)
    (h : Emit.branchUnless sigs cond target s = .ok u s') : s.Flows places [] s' := by
  simp only [Emit.branchUnless, Emit.bind_ok, Emit.instruction_ok] at h
  obtain ⟨rs, t, hcond, _, _, rfl, hfree⟩ := h
  have htest : s.Flows places [] t := .of_prolongs (cond.emit_plain sigs _ hcond).prolongs
  have hfreed : (t.coded (.jz rs target)).Prolongs sigs s' := ((Emit.Plain.law sigs).free rs).prolongs hfree
  exact (htest.jump (i := .jz rs target) rfl (.inl htarget)).after (.of_prolongs hfreed)

private theorem Emit.forM_branchUnless_flows {cond : Option Expr} {target : String} (htarget : target ∈ places)
    (h : (cond.forM fun cond => Emit.branchUnless sigs cond target) s = .ok u s') : s.Flows places [] s' := by
  cases cond with
  | none =>
    rw [(Emit.pure_ok.mp h).2]
    exact .refl s
  | some cond => exact Emit.branchUnless_flows htarget h

private theorem Simple.forM_flows {stmt : Option Simple} (h : stmt.forM (Simple.emit sigs) s = .ok u s') :
    s.Flows places [] s' := by
  cases stmt with
  | none =>
    rw [(Emit.pure_ok.mp h).2]
    exact .refl s
  | some stmt => exact .of_prolongs (stmt.emit_prolongs sigs h)

private theorem Emit.returnLabel_flows {label : String} (h : Emit.returnLabel s = .ok label s') :
    s.Flows places ["return"] (s'.coded (.jmp label)) := by
  have hasked : s.Flows places ["return"] s' ∧ s'.returnLabel = some label := by
    rcases Emit.returnLabel_ok h with ⟨hl, rfl⟩ | ⟨hnone, rfl, rfl⟩
    · refine ⟨⟨⟨[], (List.append_nil _).symm, by simp⟩, ?_, by simp [hl], fun _ hl => hl⟩, hl⟩
      simp [once, hl, issue]
    · refine ⟨⟨⟨[], (List.append_nil _).symm, by simp⟩, ?_, by simp, by simp [hnone]⟩, rfl⟩
      simp [once, hnone, issue_cons, issue]
  exact hasked.1.jump rfl (.inr hasked.2)

private theorem Stmt.ret_flows {value : Option Expr} (h : (Stmt.ret value).emit sigs s = .ok u s') :
    s.Flows places ["return"] s' := by
  cases value with
  | none =>
    obtain ⟨label, t, hl, rfl⟩ := Stmt.emit_ret_none_ok h
    exact Emit.returnLabel_flows hl
  | some value =>
    obtain ⟨rs, t, label, t', hvalue, _, hl, rfl⟩ := Stmt.emit_ret_some_ok h
    have hmove : t.Flows places []
        ((if rs = Register.result then t else t.coded (.mov Register.result rs)).freed rs) := by
      split
      · exact .straight (List.append_nil _).symm (by simp) rfl rfl
      · have hcode : ((t.coded (.mov Register.result rs)).freed rs).code.toList =
            t.code.toList ++ [.code (.mov Register.result rs)] := by simp
        refine .straight hcode ?_ rfl rfl
        intro i hi
        cases List.mem_singleton.mp hi
        rfl
    have hcode : s.Flows places [] t := .of_prolongs (value.emit_plain sigs _ hvalue).prolongs
    exact (hcode.before hmove).before (Emit.returnLabel_flows hl)

/-- The jumps of a statement stay inside it or go to the label before the epilogue. -/
theorem Stmt.emit_flows (sigs : Signatures) :
    (∀ (stmt : Stmt) (s s' : Frame), stmt.emit sigs s = .ok () s' → s.Flows [] stmt.constructs s') ∧
    ∀ (body : List Stmt) (s s' : Frame), Stmt.emitAll sigs body s = .ok () s' →
      s.Flows [] (Stmt.constructsOf body) s' := by
  apply Stmt.induction
  case simple =>
    intro stmt s s' h
    exact .of_prolongs (stmt.emit_prolongs sigs h)
  case ifThen =>
    intro cond body ih s s' h
    obtain ⟨t, t', htest, hbody, rfl⟩ := Stmt.emit_ifThen_ok h
    have htested : s.Flows [(s.labels.fresh "if").1 ++ "_end"] ["if"] t :=
      (Frame.Flows.group s (by decide)).after (Emit.branchUnless_flows List.mem_cons_self htest)
    exact (htested.block (ih _ _ hbody) t.scopes).place
  case ifElse =>
    intro cond body other ihbody ihother s s' h
    obtain ⟨t, t', r', htest, hbody, hother, rfl⟩ := Stmt.emit_ifElse_ok h
    have htested : s.Flows [(s.labels.fresh "if").1 ++ "_else", (s.labels.fresh "if").1 ++ "_end"] ["if"] t :=
      (Frame.Flows.group s (by decide)).after (Emit.branchUnless_flows List.mem_cons_self htest)
    have hfirst := htested.block (ihbody _ _ hbody) t.scopes
    have hjumped := hfirst.jump (i := .jmp ((s.labels.fresh "if").1 ++ "_end")) rfl (.inl (by simp))
    exact (hjumped.place.block (ihother _ _ hother) t.scopes).place
  case whileLoop =>
    intro cond body ih s s' h
    obtain ⟨t, t', htest, hbody, rfl⟩ := Stmt.emit_whileLoop_ok h
    have htested : ((s.numbered (s.labels.fresh "while").2).labelled (s.labels.fresh "while").1).Flows
        [(s.labels.fresh "while").1 ++ "_end", (s.labels.fresh "while").1] [] t :=
      Emit.branchUnless_flows List.mem_cons_self htest
    have hround := htested.block (ih _ _ hbody) t.scopes
    have hback := hround.jump (i := .jmp (s.labels.fresh "while").1) rfl (.inl (by simp))
    exact (Frame.Flows.group s (by decide)).trans hback.place.head
  case forLoop =>
    intro init cond step body ih s s' h
    obtain ⟨r, t, t', r', hinit, htest, hbody, hstep, rfl⟩ := Stmt.emit_forLoop_ok h
    have htested : (r.labelled (s.labels.fresh "for").1).Flows
        [(s.labels.fresh "for").1 ++ "_end", (s.labels.fresh "for").1] [] t :=
      Emit.forM_branchUnless_flows List.mem_cons_self htest
    have hround := (htested.block (ih _ _ hbody) t.scopes).after (Simple.forM_flows hstep)
    have hback := hround.jump (i := .jmp (s.labels.fresh "for").1) rfl (.inl (by simp))
    have hloop := (Simple.forM_flows hinit).before hback.place.head
    exact (Frame.Flows.group s (by decide)).trans (hloop.rescope s.scopes)
  case ret =>
    intro value s s' h
    exact Stmt.ret_flows h
  case block =>
    intro body ih s s' h
    obtain ⟨t, hbody, rfl⟩ := Stmt.emit_block_ok h
    exact (ih _ _ hbody).rescope s.scopes
  case nil =>
    intro s s' h
    rw [(Emit.pure_ok.mp h).2]
    exact .refl s
  case cons =>
    intro stmt rest ihstmt ihrest s s' h
    obtain ⟨t, hstmt, hrest⟩ := Stmt.emitAll_cons_ok h
    exact (ihstmt _ _ hstmt).trans (ihrest _ _ hrest)

/-! ## Units -/

private theorem Header.emitBody_flows {header : Header} {body : List Stmt} {policy : FreePolicy}
    {labels : LabelSupply} {frame : Frame}
    (h : header.emitBody sigs body (.start policy labels body) = .ok () frame) :
    (∀ i l, Line.code i ∈ frame.code.toList → i.target? = some l → Line.label l ∈ frame.code.toList) ∧
      frame.labels = (labels.issue (once false (Stmt.constructsOf body))).2 := by
  obtain ⟨t, t', hparams, hbody, hlast⟩ := Header.emitBody_ok h
  have hplaced : (Frame.start policy labels body).Flows [] [] t :=
    .of_prolongs (header.emit_plain sigs hparams).prolongs
  have hflows := hplaced.before ((Stmt.emit_flows sigs).2 body t t' hbody)
  obtain ⟨new, hnew, haims⟩ := hflows.code
  obtain rfl : t'.code.toList = new := hnew
  rcases hlast with ⟨hnone, rfl⟩ | ⟨label, hlabel, rfl⟩
  · refine ⟨?_, hflows.labels⟩
    intro i l hi hl
    rcases haims i l hi hl with hinside | hplace | hreturn
    · exact hinside
    · exact absurd hplace List.not_mem_nil
    · rw [hnone] at hreturn
      cases hreturn
  · refine ⟨?_, hflows.labels⟩
    intro i l hi hl
    simp only [Frame.labelled_code, Array.toList_push, List.mem_append, List.mem_singleton, reduceCtorEq,
      or_false] at hi ⊢
    rcases haims i l hi hl with hinside | hplace | hreturn
    · exact .inl hinside
    · exact absurd hplace List.not_mem_nil
    · rw [hlabel] at hreturn
      exact .inr (congrArg Line.label (Option.some.inj hreturn).symm)

private theorem Stmt.constructs_kinds :
    (∀ stmt : Stmt, stmt.constructs ⊆ kinds) ∧ ∀ body : List Stmt, Stmt.constructsOf body ⊆ kinds := by
  apply Stmt.induction
  case simple => exact fun _ => List.nil_subset _
  case ifThen | whileLoop => exact fun _ _ ih => List.cons_subset.mpr ⟨by decide, ih⟩
  case ifElse => exact fun _ _ _ ih ih' => List.cons_subset.mpr ⟨by decide, List.append_subset.mpr ⟨ih, ih'⟩⟩
  case forLoop => exact fun _ _ _ _ ih => List.cons_subset.mpr ⟨by decide, ih⟩
  case ret =>
    intro value kind hkind
    rw [List.mem_singleton.mp hkind]
    decide
  case block => exact fun _ ih => ih
  case nil => exact List.nil_subset _
  case cons => exact fun _ _ ih ih' => List.append_subset.mpr ⟨ih, ih'⟩

/-- Jumps and calls, which hand control to another place. -/
def Instruction.Transfers (i : Instruction) : Prop :=
  i.target? ≠ none ∨ ∃ callee, i = .call callee

private theorem Routine.mem_body_of_transfers {label : String} {saved : List Register} {localSlots : Int}
    {body : List Line} {i : Instruction} (htransfers : i.Transfers)
    (hi : i ∈ Routine.instructions ⟨label, prologueFor saved localSlots, body, epilogueFor saved⟩) :
    .code i ∈ body := by
  have hprologue : ∀ i ∈ prologueFor saved localSlots, ¬ i.Transfers := by
    unfold prologueFor
    split <;> simp [Instruction.Transfers, Instruction.target?, or_imp, forall_and]
  have hepilogue : ∀ i ∈ epilogueFor saved, ¬ i.Transfers := by
    simp [epilogueFor, Instruction.Transfers, Instruction.target?, or_imp, forall_and]
  have hline (line : Line) : line.instruction? = some i ↔ line = .code i := by
    cases line <;> simp [Line.instruction?]
  simp only [instructions, lines, List.mem_filterMap, hline, exists_eq_right, List.mem_cons, List.mem_append,
    reduceCtorEq, false_or, List.mem_map, Line.code.injEq] at hi
  rcases hi with (hi | hi) | hi
  · exact absurd htransfers (hprologue i hi)
  · exact hi
  · exact absurd htransfers (hepilogue i hi)

namespace CompilationUnit

variable {unit : CompilationUnit} {policy : FreePolicy} {asm : Assembly}

/-- The groups of labels that functions ask for, one function after the other. -/
def requestsOf (functions : List (Header × List Stmt)) : List String :=
  functions.flatMap fun f => once false (Stmt.constructsOf f.2)

private theorem requestsOf_cons (f : Header × List Stmt) (rest : List (Header × List Stmt)) :
    requestsOf (f :: rest) = once false (Stmt.constructsOf f.2) ++ requestsOf rest := rfl

/-- The labels that the supply gives out while a unit is compiled. -/
def issued (unit : CompilationUnit) : List String :=
  (LabelSupply.issue {} (requestsOf unit.functions)).1

private theorem requestsOf_kinds (functions : List (Header × List Stmt)) : requestsOf functions ⊆ kinds := by
  intro kind hkind
  obtain ⟨f, _, hf⟩ := List.mem_flatMap.mp hkind
  exact Stmt.constructs_kinds.2 f.2 (once_subset hf)

private theorem supplyAfter_eq {sigs : Signatures} {labels : LabelSupply} {functions : List (Header × List Stmt)}
    {routines : List Routine} (h : compileAll sigs policy labels functions = .ok routines) :
    supplyAfter sigs policy labels functions = .ok (labels.issue (requestsOf functions)).2 := by
  induction functions generalizing labels routines with
  | nil => rfl
  | cons f rest ih =>
    obtain ⟨routine, labels', others, hr, ho, rfl⟩ := compileAll_cons_ok h
    obtain ⟨frame, hemit, rfl, _⟩ := Routine.compile_ok hr
    rw [supplyAfter_cons hr, ih ho, (Header.emitBody_flows hemit).2, requestsOf_cons, issue_append]

private theorem internal_defined {sigs : Signatures} (hsigs : unit.signatures = .ok sigs) {sig : Signature}
    {name : String} (hsig : sig ∈ sigs.entries) (hcallee : sig.callee = .internal name) :
    ∃ header body, Item.function header body ∈ unit.items ∧ header.name = name := by
  obtain ⟨hcustom, rfl⟩ : sig.custom = true ∧ sig.name = name := by
    unfold Signature.callee at hcallee
    split at hcallee
    · rename_i hcustom
      exact ⟨hcustom, Callee.internal.inj hcallee⟩
    · cases hcallee
  rw [(signatures_ok hsigs).2, List.mem_append, List.mem_reverse, List.mem_filterMap] at hsig
  rcases hsig with ⟨item, hitem, hsig⟩ | hbuiltin
  · cases item with
    | function header body =>
      obtain rfl := Option.some.inj hsig
      exact ⟨header, body, hitem, rfl⟩
    | external header =>
      obtain rfl := Option.some.inj hsig
      cases hcustom
    | stmt stmt => cases hsig
  · have hexternal : ∀ sig ∈ Signatures.builtin.entries, sig.custom = false := by decide
    rw [hexternal sig hbuiltin] at hcustom
    cases hcustom

/-- The jumps and calls of a routine. -/
theorem routine_closed {sigs : Signatures} (hsigs : unit.signatures = .ok sigs) {header : Header}
    {body : List Stmt} {labels : LabelSupply} {frame : Frame}
    (hemit : header.emitBody sigs body (.start policy labels body) = .ok () frame) {i : Instruction}
    (hi : .code i ∈ frame.code.toList) :
    (∀ label, i.target? = some label → (frame.code.toList.filterMap Line.label?).count label = 1) ∧
    ∀ name, i = .call (.internal name) →
      ∃ header body, Item.function header body ∈ unit.items ∧ header.name = name := by
  obtain ⟨new, hnew, hknown, hnodup, _⟩ := (Header.emitBody_grows rfl hemit).code
  obtain rfl : frame.code.toList = new := hnew
  constructor
  · intro label hlabel
    apply List.count_eq_one_of_mem hnodup
    exact List.mem_filterMap.mpr ⟨_, (Header.emitBody_flows hemit).1 i label hi hlabel, rfl⟩
  · intro name hcall
    subst hcall
    cases hknown _ hi with
    | plain hplain =>
      obtain ⟨sig, hsig, hcallee⟩ := hplain
      exact internal_defined hsigs hsig hcallee.symm

/-- The supply gives out one group of labels for each construct of a unit, and no label twice. The labels inside
routines are among them. Every jump of a routine names exactly one label of that routine, and every call inside
the unit names a function that the unit defines. -/
theorem compile_closed (h : unit.compile policy = .ok asm) :
    (∃ sigs, unit.signatures = .ok sigs ∧ supplyAfter sigs policy {} unit.functions =
      .ok (LabelSupply.issue {} (requestsOf unit.functions)).2) ∧
    unit.issued.Nodup ∧ asm.blockLabels ⊆ unit.issued ∧
    ∀ routine ∈ asm.routines, ∀ i ∈ routine.instructions,
      (∀ label, i.target? = some label → routine.blockLabels.count label = 1) ∧
      ∀ name, i = .call (.internal name) →
        (∃ header body, Item.function header body ∈ unit.items ∧ header.name = name) ∧
        ∃ callee ∈ asm.routines, callee.label = name := by
  obtain ⟨sigs, hsigs, hall⟩ := compile_ok h
  have hsupply := supplyAfter_eq hall
  have hkinds := requestsOf_kinds unit.functions
  refine ⟨⟨sigs, hsigs, hsupply⟩, issue_nodup hkinds, ?_, ?_⟩
  · obtain ⟨labels', hlabels', _, _, hgave⟩ := compileAll_blockLabels hall
    obtain rfl := Except.ok.inj (hlabels'.symm.trans hsupply)
    intro label hlabel
    exact (mem_issue hkinds).mpr (hgave label hlabel)
  · intro routine hroutine i hi
    obtain ⟨header, body, labels, frame, _, hemit, rfl⟩ := compileAll_origin hall hroutine
    constructor
    · intro label hlabel
      have htransfers : i.Transfers := .inl (by simp [hlabel])
      exact (routine_closed hsigs hemit (Routine.mem_body_of_transfers htransfers hi)).1 label hlabel
    · intro name hcall
      have htransfers : i.Transfers := .inr ⟨_, hcall⟩
      obtain ⟨callee, code, hitem, rfl⟩ :=
        (routine_closed hsigs hemit (Routine.mem_body_of_transfers htransfers hi)).2 name hcall
      refine ⟨⟨callee, code, hitem, rfl⟩, ?_⟩
      apply List.mem_map.mp
      rw [compileAll_names hall, functions_eq, List.map_append]
      exact List.mem_append_left _ (List.mem_map_of_mem (mem_definitions.mpr hitem))

/-- A loop around a conditional with two branches, a `for` loop, a call and two returns. -/
def nestedConstructs : CompilationUnit :=
  ⟨[.function ⟨"f", ["x"], 9⟩
      [.whileLoop (.var "x" 21)
        [.ifElse (.var "x" 30) [.ret (some (.num 1))] [.ret (some (.call "f" [.num 0] 50))]]],
    .stmt (.forLoop none (some (.num 1)) none [.ifThen (.num 0) []])]⟩

theorem compile_closed_nestedConstructs : ∃ asm, nestedConstructs.compile .strict = .ok asm ∧
    nestedConstructs.issued = ["_while0", "_while0_end", "_if0_else", "_if0_end", "_return0", "_for0",
      "_for0_end", "_if1_else", "_if1_end"] ∧
    (∃ routine ∈ asm.routines, .jmp "_return0" ∈ routine.instructions) ∧
    ∀ routine ∈ asm.routines, .jmp "_return0" ∈ routine.instructions →
      routine.blockLabels.count "_return0" = 1 := by
  have hrun : ∃ asm, nestedConstructs.compile .strict = .ok asm ∧
      nestedConstructs.issued = ["_while0", "_while0_end", "_if0_else", "_if0_end", "_return0", "_for0",
        "_for0_end", "_if1_else", "_if1_end"] ∧
      ∃ routine ∈ asm.routines, .jmp "_return0" ∈ routine.instructions :=
    exists_ok_of_any (by decide +kernel)
  obtain ⟨asm, h, hissued, hjump⟩ := hrun
  refine ⟨asm, h, hissued, hjump, ?_⟩
  intro routine hroutine hi
  exact ((compile_closed h).2.2.2 routine hroutine _ hi).1 _ rfl

end CompilationUnit

end WordLang
