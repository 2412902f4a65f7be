import WordLang.Build
import WordLang.Proofs.Bookkeeping
import WordLang.Proofs.NamePlaces
import WordLang.Proofs.SyntaxErrors

/-!
# The places of errors

An error lies at a place of the source that can be shown as a line and a column: where a token starts or ends.
If it is about a name, it points to where that name stands. Each step of code generation hands over the places of
the names it is about, and checks nothing else. Parameters have no place of their own, so a parameter that is
declared twice is reported at the name of its function.
-/

namespace WordLang

namespace CompileError

/-- An error about a name that points to a place points to one of that name. -/
def Points (places : List (String × Nat)) (e : CompileError) : Prop :=
  ∀ name pos, e.name? = some name → e.offset? = some pos → (name, pos) ∈ places

private theorem Points.mono {places places' : List (String × Nat)} {e : CompileError} (h : e.Points places)
    (hsubset : places ⊆ places') : e.Points places' :=
  fun name pos hname hpos => hsubset (h name pos hname hpos)

private theorem Points.of_none {places : List (String × Nat)} {e : CompileError} (h : e.name? = none) :
    e.Points places := by
  intro name pos hname
  cases h.symm.trans hname

private theorem Blames.exists_offset {wf : Prop} {e : CompileError} (h : e.Blames wf) {name : String}
    (hname : e.name? = some name) : ∃ pos, e.offset? = some pos := by
  cases e with
  | pool | overflow => simp [name?] at hname
  | duplicate | reservedName | unknownFunction | unknownVariable | tooManyParameters | wrongArity
  | notAssignable => exact Option.isSome_iff_exists.mp h.2

end CompileError

/-! ## Steps of code generation -/

namespace Emit

variable {α β : Type} {places : List (String × Nat)}

/-- Whatever goes wrong in a step points to one of the places. -/
def Points (places : List (String × Nat)) (x : Emit α) : Prop :=
  ∀ s e t, x s = .error e t → e.Points places

namespace Points

protected theorem throw {e : CompileError} (h : e.Points places) : Points places (throw e : Emit α) := by
  intro s e' t hrun
  obtain ⟨rfl, -⟩ := EStateM.Result.error.inj hrun
  exact h

protected theorem modify (f : Frame → Frame) : Points places (modify f) := by
  intro s e t h
  cases h

protected theorem bind {x : Emit α} {f : α → Emit β} (hx : Points places x)
    (hf : ∀ s a t, x s = .ok a t → Points places (f a)) : Points places (x >>= f) := by
  intro s e t h
  rcases bind_error h with h | ⟨a, u, hrun, h⟩
  · exact hx s e t h
  · exact hf s a u hrun u e t h

private theorem counted (operation : String) (n : Int) : Points places (counted operation n) := by
  intro s e t h
  rcases counted_cases operation n s with hrun | hrun
  · cases hrun.symm.trans h
  · cases hrun.symm.trans h
    exact .of_none rfl

private theorem withPool (operation : Pool → Except PoolError (α × Pool)) : Points places (withPool operation) := by
  intro s e t h
  rcases withPool_cases operation s with ⟨_, _, hrun⟩ | ⟨_, hrun⟩
  · cases hrun.symm.trans h
  · cases hrun.symm.trans h
    exact .of_none rfl

private theorem counting : CountingLaw (Points places) where
  bind := Points.bind
  get_bind _ hf := fun s e t h => hf s s e t h
  instruction _ := .modify _
  counted := counted
  used _ := .modify _
  deep _ := .modify _

private theorem law (sigs : Signatures) : StmtLaw sigs (· ∈ places) fun _ _ x => Points places x where
  pure a := by
    rintro s e t ⟨⟩
  bind := Points.bind
  mono hx _ _ := hx
  throw hname hpos := by
    refine .throw fun name pos hname' hpos' => ?_
    obtain rfl := Option.some.inj (hname.symm.trans hname')
    exact hpos pos hpos'
  get_bind _ hf := fun s e t h => hf s s e t h
  within _ := .modify _
  instruction _ := .modify _
  allocate _ := withPool _
  reserve _ := withPool _
  free _ := withPool _
  push := counting.push
  pop := counting.pop
  claim size := counting.claim size
  jump _ := .modify _
  block _ := .modify _
  numbered _ := .modify _
  returning _ := .modify _
  read _ := withPool _

end Points

end Emit

section Program

open Emit

variable {sigs : Signatures}

private theorem Emit.declare_error {name : String} {storage : Storage} {pos : Option Nat} {s t : Frame}
    {e : CompileError} (h : declare name storage pos s = .error e t) :
    e = .duplicate name pos ∧ name ∈ s.scopes.inner.map Prod.fst := by
  rw [declare, withScopes, get_bind_run] at h
  cases hlookup : s.scopes.inner.lookup name with
  | none =>
    simp only [Scopes.declare, hlookup, Option.isSome_none, Bool.false_eq_true, if_false] at h
    cases h
  | some old =>
    simp only [Scopes.declare, hlookup, Option.isSome_some, if_true] at h
    obtain ⟨rfl, -⟩ := EStateM.Result.error.inj h
    obtain ⟨before, after, hinner, -⟩ := List.lookup_eq_some_iff.mp hlookup
    exact ⟨rfl, by simp [hinner]⟩

/-- Declaring parameters fails, if registers are free, at one that an earlier one has the name of. -/
theorem Header.params_points {params : List (String × Register)} {pos : Nat} {s t : Frame} {e : CompileError}
    (h : (params.forM fun (param, r) => do
      Emit.reserve r
      Emit.declare param (.register r) (some pos) : Emit Unit) s = .error e t) :
    e.Points [] ∨ ∃ name, e = .duplicate name (some pos) ∧
      2 ≤ (s.scopes.inner.map Prod.fst ++ params.map Prod.fst).count name := by
  induction params generalizing s with
  | nil => cases h
  | cons entry params ih =>
    obtain ⟨param, r⟩ := entry
    rcases Emit.bind_error h with h | ⟨_, u, hdeclared, h⟩
    · rcases Emit.bind_error h with h | ⟨_, u, hreserved, h⟩
      · exact .inl (Points.withPool _ s e t h)
      · obtain ⟨-, -, rfl⟩ := reserve_ok hreserved
        obtain ⟨rfl, hmem⟩ := Emit.declare_error h
        have hcount := List.count_pos_iff.mpr hmem
        refine .inr ⟨param, rfl, ?_⟩
        simp only [List.count_append, List.map_cons, List.count_cons_self, Frame.taken_scopes] at hcount ⊢
        omega
    · obtain ⟨_, _, hreserved, hdeclared⟩ := bind_ok.mp hdeclared
      obtain ⟨-, -, rfl⟩ := reserve_ok hreserved
      obtain ⟨-, rfl⟩ := declare_ok hdeclared
      rcases ih h with h | ⟨name, rfl, hcount⟩
      · exact .inl h
      · refine .inr ⟨name, rfl, ?_⟩
        simp only [List.count_append, List.map_cons, List.count_cons, Frame.taken_scopes,
          Frame.within_scopes] at hcount ⊢
        omega

def Header.Repeats (header : Header) (e : CompileError) : Prop :=
  ∃ name, e = .duplicate name (some header.pos) ∧ 2 ≤ header.params.count name

private theorem Routine.compile_points {policy : FreePolicy} {labels : LabelSupply} {header : Header} {body : List Stmt}
    {e : CompileError} (h : Routine.compile sigs policy labels header body = .error e) :
    e.Points (Stmt.namesOf body) ∨ header.Repeats e := by
  rcases compile_error h with ⟨rfl, -⟩ | ⟨frame, hrun⟩
  · exact .inl (.of_none rfl)
  rcases Emit.bind_error hrun with hparams | ⟨_, t, -, hbody⟩
  · rcases Header.params_points hparams with hpoints | ⟨name, rfl, hcount⟩
    · exact .inl (hpoints.mono (List.nil_subset _))
    · refine .inr ⟨name, rfl, Nat.le_trans hcount ?_⟩
      have hprefix : (header.params.zip Register.arguments).map Prod.fst <+: header.params := by
        rw [List.zip_eq_zip_take_min, List.map_fst_zip (by simp)]
        exact List.take_prefix _ _
      exact hprefix.sublist.count_le name
  · exact .inl ((Points.law sigs).rest body (fun _ hplace => hplace) t e frame hbody)

end Program

namespace CompilationUnit

variable {sigs : Signatures} {unit : CompilationUnit} {e : CompileError}

/-- Whatever goes wrong in a unit is about a name in it, or about a parameter that a function of it declares
twice. -/
theorem compile_points {policy : FreePolicy} (h : unit.compile policy = .error e) :
    e.Points unit.names ∨ ∃ header body, .function header body ∈ unit.items ∧ header.Repeats e := by
  rcases compile_error h with hsigs | ⟨sigs, labels, ⟨header, body⟩, hf, hroutine⟩
  · left
    obtain ⟨name, pos, hname, hpos, hmem⟩ := signaturesFrom_error hsigs
    intro name' pos' hname' hpos'
    obtain rfl := Option.some.inj (hname.symm.trans hname')
    obtain rfl := Option.some.inj (hpos.symm.trans hpos')
    exact hmem
  · have hpoints := Routine.compile_points hroutine
    rw [functions_eq, List.mem_append, mem_definitions, List.mem_singleton] at hf
    rcases hf with hitem | hentry
    · rcases hpoints with hpoints | hrepeats
      · left
        refine hpoints.mono (List.Subset.trans ?_ (Item.names_subset_names hitem))
        exact List.subset_cons_self _ _
      · exact .inr ⟨header, body, hitem, hrepeats⟩
    · obtain ⟨rfl, rfl⟩ := Prod.mk.inj hentry
      rcases hpoints with hpoints | ⟨name, -, hcount⟩
      · exact .inl (hpoints.mono unit.namesOf_topLevel)
      · simp at hcount

end CompilationUnit

/-! ## Places in the source -/

namespace Text

theorem utf8ByteSize_ofList (cs : List Char) : (String.ofList cs).utf8ByteSize = byteLength cs := by
  induction cs with
  | nil => rfl
  | cons c cs ih => rw [String.ofList_cons, String.utf8ByteSize_append, String.utf8ByteSize_singleton, ih, byteLength]

namespace Boundary

variable {source : String} {offset : Nat}

theorem isValid (h : Boundary source offset) : String.Pos.Raw.IsValid source ⟨offset⟩ := by
  obtain ⟨before, after, hsource, rfl⟩ := h
  refine String.Pos.Raw.isValid_iff_exists_append.mpr ⟨String.ofList before, String.ofList after, ?_, ?_⟩
  · rw [← String.ofList_append, ← hsource, String.ofList_toList]
  · rw [← utf8ByteSize_ofList]
    rfl

private theorem exists_position (h : Boundary source offset) : ∃ pos, Position.ofOffset source offset = some pos := by
  obtain ⟨before, after, hsource, rfl⟩ := h
  rw [Position.ofOffset, hsource]
  clear hsource
  generalize (⟨1, 1⟩ : Position) = pos
  induction before generalizing pos with
  | nil => cases after <;> exact ⟨pos, by simp [Position.advance, byteLength]⟩
  | cons c before ih =>
    have hpos := Char.utf8Size_pos c
    rw [List.cons_append, Position.advance, byteLength, if_neg (by omega), if_neg (by omega), Nat.add_sub_cancel_left]
    split
    · exact ih _
    · exact ih _

end Boundary

end Text

namespace Tokens

variable {source : String} {t : Token}

private theorem scan_start (h : t ∈ (scan source).tokens) : Text.Boundary source t.start := by
  obtain ⟨before, after, hsource, hstart, -, -⟩ := (scan_eq_iff.mp rfl).token_at h
  exact ⟨before, _, hsource, by rw [hstart, Nat.zero_add]⟩

private theorem scan_stop (h : t ∈ (scan source).tokens) : Text.Boundary source t.stop := by
  obtain ⟨before, after, hsource, hstart, hstop, -⟩ := (scan_eq_iff.mp rfl).token_at h
  refine ⟨before ++ t.text.toList, after, by rw [hsource, List.append_assoc], ?_⟩
  rw [Text.byteLength_append, hstop, hstart, Nat.zero_add]

end Tokens

namespace Grammar

variable {source : String}

private theorem stop_boundary {c : Config}
    (h : Relation.ReflTransGen (Move tables) ⟨[], 0, (Tokens.scan source).tokens⟩ c) : Text.Boundary source c.stop := by
  induction h with
  | refl => exact ⟨[], source.toList, rfl, rfl⟩
  | tail hmoves hmove ih =>
    cases hmove with
    | shift => exact Tokens.scan_stop ((moves_suffix hmoves).subset List.mem_cons_self)
    | reduce => exact ih

private theorem parse_boundary {e : SyntaxError} (h : CompilationUnit.parse source = .error e) {offset : Nat}
    (hoffset : e.offset? = some offset) : Text.Boundary source offset := by
  have hplace : ¬ Placeless e := by
    rintro (rfl | rfl) <;> simp [SyntaxError.offset?] at hoffset
  obtain ⟨c, hmoves, hrejects⟩ := run_error h hplace
  cases hrejects with
  | invalid hinvalid =>
    obtain rfl := Option.some.inj hoffset
    obtain ⟨before, c, after, hsource, hoffset, -⟩ := (Tokens.scan_eq_iff.mp rfl).invalid_at hinvalid
    exact ⟨before, c :: after, hsource, by rw [hoffset, Nat.zero_add]⟩
  | ending =>
    obtain rfl := Option.some.inj hoffset
    exact stop_boundary hmoves
  | token =>
    obtain rfl := Option.some.inj hoffset
    exact Tokens.scan_start ((moves_suffix hmoves).subset List.mem_cons_self)

end Grammar

open Grammar in
/-- The names in a program that was read are identifiers of the source. -/
theorem CompilationUnit.parse_names {source : String} {unit : CompilationUnit}
    (h : CompilationUnit.parse source = .ok unit) : unit.names ⊆ identifiers (Tokens.scan source).tokens :=
  (run_sentence (fun _ _ => mem_productions) h).2.names

/-- An error about a name points to an identifier of the source that spells it. Only if a function declares a
parameter twice, it points to the name of the function. -/
theorem CompilationUnit.compile_identifier {source : String} {unit : CompilationUnit} {policy : FreePolicy}
    {e : CompileError} {name : String} (hparse : CompilationUnit.parse source = .ok unit)
    (h : unit.compile policy = .error e) (hname : e.name? = some name) :
    ∃ t ∈ (Tokens.scan source).tokens, t.kind = .identifier ∧ e.offset? = some t.start ∧
      (t.text = name ∨ ∃ header body, .function header body ∈ unit.items ∧ header.name = t.text ∧
        header.pos = t.start ∧ 2 ≤ header.params.count name ∧ e = .duplicate name (some t.start)) := by
  rcases compile_points h with hpoints | ⟨header, body, hitem, other, rfl, hcount⟩
  · have haccepts := unit.compile_accepts policy
    rw [h] at haccepts
    obtain ⟨pos, hpos⟩ := CompileError.Blames.exists_offset haccepts hname
    have hmem := CompilationUnit.parse_names hparse (hpoints name pos hname hpos)
    obtain ⟨t, ht, hkind, htext, rfl⟩ := Grammar.mem_identifiers.mp hmem
    exact ⟨t, ht, hkind, hpos, .inl htext⟩
  · obtain rfl := Option.some.inj hname
    have hmem := CompilationUnit.parse_names hparse (Item.names_subset_names hitem List.mem_cons_self)
    obtain ⟨t, ht, hkind, htext, hstart⟩ := Grammar.mem_identifiers.mp hmem
    exact ⟨t, ht, hkind, by rw [hstart]; rfl,
      .inr ⟨header, body, hitem, htext.symm, hstart.symm, hcount, by rw [hstart]⟩⟩

/-- Every error of a compilation can be shown with the source: if it has an offset, a character starts there or
the source ends there, and it has a line and a column. An error about a name has an offset, that of an identifier
which spells the name; but if a function declares a parameter twice, it is that of the function's name. -/
theorem compile_error_place {source : String} {policy : FreePolicy} {e : BuildError}
    (h : compile source policy = .error e) :
    (∀ offset, e.offset? = some offset → String.Pos.Raw.IsValid source ⟨offset⟩ ∧
      ∃ pos, Text.Position.ofOffset source offset = some pos ∧
        e.located source = toString pos.line ++ ":" ++ toString pos.column ++ ": " ++ e.message) ∧
    ∀ cause name, e = .compile cause → cause.name? = some name →
      ∃ t ∈ (Tokens.scan source).tokens, t.kind = .identifier ∧ e.offset? = some t.start ∧
        (t.text = name ∨ ∃ unit header body, CompilationUnit.parse source = .ok unit ∧
          .function header body ∈ unit.items ∧ header.name = t.text ∧ header.pos = t.start ∧
          2 ≤ header.params.count name ∧ cause = .duplicate name (some t.start)) := by
  have hlocated {offset : Nat} (hoffset : e.offset? = some offset) (hboundary : Text.Boundary source offset) :
      String.Pos.Raw.IsValid source ⟨offset⟩ ∧ ∃ pos, Text.Position.ofOffset source offset = some pos ∧
        e.located source = toString pos.line ++ ":" ++ toString pos.column ++ ": " ++ e.message := by
    obtain ⟨pos, hpos⟩ := hboundary.exists_position
    refine ⟨hboundary.isValid, pos, hpos, ?_⟩
    rw [BuildError.located, hoffset, Option.bind_some, hpos]
  rw [compile] at h
  cases hparse : CompilationUnit.parse source with
  | error cause =>
    simp only [hparse] at h
    obtain rfl := Except.error.inj h
    refine ⟨fun offset hoffset => hlocated hoffset (Grammar.parse_boundary hparse hoffset), ?_⟩
    rintro _ _ ⟨⟩
  | ok unit =>
    simp only [hparse] at h
    cases hcompile : unit.compile policy with
    | ok asm => simp [hcompile] at h
    | error cause =>
      simp only [hcompile] at h
      obtain rfl := Except.error.inj h
      have hidentifier {name : String} (hname : cause.name? = some name) :=
        CompilationUnit.compile_identifier hparse hcompile hname
      refine ⟨fun offset hoffset => hlocated hoffset ?_, ?_⟩
      · have hname : ∃ name, cause.name? = some name := by
          cases cause <;> simp_all [CompileError.name?, BuildError.offset?, CompileError.offset?]
        obtain ⟨name, hname⟩ := hname
        obtain ⟨t, ht, -, hstart, -⟩ := hidentifier hname
        obtain rfl := Option.some.inj (hoffset.symm.trans hstart)
        exact Tokens.scan_start ht
      · rintro _ name ⟨⟩ hname
        obtain ⟨t, ht, hkind, hstart, htext | ⟨header, body, hitem, hheader⟩⟩ := hidentifier hname
        · exact ⟨t, ht, hkind, hstart, .inl htext⟩
        · exact ⟨t, ht, hkind, hstart, .inr ⟨unit, header, body, rfl, hitem, hheader⟩⟩

set_option maxRecDepth 2000 in
private theorem CompilationUnit.parse_unknown :
    CompilationUnit.parse "\u00A0x;" = .ok ⟨[.stmt (.simple (.expr (.var "x" 2)))]⟩ := by
  have hscan : Tokens.scan "\u00A0x;" = ⟨[⟨.identifier, "x", 2, 3⟩, ⟨.semicolon, ";", 3, 4⟩], none⟩ := rfl
  rw [parse, hscan]
  apply Grammar.run_eq_ok
  have hname : Grammar.Derives [.nonterminal .name] [⟨.identifier, "x", 2, 3⟩] (("x", 2), ()) :=
    .of_index 68 rfl (.token rfl .nil) rfl
  have hplace := Grammar.Derives.of_index 37 rfl hname rfl
  have hprimary := Grammar.Derives.of_index 65 rfl hplace rfl
  have hsimple := Grammar.Derives.of_index 36 rfl hprimary.expr_of_primary rfl
  have hstmt : Grammar.Derives [.nonterminal .stmt] [⟨.identifier, "x", 2, 3⟩, ⟨.semicolon, ";", 3, 4⟩]
      (.simple (.expr (.var "x" 2)), ()) :=
    .of_index 14 rfl (hsimple.cons (.token rfl .nil)) rfl
  exact .of_index 2 rfl (.of_index 3 rfl (.of_index 7 rfl hstmt rfl) rfl) rfl

theorem compile_error_place_unknown :
    compile "\u00A0x;" .strict = .error (.compile (.unknownVariable "x" (some 2))) ∧
      String.Pos.Raw.IsValid "\u00A0x;" ⟨2⟩ ∧
      ∃ t ∈ (Tokens.scan "\u00A0x;").tokens, t.kind = .identifier ∧ t.start = 2 := by
  have hcompile : compile "\u00A0x;" .strict = .error (.compile (.unknownVariable "x" (some 2))) := by
    rw [compile, CompilationUnit.parse_unknown]
    rfl
  obtain ⟨hvalid, hname⟩ := compile_error_place hcompile
  obtain ⟨t, ht, hkind, hstart, -⟩ := hname _ "x" rfl rfl
  exact ⟨hcompile, (hvalid 2 rfl).1, t, ht, hkind, (Option.some.inj hstart).symm⟩

end WordLang
