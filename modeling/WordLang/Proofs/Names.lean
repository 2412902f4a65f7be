import WordLang.Grammar.Parse
import WordLang.Proofs.Units

/-!
# Names in parsed units

The functions of a parsed unit are named by letters, digits and underscores: the parser takes names from
identifiers only, and the phrases on its stack never hold another name.
-/

namespace WordLang

/-- Names made of letters, digits and underscores. -/
def Text.Named (name : String) : Prop :=
  ∀ c ∈ name.toList, isNameChar c = true

instance : DecidablePred Text.Named :=
  fun name => List.decidableBAll (fun c => Text.isNameChar c = true) name.toList

theorem Text.code_of_isNameChar {c : Char} (h : Text.isNameChar c = true) :
    (48 ≤ c.toNat ∧ c.toNat ≤ 57) ∨ (65 ≤ c.toNat ∧ c.toNat ≤ 90) ∨ c.toNat = 95 ∨
      (97 ≤ c.toNat ∧ c.toNat ≤ 122) := by
  unfold Text.isNameChar at h
  delta Char.isAlphanum Char.isAlpha Char.isUpper Char.isLower Char.isDigit at h
  simp only [Bool.or_eq_true, Bool.and_eq_true, decide_eq_true_eq, ge_iff_le, UInt32.le_iff_toNat_le,
    beq_iff_eq] at h
  rcases h with ((h | h) | h) | rfl
  · exact .inr (.inl h)
  · exact .inr (.inr (.inr h))
  · exact .inl h
  · exact .inr (.inr (.inl rfl))

theorem Text.isBlank_of_isNameChar {c : Char} (h : Text.isNameChar c = true) : Text.isBlank c = false := by
  have hcode := Text.code_of_isNameChar h
  simp only [Text.isBlank, Bool.or_eq_false_iff, Bool.and_eq_false_iff, decide_eq_false_iff_not,
    beq_eq_false_iff_ne]
  omega

def Item.Named (item : Item) : Prop :=
  ∀ sig, item.signature? = some sig → Text.Named sig.name

/-- All functions that a unit defines or declares have such names. -/
def CompilationUnit.Named (unit : CompilationUnit) : Prop :=
  ∀ item ∈ unit.items, item.Named

namespace Token

private theorem identifierLength_take (cs : List Char) :
    ∀ c ∈ cs.take (identifierLength cs), Text.isNameChar c = true := by
  cases cs with
  | nil => simp
  | cons first cs =>
    by_cases hfirst : isIdentStart first = true
    · have htake : (first :: cs).take (identifierLength (first :: cs)) =
          first :: cs.takeWhile Text.isNameChar := by
        rw [identifierLength, if_pos hfirst, Nat.add_comm, List.take_succ_cons,
          ← List.prefix_iff_eq_take.mp (List.takeWhile_prefix _)]
      rw [htake]
      intro c hc
      rcases List.mem_cons.mp hc with rfl | hc
      · simp only [isIdentStart, Bool.or_eq_true] at hfirst
        rcases hfirst with hfirst | hfirst
        · simp [Text.isNameChar, Char.isAlphanum, hfirst]
        · simp [Text.isNameChar, hfirst]
      · exact List.all_eq_true.mp List.all_takeWhile c hc
    · simp [identifierLength, hfirst]

theorem longest_length (cs : List Char) : (longest cs).2 = prefixLength (longest cs).1 cs := by
  have hfold (kinds : List Terminal) (best : Terminal × Nat) (hbest : best.2 = prefixLength best.1 cs) :
      (kinds.foldl (fun best kind => if best.2 < prefixLength kind cs then (kind, prefixLength kind cs)
        else best) best).2 =
      prefixLength (kinds.foldl (fun best kind => if best.2 < prefixLength kind cs then
        (kind, prefixLength kind cs) else best) best).1 cs := by
    induction kinds generalizing best with
    | nil => exact hbest
    | cons kind kinds ih =>
      rw [List.foldl_cons]
      refine ih _ ?_
      split
      · rfl
      · exact hbest
  exact hfold Terminal.all (.eof, 0) rfl

end Token

private theorem Tokens.scanFrom_named (skip offset : Nat) (cs : List Char) :
    ∀ token ∈ (scanFrom skip offset cs).tokens, token.kind = .identifier → Text.Named token.text := by
  induction cs generalizing skip offset with
  | nil => simp [scanFrom]
  | cons c cs ih =>
    rw [scanFrom]
    dsimp only
    split
    · exact ih _ _
    · split
      · exact ih _ _
      · split
        · simp
        · intro token htoken hkind
          rcases List.mem_cons.mp htoken with rfl | htoken
          · have hlength := Token.longest_length (c :: cs)
            have hidentifier : (Token.longest (c :: cs)).1 = .identifier := hkind
            rw [hidentifier, Token.prefixLength] at hlength
            intro d hd
            rw [String.toList_ofList, hlength] at hd
            exact Token.identifierLength_take _ d hd
          · exact ih _ _ token htoken hkind

namespace Grammar

/-- Phrases hold only such names of functions, and identifiers are such names. -/
def Symbol.Named : (s : Symbol) → s.Value → Prop
  | .terminal kind, token => kind = .identifier → Text.Named token.text
  | .nonterminal .name, name => Text.Named name.1
  | .nonterminal .header, header => Text.Named header.name
  | .nonterminal .function, item | .nonterminal .item, item => item.Named
  | .nonterminal .items, items => ∀ item ∈ items, item.Named
  | .nonterminal .unit, unit | .nonterminal .start, unit => unit.Named
  | .nonterminal _, _ => True

def Values.Named : (symbols : List Symbol) → Values symbols → Prop
  | [], _ => True
  | s :: symbols, values => s.Named values.1 ∧ Values.Named symbols values.2

private theorem build_named : ∀ p ∈ productions, ∀ (values : Values p.rhs) (value : p.lhs.Value),
    Values.Named p.rhs values → p.build values = some value →
      Symbol.Named (.nonterminal p.lhs) value := by
  rw [productions]
  repeat' refine List.forall_mem_cons.mpr ⟨?_, ?_⟩
  all_goals intro values value hvalues hbuild
  any_goals trivial
  all_goals obtain rfl := Option.some.inj hbuild
  · exact hvalues.1
  · exact fun item hitem => absurd hitem List.not_mem_nil
  · exact hvalues.1
  · intro item hitem
    rw [List.mem_singleton.mp hitem]
    exact hvalues.1
  · intro item hitem
    rcases List.mem_append.mp hitem with hitem | hitem
    · exact hvalues.1 item hitem
    · rw [List.mem_singleton.mp hitem]
      exact hvalues.2.1
  · exact hvalues.1
  · rintro sig ⟨⟩
    exact hvalues.2.1
  · rintro sig ⟨⟩
  · exact hvalues.2.1
  · rintro sig ⟨⟩
    exact hvalues.1
  · exact hvalues.1 rfl

variable {tables : Tables} {stack stack' entries : List Entry}

private theorem ofEntries?_named {symbols : List Symbol} {values : Values symbols}
    (h : Values.ofEntries? symbols entries = some values)
    (hentries : ∀ entry ∈ entries, entry.symbol.Named entry.value) : Values.Named symbols values := by
  induction symbols generalizing entries with
  | nil => trivial
  | cons s symbols ih =>
    cases entries with
    | nil => simp [Values.ofEntries?] at h
    | cons entry entries =>
      obtain ⟨state, symbol, value⟩ := entry
      rw [Values.ofEntries?] at h
      split at h
      · rename_i hsymbol
        obtain rfl : symbol = s := hsymbol
        obtain ⟨rest, hrest, rfl⟩ := Option.map_eq_some_iff.mp h
        refine ⟨hentries _ List.mem_cons_self, ih hrest fun other hother => ?_⟩
        exact hentries other (List.mem_cons_of_mem _ hother)
      · simp at h

private theorem reduce_named {p : Production} (hp : p ∈ productions) (h : reduce tables p stack = .ok stack')
    (hstack : ∀ entry ∈ stack, entry.symbol.Named entry.value) :
    ∀ entry ∈ stack', entry.symbol.Named entry.value := by
  unfold reduce at h
  dsimp only at h
  split at h
  · rename_i values target hvalues _
    split at h
    · rename_i value hbuild
      obtain rfl := Except.ok.inj h
      have hparts := ofEntries?_named hvalues fun entry hentry =>
        hstack entry (List.mem_of_mem_take (List.mem_reverse.mp hentry))
      intro entry hentry
      rcases List.mem_cons.mp hentry with rfl | hentry
      · exact build_named p hp values value hparts hbuild
      · exact hstack entry (List.mem_of_mem_drop hentry)
    · simp at h
  · simp at h

private theorem accept_named {unit : CompilationUnit} (h : accept stack = .ok unit)
    (hstack : ∀ entry ∈ stack, entry.symbol.Named entry.value) : unit.Named := by
  unfold accept at h
  split at h
  · obtain rfl := Except.ok.inj h
    exact hstack _ List.mem_cons_self
  · simp at h

/-- No step of the parser brings another name onto its stack. -/
theorem run_named (hproductions : ∀ i p, tables.production? i = some p → p ∈ productions)
    {invalid : Option Nat} {fuel stop : Nat} {tokens : List Token} {unit : CompilationUnit}
    (h : run tables invalid fuel stack stop tokens = .ok unit)
    (hstack : ∀ entry ∈ stack, entry.symbol.Named entry.value)
    (htokens : ∀ token ∈ tokens, token.kind = .identifier → Text.Named token.text) : unit.Named := by
  have hreduce {fuel : Nat} {stack : List Entry} {stop i : Nat} {tokens : List Token} {p : Production}
      (ih : ∀ {stack : List Entry}, run tables invalid fuel stack stop tokens = .ok unit →
        (∀ entry ∈ stack, entry.symbol.Named entry.value) → unit.Named)
      (hstack : ∀ entry ∈ stack, entry.symbol.Named entry.value) (hp : tables.production? i = some p)
      (h : (reduce tables p stack >>= fun stack => run tables invalid fuel stack stop tokens) = .ok unit) :
      unit.Named := by
    cases hr : reduce tables p stack with
    | error e => simp [hr, bind, Except.bind] at h
    | ok stack' =>
      exact ih (by simpa [hr, bind, Except.bind] using h) (reduce_named (hproductions i p hp) hr hstack)
  induction fuel generalizing stack stop tokens with
  | zero => simp [run] at h
  | succ fuel ih =>
    cases tokens with
    | nil =>
      unfold run at h
      split at h
      · simp at h
      · split at h
        · exact accept_named h hstack
        · split at h
          · rename_i p hp
            exact hreduce (fun h hs => ih h hs htokens) hstack hp h
          · simp at h
        · simp at h
        · simp at h
    | cons token tokens =>
      rw [run] at h
      split at h
      · refine ih h ?_ fun other hother => htokens other (List.mem_cons_of_mem token hother)
        intro entry hentry
        rcases List.mem_cons.mp hentry with rfl | hentry
        · exact htokens token List.mem_cons_self
        · exact hstack entry hentry
      · split at h
        · rename_i p hp
          exact hreduce (fun h hs => ih h hs htokens) hstack hp h
        · simp at h
      · simp at h
      · simp at h

end Grammar

theorem CompilationUnit.parse_named {source : String} {unit : CompilationUnit}
    (h : CompilationUnit.parse source = .ok unit) : unit.Named := by
  refine Grammar.run_named (fun i p hp => ?_) h (by simp) (Tokens.scanFrom_named 0 0 source.toList)
  exact List.mem_of_getElem? (by simpa [Grammar.tables, Grammar.productionTable] using hp)

end WordLang
