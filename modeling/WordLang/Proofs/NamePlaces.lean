import WordLang.Proofs.Derivation
import WordLang.Proofs.StepLaws

/-!
# The places of names

Every name in a program comes with the place where it stands in the source. The productions bring no name and
no place of their own, so each name in a text of the language is the text of one of its identifiers, and its
place is where that identifier starts. Only the names of parameters have no place.
-/

namespace WordLang

@[simp] theorem Place.names_toExpr (place : Place) : place.toExpr.names = place.names := by
  cases place <;> simp [Place.toExpr, Place.names, Expr.names]

@[simp] theorem Expr.namesOf_append (es es' : List Expr) : namesOf (es ++ es') = namesOf es ++ namesOf es' := by
  induction es with
  | nil => rfl
  | cons e es ih => simp [namesOf, ih]

@[simp] theorem Stmt.namesOf_append (body body' : List Stmt) :
    namesOf (body ++ body') = namesOf body ++ namesOf body' := by
  induction body with
  | nil => rfl
  | cons stmt body ih => simp [namesOf, ih]

theorem Item.names_subset_names {item : Item} {unit : CompilationUnit} (h : item ∈ unit.items) :
    item.names ⊆ unit.names :=
  fun _ hplace => List.mem_flatMap.mpr ⟨item, h, hplace⟩

theorem CompilationUnit.namesOf_topLevel (unit : CompilationUnit) : Stmt.namesOf unit.topLevel ⊆ unit.names := by
  rw [topLevel, names]
  induction unit.items with
  | nil => exact List.Subset.refl _
  | cons item items ih =>
    rw [List.flatMap_cons]
    cases item with
    | function | external => exact List.subset_append_of_subset_right _ ih
    | stmt s =>
      have hs : s.names ⊆ (Item.stmt s).names ++ items.flatMap Item.names := List.subset_append_left _ _
      exact List.append_subset.mpr ⟨hs, List.subset_append_of_subset_right _ ih⟩

namespace Grammar

def Nonterminal.names : (n : Nonterminal) → n.Value → List (String × Nat)
  | .start, v | .unit, v => CompilationUnit.names v
  | .items, v => v.flatMap Item.names
  | .item, v | .function, v => Item.names v
  | .header, v => [(v.name, v.pos)]
  | .block, v | .stmts, v | .elseTail, v => Stmt.namesOf v
  | .stmt, v | .ifStmt, v => Stmt.names v
  | .simple, v => Simple.names v
  | .place, v => Place.names v
  | .expr, v | .disjunction, v | .conjunction, v | .equality, v | .relation, v | .sum, v | .product, v
  | .unary, v | .primary, v => Expr.names v
  | .number, _ => []
  | .name, v => [v]
  | .params, _ | .paramCommas, _ => []
  | .args, v | .argCommas, v => Expr.namesOf v

/-- The names in a phrase. An identifier is a name, and no other token is. -/
def Symbol.names : (s : Symbol) → s.Value → List (String × Nat)
  | .terminal kind, token => if kind = .identifier then [(token.text, token.start)] else []
  | .nonterminal n, value => n.names value

def Values.names : (symbols : List Symbol) → Values symbols → List (String × Nat)
  | [], _ => []
  | s :: symbols, values => s.names values.1 ++ Values.names symbols values.2

/-- The names in a phrase are names in its parts. -/
theorem build_names : ∀ p ∈ productions, ∀ (values : Values p.rhs) (value : p.lhs.Value),
    p.build values = some value → p.lhs.names value ⊆ Values.names p.rhs values := by
  rw [productions]
  repeat' refine List.forall_mem_cons.mpr ⟨?_, ?_⟩
  any_goals exact List.forall_mem_nil _
  all_goals intro values value hbuild
  any_goals exact List.nil_subset _
  all_goals
    obtain rfl := Option.some.inj hbuild
    intro place
    simp [Nonterminal.names, Values.names, Symbol.names, CompilationUnit.names, Item.names, Stmt.names,
      Stmt.namesOf, Simple.names, Place.names, Expr.names, Expr.namesOf]

/-- The identifiers among tokens, each with the place where it starts. -/
def identifiers (tokens : List Token) : List (String × Nat) :=
  (tokens.filter fun t => t.kind = .identifier).map fun t => (t.text, t.start)

theorem mem_identifiers {tokens : List Token} {name : String} {pos : Nat} :
    (name, pos) ∈ identifiers tokens ↔
      ∃ t ∈ tokens, t.kind = .identifier ∧ t.text = name ∧ t.start = pos := by
  simp [identifiers, and_assoc]

private theorem identifiers_append (tokens tokens' : List Token) :
    identifiers (tokens ++ tokens') = identifiers tokens ++ identifiers tokens' := by
  simp [identifiers]

private theorem identifiers_cons (t : Token) (tokens : List Token) :
    identifiers (t :: tokens) = Symbol.names (.terminal t.kind) t ++ identifiers tokens := by
  by_cases h : t.kind = .identifier <;> simp [identifiers, Symbol.names, h]

/-- The names in phrases are the identifiers among their tokens. -/
theorem Derives.names {symbols : List Symbol} {tokens : List Token} {values : Values symbols}
    (h : Derives symbols tokens values) : Values.names symbols values ⊆ identifiers tokens := by
  induction h with
  | nil => exact List.nil_subset _
  | @token symbols tokens values kind t hkind _ ih =>
    subst hkind
    rw [Values.names, identifiers_cons]
    exact List.append_subset.mpr ⟨List.subset_append_left _ _, List.subset_append_of_subset_right _ ih⟩
  | @phrase symbols tokens parts values p meanings meaning hp _ hbuild _ ihparts ihrest =>
    rw [identifiers_append, Values.names]
    refine List.append_subset.mpr ⟨List.subset_append_of_subset_left _ ?_, List.subset_append_of_subset_right _ ihrest⟩
    exact List.Subset.trans (build_names p hp meanings meaning hbuild) ihparts

theorem Sentence.names {tokens : List Token} {unit : CompilationUnit} (h : Sentence tokens unit) :
    unit.names ⊆ identifiers tokens := by
  simpa [Values.names, Symbol.names, Nonterminal.names] using Derives.names h

end Grammar

end WordLang
