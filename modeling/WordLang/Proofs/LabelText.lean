import WordLang.Label

/-!
# Texts of generated labels

A generated label is an underscore, a kind, a number and an ending. Kinds hold no digits and endings do not
start with one, so the three parts can be read back from the text. A supply gives every number of a kind
out once.
-/

namespace WordLang

/-- Two texts that both are letters, then digits, then something else agree in all three parts. -/
private theorem digits_split {xs xs' ds ds' ys ys' : List Char}
    (hx : ∀ c ∈ xs, c.isDigit = false) (hx' : ∀ c ∈ xs', c.isDigit = false)
    (hd : ∀ c ∈ ds, c.isDigit = true) (hd' : ∀ c ∈ ds', c.isDigit = true)
    (hne : ds ≠ []) (hne' : ds' ≠ [])
    (hy : ∀ c ∈ ys.head?, c.isDigit = false) (hy' : ∀ c ∈ ys'.head?, c.isDigit = false)
    (h : xs ++ (ds ++ ys) = xs' ++ (ds' ++ ys')) : xs = xs' ∧ ds = ds' ∧ ys = ys' := by
  have letters {as bs cs : List Char} (ha : ∀ c ∈ as, c.isDigit = false)
      (hb : ∀ c ∈ bs, c.isDigit = true) (hn : bs ≠ []) :
      (as ++ (bs ++ cs)).takeWhile (fun c => !c.isDigit) = as := by
    rw [List.takeWhile_append_of_pos (by simpa using ha)]
    cases bs with
    | nil => exact absurd rfl hn
    | cons b bs => simp [hb b List.mem_cons_self]
  have numerals {bs cs : List Char} (hb : ∀ c ∈ bs, c.isDigit = true)
      (hc : ∀ c ∈ cs.head?, c.isDigit = false) :
      (bs ++ cs).takeWhile Char.isDigit = bs := by
    rw [List.takeWhile_append_of_pos hb]
    cases cs with
    | nil => simp
    | cons c cs => simp [hc c rfl]
  have hxs : xs = xs' := by
    have := congrArg (List.takeWhile fun c => !c.isDigit) h
    rwa [letters hx hd hne, letters hx' hd' hne'] at this
  subst hxs
  have hrest := List.append_cancel_left h
  have hds : ds = ds' := by
    have := congrArg (List.takeWhile Char.isDigit) hrest
    rwa [numerals hd hy, numerals hd' hy'] at this
  subst hds
  exact ⟨rfl, rfl, List.append_cancel_left hrest⟩

theorem lookup_filter_ne {α : Type} (entries : List (String × α)) {name other : String} (h : other ≠ name) :
    (entries.filter fun entry => entry.1 != name).lookup other = entries.lookup other := by
  induction entries with
  | nil => rfl
  | cons entry entries ih =>
    obtain ⟨key, value⟩ := entry
    by_cases hname : key = name
    · subst hname
      have hb : (other == key) = false := by simpa using h
      simp [ih, List.lookup_cons, hb]
    · simp [hname, ih, List.lookup_cons]

namespace LabelSupply

def text (kind : String) (number : Nat) (ending : String) : String :=
  "_" ++ kind ++ toString number ++ ending

def endings : String → List String
  | "if" => ["_else", "_end"]
  | "while" => ["", "_end"]
  | "for" => ["", "_end"]
  | "return" => [""]
  | _ => []

/-- The kinds of the labels that statements place in their code. -/
def constructs : List String :=
  ["if", "while", "for"]

def kinds : List String :=
  "return" :: constructs

/-- The texts that generated labels can have. -/
def Generated (label : String) : Prop :=
  ∃ kind ∈ kinds, ∃ number, ∃ ending ∈ endings kind, label = text kind number ending

private theorem toList_text (kind : String) (number : Nat) (ending : String) :
    (text kind number ending).toList =
      '_' :: (kind.toList ++ (Nat.toDigits 10 number ++ ending.toList)) := by
  simp [text, String.toList_append]

private theorem kind_letters {kind : String} (h : kind ∈ kinds) :
    ∀ c ∈ kind.toList, c.isDigit = false := by
  simp only [kinds, constructs, List.mem_cons, List.not_mem_nil, or_false] at h
  rcases h with rfl | rfl | rfl | rfl <;> simp

private theorem ending_start {kind ending : String} (h : kind ∈ kinds) (he : ending ∈ endings kind) :
    ∀ c ∈ ending.toList.head?, c.isDigit = false := by
  simp only [kinds, constructs, List.mem_cons, List.not_mem_nil, or_false] at h
  rcases h with rfl | rfl | rfl | rfl <;>
    simp only [endings, List.mem_cons, List.not_mem_nil, or_false] at he
  · subst he
    simp
  all_goals rcases he with rfl | rfl <;> simp

/-- The parts of a generated label can be read back. -/
theorem text_inj {kind kind' ending ending' : String} {number number' : Nat}
    (hk : kind ∈ kinds) (hk' : kind' ∈ kinds) (he : ending ∈ endings kind)
    (he' : ending' ∈ endings kind') (h : text kind number ending = text kind' number' ending') :
    kind = kind' ∧ number = number' ∧ ending = ending' := by
  have hl := congrArg String.toList h
  rw [toList_text, toList_text, List.cons.injEq] at hl
  have hdigits (n : Nat) : ∀ c ∈ Nat.toDigits 10 n, c.isDigit = true := fun c hc =>
    Nat.isDigit_of_mem_toDigits (by decide) (by decide) hc
  obtain ⟨hkind, hnumber, hending⟩ := digits_split (kind_letters hk) (kind_letters hk')
    (hdigits number) (hdigits number') Nat.toDigits_ne_nil Nat.toDigits_ne_nil
    (ending_start hk he) (ending_start hk' he') hl.2
  refine ⟨String.toList_inj.mp hkind, ?_, String.toList_inj.mp hending⟩
  have := congrArg (Nat.ofDigitChars 10 · 0) hnumber
  simpa [Nat.ofDigitChars_ten_toDigits] using this

theorem fresh_label (supply : LabelSupply) (kind : String) (ending : String) :
    (supply.fresh kind).1 ++ ending = text kind (supply.next kind) ending := rfl

theorem fresh_label_bare (supply : LabelSupply) (kind : String) :
    (supply.fresh kind).1 = text kind (supply.next kind) "" := by
  rw [← fresh_label, String.append_empty]

theorem next_fresh (supply : LabelSupply) (kind other : String) :
    (supply.fresh kind).2.next other =
      if other = kind then supply.next kind + 1 else supply.next other := by
  by_cases h : other = kind
  · subst h
    simp [fresh, next]
  · have hb : (other == kind) = false := by simpa using h
    simp [fresh, next, h, lookup_filter_ne, List.lookup_cons, hb]

/-- The labels of some kinds that a supply gave out on the way from one state to a later one. -/
def Gave (kinds : List String) (before after : LabelSupply) (label : String) : Prop :=
  ∃ kind ∈ kinds, ∃ number, ∃ ending ∈ endings kind,
    before.next kind ≤ number ∧ number < after.next kind ∧ label = text kind number ending

/-- The numbers of the second supply are at least those of the first. -/
def Precedes (before after : LabelSupply) : Prop :=
  ∀ kind, before.next kind ≤ after.next kind

theorem Precedes.refl (supply : LabelSupply) : supply.Precedes supply := fun _ => Nat.le_refl _

theorem Precedes.trans {a b c : LabelSupply} (h : a.Precedes b) (h' : b.Precedes c) : a.Precedes c :=
  fun kind => Nat.le_trans (h kind) (h' kind)

theorem precedes_fresh (supply : LabelSupply) (kind : String) :
    supply.Precedes (supply.fresh kind).2 := by
  intro other
  rw [next_fresh]
  split
  · rename_i h
    rw [h]
    exact Nat.le_succ _
  · exact Nat.le_refl _

theorem Gave.generated {some : List String} {a b : LabelSupply} {label : String}
    (hsub : some ⊆ kinds) (h : Gave some a b label) : Generated label := by
  obtain ⟨kind, hk, number, ending, he, _, _, rfl⟩ := h
  exact ⟨kind, hsub hk, number, ending, he, rfl⟩

theorem Gave.widen {some more : List String} {a a' b b' : LabelSupply} {label : String}
    (hsub : some ⊆ more) (ha : a'.Precedes a) (hb : b.Precedes b') (h : Gave some a b label) :
    Gave more a' b' label := by
  obtain ⟨kind, hk, number, ending, he, hlo, hhi, rfl⟩ := h
  exact ⟨kind, hsub hk, number, ending, he, Nat.le_trans (ha kind) hlo,
    Nat.lt_of_lt_of_le hhi (hb kind), rfl⟩

/-- What is given out later differs from what was given out before. -/
theorem Gave.disjoint {some some' : List String} {a b b' c : LabelSupply} {label : String}
    (hsub : some ⊆ kinds) (hsub' : some' ⊆ kinds) (hb : b.Precedes b') (h : Gave some a b label)
    (h' : Gave some' b' c label) : False := by
  obtain ⟨kind, hk, number, ending, he, _, hhi, rfl⟩ := h
  obtain ⟨kind', hk', number', ending', he', hlo', _, htext⟩ := h'
  obtain ⟨rfl, rfl, _⟩ := text_inj (hsub hk) (hsub' hk') he he' htext
  exact absurd (Nat.lt_of_lt_of_le hhi (Nat.le_trans (hb kind) hlo')) (Nat.lt_irrefl _)

theorem gave_fresh {some : List String} (supply : LabelSupply) {kind ending : String}
    (hk : kind ∈ some) (he : ending ∈ endings kind) :
    Gave some supply (supply.fresh kind).2 (text kind (supply.next kind) ending) := by
  refine ⟨kind, hk, supply.next kind, ending, he, Nat.le_refl _, ?_, rfl⟩
  rw [next_fresh, if_pos rfl]
  exact Nat.lt_succ_self _

end LabelSupply

end WordLang
