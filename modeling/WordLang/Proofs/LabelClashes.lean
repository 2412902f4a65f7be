import WordLang.Proofs.LinkedLabels
import WordLang.Proofs.Names
import WordLang.Proofs.SectionLabels

/-!
# Clashes of labels

Linking stops at the first section that defines a label which a section before it defines, and names the least
of these labels. Up to there no two sections share a label, so the label has one earlier owner, and if no section
repeats a label of another the check passes. Labels are written in ASCII, where the order of characters is the
order of bytes.
-/

namespace WordLang

namespace Text

private theorem least?_le {names : List String} {name other : String} (h : least? names = some name)
    (hother : other ∈ names) : name ≤ other := by
  induction names generalizing name with
  | nil => simp at hother
  | cons first rest ih =>
    unfold least? at h
    split at h
    · rename_i least hleast
      split at h
      · rename_i hlt
        obtain rfl := Option.some.inj h
        rcases List.mem_cons.mp hother with rfl | hother
        · exact String.not_lt.mp (String.lt_asymm hlt)
        · exact ih hleast hother
      · rename_i hle
        obtain rfl := Option.some.inj h
        rcases List.mem_cons.mp hother with rfl | hother
        · exact String.le_refl _
        · exact String.le_trans (String.not_lt.mp hle) (ih hleast hother)
    · rename_i hnone
      obtain rfl := Option.some.inj h
      rw [least?_eq_none hnone, List.mem_singleton] at hother
      exact hother ▸ String.le_refl _

def bytes (text : String) : List UInt8 :=
  text.toByteArray.data.toList

variable {name name' : String} {c d : Char} {cs ds : List Char}

private theorem toNat_le_of_isNameChar (h : isNameChar c = true) : c.toNat ≤ 127 := by
  have hcode := code_of_isNameChar h
  omega

private theorem bytes_of_named (h : Named name) : bytes name = name.toList.map fun c => c.val.toUInt8 := by
  have hencoded : name.toByteArray = name.toList.utf8Encode := by
    rw [← String.toByteArray_ofList, String.ofList_toList]
  have hchar : ∀ c ∈ name.toList, String.utf8EncodeChar c = [c.val.toUInt8] := by
    intro c hc
    exact String.utf8EncodeChar_eq_singleton (Char.utf8Size_eq_one_iff.mpr (toNat_le_of_isNameChar (h c hc)))
  rw [bytes, hencoded, List.utf8Encode, List.toList_data_toByteArray, List.flatMap_congr hchar,
    List.map_eq_flatMap]

private theorem map_lt_map_of_names (hcs : ∀ c ∈ cs, isNameChar c = true) (hds : ∀ d ∈ ds, isNameChar d = true) :
    (cs.map fun c => c.val.toUInt8) < (ds.map fun d => d.val.toUInt8) ↔ cs < ds := by
  have hcode {c : Char} (hc : isNameChar c = true) : c.val.toUInt8.toNat = c.toNat := by
    have hle := toNat_le_of_isNameChar hc
    rw [UInt32.toNat_toUInt8]
    exact Nat.mod_eq_of_lt (Nat.lt_of_le_of_lt hle (by decide))
  induction cs generalizing ds with
  | nil => cases ds <;> simp
  | cons c cs ih =>
    cases ds with
    | nil => simp
    | cons d ds =>
      rw [List.forall_mem_cons] at hcs hds
      have hlt : c.val.toUInt8 < d.val.toUInt8 ↔ c < d := by
        rw [UInt8.lt_iff_toNat_lt, hcode hcs.1, hcode hds.1]
        exact Iff.rfl
      have heq : c.val.toUInt8 = d.val.toUInt8 ↔ c = d := by
        rw [← UInt8.toNat_inj, hcode hcs.1, hcode hds.1, Char.toNat_inj]
      rw [List.map_cons, List.map_cons, List.cons_lt_cons_iff, List.cons_lt_cons_iff]
      exact or_congr hlt (and_congr heq (ih hcs.2 hds.2))

private theorem bytes_le_iff (h : Named name) (h' : Named name') : bytes name ≤ bytes name' ↔ name ≤ name' := by
  rw [bytes_of_named h, bytes_of_named h', ← List.not_lt, map_lt_map_of_names h' h, ← String.lt_iff,
    String.not_lt]

end Text

namespace Link

private theorem named_of_mem_definedLabels {text label : String} (h : label ∈ definedLabels text) :
    Text.Named label := by
  obtain ⟨line, -, hline⟩ := List.mem_filterMap.mp h
  unfold lineLabel? at hline
  split at hline
  · split at hline
    · rename_i hname
      obtain rfl := Option.some.inj hline
      intro c hc
      rw [String.toList_ofList] at hc
      exact isNameChar_of_mem hname hc
    · cases hline
  · cases hline

namespace Section

def entry (s : Section) : String × List String :=
  (s.origin, definedLabels s.text)

/-- No label is defined at two places of a list of sections. -/
def Apart (sections : List Section) : Prop :=
  sections.Pairwise fun s t => (definedLabels s.text).Disjoint (definedLabels t.text)

/-- Sections up to the first one, `second`, that defines a label of an earlier one. Of the labels that it repeats
`name` is the least, and `owner` is the one earlier section that defines it. -/
structure FirstClash (before : List Section) (owner : Section) (between : List Section) (second : Section)
    (name : String) : Prop where
  apart : Apart (before ++ owner :: between)
  owned : name ∈ definedLabels owner.text
  repeated : name ∈ definedLabels second.text
  only : ∀ s ∈ before ++ between, name ∉ definedLabels s.text
  least : ∀ label ∈ definedLabels second.text, ∀ s ∈ before ++ owner :: between, label ∈ definedLabels s.text →
    Text.bytes name ≤ Text.bytes label

variable {earlier rest : List Section} {s : Section} {label origin : String}

private theorem owner?_entries (earlier : List Section) (label : String) :
    owner? (earlier.map entry) label =
      (earlier.find? fun s => (definedLabels s.text).contains label).map (·.origin) := by
  rw [owner?, List.find?_map, Option.map_map]
  rfl

private theorem owner?_eq_none_iff :
    owner? (earlier.map entry) label = none ↔ ∀ s ∈ earlier, label ∉ definedLabels s.text := by
  simp [owner?_entries]

private theorem owner?_isSome_iff :
    (owner? (earlier.map entry) label).isSome = true ↔ ∃ s ∈ earlier, label ∈ definedLabels s.text := by
  simp [owner?_entries]

private theorem owner?_eq_some (h : owner? (earlier.map entry) label = some origin) :
    ∃ before owner between, earlier = before ++ owner :: between ∧ owner.origin = origin ∧
      label ∈ definedLabels owner.text ∧ ∀ s ∈ before, label ∉ definedLabels s.text := by
  rw [owner?_entries, Option.map_eq_some_iff] at h
  obtain ⟨owner, hfind, horigin⟩ := h
  obtain ⟨howned, before, between, hsplit, hbefore⟩ := List.find?_eq_some_iff_append.mp hfind
  exact ⟨before, owner, between, hsplit, horigin, by simpa using howned, by simpa using hbefore⟩

private theorem apart_concat (hapart : Apart earlier)
    (hclear : ∀ label ∈ definedLabels s.text, ∀ t ∈ earlier, label ∉ definedLabels t.text) :
    Apart (earlier ++ [s]) := by
  refine List.pairwise_append.mpr ⟨hapart, List.pairwise_singleton _ _, ?_⟩
  intro t ht u hu label hlabel hlabel'
  rw [List.mem_singleton.mp hu] at hlabel'
  exact hclear label hlabel' t ht hlabel

private theorem FirstClash.not_apart {before between after : List Section} {owner second : Section} {name : String}
    (h : FirstClash before owner between second name) :
    ¬ Apart (before ++ owner :: (between ++ second :: after)) := by
  intro hapart
  obtain ⟨-, hrest, -⟩ := List.pairwise_append.mp hapart
  exact (List.pairwise_cons.mp hrest).1 second (by simp) h.owned h.repeated

private theorem checkFrom_cons (hapart : Apart earlier) (s : Section) (rest : List Section) :
    Apart (earlier ++ [s]) ∧
      checkFrom (earlier.map entry) ((s :: rest).map entry) =
        checkFrom ((earlier ++ [s]).map entry) (rest.map entry) ∨
    ∃ before owner between name, earlier = before ++ owner :: between ∧
      FirstClash before owner between s name ∧
      checkFrom (earlier.map entry) ((s :: rest).map entry) =
        .error (.duplicateLabel name owner.origin s.origin) := by
  rw [List.map_cons, entry, checkFrom]
  cases hleast : Text.least? ((definedLabels s.text).filter fun label =>
    (owner? (earlier.map entry) label).isSome) with
  | none =>
    left
    have hnone := List.filter_eq_nil_iff.mp (Text.least?_eq_none hleast)
    refine ⟨apart_concat hapart ?_, by rw [List.map_append]; rfl⟩
    intro label hlabel
    exact owner?_eq_none_iff.mp (by simpa using hnone label hlabel)
  | some name =>
    right
    obtain ⟨hrepeated, howner⟩ := List.mem_filter.mp (Text.least?_mem hleast)
    obtain ⟨origin, horigin⟩ := Option.isSome_iff_exists.mp howner
    obtain ⟨before, owner, between, rfl, rfl, howned, hbefore⟩ := owner?_eq_some horigin
    refine ⟨before, owner, between, name, rfl, ⟨hapart, howned, hrepeated, ?_, ?_⟩, ?_⟩
    · intro t ht
      rcases List.mem_append.mp ht with ht | ht
      · exact hbefore t ht
      · obtain ⟨-, hrest, -⟩ := List.pairwise_append.mp hapart
        exact (List.pairwise_cons.mp hrest).1 t ht howned
    · intro label hlabel t ht hlabel'
      rw [Text.bytes_le_iff (named_of_mem_definedLabels hrepeated) (named_of_mem_definedLabels hlabel)]
      exact Text.least?_le hleast (List.mem_filter.mpr ⟨hlabel, owner?_isSome_iff.mpr ⟨t, ht, hlabel'⟩⟩)
    · simp only [horigin, Option.getD_some]

private theorem checkFrom_outcome (hapart : Apart earlier) (rest : List Section) :
    Apart (earlier ++ rest) ∧ checkFrom (earlier.map entry) (rest.map entry) = .ok () ∨
    ∃ before owner between second after name, earlier ++ rest = before ++ owner :: (between ++ second :: after) ∧
      FirstClash before owner between second name ∧
      checkFrom (earlier.map entry) (rest.map entry) =
        .error (.duplicateLabel name owner.origin second.origin) := by
  induction rest generalizing earlier with
  | nil => exact .inl ⟨by rwa [List.append_nil], rfl⟩
  | cons s rest ih =>
    rcases checkFrom_cons hapart s rest with ⟨hnext, hcheck⟩ | ⟨before, owner, between, name, rfl, hclash, hcheck⟩
    · have houtcome := ih hnext
      rwa [List.append_assoc, List.singleton_append, ← hcheck] at houtcome
    · exact .inr ⟨before, owner, between, s, rest, name, by simp, hclash, hcheck⟩

/-- Labels that two sections define are found, and the first clash is reported: the section that repeats a label
first, the least label that it repeats, and the one earlier section that defines it. -/
theorem checkLabels_clash (sections : List Section) :
    (checkLabels sections = .ok () ↔ Apart sections) ∧
    ∀ e, checkLabels sections = .error e → ∃ before owner between second after name,
      sections = before ++ owner :: (between ++ second :: after) ∧
      FirstClash before owner between second name ∧ e = .duplicateLabel name owner.origin second.origin := by
  have houtcome := checkFrom_outcome List.Pairwise.nil sections
  rw [List.nil_append, List.map_nil] at houtcome
  rcases houtcome with ⟨hapart, hok⟩ | ⟨before, owner, between, second, after, name, hsplit, hclash, herror⟩
  · have hcheck : checkLabels sections = .ok () := hok
    refine ⟨iff_of_true hcheck hapart, ?_⟩
    intro e he
    rw [hcheck] at he
    cases he
  · have hcheck : checkLabels sections = .error (.duplicateLabel name owner.origin second.origin) := herror
    rw [hcheck]
    refine ⟨iff_of_false (by simp) (hsplit ▸ hclash.not_apart), ?_⟩
    intro e he
    exact ⟨before, owner, between, second, after, name, hsplit, hclash, (Except.error.inj he).symm⟩

end Section

end Link

end WordLang
