import WordLang.Proofs.ProperDefinitions

/-!
# Constants of the command line

Arguments are read one after the other, and a definition among them sets a constant. The last definition of a name
counts, and whether the other arguments can be read does not depend on it. A placeholder of that name then stands
for the number.
-/

namespace WordLang

namespace Options

open Literal Link

/-! ## Arguments -/

/-- How arguments are read: an option with its value, or an argument alone. -/
inductive Reads : Options → Option String → List String → Options → Option String → Prop where
  | done {options : Options} {input : Option String} : Reads options input [] options input
  | alone {options options' options'' : Options} {input input' input'' : Option String} {argument : String}
      {rest : List String} (halone : argument ∉ valued)
      (h : options.setArgument input argument = .ok (options', input'))
      (hrest : Reads options' input' rest options'' input'') :
      Reads options input (argument :: rest) options'' input''
  | value {options options' options'' : Options} {input input' : Option String} {option value : String}
      {rest : List String} (hvalued : option ∈ valued) (h : options.setValue option value = .ok options')
      (hrest : Reads options' input rest options'' input') :
      Reads options input (option :: value :: rest) options'' input'

def definitions : List String → List String
  | option :: value :: rest =>
    if option ∈ valued then (if option = "-D" then value :: definitions rest else definitions rest)
    else definitions (value :: rest)
  | _ => []

variable {d name : String} {n : Int} {options options' built : Options} {input input' : Option String}
  {before rest arguments : List String}

private theorem readFrom_alone {argument : String} (h : argument ∉ valued) :
    readFrom options input (argument :: rest) = (do
      let (options, input) ← options.setArgument input argument
      readFrom options input rest) := by
  have hcontains : valued.contains argument = false := by simpa using h
  cases rest with
  | nil =>
    rw [readFrom, hcontains]
    cases options.setArgument input argument <;> rfl
  | cons value rest =>
    rw [readFrom, hcontains]
    rfl

private theorem readFrom_value {option value : String} (h : option ∈ valued) :
    readFrom options input (option :: value :: rest) = (do
      readFrom (← options.setValue option value) input rest) := by
  have hcontains : valued.contains option = true := by simpa using h
  rw [readFrom, hcontains]
  rfl

/-- Arguments as they are read: an option at the end has no value. -/
@[elab_as_elim]
theorem arguments_induction {P : List String → Prop} (nil : P [])
    (alone : ∀ argument rest, argument ∉ valued → P rest → P (argument :: rest))
    (last : ∀ option ∈ valued, P [option])
    (value : ∀ option value rest, option ∈ valued → P rest → P (option :: value :: rest))
    (arguments : List String) : P arguments := by
  induction hn : arguments.length using Nat.strongRecOn generalizing arguments with
  | ind n ih =>
    subst hn
    cases arguments with
    | nil => exact nil
    | cons first rest =>
      by_cases h : first ∈ valued
      · cases rest with
        | nil => exact last first h
        | cons second rest =>
          have hrest : rest.length < (first :: second :: rest).length := by
            rw [List.length_cons, List.length_cons]
            omega
          exact value first second rest h (ih _ hrest rest rfl)
      · exact alone first rest h (ih _ (by simp) rest rfl)

private theorem readFrom_eq_ok :
    readFrom options input arguments = .ok (options', input') ↔ Reads options input arguments options' input' := by
  constructor
  · induction arguments using arguments_induction generalizing options input with
    | nil =>
      intro h
      obtain ⟨rfl, rfl⟩ := Prod.mk.inj (Except.ok.inj h)
      exact .done
    | alone argument rest halone ih =>
      intro h
      rw [readFrom_alone halone, bind_eq_ok] at h
      obtain ⟨⟨next, input⟩, hset, hrest⟩ := h
      exact .alone halone hset (ih hrest)
    | last option hoption =>
      intro h
      have hcontains : valued.contains option = true := by simpa using hoption
      rw [readFrom, hcontains] at h
      cases h
    | value option value rest hoption ih =>
      intro h
      rw [readFrom_value hoption, bind_eq_ok] at h
      obtain ⟨next, hset, hrest⟩ := h
      exact .value hoption hset (ih hrest)
  · intro h
    induction h with
    | done => rfl
    | alone halone hset _ ih =>
      rw [readFrom_alone halone, hset]
      exact ih
    | value hvalued hset _ ih =>
      rw [readFrom_value hvalued, hset]
      exact ih

private theorem Reads.readFrom_append (h : Reads options input before options' input') (rest : List String) :
    readFrom options input (before ++ rest) = readFrom options' input' rest := by
  induction h with
  | done => rfl
  | alone halone hset _ ih =>
    rw [List.cons_append, readFrom_alone halone, hset]
    exact ih
  | value hvalued hset _ ih =>
    rw [List.cons_append, List.cons_append, readFrom_value hvalued, hset]
    exact ih

private theorem setArgument_constants (options : Options) (input : Option String) (argument : String)
    (constants : Constants) : { options with constants }.setArgument input argument =
      (options.setArgument input argument).map fun (next, input) => ({ next with constants }, input) := by
  unfold setArgument
  split
  · rfl
  split
  · rfl
  split
  · rfl
  split
  · rfl
  · rfl

private theorem setValue_other {option : String} (hoption : option ∈ valued) (hne : option ≠ "-D") (value : String) :
    ∃ set : Options → Options, (∀ options, setValue options option value = .ok (set options)) ∧
      ∀ options constants, set { options with constants } = { set options with constants } := by
  simp only [valued, List.mem_cons, List.not_mem_nil, or_false] at hoption
  rcases hoption with rfl | rfl | rfl | rfl | rfl
  · exact ⟨fun o => { o with output := some value }, fun _ => rfl, fun _ _ => rfl⟩
  · exact ⟨fun o => { o with units := o.units ++ [value] }, fun _ => rfl, fun _ _ => rfl⟩
  · exact ⟨fun o => { o with libraryDirs := o.libraryDirs ++ [value] }, fun _ => rfl, fun _ _ => rfl⟩
  · exact ⟨fun o => { o with libraries := o.libraries ++ [value] }, fun _ => rfl, fun _ _ => rfl⟩
  · exact absurd rfl hne

private theorem setValue_definition (options : Options) (h : Defines d name n) :
    options.setValue "-D" d = .ok { options with constants := options.constants.insert name n } := by
  simp only [setValue, definition?_eq_some.mpr h]
  rfl

private theorem setValue_bad (options : Options) (h : ¬ ∃ name n, Defines d name n) :
    options.setValue "-D" d = .error (.badDefinition d) := by
  have hnone : definition? d = none := by
    rw [Option.eq_none_iff_forall_ne_some]
    rintro ⟨name, n⟩ hsome
    exact h ⟨name, n, definition?_eq_some.mp hsome⟩
  simp only [setValue, hnone]
  rfl

private theorem setValue_definition_inv (h : options.setValue "-D" d = .ok options') :
    ∃ name n, Defines d name n ∧ options' = { options with constants := options.constants.insert name n } := by
  by_cases hdefines : ∃ name n, Defines d name n
  · obtain ⟨name, n, hd⟩ := hdefines
    rw [setValue_definition options hd] at h
    exact ⟨name, n, hd, (Except.ok.inj h).symm⟩
  · rw [setValue_bad options hdefines] at h
    cases h

/-- What was defined before the arguments plays no part in whether they can be read. -/
theorem Reads.exists_constants (h : Reads options input arguments options' input') (constants : Constants) :
    ∃ constants',
      Reads { options with constants } input arguments { options' with constants := constants' } input' := by
  induction h generalizing constants with
  | done => exact ⟨constants, .done⟩
  | @alone o o' o'' i i' i'' argument rest halone hset _ ih =>
    obtain ⟨constants', hrest⟩ := ih constants
    refine ⟨constants', .alone halone ?_ hrest⟩
    rw [setArgument_constants, hset]
    rfl
  | @value o o' o'' i i' option value rest hvalued hset _ ih =>
    by_cases hdefinition : option = "-D"
    · subst hdefinition
      obtain ⟨name, n, hdefines, rfl⟩ := setValue_definition_inv hset
      obtain ⟨constants', hrest⟩ := ih (constants.insert name n)
      exact ⟨constants', .value hvalued (setValue_definition _ hdefines) hrest⟩
    · obtain ⟨set, hall, hconstants⟩ := setValue_other hvalued hdefinition value
      obtain rfl := Except.ok.inj ((hall o).symm.trans hset)
      obtain ⟨constants', hrest⟩ := ih constants
      refine ⟨constants', .value hvalued (hall _) ?_⟩
      rwa [hconstants]

/-! ## Constants -/

private theorem get?_insert_self (constants : Constants) (name : String) (n : Int) :
    (constants.insert name n).get? name = some n := by
  simp [Constants.insert, Constants.get?]

private theorem get?_insert_ne (constants : Constants) {name other : String} (n : Int) (h : other ≠ name) :
    (constants.insert name n).get? other = constants.get? other := by
  have hkey : (other == name) = false := by simpa using h
  simp only [Constants.insert, Constants.get?, List.lookup_cons, hkey]
  exact lookup_filter_ne _ h

private theorem definitions_alone {argument : String} (h : argument ∉ valued) (rest : List String) :
    definitions (argument :: rest) = definitions rest := by
  cases rest with
  | nil => rfl
  | cons value rest => rw [definitions, if_neg h]

private theorem Reads.get?_eq (h : Reads options input arguments options' input')
    (hname : ∀ d ∈ definitions arguments, ∀ n, ¬ Defines d name n) :
    options'.constants.get? name = options.constants.get? name := by
  induction h with
  | done => rfl
  | @alone o o' o'' i i' i'' argument rest halone hset _ ih =>
    rw [definitions_alone halone] at hname
    have hsame := setArgument_constants o i argument o.constants
    rw [hset] at hsame
    have hconstants : o'.constants = o.constants := by
      rw [(Prod.mk.inj (Except.ok.inj hsame)).1]
    rw [ih hname, hconstants]
  | @value o o' o'' i i' option value rest hvalued hset _ ih =>
    rw [definitions, if_pos hvalued] at hname
    by_cases hdefinition : option = "-D"
    · subst hdefinition
      rw [if_pos rfl, List.forall_mem_cons] at hname
      obtain ⟨other, n, hdefines, rfl⟩ := setValue_definition_inv hset
      have hne : name ≠ other := by
        rintro rfl
        exact hname.1 n hdefines
      rw [ih hname.2, get?_insert_ne _ n hne]
    · rw [if_neg hdefinition] at hname
      obtain ⟨set, hall, hconstants⟩ := setValue_other hvalued hdefinition value
      have hsame : o'.constants = o.constants := by
        rw [← Except.ok.inj ((hall o).symm.trans hset), hconstants o o.constants]
      rw [ih hname, hsame]

private theorem ofArguments_eq_ok : ofArguments arguments = .ok built ↔
    ∃ options path, Reads { input := "" } none arguments options (some path) ∧ built = { options with
      input := path, libraryDirs := if options.libraryDirs.isEmpty then ["lib"] else options.libraryDirs } := by
  simp only [← readFrom_eq_ok]
  unfold ofArguments
  cases readFrom { input := "" } none arguments with
  | error e => simp [bind, Except.bind]
  | ok result =>
    obtain ⟨options, input⟩ := result
    cases input with
    | none => simp [bind, Except.bind]
    | some path =>
      simp only [bind, Except.bind, pure, Except.pure, Except.ok.injEq, Prod.mk.injEq, Option.some.injEq]
      constructor
      · rintro rfl
        exact ⟨options, path, ⟨rfl, rfl⟩, rfl⟩
      · rintro ⟨_, _, ⟨rfl, rfl⟩, rfl⟩
        rfl

private theorem ofArguments_error {e : OptionError} (h : readFrom { input := "" } none arguments = .error e) :
    ofArguments arguments = .error e := by
  rw [ofArguments, h]
  rfl

def bracketed (name : String) : String :=
  "[" ++ name ++ "]"

section

variable {constants : Constants}

private theorem substitute_capitalName (hname : CapitalName name.toList) (hvalue : constants.get? name = some n) :
    substitute constants (bracketed name) = .ok (toString n) := by
  have hplaceholder : Substitutes constants ('[' :: (name.toList ++ [']'])) ((toString n).toList ++ []) :=
    .value (isPlaceholderName_iff.mpr hname) (by rwa [String.ofList_toList]) .nil
  rw [substitute_eq_ok_iff]
  simpa [bracketed, String.toList_append] using hplaceholder

private theorem substitute_not_capitalName (hchars : ∀ c ∈ name.toList, c.isUpper ∨ c.isDigit ∨ c = '_')
    (hname : ¬ CapitalName name.toList) :
    substitute constants (bracketed name) = .ok (bracketed name) := by
  have hopen : '[' ∉ name.toList := fun hmem => absurd (hchars _ hmem) (by decide)
  have hclose : ']' ∉ name.toList := fun hmem => absurd (hchars _ hmem) (by decide)
  have hnone : placeholder? (name.toList ++ [']']) = none := by
    rw [Option.eq_none_iff_forall_ne_some]
    intro found hfound
    obtain ⟨hcapital, after, hcut⟩ := placeholder?_eq_some.mp hfound
    obtain ⟨rfl, -, -⟩ := (List.append_cons_inj_of_notMem hclose List.not_mem_nil).mp hcut
    exact hname (isPlaceholderName_iff.mp hcapital)
  have hkept : Substitutes constants ('[' :: (name.toList ++ [']'])) ('[' :: (name.toList ++ [']'])) :=
    .char (fun _ => hnone) (.self (by simp [hopen]))
  rw [substitute_eq_ok_iff]
  simpa [bracketed, String.toList_append] using hkept

end

section

variable (hbefore : Reads { input := "" } none before options input)
include hbefore

private theorem exists_ofArguments_append : (∃ built, ofArguments (before ++ arguments) = .ok built) ↔
    ∃ next path, Reads options input arguments next (some path) := by
  simp only [ofArguments_eq_ok, ← readFrom_eq_ok, hbefore.readFrom_append]
  constructor
  · rintro ⟨built, next, path, h, -⟩
    exact ⟨next, path, h⟩
  · rintro ⟨next, path, h⟩
    exact ⟨_, next, path, h, rfl⟩

/-- A definition can be read exactly if it is one, and the other arguments can be read. -/
theorem ofArguments_accepts : (∃ built, ofArguments (before ++ "-D" :: d :: rest) = .ok built) ↔
    (∃ name n, Defines d name n) ∧ ∃ built, ofArguments (before ++ rest) = .ok built := by
  rw [exists_ofArguments_append hbefore, exists_ofArguments_append hbefore]
  constructor
  · rintro ⟨next, path, h⟩
    cases h with
    | alone halone => exact absurd (by decide) halone
    | value _ hset hrest =>
      obtain ⟨name, n, hdefines, rfl⟩ := setValue_definition_inv hset
      obtain ⟨constants, hother⟩ := hrest.exists_constants options.constants
      exact ⟨⟨name, n, hdefines⟩, _, path, hother⟩
  · rintro ⟨⟨name, n, hdefines⟩, next, path, hrest⟩
    obtain ⟨constants, hother⟩ := hrest.exists_constants (options.constants.insert name n)
    exact ⟨_, path, .value (by decide) (setValue_definition options hdefines) hother⟩

private theorem ofArguments_bad (h : ¬ ∃ name n, Defines d name n) :
    ofArguments (before ++ "-D" :: d :: rest) = .error (.badDefinition d) := by
  apply ofArguments_error
  rw [hbefore.readFrom_append, readFrom_value (by decide), setValue_bad options h]
  rfl

/-- The last definition of a name gives its value. -/
theorem ofArguments_get? (hdefines : Defines d name n)
    (hbuilt : ofArguments (before ++ "-D" :: d :: rest) = .ok built)
    (hlast : ∀ later ∈ definitions rest, ∀ m, ¬ Defines later name m) : built.constants.get? name = some n := by
  obtain ⟨next, path, hreads, rfl⟩ := ofArguments_eq_ok.mp hbuilt
  rw [← readFrom_eq_ok, hbefore.readFrom_append, readFrom_value (by decide),
    setValue_definition options hdefines] at hreads
  have hrest := readFrom_eq_ok.mp hreads
  exact (hrest.get?_eq hlast).trans (get?_insert_self _ name n)

end

/-- Behind arguments that can be read, `-D d` is taken exactly if `d` is a definition and the other arguments can be
read; a text that is no definition is refused. Of the definitions, those without a digit in front, a plus sign or a
second minus sign are the proper ones: a placeholder, and a numeral after at most one minus sign. The last definition
of a name gives the number that its placeholder becomes. If the name starts with a digit there is no such
placeholder, and brackets around the name stay as they are. -/
theorem ofArguments_definition (hbefore : readFrom { input := "" } none before = .ok (options, input)) :
    ((∃ built, ofArguments (before ++ "-D" :: d :: rest) = .ok built) ↔
      (∃ name n, Defines d name n) ∧ ∃ built, ofArguments (before ++ rest) = .ok built) ∧
    ((¬ ∃ name n, Defines d name n) → ofArguments (before ++ "-D" :: d :: rest) = .error (.badDefinition d)) ∧
    ∀ name n, (Proper d name n ↔ Defines d name n ∧ ¬ Irregular d) ∧ (Defines d name n →
      ∀ built, ofArguments (before ++ "-D" :: d :: rest) = .ok built →
      (∀ later ∈ definitions rest, ∀ m, ¬ Defines later name m) →
      (CapitalName name.toList → substitute built.constants (bracketed name) = .ok (toString n)) ∧
      (¬ CapitalName name.toList → substitute built.constants (bracketed name) = .ok (bracketed name))) := by
  have hreads := readFrom_eq_ok.mp hbefore
  refine ⟨ofArguments_accepts hreads, ofArguments_bad hreads, fun name n => ⟨proper_iff, ?_⟩⟩
  intro hdefines built hbuilt hlast
  have hvalue := ofArguments_get? hreads hdefines hbuilt hlast
  obtain ⟨_, _, _, ⟨-, hchars⟩, -⟩ := hdefines
  exact ⟨fun hname => substitute_capitalName hname hvalue, substitute_not_capitalName hchars⟩

private theorem reads_input : Reads { input := "" } none ["a.toy"] { input := "" } (some "a.toy") := by
  refine .alone (by decide) ?_ .done
  simp [setArgument]

theorem ofArguments_definition_size :
    readFrom { input := "" } none ["a.toy"] = .ok ({ input := "" }, some "a.toy") ∧
    Proper "SIZE= -0x10 " "SIZE" (-16) ∧
    ∃ built, ofArguments ["a.toy", "-D", "SIZE= -0x10 ", "-D", "OTHER=7"] = .ok built ∧
      substitute built.constants "[SIZE]" = .ok "-16" := by
  have hbefore := readFrom_eq_ok.mpr reads_input
  have hsize : Defines "SIZE= -0x10 " "SIZE" (-16) := definition?_eq_some.mp (by decide)
  have hother : definition? "OTHER=7" = some ("OTHER", 7) := by decide
  obtain ⟨haccepts, -, hvalues⟩ :=
    @ofArguments_definition "SIZE= -0x10 " _ _ ["a.toy"] ["-D", "OTHER=7"] hbefore
  have hlater : ∃ built, ofArguments (["a.toy"] ++ ["-D", "OTHER=7"]) = .ok built :=
    (exists_ofArguments_append reads_input).mpr
      ⟨_, _, .value (by decide) (setValue_definition _ (definition?_eq_some.mp hother)) .done⟩
  obtain ⟨built, hbuilt⟩ := haccepts.mpr ⟨⟨_, _, hsize⟩, hlater⟩
  have hlast : ∀ later ∈ definitions ["-D", "OTHER=7"], ∀ m, ¬ Defines later "SIZE" m := by
    intro later hlater m hdefines
    obtain rfl : later = "OTHER=7" := by simpa [definitions, valued] using hlater
    rw [← definition?_eq_some, hother] at hdefines
    simp at hdefines
  have hregular : ¬ Irregular "SIZE= -0x10 " := by
    rintro (⟨c, hc, hdigit⟩ | hsign | hsign)
    · obtain rfl : 'S' = c := Option.some.inj hc
      exact absurd hdigit (by decide)
    · exact absurd hsign (by decide)
    · exact absurd hsign (by decide)
  have hname : CapitalName "SIZE".toList := isPlaceholderName_iff.mp (by decide)
  exact ⟨hbefore, (hvalues _ _).1.mpr ⟨hsize, hregular⟩, built, hbuilt,
    ((hvalues _ _).2 hsize built hbuilt hlast).1 hname⟩

theorem improper_definition :
    (∃ built, ofArguments ["a.toy", "-D", "9A=--5"] = .ok built ∧ built.constants.get? "9A" = some 5 ∧
      substitute built.constants "[9A]" = .ok "[9A]") ∧
    ¬ ∃ name n, Proper "9A=--5" name n := by
  have hdefines : Defines "9A=--5" "9A" 5 := definition?_eq_some.mp (by decide)
  have hirregular : Irregular "9A=--5" := .inl ⟨'9', by decide, by decide⟩
  constructor
  · obtain ⟨built, hbuilt⟩ := (ofArguments_accepts reads_input).mpr
      ⟨⟨_, _, hdefines⟩, (exists_ofArguments_append reads_input).mpr ⟨_, _, .done⟩⟩
    refine ⟨built, hbuilt, ofArguments_get? reads_input hdefines hbuilt (by simp [definitions]), ?_⟩
    obtain ⟨_, _, _, ⟨-, hchars⟩, -⟩ := hdefines
    exact substitute_not_capitalName hchars (mt isPlaceholderName_iff.mpr (by decide))
  · rintro ⟨name, n, hproper⟩
    exact (proper_iff.mp hproper).2 hirregular

end Options

end WordLang
