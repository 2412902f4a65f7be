import WordLang.Link.Closure
import WordLang.Link.LabelLine
import WordLang.Link.Placeholder

/-!
# Linked images

An image is one text: the stub that starts the program, the modules that were pulled in, the units, and
the main unit. No label is defined in two of these sections, placeholders are replaced by constants, and
markers by plain names.
-/

namespace WordLang.Link

/-- A part of an image, and how messages call it. -/
structure Section where
  origin : String
  text : String

namespace Section

/-- The origin of the first section that defines a label. -/
def owner? (defined : List (String × List String)) (label : String) : Option String :=
  (defined.find? fun entry => entry.2.contains label).map (·.1)

/-- Checks sections, given as their origins and the labels they define, against those before them. -/
def checkFrom (earlier : List (String × List String)) :
    List (String × List String) → Except LinkError Unit
  | [] => .ok ()
  | (origin, labels) :: rest =>
    match Text.least? (labels.filter fun label => (owner? earlier label).isSome) with
    | some label => .error (.duplicateLabel label ((owner? earlier label).getD "") origin)
    | none => checkFrom (earlier ++ [(origin, labels)]) rest

def checkLabels (sections : List Section) : Except LinkError Unit :=
  checkFrom [] (sections.map fun s => (s.origin, definedLabels s.text))

/-- Appends a section on a line of its own. -/
def append (text part : List Char) : List Char :=
  match text.getLast? with
  | none | some '\n' => text ++ part
  | some _ => text ++ '\n' :: part

def joined (sections : List Section) : String :=
  String.ofList (sections.foldl (fun text s => append text s.text.toList) [])

end Section

/-- A linked program, and the modules that were pulled into it, in order. -/
structure Image where
  text : String
  modules : List String

def unitSections (units : List String) : List Section :=
  units.zipIdx.map fun (text, i) => ⟨"unit " ++ toString i, text⟩

/-- Pulls in what sections refer to, in their order. -/
def closureOf (sources : Sources) (sections : List Section) : Except LinkError Closure :=
  sections.foldlM (fun closure s => Closure.resolveText sources closure s.origin s.text) {}

/-- Links a main unit with other units. -/
def link (files : Files) (dirs : List String) (constants : Constants) (main : String)
    (units requested : List String) : Except LinkError Image := do
  let sources : Sources :=
    { files, dirs, search := Library.searchOrder requested, unitLabels := units.flatMap definedLabels }
  let closure ← closureOf sources (⟨"main unit", main⟩ :: unitSections units)
  let sections := ⟨"init stub", Builtin.entryStub⟩ ::
    closure.modules.map (fun (m, body) => ⟨m.describe, body⟩) ++ unitSections units ++
      [⟨"main unit", main⟩]
  Section.checkLabels sections
  let text ← substitute constants (Section.joined sections)
  return ⟨stripMarkers text, closure.modules.map fun (m, _) => m.describe⟩

end WordLang.Link
