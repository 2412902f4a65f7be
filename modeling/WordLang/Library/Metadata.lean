import WordLang.Json.Value

/-!
# Library metadata

The metadata of a library is a JSON record that lists the functions it exports.
-/

namespace WordLang

structure ExportedFunction where
  name : String
  params : List String
deriving DecidableEq

namespace ExportedFunction

open Json Reader

private def ofList : Reader ExportedFunction := do
  match ← element? true text with
  | none => failUnplaced (.wrongLength 0 "struct ExportedFunction with 2 elements")
  | some name =>
    let params ← element? false (list text)
    return ⟨name, params.getD []⟩

private def ofObject : Reader ExportedFunction := do
  let (name, params) ← members
    (fun key (name, params) => do
      match key with
      | "name" => return (← field key name text, params)
      | "params" => return (name, ← field key params (list text))
      | _ =>
        unknownField
        return (name, params))
    (none, none)
  match name with
  | some name => return ⟨name, params.getD []⟩
  | none => failUnplaced (.missingField "name")

/-- An exported function has a name, and parameters that may be left out. -/
def reader : Reader ExportedFunction :=
  record "ExportedFunction" ofList ofObject

end ExportedFunction

/-- What a library says about itself. -/
structure Metadata where
  functions : List ExportedFunction

namespace Metadata

open Json Reader

private def ofList : Reader Metadata := do
  match ← element? true (list ExportedFunction.reader) with
  | none => failUnplaced (.wrongLength 0 "struct LibraryMetadata with 1 element")
  | some functions => return ⟨functions⟩

private def ofObject : Reader Metadata := do
  let functions ← members
    (fun key functions => do
      match key with
      | "functions" => field key functions (list ExportedFunction.reader)
      | _ =>
        unknownField
        return functions)
    none
  match functions with
  | some functions => return ⟨functions⟩
  | none => failUnplaced (.missingField "functions")

/-- Metadata has the field `functions`. -/
def reader : Reader Metadata :=
  record "LibraryMetadata" ofList ofObject

def parse (text : String) : Except Fault Metadata :=
  reader.run text

end Metadata

end WordLang
