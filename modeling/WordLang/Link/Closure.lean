import WordLang.Library
import WordLang.Link.Builtin
import WordLang.Link.Marker

/-!
# The closure of references

Starting from the names that some texts refer to, every module that defines such a name is pulled in, and
the names that it refers to in turn. Builtin modules come first, then the units that are linked anyway,
then libraries in their search order. A module follows those that it refers to, unless they refer back.
-/

namespace WordLang.Link

/-- A module that linking pulls in: that of a builtin function, or a library. -/
inductive Module where
  | builtin (name : String)
  | library (name : String)
deriving DecidableEq

def Module.describe : Module → String
  | builtin name => "runtime/" ++ name
  | library name => name

/-- Where a name is defined: in a unit that is linked anyway, or in a module with some body. -/
inductive Provider where
  | unit
  | module (m : Module) (body : String)

/-- What names are resolved against. -/
structure Sources where
  files : Files
  /-- The directories of libraries. -/
  dirs : List String
  /-- The libraries, in search order. -/
  search : List String
  /-- The labels that the units define. -/
  unitLabels : List String

namespace Sources

/-- The first library that exports a name. Only the standard library may be absent. -/
def libraryProvider (sources : Sources) (name : String) : List String → Except LinkError (Option Provider)
  | [] => .ok none
  | library :: rest =>
    match Library.load sources.files sources.dirs library with
    | .error e => .error e
    | .ok none =>
      if library = Library.standard then libraryProvider sources name rest
      else .error (.missingLibrary library)
    | .ok (some found) =>
      if found.provides name then .ok (some (.module (.library library) found.body))
      else libraryProvider sources name rest

def provider (sources : Sources) (name : String) : Except LinkError (Option Provider) :=
  match Builtin.find? name with
  | some body => .ok (some (.module (.builtin name) body))
  | none =>
    if sources.unitLabels.contains name then .ok (some .unit)
    else sources.libraryProvider name sources.search

end Sources

/-- The state of pulling in modules. -/
structure Closure where
  /-- The names that have been resolved. -/
  resolved : List String := []
  /-- The modules that have been pulled in, or are being so. -/
  visited : List Module := []
  /-- The modules that are complete, in order, with their bodies. -/
  modules : List (Module × String) := []

namespace Closure

/-- Resolves a name that `origin` refers to. At most `depth` modules can be pulled in inside each other;
since each is pulled in once, the number of all modules is enough. -/
def resolve (sources : Sources) :
    Nat → String → Closure → String → Except LinkError Closure
  | depth, origin, closure, name =>
    if closure.resolved.contains name then .ok closure
    else
      let closure := { closure with resolved := name :: closure.resolved }
      match sources.provider name with
      | .error e => .error e
      | .ok none => .error (.unresolvedSymbol name origin)
      | .ok (some .unit) => .ok closure
      | .ok (some (.module m body)) =>
        if closure.visited.contains m then .ok closure
        else
          match depth with
          | 0 => .error (.unresolvedSymbol name origin)
          | depth + 1 => do
            let closure := { closure with visited := m :: closure.visited }
            let closure ← (references body).foldlM (resolve sources depth m.describe) closure
            return { closure with modules := closure.modules ++ [(m, body)] }

def bound (sources : Sources) : Nat :=
  Builtin.modules.length + sources.search.length

def resolveText (sources : Sources) (closure : Closure) (origin text : String) : Except LinkError Closure :=
  (references text).foldlM (resolve sources (bound sources) origin) closure

end Closure

end WordLang.Link
