import WordLang.Files
import WordLang.Files.Path
import WordLang.Library.Metadata
import WordLang.Link.LinkError

/-!
# Libraries

A library is a body of assembly and the functions that it exports. It lies in a directory as two files of
one name: the metadata, which ends in `.json`, and the body, which ends in `.asm`.
-/

namespace WordLang

structure Library where
  name : String
  body : String
  functions : List ExportedFunction

namespace Library

/-- The library that is searched even when nobody asks for it. -/
def standard : String :=
  "stdlib"

/-- The libraries to search, in order and each one once. The standard library comes first unless the
request places it. -/
def searchOrder (requested : List String) : List String :=
  (if requested.contains standard then requested else standard :: requested).eraseDups

def parse (name metadata body : String) : Except LinkError Library :=
  match Metadata.parse metadata with
  | .ok metadata => .ok ⟨name, body, metadata.functions⟩
  | .error fault => .error (.malformedMetadata name fault.message)

def provides (library : Library) (name : String) : Bool :=
  library.functions.any fun function => function.name == name

/-- Reads a library from the first directory that has metadata for it; none if no directory has. -/
def load (files : Files) (dirs : List String) (name : String) : Except LinkError (Option Library) :=
  match dirs.find? fun dir => files.isFile (Path.join dir (name ++ ".json")) with
  | none => .ok none
  | some dir =>
    let metadataPath := Path.join dir (name ++ ".json")
    let bodyPath := Path.join dir (name ++ ".asm")
    match files.read metadataPath, files.read bodyPath with
    | .error e, _ => .error (.malformedMetadata name (metadataPath ++ ": " ++ e.message))
    | .ok _, .error _ => .error (.unreadableBody name bodyPath)
    | .ok metadata, .ok body => (parse name metadata body).map some

end Library

/-- Reads libraries from directories and keeps each one after its first reading. -/
structure Loader where
  dirs : List String
  kept : List Library := []

/-- The library of some name, as it was when it was first read. -/
def Loader.load (loader : Loader) (files : Files) (name : String) :
    Except LinkError (Option Library × Loader) :=
  match loader.kept.find? fun library => library.name == name with
  | some library => .ok (some library, loader)
  | none =>
    match Library.load files loader.dirs name with
    | .ok (some library) => .ok (some library, { loader with kept := library :: loader.kept })
    | .ok none => .ok (none, loader)
    | .error e => .error e

end WordLang
