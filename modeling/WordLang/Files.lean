/-!
# Files

What the program sees of a file system: what each path leads to. Reading a text fails with one of a few
reasons.
-/

namespace WordLang

/-- What a path leads to. -/
inductive FileEntry where
  | missing
  /-- A file stands on the way where a directory should. -/
  | obstructed
  | directory
  | file (content : ByteArray)

inductive FileError where
  | notFound
  | notDirectory
  | isDirectory
  | invalidText
deriving DecidableEq

def FileError.message : FileError → String
  | notFound => "No such file or directory (os error 2)"
  | notDirectory => "Not a directory (os error 20)"
  | isDirectory => "Is a directory (os error 21)"
  | invalidText => "stream did not contain valid UTF-8"

/-- What each path leads to. -/
abbrev Files := String → FileEntry

namespace Files

def isFile (files : Files) (path : String) : Bool :=
  match files path with
  | .file _ => true
  | _ => false

def read (files : Files) (path : String) : Except FileError String :=
  match files path with
  | .missing => .error .notFound
  | .obstructed => .error .notDirectory
  | .directory => .error .isDirectory
  | .file content =>
    match String.fromUTF8? content with
    | some text => .ok text
    | none => .error .invalidText

end Files

end WordLang
