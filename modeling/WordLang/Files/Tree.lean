import WordLang.Files

/-!
# A file tree in memory

A directory with everything below it. Paths start from it. They may also lead out of it: the directories
above it and the root are there, and nothing else is known of them.
-/

namespace WordLang

/-- Directories and files by their places; a directory has no content. The place of what lies below the
directory at the top is the list of names on the way to it. Each step above the top is a `..` in front,
and a place that starts from the root has `/` in front. -/
structure FileTree where
  nodes : List (List String × Option ByteArray) := []

namespace FileTree

def components (path : String) : List String :=
  (path.splitOn "/").filter (· != "")

def origin (path : String) : List String :=
  if path.startsWith "/" then ["/"] else []

/-- The place that one component leads to from a directory. -/
def step (place : List String) (part : String) : List String :=
  match part, place.getLast? with
  | ".", _ => place
  | "..", some "/" => place
  | "..", none | "..", some ".." => place ++ [part]
  | "..", some _ => place.dropLast
  | _, _ => place ++ [part]

/-- Whether a place lies below the top. -/
def isBelow (place : List String) : Bool :=
  match place with
  | [] | "/" :: _ | ".." :: _ => false
  | _ => true

/-- What stands at a place. -/
def node (tree : FileTree) (place : List String) : FileEntry :=
  if place == ["/"] || place.all (· == "..") then .directory
  else
    match tree.nodes.lookup place with
    | some (some content) => .file content
    | some none => .directory
    | none => .missing

/-- The place that components lead to from a place. All but the last must be directories, and so must the
place where the way starts. -/
def walk (tree : FileTree) (place : List String) : List String → Except FileError (List String)
  | [] => .ok place
  | part :: parts =>
    match tree.node place with
    | .directory => walk tree (step place part) parts
    | .file _ | .obstructed => .error .notDirectory
    | .missing => .error .notFound

def resolve (tree : FileTree) (path : String) : Except FileError (List String) :=
  if path.isEmpty then .error .notFound else tree.walk (origin path) (components path)

/-- What a path leads to. One that ends with a slash does not lead to a file. -/
def entry (tree : FileTree) : Files := fun path =>
  match tree.resolve path with
  | .error .notDirectory => .obstructed
  | .error _ => .missing
  | .ok place =>
    match tree.node place, path.endsWith "/" with
    | .file _, true => .obstructed
    | found, _ => found

def set (tree : FileTree) (place : List String) (content : Option ByteArray) : FileTree :=
  ⟨(place, content) :: tree.nodes.filter fun node => node.1 != place⟩

/-- Writes a file in a directory that exists. A path that ends with a slash names a directory, whether
there is one or not. -/
def write (tree : FileTree) (path : String) (content : ByteArray) : Except FileError FileTree := do
  let place ← tree.resolve path
  match tree.node place with
  | .directory => .error .isDirectory
  | _ => if path.endsWith "/" then .error .isDirectory else .ok (tree.set place (some content))

/-- Adds the directories that are missing on a way. A way may go back up through `..`, and the directories
that it leaves so are added too. -/
def makeDirectories (tree : FileTree) (place : List String) : List String → FileTree
  | [] => tree
  | part :: parts =>
    let next := step place part
    match tree.node next with
    | .missing => makeDirectories (tree.set next none) next parts
    | _ => makeDirectories tree next parts

/-- Adds a file, or a directory if there is no content, and the directories on the way to it. A file that
cannot be written is left out. -/
def insert (tree : FileTree) (path : String) (content : Option ByteArray) : FileTree :=
  match content with
  | none => tree.makeDirectories (origin path) (components path)
  | some bytes =>
    let tree := tree.makeDirectories (origin path) (components path).dropLast
    match tree.write path bytes with
    | .ok tree => tree
    | .error _ => tree

def remove (tree : FileTree) (path : String) : FileTree :=
  match tree.resolve path, tree.entry path with
  | .ok place, .file _ => ⟨tree.nodes.filter fun node => node.1 != place⟩
  | _, _ => tree

/-- The files of a tree below its top, with their paths. -/
def files (tree : FileTree) : List (String × ByteArray) :=
  (tree.nodes.filter (isBelow ·.1)).filterMap fun (place, content) =>
    content.map fun bytes => ("/".intercalate place, bytes)

end FileTree

end WordLang
