import WordLang.CommandLine

/-!
# The program

Looks at the files that a build may read, runs the build, and writes its output.
-/

namespace WordLang.CommandLine

/-- The reason behind a failed operation on a file. The code of a reason may come negated. -/
private def fileError : IO.Error → FileError
  | .noFileOrDirectory .. => .notFound
  | .inappropriateType _ code _ => if code = 21 || code = -21 then .isDirectory else .notDirectory
  | _ => .notFound

/-- What a path leads to at present. -/
private def look (path : String) : IO FileEntry := do
  try
    return .file (← IO.FS.readBinFile path)
  catch e =>
    match fileError e with
    | .notDirectory => return .obstructed
    | .isDirectory => return .directory
    | _ => return .missing

private def snapshot (paths : List String) : IO Files := do
  let entries ← paths.mapM fun path => return (path, ← look path)
  return fun path => (entries.lookup path).getD .missing

private def fail (report : String) : IO UInt32 := do
  IO.eprintln report
  return 1

def main (arguments : List String) : IO UInt32 := do
  let files ← match Options.ofArguments arguments with
    | .ok options => snapshot (inputs options)
    | .error _ => pure fun _ => .missing
  match run arguments files with
  | .failed report => fail report
  | .write path text =>
    try
      IO.FS.writeFile path text
      return 0
    catch e => fail (writeReport path (fileError e))

end WordLang.CommandLine

def main (arguments : List String) : IO UInt32 :=
  WordLang.CommandLine.main arguments
