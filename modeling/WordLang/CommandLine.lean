import WordLang.Build

/-!
# The command line

What running the program does: it writes one output file, or it reports why it cannot.
-/

namespace WordLang.CommandLine

/-- What a run comes to. -/
inductive Outcome where
  | failed (report : String)
  | write (path text : String)

def report (options : Options) (failure : BuildFailure) : String :=
  match failure.source with
  | some source => options.input ++ ":" ++ failure.error.located source
  | none => "error: " ++ failure.error.message

def writeReport (path : String) (e : FileError) : String :=
  "error: " ++ path ++ ": " ++ e.message

def buildOutcome (options : Options) (files : Files) : Outcome :=
  match build options files with
  | .error failure => .failed (report options failure)
  | .ok text => .write options.outputPath text

def run (arguments : List String) (files : Files) : Outcome :=
  match Options.ofArguments arguments with
  | .error e => .failed ("error: " ++ e.message)
  | .ok options => buildOutcome options files

/-- The paths that a build may read. -/
def inputs (options : Options) : List String :=
  let libraries := (Library.searchOrder options.libraries).flatMap fun name =>
    options.libraryDirs.flatMap fun dir =>
      [Path.join dir (name ++ ".json"), Path.join dir (name ++ ".asm")]
  options.input :: options.units ++ libraries

end WordLang.CommandLine
