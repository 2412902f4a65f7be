import WordLang.Emit.Unit
import WordLang.Grammar.Parse
import WordLang.Link.Image
import WordLang.Options
import WordLang.Text.Position

/-!
# Builds

From a source text to assembly, and on to a linked image.
-/

namespace WordLang

inductive BuildError where
  | parse (cause : SyntaxError)
  | compile (cause : CompileError)
  | link (cause : LinkError)
  | options (cause : OptionError)
  | file (path : String) (cause : FileError)

namespace BuildError

def message : BuildError → String
  | parse cause => cause.message
  | compile cause => cause.message
  | link cause => cause.message
  | options cause => cause.message
  | file path cause => path ++ ": " ++ cause.message

/-- The byte offset in the source at which the fault lies, where that is known. -/
def offset? : BuildError → Option Nat
  | parse cause => cause.offset?
  | compile cause => cause.offset?
  | link _ | options _ | file _ _ => none

/-- The message, after the line and column of the fault where these are known. -/
def located (e : BuildError) (source : String) : String :=
  match e.offset?.bind (Text.Position.ofOffset source) with
  | some pos => toString pos.line ++ ":" ++ toString pos.column ++ ": " ++ e.message
  | none => e.message

end BuildError

def compile (source : String) (policy : FreePolicy) : Except BuildError Assembly :=
  match CompilationUnit.parse source with
  | .error e => .error (.parse e)
  | .ok unit =>
    match unit.compile policy with
    | .error e => .error (.compile e)
    | .ok assembly => .ok assembly

def compileAndLink (options : Options) (files : Files) (source : String) (units : List String) :
    Except BuildError String := do
  let assembly ← compile source options.policy
  match Link.link files options.libraryDirs options.constants assembly.text units options.libraries with
  | .error e => .error (.link e)
  | .ok image => .ok image.text

/-- A failed build, with the source text if it could be read. -/
structure BuildFailure where
  error : BuildError
  source : Option String

def readFile (files : Files) (path : String) : Except BuildError String :=
  match files.read path with
  | .error e => .error (.file path e)
  | .ok text => .ok text

/-- The output text that the options ask for. -/
def build (options : Options) (files : Files) : Except BuildFailure String :=
  match readFile files options.input with
  | .error e => .error ⟨e, none⟩
  | .ok source =>
    let result := match options.mode with
      | .assembly => (compile source options.policy).map Assembly.text
      | .linked => do
        let units ← options.units.mapM (readFile files)
        compileAndLink options files source units
    result.mapError fun e => ⟨e, some source⟩

end WordLang
