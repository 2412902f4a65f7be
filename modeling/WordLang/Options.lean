import WordLang.Files.Path
import WordLang.Link.Placeholder
import WordLang.Register.Pool
import WordLang.Text.Blank
import WordLang.Word.Literal

/-!
# Build options

What a build is asked to do, and how the arguments of the command line ask for it.
-/

namespace WordLang

/-- Whether to link, or to stop at the assembly of the input. -/
inductive OutputMode where
  | linked
  | assembly
deriving DecidableEq

structure Options where
  input : String
  output : Option String := none
  units : List String := []
  libraryDirs : List String := []
  libraries : List String := []
  constants : Link.Constants := .standard
  policy : FreePolicy := .strict
  mode : OutputMode := .linked

/-- Why arguments ask for nothing that can be built. -/
inductive OptionError where
  | missingInput
  | missingValue (option : String)
  | unknownOption (option : String)
  | extraInput (path : String)
  | badDefinition (definition : String)
deriving DecidableEq

def Options.usage : String :=
  "usage: toyc <input> [-o out] [-u unit.asm]... [-L dir]... [-l lib]... [-D NAME=VALUE]... [-S] " ++
    "[--lenient-free]"

def OptionError.message : OptionError → String
  | missingInput => "missing input file\n" ++ Options.usage
  | missingValue option => s!"option `{option}` expects a value"
  | unknownOption option => s!"unknown option `{option}`\n" ++ Options.usage
  | extraInput path => s!"more than one input file: `{path}`"
  | badDefinition definition => s!"bad constant definition `{definition}`, expected NAME=VALUE"

namespace Options

/-- The value of a constant: a literal, after at most one minus sign of its own. -/
def constantValue? (value : List Char) : Option Int :=
  match Text.trim value with
  | '-' :: digits => (Literal.read digits).toOption.map fun word => -word.toInt
  | digits => (Literal.read digits).toOption.map fun word => word.toInt

/-- The name and value in a definition `NAME=VALUE`. -/
def definition? (definition : String) : Option (String × Int) :=
  let cs := definition.toList
  let name := cs.takeWhile (· != '=')
  match cs.drop name.length with
  | [] => none
  | _ :: value =>
    if name ≠ [] ∧ name.all Link.isPlaceholderChar then
      (constantValue? value).map fun n => (String.ofList name, n)
    else none

def valued : List String :=
  ["-o", "-u", "-L", "-l", "-D"]

def setValue (options : Options) (option value : String) : Except OptionError Options :=
  match option with
  | "-o" => .ok { options with output := some value }
  | "-u" => .ok { options with units := options.units ++ [value] }
  | "-L" => .ok { options with libraryDirs := options.libraryDirs ++ [value] }
  | "-l" => .ok { options with libraries := options.libraries ++ [value] }
  | _ =>
    match definition? value with
    | some (name, n) => .ok { options with constants := options.constants.insert name n }
    | none => .error (.badDefinition value)

/-- Sets what an argument without a value asks for. The first one that is no option is the input. -/
def setArgument (options : Options) (input : Option String) (argument : String) :
    Except OptionError (Options × Option String) :=
  if argument = "-S" then .ok ({ options with mode := .assembly }, input)
  else if argument = "--lenient-free" then .ok ({ options with policy := .lenient }, input)
  else if argument.startsWith "-" then .error (.unknownOption argument)
  else if input.isSome then .error (.extraInput argument)
  else .ok (options, some argument)

def readFrom (options : Options) (input : Option String) :
    List String → Except OptionError (Options × Option String)
  | [] => .ok (options, input)
  | [argument] =>
    if valued.contains argument then .error (.missingValue argument)
    else options.setArgument input argument
  | argument :: value :: rest =>
    if valued.contains argument then do readFrom (← options.setValue argument value) input rest
    else do
      let (options, input) ← options.setArgument input argument
      readFrom options input (value :: rest)

def ofArguments (arguments : List String) : Except OptionError Options := do
  match ← readFrom { input := "" } none arguments with
  | (_, none) => .error .missingInput
  | (options, some input) =>
    let libraryDirs := if options.libraryDirs.isEmpty then ["lib"] else options.libraryDirs
    return { options with input, libraryDirs }

/-- Where the output goes: as asked for, or beside the input. -/
def outputPath (options : Options) : String :=
  match options.output, options.mode with
  | some path, _ => path
  | none, .linked => Path.withExtension options.input "out.asm"
  | none, .assembly => Path.withExtension options.input "asm"

end Options

end WordLang
