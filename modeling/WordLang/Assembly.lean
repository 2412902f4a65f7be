import WordLang.Instruction

/-!
# Assembly

A compiled unit is a list of routines. The body of a routine is a sequence of lines: a label line starts
a basic block, an instruction line belongs to the block before it.
-/

namespace WordLang

inductive Line where
  | label (name : String)
  | code (instruction : Instruction)
deriving DecidableEq

structure Routine where
  label : String
  prologue : List Instruction
  body : List Line
  epilogue : List Instruction

/-- The code of one compiled unit. -/
structure Assembly where
  routines : List Routine

namespace Line

/-- Labels stand at the margin and instructions are indented. -/
def text : Line → String
  | label name => name ++ ":"
  | code instruction => "    " ++ instruction.text

def instruction? : Line → Option Instruction
  | label _ => none
  | code instruction => some instruction

def label? : Line → Option String
  | label name => some name
  | code _ => none

end Line

namespace Routine

def lines (routine : Routine) : List Line :=
  .label routine.label :: routine.prologue.map .code ++ routine.body ++ routine.epilogue.map .code

def instructions (routine : Routine) : List Instruction :=
  routine.lines.filterMap Line.instruction?

end Routine

namespace Assembly

def lines (assembly : Assembly) : List Line :=
  assembly.routines.flatMap Routine.lines

/-- The text of a unit, every line ended by a newline. -/
def text (assembly : Assembly) : String :=
  String.join (assembly.lines.map fun line => line.text ++ "\n")

def routine? (assembly : Assembly) (label : String) : Option Routine :=
  assembly.routines.find? fun routine => routine.label == label

end Assembly

end WordLang
