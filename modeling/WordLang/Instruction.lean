import WordLang.Register
import WordLang.Word.Literal

/-!
# Instructions

The instructions of the machine and their assembly text. An external callee carries the sigil `@`, which
the linker resolves and removes.
-/

namespace WordLang

inductive Operation where
  | add | sub | mul | div | mod
  | and | or
  | eq | ne | lt | le | gt | ge
deriving DecidableEq

/-- What a call jumps to: a function of the same unit, or one that linking supplies. -/
inductive Callee where
  | internal (name : String)
  | external (name : String)
deriving DecidableEq

inductive Instruction where
  | li (rd : Register) (imm : Word)
  | mov (rd rs : Register)
  | addi (rd rs : Register) (imm : Int)
  | binary (op : Operation) (rd rs1 rs2 : Register)
  | not (rd rs : Register)
  | load (rd base : Register) (offset : Int)
  | store (rs base : Register) (offset : Int)
  | push (rs : Register)
  | pop (rd : Register)
  | jmp (target : String)
  | jz (rs : Register) (target : String)
  | call (callee : Callee)
  | ret
deriving DecidableEq

def Operation.text : Operation → String
  | add => "add"
  | sub => "sub"
  | mul => "mul"
  | div => "div"
  | mod => "mod"
  | and => "and"
  | or => "or"
  | eq => "eq"
  | ne => "ne"
  | lt => "lt"
  | le => "le"
  | gt => "gt"
  | ge => "ge"

def Callee.text : Callee → String
  | internal name => name
  | external name => "@" ++ name

namespace Instruction

def text : Instruction → String
  | li rd imm => "li " ++ rd.text ++ ", " ++ toString imm.toInt
  | mov rd rs => "mov " ++ rd.text ++ ", " ++ rs.text
  | addi rd rs imm => "addi " ++ rd.text ++ ", " ++ rs.text ++ ", " ++ toString imm
  | binary op rd rs1 rs2 => op.text ++ " " ++ rd.text ++ ", " ++ rs1.text ++ ", " ++ rs2.text
  | not rd rs => "not " ++ rd.text ++ ", " ++ rs.text
  | load rd base offset => "load " ++ rd.text ++ ", " ++ toString offset ++ "(" ++ base.text ++ ")"
  | store rs base offset => "store " ++ rs.text ++ ", " ++ toString offset ++ "(" ++ base.text ++ ")"
  | push rs => "push " ++ rs.text
  | pop rd => "pop " ++ rd.text
  | jmp target => "jmp " ++ target
  | jz rs target => "jz " ++ rs.text ++ ", " ++ target
  | call callee => "call " ++ callee.text
  | ret => "ret"

end Instruction

end WordLang
