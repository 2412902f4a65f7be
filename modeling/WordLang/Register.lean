/-!
# Registers

Eleven general registers and three with fixed roles: the frame pointer, the stack pointer and the link
register. A call may change the caller-saved ones; a function restores the callee-saved ones it uses.
-/

namespace WordLang

inductive Register where
  | r0 | r1 | r2 | r3 | r4 | r5 | r6 | r7 | r8 | r9 | r10
  | fp
  | sp
  | lr
deriving DecidableEq

/-- Who keeps a register's value across a call. -/
inductive RegisterClass where
  | callerSaved
  | calleeSaved
deriving DecidableEq

namespace RegisterClass

def members : RegisterClass → List Register
  | callerSaved => [.r0, .r1, .r2, .r3, .r4, .r5]
  | calleeSaved => [.r6, .r7, .r8, .r9, .r10]

def text : RegisterClass → String
  | callerSaved => "caller-saved"
  | calleeSaved => "callee-saved"

end RegisterClass

namespace Register

def text : Register → String
  | r0 => "r0"
  | r1 => "r1"
  | r2 => "r2"
  | r3 => "r3"
  | r4 => "r4"
  | r5 => "r5"
  | r6 => "r6"
  | r7 => "r7"
  | r8 => "r8"
  | r9 => "r9"
  | r10 => "r10"
  | fp => "fp"
  | sp => "sp"
  | lr => "lr"

def index (r : Register) : Nat :=
  r.ctorIdx

/-- The registers that hold values, in ascending order. -/
def general : List Register :=
  RegisterClass.callerSaved.members ++ RegisterClass.calleeSaved.members

def all : List Register :=
  general ++ [fp, sp, lr]

/-- The class of a register; the registers with a fixed role have none. -/
def saver? (r : Register) : Option RegisterClass :=
  if r ∈ RegisterClass.callerSaved.members then some .callerSaved
  else if r ∈ RegisterClass.calleeSaved.members then some .calleeSaved
  else none

/-- The registers that carry the arguments of a call, first argument first. -/
def arguments : List Register :=
  [r0, r1, r2, r3]

def result : Register :=
  r0

theorem index_lt (r : Register) : r.index < 14 := by
  cases r <;> decide

theorem index_injective {r s : Register} (h : r.index = s.index) : r = s := by
  revert h
  cases r <;> cases s <;> decide

end Register

end WordLang
