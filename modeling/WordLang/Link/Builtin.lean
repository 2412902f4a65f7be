/-!
# Builtin modules

The assembly that the linker itself supplies: the stub that every program starts with, and one module for
each builtin function.
-/

namespace WordLang.Link.Builtin

/-- A text with a newline after each line. -/
def ofLines (lines : List String) : String :=
  String.join (lines.map (· ++ "\n"))

/-- Sets up the stack and calls the program's entry. -/
def entryStub : String :=
  ofLines [
    "# Program entry: set up the stack and hand control to `start`",
    "_init:",
    "    li sp, [STACK_TOP]",
    "    mov fp, sp",
    "    call start",
    "    halt"]

/-- Writes a number in decimal, and a newline. -/
def print : String :=
  ofLines [
    "# print(value): writes value in decimal followed by a newline",
    "print:",
    "    push lr",
    "    li r1, 0",
    "    lt r2, r0, r1",
    "    jz r2, _print_unsigned",
    "    push r0",
    "    li r0, 45",
    "    call @putc",
    "    pop r0",
    "    li r1, 0",
    "    sub r0, r1, r0",
    "_print_unsigned:",
    "    call @print_digits",
    "    li r0, 10",
    "    call @putc",
    "    pop lr",
    "    ret"]

/-- Writes a number that is not negative in decimal. -/
def printDigits : String :=
  ofLines [
    "# print_digits(value): writes a non-negative value in decimal",
    "print_digits:",
    "    push lr",
    "    push r0",
    "    li r1, 10",
    "    div r2, r0, r1",
    "    jz r2, _print_digits_last",
    "    mov r0, r2",
    "    call print_digits",
    "_print_digits_last:",
    "    pop r0",
    "    li r1, 10",
    "    mod r0, r0, r1",
    "    li r1, 48",
    "    add r0, r0, r1",
    "    call @putc",
    "    pop lr",
    "    ret"]

def putc : String :=
  ofLines [
    "# putc(ch): writes one character to the screen device",
    "putc:",
    "    li r1, [SCREEN_PTR]",
    "    store r0, 0(r1)",
    "    ret"]

def exit : String :=
  ofLines [
    "# exit(code): stops the machine with the code left in r0",
    "exit:",
    "    halt"]

/-- The builtin modules by the function that each one defines. -/
def modules : List (String × String) :=
  [("print", print), ("print_digits", printDigits), ("putc", putc), ("exit", exit)]

def find? (name : String) : Option String :=
  modules.lookup name

end WordLang.Link.Builtin
