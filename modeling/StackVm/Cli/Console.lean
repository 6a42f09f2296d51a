/-
What a command works on: files, the input and the two outputs.
-/
import StackVm.Files.System
import StackVm.Memory.Heap

namespace StackVm.Cli

/-- How a command ends. -/
inductive ExitCode where
  | ok
  | failure
  /-- The command line is wrong. -/
  | usage
  /-- A file or an image is wrong. -/
  | data
  /-- The program failed. -/
  | software
  deriving DecidableEq, Repr

/-- The number of an exit code. -/
def ExitCode.toNat : ExitCode → Nat
  | .ok => 0
  | .failure => 1
  | .usage => 64
  | .data => 65
  | .software => 70

/-- The surroundings of a command. -/
structure Console where
  fs : FileSystem
  /-- The input that has not been read. -/
  input : Text := []
  out : Array UInt8 := #[]
  err : Array UInt8 := #[]
  deriving Inhabited

/-- What a command is told about the world. -/
structure World where
  /-- The path of the running executable, if it is known. -/
  executable : Option Text := none
  /-- The time, in seconds since the start of 1970. -/
  now : Nat := 0
  /-- How many instructions a program may take. -/
  steps : Nat

/-- Why a command is cut short without an exit code. -/
inductive Abort where
  | fault (f : Fault)
  /-- The instructions allowed were used up. -/
  | unfinished
  deriving DecidableEq, Repr

/-- Commands. -/
abbrev CommandM := EStateM Abort Console

/-- Writes to the output. -/
def print (t : Text) : CommandM Unit := modify fun c => { c with out := c.out ++ t }

/-- Writes to the error output. -/
def printErr (t : Text) : CommandM Unit := modify fun c => { c with err := c.err ++ t }

/-- Reports an error and ends with a code. -/
def fail (code : ExitCode) (message : Text) : CommandM ExitCode := do
  printErr ("Error: " ++ message ++ "\n")
  return code

/-- Prints lines to the error output and ends with the code for a wrong command line. -/
def refuse (lines : List String) : CommandM ExitCode := do
  printErr (lines.flatMap fun line => Text.ofString line ++ [0x0A])
  return .usage

end StackVm.Cli
