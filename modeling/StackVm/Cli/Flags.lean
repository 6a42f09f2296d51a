/-
Options on a command line.

Options come before all other arguments.  An option starts with one or two
hyphens and takes its value after an equals sign or from the next argument; a
switch takes a value after an equals sign only.  Two hyphens alone end the options
and are dropped.
-/
import StackVm.Cli.Count

namespace StackVm.Cli

/-- An option that changes settings of type `α`. -/
structure Flag (α : Type) where
  name : Text
  /-- A switch may stand without a value. -/
  isSwitch : Bool := false
  /-- Changes the settings; a switch without a value has none to give. -/
  set : Option Text → α → Except CountError α

/-- Why options cannot be read. -/
inductive FlagError where
  /-- The usage text was asked for. -/
  | help
  | badForm (argument : Text)
  | unknown (name : Text)
  | noValue (name : Text)
  | badCount (name value : Text) (error : CountError)
  deriving DecidableEq, Repr

/-- The line printed before the usage text. -/
def FlagError.message : FlagError → Text
  | .help => []
  | .badForm argument => "bad flag syntax: " ++ argument ++ "\n"
  | .unknown name => "flag provided but not defined: -" ++ name ++ "\n"
  | .noValue name => "flag needs an argument: -" ++ name ++ "\n"
  | .badCount name value error =>
    "invalid boolean value " ++ Text.quoted value ++ " for -" ++ name ++ ": " ++
      error.message ++ "\n"

/-- What an argument is. -/
inductive Argument where
  /-- The first argument that is no option. -/
  | plain
  /-- The end of the options. -/
  | terminator
  | bad
  | flag (name : Text) (value : Option Text)
  deriving DecidableEq, Repr

/-- The hyphen that options start with. -/
def hyphen : UInt8 := 0x2D

/-- The name and the value of an option without its hyphens.  An equals sign at the
very start is part of the name. -/
def splitValue (t : Text) : Text × Option Text :=
  match t with
  | [] => ([], none)
  | b :: rest =>
    match rest.span (· ≠ 0x3D) with
    | (name, _ :: value) => (b :: name, some value)
    | (name, []) => (b :: name, none)

/-- The option whose name and value stand after the hyphens. -/
def flagArgument (t : Text) : Argument :=
  match t with
  | [] => .bad
  | b :: _ =>
    if b = hyphen ∨ b = 0x3D then .bad
    else
      let (name, value) := splitValue t
      .flag name value

/-- Tells options from other arguments. -/
def classify (argument : Text) : Argument :=
  match argument with
  | [0x2D, 0x2D] => .terminator
  | 0x2D :: 0x2D :: rest => flagArgument rest
  | 0x2D :: b :: rest => flagArgument (b :: rest)
  | _ => .plain

/-- Whether a name asks for the usage text where no option has that name. -/
def asksForHelp (name : Text) : Bool := name = Text.ofString "help" || name = Text.ofString "h"

/-- Reads options into settings and gives the arguments that follow them. -/
def readFlags {α : Type} (flags : List (Flag α)) (a : α) :
    List Text → Except FlagError (α × List Text)
  | [] => .ok (a, [])
  | argument :: rest =>
    match classify argument with
    | .plain => .ok (a, argument :: rest)
    | .terminator => .ok (a, rest)
    | .bad => .error (.badForm argument)
    | .flag name value =>
      match flags.find? (·.name = name) with
      | none => .error (if asksForHelp name then .help else .unknown name)
      | some flag =>
        match flag.isSwitch, value, rest with
        | true, value, rest =>
          match flag.set value a with
          | .ok a => readFlags flags a rest
          | .error e => .error (.badCount name (value.getD []) e)
        | false, some value, rest =>
          match flag.set (some value) a with
          | .ok a => readFlags flags a rest
          | .error e => .error (.badCount name value e)
        | false, none, value :: rest =>
          match flag.set (some value) a with
          | .ok a => readFlags flags a rest
          | .error e => .error (.badCount name value e)
        | false, none, [] => .error (.noValue name)

end StackVm.Cli
