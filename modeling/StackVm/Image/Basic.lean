/-
Program images: the functions of a program as written chunks, with a link table
for each that says which function belongs in which of its constant slots.
-/
import StackVm.Text.Basic

namespace StackVm

/-- A link table: constant slots with the index of the function that belongs
there, in ascending order of slots. -/
abbrev Links := List (UInt8 × Int64)

/-- Sets the target of a slot. -/
def Links.insert (slot : UInt8) (target : Int64) : Links → Links
  | [] => [(slot, target)]
  | (s, t) :: rest =>
    if slot < s then (slot, target) :: (s, t) :: rest
    else if slot = s then (slot, target) :: rest
    else (s, t) :: insert slot target rest

/-- One function of an image. -/
structure FunctionImage where
  name : Text := []
  arity : Int64 := 0
  /-- The function's written chunk, which may be missing. -/
  chunk : Option Text := none
  links : Links := []
  deriving DecidableEq, Repr, Inhabited

/-- The bytes of a function's chunk. -/
def FunctionImage.bytes (f : FunctionImage) : Text := f.chunk.getD []

/-- A program: its functions and the one to run first. -/
structure Image where
  version : Int64 := 0
  entry : Int64 := 0
  /-- The functions; the list itself may be missing. -/
  functions : Option (List FunctionImage) := none
  deriving DecidableEq, Repr, Inhabited

namespace Image

/-- The version of the layout that is read and written. -/
def formatVersion : Int64 := 1

/-- The functions of an image. -/
def functionList (img : Image) : List FunctionImage := img.functions.getD []

/-- The one-function image of a bare chunk. -/
def ofChunk (name chunk : Text) : Image :=
  { version := formatVersion, functions := some [{ name, chunk := some chunk }] }

end Image

end StackVm
