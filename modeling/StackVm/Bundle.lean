/-
Bundled executables: a program file with an encoded image, the length of the
image and a marker behind it.
-/
import StackVm.Text.Endian

namespace StackVm.Bundle

/-- The last bytes of a bundled executable. -/
def marker : Text := "DRUK_BYTECODE_V1"

/-- How many bytes the length of the image takes. -/
def lengthSize : Nat := 4

/-- How many bytes follow the image. -/
def trailerSize : Nat := lengthSize + marker.length

/-- The largest image that can be bundled. -/
def maxPayload : Nat := 0xFFFFFFFF

/-- What an executable consists of. -/
structure Layout where
  /-- The size of the program without what is bundled with it. -/
  stubSize : Nat
  /-- The encoded image, if there is one. -/
  payload : Option Text
  deriving DecidableEq, Repr

/-- Takes an executable apart; fails with the length of the image when the file is
too short for it. -/
def read (data : Text) : Except Nat Layout :=
  let size := data.length
  let trailer := data.drop (size - trailerSize)
  if size < trailerSize ∨ trailer.drop lengthSize ≠ marker then .ok ⟨size, none⟩
  else
    let n := Text.fromLittleEndian (trailer.take lengthSize)
    let room := size - trailerSize
    if room < n then .error n
    else .ok ⟨room - n, some ((data.drop (room - n)).take n)⟩

/-- An executable with an image behind it. -/
def write (stub payload : Text) : Text :=
  stub ++ payload ++ Text.littleEndian lengthSize payload.length ++ marker

end StackVm.Bundle
