/-
Paths as texts: names with slashes between them.  These operations look at the
text alone and never at a file.
-/
import StackVm.Text.Basic

namespace StackVm.Path

/-- The byte between the names of a path. -/
def slash : UInt8 := 0x2F

/-- The name of a directory in itself. -/
def dot : Text := [0x2E]

/-- The name of the parent of a directory in it. -/
def dotDot : Text := [0x2E, 0x2E]

/-- Whether a path starts at the root. -/
def isAbsolute (p : Text) : Bool := p.head? = some slash

/-- The names of a path, with those that stay where they are or lead up. -/
def pieces (p : Text) : List Text := (Text.pieces slash p).filter (· ≠ [])

/-- The names of a path, without those that stay where they are. -/
def names (p : Text) : List Text := (pieces p).filter (· ≠ dot)

/-- Whether a path ends in a slash behind a name. -/
def endsInSlash (p : Text) : Bool := p.getLast? = some slash

/-- The path of a name in the directory of a path; the empty path is the current
directory. -/
def below (p name : Text) : Text :=
  if p = [] ∨ endsInSlash p then p ++ name else p ++ slash :: name

/-- Follows one name of a path: `up` are the names so far, last one first.  A step
up undoes the last name; there is nothing above the root. -/
def follow (rooted : Bool) (up : List Text) (name : Text) : List Text :=
  if name = dotDot then
    match up with
    | [] => if rooted then [] else [dotDot]
    | last :: rest => if last = dotDot then dotDot :: up else rest
  else name :: up

/-- The names of a path after every step up has been undone where possible. -/
def cleanNames (rooted : Bool) (names : List Text) : List Text :=
  (names.foldl (follow rooted) []).reverse

/-- The shortest path of the same meaning. -/
def clean (p : Text) : Text :=
  let rooted := isAbsolute p
  let body := Text.join [slash] (cleanNames rooted (names p))
  if rooted then slash :: body else if body = [] then dot else body

/-- One path below another, cleaned. -/
def join (a b : Text) : Text :=
  if a = [] then if b = [] then [] else clean b
  else if b = [] then clean a
  else clean (a ++ slash :: b)

/-- The path without its last name. -/
def parent (p : Text) : Text := clean (p.reverse.dropWhile (· ≠ slash)).reverse

/-- The path from the root, for a path in the directory `cwd`. -/
def absolute (cwd p : Text) : Text := if isAbsolute p then clean p else join cwd p

/-- The path of the names from the root. -/
def ofNames (names : List Text) : Text := slash :: Text.join [slash] names

/-- The directories of a list of names, the innermost first and the root last. -/
def upwardsFrom : (up : List Text) → List Text
  | [] => [ofNames []]
  | name :: up => ofNames (name :: up).reverse :: upwardsFrom up

/-- A directory and all above it, up to the root, for a clean absolute path. -/
def upwards (p : Text) : List Text := upwardsFrom (names p).reverse

end StackVm.Path
