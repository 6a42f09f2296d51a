/-
The statements of a settings file: table headers and assignments.

A statement takes a line; values in brackets and braces may go over several
lines, with comments in them and a comma after the last part.
-/
import StackVm.Toml.Quoted
import StackVm.Toml.Scalar

namespace StackVm.Toml

/-- A dotted key: the names from the outermost table inwards. -/
abbrev Key := List Text

/-- A written value. -/
inductive Expr where
  | scalar (s : Scalar)
  | array (items : List Expr)
  | table (pairs : List (Key × Expr))

/-- Whether a written value is an array. -/
def Expr.isArray : Expr → Bool
  | .array _ => true
  | _ => false

/-- A line of a settings file. -/
inductive Statement where
  /-- The assignments that follow belong to a table. -/
  | header (key : Key)
  /-- The assignments that follow belong to a new last table of an array. -/
  | element (key : Key)
  | assign (key : Key) (value : Expr)

/-- What is left after blanks. -/
def skipBlanks (t : Text) : Text := t.dropWhile isBlank

/-- What is left after blanks, line ends and comments. -/
def skipGap (inComment : Bool) : Text → Text
  | [] => []
  | b :: rest =>
    if isLineEnd b then skipGap false rest
    else if inComment || isBlank b then skipGap inComment rest
    else if b = 0x23 then skipGap true rest
    else b :: rest

/-- Whether a byte may stand in a name without quotes. -/
def isBareByte (b : UInt8) : Bool :=
  isDigit b || (0x41 ≤ b && b ≤ 0x5A) || (0x61 ≤ b && b ≤ 0x7A) || b = 0x5F || b = 0x2D

/-- Reads one name of a key. -/
def readName (t : Text) : Except Fault (Text × Text) :=
  match t with
  | 0x22 :: rest => readBasic rest
  | 0x27 :: rest => readLiteral rest
  | _ =>
    let (front, rest) := t.span isBareByte
    if front = [] then .error .malformed else .ok (front, rest)

/-- Reads the names of a key, behind those read before, last one first. -/
def readKeyInto (done : Key) : (fuel : Nat) → Text → Except Fault (Key × Text)
  | 0, _ => .error .malformed
  | fuel + 1, t => do
    let (name, rest) ← readName (skipBlanks t)
    match skipBlanks rest with
    | 0x2E :: rest => readKeyInto (name :: done) fuel rest
    | rest => return ((name :: done).reverse, rest)

/-- Reads a dotted key and the blanks after it. -/
def readKey (t : Text) : Except Fault (Key × Text) := readKeyInto [] (t.length + 1) t

mutual

/-- Reads a value. -/
def readValue : (fuel : Nat) → Text → Except Fault (Expr × Text)
  | 0, _ => .error .malformed
  | fuel + 1, t =>
    match skipBlanks t with
    | 0x5B :: rest => readItems [] fuel rest
    | 0x7B :: rest => readPairs [] fuel rest
    | 0x22 :: rest => (readString (0x22 :: rest)).map fun (s, rest) => (.scalar (.string s), rest)
    | 0x27 :: rest => (readString (0x27 :: rest)).map fun (s, rest) => (.scalar (.string s), rest)
    | t => (readPlain t).map fun (s, rest) => (.scalar s, rest)

/-- Reads the items of an array up to its closing bracket. -/
def readItems (done : List Expr) : (fuel : Nat) → Text → Except Fault (Expr × Text)
  | 0, _ => .error .malformed
  | fuel + 1, t =>
    match skipGap false t with
    | 0x5D :: rest => .ok (.array done.reverse, rest)
    | t =>
      match readValue fuel t with
      | .error e => .error e
      | .ok (v, rest) =>
        match skipGap false rest with
        | 0x2C :: rest => readItems (v :: done) fuel rest
        | 0x5D :: rest => .ok (.array (v :: done).reverse, rest)
        | _ => .error .malformed

/-- Reads the assignments of a table in braces up to its closing brace. -/
def readPairs (done : List (Key × Expr)) : (fuel : Nat) → Text → Except Fault (Expr × Text)
  | 0, _ => .error .malformed
  | fuel + 1, t =>
    match skipGap false t with
    | 0x7D :: rest => .ok (.table done.reverse, rest)
    | t =>
      match readKey t with
      | .error e => .error e
      | .ok (key, 0x3D :: rest) =>
        match readValue fuel rest with
        | .error e => .error e
        | .ok (v, rest) =>
          match skipGap false rest with
          | 0x2C :: rest => readPairs ((key, v) :: done) fuel rest
          | 0x7D :: rest => .ok (.table ((key, v) :: done).reverse, rest)
          | _ => .error .malformed
      | .ok _ => .error .malformed

end

/-- Where reading stopped: the tables that the statement had entered by then, and what
is wrong with it. -/
structure Stop where
  entered : Key := []
  fault : Fault
  deriving DecidableEq, Repr

/-- Reads an assignment.  No value takes more steps than two for each byte. -/
def readAssignment (t : Text) : Except Stop (Statement × Text) :=
  match readKey t with
  | .error fault => .error { fault }
  | .ok (key, 0x3D :: rest) =>
    match readValue (2 * rest.length + 2) rest with
    | .error fault => .error { entered := key.dropLast, fault }
    | .ok (v, rest) => .ok (.assign key v, rest)
  | .ok _ => .error { fault := .malformed }

/-- Reads a statement. -/
def readStatement (t : Text) : Except Stop (Statement × Text) :=
  match t with
  | 0x5B :: 0x5B :: rest =>
    match readKey rest with
    | .error fault => .error { fault }
    | .ok (key, 0x5D :: 0x5D :: rest) => .ok (.element key, rest)
    | .ok _ => .error { fault := .malformed }
  | 0x5B :: rest =>
    match readKey rest with
    | .error fault => .error { fault }
    | .ok (key, 0x5D :: rest) => .ok (.header key, rest)
    | .ok _ => .error { fault := .malformed }
  | _ => readAssignment t

/-- Whether nothing but a comment is left on the line. -/
def atLineEnd (t : Text) : Bool :=
  match skipBlanks t with
  | [] => true
  | b :: _ => isLineEnd b || b = 0x23

/-- The statements of a file, and where reading stopped if it did not get to the end. -/
structure Script where
  statements : List Statement
  stop : Option Stop := none

/-- Reads statements up to the end of the text, behind those read before, last one
first. -/
def readStatements (done : List Statement) : (fuel : Nat) → Text → Script
  | 0, _ => ⟨done.reverse, some { fault := .malformed }⟩
  | fuel + 1, t =>
    match skipGap false t with
    | [] => ⟨done.reverse, none⟩
    | t =>
      match readStatement t with
      | .error stop => ⟨done.reverse, some stop⟩
      | .ok (s, rest) =>
        if atLineEnd rest then readStatements (s :: done) fuel rest
        else ⟨(s :: done).reverse, some { fault := .malformed }⟩

/-- The text without a byte order mark at its start. -/
def dropByteOrderMark : Text → Text
  | 0xEF :: 0xBB :: 0xBF :: t => t
  | 0xFF :: 0xFE :: t => t
  | 0xFE :: 0xFF :: t => t
  | t => t

/-- Whether a text has no control characters but tabs and line ends, and no
carriage return outside of a line end. -/
def isClean : Text → Bool
  | [] => true
  | 0x0D :: t =>
    match t with
    | 0x0A :: t => isClean t
    | _ => false
  | b :: t => (0x20 ≤ b || b = 0x09 || b = 0x0A) && b != 0x7F && isClean t

/-- The text before the first byte that no settings file may have, behind what was
found before, last byte first. -/
def soundPartInto (done : Text) (t : Text) : Text :=
  match t with
  | [] => done.reverse
  | b :: rest =>
    match Text.runeAt b rest with
    | (.stray _, _) => done.reverse
    | (.point _, more) =>
      if isClean [b] || (b = 0x0D && rest.head? = some 0x0A) then
        soundPartInto ((rest.take more).reverse ++ b :: done) (rest.drop more)
      else done.reverse
termination_by t.length
decreasing_by simp only [List.length_drop, List.length_cons]; omega

/-- Reads the statements of a settings file.  Bytes that no such file may have only
matter if nothing before them is wrong. -/
def readScript (t : Text) : Script :=
  let t := dropByteOrderMark t
  if Text.isUtf8 t && isClean t then readStatements [] (t.length + 1) t
  else
    let s := readStatements [] (t.length + 1) (soundPartInto [] t)
    { s with stop := s.stop <|> some { fault := .malformed } }

end StackVm.Toml
