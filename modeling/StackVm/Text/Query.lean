/-
Escapes such as `%41`, and queries: settings `name=value` with an ampersand between
each two of them.
-/
import StackVm.Text.Basic

namespace StackVm.Text

/-- The value of a hexadecimal digit. -/
def hexValue? (b : UInt8) : Option UInt8 :=
  if 0x30 ≤ b ∧ b ≤ 0x39 then some (b - 0x30)
  else if 0x41 ≤ b ∧ b ≤ 0x46 then some (b - 0x37)
  else if 0x61 ≤ b ∧ b ≤ 0x66 then some (b - 0x57)
  else none

/-- The byte of an escape, of which `t` is what stands after its mark, and the rest. -/
def escape? : (t : Text) → Option (UInt8 × Text)
  | high :: low :: rest => do return ((← hexValue? high) * 16 + (← hexValue? low), rest)
  | _ => none

/-- What stands after an escape is shorter. -/
theorem escape?_length_lt {t rest : Text} {b : UInt8} (h : escape? t = some (b, rest)) :
    rest.length < t.length := by
  match t with
  | [] => simp [escape?] at h
  | [_] => simp [escape?] at h
  | high :: low :: t =>
    simp only [escape?, Option.bind_eq_bind, Option.bind_eq_some_iff, Option.pure_def,
      Option.some.injEq, Prod.mk.injEq] at h
    obtain ⟨_, _, _, _, _, rfl⟩ := h
    simp only [List.length_cons]
    omega

/-- The byte that starts an escape. -/
def escapeMark : UInt8 := 0x25

/-- The byte that stands for a space in a query. -/
def plus : UInt8 := 0x2B

/-- How much of a text is shown for an escape that is none. -/
def shownEscape : Nat := 3

/-- Reads a part of a query.  Every mark has to start an escape; the first that does
not is given back. -/
def unescape (done : Text) (t : Text) : Except Text Text :=
  match t with
  | [] => .ok done.reverse
  | b :: rest =>
    if b = escapeMark then
      match _h : escape? rest with
      | some (c, rest') => unescape (c :: done) rest'
      | none => .error (t.take shownEscape)
    else unescape ((if b = plus then 0x20 else b) :: done) rest
termination_by t.length
decreasing_by
  · have := escape?_length_lt _h
    simp only [List.length_cons]
    omega
  · simp only [List.length_cons]
    omega

/-- Reads a part of a text in which a mark that starts no escape stands for itself.
An escaped zero ends the part. -/
def unescapeLoosely (done : Text) (t : Text) : Text :=
  match t with
  | [] => done.reverse
  | b :: rest =>
    if b = escapeMark then
      match _h : escape? rest with
      | some (c, rest') => if c = 0 then done.reverse else unescapeLoosely (c :: done) rest'
      | none => unescapeLoosely (b :: done) rest
    else unescapeLoosely (b :: done) rest
termination_by t.length
decreasing_by
  · have := escape?_length_lt _h
    simp only [List.length_cons]
    omega
  · simp only [List.length_cons]
    omega
  · simp only [List.length_cons]
    omega

/-- Why a query cannot be read. -/
inductive QueryError where
  | badEscape (shown : Text)
  | semicolon
  deriving DecidableEq, Repr

/-- A query as far as it has been read: its settings, last one first, and what was
found wrong with it. -/
structure QueryState where
  settings : List (Text × Text) := []
  error : Option QueryError := none

/-- Reads one setting of a query.  A semicolon in it outweighs what was wrong
before; otherwise the first mistake counts. -/
def QueryState.read (q : QueryState) (piece : Text) : QueryState :=
  let wrong (shown : Text) : QueryState := { q with error := q.error <|> some (.badEscape shown) }
  if piece.contains 0x3B then { q with error := some .semicolon }
  else if piece = [] then q
  else
    let (name, value) := cut 0x3D piece
    match unescape [] name with
    | .error shown => wrong shown
    | .ok name =>
      match unescape [] (value.getD []) with
      | .error shown => wrong shown
      | .ok value => { q with settings := (name, value) :: q.settings }

/-- The settings of a query. -/
def query (t : Text) : Except QueryError (List (Text × Text)) :=
  let q := (pieces 0x26 t).foldl QueryState.read {}
  match q.error with
  | some e => .error e
  | none => .ok q.settings.reverse

/-- The settings of a query in which mistakes stand for themselves and a setting
without a name does not count. -/
def looseQuery (t : Text) : List (Text × Text) :=
  (pieces 0x26 t).filterMap fun piece =>
    let (name, value) := cut 0x3D piece
    let name := unescapeLoosely [] name
    if name = [] then none else some (name, unescapeLoosely [] (value.getD []))

end StackVm.Text
