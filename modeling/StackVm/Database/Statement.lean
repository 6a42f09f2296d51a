/-
Statements.

Settings and transactions are understood in full, and so is the removal of tables and
rows in its simple forms.  Of any other statement only its first word and its end are
looked at.
-/
import StackVm.Database.Cache
import StackVm.Database.Error
import StackVm.Database.Token

namespace StackVm.Sql

/-- A token in place of which another one was expected. -/
def unexpected : List Token → DatabaseError
  | [] => .logic "incomplete input"
  | t :: _ =>
    if t.kind = .illegal then .logic ("unrecognized token: \"" ++ t.text ++ "\"")
    else .logic ("near \"" ++ t.text ++ "\": syntax error")

/-- The words that are not names. -/
def reservedWords : List String :=
  ["add", "all", "alter", "and", "as", "autoincrement", "between", "case", "check", "collate",
   "commit", "constraint", "create", "default", "deferrable", "delete", "distinct", "drop", "else",
   "escape", "except", "exists", "foreign", "from", "group", "having", "in", "index", "insert",
   "intersect", "into", "is", "isnull", "join", "limit", "not", "nothing", "notnull", "null", "on",
   "or", "order", "primary", "references", "returning", "select", "set", "table", "then", "to",
   "transaction", "union", "unique", "update", "using", "values", "when", "where"]

/-- The words that may start a statement that is not understood. -/
def statementWords : List String :=
  ["alter", "analyze", "attach", "create", "delete", "detach", "drop", "explain", "insert",
   "reindex", "release", "replace", "savepoint", "select", "update", "vacuum", "values", "with"]

/-- A word in small letters; empty for other tokens. -/
def Token.word (t : Token) : Text := if t.kind = .word then t.text.map Text.lowerByte else []

/-- Whether a token is a word. -/
def Token.isWord (t : Token) (word : String) : Bool := t.word = Text.ofString word

/-- Whether a token is a symbol. -/
def Token.isSymbol (t : Token) (symbol : String) : Bool :=
  t.kind = .symbol && t.text = Text.ofString symbol

/-- A text without the quotes around it; two quotes in it stand for one. -/
def undouble (quote : UInt8) : Text → Text
  | b :: c :: rest =>
    if b = quote then if c = quote then quote :: undouble quote rest else []
    else b :: undouble quote (c :: rest)
  | [b] => if b = quote then [] else [b]
  | [] => []

/-- What a token stands for: its text, without quotes or brackets around it. -/
def Token.meaning (t : Token) : Text :=
  match t.text with
  | b :: rest =>
    if b = 0x27 ∨ b = 0x22 ∨ b = 0x60 then undouble b rest
    else if b = 0x5B then undouble 0x5D rest
    else t.text
  | [] => []

/-- Whether a token is a name. -/
def Token.isName (t : Token) : Bool :=
  match t.kind with
  | .name | .string => true
  | .word => !reservedWords.any (Text.ofString · = t.word)
  | _ => false

/-- A name with the database it belongs to, as tokens. -/
structure Name where
  schema : Option Token := none
  token : Token

/-- The value of a setting: what it stands for, and the token it is written with. -/
structure Value where
  text : Text
  token : Token

/-- A statement. -/
inductive Statement where
  | pragma (name : Name) (value : Option Value)
  /-- Starts a transaction with a lock. -/
  | begin (lock : Lock)
  | commit
  | rollback
  | dropTable (ifExists : Bool) (table : Name)
  /-- Removes rows of a table: those of a name, or all. -/
  | deleteRows (table : Name) (name : Option Text)
  | other

/-- Reads a name. -/
def readName : List Token → Except DatabaseError (Token × List Token)
  | t :: rest => if t.isName then .ok (t, rest) else .error (unexpected (t :: rest))
  | [] => .error (unexpected [])

/-- Reads a name that may have the name of a database in front of it. -/
def readQualified (ts : List Token) : Except DatabaseError (Name × List Token) := do
  let (first, rest) ← readName ts
  match rest with
  | dot :: more =>
    if dot.isSymbol "." then
      let (second, rest) ← readName more
      return (⟨some first, second⟩, rest)
    else return (⟨none, first⟩, rest)
  | [] => return (⟨none, first⟩, rest)

/-- Reads the number after a sign. -/
def readNumber (sign : Text) : List Token → Except DatabaseError (Value × List Token)
  | t :: rest =>
    if t.kind = .number then .ok (⟨sign ++ t.text, t⟩, rest) else .error (unexpected (t :: rest))
  | [] => .error (unexpected [])

/-- Reads the value of a setting. -/
def readValue : List Token → Except DatabaseError (Value × List Token)
  | t :: rest =>
    if t.isSymbol "+" then readNumber [] rest
    else if t.isSymbol "-" then readNumber [0x2D] rest
    else if t.kind = .number ∨ t.isName ∨ ["on", "delete", "default"].any t.isWord then
      .ok (⟨t.meaning, t⟩, rest)
    else .error (unexpected (t :: rest))
  | [] => .error (unexpected [])

/-- Reads a symbol. -/
def readSymbol (symbol : String) : List Token → Except DatabaseError (List Token)
  | t :: rest => if t.isSymbol symbol then .ok rest else .error (unexpected (t :: rest))
  | [] => .error (unexpected [])

/-- Reads a word. -/
def readWord (word : String) : List Token → Except DatabaseError (List Token)
  | t :: rest => if t.isWord word then .ok rest else .error (unexpected (t :: rest))
  | [] => .error (unexpected [])

/-- Reads a setting, after its first word. -/
def readPragma (ts : List Token) : Except DatabaseError (Statement × List Token) := do
  let (name, rest) ← readQualified ts
  match rest with
  | t :: more =>
    if t.isSymbol "=" ∨ t.isSymbol "==" then
      let (value, rest) ← readValue more
      return (.pragma name (some value), rest)
    else if t.isSymbol "(" then
      let (value, rest) ← readValue more
      return (.pragma name (some value), ← readSymbol ")" rest)
    else return (.pragma name none, rest)
  | [] => return (.pragma name none, rest)

/-- Passes over the words that may stand after the start or the end of a transaction. -/
def skipTransaction : List Token → List Token
  | t :: rest =>
    if t.isWord "transaction" then
      match rest with
      | name :: more => if name.isName then more else rest
      | [] => rest
    else t :: rest
  | [] => []

/-- Reads the start of a transaction, after its first word. -/
def readBegin : List Token → Statement × List Token
  | t :: rest =>
    if t.isWord "deferred" then (.begin .none, skipTransaction rest)
    else if t.isWord "immediate" then (.begin .reserved, skipTransaction rest)
    else if t.isWord "exclusive" then (.begin .exclusive, skipTransaction rest)
    else (.begin .none, skipTransaction (t :: rest))
  | [] => (.begin .none, [])

/-- Passes over a statement that is not understood. -/
def skipStatement : List Token → Except DatabaseError (Statement × List Token)
  | [] => .ok (.other, [])
  | t :: rest =>
    if t.isSymbol ";" then .ok (.other, t :: rest)
    else if t.kind = .illegal then .error (unexpected (t :: rest))
    else skipStatement rest

/-- Reads the removal of something, after its first word. -/
def readDrop (ts : List Token) : Except DatabaseError (Statement × List Token) := do
  match ts with
  | t :: rest =>
    if t.isWord "table" then
      match rest with
      | i :: more =>
        if i.isWord "if" then
          let (table, rest) ← readQualified (← readWord "exists" more)
          return (.dropTable true table, rest)
        else
          let (table, rest) ← readQualified rest
          return (.dropTable false table, rest)
      | [] => throw (unexpected [])
    else if ["index", "view", "trigger"].any t.isWord then skipStatement rest
    else throw (unexpected ts)
  | [] => throw (unexpected [])

/-- Reads the removal of rows, after its first word. -/
def readDelete (ts : List Token) : Except DatabaseError (Statement × List Token) := do
  let (table, rest) ← readQualified (← readWord "from" ts)
  match rest with
  | w :: column :: equal :: text :: more =>
    if w.isWord "where" ∧ column.isWord "name" ∧ (equal.isSymbol "=" ∨ equal.isSymbol "==") ∧
        text.kind = .string ∧ more.head?.all (·.isSymbol ";") then
      return (.deleteRows table (some text.meaning), more)
    else if w.isSymbol ";" then return (.deleteRows table none, rest)
    else skipStatement rest
  | t :: _ => if t.isSymbol ";" then return (.deleteRows table none, rest) else skipStatement rest
  | [] => return (.deleteRows table none, rest)

/-- Reads a statement that starts with a token. -/
def readStatement (t : Token) (rest : List Token) :
    Except DatabaseError (Statement × List Token) :=
  if t.isWord "pragma" then readPragma rest
  else if t.isWord "begin" then .ok (readBegin rest)
  else if t.isWord "commit" ∨ t.isWord "end" then .ok (.commit, skipTransaction rest)
  else if t.isWord "rollback" then .ok (.rollback, skipTransaction rest)
  else if t.isWord "drop" then readDrop rest
  else if t.isWord "delete" then readDelete rest
  else if statementWords.any t.isWord then skipStatement rest
  else .error (unexpected (t :: rest))

/-- The first statement of some and the tokens after it; none if there is no statement. -/
def next? : List Token → Except DatabaseError (Option (Statement × List Token))
  | [] => .ok none
  | t :: rest =>
    if t.isSymbol ";" then next? rest
    else
      match readStatement t rest with
      | .error e => .error e
      | .ok (s, []) => .ok (some (s, []))
      | .ok (s, more@(t :: rest)) =>
        if t.isSymbol ";" then .ok (some (s, rest)) else .error (unexpected more)

end StackVm.Sql
