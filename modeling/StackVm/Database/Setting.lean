/-
The settings of a connection: their names, what has the database read for them, and what
their values mean.
-/
import StackVm.Database.Cache
import StackVm.Database.Token

namespace StackVm

/-- A setting of a connection. -/
inductive Setting where
  /-- Whether nothing may be written. -/
  | queryOnly
  /-- Whether a change gives the number of rows it touched as a row. -/
  | countChanges
  | encoding
  | synchronous
  | temporaryDirectory
  | foreignKeyCheck
  /-- A check of all tables or one. -/
  | check
  | pageSize
  | lockingMode
  | journalMode
  | autoVacuum
  | incrementalVacuum
  | maxPageCount
  | pageCount
  /-- The log is carried over. -/
  | checkpoint
  /-- A number that is kept in the database. -/
  | keptNumber
  /-- A number that is kept in the database and looked at before it is set. -/
  | keptSize
  /-- A number that can only be asked for. -/
  | askedNumber
  /-- The columns of a table. -/
  | columns
  /-- Another setting for which the list of tables is read. -/
  | listed
  /-- Any other setting, known or not: it changes nothing here. -/
  | other
  deriving DecidableEq, Repr

namespace Setting

/-- The settings by their names. -/
def names : List (String × Setting) :=
  [("query_only", .queryOnly), ("count_changes", .countChanges), ("encoding", .encoding),
   ("synchronous", .synchronous), ("temp_store_directory", .temporaryDirectory),
   ("foreign_key_check", .foreignKeyCheck), ("integrity_check", .check), ("quick_check", .check),
   ("page_size", .pageSize), ("locking_mode", .lockingMode), ("journal_mode", .journalMode),
   ("auto_vacuum", .autoVacuum), ("incremental_vacuum", .incrementalVacuum),
   ("max_page_count", .maxPageCount), ("page_count", .pageCount), ("wal_checkpoint", .checkpoint),
   ("application_id", .keptNumber), ("schema_version", .keptNumber),
   ("user_version", .keptNumber), ("default_cache_size", .keptSize),
   ("data_version", .askedNumber), ("freelist_count", .askedNumber), ("table_info", .columns),
   ("table_xinfo", .columns), ("cache_size", .listed), ("foreign_key_list", .listed),
   ("index_info", .listed), ("index_list", .listed), ("index_xinfo", .listed),
   ("optimize", .listed), ("table_list", .listed)]

/-- The setting of a name in small letters. -/
def ofName (name : Text) : Setting :=
  ((names.find? fun (n, _) => Text.ofString n = name).map (·.2)).getD .other

/-- Whether the list of tables is read for a setting. -/
def sees (s : Setting) (hasValue : Bool) : Bool :=
  match s with
  | .encoding => !hasValue
  | .synchronous | .foreignKeyCheck | .check | .journalMode | .autoVacuum | .incrementalVacuum
  | .maxPageCount | .pageCount | .checkpoint | .keptSize | .columns | .listed => true
  | _ => false

/-- Whether the database is read for a setting, and not only the list of tables. -/
def reads (s : Setting) (hasValue : Bool) : Bool :=
  match s with
  | .check | .maxPageCount | .pageCount | .keptSize | .askedNumber => true
  | .keptNumber => !hasValue
  | .columns => hasValue
  | _ => false

/-- The number that hexadecimal digits write. -/
def hexNumber (digits : Text) : Nat :=
  digits.foldl (fun n b =>
    n * 16 + (if Sql.isDigit b then b.toNat - 0x30 else b.toNat % 32 + 9)) 0

/-- The number that decimal digits write. -/
def decimalNumber (digits : Text) : Nat := digits.foldl (fun n b => n * 10 + (b.toNat - 0x30)) 0

/-- The largest number of four bytes with a sign. -/
def maxInteger : Nat := 0x7FFFFFFF

/-- The digits of a number without zeros in front. -/
def significant (p : UInt8 → Bool) (t : Text) : Text :=
  ((t.dropWhile (· = 0x30)).takeWhile p)

/-- The decimal number at the start of a text, if it fits into four bytes. -/
def decimal? (negative : Bool) (t : Text) : Option Int :=
  let digits := significant Sql.isDigit t
  let n := decimalNumber (digits.take 11)
  let most := if negative then maxInteger + 1 else maxInteger
  if !t.head?.any Sql.isDigit ∨ 10 < digits.length ∨ most < n then none
  else some (if negative then -(n : Int) else n)

/-- The number at the start of a text, if it fits into four bytes. -/
def integer? (t : Text) : Option Int :=
  match t with
  | 0x2D :: t => decimal? true t
  | 0x2B :: t => decimal? false t
  | 0x30 :: x :: d :: rest =>
    if (x = 0x78 ∨ x = 0x58) ∧ Sql.isHexDigit d then
      let digits := significant Sql.isHexDigit (d :: rest)
      let n := hexNumber (digits.take 9)
      if 8 < digits.length ∨ maxInteger < n then none else some n
    else decimal? false t
  | _ => decimal? false t

/-- The number at the start of a text; zero if there is none. -/
def integer (t : Text) : Int := (integer? t).getD 0

/-- Whether a text means yes.  Of a number only the lowest byte counts. -/
def meansYes (t : Text) : Bool :=
  if t.head?.any Sql.isDigit then integer t % 256 ≠ 0
  else
    let word := t.map Text.lowerByte
    word = "on" ∨ word = "yes" ∨ word = "true"

/-- The whole number that a text writes and nothing else. -/
def whole? (t : Text) : Option Nat :=
  let t := t.dropWhile Sql.isBlank
  let digits := if t.head? = some 0x2B then t.drop 1 else t
  if digits ≠ [] ∧ digits.all Sql.isDigit then some (decimalNumber digits)
  else
    match t with
    | 0x30 :: x :: d :: rest =>
      if (x = 0x78 ∨ x = 0x58) ∧ (d :: rest).all Sql.isHexDigit then
        some (hexNumber (d :: rest))
      else none
    | _ => none

/-- The ways to undo changes, in the order in which their names are tried; the last
stands for a log. -/
def journals : List (String × Option Journal) :=
  [("delete", some .delete), ("persist", some .persist), ("off", some .off),
   ("truncate", some .truncate), ("memory", some .memory), ("wal", none)]

/-- The way to undo changes that a text in small letters or its start stands for. -/
def journal? (t : Text) : Option (Option Journal) :=
  (journals.find? fun (name, _) => (Text.after? t name).isSome).map (·.2)

/-- Whether free pages are given back. -/
def meansCompact (t : Text) : Bool :=
  let word := t.map Text.lowerByte
  word = "full" || word = "incremental" || integer t = 1 || integer t = 2

end Setting

end StackVm
