/-
How statements are carried out: settings, transactions and the removal of tables and rows.
-/
import StackVm.Database.Connection
import StackVm.Database.Setting
import StackVm.Database.Statement

namespace StackVm.Connection

open FileSystem

/-- The tables that every database has. -/
def standardTables : List String := ["sqlite_master", "sqlite_schema"]

/-- Whether a name is that of a table that every database has. -/
def isStandard (name : Text) : Bool := standardTables.any (Text.ofString · = lowered name)

/-- The name of the database that a connection was opened for. -/
def mainName : Text := "main"

/-- The name of the database that each connection has for itself. -/
def ownName : Text := "temp"

/-- Whether a name is that of the table of images. -/
def isTable (p : Contents) (schema : Option Text) (name : Text) : Bool :=
  p.hasTable && lowered name = tableName && schema.all (lowered · = mainName)

/-- Makes changes go to a log. -/
def startLog (c : Connection) : DatabaseM Unit := do
  let h := (← get).cache c.cache
  if looksBeside h ∧ h.canLog ∧ !h.usesLog then
    if h.transaction.isSome then
      throw (.logic "cannot change into wal mode from within a transaction")
    let p ← FileSystem.claim c.cache
    write c.cache { p with isLogged := true }

/-- Makes changes go to the file of the database. -/
def stopLog (c : Connection) (journal : Journal) : DatabaseM Unit := do
  let fs ← get
  let h := fs.cache c.cache
  if h.transaction.isSome then
    throw (.logic "cannot change out of wal mode from within a transaction")
  if (fs.others c.cache).any (·.usesLog) then throw .locked
  if h.isReadOnly then throw .unlockable
  let fs := (fs.carryOver h.place).setCache c.cache { h with usesLog := false, journal }
  set fs
  match fs.node? h.place with
  | some (.database p) => if p.isLogged then write c.cache { p with isLogged := false }
  | _ => return

/-- Sets how changes can be undone. -/
def setJournal (c : Connection) (journal : Journal) : DatabaseM Unit := do
  let h := (← get).cache c.cache
  if looksBeside h then
    if h.usesLog then c.stopLog journal
    else
      if h.journal.isFile ∧ h.journal ≠ .delete ∧ (journal = .delete ∨ !journal.isFile) then
        modify fun fs =>
          let place := FileSystem.journalOf h.place
          if fs.node? place = some .directory then fs else fs.clear place
      c.adjust fun h => { h with journal }

/-- Sets whether free pages are given back.  That is settled once there is a database. -/
def setCompact (c : Connection) (isCompact : Bool) : DatabaseM Unit := do
  let fs ← get
  let h := fs.cache c.cache
  let blank := isBlank (fs.node? h.place)
  let held := (fs.contentsOf h).toOption.any (·.isCompact)
  if blank then c.adjust fun h => { h with isCompact }
  if isCompact ∧ (blank ∨ held) then c.update id

/-- Sets the most pages that the database may have; it may keep those it has. -/
def setMaxPages (c : Connection) (n : Nat) : DatabaseM Unit := do
  let fs ← get
  let h := fs.cache c.cache
  let used :=
    if isBlank (fs.node? h.place) then 0
    else ((fs.contentsOf h).toOption.map (·.pages)).getD 0
  c.adjust fun h => { h with maxPages := max used (min n 0xFFFFFFFE) }

/-- Fails if a table to be checked is not there. -/
def checkTable (c : Connection) (schema : Option Text) (table : Text) : DatabaseM Unit := do
  let p ← look c.cache
  if !isTable p schema table ∧ !isStandard table then noTable schema table

/-- Sees to it that a database that is about to be changed has a page. -/
def claimPage (c : Connection) : DatabaseM Unit := do
  if c.isQueryOnly then throw .readOnly
  FileSystem.claimPage c.cache

/-- Carries the log over, which cannot be done in a transaction that reads. -/
def checkpoint (c : Connection) : DatabaseM Unit := do
  let h := (← get).cache c.cache
  if h.transaction.isSome ∧ h.lock ≠ .none then throw .lockedTable

/-- Gives a setting of the database a value. -/
def setMain (c : Connection) (setting : Setting) (value : Text) : DatabaseM Unit := do
  match setting with
  | .pageSize =>
    let n := (Setting.integer value).toNat
    if Foreign.isPageSize n then c.adjust fun h => { h with pageSize := n }
  | .lockingMode =>
    if lowered value = "exclusive" then c.adjust fun h => { h with keepsLock := true }
    else if lowered value = "normal" then c.adjust fun h => { h with keepsLock := false }
  | .journalMode =>
    match Setting.journal? (lowered value) with
    | some (some journal) => c.setJournal journal
    | some none => c.startLog
    | none => return
  | .autoVacuum => c.setCompact (Setting.meansCompact value)
  | .maxPageCount =>
    match Setting.whole? value with
    | none | some 0 => return
    | some n => c.setMaxPages n
  | .keptNumber | .keptSize => c.update id
  | _ => return

/-- Gives a setting a value.  `isMain` says whether it is one of the database that the
connection was opened for. -/
def assign (c : Connection) (setting : Setting) (schema : Option Text) (isMain : Bool)
    (value : Sql.Value) : DatabaseM Connection := do
  match setting with
  | .queryOnly => return { c with isQueryOnly := Setting.meansYes value.text }
  | .countChanges => return { c with givesCount := Setting.meansYes value.text }
  | .encoding =>
    if c.isSettled then return c
    match Encoding.ofName? value.text with
    | some encoding => return { c with encoding }
    | none => throw (.logic ("unsupported encoding: " ++ value.text))
  | .synchronous =>
    if ((← get).cache c.cache).transaction.isSome then
      throw (.logic "Safety level may not be changed inside a transaction")
  | .temporaryDirectory =>
    if value.text ≠ [] ∧ !((← get).stat value.text).toBool then
      throw (.logic "not a writable directory")
  | .foreignKeyCheck => c.checkTable schema value.text
  | .check =>
    if (Setting.integer? value.token.text).isNone then c.checkTable schema value.text
  | _ =>
    if isMain then c.setMain setting value.text
    else if c.isQueryOnly ∧ setting = .keptNumber then throw .readOnly
  return c

/-- Carries out a setting. -/
def set (c : Connection) (name : Sql.Name) (value : Option Sql.Value) : DatabaseM Connection := do
  let schema := name.schema.map (lowered ·.meaning)
  let isMain := schema.all (· = mainName)
  if !isMain ∧ schema ≠ some ownName then
    throw (.logic ("unknown database " ++ (name.schema.map (·.text)).getD []))
  let setting := Setting.ofName (lowered name.token.meaning)
  let c ← if setting.sees value.isSome then pure (← c.see).1 else pure c
  if isMain then
    if setting.reads value.isSome then
      let _ ← readContents c.cache
    if setting = .incrementalVacuum then c.claimPage
    if setting = .checkpoint then c.checkpoint
  match value with
  | none => return c
  | some value => c.assign setting schema isMain value

/-- Starts a transaction. -/
def start (c : Connection) (lock : Lock) : DatabaseM Unit := do
  let h := (← get).cache c.cache
  if h.transaction.isSome then
    throw (.logic "cannot start a transaction within a transaction")
  if lock = .none then c.adjust fun h => { h with transaction := some {} }
  else if h.isReadOnly ∧ !c.isQueryOnly then
    c.adjust fun h => { h with transaction := some {} }
    let _ ← readContents c.cache
  else
    let _ ← c.claim
    let fs ← get
    let usesLog := (fs.cache c.cache).usesLog
    if lock = .exclusive ∧ !usesLog ∧ (fs.others c.cache).any (0 < ·.lock.strength) then
      throw .locked
    let lock := if usesLog then .reserved else lock
    c.adjust fun h => { h with transaction := some {}, lock := h.lock.max lock }
    c.claimPage

/-- Completes the transaction. -/
def finish (c : Connection) : DatabaseM Unit := do
  let h := (← get).cache c.cache
  match h.transaction with
  | none => throw (.logic "cannot commit - no transaction is active")
  | some t =>
    modify (endTransaction · c.cache)
    match t.contents with
    | some p => write c.cache p
    | none => if 1 < h.lock.strength then exclude c.cache

/-- Gives up the transaction. -/
def undo (c : Connection) : DatabaseM Unit := do
  match ((← get).cache c.cache).transaction with
  | none => throw (.logic "cannot rollback - no transaction is active")
  | some _ => modify (endTransaction · c.cache)

/-- Removes a table. -/
def drop (c : Connection) (ifExists : Bool) (table : Sql.Name) : DatabaseM Connection := do
  let (c, p) ← c.see
  let name := table.token.meaning
  let schema := table.schema.map (·.meaning)
  if isTable p schema name then c.update Contents.dropTable
  else if isStandard name then
    throw (.logic ("table " ++ name ++ " may not be dropped"))
  else if ifExists then
    let _ ← readContents c.cache
  else noTable schema name
  return c

/-- Removes rows of a table. -/
def delete (c : Connection) (table : Sql.Name) (name : Option Text) : DatabaseM Connection := do
  let (c, p) ← c.see
  let schema := table.schema.map (·.meaning)
  if isTable p schema table.token.meaning then
    let _ ← c.remove name
  else noTable schema table.token.meaning
  return c

/-- Carries out a statement. -/
def run (c : Connection) : Sql.Statement → DatabaseM Connection
  | .pragma name value => c.set name value
  | .begin lock => do c.start lock; return c
  | .commit => do c.finish; return c
  | .rollback => do c.undo; return c
  | .dropTable ifExists table => c.drop ifExists table
  | .deleteRows table name => c.delete table name
  | .other => return c

/-- Carries out statements one after another, each before the next is read. -/
def runAll (c : Connection) : (fuel : Nat) → List Sql.Token → DatabaseM Connection
  | 0, _ => return c
  | fuel + 1, tokens => do
    match Sql.next? tokens with
    | .error e => throw e
    | .ok none => return c
    | .ok (some (s, rest)) => runAll (← c.run s) fuel rest

/-- Carries out the statements of a text, which a zero byte ends. -/
def execute (c : Connection) (t : Text) : DatabaseM Connection :=
  let tokens := Sql.tokens (Text.cut 0 t).1
  c.runAll (tokens.length + 1) tokens

end StackVm.Connection
