/-
A database in a file of its own, seen through the only hold on it.
-/
import Mathlib.Tactic.SplitIfs
import StackVm.Database.Connection
import StackVm.Proofs.FilePaths
import StackVm.Proofs.Stateful

namespace StackVm

namespace FileSystem

/-- A database can be in a file at a place, and its journal beside it. -/
structure IsDatabasePlace (place : Place) : Prop where
  onDisk : isInMemory place = false
  shortName : ((journalOf place).getLast?.getD []).length ≤ maxName

/-- The database at a place holds `p`, and nothing that matters is beside it. -/
structure Serves (fs : FileSystem) (place : Place) (p : Contents) : Prop where
  isPlace : IsDatabasePlace place
  node : fs.node? place = some (.database p) ∨ p = {} ∧ isBlank (fs.node? place) = true
  journal : isVacant (fs.node? (journalOf place)) = true
  log : isVacant (fs.node? (logOf place)) = true
  unlogged : p.isLogged = false

/-- The only hold on a database, through which no change has been begun. -/
def SoleHold (fs : FileSystem) (id : Nat) (place : Place) : Prop :=
  ∃ changes, fs.caches = [(id, { place, changes })]

variable {fs : FileSystem} {id : Nat} {place : Place} {p : Contents}

theorem SoleHold.cache (h : fs.SoleHold id place) :
    ∃ changes, fs.cache id = { place, changes } := by
  obtain ⟨changes, hcaches⟩ := h
  exact ⟨changes, by simp [FileSystem.cache, hcaches]⟩

theorem SoleHold.others (h : fs.SoleHold id place) : fs.others id = [] := by
  obtain ⟨changes, hcaches⟩ := h
  simp [FileSystem.others, hcaches]

theorem Serves.contentsOf (h : fs.Serves place p) (changes : Nat) :
    fs.contentsOf { place, changes } = .ok p := by
  rcases h.node with hnode | ⟨rfl, hblank⟩
  · simp [FileSystem.contentsOf, hnode]
  · cases hnode : fs.node? place with
    | none => simp [FileSystem.contentsOf, hnode]
    | some node =>
      rw [hnode] at hblank
      cases node with
      | file data => simp_all [FileSystem.contentsOf, isBlank]
      | _ => cases hblank

theorem settleJournal_eq (hold : fs.SoleHold id place) (h : fs.Serves place p) :
    settleJournal id fs = .ok () fs := by
  obtain ⟨changes, hcache⟩ := hold.cache
  simp only [settleJournal, bind_apply, get_apply, hcache]
  cases hnode : fs.node? (journalOf place) with
  | none => rfl
  | some node =>
    have hvacant := h.journal
    rw [hnode] at hvacant
    simp [hvacant, pure_apply]

theorem settleLog_eq (hold : fs.SoleHold id place) (h : fs.Serves place p) :
    settleLog id fs = .ok () fs := by
  obtain ⟨changes, hcache⟩ := hold.cache
  simp [settleLog, bind_apply, get_apply, hcache, h.log, pure_apply]

theorem keepLock_eq (hold : fs.SoleHold id place) (a b : Lock) :
    keepLock id a b fs = .ok () fs := by
  obtain ⟨changes, hcache⟩ := hold.cache
  simp [keepLock, modify_apply, hcache]

theorem Serves.looksBeside (h : fs.Serves place p) (changes : Nat) :
    FileSystem.looksBeside { place, changes } = true := by
  simp [FileSystem.looksBeside, h.isPlace.onDisk]

/-- A look shows what the database holds and changes nothing. -/
theorem look_eq (hold : fs.SoleHold id place) (h : fs.Serves place p) :
    look id fs = .ok p fs := by
  obtain ⟨changes, hcache⟩ := hold.cache
  simp [look, bind_apply, get_apply, hcache, hold.others, h.looksBeside,
    settleJournal_eq hold h, settleLog_eq hold h, h.contentsOf, h.unlogged, keepLock_eq hold,
    pure_apply, -bind_pure_comp]

theorem readContents_eq (hold : fs.SoleHold id place) (h : fs.Serves place p) :
    readContents id fs = .ok p fs := by
  simp [readContents, bind_apply, look_eq hold h, keepLock_eq hold, pure_apply, -bind_pure_comp]

/-- No foreign file is where a database or next to nothing is. -/
theorem Serves.isForeign_eq (h : fs.Serves place p) (f : Text → Bool) :
    isForeign f (fs.node? place) = false := by
  rcases h.node with hnode | ⟨-, hblank⟩
  · rw [hnode]
    rfl
  · cases hnode : fs.node? place with
    | none => rfl
    | some node =>
      rw [hnode] at hblank
      cases node with
      | file data => simp_all [isForeign, isBlank]
      | _ => rfl

theorem claim_eq (hold : fs.SoleHold id place) (h : fs.Serves place p) :
    claim id fs = .ok p fs := by
  obtain ⟨changes, hcache⟩ := hold.cache
  simp [claim, bind_apply, get_apply, hcache, hold.others, look_eq hold h, h.isForeign_eq,
    isLogStuck, keepLock_eq hold, pure_apply, -bind_pure_comp]

theorem exclude_eq (hold : fs.SoleHold id place) : exclude id fs = .ok () fs := by
  simp [exclude, bind_apply, get_apply, hold.others, pure_apply, -bind_pure_comp]

theorem leave_eq (hold : fs.SoleHold id place) : leave id fs = .ok () fs := by
  obtain ⟨changes, hcache⟩ := hold.cache
  simp [leave, bind_apply, get_apply, hcache, exclude_eq hold, keepLock_eq hold, -bind_pure_comp]

/-! ### Changes -/

/-- The most pages that a database may have. -/
def mostPages : Nat := 0xFFFFFFFE

/-- The file system after a database in a file has been changed. -/
def rewritten (fs : FileSystem) (place : Place) (p : Contents) : FileSystem :=
  (fs.clear (journalOf place)).setNode place (.database p)

theorem caches_clear (fs : FileSystem) (place : Place) : (fs.clear place).caches = fs.caches := by
  rw [clear]
  split <;> rfl

theorem cwd_clear (fs : FileSystem) (place : Place) : (fs.clear place).cwd = fs.cwd := by
  rw [clear]
  split <;> rfl

theorem node?_clear_of_ne {q : Place} (h : q ≠ place) : (fs.clear place).node? q = fs.node? q := by
  rw [clear]
  split
  · exact node?_removeNode_of_ne h
  · rfl

theorem node?_clear_self (h : place ≠ []) : (fs.clear place).node? place = none := by
  rw [clear]
  split
  · exact node?_removeNode_self h
  · next hnone => exact Option.not_isSome_iff_eq_none.1 hnone

theorem SoleHold.rewritten (hold : fs.SoleHold id place) (p : Contents) :
    (fs.rewritten place p).SoleHold id place := by
  obtain ⟨changes, hcaches⟩ := hold
  exact ⟨changes, (caches_clear fs _).trans hcaches⟩

theorem openJournal_eq (hold : fs.SoleHold id place) (h : fs.Serves place p) :
    openJournal id fs = .ok () fs := by
  obtain ⟨changes, hcache⟩ := hold.cache
  have hfile : fs.node? (journalOf place) ≠ some .directory := by
    intro hdir
    have hvacant := h.journal
    rw [hdir] at hvacant
    cases hvacant
  have hshort := Nat.not_lt.2 h.isPlace.shortName
  simp only [openJournal, bind_apply, get_apply, hcache, hshort, hfile, or_false, and_false,
    if_false, pure_apply]

theorem write_eq (hold : fs.SoleHold id place) (h : fs.Serves place p) (p' : Contents) :
    write id p' fs = .ok () (fs.rewritten place p') := by
  obtain ⟨changes, hcache⟩ := hold.cache
  have hjournal : usesJournal { place, changes } = true := by
    simp [usesJournal, Journal.isFile, h.isPlace.onDisk]
  have hwritten : leaveJournal fs { place, changes } = fs.clear (journalOf place) := by
    simp [leaveJournal, hjournal]
  have hkeep := keepLock_eq (hold.rewritten p') .exclusive .exclusive
  rw [rewritten] at hkeep
  simp [write, bind_apply, get_apply, hcache, exclude_eq hold, modify_apply, openJournal_eq hold h,
    hwritten, hkeep, rewritten, -bind_pure_comp]

/-- A database with room for a change is changed at once. -/
theorem change_eq (hold : fs.SoleHold id place) (h : fs.Serves place p) (p' : Contents) :
    change id p' fs =
      if mostPages < p'.pages then .error .full fs else .ok () (fs.rewritten place p') := by
  obtain ⟨changes, hcache⟩ := hold.cache
  by_cases hfull : mostPages < p'.pages
  · rw [if_pos hfull]
    rw [mostPages] at hfull
    simp [change, bind_apply, get_apply, hcache, hfull, throw_apply]
  · rw [if_neg hfull]
    rw [mostPages] at hfull
    simp [change, bind_apply, get_apply, hcache, hfull, write_eq hold h, -bind_pure_comp]

/-! ### The places beside a database -/

theorem beside_ne {ending : Text} (h : ending ≠ []) : beside place ending ≠ place := by
  intro heq
  have hlast := congrArg List.getLast? heq
  cases hplace : List.getLast? place with
  | none => simp [beside, hplace] at hlast
  | some last => simp [beside, hplace, h] at hlast

theorem beside_injective {ending other : Text} (h : beside place ending = beside place other) :
    ending = other := by
  simpa [beside] using h

theorem journalOf_ne : journalOf place ≠ place := beside_ne (by decide)

theorem logOf_ne : logOf place ≠ place := beside_ne (by decide)

theorem logOf_ne_journalOf : logOf place ≠ journalOf place := by
  intro heq
  have hending := beside_injective heq
  revert hending
  decide

theorem Serves.ne_root (h : fs.Serves place p) : place ≠ [] := by
  apply @ne_root_of_node? fs
  intro hdir
  rcases h.node with hnode | ⟨-, hblank⟩
  · rw [hdir] at hnode
    cases hnode
  · rw [hdir] at hblank
    cases hblank

theorem Serves.rewritten (h : fs.Serves place p) {p' : Contents} (hunlogged : p'.isLogged = false) :
    (fs.rewritten place p').Serves place p' where
  isPlace := h.isPlace
  node := Or.inl (node?_setNode_self h.ne_root)
  journal := by
    have hroot : journalOf place ≠ [] := by simp [journalOf, beside]
    rw [FileSystem.rewritten, node?_setNode_of_ne journalOf_ne, node?_clear_self hroot]
    rfl
  log := by
    rw [FileSystem.rewritten, node?_setNode_of_ne logOf_ne, node?_clear_of_ne logOf_ne_journalOf]
    exact h.log
  unlogged := hunlogged

/-- What matters to a database is at three places. -/
theorem Serves.congr {fs' : FileSystem} (h : fs.Serves place p)
    (hsame : ∀ q ∈ [place, journalOf place, logOf place], fs'.node? q = fs.node? q) :
    fs'.Serves place p := by
  obtain ⟨hnode, hjournal, hlog⟩ : fs'.node? place = fs.node? place ∧
      fs'.node? (journalOf place) = fs.node? (journalOf place) ∧
      fs'.node? (logOf place) = fs.node? (logOf place) := by
    simpa using hsame
  exact ⟨h.isPlace, hnode ▸ h.node, hjournal ▸ h.journal, hlog ▸ h.log, h.unlogged⟩

end FileSystem

/-! ### Rows -/

theorem findRow_insertRow (before : Text → Text → Bool) (row : Row) (rows : List Row) (m : Text) :
    findRow m (insertRow before row rows) =
      if m = row.name then some row else findRow m rows := by
  induction rows with
  | nil =>
    by_cases hm : m = row.name
    · simp [insertRow, findRow, hm]
    · simp [insertRow, findRow, hm, Ne.symm hm]
  | cons r rest ih =>
    rw [findRow] at ih
    rw [insertRow, findRow, findRow]
    by_cases hm : m = row.name
    · rw [if_pos hm] at ih ⊢
      split_ifs with hsame
      · simp [hm]
      · simp [hm]
      · have hne : r.name ≠ m := fun heq => hsame (heq.trans hm)
        rw [List.find?_cons_of_neg (by simpa using hne), ih]
    · rw [if_neg hm] at ih ⊢
      split_ifs with hsame
      · have hne : row.name ≠ m := Ne.symm hm
        have hne' : r.name ≠ m := hsame ▸ hne
        simp [hne, hne']
      · simp [Ne.symm hm]
      · rw [List.find?_cons, List.find?_cons, ih, findRow]

theorem findRow_filter_ne (rows : List Row) (name m : Text) :
    findRow m (rows.filter (·.name ≠ name)) = if m = name then none else findRow m rows := by
  rw [findRow, List.find?_filter, findRow]
  by_cases hm : m = name
  · rw [if_pos hm, List.find?_eq_none]
    intro row _
    simp [hm]
  · rw [if_neg hm]
    congr 1
    funext row
    by_cases hrow : row.name = m
    · simp [hrow, hm]
    · simp [hrow]

namespace Contents

variable {p : Contents}

/-- Names are the bytes they are. -/
def InUtf8 (p : Contents) : Prop := p.writing = .utf8

theorem InUtf8.kept (h : p.InUtf8) (name : Text) : p.writing.kept name = name := by
  rw [h]
  rfl

/-- A database in UTF-8 is a map from names to rows. -/
theorem InUtf8.find_put (h : p.InUtf8) (name digest data : Text) (updated : Nat) (m : Text) :
    (p.put name digest data updated).find m =
      if m = name then some ⟨name, digest, data, updated, nextNumber p.rows⟩ else p.find m := by
  have hput : (p.put name digest data updated).writing = p.writing := rfl
  rw [find, find, hput, h.kept, put, h.kept, findRow_insertRow]

theorem InUtf8.find_erase (h : p.InUtf8) (name m : Text) :
    (p.erase name).find m = if m = name then none else p.find m := by
  have herase : (p.erase name).writing = p.writing := rfl
  rw [find, find, herase, h.kept, erase, h.kept, findRow_filter_ne]

/-! ### Pages -/

theorem numberBytes_le (n : Nat) : numberBytes n ≤ 5 := by
  rw [numberBytes]
  split_ifs <;> omega

theorem pages_entryOf_le (pageSize most size : Nat) :
    (entryOf pageSize most size).pages ≤ size + pageSize := by
  rw [entryOf]
  split_ifs
  · exact Nat.zero_le _
  · apply Nat.le_trans (Nat.div_le_self _ _)
    omega

theorem pagesOf_singleton_le (pageSize : Nat) (e : Entry) : pagesOf pageSize [e] ≤ 3 + e.pages := by
  simp only [pagesOf, List.foldl_cons, List.foldl_nil, fill]
  split_ifs <;> simp_all

/-- The bytes that a row has. -/
def rowBytes (p : Contents) (row : Row) : Nat :=
  p.textBytes row.name + p.textBytes row.digest + row.data.length

theorem rowNumberBytes_le (n : Nat) : rowNumberBytes n ≤ 4 := by
  rw [rowNumberBytes]
  split_ifs <;> omega

theorem pages_tableEntry_le (p : Contents) (row : Row) :
    (p.tableEntry row).pages ≤ p.rowBytes row + p.pageSize + 25 := by
  have hname := numberBytes_le (13 + 2 * p.textBytes row.name)
  have hdigest := numberBytes_le (13 + 2 * p.textBytes row.digest)
  have hdata := numberBytes_le (12 + 2 * row.data.length)
  rw [tableEntry, rowBytes]
  apply Nat.le_trans (pages_entryOf_le _ _ _)
  omega

theorem pages_nameEntry_le (p : Contents) (row : Row) :
    (p.nameEntry row).pages ≤ p.textBytes row.name + p.pageSize + 11 := by
  have hname := numberBytes_le (13 + 2 * p.textBytes row.name)
  have hnumber := rowNumberBytes_le row.number
  rw [nameEntry]
  apply Nat.le_trans (pages_entryOf_le _ _ _)
  omega

/-- A database with a single row takes no more pages than the row has bytes, or hardly. -/
theorem pages_singleton_le {p : Contents} {row : Row} (hrows : p.rows = [row]) :
    p.pages ≤ 2 * (p.rowBytes row + p.pageSize) + 44 := by
  have htable := pagesOf_singleton_le p.pageSize (p.tableEntry row)
  have hnames := pagesOf_singleton_le p.pageSize (p.nameEntry row)
  have htableEntry := p.pages_tableEntry_le row
  have hnameEntry := p.pages_nameEntry_le row
  have hname : p.textBytes row.name ≤ p.rowBytes row := by
    rw [rowBytes]
    omega
  simp only [pages, hrows, List.mergeSort_singleton, List.map_cons, List.map_nil]
  split_ifs <;> omega

end Contents

end StackVm
