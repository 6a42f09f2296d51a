/-
What the operations of an open store do to the table of its database: the store is a map from
names to images.
-/
import StackVm.Proofs.StoreTable
import StackVm.Store

namespace StackVm

namespace FileSystem

variable {fs fs' fs₁ : FileSystem} {id : Nat} {place : Place} {p : Contents} {places : List Place}

/-- At most what is at some places has changed. -/
structure Only (fs fs' : FileSystem) (places : List Place) : Prop where
  cwd : fs'.cwd = fs.cwd
  node : ∀ q, q ∉ places → fs'.node? q = fs.node? q

theorem Only.refl (fs : FileSystem) (places : List Place) : fs.Only fs places :=
  ⟨rfl, fun _ _ => rfl⟩

theorem Only.trans (h : fs.Only fs₁ places) (h' : fs₁.Only fs' places) : fs.Only fs' places :=
  ⟨h'.cwd.trans h.cwd, fun q hq => (h'.node q hq).trans (h.node q hq)⟩

theorem Only.symm (h : fs.Only fs' places) : fs'.Only fs places :=
  ⟨h.cwd.symm, fun q hq => (h.node q hq).symm⟩

theorem Only.mono {more : List Place} (h : fs.Only fs' places) (hsub : places ⊆ more) :
    fs.Only fs' more :=
  ⟨h.cwd, fun q hq => h.node q fun hmem => hq (hsub hmem)⟩

/-- Directories stay where there was none among the changed places. -/
theorem Only.widens (h : fs.Only fs' places)
    (hfiles : ∀ q ∈ places, fs.node? q ≠ some .directory) : fs.Widens fs' := by
  refine ⟨h.cwd, ?_⟩
  intro q hq
  rw [h.node q fun hmem => hfiles q hmem hq, hq]

/-- The places that a change of a database in a file touches. -/
def touched (place : Place) : List Place := [place, journalOf place]

theorem only_rewritten (fs : FileSystem) (place : Place) (p : Contents) :
    fs.Only (fs.rewritten place p) (touched place) := by
  refine ⟨cwd_clear fs _, ?_⟩
  intro q hq
  obtain ⟨hplace, hjournal⟩ : q ≠ place ∧ q ≠ journalOf place := by simpa [touched] using hq
  rw [rewritten, node?_setNode_of_ne hplace, node?_clear_of_ne hjournal]

theorem Serves.files (h : fs.Serves place p) :
    ∀ q ∈ touched place, fs.node? q ≠ some .directory := by
  intro q hq hdir
  have hcases : q = place ∨ q = journalOf place := by simpa [touched] using hq
  rcases hcases with rfl | rfl
  · rcases h.node with hnode | ⟨-, hblank⟩
    · rw [hdir] at hnode
      cases hnode
    · rw [hdir] at hblank
      cases hblank
  · have hvacant := h.journal
    rw [hdir] at hvacant
    cases hvacant

/-- The file system after a change that touched a number of rows. -/
def saved (fs : FileSystem) (id : Nat) (place : Place) (p : Contents) (changes : Nat) :
    FileSystem :=
  (fs.rewritten place p).setCache id { place, changes }

theorem SoleHold.setCache (hold : fs.SoleHold id place) (changes : Nat) :
    (fs.setCache id { place, changes }).SoleHold id place := by
  obtain ⟨before, hcaches⟩ := hold
  exact ⟨changes, by simp [FileSystem.setCache, hcaches]⟩

theorem SoleHold.saved (hold : fs.SoleHold id place) (p : Contents) (changes : Nat) :
    (fs.saved id place p changes).SoleHold id place :=
  (hold.rewritten p).setCache changes

theorem Serves.saved (h : fs.Serves place p) {p' : Contents} (hunlogged : p'.isLogged = false)
    (changes : Nat) : (fs.saved id place p' changes).Serves place p' :=
  (h.rewritten hunlogged).congr fun _ _ => rfl

theorem only_saved (fs : FileSystem) (id : Nat) (place : Place) (p : Contents) (changes : Nat) :
    fs.Only (fs.saved id place p changes) (touched place) :=
  ⟨(only_rewritten fs place p).cwd, (only_rewritten fs place p).node⟩

end FileSystem

namespace Connection

open FileSystem

variable {fs : FileSystem} {id : Nat} {place : Place} {p : Contents}

theorem claim_eq (hold : fs.SoleHold id place) (h : fs.Serves place p) :
    Connection.claim { cache := id } fs = .ok p fs := by
  simp [Connection.claim, FileSystem.claim_eq hold h]

theorem withTable_eq (h : p.hasTable = true) : withTable p fs = .ok p fs := by
  simp [withTable, h, pure_apply]

theorem report_eq (hold : fs.SoleHold id place) (touched : Nat) :
    report { cache := id } touched fs =
      .ok touched (fs.setCache id { place, changes := touched }) := by
  obtain ⟨changes, hcache⟩ := hold.cache
  simp [report, adjust, bind_apply, get_apply, modify_apply, hcache, pure_apply, -bind_pure_comp]

theorem put_eq (hold : fs.SoleHold id place) (h : fs.Serves place p) (htable : p.hasTable = true)
    (name digest data : Text) (updated : Nat) :
    Connection.put { cache := id } name digest data updated fs =
      if mostPages < (p.put name digest data updated).pages then .error .full fs
      else .ok () (fs.saved id place (p.put name digest data updated) 1) := by
  have hreport := report_eq (hold.rewritten (p.put name digest data updated)) 1
  simp only [Connection.put, bind_apply, claim_eq hold h, withTable_eq htable,
    change_eq hold h (p.put name digest data updated)]
  split_ifs
  · rfl
  · simp only [hreport, pure_apply, saved]

theorem find_eq (hold : fs.SoleHold id place) (h : fs.Serves place p) (htable : p.hasTable = true)
    (name : Text) : Connection.find { cache := id } name fs = .ok (p.find name) fs := by
  obtain ⟨changes, hcache⟩ := hold.cache
  simp [Connection.find, bind_apply, get_apply, readContents_eq hold h, withTable_eq htable, hcache,
    pure_apply, -bind_pure_comp]

theorem rows_eq (hold : fs.SoleHold id place) (h : fs.Serves place p) (htable : p.hasTable = true) :
    Connection.rows { cache := id } fs = .ok p.rows fs := by
  obtain ⟨changes, hcache⟩ := hold.cache
  simp [Connection.rows, bind_apply, get_apply, readContents_eq hold h, withTable_eq htable, hcache,
    pure_apply, -bind_pure_comp]

theorem remove_eq (hold : fs.SoleHold id place) (h : fs.Serves place p) (htable : p.hasTable = true)
    (name : Text) :
    Connection.remove { cache := id } (some name) fs =
      if (p.erase name).rows.length < p.rows.length then
        if mostPages < (p.erase name).pages then .error .full fs
        else
          .ok (p.rows.length - (p.erase name).rows.length)
            (fs.saved id place (p.erase name) (p.rows.length - (p.erase name).rows.length))
      else
        .ok (p.rows.length - (p.erase name).rows.length)
          (fs.setCache id { place, changes := p.rows.length - (p.erase name).rows.length }) := by
  have hreport := report_eq (hold.rewritten (p.erase name))
    (p.rows.length - (p.erase name).rows.length)
  have hreport' := report_eq hold (p.rows.length - (p.erase name).rows.length)
  simp only [Connection.remove, bind_apply, claim_eq hold h, withTable_eq htable, branch_apply,
    Option.isNone_some, Bool.false_eq_true, false_or, change_eq hold h (p.erase name),
    leave_eq hold]
  split_ifs
  · rfl
  · simp only [hreport, saved]
  · simp only [hreport']

/-- A table is made where there is none. -/
theorem prepare_eq (hold : fs.SoleHold id place) (h : fs.Serves place p) :
    Connection.prepare { cache := id } fs =
      if p.hasTable = true then .ok () fs
      else if mostPages < (p.makeTable .utf8).pages then .error .full fs
      else .ok () (fs.rewritten place (p.makeTable .utf8)) := by
  obtain ⟨changes, hcache⟩ := hold.cache
  by_cases htable : p.hasTable = true
  · simp [prepare, bind_apply, readContents_eq hold h, htable, pure_apply]
  · have hclaim := claim_eq hold h
    simp [prepare, bind_apply, get_apply, readContents_eq hold h, htable, hcache, h.isForeign_eq,
      Connection.update, hclaim, change_eq hold h]

end Connection

namespace Store

open FileSystem

/-- An open store whose table is in a file: it is the only one that has the database open, and
`p` is what the database holds. -/
structure Serving (s : Store) (fs : FileSystem) (place : Place) (p : Contents) : Prop where
  isOpen : s.closed = false
  connection : s.connection = { cache := s.connection.cache }
  hold : fs.SoleHold s.connection.cache place
  serves : fs.Serves place p
  table : p.hasTable = true
  utf8 : p.InUtf8

variable {s : Store} {fs fs' : FileSystem} {place : Place} {p : Contents} {name doing : Text}

theorem perform_ok {α : Type} {work : DatabaseM α} {a : α} (h : work fs = .ok a fs') :
    perform doing work fs = (fs', .ok a) := by
  simp only [perform, EStateM.run, h]

theorem perform_error {α : Type} {work : DatabaseM α} {e : DatabaseError}
    (h : work fs = .error e fs') : perform doing work fs = (fs', .error (.refused doing e)) := by
  simp only [perform, EStateM.run, h]

theorem Serving.saved (h : s.Serving fs place p) (p' : Contents) (htable : p'.hasTable = true)
    (hutf8 : p'.InUtf8) (hunlogged : p'.isLogged = false) (changes : Nat) :
    s.Serving (fs.saved s.connection.cache place p' changes) place p' where
  isOpen := h.isOpen
  connection := h.connection
  hold := h.hold.saved p' changes
  serves := h.serves.saved hunlogged changes
  table := htable
  utf8 := hutf8

/-- What a database holds once an image has been saved under a name. -/
def withImage (p : Contents) (now : Nat) (name : Text) (img : Image) : Contents :=
  p.put name (imageDigest img.encode) img.encode now

/-- Saving an image puts its bytes under the name, if the database has room for them. -/
theorem Serving.put_eq (h : s.Serving fs place p) (hname : name ≠ []) (now : Nat) (img : Image) :
    s.put fs now name img =
      if mostPages < (withImage p now name img).pages then
        (fs, .error (.refused ("saving image " ++ name) .full))
      else
        (fs.saved s.connection.cache place (withImage p now name img) 1,
          .ok (imageDigest img.encode)) := by
  have hput :=
    Connection.put_eq h.hold h.serves h.table name (imageDigest img.encode) img.encode now
  rw [← h.connection, ← withImage] at hput
  simp only [put, if_neg hname, h.isOpen, Bool.false_eq_true, if_false]
  by_cases hfull : mostPages < (withImage p now name img).pages
  · rw [if_pos hfull] at hput ⊢
    simp only [perform_error hput]
  · rw [if_neg hfull] at hput ⊢
    simp only [perform_ok hput]

theorem Serving.get_eq (h : s.Serving fs place p) (name : Text) :
    s.get fs name = (fs, match p.find name with
      | none => .error (.notFound name)
      | some row => imageOf name row) := by
  have hfind := Connection.find_eq h.hold h.serves h.table name
  rw [← h.connection] at hfind
  simp only [get, h.isOpen, Bool.false_eq_true, if_false, perform_ok hfind]
  cases p.find name <;> rfl

theorem Serving.list_eq (h : s.Serving fs place p) : s.list fs = (fs, .ok p.rows) := by
  have hrows := Connection.rows_eq h.hold h.serves h.table
  rw [← h.connection] at hrows
  simp only [list, h.isOpen, Bool.false_eq_true, if_false, perform_ok hrows]

theorem Serving.delete_eq (h : s.Serving fs place p) (name : Text) :
    s.delete fs name =
      if (p.erase name).rows.length < p.rows.length then
        if mostPages < (p.erase name).pages then
          (fs, .error (.refused ("deleting image " ++ name) .full))
        else
          (fs.saved s.connection.cache place (p.erase name)
            (p.rows.length - (p.erase name).rows.length), .ok ())
      else
        (fs.setCache s.connection.cache
          { place, changes := p.rows.length - (p.erase name).rows.length },
          .error (.notFound name)) := by
  have hremove := Connection.remove_eq h.hold h.serves h.table name
  rw [← h.connection] at hremove
  simp only [delete, h.isOpen, Bool.false_eq_true, if_false]
  by_cases hfewer : (p.erase name).rows.length < p.rows.length
  · rw [if_pos hfewer] at hremove ⊢
    obtain ⟨count, hcount⟩ : ∃ count, p.rows.length - (p.erase name).rows.length = count + 1 :=
      ⟨p.rows.length - (p.erase name).rows.length - 1, by omega⟩
    rw [hcount] at hremove ⊢
    by_cases hfull : mostPages < (p.erase name).pages
    · rw [if_pos hfull] at hremove ⊢
      simp only [perform_error hremove]
    · rw [if_neg hfull] at hremove ⊢
      simp only [perform_ok hremove]
  · rw [if_neg hfewer] at hremove ⊢
    have hcount : p.rows.length - (p.erase name).rows.length = 0 := by
      have hle : (p.erase name).rows.length ≤ p.rows.length := List.length_filter_le ..
      omega
    rw [hcount] at hremove ⊢
    simp only [perform_ok hremove]

/-- Whatever comes of it, at most the rows of the name are gone after a removal. -/
theorem Serving.delete (h : s.Serving fs place p) (name : Text) :
    ∃ fs' r p', s.delete fs name = (fs', r) ∧ s.Serving fs' place p' ∧
      fs.Only fs' (touched place) ∧ (p' = p ∨ p' = p.erase name) := by
  rw [h.delete_eq]
  split_ifs
  · exact ⟨_, _, p, rfl, h, .refl fs _, Or.inl rfl⟩
  · have hsaved : ∀ n, s.Serving (fs.saved s.connection.cache place (p.erase name) n) place
        (p.erase name) := fun n => h.saved (p.erase name) h.table h.utf8 h.serves.unlogged n
    exact ⟨_, _, p.erase name, rfl, hsaved _, only_saved .., Or.inr rfl⟩
  · refine ⟨_, _, p, rfl, ?_, ⟨rfl, fun _ _ => rfl⟩, Or.inl rfl⟩
    exact ⟨h.isOpen, h.connection, h.hold.setCache _, h.serves.congr fun _ _ => rfl, h.table,
      h.utf8⟩

/-- Whatever comes of it, at most the image of the name is different after one is saved. -/
theorem Serving.put (h : s.Serving fs place p) (name : Text) (now : Nat) (img : Image) :
    ∃ fs' r p', s.put fs now name img = (fs', r) ∧ s.Serving fs' place p' ∧
      fs.Only fs' (touched place) ∧ (p' = p ∨ p' = withImage p now name img) := by
  by_cases hname : name = []
  · refine ⟨fs, .error .emptyName, p, ?_, h, .refl fs _, Or.inl rfl⟩
    rw [Store.put, if_pos hname]
  · rw [h.put_eq hname]
    split_ifs
    · exact ⟨_, _, p, rfl, h, .refl fs _, Or.inl rfl⟩
    · have hsaved : s.Serving (fs.saved s.connection.cache place (withImage p now name img) 1)
          place (withImage p now name img) :=
        h.saved (withImage p now name img) h.table h.utf8 h.serves.unlogged 1
      exact ⟨_, _, withImage p now name img, rfl, hsaved, only_saved .., Or.inr rfl⟩

end Store

end StackVm
