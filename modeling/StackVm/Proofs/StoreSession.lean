/-
A store that is opened and closed again, command by command.  Between two commands it rests in
its file, and only what commands say of a name changes what is under the name.
-/
import Mathlib.Data.List.TakeWhile
import StackVm.Proofs.ImageCodec
import StackVm.Proofs.StoreOperations

namespace StackVm

open FileSystem

theorem length_digest (t : Text) : (Sha256.digest t).length = 32 := by
  simp [Sha256.digest, Text.length_bigEndian]

theorem Text.length_hexBytes (t : Text) : (hexBytes t).length = 2 * t.length := by
  have hbyte : ∀ n < 256, (Text.hexLower 2 n).length = 2 := by decide +kernel
  induction t with
  | nil => rfl
  | cons b t ih =>
    rw [Text.hexBytes, List.flatMap_cons, List.length_append, hbyte b.toNat b.toNat_lt,
      ← Text.hexBytes, ih, List.length_cons]
    omega

theorem length_imageDigest (t : Text) : (imageDigest t).length = 64 := by
  rw [imageDigest, Text.length_hexBytes, length_digest]

namespace Location

/-- The names of a database path lead through directories to a place. -/
def Leads (fs : FileSystem) : Place → List Text → Place → Prop
  | start, [], place => start = place
  | start, name :: rest, place => fs.node? start = some .directory ∧
      ∃ next, append fs start name = some next ∧ Leads fs next rest place

variable {fs fs' : FileSystem} {start place next : Place} {names : List Text} {name path : Text}

theorem Leads.foldlM (h : Leads fs start names place) :
    names.foldlM (append fs) start = some place := by
  induction names generalizing start with
  | nil => rw [List.foldlM_nil, show start = place from h]; rfl
  | cons name rest ih =>
    obtain ⟨-, next, hnext, hrest⟩ := h
    rw [List.foldlM_cons, hnext]
    exact ih hrest

theorem append_of_widens (hw : fs.Widens fs') (hdir : fs.node? start = some .directory)
    (h : append fs start name = some next) : append fs' start name = some next := by
  have hfollow : fs'.follow start name = fs.follow start name := by
    rw [FileSystem.follow, FileSystem.follow, hdir, hw.directory start hdir]
  rw [append] at h ⊢
  rwa [hfollow]

theorem Leads.widens (h : Leads fs start names place) (hw : fs.Widens fs') :
    Leads fs' start names place := by
  induction names generalizing start with
  | nil => exact h
  | cons name rest ih =>
    obtain ⟨hdir, next, hnext, hrest⟩ := h
    exact ⟨hw.directory start hdir, next, append_of_widens hw hdir hnext, ih hrest⟩

/-- A store path asks for a file and nothing else. -/
structure Plain (path name : Text) : Prop where
  read : Location.read path = .ok { name }
  ne_nil : name ≠ []
  notHeld : name ≠ ":memory:"

theorem cut_of_notMem {b : UInt8} {t : Text} (h : b ∉ t) : Text.cut b t = (t, none) := by
  have hall : ∀ a ∈ t, decide (a ≠ b) = true := by
    intro a ha
    rw [decide_eq_true_eq]
    rintro rfl
    exact h ha
  rw [Text.cut, List.takeWhile_eq_self_iff.2 hall, List.dropWhile_eq_nil_iff.2 hall]
  rfl

/-- A path without a question mark and a zero byte that is no address is plain. -/
theorem plain_of_simple (hquery : (0x3F : UInt8) ∉ path) (hzero : (0 : UInt8) ∉ path)
    (haddress : Text.after? scheme path = none) (hne : path ≠ []) (hheld : path ≠ ":memory:") :
    Plain path path := by
  refine ⟨?_, hne, hheld⟩
  have hcarrier : Carrier.ofName? Carrier.disk.tag = some .disk := by decide
  have hsettings : carrierOf [] = .ok Carrier.disk.tag := rfl
  have hnone : (Text.query []).mapError LocationError.query = .ok [] := rfl
  have horder : inOrder (values [] "_pragma") = [] := by simp [inOrder, values]
  have htrouble : troubleOf [] = none := rfl
  simp [Location.read, cut_of_notMem hquery, cut_of_notMem hzero, haddress, hne, hnone, hsettings,
    hcarrier, horder, htrouble, bind, Except.bind, pure, Except.pure]

/-- A plain path is settled by taking hold of the file at its place. -/
theorem settle_plain (h : Plain path name) (hplace : place? fs name = some place) :
    settle fs { name } = holdFile fs { name } none place := by
  have hheld : isHeld { name } = false := by
    simp [isHeld, h.ne_nil, h.notHeld]
  simp [settle, hheld, hplace]

end Location

namespace Store

/-- The store at a path rests: nobody has it open, the directories above it are there, and the
file at `place` holds `p`, or there is none and `p` is empty. -/
structure Rests (fs : FileSystem) (path : Text) (place : Place) (p : Contents) : Prop where
  plain : ∃ name, Location.Plain path name ∧
    Location.Leads fs [] (fs.origin name ++ Path.names name) place
  short : Location.pathLength place + Location.companion.length ≤ Location.maxPath
  directories : fs.makeDirectories (Path.parent path) = (fs, none)
  parent : fs.node? place.dropLast = some .directory
  idle : fs.caches = []
  serves : fs.Serves place p
  utf8 : p.InUtf8

variable {fs fs' : FileSystem} {path : Text} {place : Place} {p p' : Contents} {s : Store}

/-- A store rests in its file as long as directories stay. -/
theorem Rests.of_widens (h : Rests fs path place p) (hw : fs.Widens fs') (hidle : fs'.caches = [])
    (hserves : fs'.Serves place p') (hutf8 : p'.InUtf8) : Rests fs' path place p' := by
  obtain ⟨name, hplain, hleads⟩ := h.plain
  rw [← hw.origin] at hleads
  exact ⟨⟨name, hplain, hleads.widens hw⟩, h.short, makeDirectories_of_made h.directories hw,
    hw.directory _ h.parent, hidle, hserves, hutf8⟩

theorem Rests.place_eq (h : Rests fs path place p) {name : Text}
    (hleads : Location.Leads fs [] (fs.origin name ++ Path.names name) place) :
    Location.place? fs name = some place := by
  simp [Location.place?, hleads.foldlM, h.serves.ne_root, Nat.not_lt.2 h.short]

/-- The file system in which a store has been made sure to have a file, and is held. -/
def held (fs : FileSystem) (place : Place) : FileSystem :=
  ((fs.provide place []).addCache { place }).1

theorem Rests.holdFile_eq (h : Rests fs path place p) (name : Text) :
    Location.holdFile fs { name } none place = .ok (held fs place, fs.issued) := by
  rcases h.serves.node with hnode | ⟨-, hblank⟩
  · simp [Location.holdFile, h.parent, hnode, Location.hold, held, provide, addCache]
  · cases hnode : fs.node? place with
    | none =>
      simp [Location.holdFile, h.parent, hnode, Location.hold, held, provide, addCache, setNode]
    | some node =>
      rw [hnode] at hblank
      cases node with
      | file data =>
        simp [Location.holdFile, h.parent, hnode, Location.hold, held, provide, addCache]
      | _ => cases hblank

theorem Rests.soleHold (h : Rests fs path place p) : (held fs place).SoleHold fs.issued place := by
  refine ⟨0, ?_⟩
  have hcaches : (fs.provide place []).caches = [] := by
    rw [provide]
    split <;> exact h.idle
  have hissued : (fs.provide place []).issued = fs.issued := by
    rw [provide]
    split <;> rfl
  simp [held, addCache, hcaches, hissued]

theorem only_held (fs : FileSystem) (place : Place) : fs.Only (held fs place) [place] := by
  rw [held, provide]
  split
  · exact ⟨rfl, fun _ _ => rfl⟩
  · refine ⟨rfl, ?_⟩
    intro q hq
    exact node?_setNode_of_ne (by simpa using hq)

theorem Rests.served (h : Rests fs path place p) : (held fs place).Serves place p := by
  have hsame : ∀ q, q ≠ place → (held fs place).node? q = fs.node? q :=
    fun q hq => (only_held fs place).node q (by simpa using hq)
  refine ⟨h.serves.isPlace, ?_, ?_, ?_, h.serves.unlogged⟩
  · have hheld : (held fs place).node? place = (fs.provide place []).node? place := rfl
    rw [hheld, provide]
    split
    · exact h.serves.node
    · next hnone =>
      rcases h.serves.node with hnode | ⟨hempty, -⟩
      · exact absurd (by rw [hnode]; rfl) hnone
      · rw [node?_setNode_self h.serves.ne_root]
        exact Or.inr ⟨hempty, rfl⟩
  · rw [hsame _ journalOf_ne]
    exact h.serves.journal
  · rw [hsame _ logOf_ne]
    exact h.serves.log

/-- What a database holds once it has a table. -/
def tabled (p : Contents) : Contents := if p.hasTable = true then p else p.makeTable .utf8

theorem tabled_of_hasTable (h : p.hasTable = true) : tabled p = p := by
  rw [tabled, if_pos h]

theorem tabled_inUtf8 (h : p.InUtf8) : (tabled p).InUtf8 := by
  rw [tabled]
  split
  · exact h
  · rw [Contents.InUtf8, Contents.writing] at h ⊢
    cases hencoding : p.encoding with
    | none => simp [Contents.makeTable, hencoding]
    | some e => simpa [Contents.makeTable, hencoding] using h

/-- There is room for the table. -/
def Opens (p : Contents) : Prop := p.hasTable = true ∨ (p.makeTable .utf8).pages ≤ mostPages

/-- A plain path asks for nothing but a table. -/
theorem ready_plain (name : Text) (c : Connection) (fs : FileSystem) :
    ready { name } c fs =
      match perform "creating table" c.prepare fs with
      | (fs, .error e) => (fs, .error e)
      | (fs, .ok ()) => (fs, .ok c) := rfl

theorem Rests.openAt_eq (h : Rests fs path place p) :
    openAt fs path =
      if p.hasTable = true then (held fs place, .ok { path, connection := { cache := fs.issued } })
      else if mostPages < (p.makeTable .utf8).pages then
        ((held fs place).release fs.issued, .error (.refused "creating table" .full))
      else ((held fs place).rewritten place (p.makeTable .utf8),
        .ok { path, connection := { cache := fs.issued } }) := by
  obtain ⟨name, hplain, hleads⟩ := h.plain
  have hsettle : Location.settle fs { name } = .ok (held fs place, fs.issued) := by
    rw [Location.settle_plain hplain (h.place_eq hleads), h.holdFile_eq]
  simp only [openAt, h.directories, hplain.read, hsettle]
  rw [ready_plain]
  have hprepare := Connection.prepare_eq h.soleHold h.served
  split_ifs at hprepare ⊢
  · rw [perform_ok hprepare]
  · rw [perform_error hprepare]
  · rw [perform_ok hprepare]

theorem Rests.serving (h : Rests fs path place p) {c : Connection} (hc : c = { cache := fs.issued })
    (htable : p.hasTable = true) :
    ({ path, connection := c } : Store).Serving (held fs place) place p where
  isOpen := rfl
  connection := by subst hc; rfl
  hold := by subst hc; exact h.soleHold
  serves := h.served
  table := htable
  utf8 := h.utf8

/-- A store that rests is opened if there is room for its table. -/
theorem Rests.opened (h : Rests fs path place p) (hopens : Opens p) :
    ∃ fs' s, openAt fs path = (fs', .ok s) ∧ s.Serving fs' place (tabled p) ∧
      fs.Only fs' (touched place) := by
  have hheld : fs.Only (held fs place) (touched place) :=
    (only_held fs place).mono (by simp [touched])
  rw [h.openAt_eq]
  by_cases htable : p.hasTable = true
  · rw [if_pos htable, tabled_of_hasTable htable]
    exact ⟨_, _, rfl, h.serving rfl htable, hheld⟩
  · have hroom : ¬ mostPages < (p.makeTable .utf8).pages :=
      Nat.not_lt.2 (hopens.resolve_left htable)
    rw [if_neg htable, if_neg hroom]
    have htabled : tabled p = p.makeTable .utf8 := if_neg htable
    refine ⟨_, _, rfl, ?_, hheld.trans (only_rewritten ..)⟩
    have hutf8 := tabled_inUtf8 h.utf8
    rw [htabled] at hutf8 ⊢
    exact ⟨rfl, rfl, h.soleHold.rewritten _, h.served.rewritten h.serves.unlogged, rfl, hutf8⟩

theorem Rests.not_opened (h : Rests fs path place p) (hopens : ¬ Opens p) :
    ∃ fs' e, openAt fs path = (fs', .error e) := by
  obtain ⟨htable, hfull⟩ := not_or.1 hopens
  rw [h.openAt_eq, if_neg htable, if_pos (Nat.not_le.1 hfull)]
  exact ⟨_, _, rfl⟩

/-- With the store its hold on the database is gone, and nothing else. -/
theorem close_eq (hopen : s.closed = false) (hold : fs.SoleHold s.connection.cache place)
    (hdisk : isInMemory place = false) : (s.close fs).1 = { fs with caches := [] } := by
  obtain ⟨changes, hcaches⟩ := hold
  obtain ⟨_, hcache⟩ := SoleHold.cache ⟨changes, hcaches⟩
  simp [close, hopen, release, hcache, endTransaction, hdisk, FileSystem.setCache, hcaches]

theorem Serving.close_eq (h : s.Serving fs place p) : (s.close fs).1 = { fs with caches := [] } :=
  Store.close_eq h.isOpen h.hold h.serves.isPlace.onDisk

/-! ### Rows that stay -/

variable {base : FileSystem} {name : Text} {row : Row}

/-- Where an open store puts its changes there are no directories. -/
theorem sameDirectories_of_only (h : fs.Only fs' (touched place)) (hserves : fs.Serves place p)
    {p' : Contents} (hserves' : fs'.Serves place p') : fs.SameDirectories fs' :=
  ⟨h.widens hserves.files, h.symm.widens hserves'.files⟩

/-- The store at a path rests, and has a row under a name. -/
def Holds (fs : FileSystem) (path : Text) (place : Place) (name : Text) (row : Row) : Prop :=
  ∃ p, Rests fs path place p ∧ p.hasTable = true ∧ p.find name = some row

/-- What a store holds is found when it is opened. -/
theorem Holds.opened (h : Holds fs path place name row) :
    ∃ fs' s p, openAt fs path = (fs', .ok s) ∧ s.Serving fs' place p ∧
      s.get fs' name = (fs', imageOf name row) ∧ fs.SameDirectories fs' := by
  obtain ⟨p, hrests, htable, hfind⟩ := h
  obtain ⟨fs', s, hopen, hserving, honly⟩ := hrests.opened (Or.inl htable)
  rw [tabled_of_hasTable htable] at hserving
  refine ⟨fs', s, p, hopen, hserving, ?_,
    sameDirectories_of_only honly hrests.serves hserving.serves⟩
  rw [hserving.get_eq, hfind]

/-- An open store has a row under a name, and no directory has come or gone since `base`. -/
structure Tends (s : Store) (base : FileSystem) (place : Place) (name : Text) (row : Row)
    (fs : FileSystem) : Prop where
  serving : ∃ p, s.Serving fs place p ∧ p.find name = some row
  directories : base.SameDirectories fs

/-- What is at the places of a store and beside it. -/
def places (place : Place) : List Place := [place, journalOf place, logOf place]

/-- A file written elsewhere does not matter to an open store. -/
theorem Serving.setNode (h : s.Serving fs place p) {q : Place} (hq : q ∉ places place)
    (node : Node) : s.Serving (fs.setNode q node) place p := by
  refine ⟨h.isOpen, h.connection, h.hold, ?_, h.table, h.utf8⟩
  apply h.serves.congr
  intro r hr
  apply node?_setNode_of_ne
  rintro rfl
  exact hq hr

/-- A store that rested before it was opened rests again when it is closed. -/
theorem Serving.rests (h : s.Serving fs place p) {p' : Contents} (hrests : Rests base path place p')
    (hdirectories : base.Widens fs) : Rests (s.close fs).1 path place p := by
  rw [h.close_eq]
  exact hrests.of_widens ⟨hdirectories.cwd, hdirectories.directory⟩ rfl
    (h.serves.congr fun _ _ => rfl) h.utf8

theorem Tends.get (h : s.Tends base place name row fs) (other : Text) :
    s.Tends base place name row (s.get fs other).1 := by
  obtain ⟨p, hserving, hfind⟩ := h.serving
  rw [hserving.get_eq]
  exact h

theorem Tends.list (h : s.Tends base place name row fs) :
    s.Tends base place name row (s.list fs).1 := by
  obtain ⟨p, hserving, hfind⟩ := h.serving
  rw [hserving.list_eq]
  exact h

theorem Tends.changed (h : s.Tends base place name row fs) (hserving : s.Serving fs' place p)
    (honly : fs.Only fs' (touched place)) (hfind : p.find name = some row) :
    s.Tends base place name row fs' := by
  obtain ⟨_, hbefore, -⟩ := h.serving
  exact ⟨⟨p, hserving, hfind⟩,
    h.directories.trans (sameDirectories_of_only honly hbefore.serves hserving.serves)⟩

theorem Tends.put (h : s.Tends base place name row fs) {other : Text} (hne : other ≠ name)
    (now : Nat) (img : Image) : s.Tends base place name row (s.put fs now other img).1 := by
  obtain ⟨p, hserving, hfind⟩ := h.serving
  obtain ⟨fs', r, p', heq, hserving', honly, hchange⟩ := hserving.put other now img
  rw [heq]
  apply h.changed hserving' honly
  rcases hchange with rfl | rfl
  · exact hfind
  · rw [withImage, hserving.utf8.find_put, if_neg (Ne.symm hne), hfind]

theorem Tends.delete (h : s.Tends base place name row fs) {other : Text} (hne : other ≠ name) :
    s.Tends base place name row (s.delete fs other).1 := by
  obtain ⟨p, hserving, hfind⟩ := h.serving
  obtain ⟨fs', r, p', heq, hserving', honly, hchange⟩ := hserving.delete other
  rw [heq]
  apply h.changed hserving' honly
  rcases hchange with rfl | rfl
  · exact hfind
  · rw [hserving.utf8.find_erase, if_neg (Ne.symm hne), hfind]

theorem Tends.writeFile (h : s.Tends base place name row fs) {out data : Text}
    (hout : ∀ q, base.resolve out = .ok q → q ∉ places place)
    (hwrite : fs.writeFile out data = .ok fs') : s.Tends base place name row fs' := by
  obtain ⟨p, hserving, hfind⟩ := h.serving
  obtain ⟨q, hplace, rfl⟩ := writeFile_eq_ok.1 hwrite
  have hresolve := (vacant_of_writable (h.directories.symm.writable hplace)).1
  exact ⟨⟨p, hserving.setNode (hout q hresolve) _, hfind⟩,
    h.directories.trans (sameDirectories_setNode (vacant_of_writable hplace).2 nofun)⟩

/-! ### Stores that are about to be opened -/

/-- The store at a path rests once the directories above it are made. -/
def Ready (fs : FileSystem) (path : Text) (place : Place) (p : Contents) : Prop :=
  ∃ fs₁, fs.makeDirectories (Path.parent path) = (fs₁, none) ∧ Rests fs₁ path place p

theorem Ready.openAt_eq (h : Ready fs path place p) :
    ∃ fs₁, fs.makeDirectories (Path.parent path) = (fs₁, none) ∧ Rests fs₁ path place p ∧
      openAt fs path = openAt fs₁ path := by
  obtain ⟨fs₁, hmade, hrests⟩ := h
  refine ⟨fs₁, hmade, hrests, ?_⟩
  simp only [openAt, hmade, hrests.directories]

/-- A database has room for an image. -/
def Room (p : Contents) (now : Nat) (name : Text) (img : Image) : Prop :=
  Opens p ∧ (withImage (tabled p) now name img).pages ≤ mostPages

/-- The row of an image. -/
def rowOf (p : Contents) (now : Nat) (name : Text) (img : Image) : Row :=
  ⟨name, imageDigest img.encode, img.encode, now, nextNumber (tabled p).rows⟩

/-- A new database has room for its table. -/
theorem opens_new : Opens {} := by
  right
  simp [Contents.makeTable, Contents.pages, Contents.pagesOf, mostPages]

/-- A new database has room for every image of less than a gigabyte. -/
theorem room_new {img : Image} (now : Nat)
    (hsize : name.length + img.encode.length ≤ 2 ^ 30) : Room {} now name img := by
  refine ⟨opens_new, ?_⟩
  have hrows : (withImage (tabled {}) now name img).rows = [rowOf {} now name img] := rfl
  have hpages := Contents.pages_singleton_le hrows
  have hpageSize : (withImage (tabled {}) now name img).pageSize = 4096 := rfl
  have hbytes : (withImage (tabled {}) now name img).rowBytes (rowOf {} now name img) =
      name.length + (imageDigest img.encode).length + img.encode.length := rfl
  rw [hpageSize, hbytes, length_imageDigest] at hpages
  apply Nat.le_trans hpages
  clear hpages hbytes hpageSize hrows
  rw [mostPages]
  omega

/-- The row of an image gives the image back. -/
theorem imageOf_rowOf {img : Image} (hsound : img.Sound) (hfits : img.Fits) (p : Contents)
    (now : Nat) (name : Text) : imageOf name (rowOf p now name img) = .ok img := by
  simp [imageOf, rowOf, Image.decode_encode hsound hfits, mapError_ok]

end Store

end StackVm
