/-
The store commands, carried out one after the other on a store that rests in between.  What is
saved under a name stays there as long as commands speak of other names.
-/
import StackVm.Cli.Command
import StackVm.Proofs.Handover
import StackVm.Proofs.StoreSession

namespace StackVm

open FileSystem

namespace Cli

open Store

variable {α β : Type} {c : Console} {setup : Setup} {place : Place} {name path : Text} {row : Row}
  {fs : FileSystem} {I : FileSystem → Prop} {s : Store}

/-! ### What commands keep -/

/-- A command keeps what holds of the files, however it ends. -/
def Keeps (I : FileSystem → Prop) (command : CommandM α) : Prop :=
  ∀ c, I c.fs → I (final (command c)).fs

theorem FilesAside.keeps {command : CommandM α} (h : FilesAside command) : Keeps I command := by
  intro c hc
  rw [h.final_fs]
  exact hc

theorem Keeps.bind {command : CommandM α} {next : α → CommandM β} (h : Keeps I command)
    (hnext : ∀ a, Keeps I (next a)) : Keeps I (command >>= next) := by
  intro c hc
  have hfirst := h c hc
  rw [bind_apply]
  cases hresult : command c with
  | ok a c' =>
    rw [hresult] at hfirst
    exact hnext a c' hfirst
  | error e c' =>
    rw [hresult] at hfirst
    exact hfirst

theorem keeps_stored {act : FileSystem → FileSystem × Except StoreError α}
    (h : ∀ fs, I fs → I (act fs).1) : Keeps I (stored act) := fun c hc => h c.fs hc

/-- A command opens its store, acts and closes the store again. -/
theorem withStore_apply (hopen : Store.openAt c.fs setup.storePath = (fs, .ok s))
    (act : Store → CommandM ExitCode) :
    withStore setup act c = onState (·.leave s) (act s { c with fs }) := by
  rw [withStore, hopen]
  cases hact : act s { c with fs } <;> simp [onState, hact]

theorem onState_leave {r : EStateM.Result Abort Console α} (h : (final r).fs = fs) :
    onState (·.leave s) r = withFiles (s.close fs).1 r := by
  subst h
  cases r <;> rfl

theorem final_onState (f : Console → Console) (r : EStateM.Result Abort Console α) :
    final (onState f r) = f (final r) := by
  cases r <;> rfl

/-- What a store holds it goes on holding if it does while it is open. -/
theorem holds_withStore (h : Holds c.fs setup.storePath place name row)
    {act : Store → CommandM ExitCode}
    (hact : ∀ s, Keeps (s.Tends c.fs place name row) (act s)) :
    Holds (final (withStore setup act c)).fs setup.storePath place name row := by
  obtain ⟨p, hrests, htable, hfind⟩ := h
  obtain ⟨fs, s, hopen, hserving, honly⟩ := hrests.opened (Or.inl htable)
  rw [tabled_of_hasTable htable] at hserving
  have htends : s.Tends c.fs place name row fs :=
    ⟨⟨p, hserving, hfind⟩, sameDirectories_of_only honly hrests.serves hserving.serves⟩
  obtain ⟨⟨p', hserving', hfind'⟩, hdirectories⟩ := hact s { c with fs } htends
  rw [withStore_apply hopen, final_onState]
  exact ⟨p', hserving'.rests hrests hdirectories.widens, hserving'.table, hfind'⟩

theorem holds_storePut (h : Holds c.fs setup.storePath place name row) {other : Text}
    (hne : other ≠ name) (file : Text) :
    Holds (final (storePut setup other file c)).fs setup.storePath place name row := by
  rw [storePut, get_bind_apply]
  cases readImage c.fs file with
  | error e =>
    exact (filesAside_fail _ _).keeps (I := (Holds · setup.storePath place name row)) c h
  | ok img =>
    apply holds_withStore h
    intro s
    apply Keeps.bind
    · exact keeps_stored fun fs hfs => hfs.put hne setup.world.now img
    · intro r
      split
      · exact (filesAside_fail _ _).keeps
      · exact ((filesAside_print _).bind fun _ => filesAside_pure _).keeps

theorem holds_storeGet (h : Holds c.fs setup.storePath place name row) (other : Text) {out : Text}
    (hout : ∀ q, c.fs.resolve out = .ok q → q ∉ places place) :
    Holds (final (storeGet setup other out c)).fs setup.storePath place name row := by
  apply holds_withStore h
  intro s
  apply Keeps.bind
  · exact keeps_stored fun fs hfs => hfs.get other
  · intro r
    split
    · exact (filesAside_fail _ _).keeps
    · next img =>
      intro c' hc'
      rw [get_bind_apply]
      cases hwrite : c'.fs.writeFile out img.encode with
      | error e => exact (filesAside_fail _ _).keeps c' hc'
      | ok fs' => exact hc'.writeFile hout hwrite

theorem holds_storeList (h : Holds c.fs setup.storePath place name row) :
    Holds (final (storeList setup c)).fs setup.storePath place name row := by
  apply holds_withStore h
  intro s
  apply Keeps.bind
  · exact keeps_stored fun fs hfs => hfs.list
  · intro r
    split
    · exact (filesAside_fail _ _).keeps
    · split
      · exact (filesAside_throw _).keeps
      · exact ((filesAside_print _).bind fun _ => filesAside_pure _).keeps

theorem holds_storeRemove (h : Holds c.fs setup.storePath place name row) {other : Text}
    (hne : other ≠ name) :
    Holds (final (storeRemove setup other c)).fs setup.storePath place name row := by
  apply holds_withStore h
  intro s
  apply Keeps.bind
  · exact keeps_stored fun fs hfs => hfs.delete hne
  · intro r
    split
    · exact (filesAside_fail _ _).keeps
    · exact (filesAside_pure _).keeps

theorem holds_storeRun (h : Holds c.fs setup.storePath place name row) (other : Text)
    (args : List Text) :
    Holds (final (storeRun setup other args c)).fs setup.storePath place name row := by
  apply holds_withStore h
  intro s
  apply Keeps.bind
  · exact keeps_stored fun fs hfs => hfs.get other
  · intro r
    split
    · exact (filesAside_fail _ _).keeps
    · exact (filesAside_runImage _ _ _ _ _).keeps

/-! ### Commands on other names -/

theorem eq_of_asWord {t : Text} {s : String} (h : asWord t = s) (hne : s ≠ "") :
    t = Text.ofString s := by
  rw [asWord, String.fromUTF8?] at h
  split at h
  · subst h
    rfl
  · exact absurd h.symm hne

/-- A store command deals with other names: it neither saves nor removes the image under `name`,
and does not write another file over the store. -/
structure Spares (fs : FileSystem) (place : Place) (name : Text) (args : List Text) : Prop where
  put : ∀ other file, args = ([Text.ofString "put", other, file] : List Text) → other ≠ name
  remove : ∀ other, args = ([Text.ofString "rm", other] : List Text) → other ≠ name
  get : ∀ other out q, args = ([Text.ofString "get", other, out] : List Text) →
    fs.resolve out = .ok q → q ∉ places place

theorem holds_refuse (h : Holds c.fs setup.storePath place name row) (lines : List String) :
    Holds (final (refuse lines c)).fs setup.storePath place name row := h

/-- A command on other names leaves what the store holds under a name. -/
theorem holds_storeCommand (h : Holds c.fs setup.storePath place name row) {args : List Text}
    (hspares : Spares c.fs place name args) :
    Holds (final (storeCommand setup args c)).fs setup.storePath place name row := by
  cases args with
  | nil => exact holds_refuse h _
  | cons word args =>
    generalize hcommand : storeCommand setup (word :: args) = command
    unfold storeCommand at hcommand
    dsimp only at hcommand
    split at hcommand <;> subst hcommand
    · next other file hword =>
      rw [eq_of_asWord hword (by decide)] at hspares
      exact holds_storePut h (hspares.put other file rfl) file
    · exact holds_refuse h _
    · next other out hword =>
      rw [eq_of_asWord hword (by decide)] at hspares
      exact holds_storeGet h other fun q => hspares.get other out q rfl
    · exact holds_refuse h _
    · exact holds_storeList h
    · exact holds_storeList h
    · next other hword =>
      rw [eq_of_asWord hword (by decide)] at hspares
      exact holds_storeRemove h (hspares.remove other rfl)
    · exact holds_refuse h _
    · exact holds_storeRun h _ _
    · exact holds_refuse h _
    · exact h

/-- What may happen to the store at a path without any word of a name: store commands on other
names, and changes of files that are not the store's. -/
inductive Elsewhere (path : Text) (place : Place) (name : Text) : FileSystem → FileSystem → Prop
  | refl (fs : FileSystem) : Elsewhere path place name fs fs
  | command {fs : FileSystem} {c : Console} {setup : Setup} {args : List Text}
      (before : Elsewhere path place name fs c.fs) (hpath : setup.storePath = path)
      (spares : Spares c.fs place name args) :
      Elsewhere path place name fs (final (dispatch setup ("store" :: args) c)).fs
  | files {fs fs₁ fs' : FileSystem} (before : Elsewhere path place name fs fs₁)
      (directories : fs₁.Widens fs') (idle : fs'.caches = [])
      (same : ∀ q ∈ places place, fs'.node? q = fs₁.node? q) : Elsewhere path place name fs fs'

theorem Elsewhere.holds {fs' : FileSystem} (h : Elsewhere path place name fs fs')
    (hholds : Holds fs path place name row) : Holds fs' path place name row := by
  induction h with
  | refl => exact hholds
  | command before hpath spares ih =>
    subst hpath
    exact holds_storeCommand ih spares
  | files before directories idle same ih =>
    obtain ⟨p, hrests, htable, hfind⟩ := ih
    have hrests' := hrests.of_widens directories idle (hrests.serves.congr same) hrests.utf8
    exact ⟨p, hrests', htable, hfind⟩

/-! ### Saving an image -/

/-- Saving an image that is read opens the store, puts the image there and reports its digest. -/
theorem storePut_eq {file : Text} {img : Image} (hread : readImage c.fs file = .ok img)
    (hopen : Store.openAt c.fs setup.storePath = (fs, .ok s)) :
    storePut setup name file c =
      onState (·.leave s) (match s.put fs setup.world.now name img with
        | (fs, .error e) => fail .failure e.message { c with fs }
        | (fs, .ok digest) =>
          .ok .ok { c with
            fs, out := c.out ++ (name ++ Text.ofString " " ++ digest ++ Text.ofString "\n") }) := by
  simp only [storePut, bind_apply, get_apply, hread, withStore_apply hopen, stored]
  cases s.put fs setup.world.now name img with
  | mk fs r => cases r <;> rfl

/-- An image for which there is room is saved, and but for the directories above the store nothing
else changes. -/
theorem storePut_ok {p : Contents} {file : Text} {img : Image}
    (h : Ready c.fs setup.storePath place p) (hread : readImage c.fs file = .ok img)
    (hname : name ≠ []) (hroom : Room p setup.world.now name img) :
    ∃ c', storePut setup name file c = .ok .ok c' ∧
      Holds c'.fs setup.storePath place name (rowOf p setup.world.now name img) ∧
      (c.fs.makeDirectories (Path.parent setup.storePath)).1.Only c'.fs (touched place) := by
  obtain ⟨fs₁, hmade, hrests, heq⟩ := h.openAt_eq
  obtain ⟨fs, s, hopen, hserving, honly⟩ := hrests.opened hroom.1
  rw [← heq] at hopen
  have hput := hserving.put_eq hname setup.world.now img
  rw [if_neg (Nat.not_lt.2 hroom.2)] at hput
  rw [storePut_eq hread hopen, hput]
  refine ⟨_, rfl, ?_⟩
  have hsaved := hserving.saved (withImage (tabled p) setup.world.now name img) hserving.table
    hserving.utf8 hserving.serves.unlogged 1
  have hall := honly.trans (only_saved fs s.connection.cache place
    (withImage (tabled p) setup.world.now name img) 1)
  constructor
  · refine ⟨_, hsaved.rests hrests (hall.widens hrests.serves.files), hsaved.table, ?_⟩
    rw [withImage, hserving.utf8.find_put, if_pos rfl, rowOf]
  · rw [hmade]
    simp only [Console.leave, hsaved.close_eq]
    exact ⟨hall.cwd, hall.node⟩

/-- An image for which there is no room is refused. -/
theorem storePut_failure {p : Contents} {file : Text} {img : Image}
    (h : Ready c.fs setup.storePath place p) (hread : readImage c.fs file = .ok img)
    (hname : name ≠ []) (hroom : ¬ Room p setup.world.now name img) :
    ∃ c', storePut setup name file c = .ok .failure c' := by
  obtain ⟨fs₁, -, hrests, heq⟩ := h.openAt_eq
  by_cases hopens : Opens p
  · obtain ⟨fs, s, hopen, hserving, honly⟩ := hrests.opened hopens
    rw [← heq] at hopen
    have hfull : mostPages < (withImage (tabled p) setup.world.now name img).pages :=
      Nat.not_le.1 fun hle => hroom ⟨hopens, hle⟩
    have hput := hserving.put_eq hname setup.world.now img
    rw [if_pos hfull] at hput
    rw [storePut_eq hread hopen, hput]
    exact ⟨_, rfl⟩
  · obtain ⟨fs, e, hopen⟩ := hrests.not_opened hopens
    rw [← heq] at hopen
    simp only [storePut, bind_apply, get_apply, hread, withStore, hopen]
    exact ⟨_, rfl⟩

/-! ### Stored images -/

/-- A stored image is handed over to be run. -/
theorem handsOver_storeRun {img : Image} (h : Holds c.fs setup.storePath place name row)
    (himage : imageOf name row = .ok img) (args : List Text) :
    HandsOver (storeRun setup name args) c (runImage setup.world setup.settings img name args) := by
  obtain ⟨fs, s, p, hopen, hserving, hget, -⟩ := h.opened
  rw [himage] at hget
  refine ⟨fs, (s.close fs).1, ?_⟩
  have hfs := (filesAside_runImage setup.world setup.settings img name args).final_fs { c with fs }
  simp only [storeRun, withStore_apply hopen, bind_apply, stored, hget]
  exact onState_leave hfs

/-- Getting a stored image opens the store and writes the image. -/
theorem storeGet_eq {img : Image} (hopen : Store.openAt c.fs setup.storePath = (fs, .ok s))
    (hget : s.get fs name = (fs, .ok img)) (out : Text) :
    storeGet setup name out c =
      onState (·.leave s) (match fs.writeFile out img.encode with
        | .error e => fail .failure e.message { c with fs }
        | .ok fs => .ok .ok { c with fs }) := by
  simp only [storeGet, withStore_apply hopen, bind_apply, stored, hget, get_apply]
  cases fs.writeFile out img.encode <;> rfl

/-- A stored image is written to a file that can be written. -/
theorem storeGet_ok {img : Image} {out : Text} {q : Place}
    (h : Holds c.fs setup.storePath place name row) (himage : imageOf name row = .ok img)
    (hout : c.fs.writable out = .ok q) :
    ∃ c', storeGet setup name out c = .ok .ok c' ∧ c'.fs.read out = .ok img.encode := by
  obtain ⟨fs, s, p, hopen, hserving, hget, hdirectories⟩ := h.opened
  rw [himage] at hget
  have hwrite : fs.writeFile out img.encode = .ok (fs.setNode q (.file img.encode)) :=
    writeFile_eq_ok.2 ⟨q, hdirectories.writable hout, rfl⟩
  rw [storeGet_eq hopen hget, hwrite]
  refine ⟨_, rfl, ?_⟩
  have hhold : (fs.setNode q (.file img.encode)).SoleHold s.connection.cache place := hserving.hold
  have hclosed := Store.close_eq hserving.isOpen hhold hserving.serves.isPlace.onDisk
  have hwidens : (fs.setNode q (.file img.encode)).Widens
      { fs.setNode q (.file img.encode) with caches := [] } := ⟨rfl, fun _ h => h⟩
  simp only [Console.leave, hclosed]
  exact hwidens.read (fun _ => rfl) (read_of_writeFile hwrite)

theorem storeGet_failure {img : Image} {out : Text}
    (h : Holds c.fs setup.storePath place name row) (himage : imageOf name row = .ok img)
    (hout : ∀ q, c.fs.writable out ≠ .ok q) :
    ∃ c', storeGet setup name out c = .ok .failure c' := by
  obtain ⟨fs, s, p, hopen, hserving, hget, hdirectories⟩ := h.opened
  rw [himage] at hget
  cases hwrite : fs.writeFile out img.encode with
  | error e =>
    rw [storeGet_eq hopen hget, hwrite]
    exact ⟨_, rfl⟩
  | ok fs' =>
    obtain ⟨q, hplace, -⟩ := writeFile_eq_ok.1 hwrite
    exact absurd (hdirectories.symm.writable hplace) (hout q)

end Cli

end StackVm
