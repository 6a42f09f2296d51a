/-
The ways of running a program.  Whether its file is run, or the program is saved in the store and
run from there, or written to another file, or put behind an executable: the same image is run.
-/
import StackVm.Proofs.Bundles
import StackVm.Proofs.Effects
import StackVm.Proofs.ImageReading
import StackVm.Proofs.StoreCommands
import StackVm.Proofs.TwinVerify
import StackVm.Proofs.Validation

namespace StackVm

open FileSystem

theorem Text.after?_append (mark t : Text) : Text.after? mark (mark ++ t) = some t := by
  induction mark with
  | nil => rfl
  | cons b mark ih => simp [Text.after?, ih]

namespace Cli

open Store

variable {c c' : Console} {setup : Setup} {place : Place}
  {name path file out data : Text} {img : Image} {p : Contents} {fs : FileSystem}

/-! ### Calls -/

/-- What a program is run with besides its image. -/
structure Call where
  world : World
  settings : Manifest
  /-- What the program is told that it is called. -/
  program : Text
  args : List Text

/-- Runs an image; there is a code as there was an image. -/
def Call.run (call : Call) (img : Image) : CommandM (Option ExitCode) :=
  some <$> runImage call.world call.settings img call.program call.args

/-- A call by a command that was told `setup`. -/
def Setup.call (setup : Setup) (program : Text) (args : List Text) : Call :=
  ⟨setup.world, setup.settings, program, args⟩

theorem Call.filesAside_run (call : Call) (img : Image) : FilesAside (call.run img) :=
  (filesAside_runImage _ _ _ _ _).map some

/-! ### The routes -/

/-- A word of the command line names a file to run, and no stored image. -/
structure NamesFile (path : Text) : Prop where
  ne_nil : path ≠ []
  notStored : storedName? path = none

/-- The bytes of a file have been saved under a name in the store at a path, and what has been done
to the store since then was about other names. -/
def Saved (data name path : Text) (place : Place) (fs : FileSystem) : Prop :=
  ∃ (setup : Setup) (file : Text) (p : Contents) (c c' : Console), setup.storePath = path ∧
    c.fs.read file = .ok data ∧ Ready c.fs path place p ∧
    dispatch setup ["store", "put", name, file] c = .ok .ok c' ∧ Elsewhere path place name c'.fs fs

/-- The ways of running the program in the bytes of a file, `data`, which may be saved under a name:
the command, where it is given, and the call that it amounts to. -/
inductive Route (data name path : Text) (place : Place) :
    CommandM (Option ExitCode) → Console → Call → Prop
  /-- Its file is run. -/
  | file {setup : Setup} {c : Console} {file : Text} {args : List Text} (named : NamesFile file)
      (read : c.fs.read file = .ok data) :
      Route data name path place (some <$> dispatch setup ("run" :: file :: args)) c
        (setup.call file args)
  /-- It has been saved and is run from the store. -/
  | stored {setup : Setup} {c : Console} {args : List Text}
      (saved : Saved data name path place c.fs) (same : setup.storePath = path) :
      Route data name path place (some <$> dispatch setup ("store" :: "run" :: name :: args)) c
        (setup.call name args)
  /-- It has been saved and is run as what stands behind the word that marks stored images. -/
  | marked {setup : Setup} {c : Console} {args : List Text}
      (saved : Saved data name path place c.fs) (same : setup.storePath = path) :
      Route data name path place (some <$> dispatch setup ("run" :: ("store:" ++ name) :: args)) c
        (setup.call name args)
  /-- It has been saved and written to a file, which is run. -/
  | copied {setup setup' : Setup} {before after c : Console} {out : Text} {args : List Text}
      (saved : Saved data name path place before.fs) (same : setup.storePath = path)
      (got : dispatch setup ["store", "get", name, out] before = .ok .ok after)
      (named : NamesFile out) (kept : c.fs.read out = after.fs.read out) :
      Route data name path place (some <$> dispatch setup' ("run" :: out :: args)) c
        (setup'.call out args)
  /-- It has been put behind an executable, which is started, maybe under another name. -/
  | bundled {setup : Setup} {world : World} {before after c : Console} {file out exe program : Text}
      {args : List Text} (plain : classify file = .plain) (read : before.fs.read file = .ok data)
      (made : dispatch setup ["bundle", file, "-o", out] before = .ok .ok after)
      (kept : c.fs.read exe = after.fs.read out) :
      Route data name path place (runEmbedded world exe (program :: args)) c
        ⟨world, .standard (Path.parent exe), program, args⟩

/-! ### Running a file -/

theorem readImage_of_read (hread : fs.read file = .ok data) (hparse : Image.parse data = .ok img) :
    readImage fs file = .ok img := by
  simp [readImage, hread, hparse, bind, Except.bind, mapError_ok]

theorem handsOver_run (hnamed : NamesFile file) (hread : c.fs.read file = .ok data)
    (hparse : Image.parse data = .ok img) (setup : Setup) (args : List Text) :
    HandsOver (dispatch setup ("run" :: file :: args)) c
      (runImage setup.world setup.settings img file args) := by
  apply HandsOver.of_eq (filesAside_runImage _ _ _ _ _)
  change runCommand setup (file :: args) c = _
  simp only [runCommand, List.headD_cons, if_neg hnamed.ne_nil, hnamed.notStored, bind_apply,
    get_apply, readImage_of_read hread hparse, List.tail_cons]

/-! ### Running a stored image -/

theorem dispatch_storePut (setup : Setup) (name file : Text) :
    dispatch setup ["store", "put", name, file] = storePut setup name file := rfl

theorem dispatch_storeGet (setup : Setup) (name out : Text) :
    dispatch setup ["store", "get", name, out] = storeGet setup name out := rfl

theorem dispatch_storePut_iff (hname : name ≠ []) (hread : c.fs.read file = .ok data)
    (hparse : Image.parse data = .ok img) (hready : Ready c.fs setup.storePath place p) :
    (∃ c', dispatch setup ["store", "put", name, file] c = .ok .ok c') ↔
      Room p setup.world.now name img := by
  have himage := readImage_of_read hread hparse
  rw [dispatch_storePut]
  constructor
  · rintro ⟨c', hput⟩
    by_contra hroom
    obtain ⟨c'', hfailure⟩ := storePut_failure hready himage hname hroom
    rw [hput] at hfailure
    cases hfailure
  · intro hroom
    obtain ⟨c', hput, -⟩ := storePut_ok hready himage hname hroom
    exact ⟨c', hput⟩

/-- What has been saved is held by the store with its image. -/
theorem Saved.holds (h : Saved data name path place fs) (hname : name ≠ [])
    (hparse : Image.parse data = .ok img) (hsound : img.Sound) (hfits : img.Fits) :
    ∃ row, Holds fs path place name row ∧ imageOf name row = .ok img := by
  obtain ⟨setup, file, p, c, c', rfl, hread, hready, hput, hsince⟩ := h
  have hroom := (dispatch_storePut_iff hname hread hparse hready).1 ⟨c', hput⟩
  obtain ⟨c'', hput', hholds, -⟩ := storePut_ok hready (readImage_of_read hread hparse) hname hroom
  rw [← dispatch_storePut, hput] at hput'
  cases hput'
  exact ⟨_, hsince.holds hholds, imageOf_rowOf hsound hfits p setup.world.now name⟩

theorem storedName?_mark (hname : name ≠ []) : storedName? ("store:" ++ name) = some name := by
  simp [storedName?, Text.after?_append, Option.filter, hname]

theorem dispatch_run_mark (hname : name ≠ []) (setup : Setup) (args : List Text) :
    dispatch setup ("run" :: ("store:" ++ name) :: args) = storeRun setup name args := by
  change runCommand setup (("store:" ++ name) :: args) = _
  have hne : Text.ofString "store:" ++ name ≠ [] := by simp [hname]
  simp only [runCommand, List.headD_cons, if_neg hne, storedName?_mark hname, List.tail_cons]

/-! ### Copies of a stored image -/

theorem dispatch_storeGet_iff {row : Row} (h : Holds c.fs setup.storePath place name row)
    (himage : imageOf name row = .ok img) (out : Text) :
    (∃ c', dispatch setup ["store", "get", name, out] c = .ok .ok c') ↔
      ∃ q, c.fs.writable out = .ok q := by
  rw [dispatch_storeGet]
  constructor
  · rintro ⟨c', hget⟩
    by_contra hout
    obtain ⟨c'', hfailure⟩ := storeGet_failure h himage fun q hq => hout ⟨q, hq⟩
    rw [hget] at hfailure
    cases hfailure
  · rintro ⟨q, hq⟩
    obtain ⟨c', hget, -⟩ := storeGet_ok h himage hq
    exact ⟨c', hget⟩

theorem read_of_dispatch_storeGet {row : Row} (h : Holds c.fs setup.storePath place name row)
    (himage : imageOf name row = .ok img)
    (hget : dispatch setup ["store", "get", name, out] c = .ok .ok c') :
    c'.fs.read out = .ok img.encode := by
  obtain ⟨q, hq⟩ := (dispatch_storeGet_iff h himage out).1 ⟨c', hget⟩
  obtain ⟨c'', hget', hread⟩ := storeGet_ok h himage hq
  rw [← dispatch_storeGet, hget] at hget'
  cases hget'
  exact hread

/-! ### All of them -/

theorem Route.handsOver {command : CommandM (Option ExitCode)} {call : Call}
    (h : Route data name path place command c call) (hname : name ≠ [])
    (hparse : Image.parse data = .ok img) (hsound : img.Sound) (hfits : img.Fits) :
    HandsOver command c (call.run img) := by
  cases h with
  | file named read => exact (handsOver_run named read hparse _ _).map some
  | stored saved same =>
    subst same
    obtain ⟨row, hholds, himage⟩ := saved.holds hname hparse hsound hfits
    exact (handsOver_storeRun hholds himage _).map some
  | marked saved same =>
    subst same
    obtain ⟨row, hholds, himage⟩ := saved.holds hname hparse hsound hfits
    rw [dispatch_run_mark hname]
    exact (handsOver_storeRun hholds himage _).map some
  | copied saved same got named kept =>
    subst same
    obtain ⟨row, hholds, himage⟩ := saved.holds hname hparse hsound hfits
    have hread := read_of_dispatch_storeGet hholds himage got
    rw [← kept] at hread
    exact (handsOver_run named hread (Image.parse_eq_ok hsound hfits) _ _).map some
  | bundled plain read made kept =>
    have himage := readImage_of_read read hparse
    have hsize := ((exists_bundleCommand_eq_ok plain himage).1 ⟨_, made⟩).1
    obtain ⟨program, hbundle⟩ := read_of_bundleCommand plain himage made
    rw [← kept] at hbundle
    apply HandsOver.of_eq (Call.filesAside_run _ _)
    rw [runEmbedded_eq hbundle hsize (Image.parse_eq_ok hsound hfits)]
    rfl

/-- All ways of running a program run the same program.  Each of them hands the image that is in
the file over to be run, so that two of them with the same call and the same streams show the same;
and what has to be done before succeeds whenever there is room and the files can be written. -/
theorem routes_agree (path : Text) (place : Place) (hparse : Image.parse data = .ok img)
    (hsize : data.length < 2 ^ 64) (hname : name ≠ []) :
    (∀ {command c call}, Route data name path place command c call →
      HandsOver command c (call.run img)) ∧
    (∀ {command command' c c' call}, Route data name path place command c call →
      Route data name path place command' c' call → SameStreams c c' →
        shown (command' c') = shown (command c)) ∧
    (∀ {setup file c p}, c.fs.read file = .ok data → Ready c.fs setup.storePath place p →
      ((∃ c', dispatch setup ["store", "put", name, file] c = .ok .ok c') ↔
        Room p setup.world.now name img)) ∧
    (∀ {setup out c}, Saved data name path place c.fs → setup.storePath = path →
      ((∃ c', dispatch setup ["store", "get", name, out] c = .ok .ok c') ↔
        ∃ q, c.fs.writable out = .ok q)) ∧
    ∀ {setup file out c}, classify file = .plain → c.fs.read file = .ok data →
      ((∃ c', dispatch setup ["bundle", file, "-o", out] c = .ok .ok c') ↔
        img.encode.length ≤ Bundle.maxPayload ∧
          (∃ stub layout, setup.world.executable = some stub ∧
            readBundle c.fs stub = .ok layout) ∧
          ∃ q, c.fs.writable out = .ok q) := by
  obtain ⟨hsound, hwords⟩ := Image.sound_of_parse hparse
  have hfits := hwords hsize
  refine ⟨?_, ?_, ?_, ?_, ?_⟩
  · intro command c call hroute
    exact hroute.handsOver hname hparse hsound hfits
  · intro command command' c c' call hroute hroute' hsame
    have hrun := call.filesAside_run img
    rw [(hroute.handsOver hname hparse hsound hfits).shown_eq hrun,
      (hroute'.handsOver hname hparse hsound hfits).shown_eq hrun, hrun.shown_eq hsame]
  · intro setup file c p hread hready
    exact dispatch_storePut_iff hname hread hparse hready
  · intro setup out c hsaved hpath
    subst hpath
    obtain ⟨row, hholds, himage⟩ := hsaved.holds hname hparse hsound hfits
    exact dispatch_storeGet_iff hholds himage out
  · intro setup file out c hplain hread
    exact exists_bundleCommand_eq_ok hplain (readImage_of_read hread hparse)

/-! A bare chunk in a file, beside an executable, where there is no store yet. -/

/-- The code of a program that prints true and returns nil. -/
def speakingChunk : Chunk := { code := #[3, 20, 2, 0], lines := #[1, 1, 1, 1] }

/-- The bytes of that program. -/
def speakingBytes : Text := Chunk.magic ++
  [4, 0, 0, 0, 0, 0, 0, 0, 4, 0, 0, 0, 3, 20, 2, 0, 1, 0, 0, 0, 1, 0, 0, 0, 1, 0, 0, 0, 1, 0, 0, 0]

/-- The files. -/
def chunkFiles : FileSystem :=
  (({} : FileSystem).setNode ["p"] (.file speakingBytes)).setNode ["druk"] (.file "ELF")

/-- What commands are told there. -/
def chunkSetup : Setup :=
  ⟨{ executable := some "druk", steps := 100 }, .standard "/", "s.db"⟩

theorem ready_chunkFiles : Ready chunkFiles "s.db" ["s.db"] {} := by
  refine ⟨chunkFiles, rfl, ?_⟩
  exact {
    plain := ⟨"s.db",
      Location.plain_of_simple (by decide) (by decide) (by decide) (by decide) (by decide),
      rfl, ["s.db"], rfl, rfl⟩
    short := by decide
    directories := rfl
    parent := rfl
    idle := rfl
    serves := ⟨⟨by decide, by decide⟩, Or.inr ⟨rfl, rfl⟩, rfl, rfl, rfl⟩
    utf8 := rfl }

theorem room_chunk : Room {} 0 "p" (.ofChunk [] speakingBytes) := room_new 0 (by decide)

/-- The heap once the program is loaded and a machine is made for it. -/
def chunkLoaded : Memory where
  heap := { Heap.create 0 .standard with
    slots := #[some 0]
    generations := #[1]
    marks := #[false]
    live := 1
    roots := ⟨1, [⟨1, "vm"⟩]⟩
    pins := [(0, 1)] }
  objects := #[⟨.function { chunk := some 0 }, some ⟨0, 0, 1, false⟩⟩]
  chunks := #[speakingChunk]

/-- The machine before it has its arguments. -/
def chunkMachine : Machine := { source := 1, stackMax := 16384, maxFrames := 64 }

/-- The machine with its arguments. -/
def chunkStart : Execution :=
  stateAfter (Exec.setArgs noHoldings ["p", "a"] { memory := chunkLoaded, machine := chunkMachine })

/-- What the program prints. -/
def chunkOutput : Array UInt8 := (truthWord true ++ [0x0A]).toArray

theorem speakingChunk_valid (typeOf : Value → ValueType) :
    speakingChunk.validate typeOf = .ok () := by
  have htrue : Chunk.Checked typeOf speakingChunk 0 .pushTrue := ⟨⟨3, rfl, rfl⟩, rfl, rfl⟩
  have hprint : Chunk.Checked typeOf speakingChunk 1 .print := ⟨⟨20, rfl, rfl⟩, rfl, rfl⟩
  have hnil : Chunk.Checked typeOf speakingChunk 2 .pushNil := ⟨⟨2, rfl, rfl⟩, rfl, rfl⟩
  have hret : Chunk.Checked typeOf speakingChunk 3 .ret := ⟨⟨0, rfl, rfl⟩, rfl, rfl⟩
  have hlinked : speakingChunk.unlinked = [] := rfl
  rw [Chunk.validate, if_pos hlinked, htrue.validateFrom]
  change speakingChunk.validateFrom typeOf 1 = _
  rw [hprint.validateFrom]
  change speakingChunk.validateFrom typeOf 2 = _
  rw [hnil.validateFrom]
  change speakingChunk.validateFrom typeOf 3 = _
  rw [hret.validateFrom]
  exact Chunk.validateFrom_size

theorem chunkStart_verify :
    chunkStart.memory.verify 0 = (chunkStart.memory.setVerified 0, none) := by
  have hf : chunkStart.memory.function? 0 = some { chunk := some 0 } := rfl
  have hone : chunkStart.memory.verifyOne { chunk := some 0 } = .ok [] :=
    Memory.verifyOne_of_valid rfl (speakingChunk_valid _)
  have hsearch : chunkStart.memory.verifySearch [] [] [.enter 0] = ([0], none) := by
    rw [Memory.verifySearch_enter_some hf, if_neg (by decide), hone]
    change chunkStart.memory.verifySearch [0] [] [.leave 0] = _
    simp only [Memory.verifySearch]
  rw [Memory.verify_eq, if_neg (by decide), hsearch]
  rfl

theorem chunkStart_interpret : Exec.interpret noHoldings 100 (some 0) chunkStart =
    .done .ok { chunkStart with
      memory := chunkStart.memory.setVerified 0
      machine := { chunkStart.machine with stack := #[.nil] }
      out := chunkOutput } := by
  rw [Exec.interpret, Exec.interpretWith, if_neg (by decide)]
  dsimp only
  rw [chunkStart_verify]
  rfl

/-- The program runs, prints true and ends well. -/
theorem run_chunk : (chunkSetup.call "p" ["a"]).run (.ofChunk [] speakingBytes)
    { fs := chunkFiles } = .ok (some .ok) { fs := chunkFiles, out := chunkOutput } := by
  let memory : Memory := { chunkLoaded with heap := { chunkLoaded.heap with roots := {} } }
  have hload : Image.load noHoldings (.ofChunk [] speakingBytes)
      { heap := Heap.create 0 chunkSetup.settings.heap } = .ok (.ok 0) memory := rfl
  have hmachine : Machine.create chunkSetup.settings.machine memory =
      .ok chunkMachine chunkLoaded := rfl
  have hargs : Exec.setArgs noHoldings ["p", "a"]
      { memory := chunkLoaded, machine := chunkMachine } = .ok () chunkStart := rfl
  have hexecute : execute 100 0 ["p", "a"] { memory := chunkLoaded, machine := chunkMachine }
      { fs := chunkFiles } = .ok .ok { fs := chunkFiles, out := chunkOutput } := by
    rw [execute, hargs]
    dsimp only
    rw [chunkStart_interpret]
    rfl
  have himage : runImage chunkSetup.world chunkSetup.settings (.ofChunk [] speakingBytes) "p" ["a"]
      { fs := chunkFiles } = .ok .ok { fs := chunkFiles, out := chunkOutput } := by
    dsimp only [runImage]
    rw [hload]
    dsimp only
    rw [hmachine]
    exact hexecute
  rw [Call.run, map_apply]
  dsimp only [Setup.call]
  rw [himage]

/-- The chunk can be saved, copied and bundled, and what it does is the same from its file, from
the store, from the copy and from the executable. -/
theorem routes_agree_chunk :
    ∃ saved copied bundled : Console,
      dispatch chunkSetup ["store", "put", "p", "p"] { fs := chunkFiles } = .ok .ok saved ∧
      dispatch chunkSetup ["store", "get", "p", "q"] { fs := saved.fs } = .ok .ok copied ∧
      dispatch chunkSetup ["bundle", "p", "-o", "e"] { fs := chunkFiles } = .ok .ok bundled ∧
      shown ((some <$> dispatch chunkSetup ["run", "p", "a"]) { fs := chunkFiles }) =
        (.ok (some .ok), [], chunkOutput, #[]) ∧
      shown ((some <$> dispatch chunkSetup ["store", "run", "p", "a"]) { fs := saved.fs }) =
        (.ok (some .ok), [], chunkOutput, #[]) ∧
      shown ((some <$> dispatch chunkSetup ["run", "store:p", "a"]) { fs := saved.fs }) =
        (.ok (some .ok), [], chunkOutput, #[]) ∧
      HandsOver (some <$> dispatch chunkSetup ["run", "q", "a"]) { fs := copied.fs }
        ((chunkSetup.call "q" ["a"]).run (.ofChunk [] speakingBytes)) ∧
      HandsOver (runEmbedded chunkSetup.world "e" ["e", "a"]) { fs := bundled.fs }
        (Call.run ⟨chunkSetup.world, .standard (Path.parent "e"), "e", ["a"]⟩
          (.ofChunk [] speakingBytes)) := by
  have hread : chunkFiles.read "p" = .ok speakingBytes := rfl
  have hparse : Image.parse speakingBytes = .ok (.ofChunk [] speakingBytes) := rfl
  have hname : Text.ofString "p" ≠ [] := by decide
  obtain ⟨hover, hsame, -, hget, hbundle⟩ :=
    routes_agree "s.db" ["s.db"] hparse (by decide) hname
  have hready : Ready ({ fs := chunkFiles } : Console).fs chunkSetup.storePath ["s.db"] {} :=
    ready_chunkFiles
  obtain ⟨saved, hput, hholds, honly⟩ :=
    storePut_ok hready (readImage_of_read hread hparse) hname room_chunk
  rw [← dispatch_storePut] at hput
  have hsaved : Saved speakingBytes "p" "s.db" ["s.db"] ({ fs := saved.fs } : Console).fs :=
    ⟨chunkSetup, "p", {}, { fs := chunkFiles }, saved, rfl, hread, hready, hput, .refl _⟩
  have hout : saved.fs.writable "q" = .ok ["q"] := by
    obtain ⟨files, hmade, hrests⟩ := ready_chunkFiles
    cases hmade
    obtain ⟨p, hrests', -⟩ := hholds
    exact (sameDirectories_of_only honly hrests.serves hrests'.serves).writable rfl
  have hpath : chunkSetup.storePath = Text.ofString "s.db" := rfl
  obtain ⟨copied, hcopied⟩ := (hget hsaved hpath).2 ⟨["q"], hout⟩
  have hprogram : ({ fs := chunkFiles } : Console).fs.read "p" = .ok speakingBytes := hread
  have hstub : chunkSetup.world.executable = some (Text.ofString "druk") := rfl
  have hexe : ({ fs := chunkFiles } : Console).fs.writable "e" = .ok ["e"] := rfl
  obtain ⟨bundled, hbundled⟩ :=
    (hbundle rfl hprogram).2 ⟨by decide, ⟨"druk", ⟨3, none⟩, hstub, rfl⟩, ["e"], hexe⟩
  have hfile : Route speakingBytes "p" "s.db" ["s.db"]
      (some <$> dispatch chunkSetup ["run", "p", "a"]) { fs := chunkFiles }
      (chunkSetup.call "p" ["a"]) := .file ⟨hname, by decide⟩ hread
  have hshown : shown ((some <$> dispatch chunkSetup ["run", "p", "a"]) { fs := chunkFiles }) =
      (.ok (some .ok), [], chunkOutput, #[]) := by
    rw [(hover hfile).shown_eq (Call.filesAside_run _ _), run_chunk]
    rfl
  refine ⟨saved, copied, bundled, hput, hcopied, hbundled, hshown, ?_, ?_, ?_, ?_⟩
  · exact (hsame hfile (.stored hsaved hpath) ⟨rfl, rfl, rfl⟩).trans hshown
  · exact (hsame hfile (.marked hsaved hpath) ⟨rfl, rfl, rfl⟩).trans hshown
  · apply hover
    apply Route.copied hsaved hpath hcopied ⟨by decide, by decide⟩
    rfl
  · apply hover
    apply Route.bundled _ hprogram hbundled
    · rfl
    · rfl

end Cli

end StackVm
