/-
Executables that are written over.  A successful bundling leaves the program of the running
executable and the image in the new file, whatever was there before, but for one file: where the
new file is the running executable itself, it is emptied before its program is copied, and only
the image is left.
-/
import StackVm.Proofs.Rebundling

namespace StackVm

theorem Text.littleEndian_fromLittleEndian (t : Text) :
    littleEndian t.length (fromLittleEndian t) = t := by
  induction t with
  | nil => rfl
  | cons b t ih =>
    have hlow : (b.toNat + 256 * fromLittleEndian t).toUInt8 = b := by
      apply UInt8.toNat_inj.1
      rw [Nat.toUInt8_eq, UInt8.toNat_ofNat']
      have hbyte := b.toNat_lt
      omega
    have hhigh : (b.toNat + 256 * fromLittleEndian t) / 256 = fromLittleEndian t := by
      have hbyte := b.toNat_lt
      omega
    rw [fromLittleEndian, List.length_cons, littleEndian, hlow, hhigh, ih]

namespace Bundle

variable {data program payload : Text} {layout : Layout}

/-- The program of an executable: all of it if there is no trailer, else what is in front of the
image. -/
inductive HasProgram : Text → Text → Prop
  | bare {data : Text} (noTrailer : data.length < trailerSize ∨ ¬ marker <:+ data) :
      HasProgram data data
  | bundled {program payload : Text} (fits : payload.length ≤ maxPayload) :
      HasProgram (write program payload) program

/-- A file is a program, or it ends in a trailer. -/
theorem bare_or_trailer (data : Text) :
    (data.length < trailerSize ∨ ¬ marker <:+ data) ∨
      ∃ front bytes, bytes.length = lengthSize ∧ data = front ++ bytes ++ marker := by
  by_cases hbare : data.length < trailerSize ∨ ¬ marker <:+ data
  · exact Or.inl hbare
  · obtain ⟨hlong, hmarker⟩ := not_or.1 hbare
    obtain ⟨rest, rfl⟩ := not_not.1 hmarker
    refine Or.inr ⟨rest.take (rest.length - lengthSize), rest.drop (rest.length - lengthSize),
      ?_, ?_⟩
    · rw [List.length_append, trailerSize] at hlong
      rw [List.length_drop]
      omega
    · rw [List.take_append_drop]

/-- The program of an executable is what is found when it is taken apart. -/
theorem hasProgram_iff : HasProgram data program ↔
    ∃ layout, read data = .ok layout ∧ program = data.take layout.stubSize := by
  constructor
  · intro h
    cases h with
    | bare noTrailer => exact ⟨_, read_of_bare noTrailer, List.take_length.symm⟩
    | @bundled program payload fits =>
      refine ⟨_, read_write fits, ?_⟩
      rw [write_eq, List.append_assoc, List.take_left]
  · rintro ⟨layout, hread, rfl⟩
    rcases bare_or_trailer data with hbare | ⟨front, bytes, hbytes, rfl⟩
    · rw [read_of_bare hbare] at hread
      cases hread
      rw [List.take_length]
      exact .bare hbare
    · rw [read_of_trailer hbytes] at hread
      generalize hn : Text.fromLittleEndian bytes = n at hread
      split at hread
      · cases hread
      · next hroom =>
        cases hread
        have hpayload : (front.drop (front.length - n)).length = n := by
          rw [List.length_drop]
          omega
        have hfits : n ≤ maxPayload := by
          have hlt := Text.fromLittleEndian_lt bytes
          rw [hn, hbytes] at hlt
          exact Nat.le_of_lt_succ hlt
        have hdata : front ++ bytes ++ marker =
            write (front.take (front.length - n)) (front.drop (front.length - n)) := by
          rw [write, List.take_append_drop, hpayload, ← hn, ← hbytes,
            Text.littleEndian_fromLittleEndian]
        have hprogram : (front ++ bytes ++ marker).take (front.length - n) =
            front.take (front.length - n) := by
          rw [List.append_assoc, List.take_append_of_le_length (Nat.sub_le _ _)]
        rw [hprogram, hdata]
        exact .bundled (hpayload.trans_le hfits)

end Bundle

namespace Cli

open FileSystem

variable {world : World} {args : List Text} {fs fs' : FileSystem} {c c' : Console}
  {path out stub payload exe : Text} {img : Image} {layout : Bundle.Layout}

/-- What a command line asks to be bundled: the image of a file is to stand behind the program of
the running executable, in a file that can be written. -/
structure Request (world : World) (args : List Text) (fs : FileSystem) where
  /-- The path of the new executable. -/
  out : Text
  /-- The path of the image. -/
  file : Text
  img : Image
  /-- The path of the running executable. -/
  stub : Text
  exe : Text
  program : Text
  /-- Where the running executable is. -/
  source : Place
  /-- Where the new executable is written. -/
  place : Place
  asked : readMixed [outputFlag] [] [] (args.length + 1) args = .ok (out, [file])
  image : readImage fs file = .ok img
  fits : img.encode.length ≤ Bundle.maxPayload
  running : world.executable = some stub
  executable : fs.read stub = .ok exe
  hasProgram : Bundle.HasProgram exe program
  resolve : fs.resolve stub = .ok source
  writable : fs.writable out = .ok place

/-- What is in front of the image in the new executable: the program of the running one, or nothing
where the new executable is written over the running one. -/
def Request.copied (r : Request world args fs) : Text :=
  if r.source = r.place then [] else r.program

/-- What is written. -/
def Request.written (r : Request world args fs) : Text := Bundle.write r.copied r.img.encode

/-- What was taken apart was read. -/
theorem read_of_readBundle (h : readBundle fs path = .ok layout) :
    ∃ data, fs.read path = .ok data ∧ Bundle.read data = .ok layout := by
  cases hread : fs.read path with
  | ok data => exact ⟨data, rfl, (readBundle_eq_ok hread).1 h⟩
  | error e =>
    exfalso
    simp only [FileSystem.read] at hread
    simp only [readBundle] at h
    cases hstat : fs.stat path with
    | error e => simp [hstat] at h
    | ok node =>
      cases hdata : contents node with
      | none => simp [hstat, hdata] at h
      | some data => simp [hstat, hdata] at hread

/-- A program is copied unless its file has just been emptied. -/
theorem programOf_eq {source place : Place} (hleads : Leads fs stub source exe)
    (hplace : place ≠ []) (size : Nat) :
    programOf fs source place size = if source = place then [] else exe.take size := by
  by_cases hsame : source = place
  · subst hsame
    rw [programOf, node?_setNode_self hplace, if_pos rfl]
    exact List.take_nil
  · rw [programOf, node?_setNode_of_ne hsame, hleads.contents, Option.getD_some, if_neg hsame]

/-- What a request leaves in the files. -/
def Request.result (r : Request world args fs) : FileSystem :=
  (fs.setNode r.place (.file [])).setNode r.place (.file r.written)

theorem Request.made_eq (r : Request world args fs) :
    made fs r.out r.stub r.img.encode = .ok r.result := by
  obtain ⟨layout, hlayout, hprogram⟩ := Bundle.hasProgram_iff.1 r.hasProgram
  refine made_eq_ok.2 ⟨layout, readBundle_of_read r.executable hlayout,
    writeBundle_eq_ok.2 ⟨r.fits, r.source, r.place, r.resolve, r.writable, ?_⟩⟩
  rw [programOf_eq (leads_of_read r.executable r.resolve)
    (ne_root_of_node? (vacant_of_writable r.writable).2), ← hprogram]
  rfl

theorem exists_request_of_made {file : Text}
    (hasked : readMixed [outputFlag] [] [] (args.length + 1) args = .ok (out, [file]))
    (himage : readImage fs file = .ok img) (hrunning : world.executable = some stub)
    (h : made fs out stub img.encode = .ok fs') :
    ∃ r : Request world args fs, r.out = out ∧ r.img = img ∧ fs' = r.result := by
  obtain ⟨layout, hlayout, hwritten⟩ := made_eq_ok.1 h
  obtain ⟨hfits, source, place, hsource, hplace, -⟩ := writeBundle_eq_ok.1 hwritten
  obtain ⟨exe, hread, hbundle⟩ := read_of_readBundle hlayout
  let r : Request world args fs :=
    { out, file, img, stub, exe, program := exe.take layout.stubSize, source, place
      asked := hasked, image := himage, fits := hfits, running := hrunning, executable := hread
      hasProgram := Bundle.hasProgram_iff.2 ⟨layout, hbundle, rfl⟩
      resolve := hsource, writable := hplace }
  have hmade := r.made_eq
  rw [h] at hmade
  exact ⟨r, rfl, rfl, Except.ok.inj hmade⟩

/-- A bundling that succeeds was given one image and the path of an executable. -/
theorem exists_asked_of_bundleCommand (h : bundleCommand world args c = .ok .ok c') :
    ∃ out file, readMixed [outputFlag] [] [] (args.length + 1) args = .ok (out, [file]) ∧
      bundleImage world out file c = .ok .ok c' := by
  simp only [bundleCommand] at h
  cases hasked : readMixed [outputFlag] [] [] (args.length + 1) args with
  | error e =>
    rw [hasked] at h
    cases h
  | ok found =>
    obtain ⟨out, files⟩ := found
    rw [hasked] at h
    rcases files with _ | ⟨file, _ | _⟩
    · cases h
    · dsimp only at h
      by_cases hout : out = []
      · rw [if_pos hout] at h
        cases h
      · rw [if_neg hout] at h
        exact ⟨out, file, rfl, h⟩
    · cases h

/-- A bundling that succeeds found an image in the file. -/
theorem exists_image_of_bundleImage {file : Text}
    (h : bundleImage world out file c = .ok .ok c') : ∃ img, readImage c.fs file = .ok img := by
  cases himage : readImage c.fs file with
  | error e =>
    simp only [bundleImage, bind_apply, get_apply, himage] at h
    cases h
  | ok img => exact ⟨img, rfl⟩

theorem Request.out_ne_nil (r : Request world args fs) : r.out ≠ [] := by
  intro hnil
  have hplace := r.writable
  rw [hnil] at hplace
  simp [FileSystem.writable, target, refusal?, mapError_error] at hplace

/-- A bundling succeeds exactly when there is a request, and this is what it does then. -/
theorem bundleCommand_eq_ok : bundleCommand world args c = .ok .ok c' ↔
    ∃ r : Request world args c.fs, c' = { c with
      fs := r.result, out := c.out ++
        (r.out ++ Text.ofString " " ++ Text.ofNat r.img.encode.length ++ Text.ofString "\n") } := by
  constructor
  · intro h
    obtain ⟨out, file, hasked, hbundled⟩ := exists_asked_of_bundleCommand h
    obtain ⟨img, himage⟩ := exists_image_of_bundleImage hbundled
    obtain ⟨stub, fs', hrunning, hmade, rfl⟩ := (bundleImage_eq_ok himage).1 hbundled
    obtain ⟨r, rfl, rfl, rfl⟩ := exists_request_of_made hasked himage hrunning hmade
    exact ⟨r, rfl⟩
  · rintro ⟨r, rfl⟩
    rw [bundleCommand, r.asked]
    simp only [if_neg r.out_ne_nil]
    exact (bundleImage_eq_ok r.image).2 ⟨r.stub, r.result, r.running, r.made_eq, rfl⟩

theorem Request.read_result (r : Request world args fs) :
    r.result.read r.out = .ok r.written := by
  have hemptied : fs.SameDirectories (fs.setNode r.place (.file [])) :=
    sameDirectories_setNode (vacant_of_writable r.writable).2 nofun
  apply @read_of_writeFile (fs.setNode r.place (.file []))
  exact writeFile_eq_ok.2 ⟨r.place, hemptied.writable r.writable, rfl⟩

theorem Request.node?_result (r : Request world args fs) {q : Place} (h : q ≠ r.place) :
    r.result.node? q = fs.node? q := by
  rw [Request.result, node?_setNode_of_ne h, node?_setNode_of_ne h]

/-- The whole program is in front of the image, unless it had to be written over itself. -/
theorem Request.written_eq_iff (r : Request world args fs) :
    r.written = Bundle.write r.program r.img.encode ↔ r.source ≠ r.place ∨ r.program = [] := by
  rw [Request.written, Request.copied]
  by_cases hsame : r.source = r.place
  · simp [hsame, Bundle.write]
  · simp [hsame]

/-- Bundling works on what was there before.  It succeeds exactly when there is an image in the
file, an executable that can be taken apart and a file that can be written; then the new executable
is the program of the running one with the image that was in the file, the length of the image and
the marker behind it, and nothing else has changed.  Only where the new executable and the running
one are the same file, of a program that is not empty, the program is lost: the file then begins
with the image, and the bundling succeeds all the same. -/
theorem bundleCommand_copies (world : World) (args : List Text) (c : Console) :
    (∀ c', bundleCommand world args c = .ok .ok c' →
      ∃ r : Request world args c.fs,
        c'.fs.read r.out = .ok ((if r.source = r.place then [] else r.program) ++ r.img.encode ++
          Text.littleEndian 4 r.img.encode.length ++ Bundle.marker) ∧
        (c'.fs.read r.out = .ok (r.program ++ r.img.encode ++
          Text.littleEndian 4 r.img.encode.length ++ Bundle.marker) ↔
            r.source ≠ r.place ∨ r.program = []) ∧
        ∀ q, q ≠ r.place → c'.fs.node? q = c.fs.node? q) ∧
    (Request world args c.fs → ∃ c', bundleCommand world args c = .ok .ok c') := by
  constructor
  · intro c' h
    obtain ⟨r, rfl⟩ := bundleCommand_eq_ok.1 h
    refine ⟨r, r.read_result, ?_, fun q hq => r.node?_result hq⟩
    rw [← r.written_eq_iff, r.read_result, Except.ok.injEq]
    rfl
  · intro r
    exact ⟨_, bundleCommand_eq_ok.2 ⟨r, rfl⟩⟩

/-! A bare chunk in a file beside the running executable. -/

/-- The files. -/
def besideFiles : FileSystem := stubFiles.setNode ["p"] (.file Chunk.magic)

/-- The running program. -/
def besideWorld : World := { executable := some "druk", steps := 100 }

/-- A request for another executable. -/
def besideRequest : Request besideWorld ["p", "-o", "e"] besideFiles where
  out := "e"
  file := "p"
  img := .ofChunk [] Chunk.magic
  stub := "druk"
  exe := "ELF"
  program := "ELF"
  source := ["druk"]
  place := ["e"]
  asked := rfl
  image := rfl
  fits := by decide
  running := rfl
  executable := rfl
  hasProgram := .bare (Or.inl (by decide))
  resolve := rfl
  writable := rfl

/-- The chunk is bundled with the program when it is asked for elsewhere. -/
theorem bundleCommand_copies_beside :
    ∃ c', bundleCommand besideWorld ["p", "-o", "e"] { fs := besideFiles } = .ok .ok c' ∧
      ∃ r : Request besideWorld ["p", "-o", "e"] besideFiles,
        c'.fs.read r.out = .ok ((if r.source = r.place then [] else r.program) ++ r.img.encode ++
          Text.littleEndian 4 r.img.encode.length ++ Bundle.marker) ∧
        (c'.fs.read r.out = .ok (r.program ++ r.img.encode ++
          Text.littleEndian 4 r.img.encode.length ++ Bundle.marker) ↔
            r.source ≠ r.place ∨ r.program = []) ∧
        ∀ q, q ≠ r.place → c'.fs.node? q = besideFiles.node? q := by
  obtain ⟨hdone, hsucceeds⟩ :=
    bundleCommand_copies besideWorld ["p", "-o", "e"] { fs := besideFiles }
  obtain ⟨c', h⟩ := hsucceeds besideRequest
  exact ⟨c', h, hdone c' h⟩

/-- When the executable is asked for under the path of the running one, the command succeeds and
the program is gone. -/
theorem bundleCommand_loses_program :
    ∃ c', bundleCommand besideWorld ["p", "-o", "druk"] { fs := besideFiles } = .ok .ok c' ∧
      besideFiles.read "druk" = .ok "ELF" ∧
      readImage besideFiles "p" = .ok (.ofChunk [] Chunk.magic) ∧
      c'.fs.read "druk" ≠ .ok (Bundle.write "ELF" (Image.ofChunk [] Chunk.magic).encode) ∧
      c'.fs.read "druk" = .ok (Bundle.write [] (Image.ofChunk [] Chunk.magic).encode) := by
  refine ⟨_, rfl, rfl, rfl, ?_, rfl⟩
  decide

end Cli

end StackVm
