/-
Executables with an image behind them.  What is put together is taken apart again, whatever the
executable in front of the image is.
-/
import StackVm.Cli.Bundling
import StackVm.Proofs.FilePaths
import StackVm.Proofs.Handover
import StackVm.Proofs.WireFormat

namespace StackVm

namespace Bundle

variable {stub payload : Text}

/-- The length of the image and the marker behind it. -/
def trailerOf (payload : Text) : Text := Text.littleEndian lengthSize payload.length ++ marker

theorem write_eq (stub payload : Text) :
    write stub payload = (stub ++ payload) ++ trailerOf payload := by
  simp [write, trailerOf]

theorem length_trailerOf (payload : Text) : (trailerOf payload).length = trailerSize := by
  rw [trailerOf, List.length_append, Text.length_littleEndian, trailerSize]

theorem drop_trailerOf (payload : Text) : (trailerOf payload).drop lengthSize = marker :=
  List.drop_left' (Text.length_littleEndian _ _)

theorem take_trailerOf (payload : Text) :
    (trailerOf payload).take lengthSize = Text.littleEndian lengthSize payload.length :=
  List.take_left' (Text.length_littleEndian _ _)

theorem isNumber_trailer (h : payload.length ≤ maxPayload) :
    Text.IsNumber (Text.littleEndian lengthSize payload.length) lengthSize payload.length :=
  Text.isNumber_littleEndian (Nat.lt_succ_of_le h)

/-- An image that was put behind an executable is found there. -/
theorem read_write (h : payload.length ≤ maxPayload) :
    read (write stub payload) = .ok ⟨stub.length, some payload⟩ := by
  have hsize : (write stub payload).length = (stub ++ payload).length + trailerSize := by
    rw [write_eq, List.length_append, length_trailerOf]
  have htrailer : (write stub payload).drop (stub ++ payload).length = trailerOf payload := by
    rw [write_eq]
    exact List.drop_left
  have hpayload : ((write stub payload).drop stub.length).take payload.length = payload := by
    rw [write_eq, List.append_assoc, List.drop_left, List.take_left]
  have hroom : (stub ++ payload).length - payload.length = stub.length := by simp
  have hlong : ¬ (stub ++ payload).length + trailerSize < trailerSize := by omega
  have hfits : ¬ (stub ++ payload).length < payload.length := by simp
  simp only [read, hsize, Nat.add_sub_cancel, htrailer, drop_trailerOf, take_trailerOf,
    (isNumber_trailer h).2, hroom, hpayload, hlong, hfits, ne_eq, not_true_eq_false, or_self,
    if_false]

end Bundle

namespace Cli

open FileSystem

variable {fs fs' : FileSystem} {path out stub file payload : Text} {world : World} {img : Image}
  {c c' : Console} {size : Nat}

theorem readBundle_of_read {data : Text} {layout : Bundle.Layout} (h : fs.read path = .ok data)
    (hlayout : Bundle.read data = .ok layout) : readBundle fs path = .ok layout := by
  obtain ⟨place, node, hresolve, hnode, hdata⟩ := read_eq_ok.1 h
  simp only [readBundle, stat, hresolve, hnode, hdata, hlayout]

theorem exists_resolve_of_readBundle {layout : Bundle.Layout}
    (h : readBundle fs path = .ok layout) : ∃ place, fs.resolve path = .ok place := by
  cases hresolve : fs.resolve path with
  | error e =>
    simp only [readBundle, stat, hresolve] at h
    cases h
  | ok place => exact ⟨place, rfl⟩

/-- The bytes that are copied from an executable to the file made of it, which has been emptied. -/
def programOf (fs : FileSystem) (source place : Place) (size : Nat) : Text :=
  ((((fs.setNode place (.file [])).node? source).bind contents).getD []).take size

theorem writeBundle_eq_ok : writeBundle fs out stub size payload = .ok fs' ↔
    payload.length ≤ Bundle.maxPayload ∧ ∃ source place, fs.resolve stub = .ok source ∧
      fs.writable out = .ok place ∧
      fs' = (fs.setNode place (.file [])).setNode place
        (.file (Bundle.write (programOf fs source place size) payload)) := by
  by_cases hlarge : Bundle.maxPayload < payload.length
  · simp [writeBundle, hlarge, throw, throwThe, MonadExceptOf.throw, bind, Except.bind,
      Nat.not_le.2 hlarge]
  · cases hsource : fs.resolve stub with
    | error e => simp [writeBundle, hlarge, hsource, mapError_error, bind, Except.bind]
    | ok source =>
      cases hplace : fs.writable out with
      | error e =>
        simp [writeBundle, hlarge, hsource, hplace, mapError_ok, mapError_error, bind, Except.bind]
      | ok place =>
        simp [writeBundle, hlarge, hsource, hplace, mapError_ok, bind, Except.bind, programOf,
          pure, Except.pure, Nat.not_lt.1 hlarge, eq_comm]

/-- The file system with the executable that is made from the one at `stub`. -/
def made (fs : FileSystem) (out stub payload : Text) : Except BundleError FileSystem := do
  let layout ← readBundle fs stub
  writeBundle fs out stub layout.stubSize payload

theorem made_eq_ok : made fs out stub payload = .ok fs' ↔
    ∃ layout, readBundle fs stub = .ok layout ∧
      writeBundle fs out stub layout.stubSize payload = .ok fs' := by
  cases hlayout : readBundle fs stub with
  | error e => simp [made, hlayout, bind, Except.bind]
  | ok layout => simp [made, hlayout, bind, Except.bind]

/-- An executable is made exactly when there is one to copy, the image is not too large and the
file can be written. -/
theorem exists_made : (∃ fs', made fs out stub payload = .ok fs') ↔
    payload.length ≤ Bundle.maxPayload ∧ (∃ layout, readBundle fs stub = .ok layout) ∧
      ∃ place, fs.writable out = .ok place := by
  constructor
  · rintro ⟨fs', hmade⟩
    obtain ⟨layout, hlayout, hwritten⟩ := made_eq_ok.1 hmade
    obtain ⟨hsize, source, place, -, hplace, -⟩ := writeBundle_eq_ok.1 hwritten
    exact ⟨hsize, ⟨layout, hlayout⟩, place, hplace⟩
  · rintro ⟨hsize, ⟨layout, hlayout⟩, place, hplace⟩
    obtain ⟨source, hsource⟩ := exists_resolve_of_readBundle hlayout
    exact ⟨_, made_eq_ok.2 ⟨layout, hlayout,
      writeBundle_eq_ok.2 ⟨hsize, source, place, hsource, hplace, rfl⟩⟩⟩

/-- An executable that was made has the image behind something. -/
theorem read_of_made (h : made fs out stub payload = .ok fs') :
    ∃ program, fs'.read out = .ok (Bundle.write program payload) := by
  obtain ⟨layout, -, hwritten⟩ := made_eq_ok.1 h
  obtain ⟨-, source, place, -, hplace, rfl⟩ := writeBundle_eq_ok.1 hwritten
  obtain ⟨hresolve, hvacant⟩ := vacant_of_writable hplace
  have hemptied : fs.SameDirectories (fs.setNode place (.file [])) :=
    sameDirectories_setNode hvacant nofun
  refine ⟨programOf fs source place layout.stubSize, ?_⟩
  apply @read_of_writeFile (fs.setNode place (.file []))
  exact writeFile_eq_ok.2 ⟨place, hemptied.writable hplace, rfl⟩

/-! ### The commands -/

theorem bundleImage_eq (hread : readImage c.fs path = .ok img)
    (hstub : world.executable = some stub) :
    bundleImage world out path c = match made c.fs out stub img.encode with
      | .error e => fail .failure e.message c
      | .ok fs => .ok .ok { c with
          fs, out := c.out ++
            (out ++ Text.ofString " " ++ Text.ofNat img.encode.length ++ Text.ofString "\n") } := by
  simp only [bundleImage, bind_apply, get_apply, hread, hstub]
  rw [← made]
  cases made c.fs out stub img.encode <;> rfl

/-- When an image is bundled an executable is made, and this is all that can go wrong. -/
theorem bundleImage_eq_ok (hread : readImage c.fs path = .ok img) :
    bundleImage world out path c = .ok .ok c' ↔
      ∃ stub fs', world.executable = some stub ∧ made c.fs out stub img.encode = .ok fs' ∧
        c' = { c with
          fs := fs', out := c.out ++
            (out ++ Text.ofString " " ++ Text.ofNat img.encode.length ++ Text.ofString "\n") } := by
  cases hstub : world.executable with
  | none =>
    have hnone : bundleImage world out path c =
        fail .failure "cannot locate druk executable: no executable" c := by
      simp only [bundleImage, bind_apply, get_apply, hread, hstub]
    simp [hnone, fail, printErr, bind_apply, modify_apply, pure_apply]
  | some stub =>
    rw [bundleImage_eq hread hstub]
    cases hmade : made c.fs out stub img.encode with
    | error e => simp [hmade, fail, printErr, bind_apply, modify_apply, pure_apply]
    | ok fs' => simp [hmade, eq_comm]

/-- The option of bundling may stand behind the image. -/
theorem bundleCommand_eq (hfile : classify file = .plain) :
    bundleCommand world [file, "-o", out] =
      if out = [] then refuse ["Usage: druk bundle IMAGE -o EXE"]
      else bundleImage world out file := by
  have hrest : readFlags [outputFlag] [] ["-o", out] = .ok (out, []) := rfl
  have hmixed : readMixed [outputFlag] [] [] 4 [file, "-o", out] = .ok (out, [file]) := by
    simp [readMixed, readFlags, hfile, hrest]
  simp only [bundleCommand, List.length_cons, List.length_nil, Nat.reduceAdd, hmixed]

theorem exists_bundleCommand_eq_ok (hfile : classify file = .plain)
    (hread : readImage c.fs file = .ok img) :
    (∃ c', bundleCommand world [file, "-o", out] c = .ok .ok c') ↔
      img.encode.length ≤ Bundle.maxPayload ∧
        (∃ stub layout, world.executable = some stub ∧ readBundle c.fs stub = .ok layout) ∧
        ∃ place, c.fs.writable out = .ok place := by
  rw [bundleCommand_eq hfile]
  by_cases hout : out = []
  · subst hout
    have hrefused : ∀ c', refuse ["Usage: druk bundle IMAGE -o EXE"] c ≠ .ok .ok c' := nofun
    simp [hrefused, writable, target, refusal?, mapError_error]
  · simp only [if_neg hout, bundleImage_eq_ok hread]
    constructor
    · rintro ⟨c', stub, fs', hstub, hmade, -⟩
      obtain ⟨hsize, ⟨layout, hlayout⟩, hplace⟩ := exists_made.1 ⟨fs', hmade⟩
      exact ⟨hsize, ⟨stub, layout, hstub, hlayout⟩, hplace⟩
    · rintro ⟨hsize, ⟨stub, layout, hstub, hlayout⟩, hplace⟩
      obtain ⟨fs', hmade⟩ := exists_made.2 ⟨hsize, ⟨layout, hlayout⟩, hplace⟩
      exact ⟨_, stub, fs', hstub, hmade, rfl⟩

/-- An executable that was made has the image behind it. -/
theorem read_of_bundleCommand (hfile : classify file = .plain)
    (hread : readImage c.fs file = .ok img)
    (h : bundleCommand world [file, "-o", out] c = .ok .ok c') :
    ∃ program, c'.fs.read out = .ok (Bundle.write program img.encode) := by
  rw [bundleCommand_eq hfile] at h
  by_cases hout : out = []
  · rw [if_pos hout] at h
    cases h
  · rw [if_neg hout] at h
    obtain ⟨stub, fs', -, hmade, rfl⟩ := (bundleImage_eq_ok hread).1 h
    exact read_of_made hmade

/-- The image behind an executable is run. -/
theorem runEmbedded_eq {exe program : Text}
    (hread : c.fs.read exe = .ok (Bundle.write program payload))
    (hsize : payload.length ≤ Bundle.maxPayload) (hparse : Image.parse payload = .ok img)
    (argv : List Text) :
    runEmbedded world exe argv c =
      (some <$> runImage world (.standard (Path.parent exe)) img (argv.headD exe) argv.tail) c := by
  have hbundle := readBundle_of_read hread (Bundle.read_write hsize)
  simp only [runEmbedded, bind_apply, get_apply, hbundle, hparse]

end Cli

end StackVm
