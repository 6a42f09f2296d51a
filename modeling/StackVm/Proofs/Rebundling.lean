/-
Executables that are made of executables.  A file that is put together is taken apart again,
whatever the program in front and the image are; who bundles again replaces the image, so that a
chain of bundlings leaves the program it began with and the last image.
-/
import StackVm.Proofs.Bundles

namespace StackVm

namespace Bundle

variable {data front bytes stub payload : Text} {layout : Layout}

/-- The program is part of the file. -/
theorem stubSize_le (h : read data = .ok layout) : layout.stubSize ≤ data.length := by
  simp only [read] at h
  split at h
  · cases h
    exact Nat.le_refl _
  · split at h
    · cases h
    · cases h
      dsimp only
      omega

/-- A file without a trailer is a program. -/
theorem read_of_bare (h : data.length < trailerSize ∨ ¬ marker <:+ data) :
    read data = .ok ⟨data.length, none⟩ := by
  have hbare : data.length < trailerSize ∨
      (data.drop (data.length - trailerSize)).drop lengthSize ≠ marker := by
    refine h.imp_right fun hmarker hdrop => hmarker ?_
    rw [← hdrop, List.drop_drop]
    exact List.drop_suffix _ data
  simp only [read, if_pos hbare]

/-- A file with a trailer is taken apart by the length that stands there. -/
theorem read_of_trailer (hbytes : bytes.length = lengthSize) :
    read (front ++ bytes ++ marker) =
      if front.length < Text.fromLittleEndian bytes then .error (Text.fromLittleEndian bytes)
      else .ok ⟨front.length - Text.fromLittleEndian bytes,
        some (((front ++ bytes ++ marker).drop (front.length - Text.fromLittleEndian bytes)).take
          (Text.fromLittleEndian bytes))⟩ := by
  have hsize : (front ++ bytes ++ marker).length = front.length + trailerSize := by
    simp only [List.length_append, hbytes, trailerSize, Nat.add_assoc]
  have htrailer : (front ++ bytes ++ marker).drop front.length = bytes ++ marker := by
    rw [List.append_assoc, List.drop_left]
  have hmarker : (bytes ++ marker).drop lengthSize = marker := List.drop_left' hbytes
  have hlength : (bytes ++ marker).take lengthSize = bytes := List.take_left' hbytes
  have hlong : ¬ front.length + trailerSize < trailerSize := by omega
  simp only [read, hsize, Nat.add_sub_cancel, htrailer, hmarker, hlength, hlong, ne_eq,
    not_true_eq_false, or_self, if_false]

/-- A file that is too short for the length in its trailer is refused. -/
theorem read_of_tooShort (hbytes : bytes.length = lengthSize)
    (hshort : front.length < Text.fromLittleEndian bytes) :
    read (front ++ bytes ++ marker) = .error (Text.fromLittleEndian bytes) := by
  rw [read_of_trailer hbytes, if_pos hshort]

end Bundle

namespace Cli

open FileSystem

variable {fs fs' : FileSystem} {exe out stub payload data : Text} {source place : Place}
  {size : Nat} {found : Option Text} {steps : List (Text × Text)}

theorem readBundle_eq (h : fs.read exe = .ok data) :
    readBundle fs exe = match Bundle.read data with
      | .error n => .error (.tooShort exe n)
      | .ok layout => .ok layout := by
  obtain ⟨place, node, hresolve, hnode, hdata⟩ := read_eq_ok.1 h
  cases hlayout : Bundle.read data with
  | error n => simp only [readBundle, stat, hresolve, hnode, hdata, hlayout]
  | ok layout => simp only [readBundle, stat, hresolve, hnode, hdata, hlayout]

theorem readBundle_eq_ok {layout : Bundle.Layout} (h : fs.read exe = .ok data) :
    readBundle fs exe = .ok layout ↔ Bundle.read data = .ok layout := by
  rw [readBundle_eq h]
  cases Bundle.read data <;> simp

/-- A path leads to a file with some bytes. -/
structure Leads (fs : FileSystem) (path : Text) (place : Place) (data : Text) : Prop where
  resolve : fs.resolve path = .ok place
  contents : (fs.node? place).bind contents = some data

theorem Leads.read (h : Leads fs exe source data) : fs.read exe = .ok data := by
  obtain ⟨node, hnode, hdata⟩ := Option.bind_eq_some_iff.1 h.contents
  exact read_eq_ok.2 ⟨source, node, h.resolve, hnode, hdata⟩

theorem leads_of_read (hread : fs.read exe = .ok data) (hresolve : fs.resolve exe = .ok source) :
    Leads fs exe source data := by
  obtain ⟨place, node, hplace, hnode, hdata⟩ := read_eq_ok.1 hread
  rw [hresolve] at hplace
  cases hplace
  exact ⟨hresolve, by rw [hnode, Option.bind_some, hdata]⟩

/-- A program is copied to another file, and an image put behind it. -/
theorem exists_writeBundle (h : Leads fs stub source data)
    (hpayload : payload.length ≤ Bundle.maxPayload) (hplace : fs.writable out = .ok place)
    (hother : source ≠ place) (size : Nat) :
    ∃ fs', writeBundle fs out stub size payload = .ok fs' ∧
      Leads fs' out place (Bundle.write (data.take size) payload) ∧ fs.SameDirectories fs' := by
  have hvacant := (vacant_of_writable hplace).2
  have hfile : ∀ written : Text, Node.file written ≠ .directory := by
    intro written hdirectory
    cases hdirectory
  have hemptied : fs.SameDirectories (fs.setNode place (.file [])) :=
    sameDirectories_setNode hvacant (hfile [])
  have hplace' := hemptied.writable hplace
  have hprogram : programOf fs source place size = data.take size := by
    rw [programOf, node?_setNode_of_ne hother, h.contents, Option.getD_some]
  obtain ⟨hresolve, hstat⟩ :=
    stat_setNode hplace' (.file (Bundle.write (data.take size) payload))
  refine ⟨_, writeBundle_eq_ok.2 ⟨hpayload, source, place, h.resolve, hplace, rfl⟩, ?_, ?_⟩
  · rw [hprogram]
    refine ⟨hresolve, ?_⟩
    rw [node?_setNode_self (ne_root_of_node? hvacant)]
    rfl
  · exact hemptied.trans (sameDirectories_setNode (vacant_of_writable hplace').2 (hfile _))

/-! ### Chains of bundlings -/

/-- An executable is made of the one before it, again and again, each with an image of its own. -/
def rebundle (fs : FileSystem) (exe : Text) :
    List (Text × Text) → Except BundleError (FileSystem × Text)
  | [] => .ok (fs, exe)
  | (out, payload) :: rest => do
    let fs ← made fs out exe payload
    rebundle fs out rest

/-- Each executable of a chain can be written, to another file than the one it is made of. -/
def Feasible (fs : FileSystem) : Place → List (Text × Text) → Prop
  | _, [] => True
  | source, (out, payload) :: rest =>
    payload.length ≤ Bundle.maxPayload ∧
      ∃ place, fs.writable out = .ok place ∧ source ≠ place ∧ Feasible fs place rest

theorem Feasible.of_sameDirectories (h : Feasible fs source steps)
    (hsame : fs.SameDirectories fs') : Feasible fs' source steps := by
  induction steps generalizing source with
  | nil => trivial
  | cons step rest ih =>
    obtain ⟨hpayload, place, hplace, hother, hrest⟩ := h
    exact ⟨hpayload, place, hsame.writable hplace, hother, ih hrest⟩

theorem exists_made_of_leads (h : Leads fs exe source data)
    (hlayout : Bundle.read data = .ok ⟨size, found⟩)
    (hpayload : payload.length ≤ Bundle.maxPayload) (hplace : fs.writable out = .ok place)
    (hother : source ≠ place) :
    ∃ fs', made fs out exe payload = .ok fs' ∧
      Leads fs' out place (Bundle.write (data.take size) payload) ∧ fs.SameDirectories fs' := by
  obtain ⟨fs', hwritten, hleads, hsame⟩ := exists_writeBundle h hpayload hplace hother size
  exact ⟨fs', made_eq_ok.2 ⟨_, (readBundle_eq_ok h.read).2 hlayout, hwritten⟩, hleads, hsame⟩

/-- The program of an executable that was made is the one it was made of. -/
theorem read_write_take (hlayout : Bundle.read data = .ok ⟨size, found⟩)
    (hpayload : payload.length ≤ Bundle.maxPayload) :
    Bundle.read (Bundle.write (data.take size) payload) = .ok ⟨size, some payload⟩ ∧
      (Bundle.write (data.take size) payload).take size = data.take size := by
  have hlength : (data.take size).length = size :=
    List.length_take_of_le (Bundle.stubSize_le hlayout)
  constructor
  · rw [Bundle.read_write hpayload, hlength]
  · rw [Bundle.write_eq, List.append_assoc, List.take_left' hlength]

/-- What is left of a chain is the program and the last image. -/
theorem rebundle_concat (h : Leads fs exe source data)
    (hlayout : Bundle.read data = .ok ⟨size, found⟩)
    (hsteps : Feasible fs source (steps ++ [(out, payload)])) :
    ∃ fs', rebundle fs exe (steps ++ [(out, payload)]) = .ok (fs', out) ∧
      fs'.read out = .ok (Bundle.write (data.take size) payload) := by
  induction steps generalizing fs exe source data found with
  | nil =>
    obtain ⟨hpayload, place, hplace, hother, -⟩ := hsteps
    obtain ⟨fs', hmade, hleads, -⟩ := exists_made_of_leads h hlayout hpayload hplace hother
    refine ⟨fs', ?_, hleads.read⟩
    simp only [List.nil_append, rebundle, hmade, bind, Except.bind]
  | cons step rest ih =>
    obtain ⟨next, image⟩ := step
    obtain ⟨himage, place, hplace, hother, hrest⟩ := hsteps
    obtain ⟨fs₁, hmade, hleads, hsame⟩ := exists_made_of_leads h hlayout himage hplace hother
    obtain ⟨hread, hprogram⟩ := read_write_take hlayout himage
    obtain ⟨fs', hrebundled, hlast⟩ := ih hleads hread (hrest.of_sameDirectories hsame)
    refine ⟨fs', ?_, by rw [← hprogram]; exact hlast⟩
    simp only [List.cons_append, rebundle, hmade, bind, Except.bind]
    exact hrebundled

/-- Bundles are put together and taken apart exactly.  An executable that is made of a program and
an image has their bytes, the length of the image and the marker, and shows both again; of a chain
that began with a bare program this and the last image are left; a file without a trailer is a
program without an image, and one that is too short for its trailer is an error. -/
theorem bundles_exact :
    (∀ {fs stub out source place data payload size found}, fs.read stub = .ok data →
      readBundle fs stub = .ok ⟨size, found⟩ → payload.length ≤ Bundle.maxPayload →
      fs.resolve stub = .ok source → fs.writable out = .ok place → source ≠ place →
      ∃ fs', writeBundle fs out stub size payload = .ok fs' ∧
        fs'.read out =
          .ok (data.take size ++ payload ++ Text.littleEndian 4 payload.length ++ Bundle.marker) ∧
        readBundle fs' out = .ok ⟨size, some payload⟩) ∧
    (∀ {fs exe source data steps out payload}, fs.read exe = .ok data →
      readBundle fs exe = .ok ⟨data.length, none⟩ → fs.resolve exe = .ok source →
      Feasible fs source (steps ++ [(out, payload)]) →
      ∃ fs', rebundle fs exe (steps ++ [(out, payload)]) = .ok (fs', out) ∧
        fs'.read out =
          .ok (data ++ payload ++ Text.littleEndian 4 payload.length ++ Bundle.marker)) ∧
    (∀ {fs exe data}, fs.read exe = .ok data →
      data.length < Bundle.trailerSize ∨ ¬ Bundle.marker <:+ data →
      readBundle fs exe = .ok ⟨data.length, none⟩) ∧
    ∀ {fs exe front bytes}, fs.read exe = .ok (front ++ bytes ++ Bundle.marker) →
      bytes.length = 4 → front.length < Text.fromLittleEndian bytes →
      readBundle fs exe = .error (.tooShort exe (Text.fromLittleEndian bytes)) := by
  refine ⟨?_, ?_, ?_, ?_⟩
  · intro fs stub out source place data payload size found hread hlayout hpayload hsource hplace
      hother
    have hleads := leads_of_read hread hsource
    obtain ⟨fs', hwritten, hout, -⟩ := exists_writeBundle hleads hpayload hplace hother size
    refine ⟨fs', hwritten, hout.read, ?_⟩
    rw [readBundle_eq_ok hread] at hlayout
    exact (readBundle_eq_ok hout.read).2 (read_write_take hlayout hpayload).1
  · intro fs exe source data steps out payload hread hlayout hsource hsteps
    rw [readBundle_eq_ok hread] at hlayout
    obtain ⟨fs', hrebundled, hlast⟩ :=
      rebundle_concat (leads_of_read hread hsource) hlayout hsteps
    rw [List.take_length] at hlast
    exact ⟨fs', hrebundled, hlast⟩
  · intro fs exe data hread hbare
    exact (readBundle_eq_ok hread).2 (Bundle.read_of_bare hbare)
  · intro fs exe front bytes hread hbytes hshort
    rw [readBundle_eq hread, Bundle.read_of_tooShort hbytes hshort]

/-! A program, and a file whose trailer asks for more than there is. -/

/-- The files. -/
def stubFiles : FileSystem :=
  (({} : FileSystem).setNode ["druk"] (.file "ELF")).setNode ["torn"]
    (.file (Text.ofString "x" ++ [2, 0, 0, 0] ++ Bundle.marker))

/-- Executables that are made of it, in two files in turn. -/
def stubSteps : List (Text × Text) := [("e", "a"), ("f", "")]

/-- An empty image is bundled and found again, and of a chain the last one. -/
theorem bundles_exact_stubFiles :
    (∃ fs', writeBundle stubFiles "e" "druk" 3 [] = .ok fs' ∧
      fs'.read "e" =
        .ok ((Text.ofString "ELF").take 3 ++ [] ++ Text.littleEndian 4 0 ++ Bundle.marker) ∧
      readBundle fs' "e" = .ok ⟨3, some []⟩) ∧
    (∃ fs', rebundle stubFiles "druk" (stubSteps ++ [(Text.ofString "e", Text.ofString "bc")]) =
        .ok (fs', "e") ∧
      fs'.read "e" = .ok ("ELF" ++ "bc" ++ Text.littleEndian 4 2 ++ Bundle.marker)) ∧
    readBundle stubFiles "druk" = .ok ⟨3, none⟩ ∧
    readBundle stubFiles "torn" = .error (.tooShort "torn" 2) := by
  obtain ⟨hwrite, hchain, hbare, htorn⟩ := bundles_exact
  have hread : stubFiles.read "druk" = .ok "ELF" := rfl
  have hsource : stubFiles.resolve "druk" = .ok ["druk"] := rfl
  have hprogram : readBundle stubFiles "druk" = .ok ⟨3, none⟩ := hbare hread (Or.inl (by decide))
  refine ⟨?_, ?_, hprogram, ?_⟩
  · exact hwrite hread hprogram (by decide) hsource rfl (by decide)
  · apply hchain hread hprogram hsource
    exact ⟨by decide, ["e"], rfl, by decide, by decide, ["f"], rfl, by decide, by decide, ["e"],
      rfl, by decide, trivial⟩
  · exact @htorn stubFiles "torn" "x" [2, 0, 0, 0] rfl rfl (by decide)

end Cli

end StackVm
