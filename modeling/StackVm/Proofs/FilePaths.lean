/-
Paths in a file system that changes.  As long as directories stay directories, a path leads
where it has led, so that a file that has been written is read back under its path.
-/
import StackVm.Files.System
import StackVm.Proofs.Stateful

namespace StackVm

namespace FileSystem

variable {fs fs' fs₁ : FileSystem} {place q start next : Place} {node : Node} {name p data : Text}
  {names rest : List Text}

/-! ### Places -/

theorem node?_root (fs : FileSystem) : fs.node? [] = some .directory := rfl

theorem node?_setNode_of_ne (h : q ≠ place) : (fs.setNode place node).node? q = fs.node? q := by
  simp [node?, setNode, h]

theorem node?_setNode_self (h : place ≠ []) : (fs.setNode place node).node? place = some node := by
  simp [node?, setNode, h]

theorem node?_removeNode_of_ne (h : q ≠ place) : (fs.removeNode place).node? q = fs.node? q := by
  simp [node?, removeNode, h]

theorem node?_removeNode_self (h : place ≠ []) : (fs.removeNode place).node? place = none := by
  simp [node?, removeNode, h]

/-- What is no directory is not the root. -/
theorem ne_root_of_node? (h : fs.node? place ≠ some .directory) : place ≠ [] := by
  rintro rfl
  exact h (node?_root fs)

/-! ### Directories that stay -/

/-- Directories stay directories, and the current directory stays the same. -/
structure Widens (fs fs' : FileSystem) : Prop where
  cwd : fs'.cwd = fs.cwd
  directory : ∀ q, fs.node? q = some .directory → fs'.node? q = some .directory

theorem Widens.refl (fs : FileSystem) : Widens fs fs := ⟨rfl, fun _ h => h⟩

theorem Widens.trans (h : Widens fs fs₁) (h' : Widens fs₁ fs') : Widens fs fs' :=
  ⟨h'.cwd.trans h.cwd, fun q hq => h'.directory q (h.directory q hq)⟩

theorem widens_setNode (h : fs.node? place ≠ some .directory) :
    Widens fs (fs.setNode place node) := by
  refine ⟨rfl, ?_⟩
  intro q hq
  have hne : q ≠ place := by
    rintro rfl
    exact h hq
  rw [node?_setNode_of_ne hne, hq]

theorem widens_setNode_directory (fs : FileSystem) (place : Place) :
    Widens fs (fs.setNode place .directory) := by
  refine ⟨rfl, ?_⟩
  intro q hq
  by_cases hsame : q = place
  · subst hsame
    by_cases hroot : q = []
    · rw [hroot, node?_root]
    · rw [node?_setNode_self hroot]
  · rw [node?_setNode_of_ne hsame, hq]

/-- A name that can be followed is followed from a directory. -/
theorem node?_of_follow (h : fs.follow place name = .ok next) :
    fs.node? place = some .directory := by
  unfold follow at h
  split at h
  · cases h
  · next heq => exact heq
  · cases h

theorem Widens.follow (h : Widens fs fs') (hfollow : fs.follow place name = .ok next) :
    fs'.follow place name = .ok next := by
  have hdir := node?_of_follow hfollow
  unfold FileSystem.follow at hfollow ⊢
  rw [hdir] at hfollow
  rw [h.directory place hdir]
  exact hfollow

theorem walk_cons_eq_ok : fs.walk start (name :: rest) = .ok place ↔
    ∃ next, fs.follow start name = .ok next ∧ fs.walk next rest = .ok place := by
  rw [FileSystem.walk]
  cases fs.follow start name <;> simp

theorem walk_append_eq_ok : fs.walk start (names ++ rest) = .ok place ↔
    ∃ next, fs.walk start names = .ok next ∧ fs.walk next rest = .ok place := by
  induction names generalizing start with
  | nil => simp [walk]
  | cons name names ih =>
    simp only [List.cons_append, walk_cons_eq_ok, ih]
    constructor
    · rintro ⟨first, hfirst, next, hnext, hrest⟩
      exact ⟨next, ⟨first, hfirst, hnext⟩, hrest⟩
    · rintro ⟨next, ⟨first, hfirst, hnext⟩, hrest⟩
      exact ⟨first, hfirst, next, hnext, hrest⟩

theorem Widens.walk (h : Widens fs fs') (hwalk : fs.walk start names = .ok place) :
    fs'.walk start names = .ok place := by
  induction names generalizing start with
  | nil => exact hwalk
  | cons name rest ih =>
    obtain ⟨next, hfollow, hrest⟩ := walk_cons_eq_ok.1 hwalk
    exact walk_cons_eq_ok.2 ⟨next, h.follow hfollow, ih hrest⟩

theorem Widens.origin (h : Widens fs fs') (p : Text) : fs'.origin p = fs.origin p := by
  rw [FileSystem.origin, FileSystem.origin, h.cwd]

/-! ### Files that are written -/

/-- Where a file can be written: behind the last name of a path, in a directory, with no
directory there. -/
structure Target (fs : FileSystem) (p : Text) (dir : Place) (name : Text) (place : Place) :
    Prop where
  allowed : refusal? p = none
  above : fs.walk (fs.origin p) (Path.pieces p).dropLast = .ok dir
  last : (Path.pieces p).getLast? = some name
  plain : ¬ (name = Path.dot ∨ name = Path.dotDot ∨ Path.endsInSlash p = true)
  follow : fs.follow dir name = .ok place
  vacant : fs.node? place ≠ some .directory

/-- A dot leads from a directory to itself. -/
theorem walk_dot (h : fs.walk start (names ++ [Path.dot]) = .ok place) :
    fs.walk start names = .ok place := by
  obtain ⟨next, hnames, hdot⟩ := walk_append_eq_ok.1 h
  obtain ⟨last, hfollow, hlast⟩ := walk_cons_eq_ok.1 hdot
  have hsame : last = next := by
    have hdir := node?_of_follow hfollow
    rw [FileSystem.follow, hdir] at hfollow
    cases hfollow
    rfl
  cases hlast
  rw [hnames, hsame]

theorem exists_target (h : fs.target p = .ok place) : ∃ dir name, Target fs p dir name place := by
  unfold target at h
  split at h
  · cases h
  · next hallowed =>
    split at h
    · cases h
    · next dir hdir =>
      split at h
      · cases h
      · next name hlast =>
        split at h
        · cases h
        · next hplain =>
          split at h
          · cases h
          · next hfollow =>
            split at h
            · cases h
            · next hvacant =>
              cases h
              exact ⟨dir, name, hallowed, walk_dot hdir, hlast, hplain, hfollow, hvacant⟩

theorem Target.target_eq {dir : Place} (h : Target fs p dir name place) :
    fs.target p = .ok place := by
  have hdot : fs.follow dir Path.dot = .ok dir := by
    simp only [FileSystem.follow, node?_of_follow h.follow, if_true]
  have habove : fs.walk (fs.origin p) ((Path.pieces p).dropLast ++ [Path.dot]) = .ok dir :=
    walk_append_eq_ok.2 ⟨dir, h.above, walk_cons_eq_ok.2 ⟨dir, hdot, rfl⟩⟩
  simp only [target, h.allowed, habove, h.last, if_neg h.plain, h.follow, if_neg h.vacant]

/-- The place where a file is written is where its path leads to. -/
theorem Target.resolve {dir : Place} (h : Target fs p dir name place) :
    fs.resolve p = .ok place := by
  obtain ⟨front, hsplit⟩ := List.getLast?_eq_some_iff.1 h.last
  have habove := h.above
  rw [hsplit, List.dropLast_concat] at habove
  have hplain : ¬ Path.endsInSlash p = true := fun hslash => h.plain (Or.inr (Or.inr hslash))
  rw [FileSystem.resolve, h.allowed, if_neg hplain, hsplit, List.append_nil]
  exact walk_append_eq_ok.2 ⟨dir, habove, walk_cons_eq_ok.2 ⟨place, h.follow, rfl⟩⟩

theorem Widens.resolve (h : Widens fs fs') (hresolve : fs.resolve p = .ok place) :
    fs'.resolve p = .ok place := by
  unfold FileSystem.resolve at hresolve ⊢
  split at hresolve
  · cases hresolve
  · rw [h.origin]
    exact h.walk hresolve

theorem writable_eq_ok : fs.writable p = .ok place ↔ fs.target p = .ok place := by
  rw [writable]
  cases fs.target p <;> simp [mapError_ok, mapError_error]

/-- Where a path has been found writable it leads to what is put there. -/
theorem stat_setNode (h : fs.writable p = .ok place) (node : Node) :
    (fs.setNode place node).resolve p = .ok place ∧ (fs.setNode place node).stat p = .ok node := by
  obtain ⟨dir, name, htarget⟩ := exists_target (writable_eq_ok.1 h)
  have hwidens : Widens fs (fs.setNode place node) := widens_setNode htarget.vacant
  have hresolve := hwidens.resolve htarget.resolve
  refine ⟨hresolve, ?_⟩
  simp only [stat, hresolve, node?_setNode_self (ne_root_of_node? htarget.vacant)]

/-- The directories are the same, and so is the current one. -/
structure SameDirectories (fs fs' : FileSystem) : Prop where
  widens : Widens fs fs'
  narrows : Widens fs' fs

theorem SameDirectories.symm (h : SameDirectories fs fs') : SameDirectories fs' fs :=
  ⟨h.narrows, h.widens⟩

theorem SameDirectories.trans (h : SameDirectories fs fs₁) (h' : SameDirectories fs₁ fs') :
    SameDirectories fs fs' :=
  ⟨h.widens.trans h'.widens, h'.narrows.trans h.narrows⟩

theorem sameDirectories_setNode (h : fs.node? place ≠ some .directory)
    (hnode : node ≠ .directory) : SameDirectories fs (fs.setNode place node) := by
  refine ⟨widens_setNode h, rfl, ?_⟩
  intro q hq
  by_cases hsame : q = place
  · rw [hsame, node?_setNode_self (ne_root_of_node? h)] at hq
    exact absurd (Option.some.inj hq) hnode
  · rwa [node?_setNode_of_ne hsame] at hq

/-- A file can be written where it can be with the same directories. -/
theorem SameDirectories.writable (h : SameDirectories fs fs') (hplace : fs.writable p = .ok place) :
    fs'.writable p = .ok place := by
  obtain ⟨dir, name, htarget⟩ := exists_target (writable_eq_ok.1 hplace)
  have htarget' : Target fs' p dir name place := by
    refine ⟨htarget.allowed, ?_, htarget.last, htarget.plain, h.widens.follow htarget.follow, ?_⟩
    · rw [h.widens.origin]
      exact h.widens.walk htarget.above
    · intro hdir
      exact htarget.vacant (h.narrows.directory place hdir)
  exact writable_eq_ok.2 htarget'.target_eq

/-- Where a file can be written is where its path leads to, and there is no directory. -/
theorem vacant_of_writable (h : fs.writable p = .ok place) :
    fs.resolve p = .ok place ∧ fs.node? place ≠ some .directory := by
  obtain ⟨dir, name, htarget⟩ := exists_target (writable_eq_ok.1 h)
  exact ⟨htarget.resolve, htarget.vacant⟩

theorem read_eq_ok : fs.read p = .ok data ↔
    ∃ place node, fs.resolve p = .ok place ∧ fs.node? place = some node ∧
      contents node = some data := by
  simp only [read, stat]
  cases fs.resolve p with
  | error e => simp
  | ok place =>
    cases hnode : fs.node? place with
    | none => simp [hnode]
    | some node => cases hdata : contents node <;> simp [hnode, hdata]

/-- A file is read as long as it is there and directories stay. -/
theorem Widens.read (h : Widens fs fs') (hnodes : ∀ q, fs'.node? q = fs.node? q)
    (hread : fs.read p = .ok data) : fs'.read p = .ok data := by
  obtain ⟨place, node, hresolve, hnode, hdata⟩ := read_eq_ok.1 hread
  exact read_eq_ok.2 ⟨place, node, h.resolve hresolve, (hnodes place).trans hnode, hdata⟩

theorem writeFile_eq_ok : fs.writeFile p data = .ok fs' ↔
    ∃ place, fs.writable p = .ok place ∧ fs' = fs.setNode place (.file data) := by
  rw [writeFile]
  cases fs.writable p <;> simp [eq_comm]

/-- What has been written under a path is read under it. -/
theorem read_of_writeFile (h : fs.writeFile p data = .ok fs') : fs'.read p = .ok data := by
  obtain ⟨place, hplace, rfl⟩ := writeFile_eq_ok.1 h
  rw [read, (stat_setNode hplace _).2]
  rfl

/-! ### Directories that are made -/

theorem widens_makeBelow (fs : FileSystem) (place : Place) (p : Text) (names : List Text) :
    Widens fs (fs.makeBelow place p names).1 := by
  induction names generalizing fs place p with
  | nil => exact .refl fs
  | cons name rest ih =>
    rw [makeBelow]
    split
    · exact .refl fs
    · exact .refl fs
    · split
      · exact ih ..
      · exact .refl fs
      · exact (widens_setNode_directory fs _).trans (ih ..)

/-- Where directories have been made they are found again, also by whoever has them made once
more later. -/
theorem makeBelow_of_made (h : fs.makeBelow place p names = (fs₁, none)) (hw : Widens fs₁ fs') :
    fs'.makeBelow place p names = (fs', none) := by
  induction names generalizing fs place p with
  | nil => rfl
  | cons name rest ih =>
    have hwide := widens_makeBelow fs place p (name :: rest)
    rw [h] at hwide
    rw [makeBelow] at h ⊢
    split at h
    · cases h
    · cases h
    · next next hallowed hfollow =>
      have hfollow' := (hwide.trans hw).follow hfollow
      simp only [hallowed, hfollow']
      split at h
      · next hdir =>
        rw [(hwide.trans hw).directory next hdir]
        exact ih h
      · cases h
      · next hnone =>
        have hmade := widens_makeBelow (fs.setNode next .directory) next (Path.below p name) rest
        rw [h] at hmade
        have hne : next ≠ [] := ne_root_of_node? (by rw [hnone]; nofun)
        rw [(hmade.trans hw).directory next (node?_setNode_self hne)]
        exact ih h

theorem makeDirectories_of_made (h : fs.makeDirectories p = (fs₁, none)) (hw : Widens fs₁ fs') :
    fs'.makeDirectories p = (fs', none) := by
  have hwide : Widens fs fs₁ := by
    have hmade := widens_makeBelow fs (fs.origin p)
      (if Path.isAbsolute p then [Path.slash] else []) (Path.pieces p)
    rw [makeDirectories] at h
    rw [h] at hmade
    exact hmade
  rw [makeDirectories, (hwide.trans hw).origin]
  exact makeBelow_of_made h hw

end FileSystem

end StackVm
