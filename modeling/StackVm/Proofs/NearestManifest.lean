/-
The search for a manifest.  It goes up from a directory, parent by parent, until there is a manifest
file or until it has come to the root.  It always ends, and it ends with the manifest of the deepest
directory that has one, whether or not that one can be loaded.
-/
import StackVm.Manifest.Find
import StackVm.Proofs.CleanPaths

namespace StackVm

/-- A directory is that of a clean absolute path, or one of those above it up to the root. -/
def Path.AtOrAbove (d p : Text) : Prop := ∃ ns, ns <+: Path.names p ∧ d = Path.ofNames ns

namespace Path

variable {ns : List Text} {name d : Text}

theorem atOrAbove_root : AtOrAbove d (ofNames []) ↔ d = ofNames [] := by
  have hnames : names (ofNames []) = [] := names_ofNames nofun
  rw [AtOrAbove, hnames]
  constructor
  · rintro ⟨ns, hns, rfl⟩
    rw [List.prefix_nil.1 hns]
  · rintro rfl
    exact ⟨[], List.prefix_rfl, rfl⟩

theorem atOrAbove_concat (h : ∀ n ∈ ns ++ [name], Plain n) :
    AtOrAbove d (ofNames (ns ++ [name])) ↔
      d = ofNames (ns ++ [name]) ∨ AtOrAbove d (ofNames ns) := by
  rw [AtOrAbove, AtOrAbove, names_ofNames h,
    names_ofNames fun n hn => h n (List.mem_append_left _ hn)]
  simp only [List.prefix_concat_iff, or_and_right, exists_or, exists_eq_left]

/-- Directories have no more names than those below them. -/
theorem AtOrAbove.length_le (hd : AtOrAbove d (ofNames ns)) (h : ∀ n ∈ ns, Plain n) :
    (names d).length ≤ ns.length := by
  obtain ⟨ms, hms, rfl⟩ := hd
  rw [names_ofNames h] at hms
  rw [names_ofNames fun n hn => h n (hms.subset hn)]
  exact hms.length_le

/-- Of the directories at or above one there is at most one with so many names. -/
theorem AtOrAbove.eq_of_length {p e : Text} (hd : AtOrAbove d p) (he : AtOrAbove e p)
    (hplain : ∀ n ∈ names p, Plain n) (hlength : (names d).length = (names e).length) : d = e := by
  obtain ⟨ms, hms, rfl⟩ := hd
  obtain ⟨ns, hns, rfl⟩ := he
  rw [names_ofNames fun n hn => hplain n (hms.subset hn),
    names_ofNames fun n hn => hplain n (hns.subset hn)] at hlength
  rw [(List.prefix_of_prefix_length_le hms hns (Nat.le_of_eq hlength)).eq_of_length hlength]

end Path

namespace Manifest

open StackVm.Path

variable {fs : FileSystem} {dir d : Text} {n k : Nat} {up : List Text}
  {r r' : Except ManifestError (Option Manifest)}

/-- A stat of the manifest file of a directory succeeds. -/
def HasFile (fs : FileSystem) (d : Text) : Prop := ∃ node, fs.stat (pathIn d) = .ok node

/-- The deepest directory with a manifest file, of those that are not below `p`. -/
structure Nearest (fs : FileSystem) (p d : Text) : Prop where
  above : AtOrAbove d p
  file : HasFile fs d
  deepest : ∀ e, AtOrAbove e p → HasFile fs e → (names e).length ≤ (names d).length

/-- The search from a directory ends after a number of steps up, with a result. -/
inductive Climbs (fs : FileSystem) : Text → Nat → Except ManifestError (Option Manifest) → Prop
  | found {dir : Text} {node : Node} : fs.stat (pathIn dir) = .ok node →
      Climbs fs dir 0 (some <$> load fs dir)
  | root {dir : Text} {e : SystemError} : fs.stat (pathIn dir) = .error e → parent dir = dir →
      Climbs fs dir 0 (.ok none)
  | up {dir : Text} {e : SystemError} {n : Nat} {r : Except ManifestError (Option Manifest)} :
      fs.stat (pathIn dir) = .error e → parent dir ≠ dir → Climbs fs (parent dir) n r →
      Climbs fs dir (n + 1) r

/-- The search ends in one way only. -/
theorem Climbs.unique (h : Climbs fs dir n r) (h' : Climbs fs dir k r') : k = n ∧ r' = r := by
  induction h generalizing k with
  | found hfile =>
    cases h' with
    | found => exact ⟨rfl, rfl⟩
    | root hnone => cases hfile.symm.trans hnone
    | up hnone => cases hfile.symm.trans hnone
  | root hnone hroot =>
    cases h' with
    | found hfile => cases hfile.symm.trans hnone
    | root => exact ⟨rfl, rfl⟩
    | up _ hbelow => exact absurd hroot hbelow
  | up hnone hbelow _ ih =>
    cases h' with
    | found hfile => cases hfile.symm.trans hnone
    | root _ hroot => exact absurd hroot hbelow
    | up _ _ h' =>
      obtain ⟨rfl, rfl⟩ := ih h'
      exact ⟨rfl, rfl⟩

theorem isIn_iff : isIn fs d = true ↔ HasFile fs d := by
  rw [isIn, HasFile]
  cases fs.stat (pathIn d) <;> simp [Except.toBool]

theorem exists_error_of_not_hasFile (h : ¬ HasFile fs d) : ∃ e, fs.stat (pathIn d) = .error e := by
  cases hstat : fs.stat (pathIn d) with
  | ok node => exact absurd ⟨node, hstat⟩ h
  | error e => exact ⟨e, rfl⟩

/-- What a search that has come to a directory, or to nothing, results in. -/
def outcome (fs : FileSystem) : Option Text → Except ManifestError (Option Manifest)
  | none => .ok none
  | some dir => some <$> load fs dir

theorem outcome_eq_none {found : Option Text} : outcome fs found = .ok none ↔ found = none := by
  cases found with
  | none => exact iff_of_true rfl rfl
  | some dir =>
    refine iff_of_false (fun h => ?_) nofun
    rw [outcome] at h
    cases hload : load fs dir with
    | error e =>
      rw [hload] at h
      cases h
    | ok m =>
      rw [hload] at h
      cases h

theorem find_eq (fs : FileSystem) (start : Text) : find fs start =
    outcome fs ((upwards (absolute fs.cwdPath start)).find? (isIn fs)) := by
  rw [find]
  cases (upwards (absolute fs.cwdPath start)).find? (isIn fs) <;> rfl

/-! ### From the innermost directory to the root -/

theorem plain_reverse_cons {name : Text} (h : ∀ n ∈ name :: up, Plain n) :
    ∀ n ∈ up.reverse ++ [name], Plain n := by
  intro n hn
  rw [← List.reverse_cons, List.mem_reverse] at hn
  exact h n hn

/-- The search ends after as many steps as there are names at most. -/
theorem climbs_upwardsFrom (fs : FileSystem) (h : ∀ n ∈ up, Plain n) : ∃ steps ≤ up.length,
    Climbs fs (ofNames up.reverse) steps (outcome fs ((upwardsFrom up).find? (isIn fs))) := by
  -- A step up drops the last name, and only the root is its own parent.
  induction up with
  | nil =>
    refine ⟨0, Nat.le_refl _, ?_⟩
    rw [upwardsFrom, List.find?_singleton]
    split
    · next hfile => exact .found (isIn_iff.1 hfile).choose_spec
    · next hnone =>
      obtain ⟨e, he⟩ := exists_error_of_not_hasFile (mt isIn_iff.2 hnone)
      exact .root he parent_root
  | cons name up ih =>
    have hplain := plain_reverse_cons h
    rw [upwardsFrom, List.find?_cons, List.reverse_cons]
    split
    · next hfile => exact ⟨0, Nat.zero_le _, .found (isIn_iff.1 hfile).choose_spec⟩
    · next hnone =>
      obtain ⟨steps, hle, hclimbs⟩ := ih fun n hn => h n (List.mem_cons_of_mem name hn)
      have hmissing : ¬ HasFile fs (ofNames (up.reverse ++ [name])) := by
        rw [← isIn_iff, hnone]
        nofun
      obtain ⟨e, he⟩ := exists_error_of_not_hasFile hmissing
      refine ⟨steps + 1, Nat.succ_le_succ hle, .up he (parent_ne hplain) ?_⟩
      rwa [parent_ofNames hplain]

theorem mem_upwardsFrom (h : ∀ n ∈ up, Plain n) :
    d ∈ upwardsFrom up ↔ AtOrAbove d (ofNames up.reverse) := by
  induction up with
  | nil => rw [upwardsFrom, List.mem_singleton, List.reverse_nil, atOrAbove_root]
  | cons name up ih =>
    have hplain := plain_reverse_cons h
    rw [upwardsFrom, List.mem_cons, List.reverse_cons, atOrAbove_concat hplain,
      ih fun n hn => h n (List.mem_cons_of_mem name hn)]

/-- Each directory on the way up has fewer names than those before it. -/
theorem pairwise_upwardsFrom (h : ∀ n ∈ up, Plain n) :
    (upwardsFrom up).Pairwise fun d e => (names e).length < (names d).length := by
  induction up with
  | nil => exact List.pairwise_singleton _ _
  | cons name up ih =>
    have hrest : ∀ n ∈ up, Plain n := fun n hn => h n (List.mem_cons_of_mem name hn)
    refine List.pairwise_cons.2 ⟨fun e he => ?_, ih hrest⟩
    have hle := ((mem_upwardsFrom hrest).1 he).length_le fun n hn => hrest n (List.mem_reverse.1 hn)
    rw [names_ofNames fun n hn => h n (List.mem_reverse.1 hn)]
    simp only [List.length_reverse, List.length_cons] at hle ⊢
    omega

/-- The first directory with a manifest file on the way up is the deepest one. -/
theorem nearest_of_find? (h : ∀ n ∈ up, Plain n)
    (hfound : (upwardsFrom up).find? (isIn fs) = some d) :
    Nearest fs (ofNames up.reverse) d := by
  obtain ⟨hfile, before, after, hsplit, hbefore⟩ := List.find?_eq_some_iff_append.1 hfound
  have hmem : d ∈ upwardsFrom up := List.mem_of_find?_eq_some hfound
  refine ⟨(mem_upwardsFrom h).1 hmem, isIn_iff.1 hfile, fun e he hefile => ?_⟩
  have horder := pairwise_upwardsFrom h
  have hemem := (mem_upwardsFrom h).2 he
  rw [hsplit] at horder hemem
  rcases List.mem_append.1 hemem with hearly | hlate
  · have hmissing := hbefore e hearly
    rw [isIn_iff.2 hefile] at hmissing
    cases hmissing
  · rcases List.mem_cons.1 hlate with rfl | hlate
    · exact Nat.le_refl _
    · have hrest := (List.pairwise_append.1 horder).2.1
      exact Nat.le_of_lt ((List.pairwise_cons.1 hrest).1 e hlate)

/-- There is one deepest directory at most. -/
theorem Nearest.unique {p e : Text} (hplain : ∀ n ∈ names p, Plain n) (hd : Nearest fs p d)
    (he : Nearest fs p e) : d = e :=
  hd.above.eq_of_length he.above hplain
    (Nat.le_antisymm (he.deepest d hd.above hd.file) (hd.deepest e he.above he.file))

theorem find?_upwardsFrom_eq_none (h : ∀ n ∈ up, Plain n) :
    (upwardsFrom up).find? (isIn fs) = none ↔
      ∀ d, AtOrAbove d (ofNames up.reverse) → ¬ HasFile fs d := by
  rw [List.find?_eq_none]
  exact forall_congr' fun d => by rw [mem_upwardsFrom h, isIn_iff]

theorem find?_upwardsFrom_eq_some (h : ∀ n ∈ up, Plain n) :
    (upwardsFrom up).find? (isIn fs) = some d ↔ Nearest fs (ofNames up.reverse) d := by
  refine ⟨nearest_of_find? h, fun hd => ?_⟩
  have hplain : ∀ n ∈ up.reverse, Plain n := fun n hn => h n (List.mem_reverse.1 hn)
  cases hfind : (upwardsFrom up).find? (isIn fs) with
  | none => exact absurd hd.file ((find?_upwardsFrom_eq_none h).1 hfind d hd.above)
  | some e =>
    rw [(nearest_of_find? h hfind).unique (by rwa [names_ofNames hplain]) hd]

/-- The search finds the nearest manifest.  It goes up parent by parent and always ends, in one way
and after as many steps as the directory has names at most.  It ends with what loading gives, also
when that is an error, for the deepest of the directory and those above it with a manifest file,
and with no manifest exactly where none of them has one. -/
theorem find_nearest (fs : FileSystem) (start : Text) :
    (∃ steps ≤ (names (absolute fs.cwdPath start)).length, ∀ n r,
      Climbs fs (absolute fs.cwdPath start) n r ↔ n = steps ∧ r = find fs start) ∧
    (∀ d, Nearest fs (absolute fs.cwdPath start) d → find fs start = some <$> load fs d) ∧
    ((∃ d, Nearest fs (absolute fs.cwdPath start) d) ↔
      ∃ d, AtOrAbove d (absolute fs.cwdPath start) ∧ HasFile fs d) ∧
    (find fs start = .ok none ↔
      ∀ d, AtOrAbove d (absolute fs.cwdPath start) → ¬ HasFile fs d) := by
  obtain ⟨ns, hns, hclean⟩ := exists_plain_absolute (isAbsolute_ofNames fs.cwd) start
  have hdir : absolute fs.cwdPath start = ofNames ns := hclean
  have hup : ∀ n ∈ ns.reverse, Plain n := fun n hn => hns n (List.mem_reverse.1 hn)
  obtain ⟨steps, hsteps, hclimbs⟩ := climbs_upwardsFrom fs hup
  rw [List.length_reverse] at hsteps
  rw [List.reverse_reverse] at hclimbs
  have hnone : (upwardsFrom ns.reverse).find? (isIn fs) = none ↔
      ∀ d, AtOrAbove d (ofNames ns) → ¬ HasFile fs d := by
    rw [find?_upwardsFrom_eq_none hup, List.reverse_reverse]
  have hsome : ∀ d, (upwardsFrom ns.reverse).find? (isIn fs) = some d ↔
      Nearest fs (ofNames ns) d := by
    intro d
    rw [find?_upwardsFrom_eq_some hup, List.reverse_reverse]
  have hfind : find fs start = outcome fs ((upwardsFrom ns.reverse).find? (isIn fs)) := by
    rw [find_eq, hdir, upwards, names_ofNames hns]
  rw [hfind, hdir, names_ofNames hns]
  refine ⟨⟨steps, hsteps, fun n r => ⟨fun h => hclimbs.unique h, ?_⟩⟩, fun d hd => ?_, ?_, ?_⟩
  · rintro ⟨rfl, rfl⟩
    exact hclimbs
  · rw [(hsome d).2 hd]
    rfl
  · constructor
    · rintro ⟨d, hd⟩
      exact ⟨d, hd.above, hd.file⟩
    · rintro ⟨d, habove, hfile⟩
      cases hfound : (upwardsFrom ns.reverse).find? (isIn fs) with
      | none => exact absurd hfile (hnone.1 hfound d habove)
      | some e => exact ⟨e, (hsome e).1 hfound⟩
  · rw [outcome_eq_none, hnone]

/-- A directory without a manifest, in one whose manifest is no settings file, below a root with an
empty manifest. -/
def nestedSample : FileSystem :=
  ({ cwd := ["p", "src"] } : FileSystem)
    |>.setNode ["druk.toml"] (.file [])
    |>.setNode ["p"] .directory
    |>.setNode ["p", "druk.toml"] (.file "x")
    |>.setNode ["p", "src"] .directory

theorem nearest_nestedSample :
    Nearest nestedSample (absolute nestedSample.cwdPath "deep//../") (ofNames ["p"]) := by
  have hdir : absolute nestedSample.cwdPath "deep//../" =
      ofNames (([Text.ofString "p"] : List Text) ++ [Text.ofString "src"]) := by decide
  have hplain : ∀ n ∈ ([Text.ofString "p"] : List Text) ++ [Text.ofString "src"], Plain n := by
    simp only [List.cons_append, List.nil_append, List.forall_mem_cons]
    exact ⟨⟨by decide, by decide, by decide, by decide⟩,
      ⟨by decide, by decide, by decide, by decide⟩, nofun⟩
  have habove : AtOrAbove (ofNames ["p"]) (ofNames ["p"]) :=
    ⟨["p"], ⟨[], rfl⟩, rfl⟩
  rw [hdir]
  refine ⟨(atOrAbove_concat hplain).2 (Or.inr habove), ⟨.file "x", rfl⟩, fun e he hfile => ?_⟩
  rcases (atOrAbove_concat hplain).1 he with rfl | he
  · obtain ⟨node, hnode⟩ := hfile
    cases hnode
  · exact he.length_le fun n hn => hplain n (List.mem_append_left _ hn)

/-- The manifest that cannot be loaded is not passed over for the one at the root. -/
theorem find_nearest_nestedSample :
    Nearest nestedSample (absolute nestedSample.cwdPath "deep//../") (ofNames ["p"]) ∧
      find nestedSample "deep//../" = some <$> load nestedSample (ofNames ["p"]) ∧
      (load nestedSample (ofNames ["p"])).toBool = false ∧
      (load nestedSample (ofNames [])).toBool = true :=
  ⟨nearest_nestedSample, (find_nearest nestedSample "deep//../").2.1 _ nearest_nestedSample,
    by decide +kernel, by decide +kernel⟩

end Manifest

end StackVm
