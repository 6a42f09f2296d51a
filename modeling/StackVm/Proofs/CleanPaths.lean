/-
Clean absolute paths.  Such a path is the names that lead down to it from the root: cleaning keeps
it, its parent has all of its names but the last one, and the root is its own parent.
-/
import StackVm.Files.Path

namespace StackVm

namespace Text

variable {b : UInt8}

theorem splitOn_cons (b c : UInt8) (t : Text) : List.splitOn b (c :: t) =
    if c = b then [] :: t.splitOn b else (t.splitOn b).modifyHead (c :: ·) := by
  rw [List.splitOn, List.splitOnP_cons_eq_if_modifyHead]
  simp only [beq_iff_eq]
  rfl

theorem piecesInto_eq (b : UInt8) (done : List Text) (current t : Text) :
    piecesInto b done current t =
      done.reverse ++ (t.splitOn b).modifyHead (current.reverse ++ ·) := by
  induction t generalizing done current with
  | nil => simp [piecesInto]
  | cons c rest ih =>
    rw [piecesInto, splitOn_cons, ih, ih]
    split
    · cases rest.splitOn b <;> simp
    · cases rest.splitOn b <;> simp

theorem pieces_eq (b : UInt8) (t : Text) : pieces b t = t.splitOn b := by
  rw [pieces, piecesInto_eq]
  cases t.splitOn b <;> simp

theorem not_mem_of_mem_pieces {t piece : Text} (h : piece ∈ pieces b t) : b ∉ piece := by
  rw [pieces_eq] at h
  induction t generalizing piece with
  | nil =>
    rw [List.splitOn_nil, List.mem_singleton] at h
    rw [h]
    exact List.not_mem_nil
  | cons c rest ih =>
    rw [splitOn_cons] at h
    split at h
    · rcases List.mem_cons.1 h with rfl | h
      · exact List.not_mem_nil
      · exact ih h
    · next hc =>
      cases hrest : rest.splitOn b with
      | nil =>
        rw [hrest] at h
        cases h
      | cons first others =>
        rw [hrest, List.modifyHead_cons, List.mem_cons] at h
        rcases h with rfl | h
        · have hfirst := ih (hrest ▸ List.mem_cons_self)
          exact fun hb => (List.mem_cons.1 hb).elim (fun heq => hc heq.symm) hfirst
        · exact ih (hrest ▸ List.mem_cons_of_mem first h)

theorem join_singleton (sep t : Text) : join sep [t] = t := by simp [join]

theorem join_cons {ts : List Text} (h : ts ≠ []) (sep t : Text) :
    join sep (t :: ts) = t ++ sep ++ join sep ts :=
  List.intercalate_cons_of_ne_nil h

/-- Texts are the pieces of what they are joined to, where none contains the separator. -/
theorem pieces_join {ts : List Text} (h : ∀ t ∈ ts, b ∉ t) (hne : ts ≠ []) :
    pieces b (join [b] ts) = ts := by
  rw [pieces_eq]
  exact List.splitOn_intercalate b h hne

end Text

namespace Path

variable {ns : List Text} {name p : Text}

/-- A name that leads down into a directory. -/
structure Plain (name : Text) : Prop where
  ne_nil : name ≠ []
  undivided : slash ∉ name
  ne_dot : name ≠ dot
  ne_dotDot : name ≠ dotDot

/-! ### Cleaning -/

theorem mem_names (h : name ∈ names p) : name ≠ [] ∧ slash ∉ name ∧ name ≠ dot := by
  rw [names, List.mem_filter, pieces, List.mem_filter] at h
  obtain ⟨⟨hpiece, hne⟩, hdot⟩ := h
  exact ⟨of_decide_eq_true hne, Text.not_mem_of_mem_pieces hpiece, of_decide_eq_true hdot⟩

/-- Following a name from below the root leaves plain names. -/
theorem plain_follow {up : List Text} (hup : ∀ n ∈ up, Plain n) (hne : name ≠ [])
    (hundivided : slash ∉ name) (hdot : name ≠ dot) : ∀ n ∈ follow true up name, Plain n := by
  unfold follow
  split
  · split
    · nofun
    · next last rest =>
      rw [if_neg (hup last List.mem_cons_self).ne_dotDot]
      exact fun n hn => hup n (List.mem_cons_of_mem last hn)
  · next hdown =>
    intro n hn
    rcases List.mem_cons.1 hn with rfl | hn
    · exact ⟨hne, hundivided, hdot, hdown⟩
    · exact hup n hn

theorem plain_cleanNames (p : Text) : ∀ n ∈ cleanNames true (names p), Plain n := by
  have hfold : ∀ (rest up : List Text), (∀ n ∈ rest, n ∈ names p) → (∀ n ∈ up, Plain n) →
      ∀ n ∈ rest.foldl (follow true) up, Plain n := by
    intro rest
    induction rest with
    | nil => exact fun _ _ hup => hup
    | cons name rest ih =>
      intro up hrest hup
      obtain ⟨hne, hundivided, hdot⟩ := mem_names (hrest name List.mem_cons_self)
      exact ih _ (fun n hn => hrest n (List.mem_cons_of_mem name hn))
        (plain_follow hup hne hundivided hdot)
  intro n hn
  exact hfold _ [] (fun _ h => h) nofun n (List.mem_reverse.1 hn)

theorem cleanNames_of_plain (h : ∀ n ∈ ns, Plain n) (rooted : Bool) :
    cleanNames rooted ns = ns := by
  have hfold : ∀ up, ns.foldl (follow rooted) up = ns.reverse ++ up := by
    induction ns with
    | nil => exact fun _ => rfl
    | cons name rest ih =>
      intro up
      have hdown : follow rooted up name = name :: up :=
        if_neg (h name List.mem_cons_self).ne_dotDot
      rw [List.foldl_cons, hdown, ih fun n hn => h n (List.mem_cons_of_mem name hn)]
      simp
  rw [cleanNames, hfold, List.append_nil, List.reverse_reverse]

/-- An absolute path is cleaned to plain names below the root. -/
theorem clean_of_absolute (h : isAbsolute p = true) :
    clean p = ofNames (cleanNames true (names p)) := by
  rw [clean, h]
  rfl

theorem exists_plain_clean (h : isAbsolute p = true) :
    ∃ ns, (∀ n ∈ ns, Plain n) ∧ clean p = ofNames ns :=
  ⟨_, plain_cleanNames p, clean_of_absolute h⟩

/-- The absolute path of any path has plain names. -/
theorem exists_plain_absolute {cwd : Text} (hcwd : isAbsolute cwd = true) (p : Text) :
    ∃ ns, (∀ n ∈ ns, Plain n) ∧ absolute cwd p = ofNames ns := by
  have hne : cwd ≠ [] := by
    rintro rfl
    cases hcwd
  rw [absolute]
  split
  · next hp => exact exists_plain_clean hp
  · rw [join, if_neg hne]
    split
    · exact exists_plain_clean hcwd
    · refine exists_plain_clean ?_
      obtain ⟨c, rest, rfl⟩ := List.exists_cons_of_ne_nil hne
      exact hcwd

/-! ### Names below the root -/

theorem isAbsolute_ofNames (ns : List Text) : isAbsolute (ofNames ns) = true := rfl

theorem ofNames_cons (h : ns ≠ []) (name : Text) :
    ofNames (name :: ns) = slash :: name ++ ofNames ns := by
  rw [ofNames, Text.join_cons h, List.append_assoc]
  rfl

theorem pieces_ofNames (h : ∀ n ∈ ns, slash ∉ n) : pieces (ofNames ns) = ns.filter (· ≠ []) := by
  have hroot : Text.pieces slash (ofNames ns) = [] :: Text.pieces slash (Text.join [slash] ns) := by
    rw [ofNames, Text.pieces_eq, Text.splitOn_cons, if_pos rfl, Text.pieces_eq]
  rw [pieces, hroot]
  by_cases hne : ns = []
  · rw [hne]
    rfl
  · rw [Text.pieces_join h hne]
    rfl

/-- Plain names are read back from their path. -/
theorem names_ofNames (h : ∀ n ∈ ns, Plain n) : names (ofNames ns) = ns := by
  rw [names, pieces_ofNames fun n hn => (h n hn).undivided, List.filter_filter]
  refine List.filter_eq_self.2 fun n hn => ?_
  simp [(h n hn).ne_nil, (h n hn).ne_dot]

/-! ### Parents -/

/-- The last name stands behind a slash. -/
theorem exists_ofNames_concat (ns : List Text) (name : Text) :
    ∃ front, ofNames (ns ++ [name]) = front ++ slash :: name ∧
      ofNames (ns ++ [[]]) = front ++ [slash] := by
  induction ns with
  | nil => exact ⟨[], by simp [ofNames, Text.join_singleton]⟩
  | cons first rest ih =>
    obtain ⟨front, hname, hslash⟩ := ih
    refine ⟨slash :: first ++ front, ?_, ?_⟩
    · rw [List.cons_append, ofNames_cons (by simp), hname, List.append_assoc]
    · rw [List.cons_append, ofNames_cons (by simp), hslash, List.append_assoc]

/-- A slash behind a path is cleaned away. -/
theorem clean_ofNames_slash (h : ∀ n ∈ ns, Plain n) :
    clean (ofNames (ns ++ [[]])) = ofNames ns := by
  have hnames : names (ofNames (ns ++ [[]])) = ns := by
    have hundivided : ∀ n ∈ ns ++ [[]], slash ∉ n := by
      intro n hn
      rcases List.mem_append.1 hn with hn | hn
      · exact (h n hn).undivided
      · rw [List.mem_singleton.1 hn]
        exact List.not_mem_nil
    rw [names, pieces_ofNames hundivided, List.filter_append, List.filter_append,
      List.filter_filter]
    have hlast : List.filter (· ≠ dot) (List.filter (· ≠ []) ([[]] : List Text)) = [] := rfl
    rw [hlast, List.append_nil]
    refine List.filter_eq_self.2 fun n hn => ?_
    simp [(h n hn).ne_nil, (h n hn).ne_dot]
  rw [clean_of_absolute (isAbsolute_ofNames _), hnames, cleanNames_of_plain h]

/-- The parent has all names but the last one. -/
theorem parent_ofNames (h : ∀ n ∈ ns ++ [name], Plain n) :
    parent (ofNames (ns ++ [name])) = ofNames ns := by
  obtain ⟨front, hname, hslash⟩ := exists_ofNames_concat ns name
  have hlast : Plain name := h name (by simp)
  have hcut : ((front ++ slash :: name).reverse.dropWhile (· ≠ slash)).reverse =
      front ++ [slash] := by
    have hbehind : ∀ c ∈ name.reverse, decide (c ≠ slash) = true := by
      intro c hc
      refine decide_eq_true ?_
      rintro rfl
      exact hlast.undivided (List.mem_reverse.1 hc)
    rw [List.reverse_append, List.reverse_cons, List.append_assoc,
      List.dropWhile_append_of_pos hbehind]
    simp
  rw [parent, hname, hcut, ← hslash]
  exact clean_ofNames_slash fun n hn => h n (List.mem_append_left _ hn)

theorem parent_root : parent (ofNames []) = ofNames [] := by decide

theorem ofNames_inj {ms : List Text} (hns : ∀ n ∈ ns, Plain n) (hms : ∀ n ∈ ms, Plain n)
    (h : ofNames ns = ofNames ms) : ns = ms := by
  rw [← names_ofNames hns, h, names_ofNames hms]

/-- A directory below the root is not its own parent. -/
theorem parent_ne (h : ∀ n ∈ ns ++ [name], Plain n) :
    parent (ofNames (ns ++ [name])) ≠ ofNames (ns ++ [name]) := by
  rw [parent_ofNames h]
  intro heq
  have hsame := ofNames_inj (fun n hn => h n (List.mem_append_left _ hn)) h heq
  simp at hsame

end Path

end StackVm
