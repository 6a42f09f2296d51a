/-
An open store is a finite map.  Whatever sequence of requests it is given, it answers each of them
as a map from names to images does, and lists what is in it in strictly ascending order of names.
Only a database that has no more pages to give refuses a request, and changes nothing.
-/
import Mathlib.Logic.Function.Basic
import StackVm.Proofs.StoreSession

namespace StackVm

open FileSystem

/-! ### Rows in order -/

/-- The order of names is that of lists of bytes. -/
theorem Text.before_iff {a b : Text} : before a b = true ↔ a < b := by
  induction a generalizing b with
  | nil => cases b <;> simp [before]
  | cons x a ih =>
    cases b with
    | nil => simp [before]
    | cons y b =>
      rw [before, List.cons_lt_cons_iff]
      split_ifs with hsame
      · simp [hsame, ih]
      · simp [hsame]

/-- Rows are in strictly ascending order of names, byte by byte. -/
def Ordered (rows : List Row) : Prop := rows.Pairwise fun r r' => r.name < r'.name

variable {row r : Row} {rows : List Row}

theorem mem_insertRow (h : r ∈ insertRow Text.before row rows) : r = row ∨ r ∈ rows := by
  induction rows with
  | nil => exact Or.inl (List.mem_singleton.1 h)
  | cons first rest ih =>
    rw [insertRow] at h
    split_ifs at h
    · exact (List.mem_cons.1 h).imp_right (List.mem_cons_of_mem first)
    · exact List.mem_cons.1 h
    · rcases List.mem_cons.1 h with rfl | hrest
      · exact Or.inr List.mem_cons_self
      · exact (ih hrest).imp_right (List.mem_cons_of_mem first)

theorem Ordered.insertRow (h : Ordered rows) (row : Row) :
    Ordered (insertRow Text.before row rows) := by
  induction rows with
  | nil => exact List.pairwise_singleton _ row
  | cons first rest ih =>
    obtain ⟨hfirst, hrest⟩ := List.pairwise_cons.1 h
    rw [StackVm.insertRow]
    split_ifs with hsame hbefore
    · rw [hsame] at hfirst
      exact List.pairwise_cons.2 ⟨hfirst, hrest⟩
    · rw [Text.before_iff] at hbefore
      refine List.pairwise_cons.2 ⟨?_, h⟩
      intro r hr
      rcases List.mem_cons.1 hr with rfl | hr
      · exact hbefore
      · exact List.lt_trans hbefore (hfirst r hr)
    · rw [Text.before_iff] at hbefore
      refine List.pairwise_cons.2 ⟨?_, ih hrest⟩
      intro r hr
      rcases mem_insertRow hr with rfl | hr
      · by_contra hafter
        exact hsame (List.le_antisymm hbefore hafter)
      · exact hfirst r hr

theorem Ordered.filter (h : Ordered rows) (p : Row → Bool) : Ordered (rows.filter p) :=
  List.Pairwise.filter p h

theorem mem_of_findRow {name : Text} (h : findRow name rows = some row) :
    row ∈ rows ∧ row.name = name := by
  refine ⟨List.mem_of_find?_eq_some h, ?_⟩
  simpa using List.find?_some h

theorem findRow_eq_none {name : Text} :
    findRow name rows = none ↔ ∀ row ∈ rows, row.name ≠ name := by
  simp [findRow]

/-- In order no two rows have one name, so that each is found. -/
theorem Ordered.findRow_of_mem (h : Ordered rows) (hr : row ∈ rows) :
    findRow row.name rows = some row := by
  induction rows with
  | nil => cases hr
  | cons first rest ih =>
    obtain ⟨hfirst, hrest⟩ := List.pairwise_cons.1 h
    rcases List.mem_cons.1 hr with rfl | hr
    · simp [findRow]
    · have hne : first.name ≠ row.name := by
        intro hsame
        have hlt := hfirst row hr
        rw [hsame] at hlt
        exact List.lt_irrefl _ hlt
      rw [findRow, List.find?_cons_of_neg (by simpa using hne)]
      exact ih hrest hr

/-! ### The map -/

namespace Store

/-- What is saved under each name: the last image and when it was saved. -/
abbrev Shelf := Text → Option (Image × Nat)

/-- What a store can be asked. -/
inductive Request where
  | put (now : Nat) (name : Text) (img : Image)
  | get (name : Text)
  | delete (name : Text)
  | list

/-- What a store answers. -/
inductive Answer where
  /-- The digest of an image that was saved. -/
  | digest (digest : Text)
  | image (img : Image)
  | deleted
  | rows (rows : List Row)

/-- Carries out a request. -/
def answer (s : Store) (fs : FileSystem) : Request → FileSystem × Except StoreError Answer
  | .put now name img => (s.put fs now name img).map id (·.map .digest)
  | .get name => (s.get fs name).map id (·.map .image)
  | .delete name => (s.delete fs name).map id (·.map fun _ => .deleted)
  | .list => (s.list fs).map id (·.map .rows)

namespace Shelf

/-- The rows of a shelf: each name once, in order, with the SHA-256 digest of its image in
hexadecimal and the bytes of its image. -/
structure Lists (shelf : Shelf) (rows : List Row) : Prop where
  ordered : Ordered rows
  row : ∀ row ∈ rows, ∃ img, shelf row.name = some (img, row.updated) ∧
    row.digest = Text.hexBytes (Sha256.digest img.encode) ∧ row.data = img.encode
  all : ∀ name, (shelf name).isSome → ∃ row ∈ rows, row.name = name

/-- What a shelf holds after a request. -/
def after (shelf : Shelf) : Request → Shelf
  | .put now name img => if name = [] then shelf else Function.update shelf name (some (img, now))
  | .delete name => Function.update shelf name none
  | .get _ | .list => shelf

/-- How a shelf answers a request. -/
inductive Answers (shelf : Shelf) : Request → Except StoreError Answer → Prop where
  | put {now : Nat} {name : Text} {img : Image} : name ≠ [] →
      Answers shelf (.put now name img)
        (.ok (.digest (Text.hexBytes (Sha256.digest img.encode))))
  | putUnnamed {now : Nat} {img : Image} :
      Answers shelf (.put now [] img) (.error .emptyName)
  | get {name : Text} {img : Image} {now : Nat} : shelf name = some (img, now) →
      Answers shelf (.get name)
        (((Image.decode img.encode).mapError (.undecodable name)).map .image)
  | getMissing {name : Text} : shelf name = none →
      Answers shelf (.get name) (.error (.notFound name))
  | delete {name : Text} : shelf name ≠ none → Answers shelf (.delete name) (.ok .deleted)
  | deleteMissing {name : Text} : shelf name = none →
      Answers shelf (.delete name) (.error (.notFound name))
  | list {rows : List Row} : shelf.Lists rows → Answers shelf .list (.ok (.rows rows))

variable {shelf : Shelf} {name : Text}

theorem Lists.find_eq_none (h : shelf.Lists rows) (hname : shelf name = none) :
    findRow name rows = none := by
  rw [findRow_eq_none]
  rintro row hr rfl
  obtain ⟨img, hsome, -⟩ := h.row row hr
  rw [hname] at hsome
  cases hsome

theorem Lists.find_eq_some (h : shelf.Lists rows) {img : Image} {now : Nat}
    (hname : shelf name = some (img, now)) :
    ∃ row ∈ rows, findRow name rows = some row ∧ row.name = name ∧
      row.digest = Text.hexBytes (Sha256.digest img.encode) ∧ row.data = img.encode := by
  obtain ⟨row, hr, rfl⟩ := h.all name (by rw [hname]; rfl)
  obtain ⟨img', hsome, hdigest, hdata⟩ := h.row row hr
  rw [hname] at hsome
  cases hsome
  exact ⟨row, hr, h.ordered.findRow_of_mem hr, rfl, hdigest, hdata⟩

theorem Lists.put (h : shelf.Lists rows) {img : Image} {now : Nat} (hname : row.name = name)
    (hdigest : row.digest = Text.hexBytes (Sha256.digest img.encode))
    (hdata : row.data = img.encode) (hnow : row.updated = now) :
    Lists (Function.update shelf name (some (img, now))) (insertRow Text.before row rows) := by
  subst hname hnow
  have hordered := h.ordered.insertRow row
  refine ⟨hordered, ?_, ?_⟩
  · intro r hr
    by_cases hsame : r.name = row.name
    · have hfound := hordered.findRow_of_mem hr
      rw [findRow_insertRow, if_pos hsame] at hfound
      cases hfound
      exact ⟨img, Function.update_self .., hdigest, hdata⟩
    · rw [Function.update_of_ne hsame]
      rcases mem_insertRow hr with rfl | hr
      · exact absurd rfl hsame
      · exact h.row r hr
  · intro m hm
    have hfound := findRow_insertRow Text.before row rows m
    by_cases hsame : m = row.name
    · rw [if_pos hsame] at hfound
      exact ⟨row, mem_of_findRow hfound⟩
    · rw [Function.update_of_ne hsame] at hm
      obtain ⟨r, hr, rfl⟩ := h.all m hm
      rw [if_neg hsame, h.ordered.findRow_of_mem hr] at hfound
      exact ⟨r, mem_of_findRow hfound⟩

theorem Lists.delete (h : shelf.Lists rows) (name : Text) :
    Lists (Function.update shelf name none) (rows.filter (·.name ≠ name)) := by
  refine ⟨h.ordered.filter _, ?_, ?_⟩
  · intro r hr
    obtain ⟨hr, hne⟩ := List.mem_filter.1 hr
    rw [Function.update_of_ne (by simpa using hne)]
    exact h.row r hr
  · intro m hm
    by_cases hsame : m = name
    · subst hsame
      rw [Function.update_self] at hm
      cases hm
    · rw [Function.update_of_ne hsame] at hm
      obtain ⟨r, hr, rfl⟩ := h.all m hm
      exact ⟨r, List.mem_filter.2 ⟨hr, by simpa using hsame⟩, rfl⟩

/-- A row is missing afterwards exactly when the name was there. -/
theorem Lists.length_filter_lt (h : shelf.Lists rows) (name : Text) :
    (rows.filter (·.name ≠ name)).length < rows.length ↔ shelf name ≠ none := by
  rw [List.length_filter_lt_length_iff_exists]
  constructor
  · rintro ⟨r, hr, hname⟩
    obtain ⟨img, hsome, -⟩ := h.row r hr
    have hsame : r.name = name := by simpa using hname
    rw [← hsame, hsome]
    exact Option.some_ne_none _
  · intro hsome
    obtain ⟨r, hr, hname⟩ := h.all name (Option.ne_none_iff_isSome.1 hsome)
    exact ⟨r, hr, by simpa using hname⟩

end Shelf

/-! ### Requests to an open store -/

/-- What a database holds after a request that it has room for. -/
def after (p : Contents) : Request → Contents
  | .put now name img => if name = [] then p else withImage p now name img
  | .delete name => p.erase name
  | .get _ | .list => p

/-- A request would make a database larger than it may be. -/
def Overflows (p : Contents) : Request → Prop
  | .put now name img => name ≠ [] ∧ mostPages < (withImage p now name img).pages
  | .delete name => (p.find name).isSome ∧ mostPages < (p.erase name).pages
  | .get _ | .list => False

/-- What comes of a request: it is answered as the shelf answers it, and makes of the shelf what it
asks for, where a request that fails changes neither the shelf nor a file.  A database that would
become too large refuses the request, and everything stays as it is. -/
inductive Served (s : Store) (fs : FileSystem) (p : Contents) (shelf : Shelf) (request : Request) :
    FileSystem → Contents → Shelf → Prop where
  | answered {fs' : FileSystem} {a : Except StoreError Answer} : ¬ Overflows p request →
      s.answer fs request = (fs', a) → shelf.Answers request a →
      (∀ e, a = .error e → shelf.after request = shelf ∧ fs.Only fs' []) →
      Served s fs p shelf request fs' (after p request) (shelf.after request)
  | refused {fs' : FileSystem} {doing : Text} : Overflows p request →
      s.answer fs request = (fs', .error (.refused doing .full)) → fs.Only fs' [] →
      Served s fs p shelf request fs' p shelf

/-- Requests that are served one after the other. -/
inductive Course (s : Store) : FileSystem → Contents → Shelf → List Request → Prop where
  | nil {fs : FileSystem} {p : Contents} {shelf : Shelf} : Course s fs p shelf []
  | next {fs fs' : FileSystem} {p p' : Contents} {shelf shelf' : Shelf} {request : Request}
      {rest : List Request} : Served s fs p shelf request fs' p' shelf' →
      Course s fs' p' shelf' rest → Course s fs p shelf (request :: rest)

variable {s : Store} {fs fs' : FileSystem} {place : Place} {p : Contents} {shelf : Shelf}

theorem Serving.setCache (h : s.Serving fs place p) (changes : Nat) :
    s.Serving (fs.setCache s.connection.cache { place, changes }) place p :=
  ⟨h.isOpen, h.connection, h.hold.setCache changes, h.serves.congr fun _ _ => rfl, h.table, h.utf8⟩

/-- A request is served, and the store holds what is on the shelf then. -/
def Upholds (s : Store) (fs : FileSystem) (place : Place) (p : Contents) (shelf : Shelf)
    (request : Request) : Prop :=
  ∃ fs' p' shelf', Served s fs p shelf request fs' p' shelf' ∧ s.Serving fs' place p' ∧
    shelf'.Lists p'.rows

theorem rows_withImage (h : p.InUtf8) (now : Nat) (name : Text) (img : Image) :
    (withImage p now name img).rows =
      insertRow Text.before ⟨name, imageDigest img.encode, img.encode, now, nextNumber p.rows⟩
        p.rows := by
  rw [withImage, Contents.put, h.kept, h]
  rfl

theorem rows_erase (h : p.InUtf8) (name : Text) :
    (p.erase name).rows = p.rows.filter (·.name ≠ name) := by
  rw [Contents.erase, h.kept]

theorem find_eq_findRow (h : p.InUtf8) (name : Text) : p.find name = findRow name p.rows := by
  rw [Contents.find, h.kept]

theorem Serving.upholds_put (h : s.Serving fs place p) (hlists : shelf.Lists p.rows) (now : Nat)
    (name : Text) (img : Image) : s.Upholds fs place p shelf (.put now name img) := by
  by_cases hname : name = []
  · subst hname
    have hserved : Served s fs p shelf (.put now [] img) fs p shelf :=
      .answered (fun hover => hover.1 rfl) rfl .putUnnamed fun _ _ => ⟨rfl, .refl fs []⟩
    exact ⟨fs, p, shelf, hserved, h, hlists⟩
  · have hput := h.put_eq hname now img
    by_cases hfull : mostPages < (withImage p now name img).pages
    · rw [if_pos hfull] at hput
      have hanswer : s.answer fs (.put now name img) =
          (fs, .error (.refused ("saving image " ++ name) .full)) := by
        rw [answer, hput]
        rfl
      exact ⟨fs, p, shelf, .refused ⟨hname, hfull⟩ hanswer (.refl fs []), h, hlists⟩
    · rw [if_neg hfull] at hput
      have hanswer : s.answer fs (.put now name img) =
          (fs.saved s.connection.cache place (withImage p now name img) 1,
            .ok (.digest (imageDigest img.encode))) := by
        rw [answer, hput]
        rfl
      refine ⟨_, _, _, .answered (fun hover => hfull hover.2) hanswer (.put hname) nofun, ?_, ?_⟩
      · rw [after, if_neg hname]
        exact h.saved (withImage p now name img) h.table h.utf8 h.serves.unlogged 1
      · rw [after, Shelf.after, if_neg hname, if_neg hname, rows_withImage h.utf8]
        exact hlists.put rfl rfl rfl rfl

theorem Serving.upholds_get (h : s.Serving fs place p) (hlists : shelf.Lists p.rows)
    (name : Text) : s.Upholds fs place p shelf (.get name) := by
  have hget := h.get_eq name
  rw [find_eq_findRow h.utf8] at hget
  have hunchanged : ∀ a, s.answer fs (.get name) = (fs, a) → shelf.Answers (.get name) a →
      s.Upholds fs place p shelf (.get name) := by
    intro a hanswer hanswers
    exact ⟨fs, p, shelf, .answered id hanswer hanswers fun _ _ => ⟨rfl, .refl fs []⟩, h, hlists⟩
  cases hname : shelf name with
  | none =>
    rw [hlists.find_eq_none hname] at hget
    exact hunchanged _ (by rw [answer, hget]; rfl) (.getMissing hname)
  | some saved =>
    obtain ⟨img, now⟩ := saved
    obtain ⟨row, -, hfind, -, hdigest, hdata⟩ := hlists.find_eq_some hname
    have himage : imageOf name row = (Image.decode img.encode).mapError (.undecodable name) := by
      simp [imageOf, imageDigest, hdigest, hdata]
    rw [hfind] at hget
    dsimp only at hget
    rw [himage] at hget
    exact hunchanged _ (by rw [answer, hget]; rfl) (.get hname)

theorem erase_eq_self (h : p.InUtf8) {name : Text} (hname : findRow name p.rows = none) :
    p.erase name = p := by
  have hrows : (p.erase name).rows = p.rows := by
    rw [rows_erase h, List.filter_eq_self]
    intro row hr
    simpa using findRow_eq_none.1 hname row hr
  calc p.erase name = { p with rows := (p.erase name).rows } := rfl
    _ = p := by rw [hrows]

theorem Serving.upholds_delete (h : s.Serving fs place p) (hlists : shelf.Lists p.rows)
    (name : Text) : s.Upholds fs place p shelf (.delete name) := by
  have hdelete := h.delete_eq name
  have hfewer := hlists.length_filter_lt name
  have hafter : (shelf.after (.delete name)).Lists (after p (.delete name)).rows := by
    rw [after, rows_erase h.utf8]
    exact hlists.delete name
  rw [← rows_erase h.utf8] at hfewer
  by_cases hname : shelf name = none
  · have hfind := hlists.find_eq_none hname
    have hanswer : s.answer fs (.delete name) =
        (fs.setCache s.connection.cache
          { place, changes := p.rows.length - (p.erase name).rows.length },
          .error (.notFound name)) := by
      rw [answer, hdelete, if_neg fun hlt => hfewer.1 hlt hname]
      rfl
    have hunchanged : shelf.after (.delete name) = shelf := by
      rw [Shelf.after, ← hname, Function.update_eq_self]
    refine ⟨_, _, _, .answered ?_ hanswer (.deleteMissing hname) ?_, ?_, hafter⟩
    · rintro ⟨hfound, -⟩
      rw [find_eq_findRow h.utf8, hfind] at hfound
      cases hfound
    · exact fun _ _ => ⟨hunchanged, rfl, fun _ _ => rfl⟩
    · rw [after, erase_eq_self h.utf8 hfind]
      exact h.setCache _
  · rw [if_pos (hfewer.2 hname)] at hdelete
    obtain ⟨⟨img, now⟩, hsome⟩ := Option.ne_none_iff_exists'.1 hname
    obtain ⟨row, -, hfind, -⟩ := hlists.find_eq_some hsome
    rw [← find_eq_findRow h.utf8] at hfind
    by_cases hfull : mostPages < (p.erase name).pages
    · rw [if_pos hfull] at hdelete
      have hanswer : s.answer fs (.delete name) =
          (fs, .error (.refused ("deleting image " ++ name) .full)) := by
        rw [answer, hdelete]
        rfl
      have hover : Overflows p (.delete name) := ⟨by rw [hfind]; rfl, hfull⟩
      exact ⟨fs, p, shelf, .refused hover hanswer (.refl fs []), h, hlists⟩
    · rw [if_neg hfull] at hdelete
      have hanswer : s.answer fs (.delete name) =
          (fs.saved s.connection.cache place (p.erase name)
            (p.rows.length - (p.erase name).rows.length), .ok .deleted) := by
        rw [answer, hdelete]
        rfl
      refine ⟨_, _, _, .answered (fun hover => hfull hover.2) hanswer (.delete hname) nofun, ?_,
        hafter⟩
      exact h.saved (p.erase name) h.table h.utf8 h.serves.unlogged _

theorem Serving.upholds_list (h : s.Serving fs place p) (hlists : shelf.Lists p.rows) :
    s.Upholds fs place p shelf .list := by
  have hanswer : s.answer fs .list = (fs, .ok (.rows p.rows)) := by
    rw [answer, h.list_eq]
    rfl
  exact ⟨fs, p, shelf, .answered id hanswer (.list hlists) nofun, h, hlists⟩

/-- Each request to a store that holds what is on a shelf is served. -/
theorem Serving.upholds (h : s.Serving fs place p) (hlists : shelf.Lists p.rows)
    (request : Request) : s.Upholds fs place p shelf request := by
  cases request with
  | put now name img => exact h.upholds_put hlists now name img
  | get name => exact h.upholds_get hlists name
  | delete name => exact h.upholds_delete hlists name
  | list => exact h.upholds_list hlists

/-- An open store answers every sequence of requests as a finite map does. -/
theorem Serving.course (h : s.Serving fs place p) (hlists : shelf.Lists p.rows)
    (requests : List Request) : Course s fs p shelf requests := by
  induction requests generalizing fs p shelf with
  | nil => exact .nil
  | cons request rest ih =>
    obtain ⟨fs', p', shelf', hserved, hserving, hlists'⟩ := h.upholds hlists request
    exact .next hserved (ih hserving hlists')

/-! A store that is made, asked a few things, and asked for what it does not have. -/

theorem rests_empty : Rests {} "s.db" ["s.db"] {} where
  plain := ⟨"s.db",
    Location.plain_of_simple (by decide) (by decide) (by decide) (by decide) (by decide),
    rfl, ["s.db"], rfl, rfl⟩
  short := by decide
  directories := rfl
  parent := rfl
  idle := rfl
  serves := ⟨⟨by decide, by decide⟩, Or.inr ⟨rfl, rfl⟩, rfl, rfl, rfl⟩
  utf8 := rfl

/-- The store is asked to save two images and to replace one of them, and so on. -/
theorem course_newStore :
    ∃ fs s, openAt {} "s.db" = (fs, .ok s) ∧
      Course s fs (tabled {}) (fun _ => none)
        [.put 1 "b" (.ofChunk [] Chunk.magic), .put 2 "a" (.ofChunk [] Chunk.magic),
          .put 3 "b" (.ofChunk "f" Chunk.magic), .list, .get "b", .delete "a", .get "a",
          .delete "a", .put 4 [] (.ofChunk [] Chunk.magic), .list] := by
  obtain ⟨fs, s, hopen, hserving, -⟩ := rests_empty.opened opens_new
  have hlists : Shelf.Lists (fun _ => none) (tabled {}).rows := ⟨List.Pairwise.nil, nofun, nofun⟩
  exact ⟨fs, s, hopen, hserving.course hlists _⟩

end Store

end StackVm
