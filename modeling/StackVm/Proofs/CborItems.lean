/-
What items that have been read are like: no part is longer than what was read, no array is too
large, and what counts as well-formed text is UTF-8, also when it came in pieces.
-/
import Mathlib.Tactic.Basic
import Mathlib.Tactic.SplitIfs
import StackVm.Proofs.CborReading

namespace StackVm

namespace Text

/-! ### Texts made of pieces -/

/-- A character that has been found stays the same when more text follows. -/
theorem runeAt_append {a : UInt8} {rest : Text} {c : Nat} (h : (runeAt a rest).1 = .point c)
    (more : Text) : (runeAt a rest).2 ≤ rest.length ∧ runeAt a (rest ++ more) = runeAt a rest := by
  by_cases hone : a < 0x80
  · simp [runeAt, hone]
  by_cases htwo : within 0xC2 0xDF a = true
  · rcases rest with _ | ⟨b, rest⟩
    · simp [runeAt, hone, htwo] at h
    · by_cases hb : isTail b = true
      · simp [runeAt, hone, htwo, hb]
      · simp [runeAt, hone, htwo, hb] at h
  by_cases hthree : within 0xE0 0xEF a = true
  · rcases rest with _ | ⟨b, _ | ⟨c, rest⟩⟩
    · simp [runeAt, hone, htwo, hthree] at h
    · simp [runeAt, hone, htwo, hthree] at h
    · by_cases hb : (within (secondRange a).1 (secondRange a).2 b && isTail c) = true
      · simp [runeAt, hone, htwo, hthree, hb]
      · simp [runeAt, hone, htwo, hthree, hb] at h
  by_cases hfour : within 0xF0 0xF4 a = true
  · rcases rest with _ | ⟨b, _ | ⟨c, _ | ⟨d, rest⟩⟩⟩
    · simp [runeAt, hone, htwo, hthree, hfour] at h
    · simp [runeAt, hone, htwo, hthree, hfour] at h
    · simp [runeAt, hone, htwo, hthree, hfour] at h
    · by_cases hb : (within (secondRange a).1 (secondRange a).2 b && isTail c && isTail d) = true
      · simp [runeAt, hone, htwo, hthree, hfour, hb]
      · simp [runeAt, hone, htwo, hthree, hfour, hb] at h
  · simp [runeAt, hone, htwo, hthree, hfour] at h

theorem length_drop_lt (a : UInt8) (rest : Text) (k : Nat) :
    (rest.drop k).length < (a :: rest).length := by
  rw [List.length_drop, List.length_cons]
  omega

theorem runesInto_eq (done : List Rune) (t : Text) :
    runesInto done t = done.reverse ++ runes t := by
  induction hlength : t.length using Nat.strong_induction_on generalizing done t with
  | h n ih =>
    cases t with
    | nil => simp [runes, runesInto]
    | cons a rest =>
      have hshorter := hlength ▸ length_drop_lt a rest (runeAt a rest).2
      rw [runes, runesInto, runesInto, ih _ hshorter _ _ rfl, ih _ hshorter [_] _ rfl]
      simp

theorem runes_cons (a : UInt8) (rest : Text) :
    runes (a :: rest) = (runeAt a rest).1 :: runes (rest.drop (runeAt a rest).2) := by
  rw [runes, runesInto, runesInto_eq]
  rfl

/-- A text that starts with a well-formed character is well-formed if what follows it is. -/
theorem isUtf8_cons {a : UInt8} {rest : Text} :
    isUtf8 (a :: rest) = true ↔
      (∃ c, (runeAt a rest).1 = .point c) ∧ isUtf8 (rest.drop (runeAt a rest).2) = true := by
  rw [isUtf8, runes_cons, List.all_cons, Bool.and_eq_true]
  cases (runeAt a rest).1 <;> simp [isUtf8]

theorem isUtf8_append {t more : Text} (h : isUtf8 t = true) (hmore : isUtf8 more = true) :
    isUtf8 (t ++ more) = true := by
  induction hlength : t.length using Nat.strong_induction_on generalizing t with
  | h n ih =>
    cases t with
    | nil => exact hmore
    | cons a rest =>
      obtain ⟨⟨c, hc⟩, hrest⟩ := isUtf8_cons.1 h
      obtain ⟨hle, hsame⟩ := runeAt_append hc more
      have hshorter := hlength ▸ length_drop_lt a rest (runeAt a rest).2
      rw [List.cons_append, isUtf8_cons, hsame, List.drop_append_of_le_length hle]
      exact ⟨⟨c, hc⟩, ih _ hshorter hrest rfl⟩

theorem isUtf8_flatten {pieces : List Text} (h : pieces.all isUtf8 = true) :
    isUtf8 pieces.flatten = true := by
  induction pieces with
  | nil => simp [isUtf8, runes, runesInto]
  | cons t rest ih =>
    rw [List.all_cons, Bool.and_eq_true] at h
    exact isUtf8_append h.1 (ih h.2)

end Text

namespace Cbor

/-! ### Items that have been read -/

/-- The strings of an item have at most `bound` bytes, its arrays are not too large, and its
texts are UTF-8 where they count as well-formed. -/
inductive Proper (bound : Nat) : Item → Prop
  | uint (n : Nat) : Proper bound (.uint n)
  | negint (n : Nat) : Proper bound (.negint n)
  | bytes {data : Text} : data.length ≤ bound → Proper bound (.bytes data)
  | text {data : Text} {wellFormed : Bool} : data.length ≤ bound →
      (wellFormed = true → data.isUtf8 = true) → Proper bound (.text data wellFormed)
  | array {elements : List Item} : elements.length ≤ maxElements →
      (∀ e ∈ elements, Proper bound e) → Proper bound (.array elements)
  | map {entries : List (Item × Item)} : (∀ e ∈ entries, Proper bound e.1) →
      (∀ e ∈ entries, Proper bound e.2) → Proper bound (.map entries)
  | tag {number : Nat} {content : Item} : Proper bound content → Proper bound (.tag number content)
  | simple (n : Nat) : Proper bound (.simple n)
  | float : Proper bound .float

variable {bound fuel depth major : Nat} {t rest : Text} {item : Item}

theorem readNumber_length {width n : Nat} (h : readNumber width t = some (n, rest)) :
    rest.length ≤ t.length := by
  obtain ⟨⟨front, rest'⟩, hsplit, heq⟩ := Option.map_eq_some_iff.1 h
  obtain ⟨-, rfl⟩ := Text.split?_eq_some.1 hsplit
  cases heq
  simp

theorem readHead_length {head : Head} (h : readHead t = some (head, rest)) :
    rest.length ≤ t.length := by
  cases t with
  | nil => cases h
  | cons b t =>
    rw [List.length_cons]
    simp only [readHead] at h
    split_ifs at h
    · cases h
      omega
    · obtain ⟨⟨n, rest'⟩, hnumber, h⟩ := Option.bind_eq_some_iff.1 h
      have hle := readNumber_length hnumber
      simp only at h
      split_ifs at h
      cases h
      omega
    · cases h
      omega

theorem readPieces_length {done pieces : List Text}
    (h : readPieces major done fuel t = some (pieces, rest)) :
    pieces.flatten.length + rest.length ≤ done.flatten.length + t.length := by
  induction fuel generalizing done t with
  | zero => simp [readPieces] at h
  | succ fuel ih =>
    cases t with
    | nil => simp [readPieces] at h
    | cons b t =>
      simp only [readPieces] at h
      split_ifs at h
      · cases h
        simp [List.length_flatten]
      · obtain ⟨⟨head, r⟩, hhead, hdefinite⟩ := Option.bind_eq_some_iff.1 h
        have hle := readHead_length hhead
        simp only at hdefinite
        split_ifs at hdefinite
        obtain ⟨⟨piece, r'⟩, hsplit, hmore⟩ := Option.bind_eq_some_iff.1 hdefinite
        obtain ⟨-, rfl⟩ := Text.split?_eq_some.1 hsplit
        have hpieces := ih hmore
        rw [List.flatten_cons] at hpieces
        simp only [List.length_append] at hle hpieces
        rw [List.length_cons] at hle ⊢
        omega

theorem eq_interleave_of_pairUp {items : List Item} {entries : List (Item × Item)}
    (h : pairUp items = some entries) : items = interleave entries := by
  induction items using pairUp.induct generalizing entries with
  | case1 =>
    cases h
    rfl
  | case2 k v rest ih =>
    obtain ⟨entries', hrest, rfl⟩ := Option.map_eq_some_iff.1 h
    rw [ih hrest]
    rfl
  | case3 k => cases h

/-- What a string is made of, definite or in pieces. -/
theorem proper_ofPieces {pieces : List Text} (h : pieces.flatten.length ≤ bound) :
    Proper bound (ofPieces major pieces) := by
  rw [ofPieces]
  split_ifs
  · exact .bytes h
  · exact .text h Text.isUtf8_flatten

/-- What is read with some fuel is proper, and nothing is left that was not there. -/
structure ReadsProper (bound fuel : Nat) : Prop where
  item : ∀ {depth t item rest}, t.length ≤ bound →
    readItem fuel depth t = some (item, rest) → Proper bound item ∧ rest.length ≤ t.length
  many : ∀ {depth count done t items rest}, t.length ≤ bound → (∀ e ∈ done, Proper bound e) →
    readMany fuel depth count done t = some (items, rest) →
      (∀ e ∈ items, Proper bound e) ∧ rest.length ≤ t.length
  untilBreak : ∀ {depth done t items rest}, t.length ≤ bound → (∀ e ∈ done, Proper bound e) →
    readUntilBreak fuel depth done t = some (items, rest) →
      (∀ e ∈ items, Proper bound e) ∧ rest.length ≤ t.length

theorem proper_array {items : List Item} {r : Text} (hproper : ∀ e ∈ items, Proper bound e)
    (h : (if maxElements < items.length then none else some (Item.array items, r)) =
      some (item, rest)) : Proper bound item ∧ rest = r := by
  split_ifs at h with hmany
  cases h
  exact ⟨.array (Nat.not_lt.1 hmany) hproper, rfl⟩

theorem proper_map {items : List Item} {r : Text} (hproper : ∀ e ∈ items, Proper bound e)
    (h : ((pairUp items).bind fun entries =>
      if maxElements < entries.length then none else some (Item.map entries, r)) =
        some (item, rest)) : Proper bound item ∧ rest = r := by
  obtain ⟨entries, hentries, hend⟩ := Option.bind_eq_some_iff.1 h
  split_ifs at hend
  cases hend
  rw [eq_interleave_of_pairUp hentries] at hproper
  refine ⟨.map ?_ ?_, rfl⟩
  · intro e he
    exact hproper _ (List.mem_flatMap.2 ⟨e, he, by simp⟩)
  · intro e he
    exact hproper _ (List.mem_flatMap.2 ⟨e, he, by simp⟩)

theorem ReadsProper.readItem_succ (h : ReadsProper bound fuel) (ht : t.length ≤ bound)
    (hread : readItem (fuel + 1) depth t = some (item, rest)) :
    Proper bound item ∧ rest.length ≤ t.length := by
  simp only [readItem] at hread
  obtain ⟨⟨head, r⟩, hhead, hbody⟩ := Option.bind_eq_some_iff.1 hread
  have hle := readHead_length hhead
  simp only at hbody
  split at hbody
  · cases hbody
    exact ⟨.uint _, hle⟩
  · cases hbody
    exact ⟨.negint _, hle⟩
  · split_ifs at hbody
    · obtain ⟨⟨items, r'⟩, hitems, hend⟩ := Option.bind_eq_some_iff.1 hbody
      obtain ⟨hall, hshort⟩ := h.untilBreak (hle.trans ht) (by simp) hitems
      obtain ⟨hproper, rfl⟩ := proper_array hall hend
      exact ⟨hproper, hshort.trans hle⟩
    · cases hbody
    · obtain ⟨⟨items, r'⟩, hitems, hend⟩ := Option.bind_eq_some_iff.1 hbody
      obtain ⟨hall, hshort⟩ := h.many (hle.trans ht) (by simp) hitems
      obtain ⟨hproper, rfl⟩ := proper_array hall hend
      exact ⟨hproper, hshort.trans hle⟩
  · split_ifs at hbody
    · obtain ⟨⟨items, r'⟩, hitems, hend⟩ := Option.bind_eq_some_iff.1 hbody
      obtain ⟨hall, hshort⟩ := h.untilBreak (hle.trans ht) (by simp) hitems
      obtain ⟨hproper, rfl⟩ := proper_map hall hend
      exact ⟨hproper, hshort.trans hle⟩
    · cases hbody
    · obtain ⟨⟨items, r'⟩, hitems, hend⟩ := Option.bind_eq_some_iff.1 hbody
      obtain ⟨hall, hshort⟩ := h.many (hle.trans ht) (by simp) hitems
      obtain ⟨hproper, rfl⟩ := proper_map hall hend
      exact ⟨hproper, hshort.trans hle⟩
  · split_ifs at hbody
    all_goals
      obtain ⟨⟨content, r'⟩, hcontent, hend⟩ := Option.bind_eq_some_iff.1 hbody
      obtain ⟨hproper, hshort⟩ := h.item (hle.trans ht) hcontent
      cases hend
      exact ⟨.tag hproper, hshort.trans hle⟩
  · cases hbody
    refine ⟨?_, hle⟩
    rw [ofSimple]
    split_ifs
    · exact .float
    · exact .simple _
  · split_ifs at hbody
    · obtain ⟨⟨pieces, r'⟩, hpieces, hend⟩ := Option.bind_eq_some_iff.1 hbody
      have hlength := readPieces_length hpieces
      rw [List.flatten_nil, List.length_nil, Nat.zero_add] at hlength
      cases hend
      have hbound : pieces.flatten.length ≤ bound := by omega
      have hshort : r'.length ≤ t.length := by omega
      exact ⟨proper_ofPieces hbound, hshort⟩
    · obtain ⟨⟨pieces, r'⟩, hpieces, hend⟩ := Option.bind_eq_some_iff.1 hbody
      obtain ⟨⟨piece, r''⟩, hsplit, heq⟩ := Option.map_eq_some_iff.1 hpieces
      obtain ⟨-, rfl⟩ := Text.split?_eq_some.1 hsplit
      rw [List.length_append] at hle
      have hbound : ([piece] : List Text).flatten.length ≤ bound := by
        rw [List.flatten_singleton]
        omega
      have hshort : r''.length ≤ t.length := by omega
      cases heq
      cases hend
      exact ⟨proper_ofPieces hbound, hshort⟩

theorem readsProper (bound fuel : Nat) : ReadsProper bound fuel := by
  induction fuel with
  | zero =>
    constructor
    · intro depth t item rest _ hread
      simp [readItem] at hread
    · intro depth count done t items rest _ hdone hread
      cases count with
      | zero =>
        simp only [readMany, Option.some.injEq, Prod.mk.injEq] at hread
        obtain ⟨rfl, rfl⟩ := hread
        exact ⟨by simpa using hdone, Nat.le_refl _⟩
      | succ count => simp [readMany] at hread
    · intro depth done t items rest _ _ hread
      simp [readUntilBreak] at hread
  | succ fuel ih =>
    constructor
    · intro depth t item rest ht hread
      exact ih.readItem_succ ht hread
    · intro depth count done t items rest ht hdone hread
      cases count with
      | zero =>
        simp only [readMany, Option.some.injEq, Prod.mk.injEq] at hread
        obtain ⟨rfl, rfl⟩ := hread
        exact ⟨by simpa using hdone, Nat.le_refl _⟩
      | succ count =>
        rw [readMany] at hread
        obtain ⟨⟨item, r⟩, hitem, hmore⟩ := Option.bind_eq_some_iff.1 hread
        obtain ⟨hproper, hle⟩ := ih.item ht hitem
        have hdone' : ∀ e ∈ item :: done, Proper bound e :=
          List.forall_mem_cons.2 ⟨hproper, hdone⟩
        obtain ⟨hall, hshort⟩ := ih.many (hle.trans ht) hdone' hmore
        exact ⟨hall, hshort.trans hle⟩
    · intro depth done t items rest ht hdone hread
      cases t with
      | nil => simp [readUntilBreak] at hread
      | cons b t =>
        rw [readUntilBreak] at hread
        split_ifs at hread
        · cases hread
          exact ⟨by simpa using hdone, Nat.le_succ _⟩
        · obtain ⟨⟨item, r⟩, hitem, hmore⟩ := Option.bind_eq_some_iff.1 hread
          obtain ⟨hproper, hle⟩ := ih.item ht hitem
          have hdone' : ∀ e ∈ item :: done, Proper bound e :=
            List.forall_mem_cons.2 ⟨hproper, hdone⟩
          obtain ⟨hall, hshort⟩ := ih.untilBreak (hle.trans ht) hdone' hmore
          exact ⟨hall, hshort.trans hle⟩

/-- Whatever is decoded is proper. -/
theorem proper_of_decode (h : decode t = some item) : Proper t.length item := by
  rw [decode] at h
  split at h
  · next hread =>
    cases h
    exact ((readsProper t.length _).item (Nat.le_refl _) hread).1
  · cases h

end Cbor

end StackVm
