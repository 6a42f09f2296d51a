/-
The grammar of written chunks.  Decoding accepts exactly the texts of the grammar,
and a text that breaks off inside a written chunk is refused as ending early.
-/
import Mathlib.Algebra.Group.Nat.Defs
import Mathlib.Data.List.Infix
import StackVm.Chunk.Wire

namespace StackVm

namespace Text

/-- The text is a little-endian number of a given width. -/
def IsNumber (t : Text) (width n : Nat) : Prop := t.length = width ∧ fromLittleEndian t = n

theorem length_littleEndian (width n : Nat) : (littleEndian width n).length = width := by
  induction width generalizing n with
  | zero => rfl
  | succ width ih => rw [littleEndian, List.length_cons, ih]

theorem fromLittleEndian_littleEndian (width n : Nat) :
    fromLittleEndian (littleEndian width n) = n % 256 ^ width := by
  induction width generalizing n with
  | zero => simp [littleEndian, fromLittleEndian, Nat.mod_one]
  | succ width ih =>
    have hbyte : n.toUInt8.toNat = n % 256 := rfl
    rw [littleEndian, fromLittleEndian, ih, hbyte, Nat.pow_succ', Nat.mod_mul]

theorem fromLittleEndian_lt (t : Text) : fromLittleEndian t < 256 ^ t.length := by
  induction t with
  | nil => exact Nat.one_pos
  | cons b rest ih =>
    have hb := b.toNat_lt
    rw [fromLittleEndian, List.length_cons, Nat.pow_succ]
    omega

theorem IsNumber.lt {t : Text} {width n : Nat} (h : IsNumber t width n) : n < 256 ^ width := by
  rw [← h.1, ← h.2]
  exact fromLittleEndian_lt t

theorem isNumber_littleEndian {width n : Nat} (hn : n < 256 ^ width) :
    IsNumber (littleEndian width n) width n :=
  ⟨length_littleEndian width n, by rw [fromLittleEndian_littleEndian, Nat.mod_eq_of_lt hn]⟩

theorem split?_eq_some {n : Nat} {t front rest : Text} :
    split? n t = some (front, rest) ↔ front.length = n ∧ t = front ++ rest := by
  simp only [split?]
  constructor
  · intro h
    split at h
    · next hlen =>
      cases h
      exact ⟨hlen, (List.take_append_drop n t).symm⟩
    · cases h
  · rintro ⟨rfl, rfl⟩
    rw [List.take_left, if_pos rfl, List.drop_left]

theorem split?_eq_none {n : Nat} {t : Text} : split? n t = none ↔ t.length < n := by
  simp only [split?, List.length_take]
  split <;> simp <;> omega

theorem number?_eq_some {width n : Nat} {t rest : Text} :
    number? width t = some (n, rest) ↔ ∃ front, IsNumber front width n ∧ t = front ++ rest := by
  simp only [number?, Option.map_eq_some_iff, Prod.exists, split?_eq_some, Prod.mk.injEq]
  constructor
  · rintro ⟨front, _, ⟨hlen, rfl⟩, hn, rfl⟩
    exact ⟨front, ⟨hlen, hn⟩, rfl⟩
  · rintro ⟨front, ⟨hlen, hn⟩, rfl⟩
    exact ⟨front, rest, ⟨hlen, rfl⟩, hn, rfl⟩

theorem number?_eq_none {width : Nat} {t : Text} : number? width t = none ↔ t.length < width := by
  rw [number?, Option.map_eq_none_iff, split?_eq_none]

/-- A text that breaks off inside two texts breaks off in one of them. -/
theorem cut_append {p front rest : Text} (hp : p <+: front ++ rest) (hne : p ≠ front ++ rest) :
    (p <+: front ∧ p ≠ front) ∨ ∃ q, p = front ++ q ∧ q <+: rest ∧ q ≠ rest := by
  rcases List.prefix_or_prefix_of_prefix hp (List.prefix_append front rest) with h | ⟨q, rfl⟩
  · by_cases heq : p = front
    · subst heq
      refine Or.inr ⟨[], (List.append_nil p).symm, List.nil_prefix, ?_⟩
      rintro rfl
      exact hne (List.append_nil p).symm
    · exact Or.inl ⟨h, heq⟩
  · refine Or.inr ⟨q, rfl, (List.prefix_append_right_inj front).1 hp, ?_⟩
    rintro rfl
    exact hne rfl

/-- A text that breaks off inside another one is shorter. -/
theorem length_lt_of_cut {p t : Text} (hp : p <+: t) (hne : p ≠ t) : p.length < t.length :=
  Nat.lt_of_le_of_ne hp.length_le fun hlen => hne (hp.eq_of_length hlen)

end Text

namespace Chunk

open Text

/-- The texts of some items, one after another. -/
inductive Series {α : Type} (each : α → Text → Prop) : List α → Text → Prop
  | nil : Series each [] []
  | cons {a : α} {rest : List α} {front back : Text} :
      each a front → Series each rest back → Series each (a :: rest) (front ++ back)

/-- A line is written in four bytes, as a signed number. -/
def LineWritten (line : Int32) (t : Text) : Prop :=
  ∃ n, IsNumber t 4 n ∧ (UInt32.ofNat n).toInt32 = line

/-- A constant is written as a tag byte and what the tag asks for. -/
inductive WireConstant.Written : WireConstant → Text → Prop
  | nil : Written .nil [0]
  | string {size : Text} (data : Text) :
      IsNumber size 4 data.length → Written (.string data) (1 :: (size ++ data))
  | int {bytes : Text} {n : Nat} :
      IsNumber bytes 8 n → Written (.int (UInt64.ofNat n).toInt64) (2 :: bytes)
  | bool (b : UInt8) : Written (.bool (b ≠ 0)) [3, b]
  | function : Written .function [4]

/-- A chunk is written as the magic, three sizes of four bytes and as many code
bytes, lines and constants as the sizes say, with nothing behind them. -/
inductive Wire.Written : Wire → Text → Prop
  | mk {w : Wire} {codeSize poolSize lineCount lines constants : Text} :
      IsNumber codeSize 4 w.code.length → IsNumber poolSize 4 w.constants.length →
      IsNumber lineCount 4 w.lines.length → Series LineWritten w.lines lines →
      Series WireConstant.Written w.constants constants →
      Written w (magic ++ codeSize ++ poolSize ++ lineCount ++ (w.code ++ (lines ++ constants)))

/-! ### Constants -/

theorem WireConstant.Written.ne_nil {c : WireConstant} {t : Text} (h : c.Written t) : t ≠ [] := by
  cases h <;> simp

/-- What is read as a constant was written. -/
theorem WireConstant.written_of_read {index : Nat} {t rest : Text} {c : WireConstant}
    (h : WireConstant.read index t = .ok (c, rest)) :
    ∃ front, c.Written front ∧ t = front ++ rest := by
  cases t with
  | nil => cases h
  | cons tag t =>
    simp only [WireConstant.read] at h
    split at h
    · next htag =>
      cases h
      exact ⟨[0], .nil, by rw [htag]; rfl⟩
    split at h
    · next htag =>
      split at h
      · cases h
      · next size after hsize =>
        split at h
        · cases h
        · next data after' hdata =>
          cases h
          obtain ⟨front, hfront, rfl⟩ := number?_eq_some.1 hsize
          obtain ⟨rfl, rfl⟩ := split?_eq_some.1 hdata
          exact ⟨1 :: (front ++ data), .string data hfront, by simp [htag]⟩
    split at h
    · next htag =>
      split at h
      · cases h
      · next n after hn =>
        cases h
        obtain ⟨front, hfront, rfl⟩ := number?_eq_some.1 hn
        exact ⟨2 :: front, .int hfront, by rw [htag]; rfl⟩
    split at h
    · next htag =>
      cases t with
      | nil => cases h
      | cons b t =>
        cases h
        exact ⟨[3, b], .bool b, by rw [htag]; rfl⟩
    split at h
    · next htag =>
      cases h
      exact ⟨[4], .function, by rw [htag]; rfl⟩
    · cases h

/-- A written constant is read, whatever follows. -/
theorem WireConstant.Written.read {c : WireConstant} {front : Text} (h : c.Written front)
    (index : Nat) (rest : Text) : WireConstant.read index (front ++ rest) = .ok (c, rest) := by
  cases h with
  | nil => rfl
  | @string size data hsize =>
    have hread : number? 4 (size ++ (data ++ rest)) = some (data.length, data ++ rest) :=
      number?_eq_some.2 ⟨size, hsize, rfl⟩
    have hdata : split? data.length (data ++ rest) = some (data, rest) :=
      split?_eq_some.2 ⟨rfl, rfl⟩
    simp [WireConstant.read, hread, hdata]
  | @int bytes n hbytes =>
    have hread : number? 8 (bytes ++ rest) = some (n, rest) :=
      number?_eq_some.2 ⟨bytes, hbytes, rfl⟩
    simp [WireConstant.read, hread]
  | bool b => rfl
  | function => rfl

/-- A constant that breaks off is refused as ending early. -/
theorem WireConstant.Written.cut {c : WireConstant} {t p : Text} (h : c.Written t) (hp : p <+: t)
    (hne : p ≠ t) (index : Nat) :
    ∃ e, WireConstant.read index p = .error e ∧ e.isTruncation = true := by
  cases p with
  | nil => exact ⟨_, rfl, rfl⟩
  | cons tag q =>
    have hlen := length_lt_of_cut hp hne
    cases h with
    | nil => simp at hlen
    | function => simp at hlen
    | bool b =>
      obtain ⟨rfl, hq⟩ := List.cons_prefix_cons.1 hp
      have hempty : q = [] := by
        simp only [List.length_cons, List.length_nil] at hlen
        exact List.length_eq_zero_iff.1 (by omega)
      subst hempty
      exact ⟨_, rfl, rfl⟩
    | @int bytes n hbytes =>
      obtain ⟨rfl, hq⟩ := List.cons_prefix_cons.1 hp
      have hread : number? 8 q = none := by
        simp only [List.length_cons, hbytes.1] at hlen
        exact number?_eq_none.2 (by omega)
      exact ⟨.shortConstant index, by simp [WireConstant.read, hread], rfl⟩
    | @string size data hsize =>
      obtain ⟨rfl, hq⟩ := List.cons_prefix_cons.1 hp
      have hcut : q ≠ size ++ data := fun heq => hne (by rw [heq])
      rcases cut_append hq hcut with ⟨hq, hsizeNe⟩ | ⟨r, rfl, hr, hdataNe⟩
      · have hread : number? 4 q = none :=
          number?_eq_none.2 (hsize.1 ▸ length_lt_of_cut hq hsizeNe)
        exact ⟨.noLength index, by simp [WireConstant.read, hread], rfl⟩
      · have hread : number? 4 (size ++ r) = some (data.length, r) :=
          number?_eq_some.2 ⟨size, hsize, rfl⟩
        have hdata : split? data.length r = none :=
          split?_eq_none.2 (length_lt_of_cut hr hdataNe)
        exact ⟨.shortString index data.length, by simp [WireConstant.read, hread, hdata], rfl⟩

theorem length_le_of_series {cs : List WireConstant} {t : Text}
    (h : Series WireConstant.Written cs t) : cs.length ≤ t.length := by
  induction h with
  | nil => exact Nat.le_refl 0
  | cons hc _ ih =>
    have hpos := List.length_pos_iff.2 hc.ne_nil
    rw [List.length_cons, List.length_append]
    omega

/-- Reading constants up to the end succeeds exactly on their series. -/
theorem readConstants_eq_none {count index : Nat} {t : Text} {cs : List WireConstant} :
    readConstants count index t = (cs, none) ↔
      cs.length = count ∧ Series WireConstant.Written cs t := by
  constructor
  · intro h
    induction count generalizing index t cs with
    | zero =>
      cases t with
      | nil =>
        cases h
        exact ⟨rfl, .nil⟩
      | cons b t => cases h
    | succ count ih =>
      rw [readConstants] at h
      split at h
      · cases h
      · next c rest hread =>
        obtain ⟨front, hc, rfl⟩ := WireConstant.written_of_read hread
        cases hrest : readConstants count (index + 1) rest with
        | mk later e =>
          rw [hrest] at h
          cases h
          obtain ⟨hlen, hseries⟩ := ih hrest
          exact ⟨by rw [List.length_cons, hlen], .cons hc hseries⟩
  · rintro ⟨rfl, h⟩
    induction h generalizing index with
    | nil => rfl
    | cons hc _ ih =>
      rw [List.length_cons, readConstants, hc.read]
      simp only [ih]

/-- Constants that break off are refused as ending early. -/
theorem Series.cut {cs : List WireConstant} {t p : Text} (h : Series WireConstant.Written cs t)
    (hp : p <+: t) (hne : p ≠ t) (index : Nat) :
    ∃ found e, readConstants cs.length index p = (found, some e) ∧ e.isTruncation = true := by
  induction h generalizing p index with
  | nil => exact absurd (List.prefix_nil.1 hp) hne
  | @cons c rest front back hc _ ih =>
    rw [List.length_cons, readConstants]
    rcases cut_append hp hne with ⟨hp, hne⟩ | ⟨q, rfl, hq, hqne⟩
    · obtain ⟨e, hread, he⟩ := hc.cut hp hne index
      exact ⟨[], e, by rw [hread], he⟩
    · obtain ⟨found, e, hrest, he⟩ := ih hq hqne (index + 1)
      exact ⟨c :: found, e, by rw [hc.read]; simp only [hrest], he⟩

/-! ### Lines -/

theorem length_of_lines {lines : List Int32} {t : Text} (h : Series LineWritten lines t) :
    t.length = 4 * lines.length := by
  induction h with
  | nil => rfl
  | cons hline _ ih =>
    obtain ⟨n, hn, _⟩ := hline
    rw [List.length_append, hn.1, ih, List.length_cons]
    omega

theorem readLinesInto_eq_some {done lines : List Int32} {count : Nat} {t rest : Text} :
    readLinesInto done count t = some (lines, rest) ↔
      ∃ fresh front, lines = done.reverse ++ fresh ∧ fresh.length = count ∧
        Series LineWritten fresh front ∧ t = front ++ rest := by
  constructor
  · intro h
    induction count generalizing done t with
    | zero =>
      cases h
      exact ⟨[], [], (List.append_nil _).symm, rfl, .nil, rfl⟩
    | succ count ih =>
      rw [readLinesInto] at h
      split at h
      · cases h
      · next n after hn =>
        obtain ⟨bytes, hbytes, rfl⟩ := number?_eq_some.1 hn
        obtain ⟨fresh, front, rfl, hlen, hseries, rfl⟩ := ih h
        refine ⟨(UInt32.ofNat n).toInt32 :: fresh, bytes ++ front, ?_, ?_, ?_, ?_⟩
        · rw [List.reverse_cons, List.append_assoc, List.singleton_append]
        · rw [List.length_cons, hlen]
        · exact .cons ⟨n, hbytes, rfl⟩ hseries
        · rw [List.append_assoc]
  · rintro ⟨fresh, front, rfl, rfl, h, rfl⟩
    induction h generalizing done with
    | nil => rw [List.length_nil, readLinesInto, List.append_nil, List.nil_append]
    | @cons line later bytes back hline _ ih =>
      obtain ⟨n, hn, rfl⟩ := hline
      have hread : number? 4 (bytes ++ back ++ rest) = some (n, back ++ rest) :=
        number?_eq_some.2 ⟨bytes, hn, List.append_assoc ..⟩
      rw [List.length_cons, readLinesInto, hread]
      simp only [ih, List.reverse_cons, List.append_assoc, List.singleton_append]

theorem readLines_eq_some {lines : List Int32} {count : Nat} {t rest : Text} :
    readLines count t = some (lines, rest) ↔
      lines.length = count ∧ ∃ front, Series LineWritten lines front ∧ t = front ++ rest := by
  rw [readLines, readLinesInto_eq_some]
  constructor
  · rintro ⟨fresh, front, rfl, hlen, hseries, rfl⟩
    exact ⟨hlen, front, hseries, rfl⟩
  · rintro ⟨hlen, front, hseries, rfl⟩
    exact ⟨lines, front, rfl, hlen, hseries, rfl⟩

/-! ### Chunks -/

/-- A text that is long enough and starts with the magic has three sizes. -/
theorem header_of_magic {t : Text} (hlen : headerSize ≤ t.length) (hmagic : t.take 4 = magic) :
    ∃ a b c rest : Text, a.length = 4 ∧ b.length = 4 ∧ c.length = 4 ∧
      t = magic ++ a ++ b ++ c ++ rest := by
  have h16 : 16 ≤ t.length := hlen
  refine ⟨(t.drop 4).take 4, (t.drop 8).take 4, (t.drop 12).take 4, t.drop 16, ?_, ?_, ?_, ?_⟩
  · rw [List.length_take, List.length_drop]
    omega
  · rw [List.length_take, List.length_drop]
    omega
  · rw [List.length_take, List.length_drop]
    omega
  · have hjoin : ∀ i, (t.drop i).take 4 ++ t.drop (i + 4) = t.drop i := by
      intro i
      rw [← List.drop_drop, List.take_append_drop]
    rw [List.append_assoc, List.append_assoc, List.append_assoc, hjoin 12, hjoin 8, hjoin 4,
      ← hmagic, List.take_append_drop]

/-- Behind a whole header the sections are read. -/
theorem read_header {a b c : Text} (ha : a.length = 4) (hb : b.length = 4) (hc : c.length = 4)
    (rest : Text) :
    read (magic ++ a ++ b ++ c ++ rest) =
      readSections (fromLittleEndian a) (fromLittleEndian b) (fromLittleEndian c) rest := by
  obtain ⟨a0, a1, a2, a3, rfl⟩ := List.length_eq_four.1 ha
  obtain ⟨b0, b1, b2, b3, rfl⟩ := List.length_eq_four.1 hb
  obtain ⟨c0, c1, c2, c3, rfl⟩ := List.length_eq_four.1 hc
  rfl

/-- Sections that are read without an error were written one after another. -/
theorem sections_of_read {codeSize poolSize lineCount : Nat} {t : Text} {w : Wire}
    (h : readSections codeSize poolSize lineCount t = .ok (w, none)) :
    w.code.length = codeSize ∧ w.constants.length = poolSize ∧ w.lines.length = lineCount ∧
      ∃ lines constants, Series LineWritten w.lines lines ∧
        Series WireConstant.Written w.constants constants ∧
        t = w.code ++ (lines ++ constants) := by
  rw [readSections] at h
  split at h
  · cases h
  next code afterCode hcode =>
  split at h
  · cases h
  split at h
  · cases h
  next lines afterLines hlines =>
  split at h
  · cases h
  cases hpool : readConstants poolSize 0 afterLines with
  | mk constants e =>
    rw [hpool] at h
    cases h
    obtain ⟨hcodeLen, rfl⟩ := split?_eq_some.1 hcode
    obtain ⟨hlinesLen, front, hfront, rfl⟩ := readLines_eq_some.1 hlines
    obtain ⟨hpoolLen, hback⟩ := readConstants_eq_none.1 hpool
    exact ⟨hcodeLen, hpoolLen, hlinesLen, front, afterLines, hfront, hback, rfl⟩

/-- Behind the code the lines are read where they are written, whatever follows. -/
theorem readSections_lines {w : Wire} {lines : Text} (h : Series LineWritten w.lines lines)
    (t : Text) :
    readSections w.code.length w.constants.length w.lines.length (w.code ++ (lines ++ t)) =
      if t.length < w.constants.length then
        .error (.shortConstants w.constants.length t.length)
      else .ok (⟨w.code, w.lines, (readConstants w.constants.length 0 t).1⟩,
        (readConstants w.constants.length 0 t).2) := by
  have hcode : split? w.code.length (w.code ++ (lines ++ t)) = some (w.code, lines ++ t) :=
    split?_eq_some.2 ⟨rfl, rfl⟩
  have hfits : ¬ (lines ++ t).length / 4 < w.lines.length := by
    rw [List.length_append, length_of_lines h]
    omega
  have htable : readLines w.lines.length (lines ++ t) = some (w.lines, t) :=
    readLines_eq_some.2 ⟨rfl, lines, h, rfl⟩
  simp only [readSections, hcode, if_neg hfits, htable]

/-- Sections that are written one after another are read. -/
theorem readSections_of_written {w : Wire} {lines constants : Text}
    (hlines : Series LineWritten w.lines lines)
    (hconstants : Series WireConstant.Written w.constants constants) :
    readSections w.code.length w.constants.length w.lines.length
      (w.code ++ (lines ++ constants)) = .ok (w, none) := by
  have hpool : readConstants w.constants.length 0 constants = (w.constants, none) :=
    readConstants_eq_none.2 ⟨rfl, hconstants⟩
  have henough : ¬ constants.length < w.constants.length :=
    Nat.not_lt.2 (length_le_of_series hconstants)
  rw [readSections_lines hlines, if_neg henough, hpool]

/-- Sections that break off are refused as ending early. -/
theorem readSections_cut {w : Wire} {lines constants p : Text}
    (hlines : Series LineWritten w.lines lines)
    (hconstants : Series WireConstant.Written w.constants constants)
    (hp : p <+: w.code ++ (lines ++ constants)) (hne : p ≠ w.code ++ (lines ++ constants)) :
    (∃ e, readSections w.code.length w.constants.length w.lines.length p = .error e ∧
        e.isTruncation = true) ∨
      ∃ found e, readSections w.code.length w.constants.length w.lines.length p =
        .ok (found, some e) ∧ e.isTruncation = true := by
  rcases cut_append hp hne with ⟨hp, hne⟩ | ⟨q, rfl, hq, hne⟩
  · have hcode : split? w.code.length p = none := split?_eq_none.2 (length_lt_of_cut hp hne)
    exact Or.inl ⟨.shortCode w.code.length headerSize, by rw [readSections, hcode], rfl⟩
  have hcode : split? w.code.length (w.code ++ q) = some (w.code, q) :=
    split?_eq_some.2 ⟨rfl, rfl⟩
  rcases cut_append hq hne with ⟨hq, hne⟩ | ⟨r, rfl, hr, hne⟩
  · have hshort : q.length / 4 < w.lines.length := by
      have hlt := length_lt_of_cut hq hne
      rw [length_of_lines hlines] at hlt
      omega
    exact Or.inl ⟨.shortLines w.lines.length (headerSize + w.code.length),
      by simp only [readSections, hcode, if_pos hshort], rfl⟩
  rw [readSections_lines hlines]
  by_cases hshort : r.length < w.constants.length
  · exact Or.inl ⟨.shortConstants w.constants.length r.length, by rw [if_pos hshort], rfl⟩
  · obtain ⟨found, e, hread, he⟩ := hconstants.cut hr hne 0
    exact Or.inr ⟨⟨w.code, w.lines, found⟩, e, by rw [if_neg hshort, hread], he⟩

/-- Reading a text as a chunk finds no error exactly where the chunk is written. -/
theorem read_eq_none {t : Text} {w : Wire} : read t = .ok (w, none) ↔ Wire.Written w t := by
  constructor
  · intro h
    have hread := h
    rw [read] at h
    split at h
    · cases h
    next hlen =>
    split at h
    · cases h
    next hmagic =>
    obtain ⟨a, b, c, rest, ha, hb, hc, rfl⟩ :=
      header_of_magic (Nat.le_of_not_lt hlen) (not_not.1 hmagic)
    rw [read_header ha hb hc] at hread
    obtain ⟨hcode, hpool, hlines, lines, constants, hfront, hback, rfl⟩ := sections_of_read hread
    exact .mk ⟨ha, hcode.symm⟩ ⟨hb, hpool.symm⟩ ⟨hc, hlines.symm⟩ hfront hback
  · intro h
    cases h with
    | mk hcode hpool hlines hfront hback =>
      rw [read_header hcode.1 hpool.1 hlines.1, hcode.2, hpool.2, hlines.2]
      exact readSections_of_written hfront hback

/-- Decoding accepts exactly the written chunks. -/
theorem Wire.decode_eq_ok {t : Text} {w : Wire} : Wire.decode t = .ok w ↔ Wire.Written w t := by
  rw [← read_eq_none, Wire.decode]
  split
  · next hread => simp [hread]
  · next hread => simp [hread]
  · next hread => simp [hread]

/-- A text that breaks off inside a written chunk is refused as ending early. -/
theorem Wire.Written.cut {w : Wire} {t p : Text} (h : Wire.Written w t) (hp : p <+: t)
    (hne : p ≠ t) : ∃ e, Wire.decode p = .error e ∧ e.isTruncation = true := by
  cases h with
  | @mk codeSize poolSize lineCount lines constants hcode hpool hlines hfront hback =>
    rcases cut_append hp hne with ⟨hp, hne⟩ | ⟨q, rfl, hq, hne⟩
    · have hshort : p.length < headerSize := by
        have hlt := length_lt_of_cut hp hne
        have hmagic : magic.length = 4 := rfl
        simp only [List.length_append, hmagic, hcode.1, hpool.1, hlines.1] at hlt
        exact hlt
      exact ⟨.shortHeader p.length, by rw [Wire.decode, read, if_pos hshort], rfl⟩
    · have hread := read_header hcode.1 hpool.1 hlines.1 q
      rw [hcode.2, hpool.2, hlines.2] at hread
      rcases readSections_cut hfront hback hq hne with ⟨e, hcut, he⟩ | ⟨found, e, hcut, he⟩
      · exact ⟨e, by rw [Wire.decode, hread, hcut], he⟩
      · exact ⟨e, by rw [Wire.decode, hread, hcut], he⟩

/-- A text with room for a header but another magic is refused for its magic. -/
theorem Wire.decode_badMagic {t : Text} (hlen : headerSize ≤ t.length)
    (hmagic : t.take 4 ≠ magic) : Wire.decode t = .error (.badMagic (t.take 4)) := by
  rw [Wire.decode, read, if_neg (Nat.not_lt.2 hlen), if_pos hmagic]

end Chunk

end StackVm
