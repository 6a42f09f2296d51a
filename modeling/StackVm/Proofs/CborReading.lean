/-
Reading canonical items.  What is written in the shortest form is read back as the item that it
stands for, whatever follows it.
-/
import Mathlib.Data.List.Forall2
import Mathlib.Tactic.Ring
import StackVm.Cbor.Encode
import StackVm.Cbor.Item
import StackVm.Proofs.WireFormat

namespace StackVm

namespace Text

theorem bigEndian_succ (width n : Nat) :
    bigEndian (width + 1) n = (n / 256 ^ width).toUInt8 :: bigEndian width n := rfl

theorem length_bigEndian (width n : Nat) : (bigEndian width n).length = width := by
  induction width with
  | zero => rfl
  | succ width ih => rw [bigEndian_succ, List.length_cons, ih]

/-- The bytes of a number, read behind those of another one. -/
theorem foldl_bigEndian (width n high : Nat) :
    (bigEndian width n).foldl (fun n b => n * 256 + b.toNat) high =
      high * 256 ^ width + n % 256 ^ width := by
  induction width generalizing high with
  | zero =>
    have hzero : bigEndian 0 n = [] := rfl
    simp [hzero, Nat.mod_one]
  | succ width ih =>
    have hbyte : (n / 256 ^ width).toUInt8.toNat = n / 256 ^ width % 256 := rfl
    have hsplit : n % 256 ^ (width + 1) =
        n % 256 ^ width + 256 ^ width * (n / 256 ^ width % 256) := by
      rw [Nat.pow_succ, Nat.mod_mul]
    rw [bigEndian_succ, List.foldl_cons, ih, hbyte, hsplit, Nat.add_mul, Nat.pow_succ']
    ring

theorem fromBigEndian_bigEndian {width n : Nat} (hn : n < 256 ^ width) :
    fromBigEndian (bigEndian width n) = n := by
  rw [fromBigEndian, foldl_bigEndian, Nat.zero_mul, Nat.zero_add, Nat.mod_eq_of_lt hn]

end Text

namespace Cbor

variable {t rest : Text} {item : Item} {major n levels fuel depth : Nat}

/-! ### Heads -/

theorem readNumber_bigEndian {width : Nat} (hn : n < 256 ^ width) (rest : Text) :
    readNumber width (Text.bigEndian width n ++ rest) = some (n, rest) := by
  have hsplit : Text.split? width (Text.bigEndian width n ++ rest) =
      some (Text.bigEndian width n, rest) :=
    Text.split?_eq_some.2 ⟨Text.length_bigEndian width n, rfl⟩
  simp [readNumber, hsplit, Text.fromBigEndian_bigEndian hn]

/-- The first byte of a head gives the major type and the additional information. -/
theorem readHead_short {info : Nat} (hmajor : major < 7) (hinfo : info < 24) (rest : Text) :
    readHead ((32 * major + info).toUInt8 :: rest) = some (⟨major, info, info⟩, rest) := by
  have hbyte : (32 * major + info).toUInt8.toNat = (32 * major + info) % 256 := rfl
  have hquotient : (32 * major + info) % 256 / 32 = major := by omega
  have hremainder : (32 * major + info) % 256 % 32 = info := by omega
  rw [readHead, hbyte, hquotient, hremainder, if_pos hinfo]

theorem readHead_long (width : Nat) (hmajor : major < 7) (hwidth : width < 4)
    (hn : n < 256 ^ 2 ^ width) (rest : Text) :
    readHead ((32 * major + (24 + width)).toUInt8 :: (Text.bigEndian (2 ^ width) n ++ rest)) =
      some (⟨major, 24 + width, n⟩, rest) := by
  have hbyte : (32 * major + (24 + width)).toUInt8.toNat = (32 * major + (24 + width)) % 256 := rfl
  have hquotient : (32 * major + (24 + width)) % 256 / 32 = major := by omega
  have hremainder : (32 * major + (24 + width)) % 256 % 32 = 24 + width := by omega
  have hnumber := readNumber_bigEndian hn rest
  have hnot : ¬ (major = 7 ∧ 24 + width = 24 ∧ n < 32) := by omega
  rw [readHead, hbyte, hquotient, hremainder, if_neg (by omega), if_pos (by omega)]
  simp only [Nat.add_sub_cancel_left, Nat.pow_eq, hnumber, Option.bind_eq_bind, Option.bind_some,
    if_neg hnot]

/-- The head of a definite item is read back, also in its long forms. -/
theorem readHead_head (major : Nat) (hmajor : major < 7) (hn : n < 2 ^ 64) (rest : Text) :
    ∃ info, info ≠ 31 ∧ readHead (head major n ++ rest) = some (⟨major, info, n⟩, rest) := by
  rw [head]
  by_cases htiny : n < 24
  · refine ⟨n, by omega, ?_⟩
    rw [if_pos htiny]
    exact readHead_short hmajor htiny rest
  rw [if_neg htiny]
  by_cases hbyte : n < 0x100
  · refine ⟨24, by decide, ?_⟩
    rw [if_pos hbyte]
    exact readHead_long 0 hmajor (by decide) hbyte rest
  rw [if_neg hbyte]
  by_cases htwo : n < 0x10000
  · refine ⟨25, by decide, ?_⟩
    rw [if_pos htwo]
    exact readHead_long 1 hmajor (by decide) htwo rest
  rw [if_neg htwo]
  by_cases hfour : n < 0x100000000
  · refine ⟨26, by decide, ?_⟩
    rw [if_pos hfour]
    exact readHead_long 2 hmajor (by decide) hfour rest
  · refine ⟨27, by decide, ?_⟩
    rw [if_neg hfour]
    exact readHead_long 3 hmajor (by decide) hn rest

theorem head_ne_nil (major n : Nat) : head major n ≠ [] := by
  simp only [head]
  split_ifs <;> exact List.cons_ne_nil _ _

/-! ### Items -/

/-- A text stands for an item in which `levels` arrays and maps stand inside each other: it is
read back wherever there is room for it. -/
structure Reads (t : Text) (item : Item) (levels : Nat) : Prop where
  ne_nil : t ≠ []
  read : ∀ fuel depth rest, 2 * t.length ≤ fuel + 1 → depth + levels ≤ maxNesting →
    readItem fuel depth (t ++ rest) = some (item, rest)

theorem Reads.length_pos (h : Reads t item levels) : 0 < t.length :=
  List.length_pos_iff.2 h.ne_nil

theorem Reads.mono {levels' : Nat} (h : Reads t item levels) (hle : levels ≤ levels') :
    Reads t item levels' := by
  refine ⟨h.ne_nil, ?_⟩
  intro fuel depth rest hfuel hdepth
  exact h.read fuel depth rest hfuel (by omega)

/-- The one item that a text stands for is what it is decoded to. -/
theorem Reads.decode (h : Reads t item levels) (hlevels : levels ≤ maxNesting) :
    decode t = some item := by
  have hread := h.read (2 * t.length + 2) 0 [] (by omega) (by omega)
  rw [List.append_nil] at hread
  rw [Cbor.decode, hread]

/-- It is enough to look at reading with some fuel left. -/
theorem Reads.of_succ (hne : t ≠ [])
    (hread : ∀ fuel depth rest, 2 * t.length ≤ fuel + 2 → depth + levels ≤ maxNesting →
      readItem (fuel + 1) depth (t ++ rest) = some (item, rest)) : Reads t item levels := by
  refine ⟨hne, ?_⟩
  intro fuel depth rest hfuel hdepth
  have hpos := List.length_pos_iff.2 hne
  obtain ⟨fuel, rfl⟩ := Nat.exists_eq_succ_of_ne_zero (n := fuel) (by omega)
  exact hread fuel depth rest hfuel hdepth

theorem reads_uint (hn : n < 2 ^ 64) : Reads (head 0 n) (.uint n) 0 := by
  apply Reads.of_succ (head_ne_nil 0 n)
  intro fuel depth rest _ _
  obtain ⟨info, -, hhead⟩ := readHead_head 0 (by decide) hn rest
  simp [readItem, hhead]

theorem reads_negint (hn : n < 2 ^ 64) : Reads (head 1 n) (.negint n) 0 := by
  apply Reads.of_succ (head_ne_nil 1 n)
  intro fuel depth rest _ _
  obtain ⟨info, -, hhead⟩ := readHead_head 1 (by decide) hn rest
  simp [readItem, hhead]

theorem reads_null : Reads null (.simple 22) 0 := by
  apply Reads.of_succ (List.cons_ne_nil _ _)
  intro fuel depth rest _ _
  have hhead : readHead (0xF6 :: rest) = some (⟨7, 22, 22⟩, rest) := by
    simp [readHead]
  simp [readItem, hhead, ofSimple]

theorem split?_append (t rest : Text) : Text.split? t.length (t ++ rest) = some (t, rest) :=
  Text.split?_eq_some.2 ⟨rfl, rfl⟩

theorem reads_bytes (hlength : t.length < 2 ^ 64) : Reads (bytes t) (.bytes t) 0 := by
  apply Reads.of_succ (List.append_ne_nil_of_left_ne_nil (head_ne_nil _ _) _)
  intro fuel depth rest _ _
  obtain ⟨info, hinfo, hhead⟩ := readHead_head 2 (by decide) hlength (t ++ rest)
  rw [List.append_assoc]
  simp [readItem, hhead, hinfo, split?_append, ofPieces]

theorem reads_text (hlength : t.length < 2 ^ 64) : Reads (text t) (.text t t.isUtf8) 0 := by
  apply Reads.of_succ (List.append_ne_nil_of_left_ne_nil (head_ne_nil _ _) _)
  intro fuel depth rest _ _
  obtain ⟨info, hinfo, hhead⟩ := readHead_head 3 (by decide) hlength (t ++ rest)
  rw [List.append_assoc]
  simp [readItem, hhead, hinfo, split?_append, ofPieces]

/-! ### Arrays and maps -/

/-- Items that stand one after another are read in their order. -/
theorem readMany_flatten {ts : List Text} {items : List Item}
    (h : List.Forall₂ (fun t item => Reads t item levels) ts items)
    (hfuel : 2 * ts.flatten.length ≤ fuel) (hdepth : depth + levels ≤ maxNesting)
    (done : List Item) (rest : Text) :
    readMany fuel depth ts.length done (ts.flatten ++ rest) =
      some (done.reverse ++ items, rest) := by
  induction h generalizing fuel done with
  | nil => simp [readMany]
  | @cons t item ts items hitem _ ih =>
    have hpos := hitem.length_pos
    rw [List.flatten_cons, List.length_append] at hfuel
    obtain ⟨fuel, rfl⟩ := Nat.exists_eq_succ_of_ne_zero (n := fuel) (by omega)
    rw [List.length_cons, readMany, List.flatten_cons, List.append_assoc,
      hitem.read fuel depth _ (by omega) hdepth]
    have hrest : 2 * ts.flatten.length ≤ fuel := by omega
    simpa using ih hrest (item :: done)

theorem reads_array {ts : List Text} {items : List Item}
    (h : List.Forall₂ (fun t item => Reads t item levels) ts items)
    (hcount : ts.length ≤ maxElements) : Reads (array ts) (.array items) (levels + 1) := by
  apply Reads.of_succ (List.append_ne_nil_of_left_ne_nil (head_ne_nil _ _) _)
  intro fuel depth rest hfuel hdepth
  have hmax : maxElements < 2 ^ 64 := by decide
  obtain ⟨info, hinfo, hhead⟩ :=
    readHead_head 4 (n := ts.length) (by decide) (by omega) (ts.flatten ++ rest)
  have hpos := List.length_pos_iff.2 (head_ne_nil 4 ts.length)
  rw [List.length_append] at hfuel
  have hroom : 2 * ts.flatten.length ≤ fuel := by omega
  have hnested : depth + 1 + levels ≤ maxNesting := by omega
  have hitems := readMany_flatten h hroom hnested [] rest
  have hlength := h.length_eq
  rw [List.append_assoc]
  simp [readItem, hhead, hinfo, hitems, Nat.not_lt.2 hcount, ← hlength,
    show ¬ maxNesting < depth + 1 by omega]

/-- The keys and values of a map, one after another. -/
def interleave {α : Type} (entries : List (α × α)) : List α :=
  entries.flatMap fun e => [e.1, e.2]

theorem pairUp_interleave (entries : List (Item × Item)) :
    pairUp (interleave entries) = some entries := by
  induction entries with
  | nil => rfl
  | cons e rest ih =>
    have hcons : interleave (e :: rest) = e.1 :: e.2 :: interleave rest := rfl
    rw [hcons, pairUp, ih]
    rfl

theorem length_interleave {α : Type} (entries : List (α × α)) :
    (interleave entries).length = 2 * entries.length := by
  induction entries with
  | nil => rfl
  | cons e rest ih =>
    have hcons : interleave (e :: rest) = e.1 :: e.2 :: interleave rest := rfl
    rw [hcons, List.length_cons, List.length_cons, ih, List.length_cons]
    omega

theorem flatten_interleave (entries : List (Text × Text)) :
    (interleave entries).flatten = entries.flatMap fun e => e.1 ++ e.2 := by
  induction entries with
  | nil => rfl
  | cons e rest ih =>
    have hcons : interleave (e :: rest) = e.1 :: e.2 :: interleave rest := rfl
    rw [hcons, List.flatten_cons, List.flatten_cons, ih, List.flatMap_cons, List.append_assoc]

/-- A key and a value are read back. -/
def ReadsEntry (levels : Nat) (t : Text × Text) (e : Item × Item) : Prop :=
  Reads t.1 e.1 levels ∧ Reads t.2 e.2 levels

theorem reads_map {ts : List (Text × Text)} {entries : List (Item × Item)}
    (h : List.Forall₂ (ReadsEntry levels) ts entries)
    (hcount : ts.length ≤ maxElements) : Reads (map ts) (.map entries) (levels + 1) := by
  have hparts : List.Forall₂ (fun t item => Reads t item levels) (interleave ts)
      (interleave entries) := by
    induction h with
    | nil => exact .nil
    | cons he _ ih => exact .cons he.1 (.cons he.2 (ih (Nat.le_of_succ_le hcount)))
  apply Reads.of_succ (List.append_ne_nil_of_left_ne_nil (head_ne_nil _ _) _)
  intro fuel depth rest hfuel hdepth
  have hmax : maxElements < 2 ^ 64 := by decide
  rw [← flatten_interleave, List.length_append] at hfuel
  obtain ⟨info, hinfo, hhead⟩ :=
    readHead_head 5 (n := ts.length) (by decide) (by omega)
      ((interleave ts).flatten ++ rest)
  have hpos := List.length_pos_iff.2 (head_ne_nil 5 ts.length)
  have hroom : 2 * (interleave ts).flatten.length ≤ fuel := by omega
  have hnested : depth + 1 + levels ≤ maxNesting := by omega
  have hitems := readMany_flatten hparts hroom hnested [] rest
  rw [length_interleave] at hitems
  have hlength := h.length_eq
  rw [← flatten_interleave, List.append_assoc]
  simp [readItem, hhead, hinfo, hitems, pairUp_interleave, Nat.not_lt.2 hcount, ← hlength,
    show ¬ maxNesting < depth + 1 by omega]

end Cbor

end StackVm
