/-
What a listing shows of a code.  Its rows cover the code without gaps or overlaps, whatever the
bytes are; they follow the scan of the validation as far as that comes, and the rows that are
marked are those at which validation finds an unknown opcode, a cut instruction or a constant
outside the pool.
-/
import StackVm.Chunk.Listing
import StackVm.Proofs.Evolution
import StackVm.Proofs.Validation

namespace StackVm

namespace Chunk

variable {shown : Value → Text} {typeOf : Value → ValueType} {m : Memory} {c : Chunk}
  {lo n : Nat} {op : Opcode} {byte : UInt8} {r : Nat × Text} {rows : List (Nat × Text)}

/-! ### Rows -/

theorem rowsFrom_of_lt (h : n < c.code.size) :
    c.rowsFrom shown n = (n, (c.row shown n).1) :: c.rowsFrom shown (n + (c.row shown n).2) := by
  rw [rowsFrom, dif_pos h]

theorem rowsFrom_of_le (h : c.code.size ≤ n) : c.rowsFrom shown n = [] := by
  rw [rowsFrom, dif_neg (Nat.not_lt.2 h)]

/-- A row does not reach over the end of the code. -/
theorem row_size_le (shown : Value → Text) (h : n < c.code.size) :
    n + (c.row shown n).2 ≤ c.code.size := by
  rw [row, Array.getElem?_eq_getElem h]
  dsimp only
  split
  · dsimp only
    omega
  · split <;> dsimp only <;> omega

/-- Rows that cover the code from an offset on. -/
structure Covers (shown : Value → Text) (c : Chunk) (lo : Nat) (rows : List (Nat × Text)) :
    Prop where
  /-- The text of a row is that of the instruction at its offset. -/
  text : ∀ r ∈ rows, r.2 = (c.row shown r.1).1
  inside : ∀ r ∈ rows, lo ≤ r.1 ∧ r.1 < c.code.size
  rising : rows.Pairwise fun r r' => r.1 < r'.1
  first : ∀ r ∈ rows.head?, r.1 = lo
  /-- Each row starts where the one before ends. -/
  next : rows.IsChain fun r r' => r'.1 = r.1 + (c.row shown r.1).2
  last : ∀ r ∈ rows.getLast?, r.1 + (c.row shown r.1).2 = c.code.size
  once : ∀ i, lo ≤ i → i < c.code.size →
    ∃! r, r ∈ rows ∧ r.1 ≤ i ∧ i < r.1 + (c.row shown r.1).2

theorem covers_nil (h : c.code.size ≤ lo) : Covers shown c lo [] where
  text := nofun
  inside := nofun
  rising := .nil
  first := nofun
  next := .nil
  last := nofun
  once i hlo hi := by omega

theorem Covers.cons (hn : n < c.code.size)
    (h : Covers shown c (n + (c.row shown n).2) rows)
    (hrest : rows = [] → n + (c.row shown n).2 = c.code.size) :
    Covers shown c n ((n, (c.row shown n).1) :: rows) where
  text := by
    intro r hr
    rcases List.mem_cons.1 hr with rfl | hr
    · rfl
    · exact h.text r hr
  inside := by
    intro r hr
    rcases List.mem_cons.1 hr with rfl | hr
    · exact ⟨Nat.le_refl _, hn⟩
    · exact ⟨(Nat.le_add_right _ _).trans (h.inside r hr).1, (h.inside r hr).2⟩
  rising := by
    refine List.pairwise_cons.2 ⟨fun r hr => ?_, h.rising⟩
    exact Nat.lt_of_lt_of_le (Nat.lt_add_of_pos_right (row_size_pos shown c hn)) (h.inside r hr).1
  first := by
    intro r hr
    cases hr
    rfl
  next := by
    rw [List.isChain_cons]
    exact ⟨h.first, h.next⟩
  last := by
    intro r hr
    cases rows with
    | nil =>
      cases hr
      exact hrest rfl
    | cons head tail =>
      rw [List.getLast?_cons_cons] at hr
      exact h.last r hr
  once := by
    intro i hlo hi
    by_cases hfirst : i < n + (c.row shown n).2
    · refine ⟨_, ⟨List.mem_cons_self, hlo, hfirst⟩, ?_⟩
      rintro r ⟨hr, hle, -⟩
      rcases List.mem_cons.1 hr with rfl | hr
      · rfl
      · have hge := (h.inside r hr).1
        omega
    · obtain ⟨r, ⟨hr, hle, hlt⟩, honly⟩ := h.once i (Nat.not_lt.1 hfirst) hi
      refine ⟨r, ⟨List.mem_cons_of_mem _ hr, hle, hlt⟩, ?_⟩
      rintro r' ⟨hr', hle', hlt'⟩
      rcases List.mem_cons.1 hr' with rfl | hr'
      · exact absurd hlt' hfirst
      · exact honly r' ⟨hr', hle', hlt'⟩

theorem covers_rowsFrom (shown : Value → Text) (c : Chunk) (h : lo ≤ c.code.size) :
    Covers shown c lo (c.rowsFrom shown lo) := by
  induction hleft : c.code.size - lo using Nat.strongRecOn generalizing lo with
  | _ left ih =>
    rcases Nat.lt_or_eq_of_le h with hlt | heq
    · have hpos := row_size_pos shown c hlt
      have hle := row_size_le shown hlt
      have hcovers := ih _ (by omega) hle rfl
      rw [rowsFrom_of_lt hlt]
      refine hcovers.cons hlt fun hnil => ?_
      by_contra hne
      rw [rowsFrom_of_lt (Nat.lt_of_le_of_ne hle hne)] at hnil
      cases hnil
    · rw [rowsFrom_of_le heq.ge]
      exact covers_nil heq.ge

/-! ### Rows and the scan of the validation -/

/-- The offsets of the instructions that validation comes to.  It goes on behind each one that
passes the checks. -/
inductive Visits (typeOf : Value → ValueType) (c : Chunk) : Nat → Nat → Prop
  | here {offset : Nat} (inside : offset < c.code.size) : Visits typeOf c offset offset
  | next {offset n : Nat} {op : Opcode} (checked : Checked typeOf c offset op)
      (rest : Visits typeOf c (offset + op.size) n) : Visits typeOf c offset n

theorem sizeOfByte_of_ofByte? (h : Opcode.ofByte? byte = some op) :
    Opcode.sizeOfByte byte = op.size := by
  rw [Opcode.sizeOfByte, h]

/-- A whole instruction is one row. -/
theorem Decodes.row_eq (h : c.Decodes n op) (shown : Value → Text) :
    c.row shown n = (c.instructionText shown op n, op.size) := by
  obtain ⟨byte, hbyte, -⟩ := id h
  have hop := h.ofByte? hbyte
  have hfits := Nat.not_lt.2 h.fits
  rw [row, hbyte]
  simp only [sizeOfByte_of_ofByte? hop, if_neg hfits, hop]

/-- Validation comes to no other offsets than the listing. -/
theorem Visits.exists_row (h : Visits typeOf c lo n) (shown : Value → Text) :
    ∃ r ∈ c.rowsFrom shown lo, r.1 = n := by
  induction h with
  | here inside =>
    rw [rowsFrom_of_lt inside]
    exact ⟨_, List.mem_cons_self, rfl⟩
  | @next offset n op checked rest ih =>
    have hlt : offset < c.code.size := by
      have hfits := checked.decodes.fits
      have hpos := op.size_pos
      omega
    obtain ⟨r, hr, hn⟩ := ih
    rw [rowsFrom_of_lt hlt, checked.decodes.row_eq shown]
    exact ⟨r, List.mem_cons_of_mem _ hr, hn⟩

/-- Of a valid code validation comes to every row. -/
theorem visits_of_mem_rowsFrom (hvalid : c.validateFrom typeOf lo = .ok ())
    (hr : r ∈ c.rowsFrom shown lo) : Visits typeOf c lo r.1 ∧ ∃ op, Checked typeOf c r.1 op := by
  induction hleft : c.code.size - lo using Nat.strongRecOn generalizing lo with
  | _ left ih =>
    by_cases hlt : lo < c.code.size
    · obtain ⟨op, hchecked, hrest⟩ := validateFrom_ok hvalid hlt
      have hpos := op.size_pos
      rw [rowsFrom_of_lt hlt, hchecked.decodes.row_eq shown] at hr
      rcases List.mem_cons.1 hr with rfl | hr
      · exact ⟨.here hlt, op, hchecked⟩
      · obtain ⟨hvisits, hop⟩ := ih _ (by omega) hrest hr rfl
        exact ⟨.next hchecked hvisits, hop⟩
    · rw [rowsFrom_of_le (Nat.not_lt.1 hlt)] at hr
      cases hr

end Chunk

/-! ### Marks -/

namespace Opcode

theorem length_nameOfByte_le (b : UInt8) : (nameOfByte b).length ≤ 13 := by
  have hall : ∀ i : Fin 256, (nameOfByte i.val.toUInt8).length ≤ 13 := by decide +kernel
  have hb := hall ⟨b.toNat, b.toNat_lt⟩
  rwa [Nat.toUInt8_eq, UInt8.ofNat_toNat] at hb

theorem length_name_le (op : Opcode) : op.name.length ≤ 13 := by
  cases op <;> decide

/-- No name has the bytes that the marks of a listing start with. -/
theorem mark_not_mem_name (op : Opcode) : (0x3C : UInt8) ∉ op.name ∧ (0x28 : UInt8) ∉ op.name := by
  cases op <;> decide

end Opcode

namespace Chunk

/-- The row of an instruction that the code cuts short. -/
def SaysTruncated (t : Text) : Prop := ∃ byte, t = Opcode.nameOfByte byte ++ " <truncated>"

/-- The row of a byte that is no opcode. -/
def SaysUnknown (t : Text) : Prop :=
  ∃ byte, Opcode.ofByte? byte = none ∧ t = Opcode.nameOfByte byte

/-- The row of an instruction with a constant that is not in the pool. -/
def SaysOutOfRange (t : Text) : Prop :=
  ∃ (op : Opcode) (index : UInt8), op.usesConstant = true ∧ t = nameColumn op ++
    (Text.padLeft 3 0x20 (Text.ofNat index.toNat) ++ (" ; " ++ Text.ofString "<out of range>"))

/-- A row that is marked in one of the three ways. -/
def Marked (t : Text) : Prop := SaysTruncated t ∨ SaysUnknown t ∨ SaysOutOfRange t

variable {shown : Value → Text} {typeOf : Value → ValueType} {m : Memory} {c : Chunk} {n : Nat}
  {op : Opcode} {byte : UInt8} {t : Text} {r : Nat × Text}

/-- The mark of a cut instruction stands near the start of its row. -/
theorem SaysTruncated.mark_mem (h : SaysTruncated t) : (0x3C : UInt8) ∈ t.take 16 := by
  obtain ⟨byte, rfl⟩ := h
  have hshort := Opcode.length_nameOfByte_le byte
  refine List.mem_iff_getElem?.2 ⟨(Opcode.nameOfByte byte).length + 1, ?_⟩
  rw [List.getElem?_take_of_lt (by omega), List.getElem?_append_right (by omega),
    Nat.add_sub_cancel_left]
  rfl

theorem SaysUnknown.mark (h : SaysUnknown t) :
    (0x28 : UInt8) ∈ t.take 16 ∧ (0x3C : UInt8) ∉ t.take 16 := by
  have hall : ∀ i : Fin 256, Opcode.ofByte? i.val.toUInt8 = none →
      (0x28 : UInt8) ∈ (Opcode.nameOfByte i.val.toUInt8).take 16 ∧
        (0x3C : UInt8) ∉ (Opcode.nameOfByte i.val.toUInt8).take 16 := by
    decide +kernel
  obtain ⟨byte, hbyte, rfl⟩ := h
  have hb := hall ⟨byte.toNat, byte.toNat_lt⟩
  rw [Nat.toUInt8_eq, UInt8.ofNat_toNat] at hb
  exact hb hbyte

theorem length_nameColumn (op : Opcode) : (nameColumn op).length = 17 := by
  cases op <;> decide

/-- The name can be read off its column. -/
theorem nameColumn_injective : Function.Injective nameColumn := by
  intro op op' h
  have hname : ∀ op, (nameColumn op).takeWhile (· ≠ 0x20) = op.name := by
    intro op
    cases op <;> decide
  have hfound : ∀ op : Opcode, Opcode.ofName? op.name = some op := by
    intro op
    cases op <;> decide
  have hsame := hfound op
  rw [← hname op, h, hname op', hfound op'] at hsame
  exact (Option.some.inj hsame).symm

/-- The row of a whole instruction is its name alone or starts with the column of its name. -/
theorem instructionText_cases (shown : Value → Text) (c : Chunk) (op : Opcode) (n : Nat) :
    c.instructionText shown op n = op.name ∨
      ∃ rest, c.instructionText shown op n = nameColumn op ++ rest := by
  unfold instructionText
  dsimp only
  split
  · exact Or.inr ⟨_, (List.append_assoc _ _ _).trans (List.append_assoc _ _ _)⟩
  · split
    · exact Or.inr ⟨_, rfl⟩
    · cases op <;> first
        | exact Or.inl rfl
        | exact Or.inr ⟨_, List.append_assoc _ _ _⟩

theorem mark_not_mem_nameColumn (op : Opcode) (rest : Text) :
    (0x3C : UInt8) ∉ (nameColumn op ++ rest).take 16 ∧
      (0x28 : UInt8) ∉ (nameColumn op ++ rest).take 16 := by
  obtain ⟨hless, hparen⟩ := op.mark_not_mem_name
  have hcolumn : ∀ b ∈ (nameColumn op ++ rest).take 16, b ∈ op.name ∨ b = 0x20 := by
    intro b hb
    rw [List.take_append_of_le_length (by rw [length_nameColumn]; decide)] at hb
    have hmem := List.mem_of_mem_take hb
    rw [nameColumn, Text.padRight, List.append_assoc, List.mem_append, List.mem_append] at hmem
    rcases hmem with hname | hspace | hspace
    · exact Or.inl hname
    · exact Or.inr (List.eq_of_mem_replicate hspace)
    · exact Or.inr (List.mem_singleton.1 hspace)
  exact ⟨fun h => (hcolumn _ h).elim hless (by decide),
    fun h => (hcolumn _ h).elim hparen (by decide)⟩

theorem mark_not_mem_instructionText (shown : Value → Text) (c : Chunk) (op : Opcode) (n : Nat) :
    (0x3C : UInt8) ∉ (c.instructionText shown op n).take 16 ∧
      (0x28 : UInt8) ∉ (c.instructionText shown op n).take 16 := by
  rcases instructionText_cases shown c op n with heq | ⟨rest, heq⟩
  · obtain ⟨hless, hparen⟩ := op.mark_not_mem_name
    rw [heq]
    exact ⟨fun h => hless (List.mem_of_mem_take h), fun h => hparen (List.mem_of_mem_take h)⟩
  · rw [heq]
    exact mark_not_mem_nameColumn op rest

theorem SaysTruncated.not_unknown (h : SaysTruncated t) : ¬ SaysUnknown t :=
  fun hunknown => hunknown.mark.2 h.mark_mem

theorem SaysOutOfRange.not_truncated (h : SaysOutOfRange t) : ¬ SaysTruncated t := by
  obtain ⟨op, index, -, rfl⟩ := h
  exact fun htruncated => (mark_not_mem_nameColumn op _).1 htruncated.mark_mem

theorem SaysOutOfRange.not_unknown (h : SaysOutOfRange t) : ¬ SaysUnknown t := by
  obtain ⟨op, index, -, rfl⟩ := h
  exact fun hunknown => (mark_not_mem_nameColumn op _).2 hunknown.mark.1

theorem instructionText_of_usesConstant (h : op.usesConstant = true) :
    c.instructionText shown op n = nameColumn op ++
      (Text.padLeft 3 0x20 (Text.ofNat (c.code[n + 1]?.getD 0).toNat) ++ (" ; " ++
        match c.constants[(c.code[n + 1]?.getD 0).toNat]? with
        | some v => shown v
        | none => Text.ofString "<out of range>")) := by
  unfold instructionText
  rw [if_pos h]
  exact (List.append_assoc _ _ _).trans (List.append_assoc _ _ _)

theorem length_index (index : UInt8) :
    (Text.padLeft 3 0x20 (Text.ofNat index.toNat)).length = 3 := by
  have hall : ∀ i : Fin 256, (Text.padLeft 3 0x20 (Text.ofNat i.val)).length = 3 := by
    decide +kernel
  exact hall ⟨index.toNat, index.toNat_lt⟩

/-- A row says that a constant is outside the pool exactly when it is. -/
theorem saysOutOfRange_instructionText (hshown : ∀ v, shown v ≠ Text.ofString "<out of range>") :
    SaysOutOfRange (c.instructionText shown op n) ↔
      op.usesConstant = true ∧ c.constants[(c.code[n + 1]?.getD 0).toNat]? = none := by
  constructor
  · rintro ⟨op', index, hconstant, htext⟩
    have hsame : op = op' := by
      rcases instructionText_cases shown c op n with heq | ⟨rest, heq⟩
      · exfalso
        have hlength := congrArg List.length (heq.symm.trans htext)
        have hshort := op.length_name_le
        rw [List.length_append, length_nameColumn] at hlength
        omega
      · have hcolumns := (length_nameColumn op).trans (length_nameColumn op').symm
        exact nameColumn_injective (List.append_inj (heq.symm.trans htext) hcolumns).1
    subst hsame
    refine ⟨hconstant, ?_⟩
    rw [instructionText_of_usesConstant hconstant] at htext
    have hindex := (length_index (c.code[n + 1]?.getD 0)).trans (length_index index).symm
    have hvalue := List.append_cancel_left
      (List.append_inj (List.append_cancel_left htext) hindex).2
    cases hfound : c.constants[(c.code[n + 1]?.getD 0).toNat]? with
    | none => rfl
    | some v =>
      rw [hfound] at hvalue
      exact absurd hvalue (hshown v)
  · rintro ⟨hconstant, hnone⟩
    refine ⟨op, c.code[n + 1]?.getD 0, hconstant, ?_⟩
    rw [instructionText_of_usesConstant hconstant, hnone]

theorem mark_not_mem_ofInt64 (k : Int64) : (0x3C : UInt8) ∉ Text.ofInt64 k := by
  have hdigits : ∀ i, (0x3C : UInt8) ∉ Text.ofNat i := by
    intro i hmem
    rw [Text.ofNat, Text.ofAscii, List.mem_map] at hmem
    obtain ⟨d, hd, hbyte⟩ := hmem
    have hdigit := Nat.isDigit_of_mem_toDigits (by decide) (by decide) hd
    simp only [Char.isDigit, Bool.and_eq_true, decide_eq_true_eq, ge_iff_le,
      UInt32.le_iff_toNat_le] at hdigit
    have hvalue := congrArg UInt8.toNat hbyte
    rw [Nat.toUInt8_eq, UInt8.toNat_ofNat'] at hvalue
    change d.toNat % 256 = 60 at hvalue
    change 48 ≤ d.toNat ∧ d.toNat ≤ 57 at hdigit
    omega
  rw [Text.ofInt64]
  cases k.toInt with
  | ofNat i => exact hdigits i
  | negSucc i =>
    rw [Text.ofInt, List.mem_cons, not_or]
    exact ⟨by decide, hdigits _⟩

/-- No constant is shown as the mark of a missing one. -/
theorem constantText_ne (m : Memory) (v : Value) :
    constantText m v ≠ Text.ofString "<out of range>" := by
  have hhead : ∀ {t : Text}, t.head? ≠ some 0x3C → t ≠ Text.ofString "<out of range>" := by
    rintro t hne rfl
    exact hne rfl
  cases v with
  | nil => exact hhead (by decide : (Text.ofString "nil").head? ≠ some 0x3C)
  | int k =>
    intro h
    apply mark_not_mem_ofInt64 k
    rw [constantText] at h
    rw [h]
    decide
  | bool b => exact hhead (by cases b <;> decide : (truthWord b).head? ≠ some 0x3C)
  | native address => exact (by decide : Text.ofString "<native>" ≠ Text.ofString "<out of range>")
  | object id =>
    rw [constantText]
    cases hstring : m.string? id with
    | some data =>
      dsimp only [stringText]
      split <;> exact hhead (by simp [Text.quoted])
    | none =>
      dsimp only
      rw [Memory.display]
      cases hpayload : m.payload? id with
      | none => exact (by decide : Text.ofString "<unknown>" ≠ Text.ofString "<out of range>")
      | some payload =>
        cases payload with
        | string data =>
          rw [Memory.string?_eq_some.2 hpayload] at hstring
          cases hstring
        | array elements =>
          exact hhead fun h => absurd h (by decide : some (0x5B : UInt8) ≠ some 0x3C)
        | struct record =>
          exact hhead fun h => absurd h (by decide : some (0x7B : UInt8) ≠ some 0x3C)
        | function f =>
          dsimp only
          split
          · exact (by decide : Text.ofString "<script>" ≠ Text.ofString "<out of range>")
          · intro h
            exact absurd (congrArg (·[1]?) h) (by decide : some (0x66 : UInt8) ≠ some 0x6F)

/-! ### What a row says and what validation finds -/

/-- Validation finds no whole instruction at an offset, but an error. -/
def Lacks (c : Chunk) (n : Nat) (e : CodeError) : Prop :=
  ∃ byte, c.code[n]? = some byte ∧ c.instructionAt n byte = .error e

theorem Lacks.unique {e e' : CodeError} (h : c.Lacks n e) (h' : c.Lacks n e') : e = e' := by
  obtain ⟨byte, hbyte, hat⟩ := h
  obtain ⟨byte', hbyte', hat'⟩ := h'
  cases hbyte.symm.trans hbyte'
  cases hat.symm.trans hat'
  rfl

theorem Decodes.not_lacks {e : CodeError} (h : c.Decodes n op) : ¬ c.Lacks n e := by
  obtain ⟨byte, hbyte, hat⟩ := h
  rintro ⟨byte', hbyte', hat'⟩
  cases hbyte.symm.trans hbyte'
  cases hat.symm.trans hat'

/-- What the row of an instruction says is what validation finds at its offset. -/
structure Agrees (typeOf : Value → ValueType) (c : Chunk) (r : Nat × Text) : Prop where
  truncated : SaysTruncated r.2 ↔ ∃ op, c.Lacks r.1 (.truncated r.1 op)
  unknown : SaysUnknown r.2 ↔ ∃ byte, c.Lacks r.1 (.unknownOpcode r.1 byte)
  outOfRange : SaysOutOfRange r.2 ↔ ∃ op index, c.Decodes r.1 op ∧
    c.checkConstant typeOf op r.1 = .error (.constantOutOfRange r.1 op index c.constants.size)

theorem checkConstant_outOfRange_iff :
    (∃ index, c.checkConstant typeOf op n =
      .error (.constantOutOfRange n op index c.constants.size)) ↔
      op.usesConstant = true ∧ c.constants[(c.code[n + 1]?.getD 0).toNat]? = none := by
  rw [checkConstant]
  by_cases hconstant : op.usesConstant = true
  · rw [if_pos hconstant]
    dsimp only
    cases hfound : c.constants[(c.code[n + 1]?.getD 0).toNat]? with
    | none => simp [hconstant]
    | some v =>
      dsimp only
      split <;> simp
  · simp [hconstant]

/-- The text of a row, by what is at its offset. -/
theorem row_cases (shown : Value → Text) (h : n < c.code.size) :
    (∃ op, c.Lacks n (.truncated n op) ∧ SaysTruncated (c.row shown n).1) ∨
    (∃ byte, c.Lacks n (.unknownOpcode n byte) ∧ SaysUnknown (c.row shown n).1) ∨
    ∃ op, c.Decodes n op ∧ (c.row shown n).1 = c.instructionText shown op n := by
  have hbyte : c.code[n]? = some c.code[n] := Array.getElem?_eq_getElem h
  generalize c.code[n] = byte at hbyte
  cases hop : Opcode.ofByte? byte with
  | none =>
    have hsize : Opcode.sizeOfByte byte = 1 := by rw [Opcode.sizeOfByte, hop]
    have hwhole : ¬ c.code.size < n + 1 := by omega
    refine Or.inr (Or.inl ⟨byte, ⟨byte, hbyte, ?_⟩, byte, hop, ?_⟩)
    · rw [instructionAt, hop]
    · rw [row, hbyte]
      simp only [hsize, if_neg hwhole, hop]
  | some op =>
    by_cases hfits : n + op.size ≤ c.code.size
    · have hdecodes : c.Decodes n op :=
        ⟨byte, hbyte, by simp only [instructionAt, hop, if_pos hfits]⟩
      exact Or.inr (Or.inr ⟨op, hdecodes, congrArg Prod.fst (hdecodes.row_eq shown)⟩)
    · refine Or.inl ⟨op, ⟨byte, hbyte, ?_⟩, byte, ?_⟩
      · simp only [instructionAt, hop, if_neg hfits]
      · rw [row, hbyte]
        simp only [sizeOfByte_of_ofByte? hop, if_pos (Nat.not_le.1 hfits)]

theorem agrees_row (hshown : ∀ v, shown v ≠ Text.ofString "<out of range>")
    (typeOf : Value → ValueType) (h : n < c.code.size) :
    Agrees typeOf c (n, (c.row shown n).1) := by
  rcases row_cases shown h with ⟨op, hlacks, hsays⟩ | ⟨byte, hlacks, hsays⟩ | ⟨op, hdecodes, htext⟩
  · refine ⟨iff_of_true hsays ⟨op, hlacks⟩, iff_of_false hsays.not_unknown ?_,
      iff_of_false (fun hout => hout.not_truncated hsays) ?_⟩
    · rintro ⟨byte, hlacks'⟩
      cases hlacks.unique hlacks'
    · rintro ⟨op', index, hdecodes, -⟩
      exact hdecodes.not_lacks hlacks
  · refine ⟨iff_of_false (fun htruncated => htruncated.not_unknown hsays) ?_,
      iff_of_true hsays ⟨byte, hlacks⟩, iff_of_false (fun hout => hout.not_unknown hsays) ?_⟩
    · rintro ⟨op, hlacks'⟩
      cases hlacks.unique hlacks'
    · rintro ⟨op', index, hdecodes, -⟩
      exact hdecodes.not_lacks hlacks
  · obtain ⟨hless, hparen⟩ := mark_not_mem_instructionText shown c op n
    rw [← htext] at hless hparen
    refine ⟨iff_of_false (fun htruncated => hless htruncated.mark_mem) ?_,
      iff_of_false (fun hunknown => hparen hunknown.mark.1) ?_, ?_⟩
    · rintro ⟨op', hlacks⟩
      exact hdecodes.not_lacks hlacks
    · rintro ⟨byte, hlacks⟩
      exact hdecodes.not_lacks hlacks
    · rw [htext, saysOutOfRange_instructionText hshown, ← checkConstant_outOfRange_iff]
      constructor
      · rintro ⟨index, hcheck⟩
        exact ⟨op, index, hdecodes, hcheck⟩
      · rintro ⟨op', index, hdecodes', hcheck⟩
        cases hdecodes.unique hdecodes'
        exact ⟨index, hcheck⟩

/-- A row of a checked instruction is not marked. -/
theorem Agrees.not_marked (h : Agrees typeOf c r) (hchecked : Checked typeOf c r.1 op) :
    ¬ Marked r.2 := by
  rintro (htruncated | hunknown | hout)
  · obtain ⟨op', hlacks⟩ := h.truncated.1 htruncated
    exact hchecked.decodes.not_lacks hlacks
  · obtain ⟨byte, hlacks⟩ := h.unknown.1 hunknown
    exact hchecked.decodes.not_lacks hlacks
  · obtain ⟨op', index, hdecodes, hcheck⟩ := h.outOfRange.1 hout
    cases hchecked.decodes.unique hdecodes
    cases hchecked.constant.symm.trans hcheck

/-- A listing covers the code exactly and agrees with validation.  Whatever the bytes are, its
lines are rows that start at offset 0, each where the one before ends, and end with the code, so
that every byte is in one row; a row is marked as cut, unknown or with its constant out of range
exactly where validation would say so, and validation comes to no other offsets than these.  Of
valid code it comes to all of them, and no row is marked. -/
theorem listing_agrees (m : Memory) (c : Chunk) :
    (∀ name, ∃ head, c.listing (constantText m) name =
      head ++ (c.rowsFrom (constantText m) 0).flatMap fun (offset, text) =>
        (Text.hexUpper 4 offset ++ " " ++ c.lineColumn offset ++ "  " ++ text ++ "\n" : Text)) ∧
    Covers (constantText m) c 0 (c.rowsFrom (constantText m) 0) ∧
    (∀ r ∈ c.rowsFrom (constantText m) 0, Agrees m.typeOf c r) ∧
    (∀ n, Visits m.typeOf c 0 n → ∃ r ∈ c.rowsFrom (constantText m) 0, r.1 = n) ∧
    (c.validate m.typeOf = .ok () →
      (∀ n, (∃ r ∈ c.rowsFrom (constantText m) 0, r.1 = n) ↔ Visits m.typeOf c 0 n) ∧
      ∀ r ∈ c.rowsFrom (constantText m) 0, ¬ Marked r.2) := by
  have hcovers := covers_rowsFrom (constantText m) c (Nat.zero_le c.code.size)
  have hagrees : ∀ r ∈ c.rowsFrom (constantText m) 0, Agrees m.typeOf c r := by
    intro r hr
    have hrow := agrees_row (constantText_ne m) m.typeOf (hcovers.inside r hr).2
    rwa [← hcovers.text r hr] at hrow
  refine ⟨fun name => ⟨_, rfl⟩, hcovers, hagrees, fun n hn => hn.exists_row _, fun hvalid => ?_⟩
  have hfrom := validateFrom_of_validate hvalid
  refine ⟨fun n => ⟨?_, fun hn => hn.exists_row _⟩, fun r hr => ?_⟩
  · rintro ⟨r, hr, rfl⟩
    exact (visits_of_mem_rowsFrom hfrom hr).1
  · obtain ⟨op, hchecked⟩ := (visits_of_mem_rowsFrom hfrom hr).2
    exact (hagrees r hr).not_marked hchecked

/-! Code that prints a constant and jumps to its end. -/

/-- The code. -/
def printChunk : Chunk :=
  { code := #[1, 0, 20, 21, 0, 0, 0], lines := #[1, 1, 2, 2, 2, 2, 3], constants := #[.int 7] }

/-- The memory has no objects, as the constant is none. -/
def printMemory : Memory := ⟨Heap.create 0 .standard, #[], #[]⟩

theorem printChunk_valid (typeOf : Value → ValueType) : printChunk.validate typeOf = .ok () := by
  have hconstant : Checked typeOf printChunk 0 .constant := ⟨⟨1, rfl, rfl⟩, rfl, rfl⟩
  have hprint : Checked typeOf printChunk 2 .print := ⟨⟨20, rfl, rfl⟩, rfl, rfl⟩
  have hjump : Checked typeOf printChunk 3 .jump := ⟨⟨21, rfl, rfl⟩, rfl, rfl⟩
  have hret : Checked typeOf printChunk 6 .ret := ⟨⟨0, rfl, rfl⟩, rfl, rfl⟩
  have hlinked : printChunk.unlinked = [] := rfl
  rw [validate, if_pos hlinked, hconstant.validateFrom]
  change printChunk.validateFrom typeOf 2 = _
  rw [hprint.validateFrom]
  change printChunk.validateFrom typeOf 3 = _
  rw [hjump.validateFrom]
  change printChunk.validateFrom typeOf 6 = _
  rw [hret.validateFrom]
  exact validateFrom_size

/-- It is listed as it is validated. -/
theorem listing_agrees_printChunk :
    printChunk.validate printMemory.typeOf = .ok () ∧
      (∀ n, (∃ r ∈ printChunk.rowsFrom (constantText printMemory) 0, r.1 = n) ↔
        Visits printMemory.typeOf printChunk 0 n) ∧
      ∀ r ∈ printChunk.rowsFrom (constantText printMemory) 0, ¬ Marked r.2 := by
  obtain ⟨-, -, -, -, hvalid⟩ := listing_agrees printMemory printChunk
  exact ⟨printChunk_valid _, hvalid (printChunk_valid _)⟩

end Chunk

end StackVm
