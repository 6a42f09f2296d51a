/-
Instruction boundaries.  Where a chunk is valid, every offset at which its linear
decoding starts an instruction holds a whole valid instruction or is the end of the
code.  Validation does not ask where in the code a jump lands; that its target is a
boundary is a property of its own.
-/
import StackVm.Chunk.Validate

namespace StackVm

theorem Opcode.operandCount_pos {op : Opcode} (h : op.usesConstant = true) :
    0 < op.operandCount := by
  revert h
  cases op <;> decide

namespace Chunk

/-- A whole instruction with the opcode is at the offset. -/
def Decodes (c : Chunk) (offset : Nat) (op : Opcode) : Prop :=
  ∃ byte, c.code[offset]? = some byte ∧ c.instructionAt offset byte = .ok op

/-- Every jump of the linear decoding goes to the start of an instruction of that
decoding or to the end of the code. -/
def Aligned (c : Chunk) : Prop :=
  ∀ offset op, c.Starts 0 offset → c.Decodes offset op → op.isJump = true →
    (∃ n, c.Starts 0 n ∧ c.target op offset = n) ∨ c.target op offset = c.code.size

variable {c : Chunk} {offset n : Nat} {op : Opcode} {typeOf : Value → ValueType}

theorem Starts.snoc (h : c.Starts offset n) (hop : c.Decodes n op) :
    c.Starts offset (n + op.size) := by
  induction h with
  | here =>
    obtain ⟨byte, hbyte, hinstruction⟩ := hop
    exact .next hbyte hinstruction .here
  | next hbyte hinstruction _ ih => exact .next hbyte hinstruction (ih hop)

/-- A decoded instruction is whole. -/
theorem Decodes.fits (h : c.Decodes offset op) : offset + op.size ≤ c.code.size := by
  obtain ⟨byte, _, hinstruction⟩ := h
  unfold instructionAt at hinstruction
  split at hinstruction
  · cases hinstruction
  · split at hinstruction
    · next hfits =>
      cases hinstruction
      exact hfits
    · cases hinstruction

/-- The opcode is the one of the byte. -/
theorem Decodes.ofByte? (h : c.Decodes offset op) {byte : UInt8}
    (hbyte : c.code[offset]? = some byte) : Opcode.ofByte? byte = some op := by
  obtain ⟨other, hother, hinstruction⟩ := h
  rw [hbyte] at hother
  cases hother
  unfold instructionAt at hinstruction
  split at hinstruction
  · cases hinstruction
  · next hopcode =>
    split at hinstruction
    · cases hinstruction
      exact hopcode
    · cases hinstruction

theorem Decodes.unique (h : c.Decodes offset op) {other : Opcode}
    (hother : c.Decodes offset other) : op = other := by
  obtain ⟨byte, hbyte, hinstruction⟩ := h
  obtain ⟨byte', hbyte', hinstruction'⟩ := hother
  rw [hbyte] at hbyte'
  cases hbyte'
  rw [hinstruction] at hinstruction'
  cases hinstruction'
  rfl

/-- The operand bytes of a decoded instruction are in the code. -/
theorem Decodes.operand (h : c.Decodes offset op) {i : Nat} (hi : i ≤ op.operandCount) :
    ∃ byte, c.code[offset + i]? = some byte := by
  have hfits := h.fits
  rw [Opcode.size] at hfits
  exact ⟨_, Array.getElem?_eq_getElem (by omega)⟩

/-! ### What validation finds -/

/-- A whole instruction that has passed the checks. -/
structure Checked (typeOf : Value → ValueType) (c : Chunk) (offset : Nat) (op : Opcode) :
    Prop where
  decodes : c.Decodes offset op
  constant : c.checkConstant typeOf op offset = .ok ()
  target : c.checkTarget op offset = .ok ()

theorem validateFrom_ok (h : c.validateFrom typeOf offset = .ok ()) (hlt : offset < c.code.size) :
    ∃ op, Checked typeOf c offset op ∧ c.validateFrom typeOf (offset + op.size) = .ok () := by
  rw [validateFrom, dif_pos hlt] at h
  split at h
  · cases h
  · next op hinstruction =>
    split at h
    · cases h
    · next hconstant =>
      split at h
      · cases h
      · next htarget =>
        have hbyte : c.code[offset]? = some c.code[offset] := Array.getElem?_eq_getElem hlt
        exact ⟨op, ⟨⟨_, hbyte, hinstruction⟩, hconstant, htarget⟩, h⟩

/-- Validation goes on from every boundary it comes to. -/
theorem validateFrom_of_starts (h : c.Starts offset n)
    (hvalid : c.validateFrom typeOf offset = .ok ()) (hle : offset ≤ c.code.size) :
    c.validateFrom typeOf n = .ok () ∧ n ≤ c.code.size := by
  induction h with
  | here => exact ⟨hvalid, hle⟩
  | @next offset start byte op hbyte hinstruction _ ih =>
    have hlt : offset < c.code.size := (Array.getElem?_eq_some_iff.1 hbyte).1
    obtain ⟨other, hchecked, hrest⟩ := validateFrom_ok hvalid hlt
    have hsame : op = other := Decodes.unique ⟨byte, hbyte, hinstruction⟩ hchecked.decodes
    subst hsame
    exact ih hrest hchecked.decodes.fits

theorem validateFrom_of_validate (h : c.validate typeOf = .ok ()) :
    c.validateFrom typeOf 0 = .ok () := by
  rw [validate] at h
  split at h
  · exact h
  · cases h

/-- A boundary of a valid chunk is the end of the code or holds a checked instruction. -/
theorem boundary_cases (hvalid : c.validate typeOf = .ok ()) (h : c.Starts 0 n) :
    n = c.code.size ∨ n < c.code.size ∧ ∃ op, Checked typeOf c n op := by
  obtain ⟨hfrom, hle⟩ := validateFrom_of_starts h (validateFrom_of_validate hvalid) (Nat.zero_le _)
  rcases Nat.lt_or_eq_of_le hle with hlt | heq
  · obtain ⟨op, hchecked, _⟩ := validateFrom_ok hfrom hlt
    exact Or.inr ⟨hlt, op, hchecked⟩
  · exact Or.inl heq

/-- The end of a valid chunk is a boundary. -/
theorem starts_size (h : c.validateFrom typeOf offset = .ok ()) (hle : offset ≤ c.code.size) :
    c.Starts offset c.code.size := by
  induction hleft : c.code.size - offset using Nat.strongRecOn generalizing offset with
  | _ left ih =>
    rcases Nat.lt_or_eq_of_le hle with hlt | heq
    · obtain ⟨op, hchecked, hrest⟩ := validateFrom_ok h hlt
      obtain ⟨byte, hbyte, hinstruction⟩ := hchecked.decodes
      have hpos := op.size_pos
      have hfits := hchecked.decodes.fits
      exact .next hbyte hinstruction (ih _ (by omega) hrest hfits rfl)
    · rw [← heq]
      exact .here

/-- In an aligned valid chunk a jump goes to a boundary. -/
theorem Aligned.target_starts (haligned : c.Aligned) (hvalid : c.validate typeOf = .ok ())
    (h : c.Starts 0 offset) (hop : c.Decodes offset op) (hjump : op.isJump = true) :
    ∃ n, c.Starts 0 n ∧ c.target op offset = n := by
  rcases haligned offset op h hop hjump with htarget | hend
  · exact htarget
  · exact ⟨_, starts_size (validateFrom_of_validate hvalid) (Nat.zero_le _), hend⟩

/-- The constant operand of a checked instruction is in the pool, and a name is a string. -/
theorem Checked.constant_mem (h : Checked typeOf c offset op) (huses : op.usesConstant = true)
    {byte : UInt8} (hbyte : c.code[offset + 1]? = some byte) :
    ∃ v, c.constants[byte.toNat]? = some v ∧ (op.usesName = true → typeOf v = .string) := by
  have hconstant := h.constant
  rw [checkConstant, if_pos huses, hbyte] at hconstant
  simp only [Option.getD_some] at hconstant
  split at hconstant
  · cases hconstant
  · next v hv =>
    refine ⟨v, hv, fun hname => ?_⟩
    split at hconstant
    · cases hconstant
    · next hstring =>
      exact Decidable.byContradiction fun hother => hstring ⟨hname, hother⟩

/-! ### Types that change -/

theorem checkConstant_mono {typeOf' : Value → ValueType}
    (hstring : ∀ v, typeOf v = .string → typeOf' v = .string)
    (h : c.checkConstant typeOf op offset = .ok ()) :
    c.checkConstant typeOf' op offset = .ok () := by
  rw [checkConstant] at h ⊢
  split at h
  · next huses =>
    rw [if_pos huses]
    dsimp only at h ⊢
    split at h
    · cases h
    · next v hv =>
      split at h
      · cases h
      · next hname =>
        rw [if_neg]
        rintro ⟨huses, hother⟩
        exact hother (hstring v (Decidable.byContradiction fun hv => hname ⟨huses, hv⟩))
  · next huses => rw [if_neg huses]

/-- A chunk stays valid where strings stay strings. -/
theorem validate_mono {typeOf' : Value → ValueType}
    (hstring : ∀ v, typeOf v = .string → typeOf' v = .string)
    (h : c.validate typeOf = .ok ()) : c.validate typeOf' = .ok () := by
  have hfrom : ∀ offset, c.validateFrom typeOf offset = .ok () →
      c.validateFrom typeOf' offset = .ok () := by
    intro offset hvalid
    induction hleft : c.code.size - offset using Nat.strongRecOn generalizing offset with
    | _ left ih =>
      by_cases hlt : offset < c.code.size
      · obtain ⟨op, hchecked, hrest⟩ := validateFrom_ok hvalid hlt
        have hpos := op.size_pos
        have hnext := ih _ (by omega) _ hrest rfl
        obtain ⟨byte, hbyte, hinstruction⟩ := hchecked.decodes
        rw [Array.getElem?_eq_getElem hlt] at hbyte
        cases hbyte
        rw [validateFrom, dif_pos hlt, hinstruction]
        dsimp only
        rw [checkConstant_mono hstring hchecked.constant]
        dsimp only
        rw [hchecked.target]
        exact hnext
      · rw [validateFrom, dif_neg hlt]
  rw [validate] at h ⊢
  split at h
  · next hlinked =>
    rw [if_pos hlinked]
    exact hfrom 0 h
  · cases h

end Chunk

end StackVm
