/-
Where jumps go.  Execution, validation and the listing read the same target from a jump, and what
patching and looping back write is read as the target that was meant.
-/
import StackVm.Chunk.Listing
import StackVm.Proofs.Calls
import StackVm.Proofs.Validation

namespace StackVm

/-! ### Offsets as text -/

namespace Text

/-- The value of a byte as an upper-case hexadecimal digit. -/
def hexDigitValue (b : UInt8) : Nat := if b ≤ 0x39 then b.toNat - 0x30 else b.toNat - 0x37

/-- The number that upper-case hexadecimal digits stand for. -/
def fromHexUpper (t : Text) : Nat := t.foldl (fun n b => n * 16 + hexDigitValue b) 0

/-- The byte of a digit. -/
def hexDigit (d : Nat) : UInt8 := upperByte (Nat.digitChar d).toNat.toUInt8

theorem hexDigitValue_hexDigit : ∀ d < 16, hexDigitValue (hexDigit d) = d := by decide

theorem hexDigit_ne_minus : ∀ d < 16, hexDigit d ≠ 0x2D := by decide

theorem hexUpper_eq (width n : Nat) : ∃ zeros, hexUpper width n =
    List.replicate zeros 0x30 ++ (ofAscii (Nat.toDigits 16 n)).map upperByte := by
  refine ⟨width - (ofAscii (Nat.toDigits 16 n)).length, ?_⟩
  rw [hexUpper, hexLower, padLeft, List.map_append, List.map_replicate]
  rfl

/-- The digits of a number are those of its sixteenth part and one more. -/
theorem digits_eq (n : Nat) : (ofAscii (Nat.toDigits 16 n)).map upperByte =
    if n < 16 then [hexDigit n]
    else (ofAscii (Nat.toDigits 16 (n / 16))).map upperByte ++ [hexDigit (n % 16)] := by
  by_cases hsmall : n < 16
  · rw [if_pos hsmall, Nat.toDigits_of_lt_base hsmall]
    rfl
  · rw [if_neg hsmall, Nat.toDigits_of_base_le (by decide) (Nat.not_lt.1 hsmall)]
    simp [ofAscii, hexDigit]

theorem fromHexUpper_hexUpper (width n : Nat) : fromHexUpper (hexUpper width n) = n := by
  have hzeros : ∀ zeros, (List.replicate zeros (0x30 : UInt8)).foldl
      (fun n b => n * 16 + hexDigitValue b) 0 = 0 := by
    intro zeros
    induction zeros with
    | zero => rfl
    | succ zeros ih => exact ih
  obtain ⟨zeros, heq⟩ := hexUpper_eq width n
  rw [heq, fromHexUpper, List.foldl_append, hzeros]
  clear heq
  induction n using Nat.strongRecOn with
  | _ n ih =>
    rw [digits_eq]
    split_ifs with hsmall
    · simp [hexDigitValue_hexDigit n hsmall]
    · have hdigit := hexDigitValue_hexDigit (n % 16) (Nat.mod_lt _ (by decide))
      rw [List.foldl_append, ih (n / 16) (by omega), List.foldl_cons, List.foldl_nil, hdigit]
      omega

theorem minus_not_mem_hexUpper (width n : Nat) : (0x2D : UInt8) ∉ hexUpper width n := by
  obtain ⟨zeros, heq⟩ := hexUpper_eq width n
  rw [heq, List.mem_append, not_or]
  refine ⟨fun hzero => absurd (List.eq_of_mem_replicate hzero) (by decide), ?_⟩
  clear heq
  induction n using Nat.strongRecOn with
  | _ n ih =>
    rw [digits_eq]
    split_ifs with hsmall
    · exact fun hmem => hexDigit_ne_minus n hsmall (List.mem_singleton.1 hmem).symm
    · rw [List.mem_append, not_or]
      refine ⟨ih (n / 16) (by omega), fun hmem => ?_⟩
      exact hexDigit_ne_minus (n % 16) (Nat.mod_lt _ (by decide)) (List.mem_singleton.1 hmem).symm

/-- Different numbers are written differently. -/
theorem hexUpperInt_injective (width : Nat) : Function.Injective (hexUpperInt width) := by
  intro a b h
  cases a with
  | ofNat a =>
    cases b with
    | ofNat b =>
      have hvalue := congrArg fromHexUpper h
      rw [hexUpperInt, hexUpperInt, fromHexUpper_hexUpper, fromHexUpper_hexUpper] at hvalue
      rw [hvalue]
    | negSucc b =>
      have hminus := minus_not_mem_hexUpper width a
      rw [hexUpperInt, hexUpperInt] at h
      rw [h] at hminus
      exact absurd List.mem_cons_self hminus
  | negSucc a =>
    cases b with
    | ofNat b =>
      have hminus := minus_not_mem_hexUpper width b
      rw [hexUpperInt, hexUpperInt] at h
      rw [← h] at hminus
      exact absurd List.mem_cons_self hminus
    | negSucc b =>
      rw [hexUpperInt, hexUpperInt] at h
      have hvalue := congrArg fromHexUpper (List.cons.inj h).2
      rw [fromHexUpper_hexUpper, fromHexUpper_hexUpper] at hvalue
      rw [Nat.succ.inj hvalue]

end Text

/-! ### Instructions that are jumps -/

theorem Opcode.toByte_of_ofByte? {b : UInt8} {op : Opcode} (h : ofByte? b = some op) :
    b = op.toByte := by
  have hbytes : ∀ i : Fin Opcode.count, all[i].toByte.toNat = i := by decide
  obtain ⟨hlt, hop⟩ := Array.getElem?_eq_some_iff.1 h
  have hbyte := hbytes ⟨b.toNat, hlt⟩
  apply UInt8.toNat_inj.1
  rw [← hop]
  exact hbyte.symm

namespace Opcode

variable {op : Opcode}

theorem size_of_isJump (h : op.isJump = true) : op.size = 3 := by
  revert h
  cases op <;> decide

theorem usesConstant_of_isJump (h : op.isJump = true) : op.usesConstant = false := by
  revert h
  cases op <;> decide

/-- The jumps that a builder emits open. -/
theorem isJump_of_forward (h : op = .jump ∨ op = .jumpIfFalse) :
    op.isJump = true ∧ op ≠ .loop := by
  rcases h with rfl | rfl <;> decide

end Opcode

namespace Chunk

variable {c : Chunk} {n : Nat} {op : Opcode} {typeOf : Value → ValueType}

theorem decodes_iff : c.Decodes n op ↔
    c.code[n]? = some op.toByte ∧ n + op.size ≤ c.code.size := by
  constructor
  · intro h
    obtain ⟨byte, hbyte, -⟩ := id h
    rw [Opcode.toByte_of_ofByte? (h.ofByte? hbyte)] at hbyte
    exact ⟨hbyte, h.fits⟩
  · rintro ⟨hbyte, hfits⟩
    exact ⟨_, hbyte, by simp [instructionAt, Opcode.ofByte?_toByte, hfits]⟩

/-- A jump lies in the code with both its operand bytes. -/
theorem Decodes.fits_of_isJump (h : c.Decodes n op) (hjump : op.isJump = true) :
    n + 3 ≤ c.code.size := by
  rw [← Opcode.size_of_isJump hjump]
  exact h.fits

/-- The distance of a jump is what its two operand bytes say. -/
theorem wordAt_eq {high low : UInt8} (hhigh : c.code[n]? = some high)
    (hlow : c.code[n + 1]? = some low) : c.wordAt n = high.toNat * 256 + low.toNat := by
  rw [wordAt, hhigh, hlow]

/-- A jump goes as far as its operand says from the instruction behind it. -/
theorem Decodes.target_eq (h : c.Decodes n op) (hjump : op.isJump = true) :
    ∃ high low, c.code[n + 1]? = some high ∧ c.code[n + 2]? = some low ∧
      c.target op n = if op = .loop then (n : Int) + 3 - (high.toNat * 256 + low.toNat)
        else (n : Int) + 3 + (high.toNat * 256 + low.toNat) := by
  have hfits := h.fits_of_isJump hjump
  have hhigh : c.code[n + 1]? = some c.code[n + 1] := Array.getElem?_eq_getElem (by omega)
  have hlow : c.code[n + 2]? = some c.code[n + 2] := Array.getElem?_eq_getElem (by omega)
  refine ⟨_, _, hhigh, hlow, ?_⟩
  rw [target, wordAt_eq hhigh hlow, Opcode.size_of_isJump hjump]
  push_cast
  rfl

/-! ### Validation and the listing -/

/-- Validation asks whether the target is in the code, and goes on behind the jump. -/
theorem Decodes.validateFrom_jump (h : c.Decodes n op) (hjump : op.isJump = true) :
    c.validateFrom typeOf n =
      if c.target op n < 0 ∨ c.code.size < c.target op n then
        .error (.targetOutside n op (c.target op n))
      else c.validateFrom typeOf (n + 3) := by
  obtain ⟨byte, hbyte, hinstruction⟩ := id h
  obtain ⟨hlt, rfl⟩ := Array.getElem?_eq_some_iff.1 hbyte
  have hconstant : c.checkConstant typeOf op n = .ok () := by
    rw [checkConstant, Opcode.usesConstant_of_isJump hjump]
    exact if_neg Bool.false_ne_true
  rw [validateFrom, dif_pos hlt, hinstruction]
  dsimp only
  rw [hconstant]
  dsimp only
  by_cases houtside : c.target op n < 0 ∨ c.code.size < c.target op n
  · have htarget : c.checkTarget op n = .error (.targetOutside n op (c.target op n)) := by
      rw [checkTarget, if_pos hjump]
      exact if_pos houtside
    rw [htarget, if_pos houtside]
  · have htarget : c.checkTarget op n = .ok () := by
      rw [checkTarget, if_pos hjump]
      exact if_neg houtside
    rw [htarget, if_neg houtside, Opcode.size_of_isJump hjump]

/-- The row of a jump shows its target. -/
theorem Decodes.row_jump (h : c.Decodes n op) (hjump : op.isJump = true)
    (shown : Value → Text) :
    c.row shown n = (nameColumn op ++ Text.hexUpperInt 4 (c.target op n), 3) := by
  have hsize : Opcode.sizeOfByte op.toByte = 3 := by
    rw [Opcode.sizeOfByte, Opcode.ofByte?_toByte]
    exact Opcode.size_of_isJump hjump
  have hwhole := Nat.not_lt.2 (h.fits_of_isJump hjump)
  rw [row, (decodes_iff.1 h).1]
  simp only [hsize, if_neg hwhole, Opcode.ofByte?_toByte, instructionText,
    Opcode.usesConstant_of_isJump hjump, hjump, Bool.false_eq_true, if_false, if_true]

end Chunk

/-! ### Writing jumps -/

namespace Chunk

variable {c c' : Chunk} {n placeholder : Nat} {op : Opcode}

theorem writeAll_eq (c : Chunk) (bytes : List UInt8) (line : Int64) :
    c.writeAll bytes line =
      { c with code := c.code ++ bytes.toArray,
               lines := c.lines ++ Array.replicate bytes.length line } := by
  induction bytes generalizing c with
  | nil => simp [writeAll]
  | cons b rest ih =>
    have hnext : c.writeAll (b :: rest) line = (c.write b line).writeAll rest line := rfl
    rw [hnext, ih]
    simp [write, Array.replicate_succ']

theorem emit_eq (c : Chunk) (b : UInt8) (operands : List UInt8) (line : Int64) :
    c.emit b operands line =
      { c with code := c.code ++ (b :: operands).toArray,
               lines := c.lines ++ Array.replicate (operands.length + 1) line } :=
  c.writeAll_eq (b :: operands) line

theorem size_emit (c : Chunk) (b : UInt8) (operands : List UInt8) (line : Int64) :
    (c.emit b operands line).code.size = c.code.size + (operands.length + 1) := by
  rw [emit_eq]
  simp

theorem constants_emit (c : Chunk) (b : UInt8) (operands : List UInt8) (line : Int64) :
    (c.emit b operands line).constants = c.constants := by
  rw [emit_eq]

/-- Emission leaves the bytes before it. -/
theorem getElem?_emit_of_lt (h : n < c.code.size) (b : UInt8) (operands : List UInt8)
    (line : Int64) : (c.emit b operands line).code[n]? = c.code[n]? := by
  rw [emit_eq]
  exact Array.getElem?_append_left h

/-- The emitted bytes are those behind the code. -/
theorem getElem?_emit (c : Chunk) (b : UInt8) (operands : List UInt8) (line : Int64) (i : Nat) :
    (c.emit b operands line).code[c.code.size + i]? = (b :: operands)[i]? := by
  rw [emit_eq]
  simp only [Array.getElem?_append_right (Nat.le_add_right _ _), Nat.add_sub_cancel_left,
    List.getElem?_toArray]

theorem size_emit_of_length (c : Chunk) (op : Opcode) {operands : List UInt8} (line : Int64)
    (h : operands.length = op.operandCount) :
    (c.emit op.toByte operands line).code.size = c.code.size + op.size := by
  rw [size_emit, h, Opcode.size, Nat.add_comm 1]

/-- An opcode with all its operands is a whole instruction. -/
theorem decodes_emit (c : Chunk) (op : Opcode) {operands : List UInt8} (line : Int64)
    (h : operands.length = op.operandCount) :
    (c.emit op.toByte operands line).Decodes c.code.size op := by
  refine decodes_iff.2 ⟨c.getElem?_emit op.toByte operands line 0, ?_⟩
  rw [c.size_emit_of_length op line h]

/-- The target of a jump is said by its operand. -/
theorem target_eq_of_operand (hhigh : c'.code[n + 1]? = c.code[n + 1]?)
    (hlow : c'.code[n + 2]? = c.code[n + 2]?) : c'.target op n = c.target op n := by
  rw [target, target, wordAt, wordAt, hhigh, hlow]

theorem distanceBytes_eq {distance : Int} (h : 0 ≤ distance) (hmax : distance ≤ maxDistance) :
    ((distanceBytes distance).1.toNat * 256 + (distanceBytes distance).2.toNat : Int) =
      distance := by
  have hhigh : (distanceBytes distance).1.toNat = distance.toNat / 256 % 256 := rfl
  have hlow : (distanceBytes distance).2.toNat = distance.toNat % 256 := rfl
  rw [maxDistance] at hmax
  rw [hhigh, hlow]
  omega

/-- A chunk with the distance from a placeholder to the end of the code written there. -/
def patched (c : Chunk) (placeholder : Nat) : Chunk :=
  let bytes := distanceBytes (c.code.size - (placeholder + 2))
  { c with
    code := (c.code.setIfInBounds placeholder bytes.1).setIfInBounds (placeholder + 1) bytes.2 }

theorem size_patched (c : Chunk) (placeholder : Nat) :
    (c.patched placeholder).code.size = c.code.size := by
  simp [patched]

theorem getElem?_patched_of_ne (h : n ≠ placeholder) (h' : n ≠ placeholder + 1) :
    (c.patched placeholder).code[n]? = c.code[n]? := by
  simp only [patched]
  rw [Array.getElem?_setIfInBounds_ne h'.symm, Array.getElem?_setIfInBounds_ne h.symm]

/-- A placeholder in the code is patched unless the end of the code is too far from it. -/
theorem patchJump_eq (h : placeholder + 2 ≤ c.code.size) :
    c.patchJump placeholder =
      if c.code.size - (placeholder + 2) ≤ 65535 then .ok (c.patched placeholder)
      else .error (.jumpTooFar (Int64.ofInt (c.code.size - (placeholder + 2)))) := by
  have hdistance : (0 : Int) ≤ c.code.size - (placeholder + 2) := by omega
  by_cases hnear : c.code.size - (placeholder + 2) ≤ 65535
  · have hinside : (0 : Int) ≤ placeholder ∧ (placeholder : Int) < c.code.size := by omega
    have hinside' : (0 : Int) ≤ placeholder + 1 ∧ (placeholder + 1 : Int) < c.code.size := by omega
    have hmax : (c.code.size - (placeholder + 2) : Int) ≤ maxDistance := by
      rw [maxDistance]
      omega
    rw [patchJump, if_pos hnear]
    simp only [hdistance, hmax, and_self, if_true, patch, hinside, bind, Except.bind,
      Array.size_setIfInBounds, hinside']
    rfl
  · have hmax : ¬ (c.code.size - (placeholder + 2) : Int) ≤ maxDistance := by
      rw [maxDistance]
      omega
    rw [patchJump, if_neg hnear]
    simp only [hmax, and_false, if_false]

theorem wordAt_patched (h : placeholder + 2 ≤ c.code.size)
    (hnear : c.code.size - (placeholder + 2) ≤ 65535) :
    ((c.patched placeholder).wordAt placeholder : Int) = c.code.size - (placeholder + 2) := by
  have hhigh : (c.patched placeholder).code[placeholder]? =
      some (distanceBytes (c.code.size - (placeholder + 2))).1 := by
    simp only [patched]
    rw [Array.getElem?_setIfInBounds_ne (by omega), Array.getElem?_setIfInBounds_self_of_lt]
    omega
  have hlow : (c.patched placeholder).code[placeholder + 1]? =
      some (distanceBytes (c.code.size - (placeholder + 2))).2 := by
    simp only [patched]
    rw [Array.getElem?_setIfInBounds_self_of_lt]
    rw [Array.size_setIfInBounds]
    omega
  rw [wordAt_eq hhigh hlow]
  push_cast
  exact distanceBytes_eq (by omega) (by rw [maxDistance]; omega)

/-- The instruction whose operand is patched keeps its opcode. -/
theorem Decodes.patched (h : c.Decodes n op) (placeholder : Nat) (hne : n ≠ placeholder)
    (hne' : n ≠ placeholder + 1) : (c.patched placeholder).Decodes n op := by
  obtain ⟨hbyte, hfits⟩ := decodes_iff.1 h
  exact decodes_iff.2 ⟨by rw [getElem?_patched_of_ne hne hne', hbyte], by rwa [size_patched]⟩

/-- A patched forward jump lands on the end of the code. -/
theorem Decodes.target_patched (h : c.Decodes n op) (hjump : op.isJump = true)
    (hforward : op ≠ .loop) (hnear : c.code.size - (n + 1 + 2) ≤ 65535) :
    (c.patched (n + 1)).target op n = c.code.size := by
  have hfits := h.fits_of_isJump hjump
  rw [target, if_neg hforward, wordAt_patched hfits hnear, Opcode.size_of_isJump hjump]
  push_cast
  omega

/-- A loop is emitted unless its start is too far from its end. -/
theorem emitLoop_eq (c : Chunk) (start : Int) (line : Int64) :
    c.emitLoop start line =
      if 0 ≤ c.code.size + 3 - start ∧ c.code.size + 3 - start ≤ 65535 then
        .ok (c.emit Opcode.loop.toByte [(distanceBytes (c.code.size + 3 - start)).1,
          (distanceBytes (c.code.size + 3 - start)).2] line)
      else .error (.jumpTooFar (Int64.ofInt (c.code.size + 3 - start))) := rfl

/-- An emitted loop goes to its start. -/
theorem target_emitLoop {start : Int} {line : Int64} (h : c.emitLoop start line = .ok c') :
    c'.code.size = c.code.size + 3 ∧ c'.Decodes c.code.size .loop ∧
      c'.target .loop c.code.size = start := by
  rw [emitLoop_eq] at h
  split_ifs at h with hnear
  cases h
  let bytes := distanceBytes (c.code.size + 3 - start)
  have hhigh := c.getElem?_emit Opcode.loop.toByte [bytes.1, bytes.2] line 1
  have hlow := c.getElem?_emit Opcode.loop.toByte [bytes.1, bytes.2] line 2
  refine ⟨c.size_emit _ _ _, c.decodes_emit .loop line rfl, ?_⟩
  have hdistance := distanceBytes_eq hnear.1 hnear.2
  rw [target, if_pos rfl, wordAt_eq hhigh hlow]
  push_cast
  rw [hdistance]
  change ((c.code.size : Int) + 3) - _ = _
  omega

end Chunk

/-! ### Execution -/

variable {s : Execution} {f : Frame} {callers : List Frame} {c : Chunk} {n : Nat} {op : Opcode}
  {α : Type}

/-- What a jump asks for to be taken: a conditional one looks at a falsey value above the callee
slot of its call. -/
def Execution.Takes (s : Execution) (f : Frame) (op : Opcode) : Prop :=
  op = .jumpIfFalse → f.base + 2 ≤ s.machine.stack.size ∧
    ∃ v, s.machine.stack.back? = some v ∧ v.isFalsey = true

namespace Execution.Executes

theorem wideOperand_bind (h : s.Executes f callers c n) {high low : UInt8}
    (hhigh : c.code[n]? = some high) (hlow : c.code[n + 1]? = some low) (k : Nat → ExecM α) :
    (Exec.wideOperand >>= k) s =
      k (high.toNat * 256 + low.toNat) (s.withFrames (f.ahead 2 :: callers)) := by
  have hahead : (f.ahead 1).ahead 1 = f.ahead 2 := by
    simp only [Frame.ahead, Int.add_assoc]
    rfl
  simp only [Exec.wideOperand, bind_assoc, pure_bind]
  rw [h.operand_bind hhigh, h.ahead.operand_bind hlow, hahead]
  rfl

theorem advance_eq (h : s.Executes f callers c n) (distance : Int) :
    Exec.advance distance s =
      .ok () (s.withFrames ({ f with ip := f.ip + distance } :: callers)) := by
  rw [Exec.advance, Exec.modifyFrame, Exec.modifyMachine, modify_apply]
  simp only [h.frames]
  rfl

theorem peek_bind {v : Value} (hv : s.machine.stack.back? = some v) (k : Value → ExecM α) :
    (Exec.peek 0 >>= k) s = k v s := by
  have hsome : s.machine.stack[s.machine.stack.size - 1]? = some v := by
    rwa [← Array.back?_eq_getElem?]
  have hpos : 0 < s.machine.stack.size := by
    have hlt := (Array.getElem?_eq_some_iff.1 hsome).1
    omega
  rw [Exec.peek, bind_assoc, get_bind_apply, if_pos hpos, Nat.sub_zero, hsome, present_bind]

/-- Behind its opcode, a jump that is taken moves on from behind its operand. -/
theorem execute_jump (h : s.Executes f callers c n) {high low : UInt8}
    (hhigh : c.code[n]? = some high) (hlow : c.code[n + 1]? = some low)
    (hjump : op.isJump = true) (htaken : s.Takes f op) (make : Exec.Allocator) :
    Exec.execute make op s = .ok () (s.withFrames
      ({ f with ip := if op = .loop then f.ip + 2 - (high.toNat * 256 + low.toNat)
          else f.ip + 2 + (high.toNat * 256 + low.toNat) } :: callers)) := by
  let behind := s.withFrames (f.ahead 2 :: callers)
  have hbehind : behind.Executes (f.ahead 2) callers c (n + 2) :=
    ⟨rfl, congrArg (· + 2) h.offset, h.code⟩
  cases op with
  | jump =>
    rw [Exec.execute, h.wideOperand_bind hhigh hlow]
    exact hbehind.advance_eq _
  | jumpIfFalse =>
    obtain ⟨-, v, hv, hfalsey⟩ := htaken rfl
    have hv' : behind.machine.stack.back? = some v := hv
    rw [Exec.execute, Exec.jumpIfFalse, h.wideOperand_bind hhigh hlow, peek_bind hv',
      if_pos hfalsey]
    exact hbehind.advance_eq _
  | loop =>
    rw [Exec.execute, h.wideOperand_bind hhigh hlow]
    exact hbehind.advance_eq _
  | _ => cases hjump

/-- A jump that is taken goes on at its target. -/
theorem step_jump (h : s.Executes f callers c n) (hop : c.Decodes n op) (hjump : op.isJump = true)
    (hroom : s.machine.stack.size < s.machine.stackMax) (htaken : s.Takes f op)
    (make : Exec.Allocator) :
    ∃ err, Exec.step make s =
      .ok .running ({ s with err }.withFrames ({ f with ip := c.target op n } :: callers)) := by
  obtain ⟨high, low, hhigh, hlow, htarget⟩ := hop.target_eq hjump
  obtain ⟨err, hfetch⟩ := h.fetch (Chunk.decodes_iff.1 hop).1 hroom
  let fetched : Execution := { s with err }.withFrames (f.ahead 1 :: callers)
  have hfetched : fetched.Executes (f.ahead 1) callers c (n + 1) := ⟨rfl, h.ahead.offset, h.code⟩
  have hdemand : Exec.demand op fetched = .ok () fetched := by
    cases op with
    | jumpIfFalse =>
      have hneeded : ¬ fetched.machine.stack.size < (f.ahead 1).base + 1 + 1 :=
        Nat.not_lt.2 (htaken rfl).1
      change Exec.require .jumpIfFalse 1 fetched = _
      rw [Exec.require, hfetched.frame_bind, get_bind_apply, if_neg hneeded]
      rfl
    | jump => rfl
    | loop => rfl
    | _ => cases hjump
  have hret : op ≠ .ret := by
    rintro rfl
    cases hjump
  have hexecute := hfetched.execute_jump hhigh hlow hjump htaken make
  refine ⟨err, ?_⟩
  rw [Exec.step_eq, bind_apply, hfetch]
  dsimp only
  rw [Opcode.ofByte?_toByte]
  dsimp only
  rw [bind_apply, hdemand]
  dsimp only
  rw [Exec.perform, if_neg hret, bind_apply, hexecute]
  dsimp only
  have hip : (f.ahead 1).ip = (n : Int) + 1 := hfetched.offset
  have hgoes : (if op = .loop then (f.ahead 1).ip + 2 - (high.toNat * 256 + low.toNat)
      else (f.ahead 1).ip + 2 + (high.toNat * 256 + low.toNat)) = c.target op n := by
    rw [htarget, hip]
    split_ifs <;> omega
  rw [hgoes]
  rfl

end Execution.Executes

/-! ### One target for all readers -/

/-- All that read the jump at an offset read the same target. -/
structure Chunk.LeadsTo (c : Chunk) (n : Nat) (op : Opcode) (target : Int) : Prop where
  /-- A run that takes the jump goes on there. -/
  runs : ∀ {s : Execution} {f : Frame} {callers : List Frame}, s.Executes f callers c n →
    s.machine.stack.size < s.machine.stackMax → s.Takes f op → ∀ make, ∃ err,
      Exec.step make s =
        .ok .running ({ s with err }.withFrames ({ f with ip := target } :: callers))
  /-- Validation looks whether it is in the code or right behind it. -/
  validated : ∀ typeOf, c.validateFrom typeOf n =
    if target < 0 ∨ c.code.size < target then .error (.targetOutside n op target)
    else c.validateFrom typeOf (n + 3)
  /-- The listing shows it. -/
  listed : ∀ shown, c.row shown n = (nameColumn op ++ Text.hexUpperInt 4 target, 3)

namespace Chunk

theorem Decodes.leadsTo (h : c.Decodes n op) (hjump : op.isJump = true) :
    c.LeadsTo n op (c.target op n) where
  runs hs hroom htaken make := hs.step_jump h hjump hroom htaken make
  validated _ := h.validateFrom_jump hjump
  listed := h.row_jump hjump

/-- An emitted loop leads to its start. -/
theorem exists_emitLoop {start : Int}
    (hnear : 0 ≤ c.code.size + 3 - start ∧ c.code.size + 3 - start ≤ 65535) (line : Int64) :
    ∃ c', c.emitLoop start line = .ok c' ∧ c'.Decodes c.code.size .loop ∧
      c'.LeadsTo c.code.size .loop start := by
  obtain ⟨c', hloop⟩ : ∃ c', c.emitLoop start line = .ok c' := by
    rw [emitLoop_eq, if_pos hnear]
    exact ⟨_, rfl⟩
  obtain ⟨-, hdecodes, htarget⟩ := target_emitLoop hloop
  exact ⟨c', hloop, hdecodes, htarget ▸ hdecodes.leadsTo rfl⟩

theorem LeadsTo.unique {target target' : Int} (h : c.LeadsTo n op target)
    (h' : c.LeadsTo n op target') : target = target' := by
  have hrow := (h.listed fun _ => []).symm.trans (h'.listed fun _ => [])
  exact Text.hexUpperInt_injective 4 (List.append_cancel_left (Prod.mk.inj hrow).1)

end Chunk

end StackVm
