/-
What validation admits.  The scan accepts the code that decodes whole from its start to its
end, with constants from the pool and jump targets in the code or right behind it.  It does
not ask whether a target is inside an instruction, so that a run may come to execute an
operand; but nothing else than such a jump brings a run to an unknown opcode.
-/
import StackVm.Proofs.Safety

namespace StackVm

namespace Chunk

variable {c : Chunk} {offset n : Nat} {op : Opcode} {typeOf : Value → ValueType}

theorem checkTarget_eq_ok : c.checkTarget op offset = .ok () ↔
    (op.isJump = true → 0 ≤ c.target op offset ∧ c.target op offset ≤ c.code.size) := by
  rw [checkTarget]
  by_cases hjump : op.isJump = true
  · rw [if_pos hjump]
    dsimp only
    split
    · next houtside =>
      refine ⟨fun h => ?_, fun h => ?_⟩
      · cases h
      have hinside := h hjump
      omega
    · next hinside =>
      refine ⟨fun _ _ => ?_, fun _ => rfl⟩
      omega
  · rw [if_neg hjump]
    exact ⟨fun _ h => absurd h hjump, fun _ => rfl⟩

/-- Validation goes on behind a checked instruction. -/
theorem Checked.validateFrom (h : Checked typeOf c offset op) :
    c.validateFrom typeOf offset = c.validateFrom typeOf (offset + op.size) := by
  obtain ⟨⟨byte, hbyte, hinstruction⟩, hconstant, htarget⟩ := h
  obtain ⟨hlt, rfl⟩ := Array.getElem?_eq_some_iff.1 hbyte
  rw [Chunk.validateFrom, dif_pos hlt, hinstruction]
  dsimp only
  rw [hconstant]
  dsimp only
  rw [htarget]

theorem validateFrom_size : c.validateFrom typeOf c.code.size = .ok () := by
  rw [validateFrom, dif_neg (Nat.lt_irrefl _)]

/-- Code is valid where every boundary of its decoding is the end or holds a checked
instruction. -/
theorem validateFrom_of_boundaries
    (h : ∀ n, c.Starts offset n → n = c.code.size ∨ ∃ op, Checked typeOf c n op) :
    c.validateFrom typeOf offset = .ok () := by
  induction hleft : c.code.size - offset using Nat.strongRecOn generalizing offset with
  | _ left ih =>
    rcases h offset .here with rfl | ⟨op, hchecked⟩
    · exact validateFrom_size
    · obtain ⟨byte, hbyte, hinstruction⟩ := hchecked.decodes
      have hpos := op.size_pos
      have hfits := hchecked.decodes.fits
      rw [hchecked.validateFrom]
      exact ih _ (by omega) (fun n hn => h n (.next hbyte hinstruction hn)) rfl

/-- Validation accepts exactly these chunks. -/
theorem validate_eq_ok (typeOf : Value → ValueType) (c : Chunk) :
    c.validate typeOf = .ok () ↔
      c.unlinked = [] ∧ ∀ n, c.Starts 0 n → n = c.code.size ∨
        ∃ op, c.Decodes n op ∧ c.checkConstant typeOf op n = .ok () ∧
          (op.isJump = true → 0 ≤ c.target op n ∧ c.target op n ≤ c.code.size) := by
  constructor
  · intro h
    have hlinked : c.unlinked = [] := by
      rw [validate] at h
      split at h
      · next hlinked => exact hlinked
      · cases h
    refine ⟨hlinked, fun n hn => ?_⟩
    rcases boundary_cases h hn with hend | ⟨_, op, hchecked⟩
    · exact Or.inl hend
    · exact Or.inr ⟨op, hchecked.decodes, hchecked.constant, checkTarget_eq_ok.1 hchecked.target⟩
  · rintro ⟨hlinked, hboundaries⟩
    rw [validate, if_pos hlinked]
    refine validateFrom_of_boundaries fun n hn => (hboundaries n hn).imp_right ?_
    rintro ⟨op, hdecodes, hconstant, htarget⟩
    exact ⟨op, hdecodes, hconstant, checkTarget_eq_ok.2 htarget⟩

theorem checkConstant_congr {typeOf' : Value → ValueType}
    (h : ∀ v ∈ c.constants, typeOf v = typeOf' v) (op : Opcode) (offset : Nat) :
    c.checkConstant typeOf op offset = c.checkConstant typeOf' op offset := by
  rw [checkConstant, checkConstant]
  split
  · dsimp only
    split
    · rfl
    · next v hv => rw [h v (Array.mem_of_getElem? hv)]
  · rfl

/-- Validation asks for the types of the chunk's own constants only. -/
theorem validate_congr {typeOf' : Value → ValueType}
    (h : ∀ v ∈ c.constants, typeOf v = typeOf' v) :
    c.validate typeOf = .ok () ↔ c.validate typeOf' = .ok () := by
  simp only [validate_eq_ok, checkConstant_congr h]

end Chunk

namespace Memory

variable {m : Memory} {f : Function} {c : Chunk}

theorem verifyOne_of_valid (hc : m.chunkOf? f = some c) (hvalid : c.validate m.typeOf = .ok ()) :
    m.verifyOne f = .ok c.constants.toList := by
  rw [verifyOne, hc]
  dsimp only
  rw [hvalid]

theorem verifyOne_of_invalid {e : Chunk.CodeError} (hc : m.chunkOf? f = some c)
    (hinvalid : c.validate m.typeOf = .error e) :
    m.verifyOne f = .error (.invalid f.displayName e) := by
  rw [verifyOne, hc]
  dsimp only
  rw [hinvalid]

end Memory

/-! ### Unknown opcodes -/

variable {s t : Execution} {fn : Option ObjectId} {others : Holdings} {fuel : Nat}
  {byte : UInt8}

/-- Only a jump that is not aligned, in the code of a function the program knows, brings a
run to an unknown opcode. -/
theorem interpret_unknownOpcode (hcapacity : 0 < s.machine.stackMax)
    (hfunction : ∀ id ∈ fn, ∃ f, s.memory.function? id = some f)
    (hvetted : s.memory.Vetted (s.Known fn)) (hopen : s.machine.closed = false)
    {e : RuntimeError} (h : Exec.interpret others fuel fn s = .done .runtimeError t)
    (herror : t.machine.lastError = some (.runtime e)) (hcause : e.cause = .unknownOpcode byte) :
    ∃ id f c, s.Known fn id ∧ s.memory.function? id = some f ∧ s.memory.chunkOf? f = some c ∧
      ∃ offset op, c.Starts 0 offset ∧ c.Decodes offset op ∧ op.isJump = true ∧
        (∀ n, c.Starts 0 n → c.target op offset ≠ n) ∧ c.target op offset ≠ c.code.size := by
  by_contra hnone
  have haligned : s.memory.Aligned (s.Known fn) := by
    intro id f c hid hf hc offset op hstarts hdecodes hjump
    by_contra hmissed
    rw [not_or, not_exists] at hmissed
    exact hnone ⟨id, f, c, hid, hf, hc, offset, op, hstarts, hdecodes, hjump,
      fun n hn htarget => hmissed.1 n ⟨hn, htarget⟩, hmissed.2⟩
  have hadmits : s.Admits fn := ⟨hcapacity, hfunction, hvetted, haligned⟩
  have hharmless := hadmits.harmless hopen others fuel
  rw [h] at hharmless
  cases hharmless with
  | runtimeError herror' hknown =>
    cases herror.symm.trans herror'
    exact hknown byte hcause

/-! ### A jump to an operand -/

/-- Code that jumps to the operand of its second instruction. -/
def detourChunk : Chunk := { code := #[21, 0, 1, 6, 255, 0], lines := #[1, 1, 1, 1, 1, 1] }

/-- A function with this code. -/
def detourSample : Execution :=
  { rareSample with memory := { rareSample.memory with chunks := #[detourChunk] } }

theorem detourChunk_valid (typeOf : Value → ValueType) : detourChunk.validate typeOf = .ok () := by
  have hjump : Chunk.Checked typeOf detourChunk 0 .jump := ⟨⟨21, rfl, rfl⟩, rfl, rfl⟩
  have hlocal : Chunk.Checked typeOf detourChunk 3 .getLocal := ⟨⟨6, rfl, rfl⟩, rfl, rfl⟩
  have hret : Chunk.Checked typeOf detourChunk 5 .ret := ⟨⟨0, rfl, rfl⟩, rfl, rfl⟩
  have hlinked : detourChunk.unlinked = [] := rfl
  rw [Chunk.validate, if_pos hlinked, hjump.validateFrom]
  change detourChunk.validateFrom typeOf 3 = _
  rw [hlocal.validateFrom]
  change detourChunk.validateFrom typeOf 5 = _
  rw [hret.validateFrom]
  exact Chunk.validateFrom_size

theorem detourChunk_starts {n : Nat} (h : detourChunk.Starts 0 n) : n ≠ 4 := by
  -- The decoding goes from 0 to 3 and 5, and ends at 6.
  have hstep : ∀ {offset n : Nat} (op : Opcode), detourChunk.Decodes offset op →
      detourChunk.Starts offset n → n = offset ∨ detourChunk.Starts (offset + op.size) n := by
    intro offset n op hop hn
    cases hn with
    | here => exact Or.inl rfl
    | next hbyte hinstruction hrest =>
      exact Or.inr (hop.unique ⟨_, hbyte, hinstruction⟩ ▸ hrest)
  rcases hstep .jump ⟨21, rfl, rfl⟩ h with rfl | h
  · decide
  rcases hstep .getLocal ⟨6, rfl, rfl⟩ h with rfl | h
  · decide
  rcases hstep .ret ⟨0, rfl, rfl⟩ h with rfl | h
  · decide
  · cases h with
    | here => decide
    | next hbyte => cases hbyte

theorem detourChunk_not_aligned : ¬ detourChunk.Aligned := by
  intro h
  rcases h 0 .jump .here ⟨21, rfl, rfl⟩ rfl with ⟨n, hn, htarget⟩ | hend
  · exact detourChunk_starts hn (Int.ofNat.inj htarget).symm
  · exact absurd hend (by decide)

theorem detourSample_verify : detourSample.memory.verify 0 =
    (detourSample.memory.setVerified 0, none) := by
  have hf : detourSample.memory.function? 0 = some { chunk := some 0 } := rfl
  have hone : detourSample.memory.verifyOne { chunk := some 0 } = .ok [] :=
    Memory.verifyOne_of_valid rfl (detourChunk_valid _)
  have hsearch : detourSample.memory.verifySearch [] [] [.enter 0] = ([0], none) := by
    rw [Memory.verifySearch_enter_some hf, if_neg (by decide), hone]
    change detourSample.memory.verifySearch [0] [] [.leave 0] = _
    rw [Memory.verifySearch, Memory.verifySearch]
  rw [Memory.verify_eq, if_neg (by decide), hsearch]
  rfl

/-- The same with the function entered, at an offset of its code. -/
def detourAt (ip : Int) : Execution :=
  { detourSample with
    memory := detourSample.memory.setVerified 0
    machine := { detourSample.machine with stack := #[.object 0], frames := [⟨0, ip, 0⟩] } }

theorem detourSample_interpret (make : Exec.Allocator) :
    Exec.interpretWith make 2 (some 0) detourSample =
      .done .runtimeError (Exec.abandon (detourAt 5) (.unknownOpcode 255)) := by
  have hopen : detourSample.machine.closed = false := rfl
  have henter : Exec.enter 0 { detourSample with
      memory := detourSample.memory.setVerified 0
      machine := Exec.restart detourSample.machine } = .ok () (detourAt 0) := rfl
  have hjump : Exec.step make (detourAt 0) = .ok .running (detourAt 4) := rfl
  have hoperand : Exec.step make (detourAt 4) =
      .error (.raised (.unknownOpcode 255)) (detourAt 5) := rfl
  rw [Exec.interpretWith, hopen]
  dsimp only
  rw [detourSample_verify]
  simp only [Bool.false_eq_true, if_false]
  rw [henter]
  dsimp only
  rw [Exec.runWith, hjump]
  dsimp only
  rw [Exec.runWith, hoperand]

/-- Validation admits the code, but a run executes the operand. -/
theorem detourSample_executes_operand :
    detourChunk.validate detourSample.memory.typeOf = .ok () ∧ ¬ detourChunk.Aligned ∧
      (detourSample.memory.verify 0).2 = none ∧
      ∃ t, Exec.interpret (.of fun _ => []) 2 (some 0) detourSample = .done .runtimeError t ∧
        t.machine.lastError = some (.runtime ⟨.unknownOpcode 255, [⟨[], 1⟩]⟩) := by
  refine ⟨detourChunk_valid _, detourChunk_not_aligned, ?_, _, detourSample_interpret _, rfl⟩
  rw [detourSample_verify]

/-- What the theorem on unknown opcodes says about this run. -/
theorem interpret_unknownOpcode_detourSample :
    (∃ t, Exec.interpret (.of fun _ => []) 2 (some 0) detourSample = .done .runtimeError t) ∧
      ∃ id f c, detourSample.Known (some 0) id ∧ detourSample.memory.function? id = some f ∧
        detourSample.memory.chunkOf? f = some c ∧
        ∃ offset op, c.Starts 0 offset ∧ c.Decodes offset op ∧ op.isJump = true ∧
          (∀ n, c.Starts 0 n → c.target op offset ≠ n) ∧ c.target op offset ≠ c.code.size := by
  refine ⟨⟨_, detourSample_interpret _⟩, ?_⟩
  have honly : ∀ id f, detourSample.memory.function? id = some f → f = { chunk := some 0 } := by
    intro id f hf
    match id, hf with
    | 0, hf => exact (Option.some.inj hf).symm
  have hfunction : ∀ id ∈ some 0, ∃ f, detourSample.memory.function? id = some f := by
    intro id hid
    cases hid
    exact ⟨_, rfl⟩
  have hvetted : detourSample.memory.Vetted (detourSample.Known (some 0)) := by
    intro id f _ hf hverified
    rw [honly id f hf] at hverified
    cases hverified
  have hcapacity : 0 < detourSample.machine.stackMax := Machine.create_capacity rareSample_create
  exact interpret_unknownOpcode hcapacity hfunction hvetted rfl
    (detourSample_interpret (Exec.alloc (.of fun _ => []))) rfl rfl

end StackVm
