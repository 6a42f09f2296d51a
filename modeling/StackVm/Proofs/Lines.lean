/-
Lines of instructions.  A builder writes a whole instruction under one line, and patching a jump
leaves the lines, so that in code that was built with care all bytes of an instruction have the
same line.
-/
import StackVm.Proofs.Emission

namespace StackVm

namespace Chunk

/-- All bytes of one instruction have the same line. -/
def Lined (c : Chunk) : Prop :=
  ∀ n op i, c.Starts 0 n → c.Decodes n op → i < op.size → c.lineAt (n + i : Nat) = c.lineAt n

variable {c c' : Chunk} {n i : Nat} {op : Opcode} {operands : List UInt8} {line : Int64}
  {typeOf : Value → ValueType} {waiting : Nat → Prop}

theorem lineAt_natCast (c : Chunk) (n : Nat) : c.lineAt n = c.lines[n]?.getD 0 := by
  rw [lineAt, if_neg (Int.not_lt.2 (Int.natCast_nonneg n)), Int.toNat_natCast]

theorem lined_new : Lined {} := by
  intro n op i _ hop _
  have hfits := hop.fits
  have hpos := op.size_pos
  rw [Array.size_empty] at hfits
  omega

/-- Code with the same lines stays lined where its boundaries hold the same instructions. -/
theorem Lined.of_kept (h : c.Lined) (hlines : c'.lines = c.lines)
    (hkept : ∀ n op, c.Starts 0 n → (c'.Decodes n op ↔ c.Decodes n op)) : c'.Lined := by
  intro n op i hn hop hi
  rw [starts_congr hkept] at hn
  rw [lineAt_congr hlines, lineAt_congr hlines]
  exact h n op i hn ((hkept n op hn).1 hop) hi

theorem Lined.pool (h : c.Lined) (constants : Array Value) : Lined { c with constants } :=
  h.of_kept rfl fun _ _ _ => decodes_pool

theorem Lined.patched (h : c.Lined) (hn : c.Starts 0 n) (hop : c.Decodes n op)
    (hjump : op.isJump = true) : (c.patched (n + 1)).Lined := by
  refine h.of_kept rfl fun n' op' hn' => ?_
  obtain ⟨hne, hne'⟩ := hn.beside hop hjump hn'
  rw [decodes_iff, decodes_iff, getElem?_patched_of_ne hne hne', size_patched]

/-! ### Emitted instructions -/

theorem lineAt_emit_of_lt (hlines : c.lines.size = c.code.size) (h : n < c.code.size) (b : UInt8)
    (operands : List UInt8) (line : Int64) : (c.emit b operands line).lineAt n = c.lineAt n := by
  rw [lineAt_natCast, lineAt_natCast, emit_eq, Array.getElem?_append_left (hlines ▸ h)]

theorem lineAt_emit (hlines : c.lines.size = c.code.size) (b : UInt8) (line : Int64)
    (hi : i ≤ operands.length) :
    (c.emit b operands line).lineAt (c.code.size + i : Nat) = line := by
  rw [lineAt_natCast, emit_eq, ← hlines, Array.getElem?_append_right (Nat.le_add_right _ _),
    Nat.add_sub_cancel_left, Array.getElem?_replicate, if_pos (Nat.lt_succ_of_le hi)]
  rfl

/-- Lined code stays so when an instruction is emitted under one line. -/
theorem Lined.emit (h : c.Lined) (hlaid : c.Laid typeOf waiting)
    (hcount : operands.length = op.operandCount) : (c.emit op.toByte operands line).Lined := by
  intro n inner i hn hinner hi
  have hfits := hinner.fits
  have hpos := inner.size_pos
  rw [c.size_emit_of_length op line hcount] at hfits
  rcases (starts_emit hlaid.whole hcount).1 hn with hn | rfl
  · rcases Nat.lt_or_eq_of_le (hn.le_size hlaid.whole) with hlt | rfl
    · obtain ⟨other, hother, -⟩ := hn.until hlaid.whole hlt
      cases hinner.unique (hother.emit _ _ _)
      have hfits := hother.fits
      rw [lineAt_emit_of_lt hlaid.lines (by omega), lineAt_emit_of_lt hlaid.lines hlt]
      exact h n inner i hn hother hi
    · cases hinner.unique (c.decodes_emit op line hcount)
      rw [Opcode.size, ← hcount, Nat.add_comm] at hi
      have hfirst := lineAt_emit hlaid.lines op.toByte line (Nat.zero_le operands.length)
      rw [lineAt_emit hlaid.lines op.toByte line (Nat.le_of_lt_succ hi)]
      exact hfirst.symm
  · omega

/-- Valid code of whole instructions, each under one line, with jumps that go to boundaries. -/
structure Built (typeOf : Value → ValueType) (c : Chunk) : Prop where
  laid : c.Laid typeOf fun _ => False
  lined : c.Lined

theorem built_new : Built typeOf {} := ⟨laid_new, lined_new⟩

theorem Built.aligned (h : c.Built typeOf) : c.Aligned := by
  intro n op hn hop hjump
  rcases h.laid.placed hn with rfl | ⟨other, hplaced⟩
  · have hfits := hop.fits
    have hpos := op.size_pos
    omega
  · cases hop.unique hplaced.decodes
    exact Or.inl ((hplaced.jump hjump).resolve_left id)

theorem Built.validate (h : c.Built typeOf) : c.validate typeOf = .ok () :=
  h.laid.validate fun _ => id

/-- An instruction that does not jump is emitted, with a constant from the pool if it uses one. -/
theorem Built.emit (h : c.Built typeOf) (op : Opcode) (operands : List UInt8) (line : Int64)
    (hcount : operands.length = op.operandCount) (hjump : op.isJump = false)
    (hconstant : op.usesConstant = true → ∃ i v, operands = [i] ∧
      c.constants[i.toNat]? = some v ∧ (op.usesName = true → typeOf v = .string)) :
    (c.emit op.toByte operands line).Built typeOf := by
  refine ⟨h.laid.emit hcount (fun _ => id) hconstant fun hop => ?_, h.lined.emit h.laid hcount⟩
  cases hjump.symm.trans hop

end Chunk

namespace Draft

variable {m m' : Memory} {d d' : Draft}

theorem lined_pooling (h : d.chunk.Lined) (m : Memory) (v : Value) :
    (d.pooling m v).chunk.Lined := by
  obtain ⟨constants, hchunk, -⟩ := d.chunk.addConstant_eq m.equal v
  rw [Draft.pooling, hchunk]
  exact h.pool constants

/-- A careful call leaves instructions with one line each. -/
theorem Sound.lined {call : Call} (hd : d.Sound m.typeOf) (hcall : Careful m d call)
    (h : d.chunk.Lined) : (d.after m call).chunk.Lined := by
  cases call with
  | addConstant v => exact lined_pooling h m v
  | emitConstant v line =>
    rw [after_emitConstant]
    dsimp only
    split_ifs
    · exact (lined_pooling h m v).emit (hd.pooling v).1.laid rfl
    · exact lined_pooling h m v
  | emit b operands line =>
    obtain ⟨op, rfl, -, hcount, -⟩ := hcall
    exact h.emit hd.laid hcount
  | emitJump b line =>
    obtain ⟨op, rfl, hop⟩ := hcall
    rw [after_emitJump]
    refine h.emit hd.laid ?_
    rcases hop with rfl | rfl <;> rfl
  | patchJump placeholder =>
    obtain ⟨b, hp⟩ := hcall
    obtain ⟨n, op, rfl, hn, hop, hjump, -⟩ := hd.jumps hp
    rw [after_patchJump m (hop.fits_of_isJump hjump)]
    split_ifs
    · exact h.patched hn hop hjump
    · exact h
  | emitLoop start line =>
    rcases after_emitLoop m d start line with ⟨operands, hcount, -, heq⟩ | heq
    · rw [heq]
      exact h.emit hd.laid hcount
    · rwa [heq]
  | mark => exact h

theorem Runs.lined (h : Runs Careful m d m' d') (hd : d.Sound m.typeOf) (hl : d.chunk.Lined) :
    d'.chunk.Lined := by
  induction h with
  | start => exact hl
  | call hbefore hcall ih => exact (hbefore.sound hd).lined hcall ih
  | wait _ _ ih => exact ih

/-- What was built with care is built code once all its jumps are patched. -/
theorem emitted_built (h : Runs Careful m {} m' d)
    (hpatched : ∀ p b, (p, b) ∈ d.jumps → p ∈ d.patched) : d.chunk.Built m'.typeOf := by
  have hlaid := (h.sound sound_new).laid
  refine ⟨{ hlaid with placed := fun hn => ?_ }, h.lined sound_new Chunk.lined_new⟩
  refine (hlaid.placed hn).imp_right ?_
  rintro ⟨op, hplaced⟩
  refine ⟨op, hplaced.decodes, hplaced.constant, fun hjump => (hplaced.jump hjump).imp_left ?_⟩
  rintro ⟨⟨b, hb⟩, hopen⟩
  exact hopen (hpatched _ b hb)

end Draft

namespace Memory

variable {m n : Memory} {among : ObjectId → Prop}

/-- The code of the functions among these objects has one line for each instruction. -/
def Lined (m : Memory) (among : ObjectId → Prop) : Prop :=
  ∀ id f c, among id → m.function? id = some f → m.chunkOf? f = some c → c.Lined

theorem Lined.evolve (hm : m.Lined among) (h : m.Evolves n) : n.Lined among := by
  intro id f c hid hf hc
  obtain ⟨g, hg, hchunk, _⟩ := h.function hf
  rw [h.chunkOf? hchunk] at hc
  exact hm id g c hid hg hc

end Memory

end StackVm
