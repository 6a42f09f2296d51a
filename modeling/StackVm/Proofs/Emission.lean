/-
Code that a builder emits.  Whole instructions lie one behind the other, and each of their jumps
goes to one of them, to the end of the code, or waits to be patched.  Where no jump waits any
more, validation admits the code.
-/
import StackVm.Proofs.Drafts

namespace StackVm

namespace Chunk

variable {c c' : Chunk} {offset n n' : Nat} {op : Opcode} {operands : List UInt8} {line : Int64}
  {typeOf typeOf' : Value → ValueType} {waiting waiting' : Nat → Prop}

/-! ### Boundaries of growing code -/

/-- What holds of the first boundary, and of the one behind each boundary of which it holds, holds
of all of them. -/
theorem Starts.forward {P : Nat → Prop} (h : c.Starts offset n) (hfirst : P offset)
    (hnext : ∀ n op, c.Starts offset n → P n → c.Decodes n op → P (n + op.size)) : P n := by
  induction h with
  | here => exact hfirst
  | next hbyte hinstruction _ ih =>
    exact ih (hnext _ _ .here hfirst ⟨_, hbyte, hinstruction⟩)
      fun n op hn => hnext n op (.next hbyte hinstruction hn)

theorem Starts.le (h : c.Starts offset n) : offset ≤ n :=
  h.forward (Nat.le_refl _) fun _ _ _ hle _ => Nat.le_add_right_of_le hle

/-- Between two boundaries the code decodes from the first one on. -/
theorem Starts.until (h : c.Starts offset n) (h' : c.Starts offset n') (hlt : n < n') :
    ∃ op, c.Decodes n op ∧ c.Starts (n + op.size) n' := by
  induction h with
  | here =>
    cases h' with
    | here => exact absurd hlt (Nat.lt_irrefl _)
    | next hbyte hinstruction hrest => exact ⟨_, ⟨_, hbyte, hinstruction⟩, hrest⟩
  | next hbyte hinstruction hrest ih =>
    cases h' with
    | here =>
      have hle := hrest.le
      omega
    | next hbyte' hinstruction' hrest' =>
      cases Decodes.unique ⟨_, hbyte, hinstruction⟩ ⟨_, hbyte', hinstruction'⟩
      exact ih hrest' hlt

/-- The next boundary is behind the instruction. -/
theorem Starts.add_size_le (h : c.Starts offset n) (hop : c.Decodes n op)
    (h' : c.Starts offset n') (hlt : n < n') : n + op.size ≤ n' := by
  obtain ⟨other, hother, hrest⟩ := h.until h' hlt
  cases hop.unique hother
  exact hrest.le

theorem Starts.le_size (h : c.Starts 0 n) (hwhole : c.Starts 0 c.code.size) :
    n ≤ c.code.size := by
  by_contra hlt
  obtain ⟨op, hop, -⟩ := hwhole.until h (Nat.lt_of_not_le hlt)
  have hfits := hop.fits
  have hpos := op.size_pos
  omega

/-- No boundary is inside a jump. -/
theorem Starts.beside (h : c.Starts 0 n) (hop : c.Decodes n op) (hjump : op.isJump = true)
    (h' : c.Starts 0 n') : n' ≠ n + 1 ∧ n' ≠ n + 1 + 1 := by
  have hnext := h.add_size_le hop h'
  rw [Opcode.size_of_isJump hjump] at hnext
  omega

theorem starts_congr (h : ∀ n op, c.Starts 0 n → (c'.Decodes n op ↔ c.Decodes n op)) :
    c'.Starts 0 n ↔ c.Starts 0 n := by
  constructor
  · intro hn
    exact hn.forward .here fun n op _ hn hop => hn.snoc ((h n op hn).1 hop)
  · intro hn
    exact hn.forward .here fun n op hn hn' hop => hn'.snoc ((h n op hn).2 hop)

theorem Decodes.emit (h : c.Decodes n op) (b : UInt8) (operands : List UInt8) (line : Int64) :
    (c.emit b operands line).Decodes n op := by
  obtain ⟨hbyte, hfits⟩ := decodes_iff.1 h
  have hpos := op.size_pos
  refine decodes_iff.2 ⟨?_, ?_⟩
  · rw [getElem?_emit_of_lt (by omega), hbyte]
  · rw [size_emit]
    omega

/-- An emitted instruction adds the boundary behind it. -/
theorem starts_emit (hwhole : c.Starts 0 c.code.size) (hcount : operands.length = op.operandCount) :
    (c.emit op.toByte operands line).Starts 0 n ↔ c.Starts 0 n ∨ n = c.code.size + op.size := by
  have hnew := c.decodes_emit op line hcount
  have hold : ∀ n, c.Starts 0 n → (c.emit op.toByte operands line).Starts 0 n := fun n hn =>
    hn.forward .here fun _ _ _ hn hop => hn.snoc (hop.emit _ _ _)
  constructor
  · intro hn
    refine hn.forward (P := fun n => c.Starts 0 n ∨ n = c.code.size + op.size) (Or.inl .here)
      fun n op' _ hn hop' => ?_
    -- From a boundary of the old code the decoding goes on as before, up to its end.
    rcases hn with hn | rfl
    · rcases Nat.lt_or_eq_of_le (hn.le_size hwhole) with hlt | rfl
      · obtain ⟨inner, hinner, -⟩ := hn.until hwhole hlt
        cases hop'.unique (hinner.emit _ _ _)
        exact Or.inl (hn.snoc hinner)
      · cases hop'.unique hnew
        exact Or.inr rfl
    · have hfits := hop'.fits
      have hpos := op'.size_pos
      rw [c.size_emit_of_length op line hcount] at hfits
      omega
  · rintro (hn | rfl)
    · exact hold n hn
    · exact (hold _ hwhole).snoc hnew

/-- A patched jump leaves the boundaries. -/
theorem starts_patched (h : c.Starts 0 n) (hop : c.Decodes n op) (hjump : op.isJump = true) :
    (c.patched (n + 1)).Starts 0 n' ↔ c.Starts 0 n' := by
  refine starts_congr fun n' op' hn' => ?_
  obtain ⟨hne, hne'⟩ := h.beside hop hjump hn'
  rw [decodes_iff, decodes_iff, getElem?_patched_of_ne hne hne', size_patched]

/-! ### Constants -/

theorem checkConstant_eq_ok : c.checkConstant typeOf op n = .ok () ↔
    (op.usesConstant = true → ∃ v, c.constants[(c.code[n + 1]?.getD 0).toNat]? = some v ∧
      (op.usesName = true → typeOf v = .string)) := by
  rw [checkConstant]
  by_cases huses : op.usesConstant = true
  · rw [if_pos huses]
    dsimp only
    split
    · next hnone => simp [huses, hnone]
    · next v hv => simp [huses, hv]
  · rw [if_neg huses]
    exact ⟨fun _ h => absurd h huses, fun _ => rfl⟩

/-- A checked constant stays one where its operand and the pool are kept, and strings are. -/
theorem checkConstant_of_kept (h : c.checkConstant typeOf op n = .ok ())
    (hoperand : op.usesConstant = true → c'.code[n + 1]? = c.code[n + 1]?)
    (hconstants : ∀ (i : Nat) v, c.constants[i]? = some v → c'.constants[i]? = some v)
    (hstrings : ∀ v ∈ c.constants, typeOf v = .string → typeOf' v = .string) :
    c'.checkConstant typeOf' op n = .ok () := by
  rw [checkConstant_eq_ok] at h ⊢
  intro huses
  obtain ⟨v, hv, hname⟩ := h huses
  rw [hoperand huses]
  exact ⟨v, hconstants _ _ hv, fun huses' => hstrings v (Array.mem_of_getElem? hv) (hname huses')⟩

/-- Adding a constant does nothing but add it. -/
theorem addConstant_eq (same : Value → Value → Bool) (c : Chunk) (v : Value) :
    ∃ constants, (c.addConstant same v).1 = { c with constants } ∧
      (∀ (i : Nat) e, c.constants[i]? = some e → constants[i]? = some e) ∧
      ∃ e, constants[(c.addConstant same v).2]? = some e ∧ (e = v ∨ same e v = true) := by
  obtain ⟨i, e, he, hsame, heq⟩ | ⟨-, heq⟩ := c.addConstant_cases same v
  · rw [heq]
    exact ⟨c.constants, rfl, fun _ _ he => he, e, he, Or.inr hsame⟩
  · have hgrows := c.grows_addConstant same v
    rw [heq] at hgrows ⊢
    exact ⟨_, rfl, fun _ _ he => hgrows.constants he, v, Array.getElem?_push_size, Or.inl rfl⟩

/-! ### Code laid by a builder -/

/-- The jump at an offset goes to a boundary. -/
def Lands (c : Chunk) (n : Nat) (op : Opcode) : Prop :=
  ∃ t : Nat, c.Starts 0 t ∧ c.target op n = t

theorem Lands.of_kept (h : c.Lands n op) (hstarts : ∀ t, c.Starts 0 t → c'.Starts 0 t)
    (hhigh : c'.code[n + 1]? = c.code[n + 1]?) (hlow : c'.code[n + 2]? = c.code[n + 2]?) :
    c'.Lands n op := by
  obtain ⟨t, ht, htarget⟩ := h
  rw [← target_eq_of_operand hhigh hlow] at htarget
  exact ⟨t, hstarts t ht, htarget⟩

/-- A whole instruction that uses the pool rightly.  If it is a jump it goes to a boundary, or its
operand is `waiting` to be patched. -/
structure Placed (typeOf : Value → ValueType) (waiting : Nat → Prop) (c : Chunk) (n : Nat)
    (op : Opcode) : Prop where
  decodes : c.Decodes n op
  constant : c.checkConstant typeOf op n = .ok ()
  jump : op.isJump = true → waiting (n + 1) ∨ c.Lands n op

/-- What an instruction is placed by is in its own bytes, the pool and the boundaries. -/
theorem Placed.of_kept (h : Placed typeOf waiting c n op) (hdecodes : c'.Decodes n op)
    (hcode : ∀ i, 0 < i → i < op.size → c'.code[n + i]? = c.code[n + i]?)
    (hconstants : ∀ (i : Nat) v, c.constants[i]? = some v → c'.constants[i]? = some v)
    (hstrings : ∀ v ∈ c.constants, typeOf v = .string → typeOf' v = .string)
    (hstarts : ∀ t, c.Starts 0 t → c'.Starts 0 t)
    (hwaiting : waiting (n + 1) → waiting' (n + 1)) : Placed typeOf' waiting' c' n op where
  decodes := hdecodes
  constant := by
    refine checkConstant_of_kept h.constant (fun huses => ?_) hconstants hstrings
    have hpos := Opcode.operandCount_pos huses
    exact hcode 1 Nat.one_pos (by rw [Opcode.size]; omega)
  jump hop := by
    have hsize := Opcode.size_of_isJump hop
    refine (h.jump hop).imp hwaiting fun hlands => ?_
    exact hlands.of_kept hstarts (hcode 1 (by omega) (by omega)) (hcode 2 (by omega) (by omega))

/-- Placed instructions lie one behind the other, with a line for each byte. -/
structure Laid (typeOf : Value → ValueType) (waiting : Nat → Prop) (c : Chunk) : Prop where
  linked : c.unlinked = []
  lines : c.lines.size = c.code.size
  whole : c.Starts 0 c.code.size
  placed : ∀ {n : Nat}, c.Starts 0 n → n = c.code.size ∨ ∃ op, Placed typeOf waiting c n op

theorem laid_new : Laid typeOf waiting {} where
  linked := rfl
  lines := rfl
  whole := .here
  placed hn := Or.inl (Nat.le_zero.1 (hn.le_size .here))

theorem decodes_pool {constants : Array Value} :
    Decodes { c with constants } n op ↔ c.Decodes n op := by
  rw [decodes_iff, decodes_iff]

theorem starts_pool {constants : Array Value} :
    Starts { c with constants } 0 n ↔ c.Starts 0 n :=
  starts_congr fun _ _ _ => decodes_pool

/-- More constants, and other types, leave laid code. -/
theorem Laid.pool (h : c.Laid typeOf waiting) {constants : Array Value}
    (hconstants : ∀ (i : Nat) v, c.constants[i]? = some v → constants[i]? = some v)
    (hstrings : ∀ v ∈ c.constants, typeOf v = .string → typeOf' v = .string) :
    Laid typeOf' waiting { c with constants } := by
  refine ⟨h.linked, h.lines, starts_pool.2 h.whole, fun hn => ?_⟩
  rcases h.placed (starts_pool.1 hn) with hend | ⟨op, hplaced⟩
  · exact Or.inl hend
  · exact Or.inr ⟨op, hplaced.of_kept (decodes_pool.2 hplaced.decodes) (fun _ _ _ => rfl)
      hconstants hstrings (fun _ => starts_pool.2) id⟩

/-- Laid code stays so when a placed instruction is emitted. -/
theorem Laid.emit (h : c.Laid typeOf waiting) (hcount : operands.length = op.operandCount)
    (hwaiting : ∀ p, waiting p → waiting' p)
    (hconstant : op.usesConstant = true → ∃ i v, operands = [i] ∧
      c.constants[i.toNat]? = some v ∧ (op.usesName = true → typeOf v = .string))
    (hjump : op.isJump = true → waiting' (c.code.size + 1) ∨ ∃ t : Nat, c.Starts 0 t ∧
      (c.emit op.toByte operands line).target op c.code.size = t) :
    (c.emit op.toByte operands line).Laid typeOf waiting' := by
  have hstarts : ∀ {n}, (c.emit op.toByte operands line).Starts 0 n ↔
      c.Starts 0 n ∨ n = c.code.size + op.size := starts_emit h.whole hcount
  have hsize := c.size_emit_of_length op line hcount
  refine ⟨by rw [emit_eq, h.linked], by rw [emit_eq]; simp [h.lines], ?_, fun hn => ?_⟩
  · rw [hsize]
    exact hstarts.2 (Or.inr rfl)
  rcases hstarts.1 hn with hn | rfl
  · right
    -- Where the code ended before, the new instruction starts.
    rcases h.placed hn with rfl | ⟨inner, hinner⟩
    · refine ⟨op, c.decodes_emit op line hcount, checkConstant_eq_ok.2 fun huses => ?_,
        fun hop => (hjump hop).imp_right fun hlands => ?_⟩
      · obtain ⟨i, v, rfl, hv, hname⟩ := hconstant huses
        rw [c.getElem?_emit op.toByte [i] line 1, constants_emit]
        exact ⟨v, hv, hname⟩
      · obtain ⟨t, ht, htarget⟩ := hlands
        exact ⟨t, hstarts.2 (Or.inl ht), htarget⟩
    · have hfits := hinner.decodes.fits
      refine ⟨inner, hinner.of_kept (hinner.decodes.emit _ _ _) (fun i _ hi => ?_) ?_
        (fun _ _ hv => hv) (fun t ht => hstarts.2 (Or.inl ht)) (hwaiting _)⟩
      · exact getElem?_emit_of_lt (by omega) _ _ _
      · rw [constants_emit]
        exact fun _ _ hv => hv
  · exact Or.inl hsize.symm

/-- Laid code stays so when a jump of it is patched, and that jump waits no more. -/
theorem Laid.patched (h : c.Laid typeOf waiting) (hn : c.Starts 0 n) (hop : c.Decodes n op)
    (hjump : op.isJump = true) (hforward : op ≠ .loop)
    (hwaiting : ∀ p, p ≠ n + 1 → waiting p → waiting' p)
    (hnear : c.code.size - (n + 1 + 2) ≤ 65535) :
    (c.patched (n + 1)).Laid typeOf waiting' := by
  have hstarts : ∀ {n'}, (c.patched (n + 1)).Starts 0 n' ↔ c.Starts 0 n' :=
    starts_patched hn hop hjump
  have hwhole : (c.patched (n + 1)).Starts 0 c.code.size := hstarts.2 h.whole
  refine ⟨h.linked, ?_, ?_, fun {n'} hn' => ?_⟩
  · rw [size_patched]
    exact h.lines
  · rwa [size_patched]
  rw [hstarts] at hn'
  rw [size_patched]
  rcases h.placed hn' with hend | ⟨inner, hinner⟩
  · exact Or.inl hend
  obtain ⟨hne, hne'⟩ := hn.beside hop hjump hn'
  refine Or.inr ⟨inner, ?_⟩
  -- The jump itself goes to the end now; all others lie beside its operand.
  by_cases hsame : n' = n
  · subst hsame
    cases hop.unique hinner.decodes
    refine ⟨hop.patched _ hne hne', checkConstant_eq_ok.2 fun huses => ?_, fun _ => Or.inr ?_⟩
    · rw [Opcode.usesConstant_of_isJump hjump] at huses
      cases huses
    · exact ⟨_, hwhole, hop.target_patched hjump hforward hnear⟩
  · have hbefore := hn'.add_size_le hinner.decodes hn
    have hbehind := hn.add_size_le hop hn'
    rw [Opcode.size_of_isJump hjump] at hbehind
    refine hinner.of_kept (hinner.decodes.patched _ hne hne') (fun i hpos hi => ?_)
      (fun _ _ hv => hv) (fun _ _ hv => hv) (fun _ => hstarts.2) (hwaiting _ (by omega))
    exact getElem?_patched_of_ne (by omega) (by omega)

/-- Laid code in which no jump waits is valid. -/
theorem Laid.validate (h : c.Laid typeOf waiting) (hnone : ∀ p, ¬ waiting p) :
    c.validate typeOf = .ok () := by
  refine (validate_eq_ok typeOf c).2 ⟨h.linked, fun n hn => ?_⟩
  rcases h.placed hn with hend | ⟨op, hplaced⟩
  · exact Or.inl hend
  refine Or.inr ⟨op, hplaced.decodes, hplaced.constant, fun hop => ?_⟩
  obtain ⟨t, ht, htarget⟩ := (hplaced.jump hop).resolve_left (hnone _)
  have hle := ht.le_size h.whole
  omega

end Chunk

theorem Memory.equal_eq_true {m : Memory} {v w : Value} (h : m.equal v w = true) :
    v = w ∨ m.typeOf v = .string := by
  refine (equal_eq_true_iff.1 h).imp_right ?_
  rintro ⟨a, b, data, rfl, rfl, ha, -⟩
  rw [typeOf_object, string?_eq_some.1 ha]
  rfl

namespace Draft

variable {m m' : Memory} {d d' : Draft} {op : Opcode} {typeOf typeOf' : Value → ValueType}

/-- Whole instructions are emitted, with constants that were added before, strings for names.
Jumps are emitted open and patched later; loops go back to where the code has ended. -/
def Careful (m : Memory) (d : Draft) : Call → Prop
  | .addConstant _ | .emitConstant _ _ | .mark => True
  | .emit b operands _ => ∃ op : Opcode, b = op.toByte ∧ op.isJump = false ∧
      operands.length = op.operandCount ∧
      (op.usesConstant = true → ∃ i v, (i, v) ∈ d.indices ∧ i < Chunk.maxConstants ∧
        operands = [i.toUInt8] ∧ (op.usesName = true → m.typeOf v = .string))
  | .emitJump b _ => ∃ op : Opcode, b = op.toByte ∧ (op = .jump ∨ op = .jumpIfFalse)
  | .patchJump placeholder => ∃ b, (placeholder, b) ∈ d.jumps
  | .emitLoop start _ => ∃ n ∈ d.marks, start = n

/-- The placeholder was given out and has not been patched. -/
def Waits (d : Draft) (placeholder : Nat) : Prop :=
  (∃ b, (placeholder, b) ∈ d.jumps) ∧ placeholder ∉ d.patched

/-- What a careful builder has been given stands for what is in the code.  Under an index there may
be another string than the one that was added, equal to it. -/
structure Sound (typeOf : Value → ValueType) (d : Draft) : Prop where
  laid : d.chunk.Laid typeOf d.Waits
  starts : ∀ {n : Nat}, d.chunk.Starts 0 n ↔ n ∈ d.starts ∨ n = d.chunk.code.size
  jumps : ∀ {p : Nat} {b : UInt8}, (p, b) ∈ d.jumps → ∃ n op, p = n + 1 ∧ d.chunk.Starts 0 n ∧
    d.chunk.Decodes n op ∧ op.isJump = true ∧ op ≠ .loop
  patched : ∀ {p : Nat}, p ∈ d.patched → p ≤ d.chunk.code.size
  marks : ∀ {n : Nat}, n ∈ d.marks → d.chunk.Starts 0 n
  indices : ∀ {i : Nat} {v : Value}, (i, v) ∈ d.indices →
    ∃ e, d.chunk.constants[i]? = some e ∧ (e = v ∨ typeOf e = .string)

theorem sound_new : Sound typeOf {} where
  laid := Chunk.laid_new
  starts := ⟨fun h => Or.inr (Nat.le_zero.1 (h.le_size .here)), fun h => by
    rcases h with h | rfl
    · cases h
    · exact .here⟩
  jumps := nofun
  patched := nofun
  marks := nofun
  indices := nofun

/-- More constants, and other types under which the strings of the pool stay strings, change
nothing. -/
theorem Sound.pool (h : d.Sound typeOf) {constants : Array Value}
    (hconstants : ∀ (i : Nat) v, d.chunk.constants[i]? = some v → constants[i]? = some v)
    (hstrings : ∀ v ∈ d.chunk.constants, typeOf v = .string → typeOf' v = .string) :
    Sound typeOf' { d with chunk := { d.chunk with constants } } where
  laid := h.laid.pool hconstants hstrings
  starts := Chunk.starts_pool.trans h.starts
  jumps hp := by
    obtain ⟨n, op, rfl, hn, hop, hjump⟩ := h.jumps hp
    exact ⟨n, op, rfl, Chunk.starts_pool.2 hn, Chunk.decodes_pool.2 hop, hjump⟩
  patched := h.patched
  marks hn := Chunk.starts_pool.2 (h.marks hn)
  indices hi := by
    obtain ⟨e, he, hsame⟩ := h.indices hi
    exact ⟨e, hconstants _ _ he, hsame.imp_right (hstrings e (Array.mem_of_getElem? he))⟩

/-- A value that is added stands at its index, or an equal string does. -/
theorem Sound.pooling (h : d.Sound m.typeOf) (v : Value) :
    (d.pooling m v).Sound m.typeOf ∧
      ∃ e, (d.pooling m v).chunk.constants[(d.chunk.addConstant m.equal v).2]? = some e ∧
        (e = v ∨ m.typeOf e = .string) := by
  obtain ⟨constants, hchunk, hkept, e, he, hsame⟩ := d.chunk.addConstant_eq m.equal v
  have hpooling : d.pooling m v = { d with chunk := { d.chunk with constants } } := by
    rw [Draft.pooling, hchunk]
  rw [hpooling]
  refine ⟨h.pool hkept fun _ _ hv => hv, e, he, ?_⟩
  rcases hsame with rfl | hequal
  · exact Or.inl rfl
  · exact Memory.equal_eq_true hequal

/-- A whole instruction that uses the pool rightly is emitted; the placeholder of a forward jump is
given out, and another jump goes to a boundary. -/
theorem Sound.emitting (h : d.Sound typeOf) {operands : List UInt8} {line : Int64}
    {jumps : List (Nat × UInt8)} (hcount : operands.length = op.operandCount)
    (hconstant : op.usesConstant = true → ∃ i v, operands = [i] ∧
      d.chunk.constants[i.toNat]? = some v ∧ (op.usesName = true → typeOf v = .string))
    (hjump : op.isJump = true → (∃ b, (d.chunk.code.size + 1, b) ∈ jumps) ∨
      ∃ t : Nat, d.chunk.Starts 0 t ∧
        (d.chunk.emit op.toByte operands line).target op d.chunk.code.size = t)
    (hold : ∀ jump ∈ d.jumps, jump ∈ jumps)
    (hnew : ∀ {p b}, (p, b) ∈ jumps → (p, b) ∈ d.jumps ∨
      p = d.chunk.code.size + 1 ∧ op.isJump = true ∧ op ≠ .loop) :
    Sound typeOf { d.emitting op.toByte operands line with jumps } := by
  have hstarts : ∀ {n}, (d.chunk.emit op.toByte operands line).Starts 0 n ↔
      d.chunk.Starts 0 n ∨ n = d.chunk.code.size + op.size :=
    Chunk.starts_emit h.laid.whole hcount
  have hsize := d.chunk.size_emit_of_length op line hcount
  refine ⟨?_, ?_, fun hp => ?_, fun hp => ?_, fun hn => hstarts.2 (Or.inl (h.marks hn)),
    fun hi => ?_⟩
  · refine h.laid.emit hcount (fun p hp => ?_) hconstant fun hop => ?_
    · obtain ⟨⟨b, hb⟩, hopen⟩ := hp
      exact ⟨⟨b, hold _ hb⟩, hopen⟩
    · refine (hjump hop).imp_left fun hgiven => ⟨hgiven, fun hp => ?_⟩
      have hle := h.patched hp
      omega
  · intro n
    refine hstarts.trans ?_
    change _ ↔ n ∈ d.chunk.code.size :: d.starts ∨
      n = (d.chunk.emit op.toByte operands line).code.size
    rw [h.starts, hsize, List.mem_cons]
    exact or_congr_left or_comm
  · rcases hnew hp with hp | ⟨rfl, hop, hforward⟩
    · obtain ⟨n, inner, rfl, hn, hinner, hop⟩ := h.jumps hp
      exact ⟨n, inner, rfl, hstarts.2 (Or.inl hn), hinner.emit _ _ _, hop⟩
    · exact ⟨_, op, rfl, hstarts.2 (Or.inl h.laid.whole), d.chunk.decodes_emit op line hcount, hop,
        hforward⟩
  · have hle := h.patched hp
    change _ ≤ (d.chunk.emit op.toByte operands line).code.size
    omega
  · change ∃ e, (d.chunk.emit op.toByte operands line).constants[_]? = some e ∧ _
    rw [Chunk.constants_emit]
    exact h.indices hi

theorem Sound.patching (h : d.Sound typeOf) {p : Nat} {b : UInt8} (hp : (p, b) ∈ d.jumps)
    (hnear : d.chunk.code.size - (p + 2) ≤ 65535) : (d.patching p).Sound typeOf := by
  obtain ⟨n, op, rfl, hn, hop, hjump, hforward⟩ := h.jumps hp
  have hstarts : ∀ {n'}, (d.chunk.patched (n + 1)).Starts 0 n' ↔ d.chunk.Starts 0 n' :=
    Chunk.starts_patched hn hop hjump
  have hsize := Chunk.size_patched d.chunk (n + 1)
  refine ⟨?_, ?_, fun hq => ?_, fun hq => ?_, fun hn => hstarts.2 (h.marks hn), h.indices⟩
  · refine h.laid.patched hn hop hjump hforward (fun q hne hq => ?_) hnear
    obtain ⟨hgiven, hopen⟩ := hq
    refine ⟨hgiven, fun hq => ?_⟩
    rcases List.mem_cons.1 hq with heq | hq
    · exact hne heq
    · exact hopen hq
  · intro n'
    refine hstarts.trans ?_
    rw [h.starts]
    change _ ↔ _ ∨ n' = (d.chunk.patched (n + 1)).code.size
    rw [hsize]
    rfl
  · obtain ⟨n', inner, rfl, hn', hinner, hrest⟩ := h.jumps hq
    obtain ⟨hne, hne'⟩ := hn.beside hop hjump hn'
    exact ⟨n', inner, rfl, hstarts.2 hn', hinner.patched _ hne hne', hrest⟩
  · change _ ≤ (d.chunk.patched (n + 1)).code.size
    rw [hsize]
    rcases List.mem_cons.1 hq with rfl | hq
    · have hfits := hop.fits_of_isJump hjump
      omega
    · exact h.patched hq

/-- A careful call leaves what the builder has been given right. -/
theorem Sound.after {call : Call} (h : d.Sound m.typeOf) (hcall : Careful m d call) :
    (d.after m call).Sound m.typeOf := by
  cases call with
  | addConstant v =>
    obtain ⟨hpooling, hindex⟩ := h.pooling v
    refine ⟨hpooling.laid, hpooling.starts, hpooling.jumps, hpooling.patched, hpooling.marks,
      fun hi => ?_⟩
    rcases List.mem_cons.1 hi with heq | hi
    · cases heq
      exact hindex
    · exact hpooling.indices hi
  | emitConstant v line =>
    obtain ⟨hpooling, e, he, -⟩ := h.pooling v
    rw [after_emitConstant]
    dsimp only
    split_ifs with hsmall
    · have hbyte : (d.chunk.addConstant m.equal v).2.toUInt8.toNat =
          (d.chunk.addConstant m.equal v).2 := UInt8.toNat_ofNat_of_lt' hsmall
      have hcount : [(d.chunk.addConstant m.equal v).2.toUInt8].length =
          Opcode.constant.operandCount := rfl
      refine hpooling.emitting hcount
        (fun _ => ⟨_, e, rfl, ?_, fun huses => absurd huses (by decide)⟩)
        (fun hop => absurd hop (by decide)) (fun _ hp => hp) Or.inl
      rwa [hbyte]
    · exact hpooling
  | emit b operands line =>
    obtain ⟨op, rfl, hjump, hcount, hconstant⟩ := hcall
    refine h.emitting hcount (fun huses => ?_) (fun hop => ?_) (fun _ hp => hp) Or.inl
    · obtain ⟨i, v, hi, hsmall, rfl, hname⟩ := hconstant huses
      obtain ⟨e, he, hsame⟩ := h.indices hi
      have hbyte : i.toUInt8.toNat = i := UInt8.toNat_ofNat_of_lt' hsmall
      refine ⟨_, e, rfl, by rwa [hbyte], fun huses => ?_⟩
      rcases hsame with rfl | hstring
      · exact hname huses
      · exact hstring
    · rw [hjump] at hop
      cases hop
  | emitJump b line =>
    obtain ⟨op, rfl, hop⟩ := hcall
    obtain ⟨hjump, hforward⟩ := Opcode.isJump_of_forward hop
    have hcount : 2 = op.operandCount := by
      have hsize := Opcode.size_of_isJump hjump
      rw [Opcode.size] at hsize
      omega
    rw [after_emitJump]
    refine h.emitting hcount (fun huses => ?_) (fun _ => Or.inl ⟨_, List.mem_cons_self⟩)
      (fun _ hp => List.mem_cons_of_mem _ hp) fun hp => ?_
    · rw [Opcode.usesConstant_of_isJump hjump] at huses
      cases huses
    · rcases List.mem_cons.1 hp with heq | hp
      · exact Or.inr ⟨congrArg Prod.fst heq, hjump, hforward⟩
      · exact Or.inl hp
  | patchJump placeholder =>
    obtain ⟨b, hp⟩ := hcall
    obtain ⟨n, op, rfl, -, hop, hjump, -⟩ := h.jumps hp
    rw [after_patchJump m (hop.fits_of_isJump hjump)]
    split_ifs with hnear
    · exact h.patching hp hnear
    · exact h
  | emitLoop start line =>
    obtain ⟨n, hn, rfl⟩ := hcall
    rcases after_emitLoop m d n line with ⟨operands, hcount, hloop, heq⟩ | heq
    · rw [heq]
      obtain ⟨-, -, htarget⟩ := Chunk.target_emitLoop hloop
      exact h.emitting hcount (fun huses => absurd huses (by decide))
        (fun _ => Or.inr ⟨n, h.marks hn, htarget⟩) (fun _ hp => hp) Or.inl
    · rwa [heq]
  | mark =>
    refine ⟨h.laid, h.starts, h.jumps, h.patched, fun hn => ?_, h.indices⟩
    rcases List.mem_cons.1 hn with rfl | hn
    · exact h.laid.whole
    · exact h.marks hn

theorem Runs.sound (h : Runs Careful m d m' d') (hd : d.Sound m.typeOf) : d'.Sound m'.typeOf := by
  induction h with
  | start => exact hd
  | call _ hcall ih => exact ih.after hcall
  | wait _ hstrings ih => exact ih.pool (fun _ _ hv => hv) hstrings

/-- Code that was built with care, with all its jumps patched, is valid, has a line for each of its
bytes, and its jumps go to instructions that were emitted or to its end. -/
theorem emitted_valid (h : Runs Careful m {} m' d)
    (hpatched : ∀ p b, (p, b) ∈ d.jumps → p ∈ d.patched) :
    d.chunk.validate m'.typeOf = .ok () ∧ d.chunk.lines.size = d.chunk.code.size ∧
      (∀ n, d.chunk.Starts 0 n ↔ n ∈ d.starts ∨ n = d.chunk.code.size) ∧
      ∀ n op, n ∈ d.starts → d.chunk.Decodes n op → op.isJump = true →
        ∃ t : Nat, d.chunk.target op n = t ∧ (t ∈ d.starts ∨ t = d.chunk.code.size) := by
  have hsound := h.sound sound_new
  have hnone : ∀ p, ¬ d.Waits p := by
    rintro p ⟨⟨b, hb⟩, hopen⟩
    exact hopen (hpatched p b hb)
  refine ⟨hsound.laid.validate hnone, hsound.laid.lines, fun _ => hsound.starts,
    fun n op hn hop hjump => ?_⟩
  rcases hsound.laid.placed (hsound.starts.2 (Or.inl hn)) with rfl | ⟨other, hplaced⟩
  · have hfits := hop.fits
    have hpos := op.size_pos
    omega
  · cases hop.unique hplaced.decodes
    obtain ⟨t, ht, htarget⟩ := (hplaced.jump hjump).resolve_left (hnone _)
    exact ⟨t, htarget, hsound.starts.1 ht⟩

/-- A loop that is left when a global is falsey. -/
theorem emitted_valid_loop : ∃ d, Runs Careful eagerSample.memory {} eagerSample.memory d ∧
    d.chunk.validate eagerSample.memory.typeOf = .ok () ∧ d.chunk.code.size = 8 ∧
    (∃ t : Nat, d.chunk.target .jumpIfFalse 2 = t ∧ (t ∈ d.starts ∨ t = 8)) ∧
    ∃ t : Nat, d.chunk.target .loop 5 = t ∧ (t ∈ d.starts ∨ t = 8) := by
  let m := eagerSample.memory
  let named : Draft :=
    { chunk := { constants := #[.object 0] }, indices := [(0, .object 0)] }
  let marked := named.after m .mark
  let started := marked.after m (.emit Opcode.getGlobal.toByte [0] 1)
  let leaving := started.after m (.emitJump Opcode.jumpIfFalse.toByte 1)
  let bytes := Chunk.distanceBytes 8
  let looping := leaving.emitting Opcode.loop.toByte [bytes.1, bytes.2] 2
  have hadd : Draft.after m {} (.addConstant (.object 0)) = named := by
    rw [Draft.after, Chunk.addConstant, Array.findIdx?_empty]
    rfl
  have hloop : leaving.after m (.emitLoop 0 2) = looping := by
    rw [Draft.after, Chunk.emitLoop_eq, if_pos (by decide)]
    rfl
  have hpatch : looping.after m (.patchJump 3) = looping.patching 3 := by
    rw [after_patchJump m (by decide), if_pos (by decide)]
  have hnamed : Runs Careful m {} m named := hadd ▸ .call .start trivial
  have hmarked : Runs Careful m {} m marked := .call hnamed trivial
  have hstarted : Runs Careful m {} m started := .call hmarked ⟨.getGlobal, rfl, rfl, rfl,
    fun _ => ⟨0, .object 0, List.mem_singleton.2 rfl, by decide, rfl, fun _ => rfl⟩⟩
  have hleaving : Runs Careful m {} m leaving :=
    .call hstarted ⟨.jumpIfFalse, rfl, Or.inr rfl⟩
  have hlooping : Runs Careful m {} m looping := hloop ▸ .call hleaving ⟨0, .head _, rfl⟩
  have hpatched : Runs Careful m {} m (looping.patching 3) :=
    hpatch ▸ .call hlooping ⟨Opcode.jumpIfFalse.toByte, List.mem_singleton.2 rfl⟩
  have hleave : leaving.chunk.Decodes 2 .jumpIfFalse := ⟨22, rfl, rfl⟩
  have hback : looping.chunk.Decodes 5 .loop := leaving.chunk.decodes_emit .loop 2 rfl
  have hleave' : (looping.patching 3).chunk.Decodes 2 .jumpIfFalse :=
    (hleave.emit _ _ _).patched 3 (by decide) (by decide)
  have hback' : (looping.patching 3).chunk.Decodes 5 .loop :=
    hback.patched 3 (by decide) (by decide)
  have hall : ∀ p b, (p, b) ∈ (looping.patching 3).jumps → p ∈ (looping.patching 3).patched := by
    intro p b hp
    exact List.mem_singleton.2 (congrArg Prod.fst (List.mem_singleton.1 hp))
  obtain ⟨hvalid, -, -, hjumps⟩ := emitted_valid hpatched hall
  have hsize : (looping.patching 3).chunk.code.size = 8 := Chunk.size_patched _ _
  rw [hsize] at hjumps
  exact ⟨_, hpatched, hvalid, hsize,
    hjumps 2 .jumpIfFalse (.tail _ (.head _)) hleave' rfl,
    hjumps 5 .loop (.head _) hback' rfl⟩

end Draft

end StackVm
