/-
Chunks under construction.  What a builder is given keeps its meaning while more is emitted and
other jumps are patched: a placeholder stays the operand of its jump, and when it is patched all
readers of that jump go to where the code ends.
-/
import StackVm.Proofs.ConstantPool

namespace StackVm

/-- A chunk under construction, with what its builder has been given. -/
structure Draft where
  chunk : Chunk := {}
  /-- Where the emitted instructions start. -/
  starts : List Nat := []
  /-- The placeholders of the emitted jumps, each with the opcode byte of its jump. -/
  jumps : List (Nat × UInt8) := []
  /-- The placeholders that were patched. -/
  patched : List Nat := []
  /-- The code sizes that were noted, as starts of loops to come. -/
  marks : List Nat := []
  /-- The constants that were added, each with the index that was given for it. -/
  indices : List (Nat × Value) := []

namespace Draft

/-- What a builder does. -/
inductive Call where
  | addConstant (v : Value)
  | emitConstant (v : Value) (line : Int64)
  | emit (op : UInt8) (operands : List UInt8) (line : Int64)
  | emitJump (op : UInt8) (line : Int64)
  | patchJump (placeholder : Nat)
  | emitLoop (start : Int) (line : Int64)
  /-- Notes the size of the code. -/
  | mark

/-- A draft with a value in its pool. -/
def pooling (m : Memory) (d : Draft) (v : Value) : Draft :=
  { d with chunk := (d.chunk.addConstant m.equal v).1 }

/-- A draft with one more instruction. -/
def emitting (d : Draft) (op : UInt8) (operands : List UInt8) (line : Int64) : Draft :=
  { d with chunk := d.chunk.emit op operands line, starts := d.chunk.code.size :: d.starts }

/-- A draft with a jump patched. -/
def patching (d : Draft) (placeholder : Nat) : Draft :=
  { d with chunk := d.chunk.patched placeholder, patched := placeholder :: d.patched }

/-- What a call makes of a draft.  A call that is refused gives nothing, but what it has added to
the pool stays there. -/
def after (m : Memory) (d : Draft) : Call → Draft
  | .addConstant v =>
    let (chunk, index) := d.chunk.addConstant m.equal v
    { d with chunk, indices := (index, v) :: d.indices }
  | .emitConstant v line =>
    match d.chunk.emitConstant m.equal v line with
    | (chunk, .ok start) => { d with chunk, starts := start :: d.starts }
    | (chunk, .error _) => { d with chunk }
  | .emit op operands line => d.emitting op operands line
  | .emitJump op line =>
    let chunk := d.chunk.emitJump op line
    { d with
      chunk
      starts := d.chunk.code.size :: d.starts
      jumps := (chunk.code.size - 2, op) :: d.jumps }
  | .patchJump placeholder =>
    match d.chunk.patchJump placeholder with
    | .ok chunk => { d with chunk, patched := placeholder :: d.patched }
    | .error _ => d
  | .emitLoop start line =>
    match d.chunk.emitLoop start line with
    | .ok chunk => { d with chunk, starts := d.chunk.code.size :: d.starts }
    | .error _ => d
  | .mark => { d with marks := d.chunk.code.size :: d.marks }

/-- What comes of a draft by calls that keep to a rule.  Between two calls the memory may change,
but what is a string in the pool stays one. -/
inductive Runs (allowed : Memory → Draft → Call → Prop) (m : Memory) (d : Draft) :
    Memory → Draft → Prop where
  | start : Runs allowed m d m d
  | call {m' : Memory} {d' : Draft} {call : Call} : Runs allowed m d m' d' → allowed m' d' call →
      Runs allowed m d m' (d'.after m' call)
  | wait {m' m'' : Memory} {d' : Draft} : Runs allowed m d m' d' →
      (∀ v ∈ d'.chunk.constants, m'.typeOf v = .string → m''.typeOf v = .string) →
      Runs allowed m d m'' d'

variable {allowed : Memory → Draft → Call → Prop} {m m' : Memory} {d d' : Draft}
  {placeholder : Nat} {op : Opcode}

/-! ### Calls in terms of what they change -/

theorem after_emitConstant (m : Memory) (d : Draft) (v : Value) (line : Int64) :
    d.after m (.emitConstant v line) =
      let index := (d.chunk.addConstant m.equal v).2
      if index < Chunk.maxConstants then
        (d.pooling m v).emitting Opcode.constant.toByte [index.toUInt8] line
      else d.pooling m v := by
  rw [after, Chunk.emitConstant]
  dsimp only
  split_ifs <;> rfl

theorem after_emitJump (m : Memory) (d : Draft) (op : UInt8) (line : Int64) :
    d.after m (.emitJump op line) =
      { d.emitting op [0xFF, 0xFF] line with jumps := (d.chunk.code.size + 1, op) :: d.jumps } := by
  have hsize : (d.chunk.emitJump op line).code.size - 2 = d.chunk.code.size + 1 := by
    rw [Chunk.emitJump, Chunk.size_emit]
    rfl
  rw [after]
  dsimp only
  rw [hsize]
  rfl

theorem after_patchJump (m : Memory) (h : placeholder + 2 ≤ d.chunk.code.size) :
    d.after m (.patchJump placeholder) =
      if d.chunk.code.size - (placeholder + 2) ≤ 65535 then d.patching placeholder else d := by
  rw [after, Chunk.patchJump_eq h]
  split_ifs <;> rfl

theorem after_emitLoop (m : Memory) (d : Draft) (start : Int) (line : Int64) :
    (∃ operands, operands.length = 2 ∧
      d.chunk.emitLoop start line = .ok (d.chunk.emit Opcode.loop.toByte operands line) ∧
      d.after m (.emitLoop start line) = d.emitting Opcode.loop.toByte operands line) ∨
    d.after m (.emitLoop start line) = d := by
  rw [after, Chunk.emitLoop_eq]
  split_ifs
  · exact Or.inl ⟨_, rfl, rfl, rfl⟩
  · exact Or.inr rfl

/-! ### Placeholders -/

/-- The emitted jumps are in the code, one beside the other. -/
structure Intact (d : Draft) : Prop where
  held : ∀ {p : Nat} {b : UInt8}, (p, b) ∈ d.jumps →
    ∃ n, p = n + 1 ∧ d.chunk.code[n]? = some b ∧ n + 3 ≤ d.chunk.code.size
  apart : ∀ {p q : Nat} {b b' : UInt8}, (p, b) ∈ d.jumps → (q, b') ∈ d.jumps →
    p = q ∨ p + 3 ≤ q ∨ q + 3 ≤ p

/-- Placeholders are patched, and no other bytes. -/
def Follows (_ : Memory) (d : Draft) : Call → Prop
  | .patchJump placeholder => ∃ b, (placeholder, b) ∈ d.jumps
  | _ => True

theorem Intact.of_kept (h : d.Intact) (hjumps : d'.jumps = d.jumps)
    (hsize : d.chunk.code.size ≤ d'.chunk.code.size)
    (hkept : ∀ {n : Nat} {b : UInt8}, (n + 1, b) ∈ d.jumps → n < d.chunk.code.size →
      d'.chunk.code[n]? = d.chunk.code[n]?) : d'.Intact where
  held hp := by
    rw [hjumps] at hp
    obtain ⟨n, rfl, hbyte, hfits⟩ := h.held hp
    exact ⟨n, rfl, by rw [hkept hp (by omega), hbyte], by omega⟩
  apart := by
    rw [hjumps]
    exact h.apart

theorem code_pooling (m : Memory) (d : Draft) (v : Value) :
    (d.pooling m v).chunk.code = d.chunk.code :=
  Chunk.code_addConstant m.equal d.chunk v

theorem Intact.pooling (h : d.Intact) (m : Memory) (v : Value) : (d.pooling m v).Intact := by
  refine h.of_kept rfl ?_ fun _ _ => ?_
  · rw [code_pooling]
  · rw [code_pooling]

theorem Intact.emitting (h : d.Intact) (op : UInt8) (operands : List UInt8) (line : Int64) :
    (d.emitting op operands line).Intact := by
  refine h.of_kept rfl ?_ fun _ hlt => Chunk.getElem?_emit_of_lt hlt _ _ _
  rw [Draft.emitting, Chunk.size_emit]
  omega

theorem Intact.emitJump (h : d.Intact) (m : Memory) (op : UInt8) (line : Int64) :
    (d.after m (.emitJump op line)).Intact := by
  have hkept := h.emitting op [0xFF, 0xFF] line
  have hsize : (d.emitting op [0xFF, 0xFF] line).chunk.code.size = d.chunk.code.size + 3 :=
    d.chunk.size_emit _ _ _
  have hnew : ∀ {p : Nat} {b : UInt8}, (p, b) ∈ d.jumps → p + 3 ≤ d.chunk.code.size + 1 := by
    intro p b hp
    obtain ⟨n, rfl, -, hfits⟩ := h.held hp
    omega
  rw [after_emitJump]
  refine ⟨fun hp => ?_, fun hp hq => ?_⟩
  · rcases List.mem_cons.1 hp with heq | hp
    · cases heq
      refine ⟨_, rfl, d.chunk.getElem?_emit _ _ _ 0, ?_⟩
      exact Nat.le_of_eq hsize.symm
    · exact hkept.held hp
  · rcases List.mem_cons.1 hp with heq | hp <;> rcases List.mem_cons.1 hq with heq' | hq
    · cases heq
      cases heq'
      exact Or.inl rfl
    · cases heq
      exact Or.inr (Or.inr (hnew hq))
    · cases heq'
      exact Or.inr (Or.inl (hnew hp))
    · exact h.apart hp hq

theorem Intact.patching (h : d.Intact) {b : UInt8} (hp : (placeholder, b) ∈ d.jumps) :
    (d.patching placeholder).Intact := by
  refine h.of_kept rfl (Nat.le_of_eq (Chunk.size_patched _ _).symm) fun hq _ => ?_
  have happart := h.apart hp hq
  exact Chunk.getElem?_patched_of_ne (by omega) (by omega)

/-- A call that follows the rule leaves the jumps. -/
theorem Intact.after {call : Call} (h : d.Intact) (hcall : Follows m d call) :
    (d.after m call).Intact := by
  cases call with
  | addConstant v =>
    have hpooling := h.pooling m v
    exact ⟨hpooling.held, hpooling.apart⟩
  | emitConstant v line =>
    rw [after_emitConstant]
    dsimp only
    split_ifs
    · exact (h.pooling m v).emitting _ _ _
    · exact h.pooling m v
  | emit op operands line => exact h.emitting op operands line
  | emitJump op line => exact h.emitJump m op line
  | patchJump placeholder =>
    obtain ⟨b, hp⟩ := hcall
    obtain ⟨n, rfl, -, hfits⟩ := h.held hp
    rw [after_patchJump m hfits]
    split_ifs
    · exact h.patching hp
    · exact h
  | emitLoop start line =>
    rcases after_emitLoop m d start line with ⟨operands, -, -, heq⟩ | heq
    · rw [heq]
      exact h.emitting _ _ _
    · rwa [heq]
  | mark => exact ⟨h.held, h.apart⟩

theorem Runs.intact (h : Runs Follows m d m' d') (hd : d.Intact) : d'.Intact := by
  induction h with
  | start => exact hd
  | call _ hcall ih => exact ih.after hcall
  | wait _ _ ih => exact ih

/-- The placeholder of a forward jump is patched to the end of the code, if that is near. -/
theorem Intact.patchJump (h : d.Intact) (hp : (placeholder, op.toByte) ∈ d.jumps)
    (hop : op = .jump ∨ op = .jumpIfFalse) :
    ∃ n, placeholder = n + 1 ∧ d.chunk.Decodes n op ∧
      if d.chunk.code.size - (placeholder + 2) ≤ 65535 then
        ∃ c, d.chunk.patchJump placeholder = .ok c ∧ c.Decodes n op ∧
          c.LeadsTo n op d.chunk.code.size
      else d.chunk.patchJump placeholder =
        .error (.jumpTooFar (Int64.ofInt (d.chunk.code.size - (placeholder + 2)))) := by
  obtain ⟨hjump, hforward⟩ := Opcode.isJump_of_forward hop
  obtain ⟨n, rfl, hbyte, hfits⟩ := h.held hp
  have hdecodes : d.chunk.Decodes n op :=
    Chunk.decodes_iff.2 ⟨hbyte, by rwa [Opcode.size_of_isJump hjump]⟩
  refine ⟨n, rfl, hdecodes, ?_⟩
  rw [Chunk.patchJump_eq hfits]
  split_ifs with hnear
  · have hpatched := hdecodes.patched (n + 1) (by omega) (by omega)
    refine ⟨_, rfl, hpatched, ?_⟩
    rw [← hdecodes.target_patched hjump hforward hnear]
    exact hpatched.leadsTo hjump
  · rfl

/-- What reads jumps agrees on their targets, and what writes them writes the target that is meant
or, where that is too far, nothing. -/
theorem jumps_agree (c : Chunk) :
    (∀ n op, c.Decodes n op → op.isJump = true →
      c.LeadsTo n op (c.target op n) ∧
        ∀ target, c.LeadsTo n op target → target = c.target op n) ∧
    (∀ m m' d, Runs Follows m { chunk := c } m' d → ∀ placeholder op,
      (placeholder, op.toByte) ∈ d.jumps → op = .jump ∨ op = .jumpIfFalse →
      let distance : Int := d.chunk.code.size - (placeholder + 2)
      ∃ n, placeholder = n + 1 ∧ d.chunk.Decodes n op ∧
        if 0 ≤ distance ∧ distance ≤ 65535 then
          ∃ c', d.chunk.patchJump placeholder = .ok c' ∧ c'.Decodes n op ∧
            c'.LeadsTo n op d.chunk.code.size
        else d.chunk.patchJump placeholder = .error (.jumpTooFar (Int64.ofInt distance))) ∧
    ∀ start line,
      let distance : Int := c.code.size + 3 - start
      if 0 ≤ distance ∧ distance ≤ 65535 then
        ∃ c', c.emitLoop start line = .ok c' ∧ c'.Decodes c.code.size .loop ∧
          c'.LeadsTo c.code.size .loop start
      else c.emitLoop start line = .error (.jumpTooFar (Int64.ofInt distance)) ∧
        ∀ (m : Memory) (d : Draft), d.chunk = c → d.after m (.emitLoop start line) = d := by
  refine ⟨fun n op hop hjump => ?_, fun m m' d hruns p op hp hop => ?_, fun start line => ?_⟩
  · have hleads := hop.leadsTo hjump
    exact ⟨hleads, fun target htarget => htarget.unique hleads⟩
  · have hnew : Intact { chunk := c } := ⟨nofun, nofun⟩
    obtain ⟨n, rfl, hdecodes, hpatch⟩ := (hruns.intact hnew).patchJump hp hop
    have hfits := hdecodes.fits_of_isJump (Opcode.isJump_of_forward hop).1
    refine ⟨n, rfl, hdecodes, ?_⟩
    split_ifs at hpatch ⊢ with hnear hdistance hdistance
    · exact hpatch
    · omega
    · omega
    · exact hpatch
  · dsimp only
    split_ifs with hnear
    · exact Chunk.exists_emitLoop hnear line
    · have herror : c.emitLoop start line =
          .error (.jumpTooFar (Int64.ofInt (c.code.size + 3 - start))) := by
        rw [Chunk.emitLoop_eq, if_neg hnear]
      refine ⟨herror, fun m d hd => ?_⟩
      rw [after, hd, herror]

/-- The code that a run of a jump goes through, with a jump over an instruction behind it, or a
loop back to its middle. -/
theorem jumps_agree_detourChunk :
    (∀ make, ∃ err, Exec.step make (detourAt 0) =
      .ok .running ({ detourAt 0 with err }.withFrames [⟨0, 4, 0⟩])) ∧
    (∀ m, ∃ d c, Runs Follows m { chunk := detourChunk } m d ∧ d.chunk.code.size = 10 ∧
      d.chunk.patchJump 7 = .ok c ∧ c.LeadsTo 6 .jump 10) ∧
    ∃ c, detourChunk.emitLoop 3 1 = .ok c ∧ c.LeadsTo 6 .loop 3 := by
  obtain ⟨hreads, hpatches, hloops⟩ := jumps_agree detourChunk
  refine ⟨?_, fun m => ?_, ?_⟩
  · obtain ⟨hleads, -⟩ := hreads 0 .jump ⟨21, rfl, rfl⟩ rfl
    have hexecutes : (detourAt 0).Executes ⟨0, 0, 0⟩ [] detourChunk 0 := ⟨rfl, rfl, rfl⟩
    exact hleads.runs hexecutes (by decide) nofun
  · have hjump : Runs Follows m { chunk := detourChunk } m _ :=
      .call .start (show Follows m _ (.emitJump Opcode.jump.toByte 1) from trivial)
    obtain ⟨d, hruns, hmem, hsize⟩ : ∃ d, Runs Follows m { chunk := detourChunk } m d ∧
        (7, Opcode.jump.toByte) ∈ d.jumps ∧ d.chunk.code.size = 10 :=
      ⟨_, .call hjump (show Follows m _ (.emit Opcode.pushNil.toByte [] 1) from trivial),
        List.mem_singleton.2 rfl, rfl⟩
    obtain ⟨n, hn, -, hpatch⟩ := hpatches m m d hruns 7 .jump hmem (Or.inl rfl)
    cases Nat.succ.inj hn
    rw [hsize, if_pos (by decide)] at hpatch
    obtain ⟨c, hc, -, hleads⟩ := hpatch
    exact ⟨d, c, hruns, hsize, hc, hleads⟩
  · have hloop := hloops 3 1
    dsimp only at hloop
    rw [if_pos (by decide)] at hloop
    obtain ⟨c, hc, -, hleads⟩ := hloop
    exact ⟨c, hc, hleads⟩

end Draft

end StackVm
