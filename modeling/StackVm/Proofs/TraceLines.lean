/-
Where a trace points.  An instruction that fails has left its frame behind the bytes it has read,
and a caller waits behind its call, so that the byte before is one of that instruction.  Only a
full stack is found before the opcode is read; the byte before is then one of what comes before
the instruction.
-/
import StackVm.Proofs.Atomicity
import StackVm.Proofs.Attempts
import StackVm.Proofs.Lines
import StackVm.Proofs.Safety
import StackVm.Proofs.StackLimit

namespace StackVm

open List (Forall₂)

/-- The frame is at the boundary `n` of its code. -/
structure Frame.Stands (m : Memory) (f : Frame) (c : Chunk) (n : Nat) : Prop where
  code : (m.function? f.function).bind m.chunkOf? = some c
  starts : c.Starts 0 n
  ip : f.ip = n

/-- The frame waits for the call at `n` of its code. -/
structure Frame.Waits (m : Memory) (f : Frame) (c : Chunk) (n : Nat) : Prop where
  code : (m.function? f.function).bind m.chunkOf? = some c
  starts : c.Starts 0 n
  call : c.Decodes n .call
  ip : f.ip = (n + 2 : Nat)

/-- What the trace says of the frame in which an error is raised.  It has the line of the
instruction that comes upon the error.  Of an instruction that is rejected on a full stack, and of
the end of the code, it has the line of the byte before. -/
inductive Frame.Blames (m : Memory) (f : Frame) : RuntimeCause → TraceEntry → Prop
  | own {fn : Function} {c : Chunk} {n : Nat} {op : Opcode} {cause : RuntimeCause} :
      m.function? f.function = some fn → f.Stands m c n → c.Decodes n op → cause.Own →
      Blames m f cause ⟨fn.name, c.lineAt n⟩
  | full {fn : Function} {c : Chunk} {n : Nat} {op : Opcode} :
      m.function? f.function = some fn → f.Stands m c n → c.Decodes n op →
      Blames m f .operandOverflow ⟨fn.name, c.lineAt (n - 1 : Int)⟩
  | pastEnd {fn : Function} {c : Chunk} : m.function? f.function = some fn →
      f.Stands m c c.code.size →
      Blames m f (.ranPastEnd fn.displayName) ⟨fn.name, c.lineAt (c.code.size - 1 : Int)⟩

/-- What the trace says of a frame that waits: it has the line of the call. -/
def Frame.Recalls (m : Memory) (f : Frame) (entry : TraceEntry) : Prop :=
  ∃ fn c n, m.function? f.function = some fn ∧ f.Waits m c n ∧ entry = ⟨fn.name, c.lineAt n⟩

variable {m : Memory} {f : Frame} {callers : List Frame} {fn : Function} {c : Chunk} {n k : Nat}
  {op : Opcode} {scope : Scope} {s t u left : Execution} {others : Holdings}

theorem Frame.Waits.evolve {m' : Memory} (h : f.Waits m c n) (hevolves : m.Evolves m') :
    f.Waits m' c n := { h with code := hevolves.code h.code }

theorem Exec.traceEntry_eq (hfn : m.function? f.function = some fn)
    (hcode : (m.function? f.function).bind m.chunkOf? = some c) :
    traceEntry m f = ⟨fn.name, c.lineAt (f.ip - 1)⟩ := by
  rw [hfn, Option.bind_some] at hcode
  rw [traceEntry, hfn]
  dsimp only
  rw [hcode]
  rfl

/-- The byte before a place behind the start of an instruction has the line of the instruction. -/
theorem Chunk.Lined.lineAt_before (h : c.Lined) (hn : c.Starts 0 n) (hop : c.Decodes n op)
    (hpos : 0 < k) (hk : k ≤ op.size) : c.lineAt ((n + k : Nat) - 1 : Int) = c.lineAt n := by
  have hbyte : ((n + k : Nat) - 1 : Int) = (n + (k - 1) : Nat) := by omega
  rw [hbyte]
  exact h n op (k - 1) hn hop (by omega)

/-! ### Safe states -/

namespace Execution.Safe

theorem has_function (h : s.Safe scope) (hf : f ∈ s.machine.frames) : scope.Has f.function :=
  (List.forall₂_same.1 h.within.machine.frames f hf).function.2

theorem lined (h : s.Safe scope) (hlined : s.memory.Lined scope.Has) (hf : f ∈ s.machine.frames)
    (hcode : (s.memory.function? f.function).bind s.memory.chunkOf? = some c) : c.Lined := by
  obtain ⟨fn, hfn, hc⟩ := Option.bind_eq_some_iff.1 hcode
  exact hlined f.function fn c (h.has_function hf) hfn hc

/-- A frame is at the end of its code or at a whole instruction. -/
theorem stands (h : s.Safe scope) (hf : f ∈ s.machine.frames)
    (hcode : (s.memory.function? f.function).bind s.memory.chunkOf? = some c) :
    f.Stands s.memory c c.code.size ∨ ∃ n op, f.Stands s.memory c n ∧ c.Decodes n op := by
  obtain ⟨c', n, hcode', hvalid, hstarts, hip⟩ := h.sits f hf
  cases hcode.symm.trans hcode'
  rcases Chunk.boundary_cases hvalid hstarts with rfl | ⟨-, op, hchecked⟩
  · exact Or.inl ⟨hcode, hstarts, hip⟩
  · exact Or.inr ⟨n, op, ⟨hcode, hstarts, hip⟩, hchecked.decodes⟩

/-- The innermost frame is at a whole instruction where there is a byte to execute. -/
theorem executes (h : s.Safe scope) (hs : s.Executes f callers c n) {byte : UInt8}
    (hbyte : c.code[n]? = some byte) :
    ∃ op, f.Stands s.memory c n ∧ c.Decodes n op ∧ Opcode.ofByte? byte = some op := by
  have hlt := (Array.getElem?_eq_some_iff.1 hbyte).1
  rcases h.stands (hs.frames ▸ List.mem_cons_self) hs.code with hend | ⟨n', op, hstands, hop⟩
  · have heq := Int.ofNat.inj (hs.offset.symm.trans hend.ip)
    omega
  · cases Int.ofNat.inj (hs.offset.symm.trans hstands.ip)
    exact ⟨op, hstands, hop, hop.ofByte? hbyte⟩

/-- What the trace says of the innermost frame when an instruction fails. -/
theorem blames (h : s.Safe scope) (hlined : s.memory.Lined scope.Has)
    (hframes : s.machine.frames = f :: callers) {cause : RuntimeCause} (hfails : s.Fails cause u) :
    ∃ f', u.machine.frames = f' :: callers ∧
      f.Blames s.memory cause (Exec.traceEntry s.memory f') := by
  have hf : f ∈ s.machine.frames := hframes ▸ List.mem_cons_self
  cases hfails with
  | pastEnd hframes' hcode hend hfn =>
    cases hframes.symm.trans hframes'
    refine ⟨f, hframes, ?_⟩
    rw [Exec.traceEntry_eq hfn hcode]
    rcases h.stands hf hcode with hstands | ⟨n, op, hstands, hop⟩
    · rw [hstands.ip]
      exact .pastEnd hfn hstands
    · have hfits := hop.fits
      have hpos := op.size_pos
      have hip := hstands.ip
      omega
  | full hframes' hcode hbefore _ =>
    cases hframes.symm.trans hframes'
    obtain ⟨fn, hfn, -⟩ := Option.bind_eq_some_iff.1 hcode
    refine ⟨f, hframes, ?_⟩
    rw [Exec.traceEntry_eq hfn hcode]
    rcases h.stands hf hcode with hstands | ⟨n, op, hstands, hop⟩
    · have hip := hstands.ip
      omega
    · rw [hstands.ip]
      exact .full hfn hstands hop
  | unknown hs hbyte hnone =>
    obtain ⟨op, -, -, hop⟩ := h.executes hs hbyte
    cases hnone.symm.trans hop
  | @own f' callers' c n byte op err _ _ hs hbyte hop hown huntouched =>
    cases hframes.symm.trans hs.frames
    obtain ⟨op', hstands, hdecodes, hop'⟩ := h.executes hs hbyte
    cases hop.symm.trans hop'
    obtain ⟨fn, hfn, -⟩ := Option.bind_eq_some_iff.1 hs.code
    -- Of the instruction, the opcode has been read and its operand at most.
    obtain ⟨j, hj, hmachine⟩ := huntouched.machine
    have hahead : u.machine = s.machine.ahead (1 + j) := by
      rw [hmachine, Machine.ahead_ahead]
    refine ⟨f.ahead (1 + j), by rw [hahead, Machine.ahead, hframes]; rfl, ?_⟩
    have hip : (f.ahead (1 + j)).ip = (n + (1 + j) : Nat) := by
      rw [Frame.ahead, hstands.ip]
      rfl
    have hsize : 1 + j ≤ op.size := by
      rw [Opcode.size]
      omega
    have hline := (h.lined hlined hf hs.code).lineAt_before hstands.starts hdecodes
      (Nat.lt_add_right j Nat.one_pos) hsize
    have hentry : Exec.traceEntry s.memory (f.ahead (1 + j)) =
        ⟨fn.name, c.lineAt ((f.ahead (1 + j)).ip - 1)⟩ := Exec.traceEntry_eq hfn hs.code
    rw [hentry, hip, hline]
    exact .own hfn hstands hdecodes hown

/-- What the trace says of a frame that waits for a call. -/
theorem recalls (h : s.Safe scope) (hlined : s.memory.Lined scope.Has) (hf : f ∈ s.machine.frames)
    (hwaits : f.Waits s.memory c n) : f.Recalls s.memory (Exec.traceEntry s.memory f) := by
  obtain ⟨fn, hfn, -⟩ := Option.bind_eq_some_iff.1 hwaits.code
  refine ⟨fn, c, n, hfn, hwaits, ?_⟩
  have hline := (h.lined hlined hf hwaits.code).lineAt_before hwaits.starts hwaits.call
    Nat.two_pos (Nat.le_refl 2)
  rw [Exec.traceEntry_eq hfn hwaits.code, hwaits.ip, hline]

end Execution.Safe

/-! ### Frames that wait -/

/-- Every frame but the innermost waits for its call. -/
def Execution.CallersWait (s : Execution) : Prop :=
  ∀ f ∈ s.machine.frames.tail, ∃ c n, f.Waits s.memory c n

/-- A call leaves its frame waiting, and no instruction moves a frame that waits. -/
theorem Execution.CallersWait.step (h : s.CallersWait) (hsafe : s.Safe scope) (hnested : s.Nested)
    (hstep : Exec.step (Exec.alloc others) s = .ok .running t) : t.CallersWait := by
  have hevolves : s.memory.Evolves t.memory := by
    have hevolves := Exec.evolves_step others s
    rwa [hstep] at hevolves
  have hkept : ∀ f ∈ s.machine.frames.tail, ∃ c n, f.Waits t.memory c n := by
    intro f hf
    obtain ⟨c, n, hwaits⟩ := h f hf
    exact ⟨c, n, hwaits.evolve hevolves⟩
  obtain ⟨f, callers, hframes⟩ := List.exists_cons_of_ne_nil hnested.called
  obtain ⟨c, n, op, hnext, -, hmoves⟩ := hnested.step_ok_whole hframes hstep
  rw [hframes, List.tail_cons] at hkept
  rw [CallersWait]
  cases hmoves with
  | goes _ _ hgoes =>
    obtain ⟨ip, depth, hat, -⟩ := hgoes
    rw [hat.frames]
    exact hkept
  | calls _ _ _ _ _ hcalled =>
    rw [hcalled]
    intro g hg
    rcases List.mem_cons.1 hg with rfl | hg
    · obtain ⟨⟨f', hf', hip, hcode⟩, hop⟩ := hnext
      obtain ⟨byte, hbyte, hop⟩ := Option.bind_eq_some_iff.1 hop
      rw [hframes, List.head?_cons] at hf'
      cases hf'
      obtain ⟨op', hstands, hdecodes, hop'⟩ := hsafe.executes ⟨hframes, hip, hcode⟩ hbyte
      cases hop.symm.trans hop'
      exact ⟨c, n, hevolves.code hcode, hstands.starts, hdecodes, rfl⟩
    · exact hkept g hg
  | returns _ _ hreturned =>
    rw [hreturned]
    exact fun g hg => hkept g (List.mem_of_mem_tail hg)

/-! ### Whole runs -/

section

variable {fn : Option ObjectId} {steps fuel : Nat}

theorem Execution.Admits.safe (h : s.Admits fn)
    (hrun : Exec.interpret others steps fn s = .unfinished t) : t.Safe (s.scope fn) := by
  have hharmless := h.harmless (Exec.interpret_unfinished hrun).1 others steps
  rw [hrun] at hharmless
  cases hharmless with
  | unfinished hsafe => exact hsafe

theorem Execution.Admits.callersWait (h : s.Admits fn) (hframes : 0 < s.machine.maxFrames)
    (hrun : Exec.interpret others steps fn s = .unfinished t) : t.CallersWait := by
  induction steps generalizing t with
  | zero =>
    obtain ⟨-, -, id, memory, hinterpret⟩ := Exec.interpret_unfinished hrun
    rw [hinterpret] at hrun
    cases hrun
    exact fun f hf => nomatch hf
  | succ steps ih =>
    obtain ⟨before, hbefore, hstep⟩ := Exec.interpret_succ hrun
    have hreached : before.Reached others := ⟨s, fn, steps, hframes, hbefore⟩
    exact (ih hbefore).step (h.safe hbefore) hreached.nested hstep

/-- An error that ends a run of verified, aligned and lined code has a trace with one entry for each
frame that was active, the innermost first, each with the name of its function.  A frame that waits
has the line of its call.  The innermost frame has the line of its instruction, unless that was
rejected on a full stack or the code was at its end: then it has the line of the byte before. -/
theorem interpret_trace_lines (h : s.Admits fn) (hlined : s.memory.Lined (s.Known fn))
    (hframes : 0 < s.machine.maxFrames)
    (hend : Exec.interpret others fuel fn s = .done .runtimeError left) :
    ∃ steps t u cause f callers entry outer, steps < fuel ∧
      Exec.interpret others steps fn s = .unfinished t ∧
      Exec.step (Exec.alloc others) t = .error (.raised cause) u ∧
      t.machine.frames = f :: callers ∧
      left.machine.lastError = some (.runtime ⟨cause, entry :: outer⟩) ∧
      f.Blames t.memory cause entry ∧ Forall₂ (·.Recalls t.memory ·) callers outer := by
  obtain ⟨steps, t, cause, u, hsteps, hrun, hstep, rfl⟩ := Exec.interpret_runtimeError hend
  have hfails := Execution.fails_of_raised hstep
  have hsafe := h.safe hrun
  have hevolves := Exec.evolves_interpret others steps fn s
  rw [hrun] at hevolves
  have hlined' : t.memory.Lined (s.scope fn).Has := by
    have hscope : s.memory.Lined (s.scope fn).Has :=
      fun id f c hid hf => hlined id f c (s.known_of_function hid hf) hf
    exact hscope.evolve hevolves
  have hwait := h.callersWait hframes hrun
  obtain ⟨f, callers, hactive⟩ := List.exists_cons_of_ne_nil hsafe.active
  rw [Execution.CallersWait, hactive, List.tail_cons] at hwait
  obtain ⟨f', hleft, hblames⟩ := hsafe.blames hlined' hactive hfails
  refine ⟨steps, t, u, cause, f, callers, _, callers.map (Exec.traceEntry t.memory), hsteps, hrun,
    hstep, hactive, ?_, hblames, ?_⟩
  · rw [← List.map_cons, ← hleft, ← Exec.trace_congr hfails.untouched.memory]
    rfl
  · rw [List.forall₂_map_right_iff, List.forall₂_same]
    intro g hg
    obtain ⟨c, n, hwaits⟩ := hwait g hg
    exact hsafe.recalls hlined' (hactive ▸ List.mem_cons_of_mem f hg) hwaits

end

/-! ### Built programs -/

/-- A program whose functions all have built code may be interpreted, and its code is lined. -/
theorem Execution.admits_of_built {id : ObjectId} {fn : Function}
    (hcapacity : 0 < s.machine.stackMax) (hfn : s.memory.function? id = some fn)
    (h : ∀ i g, s.memory.function? i = some g →
      ∃ c, s.memory.chunkOf? g = some c ∧ c.Built s.memory.typeOf) :
    s.Admits (some id) ∧ s.memory.Lined (s.Known (some id)) := by
  have hbuilt : ∀ {i g c}, s.memory.function? i = some g → s.memory.chunkOf? g = some c →
      c.Built s.memory.typeOf := by
    intro i g c hg hc
    obtain ⟨c', hc', hbuilt⟩ := h i g hg
    cases hc.symm.trans hc'
    exact hbuilt
  refine ⟨?_, fun i g c _ hg hc => (hbuilt hg hc).lined⟩
  constructor
  case capacity => exact hcapacity
  case function =>
    intro i hi
    cases hi
    exact ⟨fn, hfn⟩
  case vetted =>
    intro i g _ hg _
    obtain ⟨c, hc, hbuilt⟩ := h i g hg
    exact ⟨c, hc, hbuilt.validate⟩
  case aligned => exact fun i g c _ hg hc => (hbuilt hg hc).aligned

theorem negateSample_admits : negateSample.Admits (some 0) ∧
    negateSample.memory.Lined (negateSample.Known (some 0)) := by
  refine Execution.admits_of_built (Nat.succ_pos 7) rfl fun i g hg => ?_
  match i, hg with
  | 0, hg =>
    cases hg
    have hpool : Chunk.Built negateSample.memory.typeOf { constants := #[.object 1] } :=
      ⟨(@Chunk.laid_new negateSample.memory.typeOf _).pool nofun nofun, Chunk.lined_new.pool _⟩
    have hcallee := hpool.emit .constant [0] 1 rfl rfl fun _ => ⟨0, .object 1, rfl, rfl, nofun⟩
    have hcall := (hcallee.emit .pushNil [] 1 rfl rfl nofun).emit .call [1] 1 rfl rfl nofun
    exact ⟨_, rfl, hcall.emit .ret [] 1 rfl rfl nofun⟩
  | 1, hg =>
    cases hg
    have hnew := @Chunk.built_new negateSample.memory.typeOf
    have hnegate := (hnew.emit .getLocal [1] 2 rfl rfl nofun).emit .negate [] 3 rfl rfl nofun
    exact ⟨_, rfl, hnegate.emit .ret [] 3 rfl rfl nofun⟩

/-- The error of the sample is one call deep: the trace has the line of the negation and that of
the call. -/
theorem interpret_trace_lines_negateSample :
    negateSample.Admits (some 0) ∧ negateSample.memory.Lined (negateSample.Known (some 0)) ∧
      0 < negateSample.machine.maxFrames ∧
      ∃ left, Exec.interpret (.of fun _ => []) 5 (some 0) negateSample = .done .runtimeError left ∧
        left.machine.lastError = some (.runtime ⟨.notNumber, [⟨"f", 3⟩, ⟨[], 1⟩]⟩) ∧
        ∃ (t : Execution) (f g : Frame), t.machine.frames = [f, g] ∧
          f.Blames t.memory .notNumber ⟨"f", 3⟩ ∧ g.Recalls t.memory ⟨[], 1⟩ := by
  obtain ⟨hadmits, hlined⟩ := negateSample_admits
  refine ⟨hadmits, hlined, Nat.two_pos, ?_⟩
  obtain ⟨left, hend, herror⟩ : ∃ left,
      Exec.interpret (.of fun _ => []) 5 (some 0) negateSample = .done .runtimeError left ∧
        left.machine.lastError = some (.runtime ⟨.notNumber, [⟨"f", 3⟩, ⟨[], 1⟩]⟩) :=
    ⟨_, rfl, rfl⟩
  refine ⟨left, hend, herror, ?_⟩
  obtain ⟨_, t, _, _, f, callers, _, _, _, _, _, hframes, herror', hblames, hrecalls⟩ :=
    interpret_trace_lines hadmits hlined Nat.two_pos hend
  cases herror.symm.trans herror'
  cases hrecalls with
  | @cons g _ _ _ hg hrest =>
    cases hrest
    exact ⟨t, f, g, hframes, hblames, hg⟩

/-! ### A full stack -/

/-- Three instructions on a line each. -/
def crowdedChunk : Chunk := { code := #[2, 2, 0], lines := #[1, 2, 3] }

/-- A builder that takes care emits it. -/
theorem crowdedChunk_built (m : Memory) : crowdedChunk.Built m.typeOf := by
  let first := Draft.after m {} (.emit Opcode.pushNil.toByte [] 1)
  let second := first.after m (.emit Opcode.pushNil.toByte [] 2)
  let whole := second.after m (.emit Opcode.ret.toByte [] 3)
  have hfirst : Draft.Runs Draft.Careful m {} m first :=
    .call .start ⟨.pushNil, rfl, rfl, rfl, nofun⟩
  have hsecond : Draft.Runs Draft.Careful m {} m second :=
    .call hfirst ⟨.pushNil, rfl, rfl, rfl, nofun⟩
  have hwhole : Draft.Runs Draft.Careful m {} m whole := .call hsecond ⟨.ret, rfl, rfl, rfl, nofun⟩
  exact Draft.emitted_built hwhole nofun

/-- A function with this code, and room for two values. -/
def crowdedSample : Execution :=
  { narrowSample with memory := { narrowSample.memory with chunks := #[crowdedChunk] } }

/-- The second instruction of the sample, on line 2, is rejected, and the trace has line 1. -/
theorem crowdedSample_trace_line_before :
    crowdedSample.Admits (some 0) ∧ crowdedSample.memory.Lined (crowdedSample.Known (some 0)) ∧
      ∃ t left, Exec.interpret (.of fun _ => []) 1 (some 0) crowdedSample = .unfinished t ∧
        Exec.step (Exec.alloc (.of fun _ => [])) t = .error (.raised .operandOverflow) t ∧
        t.machine.frames = [⟨0, 1, 0⟩] ∧
        (t.memory.function? 0).bind t.memory.chunkOf? = some crowdedChunk ∧
        crowdedChunk.Starts 0 1 ∧ crowdedChunk.Decodes 1 .pushNil ∧ crowdedChunk.lineAt 1 = 2 ∧
        Exec.interpret (.of fun _ => []) 2 (some 0) crowdedSample = .done .runtimeError left ∧
        left.machine.lastError = some (.runtime ⟨.operandOverflow, [⟨[], 1⟩]⟩) := by
  obtain ⟨hadmits, hlined⟩ : crowdedSample.Admits (some 0) ∧
      crowdedSample.memory.Lined (crowdedSample.Known (some 0)) := by
    refine Execution.admits_of_built Nat.two_pos rfl fun i g hg => ?_
    match i, hg with
    | 0, hg =>
      cases hg
      exact ⟨_, rfl, crowdedChunk_built _⟩
  let full : Execution :=
    { crowdedSample with
      machine := { crowdedSample.machine with stack := #[.object 0, .nil], frames := [⟨0, 1, 0⟩] } }
  have hfirst : crowdedChunk.Decodes 0 .pushNil := ⟨2, rfl, rfl⟩
  exact ⟨hadmits, hlined, full, Exec.abandon full .operandOverflow, rfl, rfl, rfl, rfl,
    Chunk.Starts.here.snoc hfirst, ⟨2, rfl, rfl⟩, rfl, rfl, rfl⟩

end StackVm
