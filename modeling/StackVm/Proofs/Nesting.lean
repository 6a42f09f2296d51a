/-
The stack is cut into one piece for each call.  In every state that an interpretation comes
to, the pieces lie above each other, an instruction takes its operands from the innermost one
above its callee slot, and what lies below could just as well be something else.
-/
import StackVm.Proofs.Moves

namespace StackVm

variable {s u : Execution} {xs ys rest : Array Value} {others : Holdings} {f : Frame}
  {callers : List Frame} {c : Chunk} {n : Nat} {op : Opcode}

/-! ### Another bottom -/

/-- The execution with other values at the bottom of its stack. -/
def Execution.withBottom (s : Execution) (ys : Array Value) : Execution :=
  { s with machine := { s.machine with
      stack := ys ++ s.machine.stack.extract ys.size s.machine.stack.size } }

/-- Makes objects as if the values `xs` were at the bottom of the stack.  The whole stack
keeps objects alive, so that an allocation does depend on the bottom. -/
def Exec.makeOver (xs : Array Value) (make : Exec.Allocator) : Exec.Allocator := fun p s =>
  onState (fun t => { t with machine := s.machine }) (make p (s.withBottom xs))

/-- A stack is what lies below some height and what lies above it. -/
theorem extract_split (stack : Array Value) {height : Nat} (hheight : height ≤ stack.size) :
    stack = stack.extract 0 height ++ stack.extract height stack.size := by
  rw [Array.extract_append_extract, Nat.zero_min, Nat.max_eq_right hheight, Array.extract_size]

theorem Execution.over_withBottom (u : Execution) (hlevel : ys.size = xs.size) :
    (u.over xs).withBottom ys = u.over ys := by
  have hrest : (xs ++ u.machine.stack).extract ys.size (xs ++ u.machine.stack).size =
      u.machine.stack := by
    rw [hlevel, Array.extract_append, Array.size_append, Array.extract_eq_empty_of_le (by omega),
      Array.empty_append, Nat.sub_self, Nat.add_sub_cancel_left, Array.extract_size]
  rw [withBottom, Execution.over, Execution.over, hrest]

/-- An allocation over any bottom is like one over the bottom that is taken as a root. -/
theorem Exec.agree_makeOver (hlevel : ys.size = xs.size) (others : Holdings) :
    Bottoms.Agree ⟨xs, ys, hlevel⟩ (Exec.alloc others)
      (Exec.makeOver xs (Exec.alloc others)) := by
  intro p u hkind
  have hright : Exec.makeOver xs (Exec.alloc others) p (u.over ys) =
      onState (fun t => { t with machine := (u.over ys).machine })
        (Exec.alloc others p (u.over xs)) := by
    rw [makeOver, u.over_withBottom hlevel.symm]
  rw [hright]
  cases halloc : Memory.alloc ((u.over xs).machine.holdings others) p u.memory with
  | error e m =>
    rw [Exec.alloc_of_error (s := u.over xs) halloc]
    refine .stop (u := { u with memory := m }) fun hcrash => ?_
    cases hcrash
    cases Memory.alloc_error halloc
  | ok id m =>
    rw [Exec.alloc_of_ok (s := u.over xs) halloc]
    exact .ok (u := { u with memory := m }) ⟨rfl, Memory.Evolves.alloc halloc hkind⟩

/-! ### Nested calls -/

/-- At least one call is active and no more than allowed; the pieces of the stack that
belong to the calls lie above each other from the bottom on, none of them empty, and the
stack is not too high. -/
structure Execution.Nested (s : Execution) : Prop where
  called : s.machine.frames ≠ []
  frames : s.machine.frames.length ≤ s.machine.maxFrames
  outermost : (s.machine.frames.map Frame.base).getLast? = some 0
  ordered : (s.machine.frames.map Frame.base).Pairwise (· > ·)
  below : ∀ f ∈ s.machine.frames, f.base < s.machine.stack.size
  depth : s.machine.stack.size ≤ s.machine.stackMax

/-- The innermost call of an execution, with its callers. -/
def Execution.activation (s : Execution) (f : Frame) (callers : List Frame) : Activation :=
  ⟨f.function, f.base, callers, s.machine.stackMax, s.machine.maxFrames⟩

theorem Execution.Next.unique {c' : Chunk} {n' : Nat} {op' : Opcode} (h : s.Next c n op)
    (h' : s.Next c' n' op') : c = c' ∧ n = n' ∧ op = op' := by
  obtain ⟨⟨f, hf, hn, hc⟩, hop⟩ := h
  obtain ⟨⟨f', hf', hn', hc'⟩, hop'⟩ := h'
  cases hf.symm.trans hf'
  cases hc.symm.trans hc'
  cases Int.ofNat.inj (hn.symm.trans hn')
  cases hop.symm.trans hop'
  exact ⟨rfl, rfl, rfl⟩

namespace Execution.Nested

theorem outer_base (h : s.Nested) (hframes : s.machine.frames = [f]) : f.base = 0 := by
  have hlast := h.outermost
  rw [hframes] at hlast
  exact Option.some.inj hlast

theorem callers_below (h : s.Nested) (hframes : s.machine.frames = f :: callers) :
    ∀ f' ∈ callers, f'.base < f.base := by
  have hordered := h.ordered
  rw [hframes, List.map_cons, List.pairwise_cons] at hordered
  exact fun f' hf' => hordered.1 _ (List.mem_map_of_mem hf')

/-- One instruction over the bottom of the stack and over another one in its place. -/
theorem step_over (h : s.Nested) (hframes : s.machine.frames = f :: callers)
    (hstack : s.machine.stack = xs ++ rest) (hlevel : ys.size = xs.size)
    (hbottom : xs.size ≤ f.base + 1)
    (hlocal : ∀ c n op, s.Next c n op → op.usesCallee = true → xs.size ≤ f.base)
    (others : Holdings) :
    Bottoms.Keep ⟨xs, ys, hlevel⟩ s.Misreads
      (fun progress u => ∃ c n op, s.Next c n op ∧
        f.base + 1 + op.needs c.code[n + 1]? ≤ s.machine.stack.size ∧
        (s.activation f callers).Moves xs.size c n rest op progress u)
      (Exec.step (Exec.alloc others) s)
      (Exec.step (Exec.makeOver xs (Exec.alloc others)) (s.withBottom ys)) := by
  let upper : Execution := { s with machine := { s.machine with stack := rest } }
  have hleft : upper.over xs = s := by
    rw [Execution.over]
    simp only [upper, ← hstack]
  have hright : upper.over ys = s.withBottom ys := by
    rw [← hleft, upper.over_withBottom hlevel]
  have hat : (s.activation f callers).At f.ip rest.size upper := ⟨hframes, rfl, rfl, rfl⟩
  have hsize : s.machine.stack.size = xs.size + rest.size := by
    rw [hstack, Array.size_append]
  have hbase : f.base < xs.size + rest.size := by
    rw [← hsize]
    exact h.below f (hframes ▸ List.mem_cons_self)
  have hstep := hat.step (Exec.agree_makeOver hlevel others)
    (fun hmisreads => (hleft ▸ hmisreads : s.Misreads)) hbottom
    (fun c n op hnext => hlocal c n op (hleft ▸ hnext))
    (fun hnil => h.outer_base (hframes.trans (congrArg (f :: ·) hnil))) hbase
  rw [hleft, hright] at hstep
  rw [hsize]
  exact hstep

/-- What an instruction does above a bottom that its call does not reach into. -/
theorem step_ok (h : s.Nested) (hframes : s.machine.frames = f :: callers)
    (hstack : s.machine.stack = xs ++ rest) (hbottom : xs.size ≤ f.base) {progress : Progress}
    {t : Execution} (hstep : Exec.step (Exec.alloc others) s = .ok progress t) :
    ∃ u c n op, t = u.over xs ∧ s.Next c n op ∧
      f.base + 1 + op.needs c.code[n + 1]? ≤ s.machine.stack.size ∧
      (s.activation f callers).Moves xs.size c n rest op progress u := by
  have hkeep := h.step_over hframes hstack (Eq.refl xs.size) (Nat.le_succ_of_le hbottom)
    (fun _ _ _ _ _ => hbottom) others
  rw [hstep] at hkeep
  generalize Exec.step _ (s.withBottom xs) = r at hkeep
  cases hkeep with
  | @ok _ u hpost =>
    obtain ⟨c, n, op, hnext, hneeds, hmoves⟩ := hpost
    exact ⟨u, c, n, op, rfl, hnext, hneeds, hmoves⟩

/-- The same where the whole stack belongs to it. -/
theorem step_ok_whole (h : s.Nested) (hframes : s.machine.frames = f :: callers)
    {progress : Progress} {t : Execution}
    (hstep : Exec.step (Exec.alloc others) s = .ok progress t) :
    ∃ c n op, s.Next c n op ∧ f.base + 1 + op.needs c.code[n + 1]? ≤ s.machine.stack.size ∧
      (s.activation f callers).Moves 0 c n s.machine.stack op progress t := by
  obtain ⟨u, c, n, op, rfl, hnext, hneeds, hmoves⟩ :=
    h.step_ok hframes Array.empty_append.symm (Nat.zero_le _) hstep
  rw [u.over_of_empty Array.size_empty]
  exact ⟨c, n, op, hnext, hneeds, hmoves⟩

/-- An instruction addresses nothing outside the stack. -/
theorem misreads_of_crash (h : s.Nested) {t : Execution}
    (hcrash : Exec.step (Exec.alloc others) s = .error (.fault .crash) t) : s.Misreads := by
  obtain ⟨f, callers, hframes⟩ := List.exists_cons_of_ne_nil h.called
  have hkeep := h.step_over hframes Array.empty_append.symm (Eq.refl (#[] : Array Value).size)
    (Nat.zero_le _) (fun _ _ _ _ _ => Nat.zero_le _) others
  rw [hcrash] at hkeep
  generalize Exec.step _ (s.withBottom #[]) = r at hkeep
  cases hkeep with
  | stop hexcuse => exact hexcuse rfl

end Execution.Nested

/-- The calls stay nested. -/
theorem Activation.Moves.nested (h : s.Nested) (hframes : s.machine.frames = f :: callers)
    (hstack : s.machine.stack = xs ++ rest) (hbottom : xs.size ≤ f.base)
    (hmoves : (s.activation f callers).Moves xs.size c n rest op .running u) :
    (u.over xs).Nested := by
  have hcount := h.frames
  have hlast := h.outermost
  have hordered := h.ordered
  have hcallers := h.callers_below hframes
  have hsize : s.machine.stack.size = xs.size + rest.size := by
    rw [hstack, Array.size_append]
  have hfull := h.depth
  rw [hframes, List.length_cons] at hcount
  rw [hframes, List.map_cons] at hlast hordered
  -- The frames of the new state, its limits and its height are all that matters.
  have hnested : ∀ {frames : List Frame} {depth : Nat}, u.machine.frames = frames →
      u.machine.maxFrames = s.machine.maxFrames → u.machine.stackMax = s.machine.stackMax →
      xs.size + u.machine.stack.size = depth → frames ≠ [] →
      frames.length ≤ s.machine.maxFrames → (frames.map Frame.base).getLast? = some 0 →
      (frames.map Frame.base).Pairwise (· > ·) → (∀ f' ∈ frames, f'.base < depth) →
      depth ≤ s.machine.stackMax → (u.over xs).Nested := by
    intro frames depth hu hmaxFrames hstackMax hdepth hne hle hgetLast hpairwise hbelow hroom
    have hover : (u.over xs).machine.stack.size = depth := by
      rw [Execution.over, Array.size_append, hdepth]
    subst hu
    exact ⟨hne, hmaxFrames ▸ hle, hgetLast, hpairwise, hover ▸ hbelow, hover ▸ hstackMax ▸ hroom⟩
  cases hmoves with
  | goes _ _ hgoes =>
    obtain ⟨ip, depth, hat, hbase, hroom⟩ := hgoes
    have hbase' : f.base < xs.size + depth := hbase
    refine hnested hat.frames hat.maxFrames hat.stackMax (congrArg _ hat.depth)
      (List.cons_ne_nil _ _) hcount hlast hordered ?_ hroom
    intro f' hf'
    rcases List.mem_cons.1 hf' with rfl | hf'
    · exact hbase'
    · exact Nat.lt_trans (hcallers f' hf') hbase'
  | @calls argc id _ _ _ hargs hroom hfree hcalled hstackMax hmaxFrames hkept =>
    have hargs' : f.base + 1 + (argc.toNat + 1) ≤ xs.size + rest.size := hargs
    have hinner : f.base < xs.size + rest.size - argc.toNat - 1 := by omega
    refine hnested hcalled hmaxFrames hstackMax (congrArg _ (congrArg _ hkept))
      (List.cons_ne_nil _ _) hfree ?_ ?_ ?_ hroom
    · rw [List.map_cons, List.map_cons, List.getLast?_cons_cons]
      exact hlast
    · rw [List.map_cons, List.map_cons, List.pairwise_cons]
      refine ⟨fun base hbase => ?_, hordered⟩
      rcases List.mem_cons.1 hbase with rfl | hbase
      · exact hinner
      · exact Nat.lt_trans ((List.pairwise_cons.1 hordered).1 base hbase) hinner
    · intro f' hf'
      rcases List.mem_cons.1 hf' with rfl | hf'
      · change xs.size + rest.size - argc.toNat - 1 < _
        omega
      · rcases List.mem_cons.1 hf' with rfl | hf'
        · exact Nat.lt_trans hinner (by omega)
        · exact Nat.lt_trans (hcallers f' hf') (by omega)
  | @returns v _ hne _ hreturned hstackMax hmaxFrames hreplaced hroom =>
    have hbase : f.base < s.machine.stack.size := h.below f (hframes ▸ List.mem_cons_self)
    have hdepth : xs.size + u.machine.stack.size = f.base + 1 := by
      have hbelow : (s.activation f callers).base = f.base := rfl
      rw [hreplaced, Array.size_push, Array.size_shrink, hbelow]
      omega
    refine hnested hreturned hmaxFrames hstackMax hdepth hne (Nat.le_of_succ_le hcount) ?_
      (List.pairwise_cons.1 hordered).2 (fun f' hf' => Nat.lt_succ_of_lt (hcallers f' hf')) hroom
    obtain ⟨caller, outer, rfl⟩ := List.exists_cons_of_ne_nil hne
    rw [List.map_cons, List.getLast?_cons_cons] at hlast
    exact hlast

/-! ### The states an interpretation comes to -/

/-- The state comes up in an interpretation with room for a call, before an instruction. -/
def Execution.Reached (others : Holdings) (s : Execution) : Prop :=
  ∃ (start : Execution) (fn : Option ObjectId) (steps : Nat), 0 < start.machine.maxFrames ∧
    Exec.interpret others steps fn start = .unfinished s

/-- What every running instruction preserves stays for any number of them. -/
theorem Exec.runWith_unfinished {make : Exec.Allocator} {P : Execution → Prop}
    (hstep : ∀ s t, P s → Exec.step make s = .ok .running t → P t) {steps : Nat}
    {s t : Execution} (hs : P s) (h : Exec.runWith make steps s = .unfinished t) : P t := by
  induction steps generalizing s with
  | zero =>
    cases h
    exact hs
  | succ steps ih =>
    rw [Exec.runWith] at h
    split at h
    · next hrun => exact ih (hstep _ _ hs hrun) h
    · cases h
    · cases h
    · cases h

/-- The outermost call on a stack that holds nothing but its function. -/
def Execution.entered (s : Execution) (id : ObjectId) : Execution :=
  { s with machine := { s.machine with frames := [⟨id, 0, 0⟩], stack := #[.object id] } }

/-- Entering a function needs its code and room for one value. -/
theorem Exec.enter_ok {id : ObjectId} {t : Execution} (hempty : s.machine.stack = #[])
    (h : Exec.enter id s = .ok () t) : 0 < s.machine.stackMax ∧ t = s.entered id := by
  let called : Execution := { s with machine := { s.machine with frames := [⟨id, 0, 0⟩] } }
  have henter : Exec.enter id s =
      (Exec.present ((s.memory.function? id).bind s.memory.chunkOf?) >>= fun _ =>
        Exec.push (.object id)) called := rfl
  rw [henter] at h
  cases hcode : (s.memory.function? id).bind s.memory.chunkOf? with
  | none =>
    rw [hcode] at h
    cases h
  | some c =>
    rw [hcode, present_bind] at h
    have hpush : (Exec.push (.object id) >>= pure) called = .ok () t := by
      rwa [bind_pure]
    have hheight : called.machine.stack.size = 0 := by
      rw [← Array.size_empty, ← hempty]
    by_cases hroom : 0 < s.machine.stackMax
    · rw [push_bind (hheight ▸ hroom)] at hpush
      cases hpush
      refine ⟨hroom, ?_⟩
      rw [Execution.entered]
      simp only [called, hempty]
      rfl
    · rw [Exec.push, bind_assoc, get_bind_apply, if_neg (hheight ▸ hroom)] at hpush
      cases hpush

/-- An interpretation that does not end early is the run from its function alone on the stack. -/
theorem Exec.interpret_unfinished {start : Execution} {fn : Option ObjectId} {steps : Nat}
    (h : Exec.interpret others steps fn start = .unfinished s) :
    start.machine.closed = false ∧ 0 < start.machine.stackMax ∧
      ∃ (id : ObjectId) (memory : Memory), ∀ fuel, Exec.interpret others fuel fn start =
        Exec.runWith (Exec.alloc others) fuel
          (Execution.entered { start with memory, machine := Exec.restart start.machine } id) := by
  rw [interpret, interpretWith] at h
  by_cases hclosed : start.machine.closed = true
  · rw [if_pos hclosed] at h
    cases h
  rw [if_neg hclosed] at h
  cases fn with
  | none => cases h
  | some id =>
    dsimp only at h
    cases hverify : (start.memory.verify id).2 with
    | some e =>
      rw [hverify] at h
      cases h
    | none =>
      rw [hverify] at h
      dsimp only at h
      split at h
      · next hentered =>
        obtain ⟨hstack, rfl⟩ := Exec.enter_ok rfl hentered
        refine ⟨Bool.eq_false_iff.2 hclosed, hstack, id, (start.memory.verify id).1, fun fuel => ?_⟩
        rw [interpret, interpretWith, if_neg hclosed]
        simp only [hverify, hentered]
      · cases h
      · cases h

theorem Execution.Nested.step (h : s.Nested) {t : Execution}
    (hstep : Exec.step (Exec.alloc others) s = .ok .running t) : t.Nested := by
  obtain ⟨f, callers, hframes⟩ := List.exists_cons_of_ne_nil h.called
  have hempty : s.machine.stack = #[] ++ s.machine.stack := Array.empty_append.symm
  obtain ⟨u, c, n, op, rfl, _, _, hmoves⟩ := h.step_ok hframes hempty (Nat.zero_le _) hstep
  exact hmoves.nested h hframes hempty (Nat.zero_le _)

theorem Execution.Reached.nested (h : s.Reached others) : s.Nested := by
  obtain ⟨start, fn, steps, hframes, hrun⟩ := h
  obtain ⟨-, hstack, id, memory, hinterpret⟩ := Exec.interpret_unfinished hrun
  rw [hinterpret] at hrun
  refine Exec.runWith_unfinished (fun _ _ hs hstep => hs.step hstep) ?_ hrun
  refine ⟨List.cons_ne_nil _ _, hframes, rfl, List.pairwise_singleton _ _, ?_, hstack⟩
  intro f hf
  rw [List.mem_singleton.1 hf]
  exact Nat.one_pos

/-- However far an interpretation is, its calls are nested.  The next instruction addresses
nothing outside the stack: it crashes only where its code cannot be read.  It goes on only if
its operands lie above the callee slot of its call.  What lies below them it neither reads
nor changes, the callee slot included unless it is a return or an access to a local. -/
theorem Execution.Reached.operands_above (h : s.Reached others) :
    s.Nested ∧
    (∀ t, Exec.step (Exec.alloc others) s = .error (.fault .crash) t → s.Misreads) ∧
    ∀ f, s.machine.frames.head? = some f →
      (∀ progress t c n op, Exec.step (Exec.alloc others) s = .ok progress t → s.Next c n op →
        f.base + 1 + op.needs c.code[n + 1]? ≤ s.machine.stack.size) ∧
      ∀ ys : Array Value, ys.size ≤ f.base + 1 →
        (∀ c n op, s.Next c n op → op.usesCallee = true → ys.size ≤ f.base) →
        Exec.step
            (Exec.makeOver (s.machine.stack.extract 0 ys.size) (Exec.alloc others))
            (s.withBottom ys) =
          onState (·.withBottom ys) (Exec.step (Exec.alloc others) s) := by
  have hnested := h.nested
  obtain ⟨f, callers, hframes⟩ := List.exists_cons_of_ne_nil hnested.called
  refine ⟨hnested, fun t hcrash => hnested.misreads_of_crash hcrash, fun f' hf' => ?_⟩
  rw [hframes, List.head?_cons] at hf'
  cases hf'
  refine ⟨fun progress t c n op hok hnext => ?_, fun ys hys hlocal => ?_⟩
  · obtain ⟨c', n', op', hnext', hneeds, _⟩ := hnested.step_ok_whole hframes hok
    obtain ⟨rfl, rfl, rfl⟩ := hnext.unique hnext'
    exact hneeds
  · have hbase : f.base < s.machine.stack.size := hnested.below f (hframes ▸ List.mem_cons_self)
    have hlevel : ys.size = (s.machine.stack.extract 0 ys.size).size := by
      rw [Array.size_extract]
      omega
    have hkeep := hnested.step_over hframes (extract_split _ (by omega)) hlevel (hlevel ▸ hys)
      (fun c n op hnext huses => hlevel ▸ hlocal c n op hnext huses) others
    revert hkeep
    generalize Exec.step (Exec.alloc others) s = r
    generalize Exec.step _ (s.withBottom ys) = r'
    intro hkeep
    cases hkeep with
    | ok => rw [onState, Execution.over_withBottom _ hlevel]
    | stop => rw [onState, Execution.over_withBottom _ hlevel]

/-! ### A call that is about to be made -/

/-- A function that calls another one with nil, which gives it back. -/
def callSample : Execution where
  memory :=
    { heap := { Heap.create 0 .standard with
        slots := #[some 0, some 1]
        generations := #[1, 1]
        marks := #[false, false]
        live := 2
        roots := ⟨1, [⟨1, "vm"⟩]⟩ }
      objects := #[
        ⟨.function { chunk := some 0, verified := true }, some ⟨0, 0, 1, false⟩⟩,
        ⟨.function { arity := 1, chunk := some 1, verified := true }, some ⟨0, 1, 1, false⟩⟩]
      chunks := #[
        { code := #[1, 0, 2, 24, 1, 0], lines := #[1, 1, 1, 1, 1, 1], constants := #[.object 1] },
        { code := #[6, 1, 0], lines := #[2, 2, 2] }] }
  machine := { source := 1, stackMax := 8, maxFrames := 2 }

/-- The same before the call. -/
def callingSample : Execution :=
  { callSample with
    machine := { callSample.machine with
      stack := #[.object 0, .object 1, .nil]
      frames := [⟨0, 3, 0⟩] } }

theorem callingSample_reached : callingSample.Reached (.of fun _ => []) :=
  ⟨callSample, some 0, 2, Nat.two_pos, rfl⟩

theorem callingSample_next :
    callingSample.Next
      { code := #[1, 0, 2, 24, 1, 0], lines := #[1, 1, 1, 1, 1, 1], constants := #[.object 1] }
      3 .call :=
  ⟨⟨_, rfl, rfl, rfl⟩, rfl⟩

/-- The call does not depend on the callee slot of the caller. -/
theorem Execution.Reached.operands_above_callingSample :
    callingSample.Reached (.of fun _ => []) ∧ callingSample.Nested ∧
      Exec.step (Exec.makeOver #[.object 0] (Exec.alloc (.of fun _ => [])))
          (callingSample.withBottom #[.int 7]) =
        onState (·.withBottom #[.int 7])
          (Exec.step (Exec.alloc (.of fun _ => [])) callingSample) := by
  obtain ⟨hnested, _, habove⟩ := callingSample_reached.operands_above
  refine ⟨callingSample_reached, hnested,
    (habove ⟨0, 3, 0⟩ rfl).2 #[.int 7] (Nat.le_refl 1) fun c n op hnext huses => ?_⟩
  obtain ⟨rfl, rfl, rfl⟩ := hnext.unique callingSample_next
  cases huses

end StackVm
