/-
Attempts on functions, one after the other: each verifies a function, or has a machine run
one with whatever that calls.  In between the memory changes as it likes, but functions,
code and the kinds of objects stay, so that the verdicts hang on what the attempts before
have left behind verified.
-/
import StackVm.Proofs.Upkeep
import StackVm.Proofs.Verification

namespace StackVm

open Relation (ReflTransGen TransGen)

namespace Memory

variable {m n : Memory} {id : ObjectId} {allowed : Memory → ObjectId → Prop}

/-- Constants refer to objects that are there. -/
def Grounded (m : Memory) : Prop := ∀ i j, m.Links i j → ∃ p, m.payload? j = some p

/-! ### What stays under changes -/

theorem Keeps.chunkOf? (h : m.Keeps n) (f : Function) : n.chunkOf? f = m.chunkOf? f := by
  rw [Memory.chunkOf?, Memory.chunkOf?, h.chunks]

theorem Keeps.links (h : m.Keeps n) : n.Links = m.Links := by
  funext i j
  simp only [Links, h.function, h.chunkOf?]

theorem Keeps.grounded (h : m.Keeps n) (hm : m.Grounded) : n.Grounded := by
  intro i j hlinks
  obtain ⟨p, hp⟩ := hm i j (h.links ▸ hlinks)
  obtain ⟨q, hq, _⟩ := h.kind hp
  exact ⟨q, hq⟩

theorem Keeps.typeOf_constant (h : m.Keeps n) (hm : m.Grounded) {f : Function} {c : Chunk}
    (hf : m.function? id = some f) (hc : m.chunkOf? f = some c) {v : Value}
    (hv : v ∈ c.constants) : n.typeOf v = m.typeOf v := by
  cases v with
  | object j =>
    have hlinks : m.Links id j :=
      ⟨f, c, hf, hc, List.mem_filterMap.2 ⟨.object j, Array.mem_toList_iff.2 hv, rfl⟩⟩
    obtain ⟨p, hp⟩ := hm id j hlinks
    obtain ⟨q, hq, hkind⟩ := h.kind hp
    rw [typeOf_object, typeOf_object, hp, hq, Option.map_some, Option.map_some, hkind]
  | _ => rfl

theorem Keeps.valid (h : m.Keeps n) (hm : m.Grounded) : n.Valid id ↔ m.Valid id := by
  rw [Valid, Valid]
  refine forall_congr' fun f => ?_
  rw [h.function]
  refine imp_congr_right fun hf => ?_
  rw [Passes, Passes]
  refine exists_congr fun c => ?_
  rw [h.chunkOf?]
  refine and_congr_right fun hc => ?_
  exact Chunk.validate_congr fun v hv => h.typeOf_constant hm hf hc hv

theorem Keeps.whollyValid (h : m.Keeps n) (hm : m.Grounded) :
    n.WhollyValid id ↔ m.WhollyValid id := by
  rw [WhollyValid, WhollyValid, h.links]
  exact forall_congr' fun _ => imp_congr_right fun _ => h.valid hm

theorem Keeps.settled (h : m.Keeps n) (hm : m.Grounded) (hsettled : m.Settled) : n.Settled := by
  intro i f hf hverified
  rw [h.function] at hf
  obtain ⟨hvalid, hcovers⟩ := hsettled i f hf hverified
  refine ⟨(h.valid hm).2 hvalid, fun j hj g hg => ?_⟩
  exact hcovers j (h.links ▸ hj) g (h.function j ▸ hg)

/-! ### Histories -/

theorem verify_links (m : Memory) (id : ObjectId) : (m.verify id).1.Links = m.Links := by
  obtain ⟨_, hremembers⟩ := m.verify_remembers id
  exact hremembers.links

theorem Grounded.verify (hm : m.Grounded) (id : ObjectId) : (m.verify id).1.Grounded := by
  intro i j hlinks
  obtain ⟨p, hp⟩ := hm i j (verify_links m id ▸ hlinks)
  obtain ⟨q, hq, _⟩ := (Evolves.verify m id).kind hp
  exact ⟨q, hq⟩

namespace History

theorem links (h : m.History allowed n) : n.Links = m.Links := by
  induction h with
  | start => rfl
  | change _ hkeeps ih => exact hkeeps.links.trans ih
  | verify _ _ ih => exact (verify_links _ _).trans ih

theorem grounded (h : m.History allowed n) (hm : m.Grounded) : n.Grounded := by
  induction h with
  | start => exact hm
  | change _ hkeeps ih => exact hkeeps.grounded ih
  | verify _ _ ih => exact ih.verify _

/-- Whatever has happened, the same functions are wholly valid. -/
theorem whollyValid (h : m.History allowed n) (hm : m.Grounded) :
    n.WhollyValid id ↔ m.WhollyValid id := by
  induction h with
  | start => exact Iff.rfl
  | change hbefore hkeeps ih => exact (hkeeps.whollyValid (hbefore.grounded hm)).trans ih
  | @verify o i _ _ ih =>
    obtain ⟨_, hremembers⟩ := o.verify_remembers i
    exact hremembers.whollyValid.trans ih

/-- Without failures, or without cycles, only functions that lead to verified functions are
verified. -/
theorem settled (h : m.History allowed n) (hm : m.Grounded) (hsettled : m.Settled)
    (hcase : (∀ o i, allowed o i → (o.verify i).2 = none) ∨ ∀ i, ¬ TransGen m.Links i i) :
    n.Settled := by
  induction h with
  | start => exact hsettled
  | change hbefore hkeeps ih => exact hkeeps.settled (hbefore.grounded hm) ih
  | verify hbefore hallowed ih =>
    rcases hcase with hsucceeds | hacyclic
    · exact (verify_finished ih (hsucceeds _ _ hallowed)).1
    · exact ih.verify_of_acyclic (hbefore.links ▸ hacyclic) _

end History

end Memory

/-! ### Runs -/

/-- An interpretation has ended at a function that may not run: its own or a callee. -/
def Interpretation.Rejects : Interpretation → Prop
  | .done _ s => (∃ e, s.machine.lastError = some (.invalid e)) ∨
      ∃ r e, s.machine.lastError = some (.runtime r) ∧ r.cause = .invalidCallee e
  | _ => False

namespace Exec

variable {allowed : Memory → ObjectId → Prop} {others : Holdings} {s : Execution}

theorem quiet_enter (id : ObjectId) : Quiet (enter id) :=
  (leaves_modifyMachine _).bind fun _ => leaves_chunk.bind fun _ => leaves_push _

/-- A run verifies callees, and otherwise changes nothing that matters to that. -/
theorem runWith_history (hallowed : ∀ n id, (n.verify id).2 = none → allowed n id) (fuel : Nat)
    (s : Execution) :
    s.memory.History allowed (runWith (alloc others) fuel s).state.memory ∨
      (∃ n id, ¬ allowed n id) ∧ (runWith (alloc others) fuel s).Rejects := by
  induction fuel generalizing s with
  | zero => exact Or.inl .start
  | succ fuel ih =>
    rw [runWith]
    rcases verifies_step hallowed others s with hstep | ⟨hnot, e, t, hstop⟩
    · cases hresult : step (alloc others) s with
      | ok progress t =>
        rw [hresult] at hstep
        cases progress with
        | running => exact (ih t).imp_left hstep.trans
        | finished => exact Or.inl hstep
      | error e t =>
        rw [hresult] at hstep
        cases e with
        | raised cause => exact Or.inl hstep
        | fault f => exact Or.inl hstep
    · rw [hstop]
      exact Or.inr ⟨hnot, Or.inr ⟨_, e, rfl, rfl⟩⟩

/-- The same for a whole interpretation, which verifies its own function first. -/
theorem interpret_history (hallowed : ∀ n id, (n.verify id).2 = none → allowed n id) (fuel : Nat)
    (fn : Option ObjectId) (s : Execution) :
    s.memory.History allowed (interpret others fuel fn s).state.memory ∨
      (∃ n id, ¬ allowed n id) ∧ (interpret others fuel fn s).Rejects := by
  rw [interpret, interpretWith]
  split
  · exact Or.inl .start
  · cases fn with
    | none => exact Or.inl .start
    | some id =>
      dsimp only
      by_cases h : allowed s.memory id
      · have hverified : s.memory.History allowed (s.memory.verify id).1 := .verify .start h
        cases hverify : (s.memory.verify id).2 with
        | some e => exact Or.inl hverified
        | none =>
          let verified : Execution :=
            { s with memory := (s.memory.verify id).1, machine := restart s.machine }
          have hentered : s.memory.History allowed (stateAfter (enter id verified)).memory :=
            hverified.change (quiet_enter id verified)
          dsimp only
          cases henter : enter id verified with
          | ok a t =>
            rw [henter] at hentered
            exact (runWith_history hallowed fuel t).imp_left hentered.trans
          | error e t =>
            rw [henter] at hentered
            cases e with
            | raised cause => exact Or.inl hentered
            | fault f => exact Or.inl hentered
      · cases hverify : (s.memory.verify id).2 with
        | none => exact absurd (hallowed s.memory id hverify) h
        | some e => exact Or.inr ⟨⟨_, _, h⟩, Or.inl ⟨e, rfl⟩⟩

theorem evolves_interpret (others : Holdings) (fuel : Nat) (fn : Option ObjectId) (s : Execution) :
    s.memory.Evolves (interpret others fuel fn s).state.memory := by
  rcases interpret_history (fun _ _ _ => trivial) fuel fn s with hhistory | ⟨⟨_, _, hnot⟩, _⟩
  · exact hhistory.evolves
  · exact absurd trivial hnot

end Exec

/-! ### Attempts -/

/-- An attempt on a function: it is verified, or run on some machine. -/
inductive Attempt where
  | verify (id : ObjectId)
  | interpret (others : Holdings) (fuel : Nat) (fn : Option ObjectId) (s : Execution)

/-- The memory an attempt leaves. -/
def Attempt.after (m : Memory) : Attempt → Memory
  | .verify id => (m.verify id).1
  | .interpret others fuel fn s =>
    (Exec.interpret others fuel fn { s with memory := m }).state.memory

/-- An attempt comes upon a function that may not run. -/
def Attempt.Fails (m : Memory) : Attempt → Prop
  | .verify id => (m.verify id).2 ≠ none
  | .interpret others fuel fn s =>
    (Exec.interpret others fuel fn { s with memory := m }).Rejects

theorem Attempt.history {allowed : Memory → ObjectId → Prop}
    (hallowed : ∀ n id, (n.verify id).2 = none → allowed n id) (m : Memory) (a : Attempt) :
    m.History allowed (a.after m) ∨ (∃ n id, ¬ allowed n id) ∧ a.Fails m := by
  cases a with
  | verify id =>
    by_cases h : allowed m id
    · exact Or.inl (.verify .start h)
    · exact Or.inr ⟨⟨m, id, h⟩, fun hnone => h (hallowed m id hnone)⟩
  | interpret others fuel fn s =>
    exact Exec.interpret_history hallowed fuel fn { s with memory := m }

namespace Memory

variable {m : Memory} {as : List Attempt}

/-- The memory after attempts, one after the other. -/
def attempts (m : Memory) (as : List Attempt) : Memory := as.foldl Attempt.after m

/-- No attempt fails. -/
def AllSucceed (m : Memory) : List Attempt → Prop
  | [] => True
  | a :: rest => ¬ a.Fails m ∧ (a.after m).AllSucceed rest

theorem attempts_history (m : Memory) (as : List Attempt) :
    m.History (fun _ _ => True) (m.attempts as) := by
  induction as generalizing m with
  | nil => exact .start
  | cons a as ih =>
    rcases a.history (fun _ _ _ => trivial) m with hfirst | ⟨⟨_, _, hnot⟩, _⟩
    · exact hfirst.trans (ih _)
    · exact absurd trivial hnot

theorem AllSucceed.history (h : m.AllSucceed as) :
    m.History (fun n id => (n.verify id).2 = none) (m.attempts as) := by
  induction as generalizing m with
  | nil => exact .start
  | cons a as ih =>
    rcases a.history (fun _ _ hnone => hnone) m with hfirst | ⟨_, hfails⟩
    · exact hfirst.trans (ih h.2)
    · exact absurd hfails h.1

theorem Settled.attempts (hsettled : m.Settled) (hm : m.Grounded)
    (h : m.AllSucceed as ∨ ∀ i, ¬ TransGen m.Links i i) : (m.attempts as).Settled := by
  rcases h with hsucceed | hacyclic
  · exact hsucceed.history.settled hm hsettled (Or.inl fun _ _ hnone => hnone)
  · exact (m.attempts_history as).settled hm hsettled (Or.inr hacyclic)

end Memory

/-! ### Refusing -/

variable {s : Execution} {others : Holdings} {fuel : Nat} {id : ObjectId}

theorem Exec.runWith_compileError {make : Exec.Allocator} {t : Execution} :
    Exec.runWith make fuel s ≠ .done .compileError t := by
  induction fuel generalizing s with
  | zero =>
    intro h
    cases h
  | succ fuel ih =>
    rw [Exec.runWith]
    split
    · exact ih
    · intro h
      cases h
    · intro h
      cases h
    · intro h
      cases h

/-- What fails verification is refused on the spot. -/
theorem Exec.interpret_refuse (hopen : s.machine.closed = false) {e : VerifyError}
    (he : (s.memory.verify id).2 = some e) :
    Exec.interpret others fuel (some id) s =
      Exec.refuse
        { s with memory := (s.memory.verify id).1, machine := Exec.restart s.machine }
        (.invalid e) := by
  rw [Exec.interpret, Exec.interpretWith, hopen]
  dsimp only
  rw [he]
  rfl

theorem Exec.interpret_compileError (hopen : s.machine.closed = false) :
    (∃ t, Exec.interpret others fuel (some id) s = .done .compileError t) ↔
      (s.memory.verify id).2 ≠ none := by
  cases he : (s.memory.verify id).2 with
  | some e =>
    rw [Exec.interpret_refuse hopen he]
    refine ⟨fun _ hnone => ?_, fun _ => ⟨_, rfl⟩⟩
    cases hnone
  | none =>
    refine ⟨fun ⟨t, ht⟩ => ?_, fun hne => absurd rfl hne⟩
    rw [Exec.interpret, Exec.interpretWith, hopen] at ht
    dsimp only at ht
    rw [he] at ht
    simp only [Bool.false_eq_true, if_false] at ht
    split at ht
    · exact absurd ht Exec.runWith_compileError
    · cases ht
    · cases ht

/-- Attempts do not change what verification says, if none of them failed or no function leads
back to itself; and whatever they were, a function without fault is never refused.  What is
refused does not run. -/
theorem interpret_after_attempts {m : Memory} {as : List Attempt}
    (hfresh : ∀ i f, m.function? i = some f → f.verified = false) (hgrounded : m.Grounded)
    (hs : s.memory = m.attempts as) (hopen : s.machine.closed = false)
    (id : ObjectId) (others : Holdings) (fuel : Nat) :
    (m.WhollyValid id → (s.memory.verify id).2 = none) ∧
    (m.AllSucceed as ∨ (∀ i, ¬ TransGen m.Links i i) →
      ((s.memory.verify id).2 = none ↔ m.WhollyValid id) ∧
      ((∃ t, Exec.interpret others fuel (some id) s = .done .compileError t) ↔
        ¬ m.WhollyValid id)) ∧
    ∀ e, (s.memory.verify id).2 = some e →
      Exec.interpret others fuel (some id) s =
        Exec.refuse
          { s with memory := (s.memory.verify id).1, machine := Exec.restart s.machine }
          (.invalid e) := by
  have hsame : s.memory.WhollyValid id ↔ m.WhollyValid id := by
    rw [hs]
    exact (m.attempts_history as).whollyValid hgrounded
  refine ⟨fun h => (hsame.2 h).verify, fun h => ?_, fun e => Exec.interpret_refuse hopen⟩
  have hsettled : m.Settled := by
    intro i f hf hverified
    rw [hfresh i f hf] at hverified
    cases hverified
  have hexact : (s.memory.verify id).2 = none ↔ m.WhollyValid id := by
    rw [← hsame]
    exact Memory.Settled.verify_eq_none (hs ▸ hsettled.attempts hgrounded h)
  exact ⟨hexact, (Exec.interpret_compileError hopen).trans (not_congr hexact)⟩

/-! ### A cycle and a failure -/

/-- Code that returns nil. -/
def nilChunk (constants : Array Value) : Chunk := { code := #[2, 0], lines := #[1, 1], constants }

/-- Code with an unknown opcode.  Reading a chunk looks at no opcode, so that it can come from a
file. -/
def brokenChunk : Chunk := { code := #[238], lines := #[1] }

/-- Three functions.  The first one leads to the other two, of which the last one has broken
code; what the second one leads to is left open. -/
def linkSample (constants : Array Value) : Execution where
  memory :=
    { heap := { Heap.create 0 .standard with
        slots := #[some 0, some 1, some 2]
        generations := #[1, 1, 1]
        marks := #[false, false, false]
        live := 3
        roots := ⟨1, [⟨1, "vm"⟩]⟩ }
      objects := #[
        ⟨.function { chunk := some 0 }, some ⟨0, 0, 1, false⟩⟩,
        ⟨.function { chunk := some 1 }, some ⟨0, 1, 1, false⟩⟩,
        ⟨.function { chunk := some 2 }, some ⟨0, 2, 1, false⟩⟩]
      chunks := #[nilChunk #[.object 1, .object 2], nilChunk constants, brokenChunk] }
  machine := { source := 1, stackMax := 4, maxFrames := 2 }

/-- The same where the second function leads back to the first one. -/
def cycleSample : Execution := linkSample #[.object 0]

theorem nilChunk_valid (typeOf : Value → ValueType) (constants : Array Value) :
    (nilChunk constants).validate typeOf = .ok () := by
  have hnil : Chunk.Checked typeOf (nilChunk constants) 0 .pushNil := ⟨⟨2, rfl, rfl⟩, rfl, rfl⟩
  have hret : Chunk.Checked typeOf (nilChunk constants) 1 .ret := ⟨⟨0, rfl, rfl⟩, rfl, rfl⟩
  have hlinked : (nilChunk constants).unlinked = [] := rfl
  rw [Chunk.validate, if_pos hlinked, hnil.validateFrom]
  change (nilChunk constants).validateFrom typeOf 1 = _
  rw [hret.validateFrom]
  exact Chunk.validateFrom_size

theorem brokenChunk_invalid (typeOf : Value → ValueType) :
    brokenChunk.validate typeOf = .error (.unknownOpcode 0 238) := by
  have hlinked : brokenChunk.unlinked = [] := rfl
  have hpos : 0 < brokenChunk.code.size := Nat.one_pos
  rw [Chunk.validate, if_pos hlinked, Chunk.validateFrom, dif_pos hpos]
  rfl

theorem linkSample_function? {constants : Array Value} {i : ObjectId} {f : Function}
    (hf : (linkSample constants).memory.function? i = some f) :
    i < 3 ∧ f = { chunk := some i } := by
  match i, hf with
  | 0, hf => exact ⟨by decide, (Option.some.inj hf).symm⟩
  | 1, hf => exact ⟨by decide, (Option.some.inj hf).symm⟩
  | 2, hf => exact ⟨by decide, (Option.some.inj hf).symm⟩

/-- The first function leads to the broken one. -/
theorem linkSample_not_whollyValid (constants : Array Value) :
    ¬ (linkSample constants).memory.WhollyValid 0 := by
  intro h
  have hbroken : (linkSample constants).memory.Links 0 2 :=
    ⟨_, _, rfl, rfl, List.mem_cons_of_mem _ List.mem_cons_self⟩
  obtain ⟨c, hc, hvalid⟩ := h 2 (.single hbroken) _ rfl
  have hchunk : some brokenChunk = some c := hc
  cases hchunk
  rw [brokenChunk_invalid] at hvalid
  cases hvalid

/-- Where the second function leads nowhere, links only go from the first function on. -/
theorem linkSample_links {i j : ObjectId} (h : (linkSample #[]).memory.Links i j) :
    i = 0 ∧ (j = 1 ∨ j = 2) := by
  obtain ⟨f, c, hf, hc, hj⟩ := h
  obtain ⟨hi, rfl⟩ := linkSample_function? hf
  have hnone : ∀ c', some c' = some c → referents c'.constants.toList = [] → False := by
    intro c' hc' hempty
    cases hc'
    rw [hempty] at hj
    cases hj
  match i, hi with
  | 0, _ =>
    have hchunk : some (nilChunk #[.object 1, .object 2]) = some c := hc
    cases hchunk
    have hmem : j ∈ [1, 2] := hj
    simpa using hmem
  | 1, _ => exact (hnone (nilChunk #[]) hc rfl).elim
  | 2, _ => exact (hnone brokenChunk hc rfl).elim

/-- The search fails after it has left the second function behind. -/
theorem cycleSample_verify : cycleSample.memory.verify 0 =
    (cycleSample.memory.setVerified 1, some (.invalid "script" (.unknownOpcode 0 238))) := by
  let m := cycleSample.memory
  have hfirst : m.verifyOne { chunk := some 0 } = .ok [.object 1, .object 2] :=
    Memory.verifyOne_of_valid rfl (nilChunk_valid _ _)
  have hsecond : m.verifyOne { chunk := some 1 } = .ok [.object 0] :=
    Memory.verifyOne_of_valid rfl (nilChunk_valid _ _)
  have hbroken : m.verifyOne { chunk := some 2 } =
      .error (.invalid "script" (.unknownOpcode 0 238)) :=
    Memory.verifyOne_of_invalid rfl (brokenChunk_invalid _)
  have hf : m.function? 0 = some { chunk := some 0 } := rfl
  have hg : m.function? 1 = some { chunk := some 1 } := rfl
  have hh : m.function? 2 = some { chunk := some 2 } := rfl
  have hsearch : m.verifySearch [] [] [.enter 0] =
      ([1], some (.invalid "script" (.unknownOpcode 0 238))) := by
    rw [Memory.verifySearch_enter_some hf, if_neg (by decide), hfirst]
    change m.verifySearch [0] [] [.enter 1, .enter 2, .leave 0] = _
    rw [Memory.verifySearch_enter_some hg, if_neg (by decide), hsecond]
    change m.verifySearch [1, 0] [] [.enter 0, .leave 1, .enter 2, .leave 0] = _
    rw [Memory.verifySearch_enter_some hf, if_pos (by decide), Memory.verifySearch,
      Memory.verifySearch_enter_some hh, if_neg (by decide), hbroken]
  rw [Memory.verify_eq, if_neg (by decide), hsearch]
  rfl

/-- The second function is not wholly valid; but once the first one has been refused, it is
verified and runs. -/
theorem cycleSample_runs :
    ¬ cycleSample.memory.WhollyValid 1 ∧
      ∃ s t, Exec.interpret (.of fun _ => []) 2 (some 0) cycleSample = .done .compileError s ∧
        (s.memory.verify 1).2 = none ∧
        Exec.interpret (.of fun _ => []) 2 (some 1) s = .done .ok t := by
  have hback : cycleSample.memory.Links 1 0 := ⟨_, _, rfl, rfl, by decide⟩
  have hrefused : Exec.interpret (.of fun _ => []) 2 (some 0) cycleSample = _ :=
    Exec.interpret_refuse rfl (congrArg Prod.snd cycleSample_verify)
  rw [cycleSample_verify] at hrefused
  refine ⟨fun h => linkSample_not_whollyValid _ fun j hj => h j (.head hback hj), _, _, hrefused,
    rfl, rfl⟩

/-- The sample without the cycle, after the first function has been refused and the second
one has run. -/
def linkSampleLater : Execution :=
  { linkSample #[] with
    memory := (linkSample #[]).memory.attempts
      [.interpret (.of fun _ => []) 2 (some 0) (linkSample #[]),
        .interpret (.of fun _ => []) 2 (some 1) (linkSample #[])] }

/-- The first function stays refused there. -/
theorem interpret_after_attempts_linkSample :
    ∃ t, Exec.interpret (.of fun _ => []) 2 (some 0) linkSampleLater =
      .done .compileError t := by
  have hfresh : ∀ i f, (linkSample #[]).memory.function? i = some f → f.verified = false := by
    intro i f hf
    rw [(linkSample_function? hf).2]
  have hgrounded : (linkSample #[]).memory.Grounded := by
    intro i j hlinks
    obtain ⟨_, rfl | rfl⟩ := linkSample_links hlinks
    · exact ⟨_, rfl⟩
    · exact ⟨_, rfl⟩
  have hacyclic : ∀ i, ¬ TransGen (linkSample #[]).memory.Links i i := by
    have hends : ∀ i j, TransGen (linkSample #[]).memory.Links i j → i = 0 ∧ j ≠ 0 := by
      intro i j hij
      induction hij with
      | single hlinks =>
        obtain ⟨hi, rfl | rfl⟩ := linkSample_links hlinks
        · exact ⟨hi, by decide⟩
        · exact ⟨hi, by decide⟩
      | tail _ hlinks ih => exact absurd (linkSample_links hlinks).1 ih.2
    intro i hi
    obtain ⟨hzero, hnot⟩ := hends i i hi
    exact hnot hzero
  have hlater : linkSampleLater.memory = (linkSample #[]).memory.attempts _ := rfl
  obtain ⟨_, hexact, _⟩ :=
    interpret_after_attempts hfresh hgrounded hlater rfl 0 (.of fun _ => []) 2
  exact (hexact (Or.inr hacyclic)).2.2 (linkSample_not_whollyValid #[])

end StackVm
