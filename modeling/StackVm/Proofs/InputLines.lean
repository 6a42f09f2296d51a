/-
Input on a shared reader.  Machines that read from one reader take turns on what is left of its
input.  Whoever they are, each that reads is handed the next line, and once all lines have been
handed out there is nothing but nil.
-/
import Mathlib.Data.List.TakeWhile
import StackVm.Proofs.Effects
import StackVm.Proofs.HeapRoom

namespace StackVm

namespace Input

/-- The lines of a text without their newlines.  What follows the last newline is a line too
unless it is empty. -/
inductive Lines : Text → List Text → Prop
  | none : Lines [] []
  | last {line : Text} : line ≠ [] → 0x0A ∉ line → Lines line [line]
  | line {line rest : Text} {lines : List Text} : 0x0A ∉ line → Lines rest lines →
      Lines (line ++ 0x0A :: rest) (line :: lines)

/-- What is left of a line without one carriage return at its end. -/
inductive Trims : Text → Text → Prop
  | carriageReturn (text : Text) : Trims (text ++ [0x0D]) text
  | whole {line : Text} : line.getLast? ≠ some 0x0D → Trims line line

section

variable {text line rest : Text} {lines : List Text}

theorem trims_iff {line text : Text} : Trims line text ↔ text = trimReturn line := by
  constructor
  · rintro (_ | hlast)
    · rw [trimReturn, if_pos List.getLast?_concat, List.dropLast_concat]
    · rw [trimReturn, if_neg hlast]
  · rintro rfl
    rw [trimReturn]
    split
    · next hlast =>
      have htrims := Trims.carriageReturn line.dropLast
      rwa [List.dropLast_append_getLast? 0x0D hlast] at htrims
    · next hlast => exact .whole hlast

theorem takeWhile_line (hline : 0x0A ∉ line) (rest : Text) :
    (line ++ 0x0A :: rest).takeWhile (· ≠ 0x0A) = line := by
  rw [List.takeWhile_append_of_pos, List.takeWhile_cons_of_neg, List.append_nil]
  · simp
  · intro b hb
    simpa using fun heq : b = 0x0A => hline (heq ▸ hb)

theorem dropWhile_line (hline : 0x0A ∉ line) (rest : Text) :
    (line ++ 0x0A :: rest).dropWhile (· ≠ 0x0A) = 0x0A :: rest := by
  rw [List.dropWhile_append_of_pos, List.dropWhile_cons_of_neg]
  · simp
  · intro b hb
    simpa using fun heq : b = 0x0A => hline (heq ▸ hb)

theorem nextLine_line (hline : 0x0A ∉ line) (rest : Text) :
    nextLine (line ++ 0x0A :: rest) = (some (trimReturn line), rest) := by
  rw [nextLine]
  · rw [takeWhile_line hline, dropWhile_line hline, List.drop_one, List.tail_cons]
  · simp

theorem nextLine_last (hne : line ≠ []) (hline : 0x0A ∉ line) :
    nextLine line = (some (trimReturn line), []) := by
  have hall : ∀ b ∈ line, decide (b ≠ 0x0A) = true := fun b hb =>
    decide_eq_true fun heq => hline (heq ▸ hb)
  rw [nextLine]
  · rw [List.takeWhile_eq_self_iff.2 hall, List.dropWhile_eq_nil_iff.2 hall, List.drop_nil]
  · exact hne

/-- The first line is handed out, and what is left has the other lines. -/
theorem Lines.nextLine (h : Lines text lines) :
    (nextLine text).1 = lines.head?.map trimReturn ∧ Lines (nextLine text).2 lines.tail := by
  cases h with
  | none => exact ⟨rfl, .none⟩
  | last hne hline =>
    rw [nextLine_last hne hline]
    exact ⟨rfl, .none⟩
  | line hline hrest =>
    rw [nextLine_line hline]
    exact ⟨rfl, hrest⟩

theorem exists_lines (text : Text) : ∃ lines, Lines text lines := by
  by_cases hline : 0x0A ∈ text
  · obtain ⟨line, rest, rfl, hnot⟩ := List.eq_append_cons_of_mem hline
    obtain ⟨lines, hlines⟩ := exists_lines rest
    exact ⟨line :: lines, .line hnot hlines⟩
  · by_cases hempty : text = []
    · exact ⟨[], hempty ▸ .none⟩
    · exact ⟨[text], .last hempty hline⟩
termination_by text.length
decreasing_by
  subst_vars
  rw [List.length_append, List.length_cons]
  omega

theorem Lines.eq_of_line {all : List Text} (h : Lines text all) (hline : 0x0A ∉ line)
    (htext : text = line ++ 0x0A :: rest) : ∃ lines, all = line :: lines ∧ Lines rest lines := by
  cases h with
  | none => simp at htext
  | last _ hnot => simp [htext] at hnot
  | @line first rest' lines hfirst hrest =>
    have htake := congrArg (List.takeWhile (· ≠ 0x0A)) htext
    rw [takeWhile_line hfirst, takeWhile_line hline] at htake
    have hdrop := congrArg (List.dropWhile (· ≠ 0x0A)) htext
    rw [dropWhile_line hfirst, dropWhile_line hline, List.cons.injEq] at hdrop
    exact ⟨lines, htake ▸ rfl, hdrop.2 ▸ hrest⟩

theorem Lines.unique (h : Lines text lines) {other : List Text} (h' : Lines text other) :
    other = lines := by
  induction h generalizing other with
  | none =>
    generalize htext : ([] : Text) = text at h'
    cases h' with
    | none => rfl
    | last hne => exact absurd htext.symm hne
    | line => simp at htext
  | @last line hne hline =>
    generalize htext : line = text at h'
    cases h' with
    | none => exact absurd htext hne
    | last => rfl
    | line => simp [htext] at hline
  | line hline _ ih =>
    obtain ⟨rest, rfl, hrest⟩ := h'.eq_of_line hline rfl
    rw [ih hrest]

end

end Input

/-! ### One instruction -/

/-- The input that is left. -/
def Execution.SameInput (s t : Execution) : Prop := t.input = s.input

instance : Exec.Lenient Execution.SameInput where
  refl _ := rfl
  trans h h' := Eq.trans h' h
  machine _ _ := rfl
  out _ _ := rfl
  err _ _ := rfl
  array _ _ _ := rfl
  alloc s others _ _ := by
    rw [Execution.after_alloc]
    rfl
  fill r halloc := by
    rw [(Execution.alloc_ok halloc).2.1]
    rfl

/-- Reading a line takes it from the input, whether or not the string can be made. -/
theorem Exec.input_apply (make : Allocator) (s : Execution) : Exec.input make s =
    (match (Input.nextLine s.input).1 with
      | none => push .nil
      | some line => make (.string line) >>= fun id => push (.object id))
      { s with input := (Input.nextLine s.input).2 } := rfl

/-- A turn of a machine, which executes one instruction: its state, and what other root sources
of its heap hold. -/
structure Turn where
  held : RootId → List ObjectId
  state : Execution

namespace Turn

/-- How the instruction ends. -/
def result (turn : Turn) : EStateM.Result Stop Execution Progress :=
  Exec.step (Exec.alloc (.of turn.held)) turn.state

/-- The instruction is to read a line. -/
def reads (turn : Turn) : Bool := turn.state.opcode? = some .input

/-- The instruction succeeds and pushes nil or a string with the text. -/
inductive Gets (turn : Turn) : Option Text → Prop
  | nil {t : Execution} : turn.result = .ok .running t →
      t.machine.stack = turn.state.machine.stack.push .nil → Gets turn none
  | string {t : Execution} {id : ObjectId} {text : Text} : turn.result = .ok .running t →
      t.machine.stack = turn.state.machine.stack.push (.object id) →
      t.memory.string? id = some text → Gets turn (some text)

variable {turn : Turn}

/-- Only an instruction that reads changes what is left of the input. -/
theorem input_of_not_reads (h : turn.reads = false) :
    (stateAfter turn.result).input = turn.state.input := by
  refine Exec.leaves_step (R := Execution.SameInput) (fun _ _ => rfl) (fun _ _ _ _ _ => rfl)
    (fun hinput => ?_) _
  rw [reads, hinput] at h
  cases h

/-- An instruction that reads gets the next line, and leaves the rest to others. -/
theorem gets_of_reads (h : turn.reads = true) (hroom : turn.state.HasRoom turn.held 1) :
    turn.Gets (Input.nextLine turn.state.input).1 ∧
      (stateAfter turn.result).input = (Input.nextLine turn.state.input).2 := by
  obtain ⟨held, s⟩ := turn
  have hop : s.opcode? = some .input := of_decide_eq_true h
  obtain ⟨hdepth, err, hstep⟩ := Execution.step_of_opcode hop (Exec.alloc (.of held))
  let u : Execution :=
    { s with err, input := (Input.nextLine s.input).2, machine := s.machine.ahead 1 }
  let pushed (v : Value) (m : Memory) : Execution :=
    { u with memory := m, machine := { u.machine with stack := s.machine.stack.push v } }
  have hpush : ∀ (v : Value) (m : Memory),
      Exec.push v { u with memory := m } = .ok () (pushed v m) :=
    fun v m => (Exec.push_eq v _).trans (if_pos hdepth)
  have hresult : ∀ t, Exec.input (Exec.alloc (.of held))
      { s with err, machine := s.machine.ahead 1 } = .ok () t →
      Turn.result ⟨held, s⟩ = .ok .running t := fun t ht => by
    rw [result, hstep]
    change (Exec.input (Exec.alloc (.of held)) >>= fun _ => pure Progress.running) _ = _
    rw [bind_apply, ht]
    rfl
  have hread := Exec.input_apply (Exec.alloc (.of held))
    { s with err, machine := s.machine.ahead 1 }
  dsimp only at hread
  cases hline : (Input.nextLine s.input).1 with
  | none =>
    rw [hline] at hread
    have ht := hresult _ (hread.trans (hpush .nil u.memory))
    exact ⟨.nil ht rfl, by rw [ht]; rfl⟩
  | some line =>
    obtain ⟨m, hm, -, halloc⟩ := (hroom.fetched u.input err).alloc (.string line)
    have hmade : (Exec.alloc (.of held) (.string line) >>= fun id => Exec.push (.object id)) u =
        .ok () (pushed (.object s.memory.objects.size) m) := by
      rw [bind_apply, halloc]
      exact hpush _ m
    rw [hline] at hread
    have ht := hresult _ (hread.trans hmade)
    refine ⟨.string ht rfl ?_, by rw [ht]; rfl⟩
    have hnew := hm.payload s.memory.objects.size
    rw [if_pos rfl] at hnew
    exact Memory.string?_eq_some.2 hnew

end Turn

/-! ### Turns on one reader -/

/-- Each machine finds the input that the turn before has left.  Whatever else becomes of the
machines and their heaps between two turns, it is not on the reader. -/
inductive InTurn : Text → List Turn → Prop
  | done (pending : Text) : InTurn pending []
  | turn {turn : Turn} {rest : List Turn} :
      InTurn (stateAfter turn.result).input rest → InTurn turn.state.input (turn :: rest)

/-- The turns that read get one line each, in order, and nil after the last one. -/
theorem InTurn.gets {text : Text} {turns : List Turn} (h : InTurn text turns)
    (hroom : ∀ turn ∈ turns, turn.reads = true → turn.state.HasRoom turn.held 1)
    {lines : List Text} (hlines : Input.Lines text lines) {k : Nat} {turn : Turn}
    (hk : (turns.filter Turn.reads)[k]? = some turn) :
    turn.Gets (lines[k]?.map Input.trimReturn) := by
  induction h generalizing lines k with
  | done => cases hk
  | @turn first rest _ ih =>
    have hrest := fun turn hturn => hroom turn (List.mem_cons_of_mem first hturn)
    cases hreads : first.reads with
    | false =>
      rw [List.filter_cons_of_neg (Bool.eq_false_iff.1 hreads)] at hk
      exact ih hrest (Turn.input_of_not_reads hreads ▸ hlines) hk
    | true =>
      rw [List.filter_cons_of_pos hreads] at hk
      obtain ⟨hgets, hleft⟩ := Turn.gets_of_reads hreads (hroom first List.mem_cons_self hreads)
      obtain ⟨hhead, htail⟩ := hlines.nextLine
      cases k with
      | zero =>
        cases hk
        rw [hhead, List.head?_eq_getElem?] at hgets
        exact hgets
      | succ k =>
        rw [← List.getElem?_tail]
        exact ih hrest (hleft ▸ htail) hk

/-- Every text has its lines, and machines that take turns on it get every line once: the `k`-th
turn that reads gets the `k`-th line, an empty string for a blank one, and nil when there is no
such line. -/
theorem input_in_turn (text : Text) : ∃ lines, Input.Lines text lines ∧
    (∀ other, Input.Lines text other → other = lines) ∧
    ∀ turns, InTurn text turns →
      (∀ turn ∈ turns, turn.reads = true → turn.state.HasRoom turn.held 1) →
      ∀ k turn, (turns.filter Turn.reads)[k]? = some turn →
        (∀ line, lines[k]? = some line → ∃ text, Input.Trims line text ∧ turn.Gets (some text)) ∧
        (lines[k]? = some [] → turn.Gets (some [])) ∧
        (lines.length ≤ k → turn.Gets none) := by
  obtain ⟨lines, hlines⟩ := Input.exists_lines text
  refine ⟨lines, hlines, fun other hother => hlines.unique hother, ?_⟩
  intro turns hturns hroom k turn hk
  have hgets := hturns.gets hroom hlines hk
  refine ⟨fun line hline => ?_, fun hblank => ?_, fun hover => ?_⟩
  · rw [hline] at hgets
    exact ⟨_, Input.trims_iff.2 rfl, hgets⟩
  · rw [hblank] at hgets
    exact hgets
  · rw [List.getElem?_eq_none hover] at hgets
    exact hgets

/-- A machine that is about to read a line. -/
def readingTurn (input : Text) : Turn where
  held := fun _ => []
  state :=
    { rareSample with
      memory := { rareSample.memory with chunks := #[{ code := #[38, 0], lines := #[1, 1] }] }
      machine := { rareSample.machine with frames := [⟨0, 0, 0⟩] }
      input }

theorem readingTurn_hasRoom (input : Text) :
    (readingTurn input).state.HasRoom (readingTurn input).held 1 where
  sound := by
    refine ⟨rareSample_reached.wellFormed.of_placements rfl fun _ _ _ => Iff.rfl, ?_⟩
    intro id hid
    have honly : ∀ i, (readingTurn input).state.memory.Anchored
        ((readingTurn input).state.machine.holdings (.of fun _ => [])) i → i = 0 := by
      rintro i (hi | hi)
      · obtain ⟨source, hsource, hi⟩ := List.mem_flatMap.1 hi
        rw [List.mem_singleton.1 hsource] at hi
        exact Hold.object.inj (List.mem_singleton.1 hi)
      · cases hi
    have hzero : id = 0 := honly id (hid.of_leaves fun i hi => by rw [honly i hi]; rfl)
    exact hzero ▸ ⟨⟨0, 0, 1, false⟩, rfl, rfl, rfl⟩
  registered := ⟨⟨1, "vm"⟩, List.mem_singleton_self _, rfl⟩
  limit hlimited := absurd hlimited (show ¬ (0 : Int64) < 0 by decide)

/-- Four machines take turns on a text with a carriage return, a blank line and no newline at its
end. -/
theorem input_in_turn_readings :
    InTurn [0x61, 0x0D, 0x0A, 0x0A, 0x62] [readingTurn [0x61, 0x0D, 0x0A, 0x0A, 0x62],
      readingTurn [0x0A, 0x62], readingTurn [0x62], readingTurn []] ∧
    (readingTurn [0x61, 0x0D, 0x0A, 0x0A, 0x62]).Gets (some [0x61]) ∧
    (readingTurn [0x0A, 0x62]).Gets (some []) ∧ (readingTurn []).Gets none := by
  have hnext : ∀ {input left}, (Input.nextLine input).2 = left → ∀ {rest}, InTurn left rest →
      InTurn input (readingTurn input :: rest) := by
    rintro input _ rfl rest hrest
    refine @InTurn.turn (readingTurn input) rest ?_
    rwa [(Turn.gets_of_reads rfl (readingTurn_hasRoom input)).2]
  have hturns : InTurn [0x61, 0x0D, 0x0A, 0x0A, 0x62] [readingTurn [0x61, 0x0D, 0x0A, 0x0A, 0x62],
      readingTurn [0x0A, 0x62], readingTurn [0x62], readingTurn []] :=
    hnext rfl (hnext rfl (hnext rfl (hnext rfl (.done []))))
  obtain ⟨lines, hlines, -, hall⟩ := input_in_turn [0x61, 0x0D, 0x0A, 0x0A, 0x62]
  have hgets := hall _ hturns fun turn hturn _ => by
    simp only [List.mem_cons, List.not_mem_nil, or_false] at hturn
    rcases hturn with rfl | rfl | rfl | rfl <;> exact readingTurn_hasRoom _
  -- The lines are taken off one by one.
  obtain ⟨_, rfl, hsecond⟩ := @Input.Lines.eq_of_line _ [0x61, 0x0D] [0x0A, 0x62] _ hlines
    (by decide) rfl
  obtain ⟨_, rfl, hthird⟩ := @Input.Lines.eq_of_line _ [] [0x62] _ hsecond (by decide) rfl
  cases hthird.unique (.last (by decide) (by decide))
  obtain ⟨text, htext, hfirst⟩ := (hgets 0 _ rfl).1 _ rfl
  cases Input.trims_iff.1 htext
  exact ⟨hturns, hfirst, (hgets 1 _ rfl).2.1 rfl, (hgets 3 _ rfl).2.2 (by decide)⟩

end StackVm
