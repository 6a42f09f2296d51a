/-
Requests that a chunk refuses.  A jump that is too far is not written, but a constant that comes
too late stays in the pool, behind all that an operand can name; whoever goes on with the chunk is
answered as if the refused requests had never been made.
-/
import StackVm.Proofs.Jumps
import StackVm.Proofs.ConstantPool

namespace StackVm

namespace Chunk

/-- What a generator asks of a chunk.  A byte that is written is an emission without operands, and
an open jump is one with the placeholder for operands. -/
inductive Request where
  | addConstant (v : Value)
  | emitConstant (v : Value) (line : Int64)
  | emit (op : UInt8) (operands : List UInt8) (line : Int64)
  | patchJump (placeholder : Int)
  | emitLoop (start : Int) (line : Int64)

/-- What a chunk answers. -/
inductive Answer where
  | index (i : Nat)
  | offset (n : Nat)
  | done
  | refused (e : EmitError)

/-- Whether a request was refused. -/
def Answer.isRefused : Answer → Bool
  | .refused _ => true
  | _ => false

/-- An answer with all indices that no operand can name as one. -/
def Answer.clamp : Answer → Answer
  | .index i => .index (min maxConstants i)
  | .refused (.tooManyConstants i) => .refused (.tooManyConstants (min maxConstants i))
  | a => a

/-- A chunk after an attempt to write a jump. -/
def attempted (c : Chunk) : Except EmitError Chunk → Chunk × Answer
  | .ok d => (d, .done)
  | .error e => (c, .refused e)

/-- A chunk after a request, and its answer. -/
def asked (m : Memory) (c : Chunk) : Request → Chunk × Answer
  | .addConstant v =>
    let (d, i) := c.addConstant m.equal v
    (d, .index i)
  | .emitConstant v line =>
    match c.emitConstant m.equal v line with
    | (d, .ok n) => (d, .offset n)
    | (d, .error e) => (d, .refused e)
  | .emit op operands line => (c.emit op operands line, .offset c.code.size)
  | .patchJump placeholder => c.attempted (c.patchJump placeholder)
  | .emitLoop start line => c.attempted (c.emitLoop start line)

/-- A chunk after a row of requests, each made beside some memory. -/
def served (c : Chunk) : List (Memory × Request) → Chunk
  | [] => c
  | (m, r) :: rest => (c.asked m r).1.served rest

/-- The requests of a row that are not refused. -/
def accepted (c : Chunk) : List (Memory × Request) → List (Memory × Request)
  | [] => []
  | (m, r) :: rest =>
    let (d, a) := c.asked m r
    if a.isRefused then d.accepted rest else (m, r) :: d.accepted rest

/-- What there is of a chunk for its operands: of the pool, as much as they can name. -/
def reach (c : Chunk) : Chunk := { c with constants := c.constants.extract 0 maxConstants }

variable {m : Memory} {c d : Chunk} {v : Value} {line : Int64} {r : Request} {e : EmitError}
  {same : Value → Value → Bool}

/-! ### Single requests -/

theorem reach_emit (c : Chunk) (op : UInt8) (operands : List UInt8) (line : Int64) :
    (c.emit op operands line).reach = c.reach.emit op operands line := by
  simp only [emit_eq, reach]

theorem patch_reach (c : Chunk) (offset : Int) (b : UInt8) :
    c.reach.patch offset b = (c.patch offset b).map reach := by
  rw [patch, patch, apply_ite (Except.map reach)]
  rfl

theorem patchJump_reach (c : Chunk) (placeholder : Int) :
    c.reach.patchJump placeholder = (c.patchJump placeholder).map reach := by
  have hbytes : ∀ high low : UInt8,
      (do
        let c ← c.reach.patch placeholder high
        c.patch (placeholder + 1) low) =
      (do
        let c ← c.patch placeholder high
        c.patch (placeholder + 1) low).map reach := by
    intro high low
    rw [patch_reach]
    cases c.patch placeholder high with
    | error e => rfl
    | ok d => exact d.patch_reach _ _
  rw [patchJump, patchJump, apply_ite (Except.map reach), ← hbytes]
  rfl

theorem emitLoop_reach (c : Chunk) (start : Int) (line : Int64) :
    c.reach.emitLoop start line = (c.emitLoop start line).map reach := by
  rw [emitLoop_eq, emitLoop_eq, apply_ite (Except.map reach), Except.map, Except.map, reach_emit]
  rfl

theorem reach_reach (c : Chunk) : c.reach.reach = c.reach := by
  simp only [reach, Array.extract_extract, Nat.zero_add, min_self]

/-- What joins a pool that is full is out of reach. -/
theorem reach_push (hfull : maxConstants ≤ c.constants.size) (v : Value) :
    reach { c with constants := c.constants.push v } = c.reach := by
  simp only [reach, Array.extract_push, if_pos hfull]

theorem size_reach (c : Chunk) : c.reach.constants.size = min maxConstants c.constants.size := by
  rw [reach, Array.size_extract, Nat.sub_zero]

/-- A pool that is not full is all in reach. -/
theorem reach_of_le (h : c.constants.size ≤ maxConstants) : c.reach = c := by
  rw [reach, Array.extract_eq_self_of_le h]

theorem index_reach (same : Value → Value → Bool) (c : Chunk) (v : Value) :
    (c.reach.addConstant same v).2 = min maxConstants (c.addConstant same v).2 := by
  rw [addConstant_findIdx, addConstant_findIdx]
  exact Array.findIdx_extract

theorem addConstant_reach (same : Value → Value → Bool) (c : Chunk) (v : Value) :
    (c.reach.addConstant same v).1.reach = (c.addConstant same v).1.reach := by
  by_cases hfull : maxConstants ≤ c.constants.size
  · have hreach : maxConstants ≤ c.reach.constants.size := by
      rw [size_reach, Nat.min_eq_left hfull]
    rw [addConstant_findIdx, addConstant_findIdx]
    dsimp only
    rw [apply_ite reach, apply_ite reach, reach_push hfull, reach_push hreach, ite_self, ite_self,
      reach_reach]
  · rw [reach_of_le (Nat.le_of_not_le hfull)]

theorem emitConstant_reach (same : Value → Value → Bool) (c : Chunk) (v : Value) (line : Int64) :
    (c.reach.emitConstant same v line).1.reach = (c.emitConstant same v line).1.reach := by
  rw [emitConstant_eq, emitConstant_eq, index_reach]
  by_cases hindex : (c.addConstant same v).2 < maxConstants
  · have hmin := Nat.min_eq_right (Nat.le_of_lt hindex)
    rw [hmin, if_pos hindex, if_pos hindex, reach_emit, reach_emit, addConstant_reach]
  · have hmin := Nat.min_eq_left (Nat.le_of_not_lt hindex)
    rw [hmin, if_neg hindex, if_neg (Nat.lt_irrefl _), addConstant_reach]

theorem attempted_map (c : Chunk) (attempt : Except EmitError Chunk) :
    c.reach.attempted (attempt.map reach) =
      ((c.attempted attempt).1.reach, (c.attempted attempt).2) := by
  cases attempt <;> rfl

theorem asked_emitConstant (m : Memory) (c : Chunk) (v : Value) (line : Int64) :
    c.asked m (.emitConstant v line) =
      ((c.emitConstant m.equal v line).1,
        if (c.addConstant m.equal v).2 < maxConstants then .offset c.code.size
        else .refused (.tooManyConstants (c.addConstant m.equal v).2)) := by
  rw [asked, emitConstant_eq]
  split_ifs <;> rfl

/-- What is out of a chunk's reach has no part in what becomes of the rest and of what is
answered. -/
theorem asked_reach (m : Memory) (c : Chunk) (r : Request) :
    (c.reach.asked m r).1.reach = (c.asked m r).1.reach ∧
      (c.reach.asked m r).2.clamp = (c.asked m r).2.clamp := by
  cases r with
  | addConstant v =>
    refine ⟨c.addConstant_reach m.equal v, ?_⟩
    simp only [asked, Answer.clamp, index_reach, Nat.min_self_assoc]
  | emitConstant v line =>
    rw [asked_emitConstant, asked_emitConstant]
    refine ⟨c.emitConstant_reach m.equal v line, ?_⟩
    have hiff : min maxConstants (c.addConstant m.equal v).2 < maxConstants ↔
        (c.addConstant m.equal v).2 < maxConstants := by
      rw [min_lt_iff, lt_self_iff_false, false_or]
    simp only [index_reach, hiff]
    split_ifs
    · rfl
    · simp only [Answer.clamp, Nat.min_self_assoc]
  | emit op operands line => exact ⟨by rw [asked, asked, reach_emit, reach_emit, reach_reach], rfl⟩
  | patchJump placeholder =>
    rw [asked, asked, patchJump_reach, attempted_map]
    exact ⟨reach_reach _, rfl⟩
  | emitLoop start line =>
    rw [asked, asked, emitLoop_reach, attempted_map]
    exact ⟨reach_reach _, rfl⟩

theorem asked_congr (h : c.reach = d.reach) (m : Memory) (r : Request) :
    (c.asked m r).1.reach = (d.asked m r).1.reach ∧
      (c.asked m r).2.clamp = (d.asked m r).2.clamp := by
  obtain ⟨hc, hc'⟩ := asked_reach m c r
  obtain ⟨hd, hd'⟩ := asked_reach m d r
  rw [← hc, ← hc', ← hd, ← hd', h]
  exact ⟨rfl, rfl⟩

theorem Answer.isRefused_clamp (a : Answer) : a.clamp.isRefused = a.isRefused := by
  cases a with
  | refused e => cases e <;> rfl
  | _ => rfl

/-! ### What a refused request leaves -/

/-- A constant is refused where the pool is full and no entry that an operand can name is equal. -/
theorem isRefused_emitConstant (m : Memory) (c : Chunk) (v : Value) (line : Int64) :
    (c.asked m (.emitConstant v line)).2.isRefused = true ↔
      maxConstants ≤ c.constants.size ∧ ∀ x ∈ c.reach.constants, m.equal x v = false := by
  have hindex : (c.addConstant m.equal v).2 ≤ c.constants.size := by
    rw [addConstant_findIdx]
    exact Array.findIdx_le_size
  have hnone : (c.reach.addConstant m.equal v).2 = c.reach.constants.size ↔
      ∀ x ∈ c.reach.constants, m.equal x v = false := by
    rw [addConstant_findIdx]
    exact Array.findIdx_eq_size
  rw [← hnone, index_reach, size_reach, asked_emitConstant]
  split_ifs with hlt
  · refine iff_of_false Bool.false_ne_true fun ⟨hfull, heq⟩ => ?_
    omega
  · refine iff_of_true rfl ⟨?_, ?_⟩ <;> omega

theorem refused_attempted {attempt : Except EmitError Chunk}
    (h : (c.attempted attempt).2 = .refused e) : (c.attempted attempt).1 = c := by
  cases attempt with
  | ok d => cases h
  | error e => rfl

/-- A request to emit a constant that no entry of the pool is equal to. -/
def Request.IsNew (m : Memory) (c : Chunk) (r : Request) : Prop :=
  ∃ v line, r = .emitConstant v line ∧ ∀ x ∈ c.constants, m.equal x v = false

/-- A refused request leaves the chunk, or it was for a new constant, which comes too late: that
constant is in the pool from then on. -/
theorem refused_cases (h : (c.asked m r).2 = .refused e) :
    (¬ r.IsNew m c ∧ (c.asked m r).1 = c) ∨
    ∃ v line, r = .emitConstant v line ∧ (∀ x ∈ c.constants, m.equal x v = false) ∧
      maxConstants ≤ c.constants.size ∧ e = .tooManyConstants c.constants.size ∧
      (c.asked m r).1 = { c with constants := c.constants.push v } := by
  cases r with
  | addConstant v => cases h
  | emitConstant v line =>
    rw [asked_emitConstant] at h ⊢
    rw [emitConstant_eq]
    split_ifs at h ⊢ with hlt
    cases h
    obtain ⟨i, x, hx, hequal, heq⟩ | ⟨hnone, heq⟩ := c.addConstant_cases m.equal v
    · rw [heq]
      refine Or.inl ⟨?_, rfl⟩
      rintro ⟨_, _, ⟨⟩, hnew⟩
      rw [hnew x (Array.mem_of_getElem? hx)] at hequal
      exact Bool.noConfusion hequal
    · rw [heq] at hlt ⊢
      refine Or.inr ⟨v, line, rfl, fun x hx => ?_, Nat.le_of_not_lt hlt, rfl, rfl⟩
      obtain ⟨i, hi⟩ := Array.getElem?_of_mem hx
      exact hnone i x hi
  | emit op operands line => cases h
  | patchJump placeholder => exact Or.inl ⟨nofun, refused_attempted h⟩
  | emitLoop start line => exact Or.inl ⟨nofun, refused_attempted h⟩

theorem reach_of_refused (h : (c.asked m r).2 = .refused e) : (c.asked m r).1.reach = c.reach := by
  rcases refused_cases h with ⟨-, heq⟩ | ⟨v, line, -, -, hfull, -, heq⟩
  · rw [heq]
  · rw [heq, reach_push hfull]

theorem push_ne (c : Chunk) (v : Value) : { c with constants := c.constants.push v } ≠ c := by
  intro hsame
  have hsize := congrArg (·.constants.size) hsame
  exact Nat.succ_ne_self _ ((Array.size_push v).symm.trans hsize)

/-- A refused request leaves the chunk exactly if it is not for a new constant. -/
theorem asked_eq_iff (h : (c.asked m r).2 = .refused e) :
    (c.asked m r).1 = c ↔ ¬ r.IsNew m c := by
  rcases refused_cases h with ⟨hold, heq⟩ | ⟨v, line, hr, hnew, -, -, heq⟩
  · exact iff_of_true heq hold
  · rw [heq]
    exact iff_of_false (c.push_ne v) (not_not_intro ⟨v, line, hr, hnew⟩)

theorem Answer.eq_refused {a : Answer} (h : a.isRefused = true) : ∃ e, a = .refused e := by
  cases a with
  | refused e => exact ⟨e, rfl⟩
  | _ => cases h

/-! ### Going on -/

theorem accepted_cons_refused (h : (c.asked m r).2.isRefused = true)
    (rest : List (Memory × Request)) :
    c.accepted ((m, r) :: rest) = (c.asked m r).1.accepted rest :=
  if_pos h

theorem accepted_cons (h : (c.asked m r).2.isRefused = false) (rest : List (Memory × Request)) :
    c.accepted ((m, r) :: rest) = (m, r) :: (c.asked m r).1.accepted rest :=
  if_neg (Bool.eq_false_iff.1 h)

theorem length_accepted (c : Chunk) (requests : List (Memory × Request)) :
    (c.accepted requests).length ≤ requests.length := by
  induction requests generalizing c with
  | nil => exact Nat.le_refl 0
  | cons p rest ih =>
    obtain ⟨m, r⟩ := p
    cases ha : (c.asked m r).2.isRefused with
    | true =>
      rw [accepted_cons_refused ha]
      exact Nat.le_succ_of_le (ih _)
    | false =>
      rw [accepted_cons ha]
      exact Nat.succ_le_succ (ih _)

/-- Whether the refused requests of a row are made or not, what is in reach is the same, and the
others are not refused. -/
theorem served_accepted (h : c.reach = d.reach) (requests : List (Memory × Request)) :
    (c.served requests).reach = (d.served (c.accepted requests)).reach ∧
      d.accepted (c.accepted requests) = c.accepted requests := by
  induction requests generalizing c d with
  | nil => exact ⟨h, rfl⟩
  | cons p rest ih =>
    obtain ⟨m, r⟩ := p
    cases ha : (c.asked m r).2.isRefused with
    | true =>
      obtain ⟨e, he⟩ := Answer.eq_refused ha
      rw [accepted_cons_refused ha]
      exact ih ((reach_of_refused he).trans h)
    | false =>
      obtain ⟨hasked, hanswer⟩ := asked_congr h m r
      have hd : (d.asked m r).2.isRefused = false := by
        rw [← Answer.isRefused_clamp, ← hanswer, Answer.isRefused_clamp, ha]
      obtain ⟨hreach, haccepted⟩ := ih hasked
      rw [accepted_cons ha, accepted_cons hd, haccepted]
      exact ⟨hreach, rfl⟩

/-! ### Constants alone -/

theorem size_addConstant (same : Value → Value → Bool) (c : Chunk) (v : Value) :
    (c.addConstant same v).1.constants.size =
      max c.constants.size ((c.addConstant same v).2 + 1) := by
  obtain ⟨i, x, hx, -, heq⟩ | ⟨-, heq⟩ := c.addConstant_cases same v
  · obtain ⟨hlt, -⟩ := Array.getElem?_eq_some_iff.1 hx
    rw [heq]
    exact (Nat.max_eq_left hlt).symm
  · rw [heq, Array.size_push]
    exact (Nat.max_eq_right (Nat.le_succ _)).symm

/-- An emission that is refused makes the pool too large, and no other does. -/
theorem size_asked_emitConstant (m : Memory) (c : Chunk) (v : Value) (line : Int64) :
    (c.asked m (.emitConstant v line)).1.constants.size ≤ maxConstants ↔
      c.constants.size ≤ maxConstants ∧
        (c.asked m (.emitConstant v line)).2.isRefused = false := by
  rw [asked_emitConstant]
  dsimp only
  rw [constants_emitConstant, size_addConstant, Nat.max_le, Nat.succ_le_iff]
  refine and_congr_right fun _ => ?_
  split_ifs with hlt
  · exact iff_of_true hlt rfl
  · exact iff_of_false hlt Bool.noConfusion

/-- A pool that is filled by emissions alone is too large as soon as one of them is refused. -/
theorem size_served_iff {requests : List (Memory × Request)}
    (hconstants : ∀ p ∈ requests, ∃ v line, p.2 = .emitConstant v line) :
    (c.served requests).constants.size ≤ maxConstants ↔
      c.constants.size ≤ maxConstants ∧ c.accepted requests = requests := by
  induction requests generalizing c with
  | nil => exact (and_iff_left rfl).symm
  | cons p rest ih =>
    obtain ⟨m, r⟩ := p
    obtain ⟨⟨v, line, rfl⟩, hrest⟩ := List.forall_mem_cons.1 hconstants
    rw [served, ih hrest, size_asked_emitConstant, and_assoc]
    refine and_congr_right fun _ => ?_
    cases ha : (c.asked m (.emitConstant v line)).2.isRefused with
    | true =>
      refine iff_of_false (fun h => Bool.noConfusion h.1) fun h => ?_
      have hlength := length_accepted (c.asked m (.emitConstant v line)).1 rest
      rw [← accepted_cons_refused ha, h] at hlength
      exact Nat.not_succ_le_self _ hlength
    | false =>
      rw [accepted_cons ha, List.cons_inj_right]
      exact and_iff_right rfl

/-- A request that is refused leaves the chunk, but a new constant that is refused stays in the
pool, where no operand can name it; the row of requests goes on as if it had not been made.  A pool
that is filled by emissions alone keeps to the limit as long as none is refused. -/
theorem refused_out_of_reach (c : Chunk) :
    (∀ m r e, (c.asked m r).2 = .refused e →
      (c.asked m r).1.reach = c.reach ∧ ((c.asked m r).1 = c ↔ ¬ r.IsNew m c) ∧
      ∀ v line, r = .emitConstant v line → r.IsNew m c →
        e = .tooManyConstants c.constants.size ∧
          (c.asked m r).1 = { c with constants := c.constants.push v }) ∧
    (∀ m v line, (c.asked m (.emitConstant v line)).2.isRefused = true ↔
      maxConstants ≤ c.constants.size ∧ ∀ x ∈ c.reach.constants, m.equal x v = false) ∧
    (∀ requests,
      let d := c.served requests
      let d' := c.served (c.accepted requests)
      c.accepted (c.accepted requests) = c.accepted requests ∧ d.reach = d'.reach ∧
        ∀ m r, (d.asked m r).2.clamp = (d'.asked m r).2.clamp) ∧
    ∀ requests : List (Memory × Request),
      (∀ p ∈ requests, ∃ v line, p.2 = .emitConstant v line) →
      ((({} : Chunk).served requests).constants.size ≤ maxConstants ↔
        ({} : Chunk).accepted requests = requests) := by
  refine ⟨fun m r e h => ⟨reach_of_refused h, asked_eq_iff h, ?_⟩,
    fun m v line => isRefused_emitConstant m c v line, fun requests => ?_,
    fun requests hconstants => ?_⟩
  · rintro v line rfl hnew
    rcases refused_cases h with ⟨hold, -⟩ | ⟨_, _, ⟨⟩, -, -, he, heq⟩
    · exact absurd hnew hold
    · exact ⟨he, heq⟩
  · obtain ⟨hreach, haccepted⟩ := served_accepted (c := c) rfl requests
    exact ⟨haccepted, hreach, fun m r => (asked_congr hreach m r).2⟩
  · rw [size_served_iff hconstants]
    exact and_iff_right (Nat.zero_le _)

/-- A chunk whose pool is full of numbers. -/
def fullPool : Chunk where
  constants := (Array.range maxConstants).map fun i => .int (Int64.ofNat i)

theorem size_fullPool : fullPool.constants.size = maxConstants := by
  rw [fullPool, Array.size_map, Array.size_range]

/-- A full pool refuses a nil and keeps it. -/
theorem asked_fullPool (m : Memory) (line : Int64) :
    fullPool.asked m (.emitConstant .nil line) =
      ({ fullPool with constants := fullPool.constants.push .nil },
        .refused (.tooManyConstants maxConstants)) := by
  have hnew : ∀ x ∈ fullPool.constants, m.equal x .nil = false := by
    intro x hx
    obtain ⟨i, -, rfl⟩ := Array.mem_map.1 hx
    rfl
  have hrefused : (fullPool.asked m (.emitConstant .nil line)).2.isRefused = true := by
    rw [isRefused_emitConstant, reach_of_le (Nat.le_of_eq size_fullPool)]
    exact ⟨Nat.le_of_eq size_fullPool.symm, hnew⟩
  obtain ⟨e, he⟩ := Answer.eq_refused hrefused
  rcases refused_cases he with ⟨hold, -⟩ | ⟨_, _, ⟨⟩, -, -, rfl, heq⟩
  · exact absurd ⟨.nil, line, rfl, hnew⟩ hold
  · rw [size_fullPool] at he
    exact Prod.ext heq he

/-- A full pool that has refused a nil goes on as if it had not been asked for one. -/
theorem refused_out_of_reach_fullPool :
    let requests := [(textsSample, .emitConstant .nil 1), (textsSample, .emit 0x00 [] 2)]
    (fullPool.asked textsSample (.emitConstant .nil 1)).1.reach = fullPool.reach ∧
      fullPool.accepted requests = [(textsSample, .emit 0x00 [] 2)] ∧
      (fullPool.served requests).reach =
        (fullPool.served [(textsSample, .emit 0x00 [] 2)]).reach := by
  intro requests
  obtain ⟨hrefused, -, hgoesOn, -⟩ := refused_out_of_reach fullPool
  have hasked := asked_fullPool textsSample 1
  obtain ⟨hreach, -, -⟩ := hrefused textsSample (.emitConstant .nil 1) _ (congrArg Prod.snd hasked)
  have haccepted : fullPool.accepted requests = [(textsSample, .emit 0x00 [] 2)] := by
    rw [accepted_cons_refused (by rw [hasked]; rfl)]
    rfl
  obtain ⟨-, hsame, -⟩ := hgoesOn requests
  rw [haccepted] at hsame
  exact ⟨hreach, haccepted, hsame⟩

/-- A constant that is refused is in the pool all the same. -/
theorem fullPool_keeps_refused :
    (fullPool.asked textsSample (.emitConstant .nil 1)).2 = .refused (.tooManyConstants 256) ∧
      (fullPool.asked textsSample (.emitConstant .nil 1)).1.constants.size = 257 ∧
      (fullPool.asked textsSample (.emitConstant .nil 1)).1 ≠ fullPool := by
  rw [asked_fullPool]
  refine ⟨rfl, ?_, fullPool.push_ne .nil⟩
  rw [Array.size_push, size_fullPool]
  rfl

end Chunk

end StackVm
