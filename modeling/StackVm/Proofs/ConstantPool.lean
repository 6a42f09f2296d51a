/-
The pool of a chunk under construction.  Equality of values is an equivalence that lasts while
objects are made, so a value keeps the one index it was given.
-/
import StackVm.Proofs.Jumps

namespace StackVm

/-! ### Equality of values -/

namespace Memory

variable {m n o : Memory} {v w x : Value}

/-- The object a value refers to is there. -/
def Has (m : Memory) (v : Value) : Prop := ∀ id, v.id? = some id → id < m.objects.size

/-- Objects were made, and those that were there hold the texts they held. -/
structure KeepsTexts (m n : Memory) : Prop where
  size : m.objects.size ≤ n.objects.size
  string? : ∀ {id : ObjectId}, id < m.objects.size → n.string? id = m.string? id

theorem KeepsTexts.refl (m : Memory) : m.KeepsTexts m := ⟨Nat.le_refl _, fun _ => rfl⟩

theorem KeepsTexts.trans (h : m.KeepsTexts n) (h' : n.KeepsTexts o) : m.KeepsTexts o where
  size := Nat.le_trans h.size h'.size
  string? hid := (h'.string? (Nat.lt_of_lt_of_le hid h.size)).trans (h.string? hid)

theorem Has.extend (hv : m.Has v) (h : m.KeepsTexts n) : n.Has v :=
  fun id hid => Nat.lt_of_lt_of_le (hv id hid) h.size

/-- Equal values are the same value, or strings with one text. -/
theorem equal_eq_true_iff : m.equal v w = true ↔
    v = w ∨ ∃ a b data, v = .object a ∧ w = .object b ∧ m.string? a = some data ∧
      m.string? b = some data := by
  cases v with
  | object a =>
    cases w with
    | object b =>
      rw [equal, Bool.or_eq_true, beq_iff_eq, Value.object.injEq]
      refine or_congr_right ⟨fun hcontent => ?_, ?_⟩
      · split at hcontent
        · next s t hs ht =>
          cases beq_iff_eq.1 hcontent
          exact ⟨a, b, s, rfl, rfl, hs, ht⟩
        · cases hcontent
      · rintro ⟨_, _, data, ⟨⟩, ⟨⟩, ha, hb⟩
        rw [ha, hb]
        exact beq_self_eq_true data
    | _ => exact iff_of_false Bool.false_ne_true (by simp)
  | _ => exact beq_iff_eq.trans ⟨Or.inl, fun h => by simpa using h⟩

theorem equal_self (m : Memory) (v : Value) : m.equal v v = true :=
  equal_eq_true_iff.2 (Or.inl rfl)

theorem equal_symm (h : m.equal v w = true) : m.equal w v = true := by
  rw [equal_eq_true_iff] at h ⊢
  obtain rfl | ⟨a, b, data, rfl, rfl, ha, hb⟩ := h
  · exact Or.inl rfl
  · exact Or.inr ⟨b, a, data, rfl, rfl, hb, ha⟩

theorem equal_trans (h : m.equal v w = true) (h' : m.equal w x = true) : m.equal v x = true := by
  rw [equal_eq_true_iff] at h h' ⊢
  obtain rfl | ⟨a, b, data, rfl, rfl, ha, hb⟩ := h
  · exact h'
  obtain rfl | ⟨b', c, data', heq, rfl, hb', hc⟩ := h'
  · exact Or.inr ⟨a, b, data, rfl, rfl, ha, hb⟩
  · cases heq
    rw [hb, Option.some.injEq] at hb'
    exact Or.inr ⟨a, c, data, rfl, rfl, ha, hb' ▸ hc⟩

/-- Whether two values are equal does not change while objects are made. -/
theorem KeepsTexts.equal (h : m.KeepsTexts n) (hv : m.Has v) (hw : m.Has w) :
    n.equal v w = m.equal v w := by
  rw [Bool.eq_iff_iff, equal_eq_true_iff, equal_eq_true_iff]
  refine or_congr_right ⟨?_, ?_⟩
  · rintro ⟨a, b, data, rfl, rfl, ha, hb⟩
    rw [h.string? (hv a rfl)] at ha
    rw [h.string? (hw b rfl)] at hb
    exact ⟨a, b, data, rfl, rfl, ha, hb⟩
  · rintro ⟨a, b, data, rfl, rfl, ha, hb⟩
    rw [← h.string? (hv a rfl)] at ha
    rw [← h.string? (hw b rfl)] at hb
    exact ⟨a, b, data, rfl, rfl, ha, hb⟩

end Memory

namespace Chunk

variable {m m' m'' : Memory} {c c' c'' : Chunk} {v : Value} {line : Int64}
  {same : Value → Value → Bool}

/-! ### What is added to a chunk -/

/-- The code and the pool that were there are there. -/
structure Grows (c c' : Chunk) : Prop where
  code : ∀ {i : Nat} {b : UInt8}, c.code[i]? = some b → c'.code[i]? = some b
  constants : ∀ {i : Nat} {e : Value}, c.constants[i]? = some e → c'.constants[i]? = some e

theorem Grows.refl (c : Chunk) : c.Grows c := ⟨fun h => h, fun h => h⟩

theorem Grows.trans (h : c.Grows c') (h' : c'.Grows c'') : c.Grows c'' :=
  ⟨fun hb => h'.code (h.code hb), fun he => h'.constants (h.constants he)⟩

theorem grows_emit (c : Chunk) (op : UInt8) (operands : List UInt8) (line : Int64) :
    c.Grows (c.emit op operands line) where
  code hb := by
    rw [getElem?_emit_of_lt (Array.getElem?_eq_some_iff.1 hb).1]
    exact hb
  constants he := by
    rw [constants_emit]
    exact he

/-- A constant is found, or it is none of the pool and joins it at the end. -/
theorem addConstant_cases (same : Value → Value → Bool) (c : Chunk) (v : Value) :
    (∃ i e, c.constants[i]? = some e ∧ same e v = true ∧ c.addConstant same v = (c, i)) ∨
    ((∀ (i : Nat) e, c.constants[i]? = some e → same e v = false) ∧
      c.addConstant same v =
        ({ c with constants := c.constants.push v }, c.constants.size)) := by
  rw [addConstant]
  cases hfind : c.constants.findIdx? (same · v) with
  | some i =>
    obtain ⟨hlt, hsame, -⟩ := Array.findIdx?_eq_some_iff_getElem.1 hfind
    exact Or.inl ⟨i, _, Array.getElem?_eq_getElem hlt, hsame, rfl⟩
  | none =>
    refine Or.inr ⟨fun i e he => ?_, rfl⟩
    exact Array.findIdx?_eq_none_iff.1 hfind e (Array.mem_of_getElem? he)

/-- The index of a constant is that of the first entry that is the same, or the end of the pool,
where it is then added. -/
theorem addConstant_findIdx (same : Value → Value → Bool) (c : Chunk) (v : Value) :
    c.addConstant same v =
      (if c.constants.findIdx (same · v) < c.constants.size then c
        else { c with constants := c.constants.push v }, c.constants.findIdx (same · v)) := by
  rw [addConstant, Array.findIdx?_eq_guard_findIdx_lt]
  by_cases hlt : c.constants.findIdx (same · v) < c.constants.size
  · simp [Option.guard, hlt]
  · have hend := Array.findIdx_le_size.antisymm (Nat.le_of_not_lt hlt)
    simp [Option.guard, hend]

/-- No entry before the one that is given is the same. -/
theorem addConstant_le {i : Nat} {e : Value} (he : c.constants[i]? = some e)
    (hsame : same e v = true) : (c.addConstant same v).2 ≤ i := by
  obtain ⟨hlt, rfl⟩ := Array.getElem?_eq_some_iff.1 he
  rw [addConstant_findIdx]
  by_contra hle
  exact absurd hsame (Bool.eq_false_iff.1 (Array.not_of_lt_findIdx (Nat.lt_of_not_le hle)))

/-- The index of an added constant is that of an equal entry. -/
theorem exists_added (m : Memory) (c : Chunk) (v : Value) :
    ∃ e, (c.addConstant m.equal v).1.constants[(c.addConstant m.equal v).2]? = some e ∧
      m.equal e v = true := by
  obtain ⟨i, e, he, hequal, heq⟩ | ⟨-, heq⟩ := c.addConstant_cases m.equal v
  · rw [heq]
    exact ⟨e, he, hequal⟩
  · rw [heq]
    exact ⟨v, Array.getElem?_push_size, m.equal_self v⟩

theorem grows_addConstant (same : Value → Value → Bool) (c : Chunk) (v : Value) :
    c.Grows (c.addConstant same v).1 := by
  obtain ⟨i, e, -, -, heq⟩ | ⟨-, heq⟩ := c.addConstant_cases same v
  · rw [heq]
    exact .refl c
  · rw [heq]
    refine ⟨fun hb => hb, fun he => ?_⟩
    rw [Array.getElem?_push_lt (Array.getElem?_eq_some_iff.1 he).1]
    rwa [← Array.getElem?_eq_getElem]

theorem code_addConstant (same : Value → Value → Bool) (c : Chunk) (v : Value) :
    (c.addConstant same v).1.code = c.code := by
  obtain ⟨i, e, -, -, heq⟩ | ⟨-, heq⟩ := c.addConstant_cases same v <;> rw [heq]

/-- A constant is emitted where its index fits in a byte; it joins the pool in any case. -/
theorem emitConstant_eq (same : Value → Value → Bool) (c : Chunk) (v : Value) (line : Int64) :
    c.emitConstant same v line =
      if (c.addConstant same v).2 < maxConstants then
        ((c.addConstant same v).1.emit Opcode.constant.toByte
          [(c.addConstant same v).2.toUInt8] line, .ok c.code.size)
      else ((c.addConstant same v).1, .error (.tooManyConstants (c.addConstant same v).2)) := by
  rw [emitConstant]
  dsimp only
  rw [code_addConstant]

theorem constants_emitConstant (same : Value → Value → Bool) (c : Chunk) (v : Value)
    (line : Int64) :
    (c.emitConstant same v line).1.constants = (c.addConstant same v).1.constants := by
  rw [emitConstant_eq]
  split_ifs
  · exact constants_emit _ _ _ _
  · rfl

/-- An emission lays the opcode and, as its operand, the index of the constant. -/
theorem code_emitConstant (same : Value → Value → Bool) (c : Chunk) (v : Value) (line : Int64)
    (hindex : (c.addConstant same v).2 < maxConstants) :
    (c.emitConstant same v line).1.code[c.code.size]? = some Opcode.constant.toByte ∧
      ∃ b : UInt8, (c.emitConstant same v line).1.code[c.code.size + 1]? = some b ∧
        b.toNat = (c.addConstant same v).2 := by
  have hlaid : ∀ i : Nat, (c.emitConstant same v line).1.code[c.code.size + i]? =
      [Opcode.constant.toByte, (c.addConstant same v).2.toUInt8][i]? := by
    intro i
    rw [emitConstant_eq, if_pos hindex, ← code_addConstant same c v]
    exact getElem?_emit _ _ _ _ i
  exact ⟨hlaid 0, _, hlaid 1, UInt8.toNat_ofNat_of_lt' hindex⟩

theorem grows_emitConstant (same : Value → Value → Bool) (c : Chunk) (v : Value) (line : Int64) :
    c.Grows (c.emitConstant same v line).1 := by
  have hadd := c.grows_addConstant same v
  rw [emitConstant_eq]
  split_ifs
  · exact hadd.trans (grows_emit _ _ _ _)
  · exact hadd

/-! ### Pools without duplicates -/

/-- The entries of a pool are there, and no two of them are equal. -/
structure Distinct (m : Memory) (c : Chunk) : Prop where
  has : ∀ {i : Nat} {e : Value}, c.constants[i]? = some e → m.Has e
  apart : ∀ {i j : Nat} {e e' : Value}, c.constants[i]? = some e → c.constants[j]? = some e' →
    m.equal e e' = true → i = j

theorem distinct_new (m : Memory) : Distinct m {} := ⟨nofun, nofun⟩

theorem Distinct.congr (h : c.Distinct m) (hconstants : c'.constants = c.constants) :
    c'.Distinct m where
  has := by
    rw [hconstants]
    exact h.has
  apart := by
    rw [hconstants]
    exact h.apart

theorem Distinct.extend (h : c.Distinct m) (hm : m.KeepsTexts m') : c.Distinct m' where
  has he := (h.has he).extend hm
  apart he he' hequal := by
    rw [hm.equal (h.has he) (h.has he')] at hequal
    exact h.apart he he' hequal

theorem Distinct.addConstant (h : c.Distinct m) (hv : m.Has v) :
    (c.addConstant m.equal v).1.Distinct m := by
  obtain ⟨i, e, -, -, heq⟩ | ⟨hnew, heq⟩ := c.addConstant_cases m.equal v
  · rw [heq]
    exact h
  have hcases : ∀ {i : Nat} {e : Value}, (c.constants.push v)[i]? = some e →
      c.constants[i]? = some e ∨ i = c.constants.size ∧ e = v := by
    intro i e he
    rw [Array.getElem?_push] at he
    split_ifs at he with hi
    · exact Or.inr ⟨hi, (Option.some.inj he).symm⟩
    · exact Or.inl he
  rw [heq]
  refine ⟨fun he => ?_, fun he he' hequal => ?_⟩
  · obtain he | ⟨-, rfl⟩ := hcases he
    · exact h.has he
    · exact hv
  · rcases hcases he with hold | ⟨hi, hev⟩ <;> rcases hcases he' with hold' | ⟨hi', hev'⟩
    · exact h.apart hold hold' hequal
    · rw [hev', hnew _ _ hold] at hequal
      cases hequal
    · rw [hev] at hequal
      have hnone := hnew _ _ hold'
      rw [Memory.equal_symm hequal] at hnone
      cases hnone
    · rw [hi, hi']

/-- The index of an added value is the one that has an equal entry. -/
theorem Distinct.index_iff (h : c.Distinct m) (hv : m.Has v) (i : Nat) :
    i = (c.addConstant m.equal v).2 ↔
      ∃ e, (c.addConstant m.equal v).1.constants[i]? = some e ∧ m.equal e v = true := by
  have hadded := h.addConstant hv
  constructor
  · rintro rfl
    exact exists_added m c v
  · rintro ⟨e, he, hequal⟩
    obtain ⟨e', he', hequal'⟩ := exists_added m c v
    exact hadded.apart he he' (Memory.equal_trans hequal (Memory.equal_symm hequal'))

/-! ### Sequences of constants -/

/-- What comes of a chunk and of the memory beside it when constants are added and emitted.  In
between objects may be made. -/
inductive Pools (m : Memory) (c : Chunk) : Memory → Chunk → Prop where
  | start : Pools m c m c
  | add {m' : Memory} {c' : Chunk} (v : Value) : Pools m c m' c' → m'.Has v →
      Pools m c m' (c'.addConstant m'.equal v).1
  | emit {m' : Memory} {c' : Chunk} (v : Value) (line : Int64) : Pools m c m' c' → m'.Has v →
      Pools m c m' (c'.emitConstant m'.equal v line).1
  | wait {m' m'' : Memory} {c' : Chunk} : Pools m c m' c' → m'.KeepsTexts m'' → Pools m c m'' c'

theorem Pools.keepsTexts (h : Pools m c m' c') : m.KeepsTexts m' := by
  induction h with
  | start => exact .refl m
  | add _ _ _ ih => exact ih
  | emit _ _ _ _ ih => exact ih
  | wait _ hm ih => exact ih.trans hm

theorem Pools.grows (h : Pools m c m' c') : c.Grows c' := by
  induction h with
  | start => exact .refl c
  | add v _ _ ih => exact ih.trans (grows_addConstant _ _ v)
  | emit v line _ _ ih => exact ih.trans (grows_emitConstant _ _ v line)
  | wait _ _ ih => exact ih

theorem Pools.distinct (h : Pools m c m' c') (hc : c.Distinct m) : c'.Distinct m' := by
  induction h with
  | start => exact hc
  | add v _ hv ih => exact ih.addConstant hv
  | emit v line _ hv ih => exact (ih.addConstant hv).congr (constants_emitConstant _ _ v line)
  | wait _ hm ih => exact ih.extend hm

/-- The instruction that an emission leaves pushes an entry equal to its constant ever after. -/
theorem Distinct.selects (h : c.Distinct m) (hv : m.Has v)
    (hindex : (c.addConstant m.equal v).2 < maxConstants)
    (hrest : Pools m (c.emitConstant m.equal v line).1 m' c') :
    c'.code[c.code.size]? = some Opcode.constant.toByte ∧
      ∃ b e, c'.code[c.code.size + 1]? = some b ∧ b.toNat = (c.addConstant m.equal v).2 ∧
        c'.constants[b.toNat]? = some e ∧ m'.equal e v = true := by
  obtain ⟨e, he, hequal⟩ := exists_added m c v
  have hlasts : m'.equal e v = true := by
    rw [hrest.keepsTexts.equal ((h.addConstant hv).has he) hv]
    exact hequal
  obtain ⟨hopcode, b, hoperand, hbyte⟩ := code_emitConstant m.equal c v line hindex
  refine ⟨hrest.grows.code hopcode, b, e, hrest.grows.code hoperand, hbyte, ?_, hlasts⟩
  rw [hbyte]
  refine hrest.grows.constants ?_
  rw [constants_emitConstant]
  exact he

/-- However constants are added to a new chunk and emitted, its pool has no two equal entries, and
entries stay where they are.  A value gets the one index whose entry is equal to it and joins the
pool where there is none; it is emitted where that index fits in a byte, and the operand selects an
entry equal to it as long as the chunk grows. -/
theorem Pools.free_of_duplicates (h : Pools m {} m' c) :
    (∀ (i j : Nat) e e', c.constants[i]? = some e → c.constants[j]? = some e' →
      m'.equal e e' = true → i = j) ∧
    (∀ m'' c'', Pools m' c m'' c'' →
      ∀ (i : Nat) e, c.constants[i]? = some e → c''.constants[i]? = some e) ∧
    ∀ v, m'.Has v →
      let added := (c.addConstant m'.equal v).1
      let index := (c.addConstant m'.equal v).2
      (∀ i, i = index ↔ ∃ e, added.constants[i]? = some e ∧ m'.equal e v = true) ∧
      ((∃ e ∈ c.constants, m'.equal e v = true) → added = c) ∧
      ((∀ e ∈ c.constants, m'.equal e v = false) →
        added = { c with constants := c.constants.push v }) ∧
      ∀ line,
        let emitted := (c.emitConstant m'.equal v line).1
        (c.emitConstant m'.equal v line).2 =
          (if index < 256 then .ok c.code.size else .error (.tooManyConstants index)) ∧
        emitted.constants = added.constants ∧
        (256 ≤ index → emitted = added) ∧
        (index < 256 → ∀ m'' c'', Pools m' emitted m'' c'' →
          c''.code[c.code.size]? = some Opcode.constant.toByte ∧
          ∃ b e, c''.code[c.code.size + 1]? = some b ∧ b.toNat = index ∧
            c''.constants[b.toNat]? = some e ∧ m''.equal e v = true) := by
  have hdistinct : c.Distinct m' := h.distinct (distinct_new m)
  refine ⟨fun i j e e' he he' => hdistinct.apart he he',
    fun m'' c'' hrest i e he => hrest.grows.constants he, fun v hv => ?_⟩
  refine ⟨hdistinct.index_iff hv, ?_, ?_, fun line => ⟨?_, ?_, ?_, ?_⟩⟩
  · rintro ⟨e, he, hequal⟩
    obtain ⟨i, hi⟩ := Array.mem_iff_getElem?.1 he
    obtain ⟨j, e', -, -, heq⟩ | ⟨hnew, -⟩ := c.addConstant_cases m'.equal v
    · rw [heq]
    · rw [hnew i e hi] at hequal
      cases hequal
  · intro hnone
    obtain ⟨i, e, he, hequal, -⟩ | ⟨-, heq⟩ := c.addConstant_cases m'.equal v
    · rw [hnone e (Array.mem_of_getElem? he)] at hequal
      cases hequal
    · rw [heq]
  · rw [emitConstant_eq, maxConstants]
    split_ifs <;> rfl
  · exact constants_emitConstant _ _ _ _
  · intro hlarge
    rw [emitConstant_eq, maxConstants, if_neg (Nat.not_lt.2 hlarge)]
  · intro hsmall m'' c'' hrest
    exact hdistinct.selects hv hsmall hrest

end Chunk

/-- Two strings with one text. -/
def textsSample : Memory where
  heap := Heap.create 0 {}
  objects := #[⟨.string "a", none⟩, ⟨.string "a", none⟩]

/-- The two strings are one constant, and the instruction emitted for the second pushes the first,
whatever else joins the pool. -/
theorem Chunk.free_of_duplicates_textsSample :
    let c : Chunk := { constants := #[.object 0] }
    Pools textsSample {} textsSample c ∧ c.addConstant textsSample.equal (.object 1) = (c, 0) ∧
      ∀ m c', Pools textsSample (c.emitConstant textsSample.equal (.object 1) 1).1 m c' →
        c'.code[1]? = some 0 := by
  have hhas : ∀ id < 2, textsSample.Has (.object id) := by
    rintro id hid _ ⟨⟩
    exact hid
  have hrun := Pools.add (.object 0) (.start (m := textsSample) (c := {})) (hhas 0 (by decide))
  rw [addConstant, Array.findIdx?_empty] at hrun
  obtain ⟨-, -, hall⟩ := hrun.free_of_duplicates
  obtain ⟨hindex, hfound, -, hemit⟩ := hall (.object 1) (hhas 1 (by decide))
  have hadded := hfound ⟨.object 0, Array.mem_push_self, by decide⟩
  have hzero := (hindex 0).2 ⟨.object 0, by rw [hadded]; rfl, by decide⟩
  refine ⟨hrun, Prod.ext hadded hzero.symm, fun m c' hrest => ?_⟩
  obtain ⟨-, -, -, hselects⟩ := hemit 1
  obtain ⟨-, b, e, hb, hvalue, -, -⟩ := hselects (by rw [← hzero]; decide) m c' hrest
  rw [← hzero] at hvalue
  rwa [UInt8.toNat_inj.1 (show b.toNat = (0 : UInt8).toNat from hvalue)] at hb

end StackVm
