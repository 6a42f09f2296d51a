/-
Memories and machines under a pairing.  What the instructions read of a memory,
such as a string, a type, a length, an equality or a printed text, is the same
in like memories; validation accepts like code alike.
-/
import StackVm.Machine.Interpret
import StackVm.Proofs.LikeGlobals

namespace StackVm

open List (Forall₂)

section

variable {pairing smaller : Pairing}

/-! ### Code -/

namespace Chunk

theorem instructionAt_congr {c d : Chunk} (hcode : c.code = d.code) (offset : Nat)
    (byte : UInt8) : c.instructionAt offset byte = d.instructionAt offset byte := by
  rw [instructionAt, instructionAt, hcode]

theorem target_congr {c d : Chunk} (hcode : c.code = d.code) (op : Opcode) (offset : Nat) :
    c.target op offset = d.target op offset := by
  rw [target, target, wordAt, wordAt, hcode]

theorem checkTarget_congr {c d : Chunk} (hcode : c.code = d.code) (op : Opcode)
    (offset : Nat) : c.checkTarget op offset = d.checkTarget op offset := by
  rw [checkTarget, checkTarget, target_congr hcode, hcode]

variable {c d : Chunk} {f g : Value → ValueType}

theorem Like.checkConstant (h : c.Like pairing d)
    (htype : ∀ v w, v.Like pairing w → f v = g w) (op : Opcode) (offset : Nat) :
    c.checkConstant f op offset = d.checkConstant g op offset := by
  have hconstant := h.constants.getElem? (d.code[offset + 1]?.getD 0).toNat
  rw [Chunk.checkConstant, Chunk.checkConstant, h.code, h.constants.size]
  simp only
  revert hconstant
  generalize c.constants[(d.code[offset + 1]?.getD 0).toNat]? = a
  generalize d.constants[(d.code[offset + 1]?.getD 0).toNat]? = b
  intro hconstant
  cases hconstant with
  | none => rfl
  | some hvw => simp only [htype _ _ hvw]

theorem Like.validateFrom (h : c.Like pairing d)
    (htype : ∀ v w, v.Like pairing w → f v = g w) (offset : Nat) :
    c.validateFrom f offset = d.validateFrom g offset := by
  induction offset using Chunk.validateFrom.induct f c with
  | case1 offset hlt e hinstruction =>
    have hcode := h.code
    rw [Chunk.validateFrom, Chunk.validateFrom]
    simp only [← hcode, hlt, dif_pos, ← instructionAt_congr hcode, hinstruction]
  | case2 offset hlt op hinstruction e hconstant =>
    have hcode := h.code
    rw [Chunk.validateFrom, Chunk.validateFrom]
    simp only [← hcode, hlt, dif_pos, ← instructionAt_congr hcode, hinstruction,
      ← h.checkConstant htype, hconstant]
  | case3 offset hlt op hinstruction hconstant e htarget =>
    have hcode := h.code
    rw [Chunk.validateFrom, Chunk.validateFrom]
    simp only [← hcode, hlt, dif_pos, ← instructionAt_congr hcode, hinstruction,
      ← h.checkConstant htype, hconstant, ← checkTarget_congr hcode, htarget]
  | case4 offset hlt op hinstruction hconstant htarget ih =>
    have hcode := h.code
    rw [Chunk.validateFrom, Chunk.validateFrom]
    simp only [← hcode, hlt, dif_pos, ← instructionAt_congr hcode, hinstruction,
      ← h.checkConstant htype, hconstant, ← checkTarget_congr hcode, htarget]
    exact ih
  | case5 offset hend =>
    have hcode := h.code
    rw [Chunk.validateFrom, Chunk.validateFrom]
    simp only [← hcode, hend, dif_neg, not_false_eq_true]

theorem Like.validate (h : c.Like pairing d) (htype : ∀ v w, v.Like pairing w → f v = g w) :
    c.validate f = d.validate g := by
  rw [Chunk.validate, Chunk.validate, h.unlinked, h.validateFrom htype]

theorem lineAt_congr (hlines : c.lines = d.lines) (offset : Int) :
    c.lineAt offset = d.lineAt offset := by
  rw [lineAt, lineAt, hlines]

end Chunk

/-! ### Memories -/

namespace Memory

theorem string?_eq (m : Memory) (id : ObjectId) :
    m.string? id = match m.payload? id with
      | some (.string data) => some data
      | _ => none := by
  rw [string?, payload?]
  rcases m.objects[id]? with _ | ⟨_ | _ | _ | _, _⟩ <;> rfl

theorem array?_eq (m : Memory) (id : ObjectId) :
    m.array? id = match m.payload? id with
      | some (.array elements) => some elements
      | _ => none := by
  rw [array?, payload?]
  rcases m.objects[id]? with _ | ⟨_ | _ | _ | _, _⟩ <;> rfl

theorem struct?_eq (m : Memory) (id : ObjectId) :
    m.struct? id = match m.payload? id with
      | some (.struct record) => some record
      | _ => none := by
  rw [struct?, payload?]
  rcases m.objects[id]? with _ | ⟨_ | _ | _ | _, _⟩ <;> rfl

theorem function?_eq (m : Memory) (id : ObjectId) :
    m.function? id = match m.payload? id with
      | some (.function f) => some f
      | _ => none := by
  rw [function?, payload?]
  rcases m.objects[id]? with _ | ⟨_ | _ | _ | _, _⟩ <;> rfl

theorem typeOf_object (m : Memory) (id : ObjectId) :
    m.typeOf (.object id) = ((m.payload? id).map (·.kind.type)).getD .nil := by
  rw [typeOf, payload?]
  cases m.objects[id]? <;> rfl

/-- Paired objects have like contents, and no object stands for two. -/
structure Like (pairing : Pairing) (m n : Memory) : Prop where
  oneToOne : pairing.OneToOne
  payload : ∀ {i j}, pairing i j →
    Option.Rel (Payload.Like pairing m.chunks n.chunks) (m.payload? i) (n.payload? j)

namespace Like

variable {m n : Memory} (h : m.Like pairing n) {i j : ObjectId} (hij : pairing i j)

include h hij

theorem string? : m.string? i = n.string? j := by
  rw [string?_eq, string?_eq]
  have hpayload := h.payload hij
  revert hpayload
  generalize m.payload? i = p
  generalize n.payload? j = q
  rintro (hpq | _)
  · cases hpq <;> rfl
  · rfl

theorem array? : Option.Rel (Rows (Value.Like pairing)) (m.array? i) (n.array? j) := by
  rw [array?_eq, array?_eq]
  have hpayload := h.payload hij
  revert hpayload
  generalize m.payload? i = p
  generalize n.payload? j = q
  rintro (hpq | _)
  · cases hpq with
    | array hxs => exact .some hxs
    | _ => exact .none
  · exact .none

theorem struct? : Option.Rel (Record.Like pairing) (m.struct? i) (n.struct? j) := by
  rw [struct?_eq, struct?_eq]
  have hpayload := h.payload hij
  revert hpayload
  generalize m.payload? i = p
  generalize n.payload? j = q
  rintro (hpq | _)
  · cases hpq with
    | struct hr => exact .some hr
    | _ => exact .none
  · exact .none

theorem function? : Option.Rel (Function.Like pairing m.chunks n.chunks)
    (m.function? i) (n.function? j) := by
  rw [function?_eq, function?_eq]
  have hpayload := h.payload hij
  revert hpayload
  generalize m.payload? i = p
  generalize n.payload? j = q
  rintro (hpq | _)
  · cases hpq with
    | function hf => exact .some hf
    | _ => exact .none
  · exact .none

theorem code : Option.Rel (Chunk.Like pairing) ((m.function? i).bind m.chunkOf?)
    ((n.function? j).bind n.chunkOf?) := by
  have hfunction := function? h hij
  revert hfunction
  generalize m.function? i = a
  generalize n.function? j = b
  intro hfunction
  cases hfunction with
  | none => exact .none
  | some hfg => exact hfg.code

theorem lengthOf : (m.payload? i).bind Exec.lengthOf = (n.payload? j).bind Exec.lengthOf := by
  have hpayload := h.payload hij
  revert hpayload
  generalize m.payload? i = p
  generalize n.payload? j = q
  rintro (hpq | _)
  · cases hpq with
    | string data => rfl
    | array hxs => exact congrArg some hxs.size
    | struct hr => exact congrArg some hr.size
    | function hf => rfl
  · rfl

end Like

variable {m n : Memory} (h : m.Like pairing n)

include h

theorem Like.typeOf {v w : Value} (hvw : v.Like pairing w) : m.typeOf v = n.typeOf w := by
  cases hvw with
  | object hij =>
    rw [typeOf_object, typeOf_object]
    have hpayload := h.payload hij
    revert hpayload
    generalize m.payload? _ = p
    generalize n.payload? _ = q
    rintro (hpq | _)
    · exact congrArg Kind.type hpq.kind
    · rfl
  | _ => rfl

theorem Like.display {v w : Value} (hvw : v.Like pairing w) : m.display v = n.display w := by
  cases hvw with
  | @object i j hij =>
    rw [Memory.display, Memory.display]
    have hpayload := h.payload hij
    revert hpayload
    generalize m.payload? i = p
    generalize n.payload? j = q
    rintro (hpq | _)
    · cases hpq with
      | string data => rfl
      | array hxs => simp only [hxs.size]
      | struct hr => simp only [hr.size]
      | function hf => simp only [hf.name]
    · rfl
  | _ => rfl

/-- Equality is the same on both sides, as no object stands for two. -/
theorem Like.equal {v v' w w' : Value} (hv : v.Like pairing v') (hw : w.Like pairing w') :
    m.equal v w = n.equal v' w' := by
  cases hv with
  | @object i j hij =>
    cases hw with
    | @object k l hkl =>
      rw [Memory.equal, Memory.equal, h.string? hij, h.string? hkl]
      have hsame : (i == k) = (j == l) := by
        apply Bool.eq_iff_iff.2
        rw [beq_iff_eq, beq_iff_eq]
        constructor
        · rintro rfl
          exact h.oneToOne.right hij hkl
        · rintro rfl
          exact h.oneToOne.left hij hkl
      rw [hsame]
    | _ => rfl
  | _ => cases hw <;> rfl

/-- A function's code is checked alike, and its constants are alike. -/
theorem Like.verifyOne {f g : Function} (hfg : f.Like pairing m.chunks n.chunks g) :
    (∃ e, m.verifyOne f = .error e ∧ n.verifyOne g = .error e) ∨
      ∃ vs ws, m.verifyOne f = .ok vs ∧ n.verifyOne g = .ok ws ∧
        Forall₂ (Value.Like pairing) vs ws := by
  have hname : f.displayName = g.displayName := by
    rw [Function.displayName, Function.displayName, hfg.name]
  have hcode := hfg.code
  rw [Memory.verifyOne, Memory.verifyOne, chunkOf?, chunkOf?, hname]
  revert hcode
  generalize f.chunk.bind (m.chunks[·]?) = c
  generalize g.chunk.bind (n.chunks[·]?) = d
  rintro (@⟨c, d, hcd⟩ | _)
  · simp only [hcd.validate fun v w hvw => h.typeOf hvw]
    cases hvalid : d.validate n.typeOf with
    | error e => exact Or.inl ⟨_, rfl, rfl⟩
    | ok => exact Or.inr ⟨_, _, rfl, rfl, hcd.constants⟩
  · exact Or.inl ⟨_, rfl, rfl⟩

end Memory

/-- Pairs read off like stacks are alike. -/
theorem pairs_like {m n : Memory} (h : m.Like pairing n) {vs ws : List Value}
    (hvs : Forall₂ (Value.Like pairing) vs ws) :
    Option.Rel (Forall₂ (Named pairing)) (Exec.pairs m vs) (Exec.pairs n ws) := by
  induction vs using List.twoStepInduction generalizing ws with
  | nil =>
    cases hvs
    exact .some .nil
  | singleton v =>
    cases hvs with
    | cons hv hrest =>
      cases hrest
      cases hv <;> exact .none
  | cons_cons v v' rest ih _ =>
    cases hvs with
    | @cons _ w _ _ hv hrest =>
      cases hrest with
      | @cons _ w' _ ws' hv' hrest =>
        cases hv with
        | @object i j hij =>
          have htail := ih hrest
          rw [Exec.pairs, Exec.pairs, h.string? hij]
          cases n.string? j with
          | none => exact .none
          | some name =>
            revert htail
            generalize Exec.pairs m rest = es
            generalize Exec.pairs n ws' = fs
            rintro (hes | _)
            · exact .some (.cons ⟨rfl, hv'⟩ hes)
            · exact .none
        | _ => exact .none

/-! ### Machines -/

/-- The same place in the code of functions that stand for one another. -/
structure Frame.Like (pairing : Pairing) (f g : Frame) : Prop where
  function : pairing f.function g.function
  ip : f.ip = g.ip
  base : f.base = g.base

/-- The same machine but for the objects it refers to, where it is registered and the
error it remembers. -/
structure Machine.Like (pairing : Pairing) (a b : Machine) : Prop where
  stack : Rows (Value.Like pairing) a.stack b.stack
  stackMax : a.stackMax = b.stackMax
  frames : Forall₂ (Frame.Like pairing) a.frames b.frames
  maxFrames : a.maxFrames = b.maxFrames
  globals : a.globals.Like pairing b.globals
  result : a.result.Like pairing b.result
  tracing : a.tracing = b.tracing
  closed : a.closed = b.closed

theorem Machine.Like.holds {a b : Machine} (h : a.Like pairing b) :
    Forall₂ pairing a.holds b.holds := by
  have hframes : Forall₂ pairing (a.frames.map (·.function)).reverse
      (b.frames.map (·.function)).reverse := by
    rw [List.forall₂_reverse_iff, List.forall₂_map_left_iff, List.forall₂_map_right_iff]
    exact h.frames.imp fun _ _ hfg => hfg.function
  have hresult : Forall₂ pairing (referents [a.result]) (referents [b.result]) :=
    referents_like (.cons h.result .nil)
  rw [Machine.holds, Machine.holds]
  exact List.rel_append (List.rel_append (List.rel_append (referents_like h.stack) hframes)
    (referents_like h.globals.values)) hresult

theorem Machine.mem_holds {a : Machine} {i : ObjectId} : i ∈ a.holds ↔
    i ∈ referents a.stack.toList ∨ (∃ f ∈ a.frames, f.function = i) ∨
      i ∈ referents a.globals.values ∨ i ∈ a.result.id? := by
  have hresult : i ∈ referents [a.result] ↔ i ∈ a.result.id? := by
    rw [referents, List.mem_filterMap]
    constructor
    · rintro ⟨v, hv, hi⟩
      rw [List.mem_singleton.1 hv] at hi
      exact hi
    · intro hi
      exact ⟨_, List.mem_singleton_self _, hi⟩
  rw [Machine.holds, List.mem_append, List.mem_append, List.mem_append, List.mem_reverse,
    List.mem_map, hresult, or_assoc, or_assoc]

/-- Only the pairs of objects that a machine holds matter for it. -/
theorem Machine.Like.restrict {a b : Machine} (h : a.Like pairing b)
    (hkeep : ∀ i ∈ a.holds, ∀ j, pairing i j → smaller i j) : a.Like smaller b := by
  constructor
  · exact values_restrict h.stack fun i hi => hkeep i (Machine.mem_holds.2 (Or.inl hi))
  · exact h.stackMax
  · apply forall₂_imp_of_mem h.frames
    intro f hf g hfg
    refine ⟨hkeep _ (Machine.mem_holds.2 (Or.inr (Or.inl ?_))) _ hfg.function, hfg.ip, hfg.base⟩
    exact ⟨f, hf, rfl⟩
  · exact h.maxFrames
  · exact h.globals.restrict fun i hi =>
      hkeep i (Machine.mem_holds.2 (Or.inr (Or.inr (Or.inl hi))))
  · exact h.result.restrict fun i hi =>
      hkeep i (Machine.mem_holds.2 (Or.inr (Or.inr (Or.inr hi))))
  · exact h.tracing
  · exact h.closed

theorem Machine.like_self {a : Machine} (h : ∀ i ∈ a.holds, pairing i i) :
    a.Like pairing a := by
  constructor
  · exact values_like_self fun i hi => h i (Machine.mem_holds.2 (Or.inl hi))
  · rfl
  · rw [List.forall₂_same]
    intro f hf
    exact ⟨h _ (Machine.mem_holds.2 (Or.inr (Or.inl ⟨f, hf, rfl⟩))), rfl, rfl⟩
  · rfl
  · refine ⟨Record.like_self fun i hi => ?_, fun name => rfl⟩
    exact h i (Machine.mem_holds.2 (Or.inr (Or.inr (Or.inl hi))))
  · exact Value.like_self fun i hi => h i (Machine.mem_holds.2 (Or.inr (Or.inr (Or.inr hi))))
  · rfl
  · rfl

theorem traceEntry_like {m n : Memory} (h : m.Like pairing n) {f g : Frame}
    (hfg : f.Like pairing g) : Exec.traceEntry m f = Exec.traceEntry n g := by
  have hfunction := h.function? hfg.function
  rw [Exec.traceEntry, Exec.traceEntry, hfg.ip]
  revert hfunction
  generalize m.function? f.function = a
  generalize n.function? g.function = b
  rintro (@⟨a, b, hab⟩ | _)
  · have hcode := hab.code
    simp only [Memory.chunkOf?, hab.name]
    revert hcode
    generalize a.chunk.bind (m.chunks[·]?) = c
    generalize b.chunk.bind (n.chunks[·]?) = d
    rintro (hcd | _)
    · simp only [Option.map_some, Chunk.lineAt_congr hcd.lines]
    · rfl
  · rfl

end

end StackVm
