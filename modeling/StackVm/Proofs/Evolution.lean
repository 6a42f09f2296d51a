/-
How a memory changes while programs run.  Objects keep their kinds and functions their
code, new objects are no functions, and a function comes to be verified only when its
code is valid.  Whatever an allocation does about reclaimed objects, contents stay.
-/
import StackVm.Proofs.Boundaries
import StackVm.Proofs.HeapRun
import StackVm.Proofs.TwinVerify

namespace StackVm

/-- The faults that an allocation can raise: exhaustion, and what a collection comes upon. -/
inductive Fault.FromAllocation : Fault → Prop
  | exhausted (live : Nat) (max : Int64) : FromAllocation (.exhausted live max)
  | foreign (kind : Kind) : FromAllocation (.foreign kind)
  | swept (kind : Kind) (slot : Nat) : FromAllocation (.swept kind slot)
  | allocationInCollection : FromAllocation .allocationInCollection

namespace Memory

/-- The function has code, and the code is valid. -/
def Passes (m : Memory) (f : Function) : Prop :=
  ∃ c, m.chunkOf? f = some c ∧ c.validate m.typeOf = .ok ()

/-- One memory has become another while programs ran. -/
structure Evolves (m n : Memory) : Prop where
  chunks : n.chunks = m.chunks
  size : m.objects.size ≤ n.objects.size
  kind : ∀ {id p}, m.payload? id = some p → ∃ q, n.payload? id = some q ∧ q.kind = p.kind
  function : ∀ {id f}, n.function? id = some f → ∃ g, m.function? id = some g ∧
    f.chunk = g.chunk ∧ (f.verified = true → g.verified = true ∨ n.Passes f)

variable {m n o : Memory} {id : ObjectId}

theorem string_ne_function (data : Text) : (Payload.string data).kind ≠ .function := nofun

theorem array_ne_function (elements : Array Value) :
    (Payload.array elements).kind ≠ .function := nofun

theorem struct_ne_function (record : Record) : (Payload.struct record).kind ≠ .function := nofun

theorem lt_size_of_payload? {p : Payload} (h : m.payload? id = some p) : id < m.objects.size := by
  rw [payload?, Option.map_eq_some_iff] at h
  obtain ⟨o, ho, -⟩ := h
  exact (Array.getElem?_eq_some_iff.1 ho).1

/-- What was there has the contents it had when one object has been added. -/
theorem payload?_of_added {p q : Payload}
    (hadded : ∀ i, n.payload? i = if i = m.objects.size then some p else m.payload? i)
    (hq : m.payload? id = some q) : n.payload? id = some q := by
  rw [hadded, if_neg (Nat.ne_of_lt (lt_size_of_payload? hq)), hq]

theorem function?_eq_some {f : Function} :
    m.function? id = some f ↔ m.payload? id = some (.function f) := by
  rw [function?_eq]
  constructor
  · intro h
    split at h
    · next hp =>
      cases h
      exact hp
    · cases h
  · intro h
    rw [h]

theorem struct?_eq_some {r : Record} :
    m.struct? id = some r ↔ m.payload? id = some (.struct r) := by
  rw [struct?_eq]
  constructor
  · intro h
    split at h
    · next hp =>
      cases h
      exact hp
    · cases h
  · intro h
    rw [h]

theorem string?_eq_some {data : Text} :
    m.string? id = some data ↔ m.payload? id = some (.string data) := by
  rw [string?_eq]
  constructor
  · intro h
    split at h
    · next hp =>
      cases h
      exact hp
    · cases h
  · intro h
    rw [h]

theorem string?_of_typeOf (h : m.typeOf (.object id) = .string) :
    ∃ data, m.string? id = some data := by
  rw [typeOf_object] at h
  cases hp : m.payload? id with
  | none =>
    rw [hp] at h
    cases h
  | some p =>
    rw [hp] at h
    cases p with
    | string data => exact ⟨data, string?_eq_some.2 hp⟩
    | _ => cases h

/-! ### What stays readable -/

/-- Where objects keep their kinds, strings stay strings. -/
theorem typeOf_string_of_kind
    (hkind : ∀ {id p}, m.payload? id = some p → ∃ q, n.payload? id = some q ∧ q.kind = p.kind)
    (v : Value) (hv : m.typeOf v = .string) : n.typeOf v = .string := by
  cases v with
  | object id =>
    rw [typeOf_object] at hv ⊢
    cases hp : m.payload? id with
    | none =>
      rw [hp] at hv
      cases hv
    | some p =>
      obtain ⟨q, hq, hsame⟩ := hkind hp
      rw [hp] at hv
      rw [hq, Option.map_some, Option.getD_some, hsame]
      exact hv
  | _ => cases hv

theorem Evolves.chunkOf? (h : m.Evolves n) {f g : Function} (hchunk : f.chunk = g.chunk) :
    n.chunkOf? f = m.chunkOf? g := by
  rw [Memory.chunkOf?, Memory.chunkOf?, h.chunks, hchunk]

theorem Evolves.string? (h : m.Evolves n) {data : Text} (hdata : m.string? id = some data) :
    ∃ data, n.string? id = some data := by
  obtain ⟨q, hq, hkind⟩ := h.kind (string?_eq_some.1 hdata)
  cases q with
  | string data => exact ⟨data, string?_eq_some.2 hq⟩
  | _ => cases hkind

theorem Evolves.struct? (h : m.Evolves n) {r : Record} (hr : m.struct? id = some r) :
    ∃ r, n.struct? id = some r := by
  obtain ⟨q, hq, hkind⟩ := h.kind (struct?_eq_some.1 hr)
  cases q with
  | struct r => exact ⟨r, struct?_eq_some.2 hq⟩
  | _ => cases hkind

/-- A function stays a function with the same code. -/
theorem Evolves.function?_some (h : m.Evolves n) {f : Function} (hf : m.function? id = some f) :
    ∃ g, n.function? id = some g ∧ g.chunk = f.chunk := by
  obtain ⟨q, hq, hkind⟩ := h.kind (function?_eq_some.1 hf)
  cases q with
  | function g =>
    have hg := function?_eq_some.2 hq
    obtain ⟨f', hf', hchunk, _⟩ := h.function hg
    rw [hf] at hf'
    cases hf'
    exact ⟨g, hg, hchunk⟩
  | _ => cases hkind

theorem Evolves.code (h : m.Evolves n) {c : Chunk}
    (hc : (m.function? id).bind m.chunkOf? = some c) :
    (n.function? id).bind n.chunkOf? = some c := by
  obtain ⟨f, hf, hc⟩ := Option.bind_eq_some_iff.1 hc
  obtain ⟨g, hg, hchunk⟩ := h.function?_some hf
  rw [hg, Option.bind_some, h.chunkOf? hchunk, hc]

theorem Evolves.typeOf_string (h : m.Evolves n) (v : Value) (hv : m.typeOf v = .string) :
    n.typeOf v = .string := typeOf_string_of_kind h.kind v hv

theorem Passes.evolve (h : m.Evolves n) {f g : Function} (hf : m.Passes f)
    (hchunk : g.chunk = f.chunk) : n.Passes g := by
  obtain ⟨c, hc, hvalid⟩ := hf
  refine ⟨c, ?_, Chunk.validate_mono h.typeOf_string hvalid⟩
  rw [h.chunkOf? hchunk, hc]

theorem Evolves.refl (m : Memory) : m.Evolves m where
  chunks := rfl
  size := Nat.le_refl _
  kind h := ⟨_, h, rfl⟩
  function h := ⟨_, h, rfl, Or.inl⟩

theorem Evolves.trans (h : m.Evolves n) (h' : n.Evolves o) : m.Evolves o where
  chunks := h'.chunks.trans h.chunks
  size := Nat.le_trans h.size h'.size
  kind hp := by
    obtain ⟨q, hq, hkind⟩ := h.kind hp
    obtain ⟨r, hr, hkind'⟩ := h'.kind hq
    exact ⟨r, hr, hkind'.trans hkind⟩
  function hf := by
    obtain ⟨g, hg, hchunk, hverified⟩ := h'.function hf
    obtain ⟨e, he, hchunk', hverified'⟩ := h.function hg
    refine ⟨e, he, hchunk.trans hchunk', fun hdone => ?_⟩
    rcases hverified hdone with hdone | hpasses
    · rcases hverified' hdone with hdone | hpasses
      · exact Or.inl hdone
      · exact Or.inr (hpasses.evolve h' hchunk)
    · exact Or.inr hpasses

/-! ### Changing contents -/

/-- A change that keeps kinds and code, and verifies nothing but valid code. -/
theorem Evolves.modifyPayload {change : Payload → Payload}
    (hkind : ∀ p, m.payload? id = some p → (change p).kind = p.kind)
    (hfunction : ∀ f g, m.function? id = some f → change (.function f) = .function g →
      g.chunk = f.chunk ∧ (g.verified = true → f.verified = true ∨ m.Passes f)) :
    m.Evolves (m.modifyPayload id change) := by
  have hkinds : ∀ {i p}, m.payload? i = some p →
      ∃ q, (m.modifyPayload id change).payload? i = some q ∧ q.kind = p.kind := by
    intro i p hp
    rw [payload?_modifyPayload]
    split
    · next heq =>
      subst heq
      rw [hp]
      exact ⟨_, rfl, hkind p hp⟩
    · exact ⟨p, hp, rfl⟩
  constructor
  case chunks => rfl
  case size => rw [Memory.modifyPayload, Array.size_modify]
  case kind => exact hkinds
  case function =>
    intro i g hg
    rw [function?_eq_some, payload?_modifyPayload] at hg
    split at hg
    · next heq =>
      subst heq
      obtain ⟨p, hp, hchange⟩ := Option.map_eq_some_iff.1 hg
      have hsame := hkind p hp
      rw [hchange] at hsame
      cases p with
      | function f =>
        have hf := function?_eq_some.2 hp
        obtain ⟨hchunk, hverified⟩ := hfunction f g hf hchange
        refine ⟨f, hf, hchunk, fun hdone => ?_⟩
        rcases hverified hdone with hdone | ⟨c, hc, hvalid⟩
        · exact Or.inl hdone
        · refine Or.inr ⟨c, ?_, Chunk.validate_mono (typeOf_string_of_kind hkinds) hvalid⟩
          rw [Memory.chunkOf?, hchunk]
          exact hc
      | _ => cases hsame
    · exact ⟨g, function?_eq_some.2 hg, rfl, Or.inl⟩

/-! ### Allocating -/

theorem makeRoom_payload? {holdings : Holdings} (h : makeRoom holdings m = .ok () n) :
    n.chunks = m.chunks ∧ n.objects.size = m.objects.size ∧
      ∀ i, n.payload? i = m.payload? i := by
  rcases makeRoom_state (Or.inl ⟨(), h⟩) with rfl | ⟨marks, rfl⟩
  · exact ⟨rfl, rfl, fun _ => rfl⟩
  · exact ⟨rfl, size_sweep m marks, payload?_sweep m marks⟩

/-- A successful allocation adds one object and keeps all contents. -/
theorem alloc_payload? {holdings : Holdings} {payload : Payload}
    (h : alloc holdings payload m = .ok id n) :
    id = m.objects.size ∧ n.chunks = m.chunks ∧ n.objects.size = m.objects.size + 1 ∧
      ∀ i, n.payload? i = if i = m.objects.size then some payload else m.payload? i := by
  rw [alloc_eq, place_eq (placement?_add_size m payload)] at h
  cases hroom : makeRoom holdings (m.add payload) with
  | error e k =>
    rw [hroom] at h
    cases h
  | ok a k =>
    rw [hroom] at h
    cases h
    obtain ⟨hchunks, hsize, hpayload⟩ := makeRoom_payload? hroom
    refine ⟨rfl, ?_, ?_, fun i => ?_⟩
    · rw [occupy_eq]
      exact hchunks
    · rw [occupy_eq, Array.size_modify, hsize, add, Array.size_push]
    · rw [payload?_occupy, hpayload, payload?_add]

/-- Making an object that is no function. -/
theorem Evolves.alloc {holdings : Holdings} {payload : Payload}
    (h : Memory.alloc holdings payload m = .ok id n) (hkind : payload.kind ≠ .function) :
    m.Evolves n := by
  obtain ⟨_, hchunks, hsize, hpayload⟩ := alloc_payload? h
  constructor
  case chunks => exact hchunks
  case size =>
    rw [hsize]
    exact Nat.le_succ _
  case kind => exact fun hp => ⟨_, payload?_of_added hpayload hp, rfl⟩
  case function =>
    intro i f hf
    rw [function?_eq_some, hpayload] at hf
    split at hf
    · cases hf
      exact absurd rfl hkind
    · exact ⟨f, function?_eq_some.2 hf, rfl, Or.inl⟩

theorem mark_error {objects : Array Object} {heap : HeapId} {s : Marking} {e : Fault}
    (h : s.mark objects heap id = .error e) : e.FromAllocation := by
  rw [Marking.mark] at h
  split at h
  · cases h
  · split at h
    · cases h
      exact .foreign _
    · split at h
      · cases h
        exact .foreign _
      · split at h
        · cases h
          exact .swept _ _
        · cases h

theorem markAll_error {objects : Array Object} {heap : HeapId} {s : Marking} {e : Fault}
    {ids : List ObjectId} (h : Marking.markAll objects heap s ids = .error e) :
    e.FromAllocation := by
  induction ids generalizing s with
  | nil => cases h
  | cons id rest ih =>
    rw [Marking.markAll] at h
    split at h
    · next hmark =>
      cases h
      exact mark_error hmark
    · exact ih h

theorem markHolds_error {objects : Array Object} {heap : HeapId} {s : Marking} {e : Fault}
    {holds : List Hold} (h : Marking.markHolds objects heap s holds = .error e) :
    e.FromAllocation := by
  induction holds generalizing s with
  | nil => cases h
  | cons hold rest ih =>
    cases hold with
    | allocation =>
      cases h
      exact .allocationInCollection
    | object id =>
      rw [Marking.markHolds] at h
      split at h
      · next hmark =>
        cases h
        exact mark_error hmark
      · exact ih h

theorem drain_error {s : Marking} {e : Fault} (h : s.drain m = .error e) :
    e.FromAllocation := by
  induction s using Marking.drain.induct m with
  | case1 marks =>
    rw [Marking.drain] at h
    cases h
  | case2 marks id rest e' hmark =>
    rw [Marking.drain] at h
    split at h
    · next hmark' =>
      cases h
      exact markAll_error hmark'
    · next hmark' =>
      rw [hmark] at hmark'
      cases hmark'
  | case3 marks id rest t hmark ih =>
    rw [Marking.drain] at h
    split at h
    · next hmark' =>
      cases h
      exact markAll_error hmark'
    · next hmark' =>
      rw [hmark] at hmark'
      cases hmark'
      exact ih h

theorem collect_error {holdings : Holdings} {e : Fault} (h : collect holdings m = .error e n) :
    e.FromAllocation := by
  rw [collect] at h
  split at h
  · cases h
  · next hmark =>
    cases h
    rw [markPhase] at hmark
    cases hholds : Marking.markHolds m.objects m.heap.id ⟨m.heap.marks, []⟩
        (m.rootHolds holdings) with
    | error e =>
      rw [hholds] at hmark
      cases hmark
      exact markHolds_error hholds
    | ok s =>
      rw [hholds] at hmark
      cases hpins : Marking.markAll m.objects m.heap.id s (m.heap.pins.map (·.1)) with
      | error e =>
        simp only [bind, Except.bind, hpins] at hmark
        cases hmark
        exact markAll_error hpins
      | ok t =>
        cases hdrain : t.drain m with
        | error e =>
          simp only [bind, Except.bind, hpins, hdrain] at hmark
          cases hmark
          exact drain_error hdrain
        | ok u =>
          simp only [bind, Except.bind, hpins, hdrain] at hmark
          cases hmark

theorem makeRoom_error {holdings : Holdings} {e : Fault} (h : makeRoom holdings m = .error e n) :
    e.FromAllocation := by
  rw [makeRoom_eq] at h
  split at h
  · cases hcollect : collect holdings m with
    | error e k =>
      rw [hcollect] at h
      cases h
      exact collect_error hcollect
    | ok a k =>
      rw [hcollect] at h
      simp only [checkRoom] at h
      split at h
      · cases h
        exact .exhausted _ _
      · cases h
  · cases h

/-- An allocation fails only in the ways of an allocation. -/
theorem alloc_error {holdings : Holdings} {payload : Payload} {e : Fault}
    (h : alloc holdings payload m = .error e n) : e.FromAllocation := by
  rw [alloc_eq, place_eq (placement?_add_size m payload)] at h
  cases hroom : makeRoom holdings (m.add payload) with
  | error e k =>
    rw [hroom] at h
    cases h
    exact makeRoom_error hroom
  | ok a k =>
    rw [hroom] at h
    cases h

/-! ### Verifying -/

/-- The verified functions among these objects have valid code. -/
def Vetted (m : Memory) (among : ObjectId → Prop) : Prop :=
  ∀ id f, among id → m.function? id = some f → f.verified = true → m.Passes f

/-- The code of the functions among these objects is aligned. -/
def Aligned (m : Memory) (among : ObjectId → Prop) : Prop :=
  ∀ id f c, among id → m.function? id = some f → m.chunkOf? f = some c → c.Aligned

variable {among : ObjectId → Prop}

theorem Vetted.evolve (hm : m.Vetted among) (h : m.Evolves n) : n.Vetted among := by
  intro id f hid hf hverified
  obtain ⟨g, hg, hchunk, hdone⟩ := h.function hf
  rcases hdone hverified with hdone | hpasses
  · exact (hm id g hid hg hdone).evolve h hchunk
  · exact hpasses

theorem Aligned.evolve (hm : m.Aligned among) (h : m.Evolves n) : n.Aligned among := by
  intro id f c hid hf hc
  obtain ⟨g, hg, hchunk, _⟩ := h.function hf
  rw [h.chunkOf? hchunk] at hc
  exact hm id g c hid hg hc

theorem verifyOne_ok {f : Function} {constants : List Value}
    (h : m.verifyOne f = .ok constants) : m.Passes f := by
  rw [verifyOne] at h
  split at h
  · cases h
  · next c hc =>
    split at h
    · cases h
    · next hvalid => exact ⟨c, hc, hvalid⟩

/-- The search leaves only functions with valid code behind. -/
theorem verifySearch_passes {seen verified : List ObjectId} {visits : List Visit}
    {p : ObjectId → Prop} (hp : ∀ id f, m.function? id = some f → m.Passes f → p id)
    (hverified : ∀ id ∈ verified, p id) (hleave : ∀ id, .leave id ∈ visits → p id) :
    ∀ id ∈ (m.verifySearch seen verified visits).1, p id := by
  induction seen, verified, visits using Memory.verifySearch.induct m with
  | case1 seen verified =>
    rw [verifySearch]
    exact hverified
  | case2 seen verified id rest ih =>
    rw [verifySearch]
    refine ih (fun i hi => ?_) fun i hi => hleave i (List.mem_cons_of_mem _ hi)
    rcases List.mem_cons.1 hi with rfl | hi
    · exact hleave _ List.mem_cons_self
    · exact hverified i hi
  | case3 seen verified id rest hf ih =>
    rw [verifySearch_enter_none hf]
    exact ih hverified fun i hi => hleave i (List.mem_cons_of_mem _ hi)
  | case4 seen verified id rest f hf hdone ih =>
    rw [verifySearch_enter_some hf, if_pos hdone]
    exact ih hverified fun i hi => hleave i (List.mem_cons_of_mem _ hi)
  | case5 seen verified id rest f hf hdone e hone =>
    rw [verifySearch_enter_some hf, if_neg hdone, hone]
    exact hverified
  | case6 seen verified id rest f hf hdone constants hone ih =>
    rw [verifySearch_enter_some hf, if_neg hdone, hone]
    refine ih hverified fun i hi => ?_
    -- The only visit to leave that is new is the one of the function just checked.
    rcases List.mem_append.1 hi with hi | hi
    · obtain ⟨_, _, heq⟩ := List.mem_map.1 hi
      cases heq
    · rcases List.mem_cons.1 hi with heq | hi
      · cases heq
        exact hp _ f hf (verifyOne_ok hone)
      · exact hleave i (List.mem_cons_of_mem _ hi)

theorem Evolves.setVerified (hid : ∃ f, m.function? id = some f ∧ m.Passes f) :
    m.Evolves (m.setVerified id) := by
  obtain ⟨f, hf, hpasses⟩ := hid
  refine .modifyPayload (fun p _ => ?_) fun f' g hf' heq => ?_
  · cases p <;> rfl
  · rw [hf] at hf'
    cases hf'
    cases heq
    exact ⟨rfl, fun _ => Or.inr hpasses⟩

theorem Evolves.setAllVerified {ids : List ObjectId}
    (h : ∀ id ∈ ids, ∃ f, m.function? id = some f ∧ m.Passes f) :
    m.Evolves (ids.foldl Memory.setVerified m) := by
  induction ids generalizing m with
  | nil => exact .refl m
  | cons id rest ih =>
    have hstep := Evolves.setVerified (h id List.mem_cons_self)
    refine hstep.trans (ih fun i hi => ?_)
    obtain ⟨f, hf, hpasses⟩ := h i (List.mem_cons_of_mem _ hi)
    obtain ⟨g, hg, hchunk⟩ := hstep.function?_some hf
    exact ⟨g, hg, hpasses.evolve hstep hchunk⟩

theorem Evolves.verify (m : Memory) (id : ObjectId) : m.Evolves (m.verify id).1 := by
  rw [verify_eq]
  split
  · exact .refl m
  · refine .setAllVerified (verifySearch_passes (fun i f hf hpasses => ⟨f, hf, hpasses⟩) ?_ ?_)
    · exact fun _ hi => nomatch hi
    · intro i hi
      cases List.mem_singleton.1 hi

/-- A function that verification finds no fault with has valid code. -/
theorem verify_passes (hvetted : m.Vetted among) (hid : among id) {f : Function}
    (hf : m.function? id = some f) (h : (m.verify id).2 = none) : m.Passes f := by
  cases hverified : f.verified with
  | true => exact hvetted id f hid hf hverified
  | false =>
    have hnew : ¬ (f.verified = true ∨ id ∈ ([] : List ObjectId)) := by simp [hverified]
    rw [verify_eq, hf, Option.map_some, Option.getD_some, hverified] at h
    simp only [Bool.false_eq_true, if_false] at h
    rw [verifySearch_enter_some hf, if_neg hnew] at h
    cases hone : m.verifyOne f with
    | error e =>
      rw [hone] at h
      cases h
    | ok constants => exact verifyOne_ok hone

end Memory

end StackVm
