/-
Loading written chunks.  Every string constant becomes a new pinned string, so a
memory with room for the strings loads whatever the bytes say, and the pins of a
loading that fails come off again.
-/
import StackVm.Chunk.Load
import StackVm.Proofs.Evolution
import StackVm.Proofs.Pins
import StackVm.Proofs.WireFormat

namespace StackVm

namespace Memory

/-- A run has led to the memory, everything reachable in it is owned, and the object
limit leaves room for some more objects beside the reachable ones. -/
structure Ready (m : Memory) (held : RootId → List ObjectId) (count : Nat) : Prop where
  reached : m.Reached
  owns : ∀ id, m.Reachable (.of held) id → m.Owns id
  room : ∀ more < count,
    m.heap.config.isFull ({id | m.Reachable (.of held) id}.ncard + more) = false

variable {m n : Memory} {held : RootId → List ObjectId} {count : Nat}

theorem Ready.mono (hm : m.Ready held count) {less : Nat} (hle : less ≤ count) :
    m.Ready held less :=
  ⟨hm.reached, hm.owns, fun more hmore => hm.room more (Nat.lt_of_lt_of_le hmore hle)⟩

theorem Ready.not_mem_pins (hm : m.Ready held count) {id : ObjectId} (hid : m.objects.size ≤ id) :
    id ∉ m.heap.pins.map (·.1) := by
  intro hmem
  exact Nat.not_lt.2 hid (hm.owns id (.start (Or.inr hmem))).lt_size

/-- Objects and chunks have been added to a memory, and those that were there say what they
said before. -/
structure Extends (m n : Memory) : Prop where
  id : n.heap.id = m.heap.id
  config : n.heap.config = m.heap.config
  roots : n.heap.roots = m.heap.roots
  objects : m.objects.size ≤ n.objects.size
  payload : ∀ id < m.objects.size, n.payload? id = m.payload? id
  chunks : m.chunks.size ≤ n.chunks.size
  chunk : ∀ i < m.chunks.size, n.chunks[i]? = m.chunks[i]?

theorem Extends.refl (m : Memory) : Extends m m where
  id := rfl
  config := rfl
  roots := rfl
  objects := Nat.le_refl _
  payload _ _ := rfl
  chunks := Nat.le_refl _
  chunk _ _ := rfl

theorem Extends.trans {o : Memory} (h : Extends m n) (h' : Extends n o) : Extends m o where
  id := h'.id.trans h.id
  config := h'.config.trans h.config
  roots := h'.roots.trans h.roots
  objects := Nat.le_trans h.objects h'.objects
  payload id hid := (h'.payload id (Nat.lt_of_lt_of_le hid h.objects)).trans (h.payload id hid)
  chunks := Nat.le_trans h.chunks h'.chunks
  chunk i hi := (h'.chunk i (Nat.lt_of_lt_of_le hi h.chunks)).trans (h.chunk i hi)

theorem setChunk_of_ne {c : Chunk} {i chunk : ChunkId} (hne : chunk ≠ i) :
    (m.setChunk chunk c).chunks[i]? = m.chunks[i]? :=
  Array.getElem?_setIfInBounds_ne hne

theorem Extends.payload?_kept (h : Extends m n) {id : ObjectId} {p : Payload}
    (hp : m.payload? id = some p) : n.payload? id = some p :=
  (h.payload id (lt_size_of_payload? hp)).trans hp

theorem Extends.string?_kept (h : Extends m n) {id : ObjectId} {data : Text}
    (hdata : m.string? id = some data) : n.string? id = some data :=
  string?_eq_some.2 (h.payload?_kept (string?_eq_some.1 hdata))

theorem Extends.function?_kept (h : Extends m n) {id : ObjectId} {f : Function}
    (hf : m.function? id = some f) : n.function? id = some f :=
  function?_eq_some.2 (h.payload?_kept (function?_eq_some.1 hf))

/-- A memory to which an object has been added that is pinned once. -/
structure Stored (m : Memory) (payload : Payload) (n : Memory) : Prop where
  kept : Extends m n
  size : n.objects.size = m.objects.size + 1
  payload : ∀ id, n.payload? id = if id = m.objects.size then some payload else m.payload? id
  chunks : n.chunks = m.chunks
  pins : n.heap.pins = m.heap.pins ++ [(m.objects.size, 1)]

theorem Stored.function?_of_string {data : Text} (h : Stored m (.string data) n)
    (id : ObjectId) : n.function? id = m.function? id := by
  rw [function?_eq, function?_eq, h.payload]
  by_cases hid : id = m.objects.size
  · have hnone : m.payload? id = none := by
      rw [hid, payload?, Array.getElem?_eq_none (Nat.le_refl _)]
      rfl
    rw [if_pos hid, hnone]
  · rw [if_neg hid]

theorem Stored.pinCount {payload : Payload} (h : Stored m payload n)
    (hfresh : m.objects.size ∉ m.heap.pins.map (·.1)) (id : ObjectId) :
    n.heap.pinCount id = m.heap.pinCount id + if id = m.objects.size then 1 else 0 := by
  have hback := lookup_append_pins m.heap.pins id
    (List.forall_mem_singleton.2 hfresh : ∀ i ∈ [m.objects.size], i ∉ m.heap.pins.map (·.1))
  simp only [List.map_cons, List.map_nil, List.mem_singleton] at hback
  rw [Heap.pinCount, h.pins, hback, Heap.pinCount]

/-- The memory with one pin behind all others. -/
def withPin (m : Memory) (id : ObjectId) : Memory :=
  { m with heap := { m.heap with pins := m.heap.pins ++ [(id, 1)] } }

/-- A new pinned object that refers to nothing new makes nothing reachable but itself. -/
theorem reachable_withPin {payload : Payload} {k : Memory} (hk : Grown (.of held) payload m k)
    (hrefs : ∀ other ∈ payload.references m.chunks, m.Reachable (.of held) other)
    {id : ObjectId} (hid : (k.withPin m.objects.size).Reachable (.of held) id) :
    m.Reachable (.of held) id ∨ id = m.objects.size := by
  let reached (i : ObjectId) : Prop := m.Reachable (.of held) i ∨ i = m.objects.size
  have hstart : ∀ i, (k.withPin m.objects.size).Anchored (.of held) i → reached i := by
    rintro i (hroot | hpin)
    · refine Or.inl (.start (Or.inl ?_))
      rw [rootHolds_of] at hroot ⊢
      rw [← hk.same.roots]
      exact hroot
    · have hpin' : i ∈ List.map Prod.fst (k.heap.pins ++ [(m.objects.size, 1)]) := hpin
      rw [List.map_append, List.mem_append, hk.same.pins] at hpin'
      exact hpin'.imp (fun h => .start (Or.inr h)) List.mem_singleton.1
  have hclosed : ∀ i, reached i → ∀ other ∈ (k.withPin m.objects.size).references i,
      reached other := by
    rintro i (hi | rfl) other hother
    · refine Or.inl (hi.reference ?_)
      simp only [references, withPin, hk.object i hi, hk.chunks] at hother
      exact hother
    · have hnew : (k.withPin m.objects.size).payload? m.objects.size = some payload :=
        (hk.payload m.objects.size).trans (if_pos rfl)
      have hchunks : (k.withPin m.objects.size).chunks = m.chunks := hk.chunks
      rw [references_eq, hnew, hchunks] at hother
      exact Or.inl (hrefs other hother)
  exact hid.subset hstart hclosed

/-- A new pinned object uses up the room of one object. -/
theorem Ready.withPin (hm : m.Ready held (count + 1)) {payload : Payload} {k : Memory}
    (hk : Grown (.of held) payload m k)
    (hrefs : ∀ other ∈ payload.references m.chunks, m.Reachable (.of held) other)
    (hown : k.Owns m.objects.size) (hreached : (k.withPin m.objects.size).Reached) :
    (k.withPin m.objects.size).Ready held count where
  reached := hreached
  owns := by
    intro id hid
    rcases reachable_withPin hk hrefs hid with hid | rfl
    · obtain ⟨p, hp⟩ := hm.owns id hid
      have hfound : k.placement? id = some p := by
        rw [placement?, hk.object id hid]
        exact hp.found
      exact ⟨p, hfound, hp.heap.trans hk.same.id.symm, hp.unswept⟩
    · obtain ⟨p, hp⟩ := hown
      exact ⟨p, hp.found, hp.heap, hp.unswept⟩
  room := by
    intro more hmore
    have hroom := hm.room (more + 1) (Nat.succ_lt_succ hmore)
    have hsub : {id | (k.withPin m.objects.size).Reachable (.of held) id} ⊆
        insert m.objects.size {id | m.Reachable (.of held) id} := fun id hid =>
      (reachable_withPin hk hrefs hid).symm
    have hfinite : {id | m.Reachable (.of held) id}.Finite := m.finite_owns.subset hm.owns
    have hle := (Set.ncard_le_ncard hsub (hfinite.insert _)).trans (Set.ncard_insert_le _ _)
    have hconfig : (k.withPin m.objects.size).heap.config = m.heap.config := hk.same.config
    rw [hconfig, Bool.eq_false_iff]
    intro hfull
    rw [isFull_mono hfull (by omega)] at hroom
    cases hroom

theorem Grown.stored {payload : Payload} {k : Memory} (hk : Grown (.of held) payload m k) :
    Stored m payload (k.withPin m.objects.size) where
  kept := by
    refine ⟨hk.same.id, hk.same.config, hk.same.roots, ?_, fun id hid => ?_, ?_, fun i _ => ?_⟩
    · exact Nat.le_trans (Nat.le_succ _) (Nat.le_of_eq hk.size.symm)
    · exact (hk.payload id).trans (if_neg (Nat.ne_of_lt hid))
    · exact Nat.le_of_eq (congrArg Array.size hk.chunks.symm)
    · exact congrArg (·[i]?) hk.chunks
  size := hk.size
  payload := hk.payload
  chunks := hk.chunks
  pins := congrArg (· ++ [(m.objects.size, 1)]) hk.same.pins

/-- An object is stored and pinned where there is room for it. -/
theorem Ready.store (hm : m.Ready held (count + 1)) (payload : Payload)
    (hrefs : ∀ other ∈ payload.references m.chunks, m.Reachable (.of held) other) :
    ∃ k n, alloc (.of held) payload m = .ok m.objects.size k ∧
      pin m.objects.size k = .ok () n ∧ Stored m payload n ∧ n.Ready held count := by
  obtain ⟨k, hk, ⟨-, hown, halloc⟩ | ⟨hfull, -⟩⟩ :=
    alloc_cases hm.reached.wellFormed hm.owns payload
  · have hfresh : m.objects.size ∉ k.heap.pins.map (·.1) := by
      rw [hk.same.pins]
      exact hm.not_mem_pins (Nat.le_refl _)
    have hpin : pin m.objects.size k = .ok () (k.withPin m.objects.size) := by
      rw [pin_of_owns hown, addPin_of_not_mem hfresh]
      rfl
    have hreached : (k.withPin m.objects.size).Reached :=
      (hm.reached.step (.alloc _ _ (Or.inl ⟨_, halloc⟩))).step (.pin _ hpin)
    exact ⟨k, k.withPin m.objects.size, halloc, hpin, hk.stored, hm.withPin hk hrefs hown hreached⟩
  · have hroom := hm.room 0 (Nat.succ_pos _)
    rw [Exhausts, ← Nat.add_zero (Set.ncard _), hroom] at hfull
    cases hfull

/-- Where no source is registered and nothing is pinned, nothing is reachable. -/
theorem not_reachable_of_no_anchors (hroots : m.heap.roots.sources = []) (hpins : m.heap.pins = [])
    (id : ObjectId) : ¬ m.Reachable (.of held) id := by
  have hnone : ∀ i, m.Anchored (.of held) i → False := by
    rintro i (hroot | hpin)
    · rw [rootHolds_of, hroots] at hroot
      cases hroot
    · rw [hpins] at hpin
      cases hpin
  exact fun hid => hid.subset hnone fun _ h => h.elim

/-- A memory in which nothing has been made, without an object limit. -/
def new : Memory := ⟨Heap.create 0 .standard, #[], #[]⟩

theorem ready_new (count : Nat) : new.Ready (fun _ => []) count where
  reached := .create 0 .standard #[] (by simp)
  owns id hid := (not_reachable_of_no_anchors rfl rfl id hid).elim
  room _ _ := rfl

end Memory

namespace Chunk

/-- The value is what a written constant becomes. -/
def WireConstant.Stands (m : Memory) : WireConstant → Value → Prop
  | .nil, v => v = .nil
  | .string data, v => ∃ id, v = .object id ∧ m.string? id = some data
  | .int n, v => v = .int n
  | .bool b, v => v = .bool b
  | .function, v => v = .nil

/-- Whether a constant is a string. -/
def WireConstant.isString : WireConstant → Bool
  | .string _ => true
  | _ => false

/-- The places of the functions among constants, the first of which has the given index. -/
def functionsFrom : (index : Nat) → List WireConstant → List Nat
  | _, [] => []
  | index, .function :: rest => index :: functionsFrom (index + 1) rest
  | index, _ :: rest => functionsFrom (index + 1) rest

/-- Adding the constants `cs` to the chunk `c` in the memory `m` adds the values `vs`,
which gives the chunk `d` in the memory `n`. -/
structure Loads (m : Memory) (c : Chunk) (cs : List WireConstant) (vs : List Value)
    (n : Memory) (d : Chunk) : Prop where
  code : d.code = c.code
  lines : d.lines = c.lines
  constants : d.constants.toList = c.constants.toList ++ vs
  owned : d.owned = c.owned ++ vs.filterMap Value.id?
  unlinked : d.unlinked = c.unlinked ++ functionsFrom c.constants.size cs
  stands : List.Forall₂ (WireConstant.Stands n) cs vs
  /-- The objects among the values are new. -/
  fresh : vs.filterMap Value.id? = List.range' m.objects.size (cs.countP WireConstant.isString)
  kept : Memory.Extends m n
  /-- No function is made. -/
  functions : ∀ id, n.function? id = m.function? id
  chunks : n.chunks = m.chunks
  pins : n.heap.pins = m.heap.pins ++ (vs.filterMap Value.id?).map (·, 1)

variable {m n : Memory} {held : RootId → List ObjectId} {c d : Chunk}
  {cs : List WireConstant} {vs : List Value}

theorem Loads.nil (m : Memory) (c : Chunk) : Loads m c [] [] m c where
  code := rfl
  lines := rfl
  constants := (List.append_nil _).symm
  owned := (List.append_nil _).symm
  unlinked := (List.append_nil _).symm
  stands := .nil
  fresh := rfl
  kept := .refl m
  functions _ := rfl
  chunks := rfl
  pins := (List.append_nil _).symm

/-- A constant that needs no object comes before the others. -/
theorem Loads.scalar {w : WireConstant} {v : Value} (hid : v.id? = none)
    (hstands : ∀ n, WireConstant.Stands n w v) (hw : w.isString = false)
    (h : Loads m { c with
      constants := c.constants.push v
      unlinked := c.unlinked ++ functionsFrom c.constants.size [w] } cs vs n d) :
    Loads m c (w :: cs) (v :: vs) n d where
  code := h.code
  lines := h.lines
  constants := by simpa using h.constants
  owned := by simpa [hid] using h.owned
  unlinked := by
    have hrest := h.unlinked
    rw [Array.size_push, List.append_assoc] at hrest
    rw [hrest]
    cases w <;> rfl
  stands := .cons (hstands n) h.stands
  fresh := by simpa [hid, hw] using h.fresh
  kept := h.kept
  functions := h.functions
  chunks := h.chunks
  pins := by simpa [hid] using h.pins

/-- A string constant that has been stored and pinned comes before the others. -/
theorem Loads.string {data : Text} {k : Memory} (hstored : m.Stored (.string data) k)
    (h : Loads k { c with
      constants := c.constants.push (.object m.objects.size)
      owned := c.owned ++ [m.objects.size] } cs vs n d) :
    Loads m c (.string data :: cs) (.object m.objects.size :: vs) n d where
  code := h.code
  lines := h.lines
  constants := by simpa using h.constants
  owned := by simpa [Value.id?] using h.owned
  unlinked := by
    have hrest := h.unlinked
    rw [Array.size_push] at hrest
    exact hrest
  stands := by
    refine .cons ⟨m.objects.size, rfl, ?_⟩ h.stands
    rw [Memory.string?_eq_some, h.kept.payload m.objects.size (by rw [hstored.size]; omega),
      hstored.payload, if_pos rfl]
  fresh := by
    have hrest := h.fresh
    rw [hstored.size] at hrest
    simp only [List.filterMap_cons, Value.id?]
    rw [hrest, List.countP_cons_of_pos rfl, List.range'_succ]
  kept := hstored.kept.trans h.kept
  functions id := (h.functions id).trans (hstored.function?_of_string id)
  chunks := h.chunks.trans hstored.chunks
  pins := by
    rw [h.pins, hstored.pins]
    simp [Value.id?]

/-- A constant that needs no object is added without touching the memory. -/
theorem addRead_scalar {w : WireConstant} (hw : w.isString = false) (holdings : Holdings)
    (c : Chunk) (m : Memory) :
    ∃ v, v.id? = none ∧ (∀ n, WireConstant.Stands n w v) ∧
      c.addRead holdings w m = .ok { c with
        constants := c.constants.push v
        unlinked := c.unlinked ++ functionsFrom c.constants.size [w] } m := by
  cases w with
  | nil => exact ⟨.nil, rfl, fun _ => rfl, by simp [addRead, pure_apply, functionsFrom]⟩
  | int x => exact ⟨.int x, rfl, fun _ => rfl, by simp [addRead, pure_apply, functionsFrom]⟩
  | bool b => exact ⟨.bool b, rfl, fun _ => rfl, by simp [addRead, pure_apply, functionsFrom]⟩
  | function => exact ⟨.nil, rfl, fun _ => rfl, rfl⟩
  | string data => cases hw

/-- Constants are added one after another where there is room for their strings. -/
theorem addReads_ok (spare : Nat) (hm : m.Ready held (cs.countP WireConstant.isString + spare))
    (c : Chunk) :
    ∃ vs n d, c.addReads (.of held) cs m = .ok d n ∧ Loads m c cs vs n d ∧
      n.Ready held spare := by
  induction cs generalizing m c with
  | nil =>
    rw [List.countP_nil, Nat.zero_add] at hm
    exact ⟨[], m, c, rfl, .nil m c, hm⟩
  | cons w rest ih =>
    rw [addReads, bind_apply]
    by_cases hw : w.isString = true
    · cases w with
      | string data =>
        rw [List.countP_cons_of_pos hw, Nat.add_right_comm] at hm
        obtain ⟨k, l, halloc, hpin, hstored, hl⟩ := hm.store (.string data) nofun
        obtain ⟨vs, n, d, hadd, hload, hn⟩ := ih hl { c with
          constants := c.constants.push (.object m.objects.size)
          owned := c.owned ++ [m.objects.size] }
        refine ⟨_, n, d, ?_, hload.string hstored, hn⟩
        simp only [addRead, bind_apply, halloc, hpin, pure_apply]
        exact hadd
      | _ => cases hw
    · rw [List.countP_cons_of_neg hw] at hm
      obtain ⟨v, hid, hstands, hread⟩ :=
        addRead_scalar (Bool.eq_false_iff.2 hw) (.of held) c m
      rw [hread]
      obtain ⟨vs, n, d, hadd, hload, hn⟩ := ih hm { c with
        constants := c.constants.push v
        unlinked := c.unlinked ++ functionsFrom c.constants.size [w] }
      exact ⟨v :: vs, n, d, hadd, hload.scalar hid hstands (Bool.eq_false_iff.2 hw), hn⟩

/-- How many strings are read from a text, up to the first error. -/
def stringsIn (t : Text) : Nat :=
  match read t with
  | .error _ => 0
  | .ok (w, _) => w.constants.countP WireConstant.isString

/-- The chunk that loading starts with: the code and the lines as they are written. -/
def Wire.frame (w : Wire) : Chunk :=
  { code := w.code.toArray, lines := (w.lines.map Int32.toInt64).toArray }

/-- Loading what has been read adds its constants, which are released again when the
bytes are wrong behind them. -/
theorem deserialize_of_read {t : Text} {w : Wire} {e : Option WireError}
    (hread : read t = .ok (w, e)) (spare : Nat) (hm : m.Ready held (stringsIn t + spare)) :
    ∃ vs n d, Loads m w.frame w.constants vs n d ∧ n.Ready held spare ∧
      deserialize (.of held) t m = match e with
        | some e => .ok (.error e) (d.dropOwned n)
        | none => .ok (.ok d) n := by
  rw [stringsIn, hread] at hm
  obtain ⟨vs, n, d, hadd, hload, hn⟩ := addReads_ok spare hm w.frame
  refine ⟨vs, n, d, hload, hn, ?_⟩
  simp only [deserialize, hread, bind_apply]
  rw [Wire.frame] at hadd
  rw [hadd]
  cases e <;> rfl

/-- The chunk says what is written: the same code and lines, and constants that stand for
the written ones. -/
structure Spells (c : Chunk) (w : Wire) (m : Memory) : Prop where
  code : c.code.toList = w.code
  lines : c.lines.toList = w.lines.map Int32.toInt64
  constants : List.Forall₂ (WireConstant.Stands m) w.constants c.constants.toList
  unlinked : c.unlinked = functionsFrom 0 w.constants

/-- What a chunk that is loaded into the memory `m`, which becomes `n`, does to the pins,
and what its release does. -/
structure Pinning (c : Chunk) (m n : Memory) : Prop where
  strings : ∀ id, .object id ∈ c.constants → ∃ data, n.string? id = some data
  distinct : ∀ {i j : Nat} {id : ObjectId}, c.constants[i]? = some (.object id) →
    c.constants[j]? = some (.object id) → i = j
  pinned : ∀ id, n.heap.pinCount id =
    m.heap.pinCount id + if .object id ∈ c.constants then 1 else 0
  released : ∀ (k : Memory) (chunk : ChunkId) (d : Chunk), k.Reached →
    k.chunks[chunk]? = some d → d.owned = c.owned →
    (∀ id, k.heap.pinCount id = n.heap.pinCount id) →
    ∀ id, (k.release chunk).heap.pinCount id = m.heap.pinCount id
  again : ∀ (k : Memory) (chunk : ChunkId), (k.release chunk).release chunk = k.release chunk

theorem Loads.spells {w : Wire} (h : Loads m w.frame w.constants vs n d) : d.Spells w n where
  code := by rw [h.code, Wire.frame]
  lines := by rw [h.lines, Wire.frame]
  constants := by
    rw [h.constants]
    exact h.stands
  unlinked := by
    rw [h.unlinked]
    rfl

/-- A chunk loaded into an empty one owns exactly its objects, which are new. -/
theorem Loads.owned_eq {w : Wire} (h : Loads m w.frame w.constants vs n d) :
    d.owned = d.constants.toList.filterMap Value.id? ∧
      d.owned = List.range' m.objects.size (w.constants.countP WireConstant.isString) := by
  have hconstants : d.constants.toList = vs := h.constants
  have howned : d.owned = vs.filterMap Value.id? := h.owned
  rw [hconstants, howned]
  exact ⟨rfl, h.fresh⟩

theorem mem_filterMap_id? {vs : List Value} {id : ObjectId} :
    id ∈ vs.filterMap Value.id? ↔ .object id ∈ vs := by
  rw [List.mem_filterMap]
  constructor
  · rintro ⟨v, hv, hid⟩
    cases v <;> cases hid
    exact hv
  · intro hv
    exact ⟨.object id, hv, rfl⟩

theorem Loads.mem_owned {w : Wire} (h : Loads m w.frame w.constants vs n d) (id : ObjectId) :
    id ∈ d.owned ↔ .object id ∈ d.constants := by
  rw [h.owned_eq.1, mem_filterMap_id?, Array.mem_toList_iff]

theorem Loads.owned_nodup {w : Wire} (h : Loads m w.frame w.constants vs n d) :
    d.owned.Nodup := by
  rw [h.owned_eq.2]
  exact List.nodup_range'

theorem Loads.not_mem_pins {w : Wire} {count : Nat} (hm : m.Ready held count)
    (h : Loads m w.frame w.constants vs n d) {id : ObjectId} (hid : id ∈ d.owned) :
    id ∉ m.heap.pins.map (·.1) := by
  rw [h.owned_eq.2, List.mem_range'_1] at hid
  exact hm.not_mem_pins hid.1

theorem Loads.pins_eq {w : Wire} (h : Loads m w.frame w.constants vs n d) :
    n.heap.pins = m.heap.pins ++ d.owned.map (·, 1) := by
  have howned : d.owned = vs.filterMap Value.id? := h.owned
  rw [h.pins, howned]

/-- Two places that hold the same object are one where no object is listed twice. -/
theorem eq_of_nodup_ids {vs : List Value} (hvs : (vs.filterMap Value.id?).Nodup) {i j : Nat}
    {id : ObjectId} (hi : vs[i]? = some (.object id)) (hj : vs[j]? = some (.object id)) :
    i = j := by
  induction vs generalizing i j with
  | nil => cases hi
  | cons v rest ih =>
    have hrest : (rest.filterMap Value.id?).Nodup :=
      hvs.sublist ((List.sublist_cons_self v rest).filterMap _)
    have honce : ∀ k : Nat, v = .object id → rest[k]? ≠ some (Value.object id) := by
      rintro k rfl hk
      exact (List.nodup_cons.1 hvs).1 (mem_filterMap_id?.2 (List.mem_of_getElem? hk))
    cases i with
    | zero =>
      cases j with
      | zero => rfl
      | succ j => exact absurd hj (honce j (Option.some.inj hi))
    | succ i =>
      cases j with
      | zero => exact absurd hi (honce i (Option.some.inj hj))
      | succ j => rw [ih hrest hi hj]

/-! ### Releasing -/

theorem chunks_dropOwned (c : Chunk) (m : Memory) : (c.dropOwned m).chunks = m.chunks := by
  rw [dropOwned]
  generalize c.owned = owned
  induction owned generalizing m with
  | nil => rfl
  | cons id rest ih => exact ih (m.unpin id)

/-- Releasing a chunk leaves it in its place, owning nothing. -/
theorem chunk_release {k : Memory} {chunk : ChunkId} (hc : k.chunks[chunk]? = some c) :
    (k.release chunk).chunks[chunk]? = some { c with owned := [] } := by
  have hlt : chunk < k.chunks.size := (Array.getElem?_eq_some_iff.1 hc).1
  simp only [Memory.release, hc, Memory.setChunk, chunks_dropOwned]
  exact Array.getElem?_setIfInBounds_self_of_lt hlt

theorem release_of_owned_nil {k : Memory} {chunk : ChunkId} (hc : k.chunks[chunk]? = some c)
    (howned : c.owned = []) : k.release chunk = k := by
  obtain ⟨hlt, hget⟩ := Array.getElem?_eq_some_iff.1 hc
  have hsame : { c with owned := [] } = c := by rw [← howned]
  have hdrop : c.dropOwned k = k := by rw [dropOwned, howned, List.foldl_nil]
  have hchunks : k.chunks.setIfInBounds chunk c = k.chunks := by
    rw [Array.setIfInBounds, dif_pos hlt, ← hget, Array.set_getElem_self]
  simp only [Memory.release, hc, hdrop, hsame, Memory.setChunk, hchunks]

/-- Releasing a chunk once more changes nothing. -/
theorem release_again (k : Memory) (chunk : ChunkId) :
    (k.release chunk).release chunk = k.release chunk := by
  cases hc : k.chunks[chunk]? with
  | none =>
    have hsame : k.release chunk = k := by rw [Memory.release, hc]
    rw [hsame, hsame]
  | some c => exact release_of_owned_nil (chunk_release hc) rfl

/-- Releasing a chunk lowers the count of every object by how often the chunk owns it. -/
theorem pinCount_release {k : Memory} {chunk : ChunkId} (hk : k.Reached)
    (hc : k.chunks[chunk]? = some c) (id : ObjectId) :
    (k.release chunk).heap.pinCount id = k.heap.pinCount id - c.owned.count id := by
  have hheap : (k.release chunk).heap = (c.dropOwned k).heap := by rw [Memory.release, hc]; rfl
  rw [hheap, dropOwned, Memory.pinCount_unpinAll hk.pins_nodup]

theorem Loads.pinCount {w : Wire} {count : Nat} (hm : m.Ready held count)
    (h : Loads m w.frame w.constants vs n d) (id : ObjectId) :
    n.heap.pinCount id = m.heap.pinCount id + if id ∈ d.owned then 1 else 0 := by
  rw [Heap.pinCount, h.pins_eq, Memory.lookup_append_pins _ _ fun i hi => h.not_mem_pins hm hi]
  rfl

theorem Spells.rel {w : Wire} (h : d.Spells w n) (i : Nat) :
    Option.Rel (WireConstant.Stands n) w.constants[i]? d.constants[i]? := by
  rw [← Array.getElem?_toList]
  exact forall₂_iff_getElem?.1 h.constants i

/-- An object among the constants is a string. -/
theorem Spells.string {w : Wire} (h : d.Spells w n) {id : ObjectId}
    (hid : .object id ∈ d.constants) : ∃ data, n.string? id = some data := by
  obtain ⟨i, hi⟩ := Array.mem_iff_getElem?.1 hid
  have hrel := h.rel i
  rw [hi] at hrel
  cases hw : w.constants[i]? with
  | none =>
    rw [hw] at hrel
    cases hrel
  | some k =>
    rw [hw] at hrel
    cases hrel with
    | some hstands =>
      cases k with
      | string data =>
        obtain ⟨_, heq, hdata⟩ := hstands
        cases heq
        exact ⟨data, hdata⟩
      | _ => cases hstands

theorem Loads.pinning {w : Wire} {count : Nat} (hm : m.Ready held count)
    (h : Loads m w.frame w.constants vs n d) : d.Pinning m n where
  strings _ hid := h.spells.string hid
  distinct := by
    intro i j id hi hj
    rw [← Array.getElem?_toList] at hi hj
    exact eq_of_nodup_ids (h.owned_eq.1 ▸ h.owned_nodup) hi hj
  pinned id := by
    rw [h.pinCount hm]
    simp only [h.mem_owned]
  released k chunk e hk he howned hsame id := by
    rw [pinCount_release hk he, hsame, h.pinCount hm, howned, h.owned_nodup.count,
      Nat.add_sub_cancel]
  again := release_again

/-- A loading that fails leaves the pins as they were. -/
theorem Loads.pins_dropOwned {w : Wire} {count : Nat} (hm : m.Ready held count)
    (h : Loads m w.frame w.constants vs n d) : (d.dropOwned n).heap.pins = m.heap.pins :=
  Memory.pins_unpinAll (fun _ hid => h.not_mem_pins hm hid) h.pins_eq

theorem reached_dropOwned (hn : n.Reached) (c : Chunk) : (c.dropOwned n).Reached := by
  rw [dropOwned]
  generalize c.owned = owned
  induction owned generalizing n with
  | nil => exact hn
  | cons id rest ih => exact ih (hn.step (.unpin id))

/-- A written chunk is loaded. -/
theorem deserialize_of_written {t : Text} {w : Wire} (hw : Wire.Written w t)
    (hm : m.Ready held (stringsIn t)) :
    ∃ vs n d, Loads m w.frame w.constants vs n d ∧ n.Reached ∧
      deserialize (.of held) t m = .ok (.ok d) n := by
  obtain ⟨vs, n, d, hload, hn, hrun⟩ := deserialize_of_read (read_eq_none.2 hw) 0 hm
  exact ⟨vs, n, d, hload, hn.reached, hrun⟩

/-- A text that is no written chunk is refused with the pins as they were. -/
theorem deserialize_of_error {t : Text} {e : WireError} (he : Wire.decode t = .error e)
    (hm : m.Ready held (stringsIn t)) :
    ∃ n, deserialize (.of held) t m = .ok (.error e) n ∧ n.Reached ∧
      n.heap.pins = m.heap.pins := by
  rw [Wire.decode] at he
  split at he
  · next hread =>
    cases he
    exact ⟨m, by rw [deserialize, hread]; rfl, hm.reached, rfl⟩
  · next hread =>
    cases he
    obtain ⟨vs, n, d, hload, hn, hrun⟩ := deserialize_of_read hread 0 hm
    exact ⟨d.dropOwned n, hrun, reached_dropOwned hn.reached d, hload.pins_dropOwned hm⟩
  · cases he

/-- A chunk that has been loaded was written. -/
theorem loads_of_deserialize {t : Text} (hm : m.Ready held (stringsIn t))
    (hrun : deserialize (.of held) t m = .ok (.ok c) n) :
    ∃ w vs, Wire.Written w t ∧ Loads m w.frame w.constants vs n c := by
  cases hdecode : Wire.decode t with
  | error e =>
    obtain ⟨k, hfail, -, -⟩ := deserialize_of_error hdecode hm
    rw [hfail] at hrun
    cases hrun
  | ok w =>
    have hw := Wire.decode_eq_ok.1 hdecode
    obtain ⟨vs, k, d, hload, -, hdone⟩ := deserialize_of_written hw hm
    rw [hdone] at hrun
    cases hrun
    exact ⟨w, vs, hw, hload⟩

/-- Loading fails as decoding does, leaving no pin behind, and else gives the written chunk. -/
theorem deserialize_of_decode (t : Text) (hm : m.Ready held (stringsIn t)) :
    ∃ r n, deserialize (.of held) t m = .ok r n ∧ n.Reached ∧
      (∀ e, Wire.decode t = .error e → r = .error e ∧ n.heap.pins = m.heap.pins) ∧
      ∀ w, Wire.decode t = .ok w → ∃ c, r = .ok c ∧ c.Pinning m n ∧ c.Spells w n := by
  cases hdecode : Wire.decode t with
  | error e =>
    obtain ⟨n, hrun, hn, hpins⟩ := deserialize_of_error hdecode hm
    refine ⟨.error e, n, hrun, hn, ?_, ?_⟩
    · intro e' he'
      cases he'
      exact ⟨rfl, hpins⟩
    · intro w hw
      cases hw
  | ok w =>
    obtain ⟨vs, n, d, hload, hn, hrun⟩ := deserialize_of_written (Wire.decode_eq_ok.1 hdecode) hm
    refine ⟨.ok d, n, hrun, hn, ?_, ?_⟩
    · intro e he
      cases he
    · intro v hv
      cases hv
      exact ⟨d, rfl, hload.pinning hm, hload.spells⟩

/-- Loading accepts exactly the written chunks and keeps its pins in balance: a text that
breaks off or has another magic is refused as such, a refusal leaves no pin, and an
accepted chunk holds one pin on each of its strings until it is released. -/
theorem deserialize_exact {m : Memory} {held : RootId → List ObjectId} (t : Text)
    (hm : m.Ready held (stringsIn t)) :
    ∃ r n, deserialize (.of held) t m = .ok r n ∧ n.Reached ∧
      ((∃ c, r = .ok c) ↔ ∃ w, Wire.Written w t) ∧
      (∀ w whole, Wire.Written w whole → t <+: whole → t ≠ whole →
        ∃ e, r = .error e ∧ e.isTruncation = true) ∧
      (headerSize ≤ t.length → t.take 4 ≠ magic → r = .error (.badMagic (t.take 4))) ∧
      (∀ e, r = .error e → ∀ id, n.heap.pinCount id = m.heap.pinCount id) ∧
      (∀ c, r = .ok c → c.Pinning m n ∧ ∃ w, Wire.Written w t ∧ c.Spells w n) := by
  obtain ⟨r, n, hrun, hn, hrefused, haccepted⟩ := deserialize_of_decode t hm
  have hok : ∀ c, r = .ok c → ∃ w, Wire.Written w t ∧ c.Pinning m n ∧ c.Spells w n := by
    rintro c rfl
    cases hdecode : Wire.decode t with
    | error e => cases (hrefused e hdecode).1
    | ok w =>
      obtain ⟨d, hd, hpinning, hspells⟩ := haccepted w hdecode
      cases hd
      exact ⟨w, Wire.decode_eq_ok.1 hdecode, hpinning, hspells⟩
  refine ⟨r, n, hrun, hn, ?_, ?_, ?_, ?_, ?_⟩
  · constructor
    · rintro ⟨c, hc⟩
      obtain ⟨w, hw, -, -⟩ := hok c hc
      exact ⟨w, hw⟩
    · rintro ⟨w, hw⟩
      obtain ⟨c, hc, -, -⟩ := haccepted w (Wire.decode_eq_ok.2 hw)
      exact ⟨c, hc⟩
  · intro w whole hwhole hcut hne
    obtain ⟨e, he, hkind⟩ := hwhole.cut hcut hne
    exact ⟨e, (hrefused e he).1, hkind⟩
  · intro hlen hmagic
    exact (hrefused _ (Wire.decode_badMagic hlen hmagic)).1
  · rintro e rfl id
    cases hdecode : Wire.decode t with
    | error e' => rw [Heap.pinCount, (hrefused e' hdecode).2, Heap.pinCount]
    | ok w =>
      obtain ⟨c, hc, -, -⟩ := haccepted w hdecode
      cases hc
  · intro c hc
    obtain ⟨w, hw, hpinning, hspells⟩ := hok c hc
    exact ⟨hpinning, w, hw, hspells⟩

/-- A written chunk with one line, a string constant and a function constant. -/
def loadSample : Text :=
  [0x43, 0x48, 0x4E, 0x4B, 1, 0, 0, 0, 2, 0, 0, 0, 1, 0, 0, 0, 0x00, 7, 0, 0, 0,
    1, 2, 0, 0, 0, 0x68, 0x69, 4]

/-- The sample is loaded into a new memory and holds a pin on its string. -/
theorem deserialize_exact_loadSample :
    Memory.new.Ready (fun _ => []) (stringsIn loadSample) ∧
      ∃ c n, deserialize (.of fun _ => []) loadSample Memory.new = .ok (.ok c) n ∧
        c.Pinning Memory.new n := by
  have hready := Memory.ready_new (stringsIn loadSample)
  have hwritten : Wire.Written ⟨[0x00], [7], [.string [0x68, 0x69], .function]⟩ loadSample :=
    Wire.decode_eq_ok.1 rfl
  obtain ⟨r, n, hrun, -, haccept, -, -, -, hpinning⟩ := deserialize_exact loadSample hready
  obtain ⟨c, rfl⟩ := haccept.2 ⟨_, hwritten⟩
  exact ⟨hready, c, n, hrun, (hpinning c rfl).1⟩

end Chunk

end StackVm
