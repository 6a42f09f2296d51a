/-
Making the functions of an image.  Each becomes a new chunk with new strings and a new
function that refers to it, and keeps these pinned; giving the pins back lowers the counts
by what was kept and leaves the rest of the memory alone.
-/
import StackVm.Image.Load
import StackVm.Proofs.Loading

namespace StackVm

namespace Memory

variable {m n : Memory} {held : RootId → List ObjectId} {count : Nat} {id : ObjectId} {c : Chunk}

/-- The code of every function exists. -/
def Housed (m : Memory) : Prop :=
  ∀ id f chunk, m.function? id = some f → f.chunk = some chunk → chunk < m.chunks.size

theorem housed_new : new.Housed := by
  intro id f chunk hf
  simp [function?, new] at hf

/-- Objects that were there refer to what they referred to. -/
theorem Extends.references (h : Extends m n) (hm : m.Housed) (hid : id < m.objects.size) :
    n.references id = m.references id := by
  rw [references_eq, references_eq, h.payload id hid]
  cases hp : m.payload? id with
  | none => rfl
  | some p =>
    cases p with
    | function f =>
      simp only [Option.map_some, Option.getD_some, Payload.references]
      cases hchunk : f.chunk with
      | none => rfl
      | some chunk =>
        have hlt := hm id f chunk (function?_eq_some.2 hp) hchunk
        rw [Option.bind_some, Option.bind_some, h.chunk chunk hlt]
    | _ => rfl

/-- The heap and the objects are part of a run, whatever the chunks become. -/
theorem Reached.with_chunks (hm : m.Reached) (hheap : n.heap = m.heap)
    (hobjects : n.objects = m.objects) : n.Reached :=
  hm.step (.edit hheap fun _ _ _ => by rw [placement?, placement?, hobjects])

/-- Pins and chunks may change as long as nothing new is reached. -/
theorem Ready.of_anchors (hm : m.Ready held count) (hn : n.Reached)
    (hobjects : n.objects = m.objects) {pins : List (ObjectId × Nat)}
    (hheap : n.heap = { m.heap with pins })
    (hpins : ∀ id ∈ pins.map (·.1), m.Reachable (.of held) id)
    (hrefs : ∀ id, m.Reachable (.of held) id → ∀ other ∈ n.references id,
      m.Reachable (.of held) other) : n.Ready held count := by
  have hsub : ∀ id, n.Reachable (.of held) id → m.Reachable (.of held) id := by
    intro id hid
    refine hid.subset (fun i hi => ?_) hrefs
    rcases hi with hroot | hpin
    · refine .start (Or.inl ?_)
      rw [rootHolds_of, hheap] at hroot
      rwa [rootHolds_of]
    · rw [hheap] at hpin
      exact hpins i hpin
  refine ⟨hn, fun id hid => ?_, fun more hmore => ?_⟩
  · obtain ⟨p, hp⟩ := hm.owns id (hsub id hid)
    refine ⟨p, ?_, ?_, hp.unswept⟩
    · rw [placement?, hobjects]
      exact hp.found
    · rw [hheap]
      exact hp.heap
  · have hfinite : {id | m.Reachable (.of held) id}.Finite := m.finite_owns.subset hm.owns
    have hle : {id | n.Reachable (.of held) id}.ncard ≤ {id | m.Reachable (.of held) id}.ncard :=
      Set.ncard_le_ncard hsub hfinite
    have hroom := hm.room more hmore
    rw [hheap, Bool.eq_false_iff]
    intro hfull
    rw [isFull_mono hfull (Nat.add_le_add_right hle more)] at hroom
    cases hroom

theorem extends_addChunk (m : Memory) (c : Chunk) : Extends m (m.addChunk c).1 where
  id := rfl
  config := rfl
  roots := rfl
  objects := Nat.le_refl _
  payload _ _ := rfl
  chunks := by simp [Memory.addChunk]
  chunk i hi := by
    simp only [Memory.addChunk]
    rw [Array.getElem?_push, if_neg (Nat.ne_of_lt hi)]

/-- A new chunk that nothing refers to makes no difference. -/
theorem Ready.addChunk (hm : m.Ready held count) (hcode : m.Housed) (c : Chunk) :
    (m.addChunk c).1.Ready held count := by
  have hpins : ∀ id ∈ m.heap.pins.map (·.1), m.Reachable (.of held) id :=
    fun id hid => .start (Or.inr hid)
  refine hm.of_anchors (hm.reached.with_chunks rfl rfl) rfl rfl hpins
    fun id hid other hother => hid.reference ?_
  rwa [(extends_addChunk m c).references hcode (hm.owns id hid).lt_size] at hother

theorem Housed.addChunk (hm : m.Housed) (c : Chunk) : (m.addChunk c).1.Housed :=
  fun id f chunk hf hchunk =>
    Nat.lt_of_lt_of_le (hm id f chunk hf hchunk) (extends_addChunk m c).chunks

theorem Stored.function?_of_function {f : Function} (h : Stored m (.function f) n)
    (id : ObjectId) :
    n.function? id = if id = m.objects.size then some f else m.function? id := by
  rw [function?_eq, function?_eq, h.payload]
  by_cases hid : id = m.objects.size
  · rw [if_pos hid, if_pos hid]
  · rw [if_neg hid, if_neg hid]

theorem Stored.housed {f : Function} (h : Stored m (.function f) n) (hm : m.Housed)
    (hf : ∀ chunk, f.chunk = some chunk → chunk < m.chunks.size) : n.Housed := by
  intro id g chunk hg hchunk
  rw [h.function?_of_function] at hg
  rw [h.chunks]
  split at hg
  · cases hg
    exact hf chunk hchunk
  · exact hm id g chunk hg hchunk

end Memory

theorem Chunk.WireConstant.Stands.kept {m n : Memory} {w : Chunk.WireConstant} {v : Value}
    (h : w.Stands m v) (hkept : Memory.Extends m n) : w.Stands n v := by
  cases w with
  | string data =>
    obtain ⟨id, rfl, hdata⟩ := h
    exact ⟨id, rfl, hkept.string?_kept hdata⟩
  | _ => exact h

theorem Chunk.Loads.housed {m n : Memory} {held : Chunk} {cs : List Chunk.WireConstant}
    {vs : List Value} {c : Chunk} (h : Chunk.Loads m held cs vs n c) (hm : m.Housed) :
    n.Housed := by
  intro id g chunk hg hchunk
  rw [h.functions] at hg
  rw [h.chunks]
  exact hm id g chunk hg hchunk

theorem Chunk.Spells.kept {m n : Memory} {c : Chunk} {w : Chunk.Wire} (h : c.Spells w m)
    (hkept : Memory.Extends m n) : c.Spells w n :=
  ⟨h.code, h.lines, h.constants.imp fun _ _ hstands => hstands.kept hkept, h.unlinked⟩

namespace Image

open Memory

variable {m n k : Memory} {held : RootId → List ObjectId} {count spare index : Nat}
  {f : FunctionImage} {l : Loaded} {fs gs : List FunctionImage} {ls ks : List Loaded}

/-! ### Giving pins back -/

/-- The objects that a function keeps pinned while others are made. -/
def keeps (m : Memory) (l : Loaded) : List ObjectId :=
  (m.chunks[l.chunk]?.getD {}).owned ++ [l.function]

theorem count_keeps (m : Memory) (l : Loaded) (id : ObjectId) :
    (keeps m l).count id =
      (m.chunks[l.chunk]?.getD {}).owned.count id + if id = l.function then 1 else 0 := by
  rw [keeps, List.count_append]
  by_cases hid : id = l.function
  · simp [hid]
  · simp [hid, Ne.symm hid]

/-- What becomes of the memory when a function gives its pins back. -/
def undo (l : Loaded) (m : Memory) : Memory := (m.release l.chunk).unpin l.function

theorem chunk_undo (m : Memory) (l : Loaded) (i : ChunkId) :
    (undo l m).chunks[i]? =
      if i = l.chunk then m.chunks[i]?.map fun c => { c with owned := [] } else m.chunks[i]? := by
  have hrelease : (undo l m).chunks = (m.release l.chunk).chunks := rfl
  rw [hrelease]
  by_cases hi : i = l.chunk
  · subst hi
    rw [if_pos rfl]
    cases hc : m.chunks[l.chunk]? with
    | none => rw [Memory.release, hc, hc]; rfl
    | some c => rw [Chunk.chunk_release hc]; rfl
  · rw [if_neg hi, Memory.release]
    split
    · rfl
    · rw [setChunk_of_ne (Ne.symm hi), Chunk.chunks_dropOwned]

theorem size_undo (l : Loaded) (m : Memory) : (undo l m).chunks.size = m.chunks.size := by
  have hrelease : (undo l m).chunks = (m.release l.chunk).chunks := rfl
  rw [hrelease, Memory.release]
  split
  · rfl
  · rw [Memory.setChunk, Array.size_setIfInBounds, Chunk.chunks_dropOwned]

theorem dropOwned_eq (c : Chunk) (m : Memory) :
    ∃ pins, c.dropOwned m = { m with heap := { m.heap with pins } } := by
  rw [Chunk.dropOwned]
  generalize c.owned = owned
  induction owned generalizing m with
  | nil => exact ⟨m.heap.pins, rfl⟩
  | cons id rest ih =>
    obtain ⟨pins, hpins⟩ := ih (m.unpin id)
    exact ⟨pins, hpins⟩

theorem heap_undo (l : Loaded) (m : Memory) :
    (undo l m).objects = m.objects ∧ ∃ pins, (undo l m).heap = { m.heap with pins } := by
  rw [undo, Memory.release]
  split
  · exact ⟨rfl, _, rfl⟩
  · next c _ =>
    obtain ⟨pins, hpins⟩ := dropOwned_eq c m
    rw [hpins]
    exact ⟨rfl, _, rfl⟩

theorem reached_release (hm : m.Reached) (chunk : ChunkId) : (m.release chunk).Reached := by
  rw [Memory.release]
  split
  · exact hm
  · exact (Chunk.reached_dropOwned hm _).with_chunks rfl rfl

theorem reached_undo (hm : m.Reached) (l : Loaded) : (undo l m).Reached :=
  (reached_release hm l.chunk).step (.unpin l.function)

theorem pinCount_undo (hm : m.Reached) (l : Loaded) (id : ObjectId) :
    (undo l m).heap.pinCount id = m.heap.pinCount id - (keeps m l).count id := by
  rw [undo, pinCount_unpin (reached_release hm l.chunk).pins_nodup, count_keeps]
  have hrelease : (m.release l.chunk).heap.pinCount id =
      m.heap.pinCount id - (m.chunks[l.chunk]?.getD {}).owned.count id := by
    cases hc : m.chunks[l.chunk]? with
    | none =>
      rw [Memory.release, hc]
      rfl
    | some c => exact Chunk.pinCount_release hm hc id
  rw [hrelease, Nat.sub_sub]

theorem keeps_undo {other : Loaded} (hne : other.chunk ≠ l.chunk) (m : Memory) :
    keeps (undo l m) other = keeps m other := by
  rw [keeps, chunk_undo, if_neg hne, keeps]

theorem references_undo (l : Loaded) (m : Memory) (id : ObjectId) :
    (undo l m).references id = m.references id := by
  have hchunks : ∀ i : Nat, ((undo l m).chunks[i]?).map Chunk.constants =
      m.chunks[i]?.map Chunk.constants := by
    intro i
    rw [chunk_undo]
    split
    · rw [Option.map_map]
      rfl
    · rfl
  rw [references_eq, references_eq, payload?, (heap_undo l m).1, ← payload?]
  cases m.payload? id with
  | none => rfl
  | some p =>
    cases p with
    | function f =>
      simp only [Option.map_some, Option.getD_some, Payload.references]
      cases hchunk : f.chunk with
      | none => rfl
      | some chunk =>
        have hconstants := hchunks chunk
        simp only [Option.bind_some]
        cases hc : (undo l m).chunks[chunk]? <;> cases hd : m.chunks[chunk]? <;>
          simp_all
    | _ => rfl

/-- Giving pins back keeps the memory ready. -/
theorem ready_undo (hm : m.Ready held count) (l : Loaded) : (undo l m).Ready held count := by
  obtain ⟨hobjects, pins, hheap⟩ := heap_undo l m
  have hreached := reached_undo hm.reached l
  refine hm.of_anchors hreached hobjects hheap (fun id hid => ?_) fun id hid other hother => ?_
  · have hpos : 0 < (undo l m).heap.pinCount id :=
      (hreached.mem_keys_iff id).1 (by rwa [hheap])
    rw [pinCount_undo hm.reached] at hpos
    exact .start (Or.inr ((hm.reached.mem_keys_iff id).2 (by omega)))
  · rw [references_undo] at hother
    exact hid.reference hother

theorem extends_undo (h : Extends m n) (hfresh : m.chunks.size ≤ l.chunk) :
    Extends m (undo l n) := by
  obtain ⟨hobjects, pins, hheap⟩ := heap_undo l n
  have hsame : ∀ i < m.chunks.size, (undo l n).chunks[i]? = m.chunks[i]? := by
    intro i hi
    rw [chunk_undo, if_neg (Nat.ne_of_lt (Nat.lt_of_lt_of_le hi hfresh)), h.chunk i hi]
  refine ⟨?_, ?_, ?_, ?_, fun id hid => ?_, ?_, hsame⟩
  · rw [hheap]
    exact h.id
  · rw [hheap]
    exact h.config
  · rw [hheap]
    exact h.roots
  · rw [hobjects]
    exact h.objects
  · rw [payload?, hobjects]
    exact h.payload id hid
  · rw [size_undo]
    exact h.chunks

/-! ### Making functions -/

/-- The function is made: its chunk says what is written. -/
structure Prepared (n : Memory) (f : FunctionImage) (l : Loaded) : Prop where
  function : n.function? l.function =
    some { name := f.name, arity := f.arity, chunk := some l.chunk }
  chunk : ∃ w c, Chunk.Wire.Written w f.bytes ∧ n.chunks[l.chunk]? = some c ∧ c.Spells w n

theorem Prepared.kept (h : Prepared m f l) (hkept : Extends m n) : Prepared n f l where
  function := hkept.function?_kept h.function
  chunk := by
    obtain ⟨w, c, hw, hc, hspells⟩ := h.chunk
    have hlt := (Array.getElem?_eq_some_iff.1 hc).1
    exact ⟨w, c, hw, (hkept.chunk _ hlt).trans hc, hspells.kept hkept⟩

theorem Prepared.lt_chunks (h : Prepared m f l) : l.chunk < m.chunks.size := by
  obtain ⟨w, c, -, hc, -⟩ := h.chunk
  exact (Array.getElem?_eq_some_iff.1 hc).1

/-- Functions have been made in the memory `m`, which has become `n`: they are new and all
different, and they keep their pins. -/
structure Made (m : Memory) (fs : List FunctionImage) (ls : List Loaded) (n : Memory) : Prop where
  kept : Extends m n
  prepared : List.Forall₂ (Prepared n) fs ls
  fresh : ∀ l ∈ ls, m.chunks.size ≤ l.chunk ∧ m.objects.size ≤ l.function
  chunks : (ls.map (·.chunk)).Nodup
  functions : (ls.map (·.function)).Nodup
  pins : ∀ id, n.heap.pinCount id = m.heap.pinCount id + (ls.flatMap (keeps n)).count id

theorem Made.nil (m : Memory) : Made m [] [] m where
  kept := .refl m
  prepared := .nil
  fresh := nofun
  chunks := .nil
  functions := .nil
  pins _ := rfl

theorem Made.lt_sizes (h : Made m fs ls n) (hl : l ∈ ls) :
    l.chunk < n.chunks.size ∧ l.function < n.objects.size := by
  obtain ⟨f, -, hprepared⟩ := exists_mem_left h.prepared hl
  exact ⟨hprepared.lt_chunks, lt_size_of_function? hprepared.function⟩

theorem keeps_kept (h : Extends m n) (hl : l.chunk < m.chunks.size) : keeps n l = keeps m l := by
  rw [keeps, keeps, h.chunk _ hl]

/-- More functions are made after the ones that have been made. -/
theorem Made.append (h : Made m fs ls k) (h' : Made k gs ks n) :
    Made m (fs ++ gs) (ls ++ ks) n where
  kept := h.kept.trans h'.kept
  prepared := List.rel_append (h.prepared.imp fun _ _ hp => hp.kept h'.kept) h'.prepared
  fresh l hl := by
    rcases List.mem_append.1 hl with hl | hl
    · exact h.fresh l hl
    · obtain ⟨hchunk, hfunction⟩ := h'.fresh l hl
      exact ⟨h.kept.chunks.trans hchunk, h.kept.objects.trans hfunction⟩
  chunks := by
    rw [List.map_append, List.nodup_append]
    refine ⟨h.chunks, h'.chunks, fun i hi j hj => ?_⟩
    obtain ⟨l, hl, rfl⟩ := List.mem_map.1 hi
    obtain ⟨l', hl', rfl⟩ := List.mem_map.1 hj
    exact Nat.ne_of_lt (Nat.lt_of_lt_of_le (h.lt_sizes hl).1 (h'.fresh l' hl').1)
  functions := by
    rw [List.map_append, List.nodup_append]
    refine ⟨h.functions, h'.functions, fun i hi j hj => ?_⟩
    obtain ⟨l, hl, rfl⟩ := List.mem_map.1 hi
    obtain ⟨l', hl', rfl⟩ := List.mem_map.1 hj
    exact Nat.ne_of_lt (Nat.lt_of_lt_of_le (h.lt_sizes hl).2 (h'.fresh l' hl').2)
  pins id := by
    have hsame : ls.flatMap (keeps n) = ls.flatMap (keeps k) :=
      List.flatMap_congr fun l hl => keeps_kept h'.kept (h.lt_sizes hl).1
    rw [h'.pins, h.pins, List.flatMap_append, List.count_append, hsame, Nat.add_assoc]

/-- A chunk that is loaded refers to strings that are pinned. -/
theorem mem_pins_of_loads {w : Chunk.Wire} {vs : List Value} {c : Chunk}
    (h : Chunk.Loads m w.frame w.constants vs n c) {id : ObjectId}
    (hid : id ∈ referents c.constants.toList) : id ∈ n.heap.pins.map (·.1) := by
  have howned : id ∈ c.owned :=
    (h.mem_owned id).2 (Array.mem_toList_iff.1 (Chunk.mem_filterMap_id?.1 hid))
  rw [h.pins_eq, List.map_append]
  exact List.mem_append_right _ (List.mem_map.2 ⟨(id, 1), List.mem_map_of_mem howned, rfl⟩)

/-- A function refers to nothing but what its loaded chunk keeps pinned. -/
theorem reachable_of_loads {w : Chunk.Wire} {vs : List Value} {c : Chunk}
    (hload : Chunk.Loads m w.frame w.constants vs k c) {g : Function}
    (hg : g.chunk = some k.chunks.size) (other : ObjectId)
    (hother : other ∈ Payload.references (k.addChunk c).1.chunks (.function g)) :
    (k.addChunk c).1.Reachable (.of held) other := by
  have hadded : (k.addChunk c).1.chunks[k.chunks.size]? = some c := Array.getElem?_push_size
  simp only [Payload.references, hg, Option.bind_some, hadded] at hother
  exact .start (Or.inr (mem_pins_of_loads hload hother))

/-- A chunk that is loaded and a function that is stored for it are one function made. -/
theorem made_of_loads {w : Chunk.Wire} {vs : List Value} {c : Chunk}
    (hw : Chunk.Wire.Written w f.bytes) (hm : m.Ready held count) (hcode : m.Housed)
    (hload : Chunk.Loads m w.frame w.constants vs k c) (hk : k.Ready held spare)
    (hstored : Stored (k.addChunk c).1
      (.function { name := f.name, arity := f.arity, chunk := some k.chunks.size }) n) :
    Made m [f] [⟨k.objects.size, k.chunks.size⟩] n ∧ n.Housed := by
  have hcode' := hload.housed hcode
  have hadded : (k.addChunk c).1.chunks[k.chunks.size]? = some c := Array.getElem?_push_size
  have hchunks : n.chunks = (k.addChunk c).1.chunks := hstored.chunks
  have hkept : Extends k n := (extends_addChunk k c).trans hstored.kept
  constructor
  · refine ⟨hload.kept.trans hkept, .cons ⟨?_, w, c, hw, ?_, hload.spells.kept hkept⟩ .nil, ?_,
      List.nodup_singleton _, List.nodup_singleton _, fun id => ?_⟩
    · exact (hstored.function?_of_function _).trans (if_pos rfl)
    · rw [hchunks, hadded]
    · rw [List.forall_mem_singleton]
      exact ⟨hload.kept.chunks, hload.kept.objects⟩
    · have hfunction : n.heap.pinCount id =
          k.heap.pinCount id + if id = k.objects.size then 1 else 0 :=
        hstored.pinCount ((hk.addChunk hcode' c).not_mem_pins (Nat.le_refl _)) id
      rw [hfunction, hload.pinCount hm, List.flatMap_singleton, count_keeps, hchunks, hadded,
        Option.getD_some, hload.owned_nodup.count, Nat.add_assoc]
  · refine hstored.housed (hcode'.addChunk c) fun chunk hchunk => ?_
    cases hchunk
    exact (Array.getElem?_eq_some_iff.1 hadded).1

/-- A function is made where its chunk is a written one and there is room. -/
theorem loadFunction_made {w : Chunk.Wire} (hw : Chunk.Wire.Written w f.bytes)
    (hm : m.Ready held (Chunk.stringsIn f.bytes + (spare + 1))) (hcode : m.Housed)
    (index : Nat) :
    ∃ l n, loadFunction (.of held) index f m = .ok (.ok l) n ∧ Made m [f] [l] n ∧
      n.Ready held spare ∧ n.Housed := by
  obtain ⟨vs, k, c, hload, hk, hrun⟩ :=
    Chunk.deserialize_of_read (Chunk.read_eq_none.2 hw) (spare + 1) hm
  obtain ⟨o, n, halloc, hpin, hstored, hn⟩ := (hk.addChunk (hload.housed hcode) c).store
    (.function { name := f.name, arity := f.arity, chunk := some k.chunks.size })
    (reachable_of_loads hload rfl)
  obtain ⟨hmade, hcode'⟩ := made_of_loads hw hm hcode hload hk hstored
  refine ⟨_, n, ?_, hmade, hn, hcode'⟩
  have hid : (k.addChunk c).2 = k.chunks.size := rfl
  simp only [loadFunction, bind_apply, hrun, modifyGet_apply, hid, halloc, hpin]
  rfl

/-- The strings of a chunk that is refused are released. -/
theorem ready_dropOwned {w : Chunk.Wire} {vs : List Value} {c : Chunk} {count : Nat}
    (hm : m.Ready held count) (h : Chunk.Loads m w.frame w.constants vs n c)
    (hn : n.Ready held spare) :
    Extends m (c.dropOwned n) ∧ (c.dropOwned n).Ready held spare ∧
      (c.dropOwned n).heap.pins = m.heap.pins := by
  have hpins := h.pins_dropOwned hm
  have hreached := Chunk.reached_dropOwned hn.reached c
  obtain ⟨pins, heq⟩ := dropOwned_eq c n
  rw [heq] at hpins hreached ⊢
  have hbefore : ∀ id ∈ pins.map (·.1), n.Reachable (.of held) id := by
    intro id hid
    refine .start (Or.inr ?_)
    rw [h.pins, List.map_append, ← show pins = m.heap.pins from hpins]
    exact List.mem_append_left _ hid
  refine ⟨⟨h.kept.id, h.kept.config, h.kept.roots, h.kept.objects, h.kept.payload, h.kept.chunks,
    h.kept.chunk⟩, ?_, hpins⟩
  exact hn.of_anchors hreached rfl rfl hbefore fun id hid other hother => hid.reference hother

/-- A chunk that is not a written one is refused, which leaves the pins as they were. -/
theorem loadFunction_failed (hnot : ¬ ∃ w, Chunk.Wire.Written w f.bytes)
    (hm : m.Ready held (Chunk.stringsIn f.bytes + spare)) (index : Nat) :
    ∃ e n, loadFunction (.of held) index f m = .ok (.error e) n ∧ Extends m n ∧
      n.Ready held spare ∧ ∀ id, n.heap.pinCount id = m.heap.pinCount id := by
  cases hread : Chunk.read f.bytes with
  | error e =>
    refine ⟨.badChunk index f.name e, m, ?_, .refl m, hm.mono (Nat.le_add_left ..), fun _ => rfl⟩
    simp only [loadFunction, bind_apply, Chunk.deserialize, hread, pure_apply]
  | ok r =>
    obtain ⟨w, e⟩ := r
    cases e with
    | none => exact absurd ⟨w, Chunk.read_eq_none.1 hread⟩ hnot
    | some e =>
      obtain ⟨vs, k, c, hload, hk, hrun⟩ := Chunk.deserialize_of_read hread spare hm
      obtain ⟨hkept, hready, hpins⟩ := ready_dropOwned hm hload hk
      refine ⟨.badChunk index f.name e, c.dropOwned k, ?_, hkept, hready, fun id => ?_⟩
      · simp only [loadFunction, bind_apply, hrun, pure_apply]
      · rw [Heap.pinCount, hpins, Heap.pinCount]

end Image

end StackVm
