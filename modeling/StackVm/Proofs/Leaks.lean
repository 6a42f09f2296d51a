/-
Loadings that find the heap exhausted.  The pins of the functions that had been made come off
again, but the strings of the chunk that was being read stay pinned, as nobody knows that chunk;
so what the next collection keeps too much is exactly these strings.
-/
import StackVm.Proofs.Accounts
import StackVm.Proofs.ImageLoading

namespace StackVm

namespace Memory

variable {m n k : Memory} {held : RootId → List ObjectId} {payload : Payload} {count : Nat}
  {id : ObjectId}

/-! ### What is reached -/

/-- How many objects are reached. -/
noncomputable def reachCount (m : Memory) (held : RootId → List ObjectId) : Nat :=
  {id | m.Reachable (.of held) id}.ncard

/-- Where no pins are added, the same is reached. -/
theorem reachable_iff_of_pins_eq (hm : m.Ready held count) (hcode : m.Housed)
    (hkept : Extends m n) (hn : n.Reached) (hpins : n.heap.pins = m.heap.pins) (id : ObjectId) :
    n.Reachable (.of held) id ↔ m.Reachable (.of held) id := by
  have hcounts : ∀ id, n.heap.pinCount id = m.heap.pinCount id + 0 := by
    intro id
    rw [Heap.pinCount, hpins, Heap.pinCount, Nat.add_zero]
  rw [Image.reachable_iff_of_pins hm hcode hkept hn hcounts, or_iff_left]
  exact fun hid => hid.subset (fun _ h => Nat.lt_irrefl 0 h) fun _ h => h.elim

theorem reachCount_of_pins_eq (hm : m.Ready held count) (hcode : m.Housed) (hkept : Extends m n)
    (hn : n.Reached) (hpins : n.heap.pins = m.heap.pins) :
    n.reachCount held = m.reachCount held :=
  congrArg Set.ncard (Set.ext (reachable_iff_of_pins_eq hm hcode hkept hn hpins))

/-- Pinned once more are the objects that are given one pin. -/
theorem one_pin_eq (given : ObjectId → Prop) [DecidablePred given] :
    (fun id => 0 < if given id then 1 else 0) = given := by
  funext id
  by_cases hid : given id <;> simp [hid]

/-- A new pinned object that refers to nothing new is one more that is reached. -/
theorem Stored.reachCount (h : Stored m payload n) (hm : m.Ready held count) (hcode : m.Housed)
    (hn : n.Reached)
    (hrefs : ∀ other ∈ payload.references m.chunks, m.Reachable (.of held) other) :
    n.reachCount held = m.reachCount held + 1 := by
  have hpins := h.pinCount (hm.not_mem_pins (Nat.le_refl _))
  have hfresh : ¬ m.Reachable (.of held) m.objects.size :=
    fun hid => Nat.lt_irrefl _ (hm.owns _ hid).lt_size
  have hnew : ∀ id, n.Reaches (· = m.objects.size) id →
      id = m.objects.size ∨ m.Reachable (.of held) id := by
    intro id hid
    refine hid.subset (fun i hi => Or.inl hi) ?_
    rintro i (rfl | hi) other hother
    · rw [references_eq, h.payload, if_pos rfl, h.chunks] at hother
      exact Or.inr (hrefs other hother)
    · rw [h.kept.references hcode (hm.owns i hi).lt_size] at hother
      exact Or.inr (hi.reference hother)
  have hset : {id | n.Reachable (.of held) id} =
      insert m.objects.size {id | m.Reachable (.of held) id} := by
    ext id
    refine (Image.reachable_iff_of_pins hm hcode h.kept hn hpins id).trans ?_
    rw [one_pin_eq]
    refine ⟨fun hid => hid.elim Or.inr (hnew id), fun hid => hid.elim (fun hid => ?_) Or.inl⟩
    exact Or.inr (.start hid)
  rw [Memory.reachCount, hset]
  exact Set.ncard_insert_of_notMem hfresh (m.finite_owns.subset hm.owns)

/-! ### Refused objects -/

/-- An object was refused: the heap is what a collection leaves, and nothing else happened. -/
structure Refused (held : RootId → List ObjectId) (m n : Memory) : Prop where
  kept : Extends m n
  ready : n.Ready held 0
  pins : n.heap.pins = m.heap.pins

theorem Grown.refused (hm : m.Ready held 0) (hcode : m.Housed)
    (hk : Grown (.of held) payload m n) (hn : n.Reached) : Refused held m n := by
  have hstored := hk.stored.kept
  have hkept : Extends m n :=
    ⟨hstored.id, hstored.config, hstored.roots, hstored.objects, hstored.payload, hstored.chunks,
      hstored.chunk⟩
  refine ⟨hkept, ⟨hn, fun id hid => ?_, nofun⟩, hk.same.pins⟩
  have hid := (reachable_iff_of_pins_eq hm hcode hkept hn hk.same.pins id).1 hid
  obtain ⟨p, hp⟩ := hm.owns id hid
  refine ⟨p, ?_, hp.heap.trans hk.same.id.symm, hp.unswept⟩
  rw [placement?, hk.object id hid]
  exact hp.found

/-- An object is stored and pinned, or it is refused. -/
theorem Ready.store_cases (hm : m.Ready held 0) (hcode : m.Housed) (payload : Payload)
    (hrefs : ∀ other ∈ payload.references m.chunks, m.Reachable (.of held) other) :
    (∃ k n, alloc (.of held) payload m = .ok m.objects.size k ∧
      pin m.objects.size k = .ok () n ∧ Stored m payload n ∧ n.Ready held 0) ∨
    ∃ max n, alloc (.of held) payload m = .error (.exhausted (m.reachCount held) max) n ∧
      Refused held m n := by
  by_cases hfull : m.Exhausts (.of held)
  · obtain ⟨n, hgrown, ⟨hroom, -⟩ | ⟨-, halloc⟩⟩ :=
      alloc_cases hm.reached.wellFormed hm.owns payload
    · exact absurd hfull hroom
    · have hn := hm.reached.step (.alloc _ _ (Or.inr ⟨_, _, halloc⟩))
      exact Or.inr ⟨_, n, halloc, hgrown.refused hm hcode hn⟩
  · have hready : m.Ready held 1 := by
      refine ⟨hm.reached, hm.owns, fun more hmore => ?_⟩
      rw [Nat.lt_one_iff.1 hmore, Nat.add_zero]
      exact Bool.eq_false_iff.2 hfull
    exact Or.inl (hready.store payload hrefs)

end Memory

namespace Chunk

open Memory

variable {m n k : Memory} {held : RootId → List ObjectId} {c d : Chunk} {t : Text} {w : Wire}
  {vs : List Value} {cs : List WireConstant} {leaked : List ObjectId} {live : Nat}

/-- The strings `leaked` were made and pinned once each, beside what there was. -/
structure Leaves (held : RootId → List ObjectId) (m : Memory) (leaked : List ObjectId)
    (n : Memory) : Prop where
  kept : Extends m n
  ready : n.Ready held 0
  nodup : leaked.Nodup
  strings : ∀ id ∈ leaked, m.objects.size ≤ id ∧ ∃ data, n.string? id = some data
  pins : ∀ id, n.heap.pinCount id = m.heap.pinCount id + if id ∈ leaked then 1 else 0

/-- A loaded chunk that is forgotten leaves its strings. -/
theorem Loads.leaves (h : Loads m w.frame w.constants vs k d) (hm : m.Ready held 0)
    (hrefused : Refused held k n) : Leaves held m d.owned n where
  kept := h.kept.trans hrefused.kept
  ready := hrefused.ready
  nodup := h.owned_nodup
  strings id hid := by
    obtain ⟨data, hdata⟩ := h.spells.string ((h.mem_owned id).1 hid)
    rw [h.owned_eq.2, List.mem_range'_1] at hid
    exact ⟨hid.1, data, hrefused.kept.string?_kept hdata⟩
  pins id := by
    rw [Heap.pinCount, hrefused.pins, ← Heap.pinCount, h.pinCount hm]

/-- The strings of a chunk stay pinned once the next collection is over, and nothing else does. -/
theorem Leaves.collect (h : Leaves held m leaked n) (hm : m.Ready held 0) (hcode : m.Housed) :
    ∃ k, Memory.collect (.of held) n = .ok () k ∧
      ∀ id, k.Owns id ↔ m.Reachable (.of held) id ∨ id ∈ leaked := by
  obtain ⟨k, hcollect, howns⟩ := Image.collect_after_load hm hcode h.kept h.ready h.pins
  have hleaf : ∀ i, i ∈ leaked → n.references i = [] := by
    intro i hi
    obtain ⟨-, data, hdata⟩ := h.strings i hi
    rw [references_eq, string?_eq_some.1 hdata]
    rfl
  refine ⟨k, hcollect, fun id => ?_⟩
  rw [howns, one_pin_eq (· ∈ leaked)]
  exact or_congr_right ⟨Reaches.of_leaves hleaf, .start⟩

/-- A chunk can be broken off with so many of its strings made, at the next of its strings. -/
def BreaksAt (t : Text) (made : Nat) : Prop :=
  ∃ w e done data rest, read t = .ok (w, e) ∧ w.constants = done ++ .string data :: rest ∧
    made = done.countP WireConstant.isString

/-- Adding constants stops at a string that is refused, after those before it. -/
def Stops (held : RootId → List ObjectId) (m : Memory) (c : Chunk) (cs : List WireConstant)
    (live : Nat) (n : Memory) : Prop :=
  ∃ done data rest vs k d, cs = done ++ .string data :: rest ∧
    live = m.reachCount held + done.countP WireConstant.isString ∧ Loads m c done vs k d ∧
    Refused held k n

theorem Stops.string {data : Text} {l : Memory} (hstored : Stored m (.string data) l)
    (hcount : l.reachCount held = m.reachCount held + 1)
    (h : Stops held l { c with
      constants := c.constants.push (.object m.objects.size)
      owned := c.owned ++ [m.objects.size] } cs live n) :
    Stops held m c (.string data :: cs) live n := by
  obtain ⟨done, data', rest, vs, k, d, rfl, rfl, hload, hrefused⟩ := h
  refine ⟨.string data :: done, data', rest, _, k, d, rfl, ?_, hload.string hstored, hrefused⟩
  rw [hcount, List.countP_cons_of_pos rfl]
  omega

theorem Stops.scalar {x : WireConstant} {v : Value} (hid : v.id? = none)
    (hstands : ∀ n, x.Stands n v) (hx : x.isString = false)
    (h : Stops held m { c with
      constants := c.constants.push v
      unlinked := c.unlinked ++ functionsFrom c.constants.size [x] } cs live n) :
    Stops held m c (x :: cs) live n := by
  obtain ⟨done, data, rest, vs, k, d, rfl, rfl, hload, hrefused⟩ := h
  refine ⟨x :: done, data, rest, v :: vs, k, d, rfl, ?_, hload.scalar hid hstands hx, hrefused⟩
  rw [List.countP_cons_of_neg (Bool.eq_false_iff.1 hx)]

/-- All constants are added, or one of the strings is refused. -/
theorem addReads_cases (hm : m.Ready held 0) (hcode : m.Housed) (c : Chunk)
    (cs : List WireConstant) :
    (∃ vs n d, c.addReads (.of held) cs m = .ok d n ∧ Loads m c cs vs n d ∧ n.Ready held 0 ∧
      n.reachCount held = m.reachCount held + cs.countP WireConstant.isString) ∨
    ∃ live max n, c.addReads (.of held) cs m = .error (.exhausted live max) n ∧
      Stops held m c cs live n := by
  induction cs generalizing m c with
  | nil => exact Or.inl ⟨[], m, c, rfl, .nil m c, hm, rfl⟩
  | cons x rest ih =>
    rw [addReads, bind_apply]
    cases hx : x.isString with
    | true =>
      cases x with
      | string data =>
        have hrefs : ∀ other ∈ Payload.references m.chunks (.string data),
            m.Reachable (.of held) other := fun _ hother => absurd hother List.not_mem_nil
        rcases hm.store_cases hcode (.string data) hrefs with
          ⟨k, l, halloc, hpin, hstored, hl⟩ | ⟨max, n, halloc, hrefused⟩
        · have hcode' : l.Housed := by
            intro id f chunk hf hchunk
            rw [hstored.function?_of_string] at hf
            rw [hstored.chunks]
            exact hcode id f chunk hf hchunk
          have hcount := hstored.reachCount hm hcode hl.reached hrefs
          simp only [addRead, bind_apply, halloc, hpin, pure_apply]
          rcases ih hl hcode' { c with
              constants := c.constants.push (.object m.objects.size)
              owned := c.owned ++ [m.objects.size] } with
            ⟨vs, n, d, hadd, hload, hn, hreach⟩ | ⟨live, max, n, hadd, hstops⟩
          · refine Or.inl ⟨_, n, d, hadd, hload.string hstored, hn, ?_⟩
            rw [hreach, hcount, List.countP_cons_of_pos rfl]
            omega
          · exact Or.inr ⟨live, max, n, hadd, hstops.string hstored hcount⟩
        · simp only [addRead, bind_apply, halloc]
          exact Or.inr ⟨_, max, n, rfl, [], data, rest, [], m, c, rfl, rfl, .nil m c, hrefused⟩
      | _ => cases hx
    | false =>
      obtain ⟨v, hid, hstands, hread⟩ := addRead_scalar hx (.of held) c m
      rw [hread, List.countP_cons_of_neg (Bool.eq_false_iff.1 hx)]
      rcases ih hm hcode { c with
          constants := c.constants.push v
          unlinked := c.unlinked ++ functionsFrom c.constants.size [x] } with
        ⟨vs, n, d, hadd, hload, hn, hreach⟩ | ⟨live, max, n, hadd, hstops⟩
      · exact Or.inl ⟨v :: vs, n, d, hadd, hload.scalar hid hstands hx, hn, hreach⟩
      · exact Or.inr ⟨live, max, n, hadd, hstops.scalar hid hstands hx⟩

/-- A text is refused, or it is a written chunk and loaded, or the heap is found exhausted at one of
its strings, and then the strings before it are left. -/
theorem deserialize_cases (hm : m.Ready held 0) (hcode : m.Housed) (t : Text) :
    (∃ e n, deserialize (.of held) t m = .ok (.error e) n) ∨
    (∃ w vs n d, Wire.Written w t ∧ Loads m w.frame w.constants vs n d ∧ n.Ready held 0 ∧
      n.reachCount held = m.reachCount held + stringsIn t ∧
      deserialize (.of held) t m = .ok (.ok d) n) ∨
    ∃ leaked max n, BreaksAt t leaked.length ∧ Leaves held m leaked n ∧
      deserialize (.of held) t m =
        .error (.exhausted (m.reachCount held + leaked.length) max) n := by
  cases hread : read t with
  | error e => exact Or.inl ⟨e, m, by simp only [deserialize, hread, pure_apply]⟩
  | ok r =>
    obtain ⟨w, e⟩ := r
    simp only [deserialize, stringsIn, hread, bind_apply]
    rcases addReads_cases hm hcode w.frame w.constants with
      ⟨vs, n, d, hadd, hload, hn, hreach⟩ |
      ⟨live, max, n, hadd, done, data, rest, vs, k, d, hsplit, hlive, hload, hrefused⟩
    · rw [Wire.frame] at hadd
      rw [hadd]
      cases e with
      | some e => exact Or.inl ⟨e, _, rfl⟩
      | none =>
        exact Or.inr (Or.inl ⟨w, vs, n, d, read_eq_none.1 hread, hload, hn, hreach, rfl⟩)
    · have hfirst : Loads m (Wire.frame { w with constants := done }) done vs k d := hload
      have hlength : d.owned.length = done.countP WireConstant.isString := by
        rw [hfirst.owned_eq.2, List.length_range']
      rw [Wire.frame] at hadd
      rw [hadd, hlive, ← hlength]
      exact Or.inr (Or.inr ⟨d.owned, max, n, ⟨w, e, done, data, rest, hread, hsplit, hlength⟩,
        hfirst.leaves hm hrefused, rfl⟩)

end Chunk

namespace Image

open Memory Chunk

variable {m n k : Memory} {held : RootId → List ObjectId} {f : FunctionImage} {l : Loaded}
  {img : Image} {ls : List Loaded} {rest : List FunctionImage} {leaked : List ObjectId}

/-- Making a function can be broken off with so many strings made: at the next string of its
chunk, or when the chunk is complete and the function itself is made. -/
def BreaksOff (f : FunctionImage) (made : Nat) : Prop :=
  BreaksAt f.bytes made ∨ (∃ w, Wire.Written w f.bytes) ∧ made = stringsIn f.bytes

/-- A function is refused, or made, or the heap is found exhausted, and then the strings of its
chunk are left. -/
theorem loadFunction_cases (hm : m.Ready held 0) (hcode : m.Housed) (index : Nat)
    (f : FunctionImage) :
    (∃ e n, loadFunction (.of held) index f m = .ok (.error e) n) ∨
    (∃ l n, loadFunction (.of held) index f m = .ok (.ok l) n ∧ Made m [f] [l] n ∧
      n.Ready held 0 ∧ n.Housed ∧
      n.reachCount held = m.reachCount held + (stringsIn f.bytes + 1)) ∨
    ∃ leaked max n, BreaksOff f leaked.length ∧ Leaves held m leaked n ∧
      loadFunction (.of held) index f m =
        .error (.exhausted (m.reachCount held + leaked.length) max) n := by
  rcases deserialize_cases hm hcode f.bytes with
    ⟨e, n, hrun⟩ | ⟨w, vs, k, c, hw, hload, hk, hreach, hrun⟩ |
    ⟨leaked, max, n, hbreaks, hleaves, hrun⟩
  · refine Or.inl ⟨.badChunk index f.name e, n, ?_⟩
    simp only [loadFunction, bind_apply, hrun, pure_apply]
  · have hid : (k.addChunk c).2 = k.chunks.size := rfl
    have hcode' := hload.housed hcode
    have hadded := hk.addChunk hcode' c
    have hsame := reachCount_of_pins_eq hk hcode' (extends_addChunk k c) hadded.reached rfl
    have hrefs : ∀ other ∈ Payload.references (k.addChunk c).1.chunks
        (.function { name := f.name, arity := f.arity, chunk := some k.chunks.size }),
        (k.addChunk c).1.Reachable (.of held) other := reachable_of_loads hload rfl
    rcases hadded.store_cases (hcode'.addChunk c) _ hrefs with
      ⟨o, n, halloc, hpin, hstored, hn⟩ | ⟨max, n, halloc, hrefused⟩
    · obtain ⟨hmade, hhoused⟩ := made_of_loads hw hm hcode hload hk hstored
      refine Or.inr (Or.inl ⟨_, n, ?_, hmade, hn, hhoused, ?_⟩)
      · simp only [loadFunction, bind_apply, hrun, modifyGet_apply, hid, halloc, hpin]
        rfl
      · rw [hstored.reachCount hadded (hcode'.addChunk c) hn.reached hrefs, hsame, hreach,
          Nat.add_assoc]
    · have hlength : c.owned.length = stringsIn f.bytes := by
        rw [stringsIn, read_eq_none.2 hw, hload.owned_eq.2, List.length_range']
      have hafter : Refused held k n :=
        ⟨(extends_addChunk k c).trans hrefused.kept, hrefused.ready, hrefused.pins⟩
      refine Or.inr (Or.inr ⟨c.owned, max, n, Or.inr ⟨⟨w, hw⟩, hlength⟩,
        hload.leaves hm hafter, ?_⟩)
      simp only [loadFunction, bind_apply, hrun, modifyGet_apply, hid, halloc, hsame, hreach,
        hlength]
  · refine Or.inr (Or.inr ⟨leaked, max, n, Or.inl hbreaks, hleaves, ?_⟩)
    simp only [loadFunction, bind_apply, hrun]

/-- A function that had been made gives its pins back, and the strings are left. -/
theorem leaves_undo (hmade : Made m [f] [l] k) (h : Leaves held k leaked n) :
    Leaves held m leaked (undo l n) := by
  have hl : l ∈ [l] := List.mem_singleton_self l
  refine ⟨extends_undo (hmade.kept.trans h.kept) (hmade.fresh l hl).1, ready_undo h.ready l,
    h.nodup, fun id hid => ?_, fun id => ?_⟩
  · obtain ⟨hfresh, data, hdata⟩ := h.strings id hid
    exact ⟨hmade.kept.objects.trans hfresh, data, (string?_undo l n id).trans hdata⟩
  · rw [pinCount_undo h.ready.reached, h.pins, keeps_kept h.kept (hmade.lt_sizes hl).1, hmade.pins,
      List.flatMap_singleton]
    omega

theorem pin_not_exhausted {id : ObjectId} {live : Nat} {max : Int64} :
    Memory.pin id m ≠ .error (.exhausted live max) n := by
  intro h
  simp only [Memory.pin, bind_apply, get_apply] at h
  cases ho : m.objects[id]? with
  | none =>
    rw [ho] at h
    cases h
  | some o =>
    simp only [ho, get_bind_apply, branch_apply] at h
    split_ifs at h <;> cases h

/-- Linking finds no heap exhausted. -/
theorem finish_not_exhausted {loaded : Array Loaded} {live : Nat} {max : Int64} :
    finish img loaded m ≠ .error (.exhausted live max) n := by
  intro h
  simp only [finish, bind_apply, get_apply] at h
  cases hlink : linkFunctions loaded m 0 img.functionList with
  | error e =>
    simp only [hlink] at h
    cases h
  | ok k =>
    simp only [hlink, bind_apply, set_apply] at h
    cases hentry : at? loaded img.entry with
    | none =>
      simp only [hentry] at h
      cases h
    | some l =>
      cases hpin : Memory.pin l.function k with
      | ok u k' =>
        simp only [hentry, bind_apply, hpin] at h
        cases h
      | error e k' =>
        simp only [hentry, bind_apply, hpin] at h
        cases h
        exact pin_not_exhausted hpin

/-- Where the heap is found exhausted at a function, those before it have given their pins back. -/
theorem loadAll_exhausted {live : Nat} {max : Int64} (hm : m.Ready held 0) (hcode : m.Housed)
    (h : loadAll (.of held) img ls.toArray rest m = .error (.exhausted live max) n) :
    ∃ before f after leaked, rest = before ++ f :: after ∧ BreaksOff f leaked.length ∧
      live = m.reachCount held + objectCount before + leaked.length ∧
      Leaves held m leaked n := by
  induction rest generalizing ls m n with
  | nil =>
    rw [loadAll] at h
    exact absurd h finish_not_exhausted
  | cons f rest ih =>
    rw [loadAll, bind_apply] at h
    rcases loadFunction_cases hm hcode ls.toArray.size f with
      ⟨e, k, hrun⟩ | ⟨l, k, hrun, hmade, hk, hcode', hreach⟩ |
      ⟨leaked, max', k, hbreaks, hleaves, hrun⟩
    · simp only [hrun, pure_apply] at h
      cases h
    · simp only [hrun, ensuring, List.push_toArray] at h
      cases hload : loadAll (.of held) img (ls ++ [l]).toArray rest k with
      | ok r k' =>
        rw [hload] at h
        cases h
      | error e k' =>
        rw [hload] at h
        cases h
        obtain ⟨before, g, after, leaked, rfl, hbreaks, rfl, hleaves⟩ := ih hk hcode' hload
        refine ⟨f :: before, g, after, leaked, rfl, hbreaks, ?_, leaves_undo hmade hleaves⟩
        rw [hreach, objectCount, objectCount, List.map_cons, List.sum_cons]
        omega
    · simp only [hrun] at h
      cases h
      exact ⟨[], f, rest, leaked, rfl, hbreaks, rfl, hleaves⟩

/-- So many new strings stay pinned, once each, and every other pin count is what it was; the next
collection keeps these strings and what was reached before. -/
structure Leaks (held : RootId → List ObjectId) (m : Memory) (made : Nat) (n : Memory) : Prop where
  reached : n.Reached
  strings : ∃ leaked : List ObjectId, leaked.length = made ∧ leaked.Nodup ∧
    (∀ id ∈ leaked, m.objects.size ≤ id ∧ ∃ data, n.string? id = some data) ∧
    (∀ id, n.heap.pinCount id = m.heap.pinCount id + if id ∈ leaked then 1 else 0) ∧
    ∃ k, Memory.collect (.of held) n = .ok () k ∧
      ∀ id, k.Owns id ↔ m.Reachable (.of held) id ∨ id ∈ leaked
  balanced : (∀ id, n.heap.pinCount id = m.heap.pinCount id) ↔ made = 0

theorem leaks_of_leaves (h : Leaves held m leaked n) (hm : m.Ready held 0) (hcode : m.Housed) :
    Leaks held m leaked.length n where
  reached := h.ready.reached
  strings := ⟨leaked, rfl, h.nodup, h.strings, h.pins, h.collect hm hcode⟩
  balanced := by
    rw [List.length_eq_zero_iff, List.eq_nil_iff_forall_not_mem]
    refine forall_congr' fun id => ?_
    rw [h.pins]
    split_ifs with hid
    · exact iff_of_false (Nat.succ_ne_self _) (not_not_intro hid)
    · exact iff_of_true rfl hid

/-- Where the heap is found exhausted in the middle of a loading, the strings that had been made of
the chunk that was being read stay pinned for good; the pins on all that had been loaded before come
off again.  So nothing is lost only if the heap is found exhausted before the first string of a
chunk, or at a function whose chunk has none. -/
theorem exhausted_leaves_strings {m : Memory} {held : RootId → List ObjectId} (hm : m.Ready held 0)
    (hcode : m.Housed) :
    (∀ t live max n, Chunk.deserialize (.of held) t m = .error (.exhausted live max) n →
      ∃ made, BreaksAt t made ∧ live = m.reachCount held + made ∧ Leaks held m made n) ∧
    ∀ img live max n, load (.of held) img m = .error (.exhausted live max) n →
      ∃ before f after made, img.functionList = before ++ f :: after ∧ BreaksOff f made ∧
        live = m.reachCount held + objectCount before + made ∧ Leaks held m made n := by
  refine ⟨fun t live max n h => ?_, fun img live max n h => ?_⟩
  · rcases deserialize_cases hm hcode t with ⟨e, k, hrun⟩ | ⟨w, vs, k, d, -, -, -, -, hrun⟩ |
      ⟨leaked, max', k, hbreaks, hleaves, hrun⟩
    · cases hrun.symm.trans h
    · cases hrun.symm.trans h
    · cases hrun.symm.trans h
      exact ⟨_, hbreaks, rfl, leaks_of_leaves hleaves hm hcode⟩
  · simp only [load, branch_apply] at h
    split_ifs at h
    · cases h
    · cases h
    · obtain ⟨before, f, after, leaked, hsplit, hbreaks, hlive, hleaves⟩ :=
        loadAll_exhausted hm hcode
          (show loadAll _ _ ([] : List Loaded).toArray _ _ = .error (.exhausted live max) n from h)
      exact ⟨before, f, after, _, hsplit, hbreaks, hlive, leaks_of_leaves hleaves hm hcode⟩

/-- A heap for one object, on which nothing has been made. -/
def roomForOne : Memory := ⟨Heap.create 0 { maxObjects := 1 }, #[], #[]⟩

/-- A written chunk with one line and two strings. -/
def pairSample : Text :=
  [0x43, 0x48, 0x4E, 0x4B, 1, 0, 0, 0, 2, 0, 0, 0, 1, 0, 0, 0, 0x00, 7, 0, 0, 0,
    1, 1, 0, 0, 0, 0x61, 1, 1, 0, 0, 0, 0x62]

/-- The heap for one object when the first string of the chunk has been made and pinned. -/
def roomTaken : Memory where
  heap := { limitSampleStart.heap with pins := [(0, 1)] }
  objects := #[⟨.string [0x61], some ⟨0, 0, 1, false⟩⟩]

/-- The heap for one object when the second string has been refused. -/
def roomRefused : Memory where
  heap := { roomTaken.heap with collections := 1 }
  objects := roomTaken.objects.push ⟨.string [0x62], none⟩

theorem roomTaken_alloc : alloc (.of fun _ => []) (.string [0x62]) roomTaken =
    .error (.exhausted 1 1) roomRefused := by
  have hmarks : (roomTaken.add (.string [0x62])).markPhase (.of fun _ => []) = .ok #[true] := by
    change (Marking.drain _ ⟨_, [0]⟩ >>= _) = _
    rw [drain_cons rfl, drain_nil]
    rfl
  rw [alloc_eq, place_eq rfl, makeRoom_eq, if_pos (by decide), collect, hmarks]
  rfl

theorem roomForOne_deserialize : Chunk.deserialize (.of fun _ => []) pairSample roomForOne =
    .error (.exhausted 1 1) roomRefused := by
  have hread : Chunk.read pairSample =
      .ok (⟨[0x00], [7], [.string [0x61], .string [0x62]]⟩, none) := rfl
  have hfirst : alloc (.of fun _ => []) (.string [0x61]) roomForOne =
      .ok 0 { roomTaken with heap := { roomTaken.heap with pins := [] } } := rfl
  have hpin : Memory.pin 0 { roomTaken with heap := { roomTaken.heap with pins := [] } } =
      .ok () roomTaken := rfl
  simp only [Chunk.deserialize, hread, bind_apply, Chunk.addReads, Chunk.addRead, hfirst, hpin,
    pure_apply, roomTaken_alloc]

theorem roomForOne_ready : roomForOne.Ready (fun _ => []) 0 where
  reached := .create 0 _ #[] (by simp)
  owns id hid := absurd hid (not_reachable_of_no_anchors rfl rfl id)
  room := nofun

theorem roomForOne_housed : roomForOne.Housed := by
  intro id f chunk hf
  simp [function?, roomForOne] at hf

/-- The only function of an image has the sample for its chunk. -/
def pairImage : Image where
  version := 1
  functions := some [⟨[], 0, some pairSample, []⟩]

theorem roomForOne_load : load (.of fun _ => []) pairImage roomForOne =
    .error (.exhausted 1 1) roomRefused := by
  have hfunction : loadFunction (.of fun _ => []) 0 ⟨[], 0, some pairSample, []⟩ roomForOne =
      .error (.exhausted 1 1) roomRefused := by
    have hbytes : FunctionImage.bytes ⟨[], 0, some pairSample, []⟩ = pairSample := rfl
    simp only [loadFunction, bind_apply, hbytes, roomForOne_deserialize]
  change loadAll _ _ _ [_] _ = _
  simp only [loadAll, bind_apply, List.size_toArray, List.length_nil, hfunction]

/-- Loading the sample, alone or as part of an image, finds the heap exhausted after a string, which
the next collection keeps. -/
theorem exhausted_leaves_strings_roomForOne :
    roomForOne.Ready (fun _ => []) 0 ∧ roomForOne.Housed ∧
      Chunk.deserialize (.of fun _ => []) pairSample roomForOne =
        .error (.exhausted 1 1) roomRefused ∧
      load (.of fun _ => []) pairImage roomForOne = .error (.exhausted 1 1) roomRefused ∧
      (∃ f ∈ pairImage.functionList, ∃ made, BreaksOff f made ∧ made ≠ 0) ∧
      ∃ made k, BreaksAt pairSample made ∧ made ≠ 0 ∧
        collect (.of fun _ => []) roomRefused = .ok () k ∧ k.Owns 0 := by
  obtain ⟨hdeserialize, hload⟩ := exhausted_leaves_strings roomForOne_ready roomForOne_housed
  obtain ⟨made, hbreaks, -, hleaks⟩ := hdeserialize _ _ _ _ roomForOne_deserialize
  obtain ⟨before, f, after, made', hsplit, hbreaks', -, hleaks'⟩ := hload _ _ _ _ roomForOne_load
  have hunbalanced : ¬ ∀ id, roomRefused.heap.pinCount id = roomForOne.heap.pinCount id :=
    fun hsame => absurd (hsame 0) (by decide)
  have hf : f ∈ pairImage.functionList := by
    rw [hsplit]
    exact List.mem_append_right _ List.mem_cons_self
  obtain ⟨leaked, -, -, -, hpins, k, hcollect, howns⟩ := hleaks.strings
  have hmem : 0 ∈ leaked := by
    by_contra hnot
    have hzero := hpins 0
    rw [if_neg hnot] at hzero
    exact absurd hzero (by decide)
  exact ⟨roomForOne_ready, roomForOne_housed, roomForOne_deserialize, roomForOne_load,
    ⟨f, hf, made', hbreaks', fun hzero => hunbalanced (hleaks'.balanced.2 hzero)⟩,
    made, k, hbreaks, fun hzero => hunbalanced (hleaks.balanced.2 hzero), hcollect,
    (howns 0).2 (Or.inr hmem)⟩

/-- A string stays pinned although loading its chunk has found the heap exhausted. -/
theorem roomForOne_keeps_pin :
    roomForOne.Ready (fun _ => []) 0 ∧
      Chunk.deserialize (.of fun _ => []) pairSample roomForOne =
        .error (.exhausted 1 1) roomRefused ∧
      roomForOne.heap.pinCount 0 = 0 ∧ roomRefused.heap.pinCount 0 = 1 :=
  ⟨roomForOne_ready, roomForOne_deserialize, rfl, rfl⟩

end Image

end StackVm
