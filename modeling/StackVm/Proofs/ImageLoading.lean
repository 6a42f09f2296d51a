/-
Loading images.  An image is loaded exactly when its functions are written chunks whose
link tables fit; the pins that were taken on the way come off again, whatever happens, and
the one pin on the entry function keeps what it reaches and nothing else.
-/
import Mathlib.Algebra.Order.BigOperators.Group.List
import StackVm.Proofs.Collection
import StackVm.Proofs.LinkTables
import StackVm.Proofs.Making
import StackVm.Proofs.Survival

namespace StackVm.Image

open Memory

variable {l₀ m n k : Memory} {held : RootId → List ObjectId} {count spare index : Nat}
  {f : FunctionImage} {l : Loaded} {fs done rest : List FunctionImage} {ls : List Loaded}
  {img : Image} {id : ObjectId} {links : Links} {c d : Chunk} {r : Except LoadError ObjectId}

/-! ### What is accepted -/

/-- How many objects are made when functions are loaded: their strings and themselves. -/
def objectCount (fs : List FunctionImage) : Nat :=
  (fs.map fun f => Chunk.stringsIn f.bytes + 1).sum

/-- The chunk of a function is a written one, its unlinked places are the slots of the link
table, and the targets are among so many functions. -/
def Complete (count : Nat) (f : FunctionImage) : Prop :=
  ∃ w, Chunk.Wire.Written w f.bytes ∧
    (slots f.links).Perm (Chunk.functionsFrom 0 w.constants) ∧
    ∀ link ∈ f.links, 0 ≤ link.2.toInt ∧ link.2.toInt < count

theorem at?_eq_some {target : Int64} :
    at? ls.toArray target = some l ↔ 0 ≤ target.toInt ∧ ls[target.toInt.toNat]? = some l := by
  rw [at?]
  split
  · next h => simp [h]
  · next h => simp [h]

theorem exists_at?_iff {target : Int64} :
    (∃ l, at? ls.toArray target = some l) ↔ 0 ≤ target.toInt ∧ target.toInt < ls.length := by
  simp only [at?_eq_some]
  constructor
  · rintro ⟨l, hpos, hl⟩
    have hlt := (List.getElem?_eq_some_iff.1 hl).1
    omega
  · rintro ⟨hpos, hlt⟩
    have hat : target.toInt.toNat < ls.length := by omega
    exact ⟨ls[target.toInt.toNat], hpos, List.getElem?_eq_getElem hat⟩

/-- The link table of a function that has been made fits its chunk. -/
theorem Prepared.linkable_iff (h : Prepared m f l) :
    Linkable ls.toArray m f l ↔ Complete ls.length f := by
  obtain ⟨w, c, hw, hc, hspells⟩ := h.chunk
  have htargets : (∀ link ∈ f.links, ∃ t, at? ls.toArray link.2 = some t) ↔
      ∀ link ∈ f.links, 0 ≤ link.2.toInt ∧ link.2.toInt < ls.length :=
    forall₂_congr fun _ _ => exists_at?_iff
  rw [Linkable, hc, Option.getD_some, htargets, hspells.unlinked]
  constructor
  · rintro ⟨hrange, hslots⟩
    exact ⟨w, hw, hslots, hrange⟩
  · rintro ⟨w', hw', hslots, hrange⟩
    have hsame := (Chunk.Wire.decode_eq_ok.2 hw').symm.trans (Chunk.Wire.decode_eq_ok.2 hw)
    cases hsame
    exact ⟨hrange, hslots⟩

/-- The functions that have been made can be linked exactly when their tables fit. -/
theorem Made.exists_linkFunctions_iff (h : Made l₀ fs ls m) :
    (∃ n, linkFunctions ls.toArray m 0 fs = .ok n) ↔ ∀ f ∈ fs, Complete ls.length f := by
  rw [Image.exists_linkFunctions_iff (fun i => by rw [Nat.zero_add, List.getElem?_toArray])
    h.prepared.length_eq h.chunks]
  exact forall₂_iff_forall_left h.prepared fun _ _ hprepared => hprepared.linkable_iff

/-! ### What is loaded -/

/-- The chunk says what is written, with the functions of the link table in its slots. -/
structure Holds (n : Memory) (ids : List ObjectId) (links : Links) (w : Chunk.Wire) (d : Chunk) :
    Prop where
  code : d.code.toList = w.code
  lines : d.lines.toList = w.lines.map Int32.toInt64
  size : d.constants.size = w.constants.length
  unlinked : d.unlinked = []
  linked : ∀ link ∈ links, ∃ id, ids[link.2.toInt.toNat]? = some id ∧
    d.constants[link.1.toNat]? = some (.object id)
  other : ∀ (i : Nat) k, w.constants[i]? = some k → k ≠ .function →
    ∃ v, d.constants[i]? = some v ∧ k.Stands n v

/-- The function of an image has become an object, with its own chunk. -/
def Hosts (n : Memory) (ids : List ObjectId) (f : FunctionImage) (id : ObjectId) : Prop :=
  ∃ chunk w d, n.function? id = some { name := f.name, arity := f.arity, chunk := some chunk } ∧
    n.chunks[chunk]? = some d ∧ Chunk.Wire.Written w f.bytes ∧ Holds n ids f.links w d

/-- The functions of an image have become objects, all different. -/
structure Installed (n : Memory) (img : Image) (ids : List ObjectId) : Prop where
  nodup : ids.Nodup
  hosts : List.Forall₂ (Hosts n ids) img.functionList ids

theorem string?_undo (l : Loaded) (m : Memory) (id : ObjectId) :
    (undo l m).string? id = m.string? id := by
  rw [Memory.string?, (heap_undo l m).1, Memory.string?]

theorem function?_undo (l : Loaded) (m : Memory) (id : ObjectId) :
    (undo l m).function? id = m.function? id := by
  rw [Memory.function?, (heap_undo l m).1, Memory.function?]

/-- Giving pins back takes nothing from the functions. -/
theorem Installed.undo {ids : List ObjectId} (h : Installed n img ids) (l : Loaded) :
    Installed (Image.undo l n) img ids where
  nodup := h.nodup
  hosts := by
    refine h.hosts.imp fun f id hhosts => ?_
    obtain ⟨chunk, w, d, hf, hd, hw, hholds⟩ := hhosts
    have hstands : ∀ (k : Chunk.WireConstant) v, k.Stands n v → k.Stands (Image.undo l n) v := by
      rintro (_ | data | _ | _ | _) v hv
      case string => simpa only [Chunk.WireConstant.Stands, string?_undo] using hv
      all_goals exact hv
    obtain ⟨e, he, hcode, hlines, hconstants, hunlinked⟩ : ∃ e,
        (Image.undo l n).chunks[chunk]? = some e ∧ e.code = d.code ∧ e.lines = d.lines ∧
          e.constants = d.constants ∧ e.unlinked = d.unlinked := by
      rw [chunk_undo, hd]
      split
      · exact ⟨_, rfl, rfl, rfl, rfl, rfl⟩
      · exact ⟨_, rfl, rfl, rfl, rfl, rfl⟩
    refine ⟨chunk, w, e, (function?_undo l n id).trans hf, he, hw, ?_⟩
    refine ⟨hcode ▸ hholds.code, hlines ▸ hholds.lines, hconstants ▸ hholds.size,
      hunlinked ▸ hholds.unlinked, hconstants ▸ hholds.linked, fun i k hk hne => ?_⟩
    obtain ⟨v, hv, hstand⟩ := hholds.other i k hk hne
    exact ⟨v, hconstants ▸ hv, hstands k v hstand⟩

/-! ### Linking the functions -/

/-- What a linked chunk refers to is what it referred to and what is linked. -/
theorem Fills.mem_constants {loaded : Array Loaded} (h : Fills loaded c links d)
    (hid : .object id ∈ d.constants) :
    .object id ∈ c.constants ∨ ∃ target l, at? loaded target = some l ∧ id = l.function := by
  obtain ⟨i, hi⟩ := Array.mem_iff_getElem?.1 hid
  by_cases hslot : i ∈ slots links
  · obtain ⟨link, hlink, rfl⟩ := List.mem_map.1 hslot
    obtain ⟨l, hl, hset⟩ := h.linked link hlink
    rw [hset (h.size ▸ (Array.getElem?_eq_some_iff.1 hi).1)] at hi
    cases hi
    exact Or.inr ⟨link.2, l, hl, rfl⟩
  · rw [h.other i hslot] at hi
    exact Or.inl (Array.mem_of_getElem? hi)

theorem Tied.exists_fills (h : Tied ls.toArray m fs ls k) (hmade : Made l₀ fs ls m)
    (hl : l ∈ ls) : ∃ f ∈ fs, ∃ c d, m.chunks[l.chunk]? = some c ∧
      k.chunks[l.chunk]? = some d ∧ Fills ls.toArray c f.links d := by
  obtain ⟨f, hf, hfills⟩ := exists_mem_left h.filled hl
  have hc := Array.getElem?_eq_getElem (hmade.lt_sizes hl).1
  obtain ⟨d, hd, hfills⟩ := hfills _ hc
  exact ⟨f, hf, _, d, hc, hd, hfills⟩

/-- Linking makes nothing refer to anything but the functions that have been made. -/
theorem Tied.mem_references (h : Tied ls.toArray m fs ls k) (hmade : Made l₀ fs ls m)
    {other : ObjectId} (hother : other ∈ k.references id) :
    other ∈ m.references id ∨ ∃ l ∈ ls, other = l.function := by
  have hpayload : k.payload? id = m.payload? id := by rw [payload?, h.objects, ← payload?]
  rw [references_eq, hpayload] at hother
  rw [references_eq]
  cases hp : m.payload? id with
  | none =>
    rw [hp] at hother
    cases hother
  | some p =>
    rw [hp] at hother
    simp only [Option.map_some, Option.getD_some] at hother ⊢
    cases p with
    | function g =>
      simp only [Payload.references] at hother ⊢
      cases hchunk : g.chunk with
      | none =>
        rw [hchunk] at hother
        cases hother
      | some chunk =>
        simp only [hchunk, Option.bind_some] at hother ⊢
        by_cases hmem : chunk ∈ ls.map (·.chunk)
        · obtain ⟨l, hl, rfl⟩ := List.mem_map.1 hmem
          obtain ⟨f, -, c, d, hc, hd, hfills⟩ := h.exists_fills hmade hl
          simp only [hc, hd, referents, Chunk.mem_filterMap_id?, Array.mem_toList_iff] at hother ⊢
          refine (hfills.mem_constants hother).imp_right ?_
          rintro ⟨target, t, ht, rfl⟩
          exact ⟨t, List.mem_of_getElem? (at?_eq_some.1 ht).2, rfl⟩
        · rw [h.other chunk hmem] at hother
          exact Or.inl hother
    | _ => exact Or.inl hother

theorem Tied.keeps_eq (h : Tied ls.toArray m fs ls k) (hmade : Made l₀ fs ls m) (hl : l ∈ ls) :
    keeps k l = keeps m l := by
  obtain ⟨f, -, c, d, hc, hd, hfills⟩ := h.exists_fills hmade hl
  rw [keeps, hd, Option.getD_some, hfills.owned, keeps, hc, Option.getD_some]

/-- Linking is no change to what was there before the functions were made. -/
theorem Tied.kept (h : Tied ls.toArray m fs ls k) (hmade : Made l₀ fs ls m) :
    Extends l₀ k where
  id := by rw [h.heap, hmade.kept.id]
  config := by rw [h.heap, hmade.kept.config]
  roots := by rw [h.heap, hmade.kept.roots]
  objects := h.objects ▸ hmade.kept.objects
  payload id hid := by rw [payload?, h.objects, ← payload?, hmade.kept.payload id hid]
  chunks := h.size ▸ hmade.kept.chunks
  chunk i hi := by
    have hnot : i ∉ ls.map (·.chunk) := by
      intro hmem
      obtain ⟨l, hl, rfl⟩ := List.mem_map.1 hmem
      exact Nat.not_lt.2 (hmade.fresh l hl).1 hi
    rw [h.other i hnot, hmade.kept.chunk i hi]

/-- A function that has been made is pinned. -/
theorem Made.pinned (h : Made l₀ fs ls m) (hl : l ∈ ls) : 0 < m.heap.pinCount l.function := by
  have hmem : l.function ∈ ls.flatMap (keeps m) :=
    List.mem_flatMap.2 ⟨l, hl, List.mem_append_right _ (List.mem_singleton_self _)⟩
  rw [h.pins]
  exact Nat.lt_of_lt_of_le (List.count_pos_iff.2 hmem) (Nat.le_add_left ..)

theorem Made.reachable (h : Made l₀ fs ls m) (hl : l ∈ ls) (holdings : Holdings) :
    m.Reachable holdings l.function :=
  .start (Or.inr (mem_keys_of_pinCount_pos (h.pinned hl)))

/-- The linked functions with one pin more on one of them. -/
theorem Tied.pin (h : Tied ls.toArray m fs ls k) (hmade : Made l₀ fs ls m)
    (hm : m.Ready held count) (hl : l ∈ ls) :
    ∃ n, Memory.pin l.function k = .ok () n ∧ n.Ready held count ∧ n.objects = k.objects ∧
      n.chunks = k.chunks ∧ Extends l₀ n ∧
      ∀ id, n.heap.pinCount id = m.heap.pinCount id + if id = l.function then 1 else 0 := by
  have hkept := h.kept hmade
  have hown : k.Owns l.function := by
    obtain ⟨p, hp⟩ := hm.owns _ (hmade.reachable hl _)
    exact ⟨p, by rw [placement?, h.objects]; exact hp.found, by rw [h.heap]; exact hp.heap,
      hp.unswept⟩
  have hpin := pin_of_owns hown
  have hreached := (hm.reached.with_chunks h.heap h.objects).step (.pin l.function hpin)
  refine ⟨_, hpin, ?_, rfl, rfl, ?_, fun id => ?_⟩
  · refine hm.of_anchors hreached h.objects (by rw [h.heap]) (fun id hid => ?_)
      fun id hid other hother => ?_
    · rcases mem_keys_addPin hid with rfl | hid
      · exact hmade.reachable hl _
      · exact .start (Or.inr hid)
    · rcases h.mem_references hmade hother with hother | ⟨t, ht, rfl⟩
      · exact hid.reference hother
      · exact hmade.reachable ht _
  · exact ⟨hkept.id, hkept.config, hkept.roots, hkept.objects, hkept.payload, hkept.chunks,
      hkept.chunk⟩
  · rw [Heap.pinCount, lookup_addPin, h.heap, ← Heap.pinCount]

/-- A function that has been made becomes what the image says when it is linked. -/
theorem Prepared.hosts (h : Prepared m f l) (hcomplete : Complete ls.length f)
    (hfills : ∀ c, m.chunks[l.chunk]? = some c →
      ∃ d, k.chunks[l.chunk]? = some d ∧ Fills ls.toArray c f.links d)
    (hobjects : k.objects = m.objects) : Hosts k (ls.map (·.function)) f l.function := by
  obtain ⟨w, c, hw, hc, hspells⟩ := h.chunk
  obtain ⟨d, hd, hfills⟩ := hfills c hc
  obtain ⟨w', hw', hslots, -⟩ := hcomplete
  cases (Chunk.Wire.decode_eq_ok.2 hw').symm.trans (Chunk.Wire.decode_eq_ok.2 hw)
  have hplace : ∀ i, i ∈ slots f.links ↔ i ∈ c.unlinked := fun i =>
    hspells.unlinked ▸ hslots.mem_iff
  refine ⟨l.chunk, w, d, ?_, hd, hw, ⟨?_, ?_, ?_, hfills.unlinked, fun link hlink => ?_, ?_⟩⟩
  · rw [Memory.function?, hobjects]
    exact h.function
  · rw [hfills.code, hspells.code]
  · rw [hfills.lines, hspells.lines]
  · rw [hfills.size, ← Array.length_toList, hspells.constants.length_eq]
  · obtain ⟨t, ht, hset⟩ := hfills.linked link hlink
    have hmem : link.1.toNat ∈ slots f.links := List.mem_map_of_mem hlink
    refine ⟨t.function, ?_, hset (hspells.unlinked_lt ((hplace _).1 hmem))⟩
    rw [List.getElem?_map, (at?_eq_some.1 ht).2]
    rfl
  · intro i x hx hne
    have hnot : i ∉ slots f.links := by
      rw [hplace, hspells.unlinked, Chunk.mem_functionsFrom]
      rintro ⟨j, rfl, hj⟩
      rw [Nat.zero_add, hj] at hx
      exact hne (Option.some.inj hx).symm
    have hrel := hspells.rel i
    rw [hx] at hrel
    rw [hfills.other i hnot]
    obtain ⟨v, hv, hstands⟩ := exists_of_rel_some hrel
    refine ⟨v, hv, ?_⟩
    cases x with
    | string data =>
      obtain ⟨id, rfl, hdata⟩ := hstands
      exact ⟨id, rfl, by rw [Memory.string?, hobjects]; exact hdata⟩
    | _ => exact hstands

theorem Tied.installed (h : Tied ls.toArray m img.functionList ls k)
    (hmade : Made l₀ img.functionList ls m)
    (hcomplete : ∀ f ∈ img.functionList, Complete img.functionList.length f)
    (hobjects : n.objects = m.objects) (hchunks : n.chunks = k.chunks) :
    Installed n img (ls.map (·.function)) where
  nodup := hmade.functions
  hosts := by
    have hboth := List.Forall₂.mp (fun _ _ hp hfills => And.intro hp hfills)
      hmade.prepared h.filled
    rw [hmade.prepared.length_eq] at hcomplete
    rw [List.forall₂_map_right_iff]
    refine forall₂_imp_of_mem hboth fun f hf l hl => ?_
    refine hl.1.hosts (hcomplete f hf) (fun c hc => ?_) hobjects
    rw [hchunks]
    exact hl.2 c hc

/-! ### The end of a loading -/

/-- The pins that a loading leaves behind. -/
def taken (r : Except LoadError ObjectId) (id : ObjectId) : Nat :=
  match r with
  | .ok entry => if id = entry then 1 else 0
  | .error _ => 0

/-- A loading has ended, up to the pins of the functions `ls` that had been made when the
memory was `m`; before the loading it was `l₀`. -/
structure Ended (held : RootId → List ObjectId) (img : Image) (l₀ : Memory) (ls : List Loaded)
    (m : Memory) (r : Except LoadError ObjectId) (n : Memory) : Prop where
  kept : Extends l₀ n
  ready : n.Ready held 0
  owed : ∀ l ∈ ls, keeps n l = keeps m l
  pins : ∀ id, n.heap.pinCount id = m.heap.pinCount id + taken r id
  success : (∃ entry, r = .ok entry) ↔
    ∀ f ∈ img.functionList, Complete img.functionList.length f
  installed : ∀ entry, r = .ok entry →
    ∃ ids, Installed n img ids ∧ ids[img.entry.toInt.toNat]? = some entry

theorem not_exists_entry (e : LoadError) : ¬ ∃ entry : ObjectId, Except.error e = .ok entry := by
  rintro ⟨entry, hentry⟩
  cases hentry

/-- Linking what has been made ends the loading. -/
theorem finish_ended
    (hentry : 0 ≤ img.entry.toInt ∧ img.entry.toInt < img.functionList.length)
    (hlinks : ∀ f ∈ img.functionList, (slots f.links).Nodup)
    (hmade : Made l₀ img.functionList ls m) (hm : m.Ready held 0) :
    ∃ r n, finish img ls.toArray m = .ok r n ∧ Ended held img l₀ ls m r n := by
  have hlength : img.functionList.length = ls.length := hmade.prepared.length_eq
  have hsuccess := hmade.exists_linkFunctions_iff
  rw [← hlength] at hsuccess
  simp only [finish, bind_apply, get_apply]
  cases hlink : linkFunctions ls.toArray m 0 img.functionList with
  | error e =>
    refine ⟨.error e, m, rfl, hmade.kept, hm, fun _ _ => rfl, fun _ => rfl, ?_,
      fun entry h => by cases h⟩
    rw [← hsuccess, iff_false_left (not_exists_entry e), hlink]
    rintro ⟨k, hk⟩
    cases hk
  | ok k =>
    have htied : Tied ls.toArray m img.functionList ls k :=
      tied_of_linkFunctions (fun i => by rw [Nat.zero_add, List.getElem?_toArray]) hlength
        hmade.chunks hlinks hlink
    obtain ⟨l, hl⟩ := exists_at?_iff.2 (hlength ▸ hentry)
    have hplace := (at?_eq_some.1 hl).2
    have hcomplete := hsuccess.1 ⟨k, hlink⟩
    obtain ⟨n, hpin, hready, hobjects, hchunks, hkept, hpins⟩ :=
      htied.pin hmade hm (List.mem_of_getElem? hplace)
    refine ⟨.ok l.function, n, ?_, hkept, hready, fun x hx => ?_, hpins,
      ⟨fun _ => hcomplete, fun _ => ⟨_, rfl⟩⟩, ?_⟩
    · simp only [bind_apply, set_apply, hl, hpin, pure_apply]
    · rw [keeps, hchunks, ← keeps, htied.keeps_eq hmade hx]
    · intro entry hok
      cases hok
      refine ⟨_, htied.installed hmade hcomplete (hobjects.trans htied.objects) hchunks, ?_⟩
      rw [List.getElem?_map, hplace]
      rfl

/-- A function gives its pins back when the rest has ended. -/
theorem Ended.undo (hmade : Made l₀ done ls m) (hmore : Made m [f] [l] k)
    (h : Ended held img l₀ (ls ++ [l]) k r n) : Ended held img l₀ ls m r (Image.undo l n) := by
  have hboth := hmade.append hmore
  have hkeeps : keeps n l = keeps k l :=
    h.owed l (List.mem_append_right _ (List.mem_singleton_self l))
  have hfresh : l₀.chunks.size ≤ l.chunk :=
    (hboth.fresh l (List.mem_append_right _ (List.mem_singleton_self l))).1
  refine ⟨extends_undo h.kept hfresh, ready_undo h.ready l, fun x hx => ?_, fun id => ?_,
    h.success, fun entry hentry => ?_⟩
  · have hlt := (hmade.lt_sizes hx).1
    have hne : x.chunk ≠ l.chunk :=
      Nat.ne_of_lt (Nat.lt_of_lt_of_le hlt (hmore.fresh l (List.mem_singleton_self l)).1)
    rw [keeps_undo hne, h.owed x (List.mem_append_left _ hx), keeps_kept hmore.kept hlt]
  · rw [pinCount_undo h.ready.reached, h.pins, hkeeps, hmore.pins, List.flatMap_singleton]
    omega
  · obtain ⟨ids, hids, hplace⟩ := h.installed entry hentry
    exact ⟨ids, hids.undo l, hplace⟩

/-- Loading ends well whatever the functions are, with all pins given back but one. -/
theorem loadAll_ended
    (hentry : 0 ≤ img.entry.toInt ∧ img.entry.toInt < img.functionList.length)
    (hlinks : ∀ f ∈ img.functionList, (slots f.links).Nodup)
    (hsplit : img.functionList = done ++ rest) (hmade : Made l₀ done ls m)
    (hm : m.Ready held (objectCount rest)) (hcode : m.Housed) :
    ∃ r n, loadAll (.of held) img ls.toArray rest m = .ok r n ∧ Ended held img l₀ ls m r n := by
  induction rest generalizing done ls m with
  | nil =>
    rw [List.append_nil] at hsplit
    rw [loadAll]
    exact finish_ended hentry hlinks (hsplit ▸ hmade) (hm.mono (Nat.zero_le _))
  | cons f rest ih =>
    have hroom : objectCount (f :: rest) =
        Chunk.stringsIn f.bytes + (objectCount rest + 1) := by
      simp only [objectCount, List.map_cons, List.sum_cons]
      omega
    rw [hroom] at hm
    by_cases hw : ∃ w, Chunk.Wire.Written w f.bytes
    · obtain ⟨w, hw⟩ := hw
      obtain ⟨l, k, hrun, hmore, hk, hcode'⟩ :=
        loadFunction_made hw hm hcode ls.toArray.size
      have hsplit' : img.functionList = (done ++ [f]) ++ rest := by
        rw [hsplit, List.append_assoc]
        rfl
      obtain ⟨r, n, hload, hended⟩ := ih hsplit' (hmade.append hmore) hk hcode'
      refine ⟨r, undo l n, ?_, hended.undo hmade hmore⟩
      simp only [loadAll, bind_apply, hrun, List.push_toArray, ensuring, hload]
      rfl
    · obtain ⟨e, n, hrun, hkept, hn, hpins⟩ := loadFunction_failed hw hm ls.toArray.size
      refine ⟨.error e, n, ?_, hmade.kept.trans hkept, hn.mono (Nat.zero_le _), ?_, hpins, ?_,
        fun entry h => by cases h⟩
      · simp only [loadAll, bind_apply, hrun, pure_apply]
      · exact fun l hl => keeps_kept hkept (hmade.lt_sizes hl).1
      · rw [iff_false_left (not_exists_entry e)]
        intro hall
        obtain ⟨w, hw', -⟩ := hall f (by rw [hsplit]; simp)
        exact hw ⟨w, hw'⟩

/-! ### Loading as a whole -/

/-- An image is well linked: it has functions and one of them is the entry, every chunk is
loaded, its unlinked places are the slots of the link table, and the targets exist. -/
structure WellLinked (img : Image) (held : RootId → List ObjectId) (m : Memory) : Prop where
  functions : img.functionList ≠ []
  entry : 0 ≤ img.entry.toInt ∧ img.entry.toInt < img.functionList.length
  linked : ∀ f ∈ img.functionList, ∃ c n,
    Chunk.deserialize (.of held) f.bytes m = .ok (.ok c) n ∧
      (∀ i, i ∈ c.unlinked ↔ ∃ link ∈ f.links, link.1.toNat = i) ∧
      ∀ link ∈ f.links, 0 ≤ link.2.toInt ∧ link.2.toInt < img.functionList.length

theorem complete_iff (hm : m.Ready held (Chunk.stringsIn f.bytes))
    (hlinks : (slots f.links).Nodup) : Complete count f ↔
      ∃ c n, Chunk.deserialize (.of held) f.bytes m = .ok (.ok c) n ∧
        (∀ i, i ∈ c.unlinked ↔ ∃ link ∈ f.links, link.1.toNat = i) ∧
        ∀ link ∈ f.links, 0 ≤ link.2.toInt ∧ link.2.toInt < count := by
  have hmem : ∀ i, i ∈ slots f.links ↔ ∃ link ∈ f.links, link.1.toNat = i := fun _ => List.mem_map
  constructor
  · rintro ⟨w, hw, hslots, hrange⟩
    obtain ⟨vs, n, c, hload, -, hrun⟩ := Chunk.deserialize_of_written hw hm
    refine ⟨c, n, hrun, fun i => ?_, hrange⟩
    rw [← hmem, hslots.mem_iff, hload.spells.unlinked]
  · rintro ⟨c, n, hrun, hplaces, hrange⟩
    obtain ⟨w, vs, hw, hload⟩ := Chunk.loads_of_deserialize hm hrun
    refine ⟨w, hw, ?_, hrange⟩
    rw [← hload.spells.unlinked, List.perm_ext_iff_of_nodup hlinks hload.spells.unlinked_nodup]
    intro i
    rw [hmem, hplaces]

theorem stringsIn_le_objectCount (hf : f ∈ fs) :
    Chunk.stringsIn f.bytes ≤ objectCount fs := by
  have hmem : Chunk.stringsIn f.bytes + 1 ∈ fs.map fun f => Chunk.stringsIn f.bytes + 1 :=
    List.mem_map_of_mem hf
  exact (Nat.le_succ _).trans (List.le_sum_of_mem hmem)

/-- Every loading ends, with all pins given back but the one on the entry function. -/
theorem load_ended (hm : m.Ready held (objectCount img.functionList)) (hcode : m.Housed)
    (hlinks : ∀ f ∈ img.functionList, (f.links.map (·.1)).Nodup) :
    ∃ r n, load (.of held) img m = .ok r n ∧ Extends m n ∧ n.Ready held 0 ∧
      (∀ id, n.heap.pinCount id = m.heap.pinCount id + taken r id) ∧
      ((∃ entry, r = .ok entry) ↔ img.WellLinked held m) ∧
      ∀ entry, r = .ok entry →
        ∃ ids, Installed n img ids ∧ ids[img.entry.toInt.toNat]? = some entry := by
  have hslots : ∀ f ∈ img.functionList, (slots f.links).Nodup :=
    fun f hf => slots_nodup (hlinks f hf)
  have hready : m.Ready held 0 := hm.mono (Nat.zero_le _)
  simp only [load, branch_apply]
  split
  · next hnone =>
    refine ⟨_, m, rfl, .refl m, hready, fun _ => rfl, ?_, fun entry h => by cases h⟩
    rw [iff_false_left (not_exists_entry _)]
    exact fun hwell => hwell.functions (List.length_eq_zero_iff.1 hnone)
  · next hsome =>
    split
    · next hrange =>
      refine ⟨_, m, rfl, .refl m, hready, fun _ => rfl, ?_, fun entry h => by cases h⟩
      rw [iff_false_left (not_exists_entry _)]
      intro hwell
      have hentry := hwell.entry
      omega
    · next hrange =>
      have hentry : 0 ≤ img.entry.toInt ∧ img.entry.toInt < img.functionList.length := by omega
      obtain ⟨r, n, hload, hended⟩ :=
        loadAll_ended hentry hslots (List.nil_append _).symm (.nil m) hm hcode
      refine ⟨r, n, hload, hended.kept, hended.ready, hended.pins, ?_, hended.installed⟩
      rw [hended.success]
      have hiff : ∀ f ∈ img.functionList, (Complete img.functionList.length f ↔ _) :=
        fun f hf => complete_iff (hm.mono (stringsIn_le_objectCount hf)) (hslots f hf)
      constructor
      · intro hall
        refine ⟨fun hnil => hsome (by rw [hnil]; rfl), hentry, fun f hf => ?_⟩
        exact (hiff f hf).1 (hall f hf)
      · intro hwell f hf
        exact (hiff f hf).2 (hwell.linked f hf)

/-- What is reached with some pins more was reached before or is reached from the new pins. -/
theorem reachable_iff_of_pins {more : ObjectId → Nat} (hm : m.Ready held count) (hcode : m.Housed)
    (hkept : Extends m n) (hn : n.Reached)
    (hpins : ∀ id, n.heap.pinCount id = m.heap.pinCount id + more id)
    (id : ObjectId) : n.Reachable (.of held) id ↔
      m.Reachable (.of held) id ∨ n.Reaches (fun i => 0 < more i) id := by
  have hanchored : ∀ i, n.Anchored (.of held) i ↔ m.Anchored (.of held) i ∨ 0 < more i := by
    intro i
    rw [Anchored, Anchored, rootHolds_of, rootHolds_of, hkept.roots, hn.mem_keys_iff,
      hm.reached.mem_keys_iff, hpins, or_assoc, Nat.add_pos_iff_pos_or_pos]
  have hrefs : ∀ i, m.Reachable (.of held) i → n.references i = m.references i :=
    fun i hi => hkept.references hcode (hm.owns i hi).lt_size
  constructor
  · intro hid
    induction hid with
    | start hi => exact ((hanchored _).1 hi).imp .start .start
    | reference _ hother ih =>
      rcases ih with hi | hi
      · exact Or.inl (hi.reference (hrefs _ hi ▸ hother))
      · exact Or.inr (hi.reference hother)
  · rintro (hid | hid)
    · induction hid with
      | start hi => exact .start ((hanchored _).2 (Or.inl hi))
      | reference hi hother ih => exact ih.reference ((hrefs _ hi).symm ▸ hother)
    · exact hid.subset (fun i hi => .start ((hanchored i).2 (Or.inr hi)))
        fun _ hi _ hother => hi.reference hother

/-- The next collection keeps what was reached before and what the new pins reach. -/
theorem collect_after_load {more : ObjectId → Nat} (hm : m.Ready held count) (hcode : m.Housed)
    (hkept : Extends m n) (hn : n.Ready held spare)
    (hpins : ∀ id, n.heap.pinCount id = m.heap.pinCount id + more id) :
    ∃ k, collect (.of held) n = .ok () k ∧ ∀ id, k.Owns id ↔
      m.Reachable (.of held) id ∨ n.Reaches (fun i => 0 < more i) id := by
  obtain ⟨marks, hmarks, hcollect⟩ := collect_traced hn.reached.wellFormed hn.owns
  refine ⟨n.sweep marks, hcollect, fun id => ?_⟩
  rw [(hmarks.collectedTo hn.reached.wellFormed hn.owns).owns,
    ← reachable_iff_of_pins hm hcode hkept hn.reached hpins]
  exact and_iff_right_of_imp (hn.owns id)

/-- Loading succeeds exactly on well linked images, in whatever order the links are gone
through, and keeps the pins in balance: a failure leaves none, and what it made goes with
the next collection; a success leaves one on the entry function, which keeps what that
reaches, and everything else that was made goes with the next collection. -/
theorem load_exact {m : Memory} {held : RootId → List ObjectId} {img : Image}
    (hm : m.Ready held (objectCount img.functionList)) (hcode : m.Housed)
    (hlinks : ∀ f ∈ img.functionList, (f.links.map (·.1)).Nodup) :
    ∃ r n, load (.of held) img m = .ok r n ∧ n.Reached ∧
      ((∃ entry, r = .ok entry) ↔ img.WellLinked held m) ∧
      (∀ other, Reordered img other → ∃ r', load (.of held) other m = .ok r' n ∧
        ∀ entry, r' = .ok entry ↔ r = .ok entry) ∧
      (∀ e, r = .error e → (∀ id, n.heap.pinCount id = m.heap.pinCount id) ∧
        ∃ k, collect (.of held) n = .ok () k ∧
          ∀ id, k.Owns id ↔ m.Reachable (.of held) id) ∧
      ∀ entry, r = .ok entry →
        (∃ ids, Installed n img ids ∧ ids[img.entry.toInt.toNat]? = some entry) ∧
        (∀ id, n.heap.pinCount id = m.heap.pinCount id + if id = entry then 1 else 0) ∧
        (∀ id k, n.Reaches (· = entry) id → n.Retains entry id k → k.Owns id) ∧
        ∃ k, collect (.of held) n = .ok () k ∧
          ∀ id, k.Owns id ↔ m.Reachable (.of held) id ∨ n.Reaches (· = entry) id := by
  obtain ⟨r, n, hload, hkept, hn, hpins, hsuccess, hinstalled⟩ := load_ended hm hcode hlinks
  obtain ⟨k, hcollect, howns⟩ := collect_after_load hm hcode hkept hn hpins
  refine ⟨r, n, hload, hn.reached, hsuccess, fun other hother => ?_, ?_, ?_⟩
  · have hsame := load_reordered hother hlinks (.of held) m
    rw [hload] at hsame
    generalize load (.of held) other m = x at hsame
    cases hsame with
    | ok hentry => exact ⟨_, rfl, fun entry => (hentry entry).symm⟩
  · rintro e rfl
    refine ⟨hpins, k, hcollect, fun id => ?_⟩
    rw [howns, or_iff_left]
    have hnone : ∀ i, 0 < taken (.error e) i → False := fun _ h => absurd h (Nat.lt_irrefl 0)
    exact fun hid => hid.subset hnone fun _ h => h.elim
  · rintro entry rfl
    have htaken : (fun i => 0 < taken (.ok entry) i) = (· = entry) := by
      funext i
      by_cases hi : i = entry <;> simp [taken, hi]
    rw [htaken] at howns
    refine ⟨hinstalled entry rfl, hpins, fun id l hid hretains => ?_, k, hcollect, howns⟩
    have hpinned : 0 < n.heap.pinCount entry := by
      rw [hpins, taken, if_pos rfl]
      exact Nat.succ_pos _
    have hown := hn.owns id (reachable_of_pinned hpinned hid _)
    exact hretains.owns hn.reached.wellFormed hown

/-- Two functions that call each other, each with a string. -/
def loopSample : Image where
  version := 1
  functions := some [⟨[], 0, some Chunk.loadSample, [(1, 1)]⟩,
    ⟨[0x66], 1, some Chunk.loadSample, [(1, 0)]⟩]

theorem loopSample_links : ∀ f ∈ loopSample.functionList, (f.links.map (·.1)).Nodup := by decide

theorem loopSample_wellLinked : loopSample.WellLinked (fun _ => []) Memory.new where
  functions := List.cons_ne_nil _ _
  entry := by decide
  linked f hf := by
    have hwritten : Chunk.Wire.Written ⟨[0x00], [7], [.string [0x68, 0x69], .function]⟩
        Chunk.loadSample := Chunk.Wire.decode_eq_ok.1 rfl
    have hcomplete : Complete 2 f := by
      rcases List.mem_pair.1 hf with rfl | rfl
      · exact ⟨_, hwritten, .refl [1], List.forall_mem_singleton.2 (by decide)⟩
      · exact ⟨_, hwritten, .refl [1], List.forall_mem_singleton.2 (by decide)⟩
    exact (complete_iff (ready_new _) (slots_nodup (loopSample_links f hf))).1 hcomplete

/-- The sample is loaded into a new memory; its entry is pinned once. -/
theorem load_exact_loopSample :
    Memory.new.Ready (fun _ => []) (objectCount loopSample.functionList) ∧ Memory.new.Housed ∧
      (∀ f ∈ loopSample.functionList, (f.links.map (·.1)).Nodup) ∧
      ∃ entry n, load (.of fun _ => []) loopSample Memory.new = .ok (.ok entry) n ∧
        loopSample.WellLinked (fun _ => []) Memory.new ∧ n.heap.pinCount entry = 1 := by
  have hready := ready_new (objectCount loopSample.functionList)
  obtain ⟨r, n, hload, -, hsuccess, -, -, hentry⟩ :=
    load_exact hready housed_new loopSample_links
  obtain ⟨entry, rfl⟩ := hsuccess.2 loopSample_wellLinked
  obtain ⟨-, hpins, -⟩ := hentry entry rfl
  refine ⟨hready, housed_new, loopSample_links, entry, n, hload, loopSample_wellLinked, ?_⟩
  rw [hpins, if_pos rfl]
  rfl

end StackVm.Image
