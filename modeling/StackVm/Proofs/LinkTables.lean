/-
Link tables.  A table fills a chunk exactly when its targets exist and its slots are the
unlinked places of the chunk.  In which order the tables are gone through makes no
difference, neither to whether an image is loaded nor to what the memory becomes.
-/
import StackVm.Image.Load
import StackVm.Proofs.Relinking

namespace StackVm.Image

variable {loaded : Array Loaded} {index : Nat} {name : Text} {c d : Chunk} {links table : Links}
  {m n : Memory} {fs gs : List FunctionImage} {ls : List Loaded} {img other : Image}

/-- The slots of a link table. -/
def slots (links : Links) : List Nat := links.map fun link => link.1.toNat

theorem slots_nodup (h : (links.map (·.1)).Nodup) : (slots links).Nodup := by
  rw [slots, show (fun link : UInt8 × Int64 => link.1.toNat) = UInt8.toNat ∘ (·.1) from rfl,
    ← List.map_map]
  exact h.map fun _ _ heq => UInt8.toNat_inj.1 heq

/-! ### One table -/

theorem linkAll_cons_eq_ok {slot : UInt8} {target : Int64} :
    linkAll loaded index name c ((slot, target) :: links) = .ok d ↔
      ∃ l, at? loaded target = some l ∧ slot.toNat ∈ c.unlinked ∧
        linkAll loaded index name { c with
          constants := c.constants.setIfInBounds slot.toNat (.object l.function)
          unlinked := c.unlinked.erase slot.toNat } links = .ok d := by
  rw [linkAll]
  cases at? loaded target with
  | none => simp
  | some l =>
    dsimp only
    cases hlink : c.link slot.toNat (some l.function) with
    | ok e =>
      obtain ⟨⟨-, hmem⟩, rfl⟩ := Chunk.link_eq_ok.1 hlink
      rw [Int.toNat_natCast] at hmem
      simp [hmem]
    | error e =>
      have hmem : slot.toNat ∉ c.unlinked := by
        intro hmem
        rw [Chunk.link_eq_ok.2 ⟨⟨Int.natCast_nonneg _, by simpa using hmem⟩, rfl⟩] at hlink
        cases hlink
      simp [hmem]

/-- A table can be gone through exactly when its targets exist and its slots are the
unlinked places. -/
theorem exists_linkAll_iff : (∃ d, linkAll loaded index name c links = .ok d) ↔
    (∀ link ∈ links, ∃ l, at? loaded link.2 = some l) ∧ (slots links).Perm c.unlinked := by
  induction links generalizing c with
  | nil =>
    rw [linkAll, slots, List.map_nil, List.nil_perm]
    by_cases hc : c.unlinked = [] <;> simp [hc]
  | cons link rest ih =>
    obtain ⟨slot, target⟩ := link
    have hslots : (slots ((slot, target) :: rest)).Perm c.unlinked ↔
        slot.toNat ∈ c.unlinked ∧ (slots rest).Perm (c.unlinked.erase slot.toNat) :=
      List.cons_perm_iff_perm_erase
    rw [hslots, List.forall_mem_cons]
    constructor
    · rintro ⟨d, hd⟩
      obtain ⟨l, hl, hmem, hrest⟩ := linkAll_cons_eq_ok.1 hd
      obtain ⟨htargets, hslots⟩ := ih.1 ⟨d, hrest⟩
      exact ⟨⟨⟨l, hl⟩, htargets⟩, hmem, hslots⟩
    · rintro ⟨⟨⟨l, hl⟩, htargets⟩, hmem, hslots⟩
      obtain ⟨d, hd⟩ : ∃ d, linkAll loaded index name { c with
          constants := c.constants.setIfInBounds slot.toNat (.object l.function)
          unlinked := c.unlinked.erase slot.toNat } rest = .ok d := ih.2 ⟨htargets, hslots⟩
      exact ⟨d, linkAll_cons_eq_ok.2 ⟨l, hl, hmem, hd⟩⟩

/-- The chunk `d` is the chunk `c` with the functions of a link table in its slots. -/
structure Fills (loaded : Array Loaded) (c : Chunk) (links : Links) (d : Chunk) : Prop where
  code : d.code = c.code
  lines : d.lines = c.lines
  owned : d.owned = c.owned
  unlinked : d.unlinked = []
  size : d.constants.size = c.constants.size
  linked : ∀ link ∈ links, ∃ l, at? loaded link.2 = some l ∧
    (link.1.toNat < c.constants.size → d.constants[link.1.toNat]? = some (.object l.function))
  other : ∀ i, i ∉ slots links → d.constants[i]? = c.constants[i]?

theorem fills_of_linkAll (hlinks : (slots links).Nodup)
    (h : linkAll loaded index name c links = .ok d) : Fills loaded c links d := by
  induction links generalizing c with
  | nil =>
    rw [linkAll] at h
    split at h
    · next hc =>
      cases h
      exact ⟨rfl, rfl, rfl, hc, rfl, nofun, fun _ _ => rfl⟩
    · cases h
  | cons link rest ih =>
    obtain ⟨slot, target⟩ := link
    obtain ⟨l, hl, -, hrest⟩ := linkAll_cons_eq_ok.1 h
    obtain ⟨hslot, hnodup⟩ := List.nodup_cons.1 hlinks
    have hfills := ih hnodup hrest
    have hsize : d.constants.size = c.constants.size :=
      hfills.size.trans Array.size_setIfInBounds
    refine ⟨hfills.code, hfills.lines, hfills.owned, hfills.unlinked, hsize,
      List.forall_mem_cons.2 ⟨⟨l, hl, fun hlt => ?_⟩, fun link hmem => ?_⟩, fun i hi => ?_⟩
    · rw [hfills.other _ hslot]
      exact Array.getElem?_setIfInBounds_self_of_lt hlt
    · obtain ⟨l', hl', hset⟩ := hfills.linked link hmem
      exact ⟨l', hl', fun hlt => hset (Array.size_setIfInBounds.symm ▸ hlt)⟩
    · obtain ⟨hne, hi⟩ := not_or.1 (mt List.mem_cons.2 hi)
      rw [hfills.other i hi]
      exact Array.getElem?_setIfInBounds_ne (Ne.symm hne)

/-- The table alone decides what the chunk becomes. -/
theorem Fills.unique {e : Chunk} (h : Fills loaded c links d) (h' : Fills loaded c table e)
    (hperm : links.Perm table) : d = e := by
  have hconstants : d.constants = e.constants := by
    refine Array.ext_getElem? fun i => ?_
    by_cases hi : i ∈ slots links
    · by_cases hlt : i < c.constants.size
      · obtain ⟨link, hmem, rfl⟩ := List.mem_map.1 hi
        obtain ⟨l, hl, hset⟩ := h.linked link hmem
        obtain ⟨l', hl', hset'⟩ := h'.linked link (hperm.mem_iff.1 hmem)
        rw [hl] at hl'
        cases hl'
        rw [hset hlt, hset' hlt]
      · have hge := Nat.le_of_not_lt hlt
        rw [Array.getElem?_eq_none (h.size ▸ hge), Array.getElem?_eq_none (h'.size ▸ hge)]
    · have hi' : i ∉ slots table := mt (hperm.map _).mem_iff.2 hi
      rw [h.other i hi, h'.other i hi']
  obtain ⟨code, lines, constants, owned, unlinked⟩ := d
  obtain ⟨code', lines', constants', owned', unlinked'⟩ := e
  cases h.code.trans h'.code.symm
  cases h.lines.trans h'.lines.symm
  cases h.owned.trans h'.owned.symm
  cases h.unlinked.trans h'.unlinked.symm
  cases hconstants
  rfl

theorem linkAll_of_perm (hlinks : (slots links).Nodup) (hperm : links.Perm table)
    (h : linkAll loaded index name c links = .ok d) :
    linkAll loaded index name c table = .ok d := by
  obtain ⟨htargets, hslots⟩ := exists_linkAll_iff.1 ⟨d, h⟩
  have hpermSlots : (slots links).Perm (slots table) := hperm.map _
  obtain ⟨e, he⟩ : ∃ e, linkAll loaded index name c table = .ok e :=
    exists_linkAll_iff.2 ⟨fun link hmem => htargets link (hperm.mem_iff.2 hmem),
      hpermSlots.symm.trans hslots⟩
  have hsame := (fills_of_linkAll hlinks h).unique
    (fills_of_linkAll (hpermSlots.nodup hlinks) he) hperm
  rw [he, hsame]

theorem linkAll_perm (hlinks : (slots links).Nodup) (hperm : links.Perm table) :
    linkAll loaded index name c links = .ok d ↔ linkAll loaded index name c table = .ok d :=
  ⟨linkAll_of_perm hlinks hperm, linkAll_of_perm ((hperm.map _).nodup hlinks) hperm.symm⟩

/-! ### The tables of all functions -/

theorem linkFunctions_cons_eq_ok {f : FunctionImage} {l : Loaded} (hl : loaded[index]? = some l) :
    linkFunctions loaded m index (f :: fs) = .ok n ↔
      ∃ d, linkAll loaded index f.name (m.chunks[l.chunk]?.getD {}) f.links = .ok d ∧
        linkFunctions loaded (m.setChunk l.chunk d) (index + 1) fs = .ok n := by
  simp only [linkFunctions, hl, bind, Except.bind]
  cases linkAll loaded index f.name (m.chunks[l.chunk]?.getD {}) f.links <;> simp

/-- The table of a function fits the chunk that was made for it. -/
def Linkable (loaded : Array Loaded) (m : Memory) (f : FunctionImage) (l : Loaded) : Prop :=
  (∀ link ∈ f.links, ∃ t, at? loaded link.2 = some t) ∧
    (slots f.links).Perm (m.chunks[l.chunk]?.getD {}).unlinked

/-- Only the chunks of some functions have been linked. -/
structure Tied (loaded : Array Loaded) (m : Memory) (fs : List FunctionImage)
    (ls : List Loaded) (n : Memory) : Prop where
  heap : n.heap = m.heap
  objects : n.objects = m.objects
  size : n.chunks.size = m.chunks.size
  other : ∀ i, i ∉ ls.map (·.chunk) → n.chunks[i]? = m.chunks[i]?
  filled : List.Forall₂ (fun f l => ∀ c, m.chunks[l.chunk]? = some c →
    ∃ d, n.chunks[l.chunk]? = some d ∧ Fills loaded c f.links d) fs ls

theorem getElem?_from_succ {l : Loaded} (hls : ∀ i, loaded[index + i]? = (l :: ls)[i]?) (i : Nat) :
    loaded[index + 1 + i]? = ls[i]? := by
  rw [Nat.add_assoc, Nat.add_comm 1 i]
  exact hls (i + 1)

/-- The functions that have been made, from an index on, are given as a list. -/
theorem exists_linkFunctions_iff (hls : ∀ i, loaded[index + i]? = ls[i]?)
    (hlength : fs.length = ls.length) (hdistinct : (ls.map (·.chunk)).Nodup) :
    (∃ n, linkFunctions loaded m index fs = .ok n) ↔
      List.Forall₂ (Linkable loaded m) fs ls := by
  induction fs generalizing m index ls with
  | nil =>
    rw [List.length_eq_zero_iff.1 hlength.symm]
    exact ⟨fun _ => .nil, fun _ => ⟨m, rfl⟩⟩
  | cons f rest ih =>
    obtain - | ⟨l, ls⟩ := ls
    · cases hlength
    obtain ⟨hfirst, hdistinct⟩ := List.nodup_cons.1 hdistinct
    have hl : loaded[index]? = some l := hls 0
    have hls' := getElem?_from_succ hls
    -- Linking the first chunk leaves the chunks of the other functions alone.
    have hrest : ∀ d, (List.Forall₂ (Linkable loaded (m.setChunk l.chunk d)) rest ls ↔
        List.Forall₂ (Linkable loaded m) rest ls) := by
      refine fun d => forall₂_congr_right fun f x hx => ?_
      have hne : l.chunk ≠ x.chunk := fun heq => hfirst (List.mem_map.2 ⟨x, hx, heq.symm⟩)
      rw [Linkable, Memory.setChunk_of_ne hne, Linkable]
    rw [List.forall₂_cons]
    constructor
    · rintro ⟨n, hn⟩
      obtain ⟨d, hd, hn⟩ := (linkFunctions_cons_eq_ok hl).1 hn
      exact ⟨exists_linkAll_iff.1 ⟨d, hd⟩,
        (hrest d).1 ((ih hls' (Nat.succ.inj hlength) hdistinct).1 ⟨n, hn⟩)⟩
    · rintro ⟨hlinkable, htail⟩
      obtain ⟨d, hd⟩ := exists_linkAll_iff.2 hlinkable
      obtain ⟨n, hn⟩ := (ih hls' (Nat.succ.inj hlength) hdistinct).2 ((hrest d).2 htail)
      exact ⟨n, (linkFunctions_cons_eq_ok hl).2 ⟨d, hd, hn⟩⟩

theorem tied_of_linkFunctions (hls : ∀ i, loaded[index + i]? = ls[i]?)
    (hlength : fs.length = ls.length) (hdistinct : (ls.map (·.chunk)).Nodup)
    (hlinks : ∀ f ∈ fs, (slots f.links).Nodup) (h : linkFunctions loaded m index fs = .ok n) :
    Tied loaded m fs ls n := by
  induction fs generalizing m index ls with
  | nil =>
    cases h
    rw [List.length_eq_zero_iff.1 hlength.symm]
    exact ⟨rfl, rfl, rfl, fun _ _ => rfl, .nil⟩
  | cons f rest ih =>
    obtain - | ⟨l, ls⟩ := ls
    · cases hlength
    obtain ⟨hfirst, hdistinct⟩ := List.nodup_cons.1 hdistinct
    obtain ⟨hf, hlinks⟩ := List.forall_mem_cons.1 hlinks
    have hl : loaded[index]? = some l := hls 0
    have hls' := getElem?_from_succ hls
    obtain ⟨d, hd, hn⟩ := (linkFunctions_cons_eq_ok hl).1 h
    have htied := ih hls' (Nat.succ.inj hlength) hdistinct hlinks hn
    refine ⟨htied.heap, htied.objects, htied.size.trans Array.size_setIfInBounds,
      fun i hi => ?_, .cons (fun c hc => ⟨d, ?_, ?_⟩) ?_⟩
    · obtain ⟨hne, hi⟩ := not_or.1 (mt List.mem_cons.2 hi)
      rw [htied.other i hi, Memory.setChunk_of_ne (Ne.symm hne)]
    · rw [htied.other _ hfirst]
      exact Array.getElem?_setIfInBounds_self_of_lt (Array.getElem?_eq_some_iff.1 hc).1
    · rw [hc] at hd
      exact fills_of_linkAll hf hd
    · refine (forall₂_congr_right fun f x hx => ?_).1 htied.filled
      have hne : l.chunk ≠ x.chunk := fun heq => hfirst (List.mem_map.2 ⟨x, hx, heq.symm⟩)
      rw [Memory.setChunk_of_ne hne]

/-! ### The order of the links -/

/-- The same function with its links in another order. -/
def Reorders (f g : FunctionImage) : Prop :=
  ∃ table, f.links.Perm table ∧ g = { f with links := table }

/-- The same image with the links of each function in another order. -/
structure Reordered (img other : Image) : Prop where
  entry : other.entry = img.entry
  functions : List.Forall₂ Reorders img.functionList other.functionList

/-- Two ends with the same memory, both with the same entry function or both without one. -/
inductive SameEnd : EStateM.Result Fault Memory (Except LoadError ObjectId) →
    EStateM.Result Fault Memory (Except LoadError ObjectId) → Prop
  | ok {r r' : Except LoadError ObjectId} {m : Memory} :
      (∀ entry, r = .ok entry ↔ r' = .ok entry) → SameEnd (.ok r m) (.ok r' m)
  | error {f : Fault} {m : Memory} : SameEnd (.error f m) (.error f m)

theorem SameEnd.refl (x : EStateM.Result Fault Memory (Except LoadError ObjectId)) :
    SameEnd x x := by
  cases x with
  | ok r m => exact .ok fun _ => Iff.rfl
  | error f m => exact .error

theorem linkFunctions_reorders (h : List.Forall₂ Reorders fs gs)
    (hlinks : ∀ f ∈ fs, (slots f.links).Nodup) :
    linkFunctions loaded m index fs = .ok n ↔ linkFunctions loaded m index gs = .ok n := by
  induction h generalizing m index with
  | nil => exact Iff.rfl
  | cons hfirst hrest ih =>
    obtain ⟨hf, hlinks⟩ := List.forall_mem_cons.1 hlinks
    obtain ⟨table, hperm, rfl⟩ := hfirst
    cases hl : loaded[index]? with
    | none =>
      rw [linkFunctions, linkFunctions, hl]
    | some l =>
      rw [linkFunctions_cons_eq_ok hl, linkFunctions_cons_eq_ok hl]
      exact exists_congr fun d => and_congr (linkAll_perm hf hperm) (ih hlinks)

theorem finish_reordered (h : Reordered img other)
    (hlinks : ∀ f ∈ img.functionList, (slots f.links).Nodup) (loaded : Array Loaded)
    (m : Memory) : SameEnd (finish img loaded m) (finish other loaded m) := by
  have hsame : ∀ n, linkFunctions loaded m 0 img.functionList = .ok n ↔
      linkFunctions loaded m 0 other.functionList = .ok n := fun n =>
    linkFunctions_reorders h.functions hlinks
  simp only [finish, bind_apply, get_apply, h.entry]
  cases hfirst : linkFunctions loaded m 0 img.functionList with
  | ok n =>
    rw [(hsame n).1 hfirst]
    exact .refl _
  | error e =>
    cases hsecond : linkFunctions loaded m 0 other.functionList with
    | ok n =>
      rw [(hsame n).2 hsecond] at hfirst
      cases hfirst
    | error e' => exact .ok fun _ => ⟨nofun, nofun⟩

theorem SameEnd.ensuring {act act' : MemoryM (Except LoadError ObjectId)}
    (h : SameEnd (act m) (act' m)) (cleanup : Memory → Memory) :
    SameEnd (Image.ensuring act cleanup m) (Image.ensuring act' cleanup m) := by
  rw [Image.ensuring, Image.ensuring]
  generalize act m = x at h
  generalize act' m = y at h
  cases h with
  | ok hentry => exact .ok hentry
  | error => exact .error

theorem loadAll_reordered (h : Reordered img other)
    (hlinks : ∀ f ∈ img.functionList, (slots f.links).Nodup)
    (hfs : List.Forall₂ Reorders fs gs) (holdings : Holdings) (loaded : Array Loaded)
    (m : Memory) :
    SameEnd (loadAll holdings img loaded fs m) (loadAll holdings other loaded gs m) := by
  induction hfs generalizing loaded m with
  | nil => exact finish_reordered h hlinks loaded m
  | @cons f g fs gs hfirst hrest ih =>
    obtain ⟨table, -, rfl⟩ := hfirst
    -- A function is made from everything but its links.
    have hmade : loadFunction holdings loaded.size { f with links := table } m =
        loadFunction holdings loaded.size f m := rfl
    simp only [loadAll, bind_apply, hmade]
    cases loadFunction holdings loaded.size f m with
    | error e n => exact .error
    | ok r n =>
      cases r with
      | error e => exact .refl _
      | ok l => exact (ih (loaded.push l) n).ensuring _

/-- The order in which link tables are gone through makes no difference. -/
theorem load_reordered (h : Reordered img other)
    (hlinks : ∀ f ∈ img.functionList, (f.links.map (·.1)).Nodup) (holdings : Holdings)
    (m : Memory) : SameEnd (load holdings img m) (load holdings other m) := by
  have hlength := h.functions.length_eq
  simp only [load, ← hlength, h.entry, branch_apply]
  split
  · exact .refl _
  · split
    · exact .refl _
    · exact loadAll_reordered h (fun f hf => slots_nodup (hlinks f hf)) h.functions holdings #[] m

end StackVm.Image
