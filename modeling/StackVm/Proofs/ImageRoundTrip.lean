/-
Building an image and loading it again.  The functions that the entry leads to come back as
new ones that call each other in the same way, with the same code and the same constants.
-/
import Mathlib.Data.Set.Function
import StackVm.Proofs.ImageBuilding
import StackVm.Proofs.ImageLoading

namespace StackVm

open Relation (ReflTransGen)

namespace Memory

/-- Two constants that are no functions are the same: scalars, or strings with the same
content. -/
inductive Matches (m n : Memory) : Value → Value → Prop
  | scalar {v : Value} : v.id? = none → Matches m n v v
  | string {i j : ObjectId} {data : Text} : m.string? i = some data → n.string? j = some data →
      Matches m n (.object i) (.object j)

/-- The chunk `d` of the memory `n` is the chunk `c` of the memory `m` again, with the
functions that `renew` gives in the place of those that it has. -/
structure Recodes (m n : Memory) (renew : ObjectId → ObjectId) (c d : Chunk) : Prop where
  code : d.code = c.code
  lines : d.lines = c.lines
  size : d.constants.size = c.constants.size
  unlinked : d.unlinked = []
  function : ∀ (index : Nat) i, c.constants[index]? = some (.object i) →
    (∃ f, m.function? i = some f) → d.constants[index]? = some (.object (renew i))
  /-- The other constants are equal, also in the sense of a memory that has both. -/
  other : ∀ (index : Nat) v, c.constants[index]? = some v → ¬ Chunk.IsFunction m v →
    ∃ x, d.constants[index]? = some x ∧ m.Matches n v x ∧
      ((∀ id data, m.string? id = some data → n.string? id = some data) → n.equal v x = true)

/-- The function `renew i` of the memory `n` is the function `i` of the memory `m` again. -/
def Recreates (m n : Memory) (renew : ObjectId → ObjectId) (i : ObjectId) : Prop :=
  ∃ f c g d, m.function? i = some f ∧ m.chunkOf? f = some c ∧ n.function? (renew i) = some g ∧
    n.chunkOf? g = some d ∧ g.name = f.name ∧ g.arity = f.arity ∧ m.Recodes n renew c d

/-- What `b` leads to in the memory `n` is what `a` leads to in the memory `m`, function by
function. -/
structure Isomorphic (m : Memory) (a : ObjectId) (n : Memory) (b : ObjectId)
    (renew : ObjectId → ObjectId) : Prop where
  entry : renew a = b
  bijection : Set.BijOn renew {i | ReflTransGen m.Calls a i} {j | ReflTransGen n.Calls b j}
  recreates : ∀ i, ReflTransGen m.Calls a i → m.Recreates n renew i

variable {m n : Memory} {renew : ObjectId → ObjectId} {a b i j : ObjectId} {c d : Chunk}

theorem Matches.not_function {v : Value} (h : m.Matches n v (.object j)) :
    ¬ ∃ f, n.function? j = some f := by
  rintro ⟨f, hf⟩
  cases h with
  | scalar hid => cases hid
  | string _ hdata =>
    have hpayload := function?_eq_some.1 hf
    rw [string?_eq_some.1 hdata] at hpayload
    cases hpayload

/-- The new function calls the new functions of those that the old one calls. -/
theorem Recreates.calls_iff (h : m.Recreates n renew i)
    (hcallees : ∀ k, m.Calls i k → ∃ f, n.function? (renew k) = some f) :
    n.Calls (renew i) j ↔ ∃ k, m.Calls i k ∧ renew k = j := by
  obtain ⟨f, c, g, d, hf, hc, hg, hd, -, -, hcode⟩ := h
  have hcalls : ∀ k, m.Calls i k ↔ .object k ∈ c.constants ∧ ∃ f, m.function? k = some f :=
    fun k => Memory.calls_iff hf hc
  rw [Memory.calls_iff hg hd]
  constructor
  · rintro ⟨hj, hfunction⟩
    obtain ⟨index, hindex⟩ := Array.mem_iff_getElem?.1 hj
    have hlt : index < c.constants.size :=
      hcode.size ▸ (Array.getElem?_eq_some_iff.1 hindex).1
    have hv := Array.getElem?_eq_getElem hlt
    by_cases hcase : Chunk.IsFunction m c.constants[index]
    · obtain ⟨k, e, heq, he⟩ := hcase
      rw [heq] at hv
      rw [hcode.function index k hv ⟨e, he⟩] at hindex
      cases hindex
      exact ⟨k, (hcalls k).2 ⟨Array.mem_of_getElem? hv, e, he⟩, rfl⟩
    · obtain ⟨x, hx, hmatches, -⟩ := hcode.other index _ hv hcase
      rw [hindex] at hx
      cases hx
      exact absurd hfunction hmatches.not_function
  · rintro ⟨k, hk, rfl⟩
    obtain ⟨hmem, hfunction⟩ := (hcalls k).1 hk
    obtain ⟨index, hindex⟩ := Array.mem_iff_getElem?.1 hmem
    exact ⟨Array.mem_of_getElem? (hcode.function index k hindex hfunction), hcallees k hk⟩

/-- Functions that come back one by one come back as a whole. -/
theorem isomorphic_of_recreates (hentry : renew a = b)
    (hinj : Set.InjOn renew {i | ReflTransGen m.Calls a i})
    (hall : ∀ i, ReflTransGen m.Calls a i → m.Recreates n renew i) : Isomorphic m a n b renew := by
  have hcalls : ∀ i j, ReflTransGen m.Calls a i →
      (n.Calls (renew i) j ↔ ∃ k, m.Calls i k ∧ renew k = j) := by
    refine fun i j hi => (hall i hi).calls_iff fun k hk => ?_
    obtain ⟨-, -, g, -, -, -, hg, -⟩ := hall k (hi.tail hk)
    exact ⟨g, hg⟩
  refine ⟨hentry, ⟨fun i hi => ?_, hinj, fun j hj => ?_⟩, hall⟩
  · change ReflTransGen n.Calls b (renew i)
    induction hi with
    | refl => rw [hentry]
    | tail hi hk ih => exact ih.tail ((hcalls _ _ hi).2 ⟨_, hk, rfl⟩)
  · change ∃ i, ReflTransGen m.Calls a i ∧ renew i = j
    induction hj with
    | refl => exact ⟨a, .refl, hentry⟩
    | tail _ hk ih =>
      obtain ⟨i, hi, rfl⟩ := ih
      obtain ⟨k, hik, rfl⟩ := (hcalls _ _ hi).1 hk
      exact ⟨k, hi.tail hik, rfl⟩

end Memory

/-- What a written value is loaded as has the same content. -/
theorem Chunk.Writes.same_content {m n : Memory} {v x : Value} {w : Chunk.WireConstant}
    (h : Chunk.Writes m v w) (hx : w.Stands n x) (hv : ¬ Chunk.IsFunction m v) :
    m.Matches n v x := by
  cases h with
  | string hdata =>
    obtain ⟨j, rfl, hj⟩ := hx
    exact .string hdata hj
  | function hf => exact absurd ⟨_, _, rfl, hf⟩ hv
  | _ =>
    cases hx
    exact .scalar rfl

namespace Image

open Memory

variable {m n k : Memory} {held : RootId → List ObjectId} {ids news : List ObjectId}
  {g : Function} {c : Chunk} {w : Chunk.Wire} {f : FunctionImage} {img : Image}
  {entry i j : ObjectId} {p : Nat}

/-! ### The image is well linked -/

theorem Depicts.links_nodup (h : Depicts m ids g c w f) : (f.links.map (·.1)).Nodup :=
  List.pairwise_map.2 (h.sorted.imp UInt8.ne_of_lt)

/-- Every function among the constants is linked. -/
theorem Depicts.exists_link (h : Depicts m ids g c w f) {index : Nat}
    (hi : c.constants[index]? = some (.object i)) (hf : ∃ f, m.function? i = some f) :
    ∃ link ∈ f.links, link.1.toNat = index ∧ link.2 = Int64.ofNat (ids.idxOf i) := by
  obtain ⟨e, he⟩ := hf
  have hslot := toNat_slot (h.places index _ hi ⟨i, e, rfl, he⟩)
  refine ⟨(index.toUInt8, Int64.ofNat (ids.idxOf i)), ?_, hslot, rfl⟩
  rw [h.links]
  exact ⟨index, i, Array.getElem?_toList ▸ hi, ⟨e, he⟩, hslot.trans (Nat.zero_add _).symm, rfl⟩

/-- The slots of the link table are the places of the functions. -/
theorem Depicts.mem_slots_iff (h : Depicts m ids g c w f) (i : Nat) :
    i ∈ slots f.links ↔ i ∈ Chunk.functionsFrom 0 w.constants := by
  rw [slots, List.mem_map, Chunk.mem_functionsFrom]
  simp only [Nat.zero_add, exists_eq_left', h.renders.function_iff]
  constructor
  · rintro ⟨link, hlink, rfl⟩
    obtain ⟨i, id, hi, ⟨e, he⟩, hslot, -⟩ := (h.links link).1 hlink
    rw [Nat.zero_add] at hslot
    rw [hslot]
    exact ⟨_, Array.getElem?_toList ▸ hi, id, e, rfl, he⟩
  · rintro ⟨_, hv, id, e, rfl, he⟩
    obtain ⟨link, hlink, hslot, -⟩ := h.exists_link hv ⟨e, he⟩
    exact ⟨link, hlink, hslot⟩

/-- A target is the place of its function, which fits in a machine word. -/
theorem toInt_target (hcount : ids.length ≤ 2 ^ 63) (hi : i ∈ ids) :
    (Int64.ofNat (ids.idxOf i)).toInt = ids.idxOf i := by
  have hlt := List.idxOf_lt_length_iff.2 hi
  exact Int64.toInt_ofNat_of_lt (by omega)

theorem Depicts.complete (h : Depicts m ids g c w f) (hcount : ids.length ≤ 2 ^ 63) :
    Complete ids.length f := by
  refine ⟨w, h.written, ?_, fun link hlink => ?_⟩
  · rw [List.perm_ext_iff_of_nodup (slots_nodup h.links_nodup)
      ((Chunk.functionsFrom_sorted _ _).imp Nat.ne_of_lt)]
    exact h.mem_slots_iff
  · obtain ⟨i, id, hi, hf, -, htarget⟩ := (h.links link).1 hlink
    have hid := h.listed id (Array.mem_toList_iff.1 (List.mem_of_getElem? hi)) hf
    have hlt := List.idxOf_lt_length_iff.2 hid
    rw [htarget, toInt_target hcount hid]
    omega

theorem Portrays.depicts (h : Portrays m entry ids img.functionList)
    (hf : f ∈ img.functionList) : ∃ g c w, Depicts m ids g c w f := by
  obtain ⟨id, -, g, c, w, -, -, -, hdepicts⟩ := exists_mem_left h.pictured hf
  exact ⟨g, c, w, hdepicts⟩

/-- What has been built is loaded wherever there is room for it. -/
theorem Portrays.load (h : Portrays m entry ids img.functionList) (hentry : img.entry = 0)
    (hcount : ids.length ≤ 2 ^ 63) (hk : k.Ready held (objectCount img.functionList))
    (hcode : k.Housed) : ∃ b n news, Image.load (.of held) img k = .ok (.ok b) n ∧
      Extends k n ∧ Installed n img news ∧ news[0]? = some b := by
  have hlinks : ∀ f ∈ img.functionList, (f.links.map (·.1)).Nodup := by
    intro f hf
    obtain ⟨g, c, w, hdepicts⟩ := h.depicts hf
    exact hdepicts.links_nodup
  have hlength := h.pictured.length_eq
  have hpos := (List.getElem?_eq_some_iff.1 h.first).1
  have hwell : img.WellLinked held k := by
    refine ⟨fun hnil => ?_, ?_, fun f hf => ?_⟩
    · rw [hnil, List.length_nil] at hlength
      omega
    · rw [hentry, Int64.toInt_zero]
      omega
    · obtain ⟨g, c, w, hdepicts⟩ := h.depicts hf
      have hroom := hk.mono (stringsIn_le_objectCount hf)
      rw [← complete_iff hroom (slots_nodup (hlinks f hf)), ← hlength]
      exact hdepicts.complete hcount
  obtain ⟨r, n, hload, hkept, -, -, hsuccess, hinstalled⟩ := load_ended hk hcode hlinks
  obtain ⟨b, rfl⟩ := hsuccess.2 hwell
  obtain ⟨news, hnews, hplace⟩ := hinstalled b rfl
  rw [hentry] at hplace
  exact ⟨b, n, news, hload, hkept, hnews, hplace⟩

/-! ### The functions come back -/

/-- The new identity of a function: it has the same place in another list. -/
def renewal (ids news : List ObjectId) (i : ObjectId) : ObjectId :=
  (news[ids.idxOf i]?).getD 0

theorem renewal_eq (hids : ids.Nodup) (hi : ids[p]? = some i) (hj : news[p]? = some j) :
    renewal ids news i = j := by
  obtain ⟨hlt, rfl⟩ := List.getElem?_eq_some_iff.1 hi
  rw [renewal, hids.idxOf_getElem, hj]
  rfl

/-- A function whose image has been loaded has come back. -/
theorem Pictured.recreates (h : Pictured m ids i f) (hcount : ids.length ≤ 2 ^ 63)
    (hhosts : Hosts n news f (renewal ids news i)) :
    m.Recreates n (renewal ids news) i := by
  obtain ⟨g, c, w, hg, hc, hstorable, h⟩ := h
  obtain ⟨chunk, w', d, hfunction, hd, hw', hholds⟩ := hhosts
  cases (Chunk.Wire.decode_eq_ok.2 hw').symm.trans (Chunk.Wire.decode_eq_ok.2 h.written)
  refine ⟨g, c, _, d, hg, hc, hfunction, hd, h.name, h.arity, ?_, ?_, ?_, hholds.unlinked, ?_, ?_⟩
  · apply Array.toList_inj.1
    rw [hholds.code, h.renders.code]
  · apply Array.toList_inj.1
    rw [hholds.lines, h.renders.lines_eq hstorable]
  · have hlength := h.renders.constants.length_eq
    rw [hholds.size, ← hlength, Array.length_toList]
  · intro index k hk hfunction
    obtain ⟨link, hlink, hslot, htarget⟩ := h.exists_link hk hfunction
    obtain ⟨id, hid, hset⟩ := hholds.linked link hlink
    have hmem := h.listed k (Array.mem_of_getElem? hk) hfunction
    rw [htarget, toInt_target hcount hmem, Int.toNat_natCast] at hid
    rw [← hslot, hset, renewal, hid]
    rfl
  · intro index v hv hnot
    have hrel := forall₂_iff_getElem?.1 h.renders.constants index
    rw [Array.getElem?_toList, hv] at hrel
    obtain ⟨k, hk, hwrites⟩ := exists_of_rel_some hrel
    have hne : k ≠ .function := fun heq => hnot (hwrites.function_iff.1 heq)
    obtain ⟨x, hx, hstands⟩ := hholds.other index k hk hne
    exact ⟨x, hx, hwrites.same_content hstands hnot, hwrites.equal hstands hnot⟩

/-- The functions of an image that has been loaded are where they were listed. -/
theorem Portrays.exists_place (h : Portrays m entry ids img.functionList)
    (hinstalled : Installed n img news) (hi : i ∈ ids) :
    ∃ (p : Nat) (f : FunctionImage) (j : ObjectId), ids[p]? = some i ∧ news[p]? = some j ∧
      Pictured m ids i f ∧ Hosts n news f j := by
  obtain ⟨p, hp⟩ := List.mem_iff_getElem?.1 hi
  have hpictured := forall₂_iff_getElem?.1 h.pictured p
  rw [hp] at hpictured
  obtain ⟨f, hf, hpictured⟩ := exists_of_rel_some hpictured
  have hhosts := forall₂_iff_getElem?.1 hinstalled.hosts p
  rw [hf] at hhosts
  obtain ⟨j, hj, hhosts⟩ := exists_of_rel_some hhosts
  exact ⟨p, f, j, hp, hj, hpictured, hhosts⟩

/-- What has been built is loaded as what it was built from. -/
theorem Portrays.isomorphic (h : Portrays m entry ids img.functionList) (hzero : img.entry = 0)
    (hcount : ids.length ≤ 2 ^ 63) (hk : k.Ready held (objectCount img.functionList))
    (hcode : k.Housed) : ∃ b n renew, Image.load (.of held) img k = .ok (.ok b) n ∧
      Extends k n ∧ m.Isomorphic entry n b renew := by
  obtain ⟨b, n, news, hload, hkept, hinstalled, hb⟩ := h.load hzero hcount hk hcode
  refine ⟨b, n, renewal ids news, hload, hkept, ?_⟩
  refine isomorphic_of_recreates (renewal_eq h.nodup h.first hb) ?_ ?_
  · intro i hi i' hi' hsame
    obtain ⟨p, -, j, hp, hj, -⟩ := h.exists_place hinstalled ((h.mem i).2 hi)
    obtain ⟨p', -, j', hp', hj', -⟩ := h.exists_place hinstalled ((h.mem i').2 hi')
    rw [renewal_eq h.nodup hp hj, renewal_eq h.nodup hp' hj'] at hsame
    have hlt : p < news.length := (List.getElem?_eq_some_iff.1 hj).1
    have hplace : p = p' :=
      (List.getElem?_inj hlt hinstalled.nodup).1 (hj.trans (hsame ▸ hj'.symm))
    rw [hplace, hp'] at hp
    exact (Option.some.inj hp).symm
  · intro i hi
    obtain ⟨p, f, j, hp, hj, hpictured, hhosts⟩ := h.exists_place hinstalled ((h.mem i).2 hi)
    rw [← renewal_eq h.nodup hp hj] at hhosts
    exact hpictured.recreates hcount hhosts

/-- The functions that are listed are those that the entry leads to. -/
theorem Portrays.length_eq (h : Portrays m entry ids img.functionList) :
    ids.length = {id | ReflTransGen m.Calls entry id}.ncard := by
  have hset : {id | ReflTransGen m.Calls entry id} = (ids.toFinset : Set ObjectId) := by
    ext id
    rw [Set.mem_ofPred_eq, List.coe_toFinset, Set.mem_ofPred_eq, h.mem]
  rw [hset, Set.ncard_coe_finset, List.toFinset_card_of_nodup h.nodup]

/-- An image that is built is loaded as what it was built from: each function that the entry
leads to is listed once, the entry first, and comes back with the same name, arity, code and
lines, calling the new functions where it called the old ones, with its other constants equal.
A link names a place of the list in a machine word, which is all that bounds the list. -/
theorem build_load {m : Memory} {entry : ObjectId}
    (hall : ∀ id, ReflTransGen m.Calls entry id → m.Packable id)
    (hcount : {id | ReflTransGen m.Calls entry id}.ncard ≤ 2 ^ 63) :
    ∃ img ids, build m (some entry) = .ok img ∧ img.entry = 0 ∧
      Portrays m entry ids img.functionList ∧
      ∀ (k : Memory) (held : RootId → List ObjectId),
        k.Ready held (objectCount img.functionList) → k.Housed →
        ∃ b n renew, load (.of held) img k = .ok (.ok b) n ∧ Extends k n ∧
          m.Isomorphic entry n b renew := by
  obtain ⟨img, ids, hbuild, hzero, hportrays⟩ := build_portrays hall
  refine ⟨img, ids, hbuild, hzero, hportrays, fun k held hk hcode => ?_⟩
  exact hportrays.isomorphic hzero (hportrays.length_eq.trans_le hcount) hk hcode

/-- Two functions that call each other; the first one has a string. -/
def ringSample : Memory where
  heap := Heap.create 0 .standard
  objects := #[⟨.function { name := [0x66], chunk := some 0 }, none⟩,
    ⟨.function { arity := 1, chunk := some 1 }, none⟩, ⟨.string [0x68, 0x69], none⟩]
  chunks := #[{ code := #[0x00], lines := #[7], constants := #[.object 2, .object 1] },
    { code := #[0x00], lines := #[-7], constants := #[.object 0] }]

theorem ringSample_calls_zero (j : ObjectId) (h : ringSample.Calls 0 j) : j = 1 := by
  obtain ⟨hj, f, hf⟩ := (Memory.calls_iff (m := ringSample) rfl rfl).1 h
  have hj : j = 2 ∨ j = 1 := by simpa [ringSample] using hj
  rcases hj with rfl | rfl
  · cases hf
  · rfl

theorem ringSample_calls_one (j : ObjectId) (h : ringSample.Calls 1 j) : j = 0 := by
  obtain ⟨hj, -⟩ := (Memory.calls_iff (m := ringSample) rfl rfl).1 h
  simpa [ringSample] using hj

/-- The two functions lead to nothing else. -/
theorem ringSample_leads (j : ObjectId) (h : ReflTransGen ringSample.Calls 0 j) :
    j = 0 ∨ j = 1 := by
  induction h with
  | refl => exact Or.inl rfl
  | tail _ hcalls ih =>
    rcases ih with rfl | rfl
    · exact Or.inr (ringSample_calls_zero _ hcalls)
    · exact Or.inl (ringSample_calls_one _ hcalls)

theorem ringSample_ncard_le : {id | ReflTransGen ringSample.Calls 0 id}.ncard ≤ 2 ^ 63 := by
  have hsub : {id | ReflTransGen ringSample.Calls 0 id} ⊆ {0, 1} := ringSample_leads
  have hle := Set.ncard_le_ncard hsub
  rw [Set.ncard_pair Nat.zero_ne_one] at hle
  omega

theorem ringSample_packable (j : ObjectId) (h : ReflTransGen ringSample.Calls 0 j) :
    ringSample.Packable j := by
  rcases ringSample_leads j h with rfl | rfl
  · refine ⟨_, _, rfl, rfl, ⟨by decide, by decide, by decide, by simp [ringSample], fun v hv => ?_⟩,
      fun i v hv _ => ?_⟩
    · rcases List.mem_pair.1 (Array.mem_toList_iff.2 hv) with rfl | rfl
      · exact @Chunk.Writable.string _ 2 [0x68, 0x69] rfl (by decide)
      · exact .function ⟨1, _, rfl, rfl⟩
    · have hlt : i < 2 := (Array.getElem?_eq_some_iff.1 hv).1
      omega
  · refine ⟨_, _, rfl, rfl, ⟨by decide, by decide, by decide, by simp [ringSample], fun v hv => ?_⟩,
      fun i v hv _ => ?_⟩
    · cases List.mem_singleton.1 (Array.mem_toList_iff.2 hv)
      exact .function ⟨0, _, rfl, rfl⟩
    · have hlt : i < 1 := (Array.getElem?_eq_some_iff.1 hv).1
      omega

/-- The two functions come back in a new memory. -/
theorem build_load_ringSample :
    (∀ id, ReflTransGen ringSample.Calls 0 id → ringSample.Packable id) ∧
      {id | ReflTransGen ringSample.Calls 0 id}.ncard ≤ 2 ^ 63 ∧
      ∃ img, build ringSample (some 0) = .ok img ∧
        ∃ b n renew, load (.of fun _ => []) img Memory.new = .ok (.ok b) n ∧
          ringSample.Isomorphic 0 n b renew := by
  have hcount := ringSample_ncard_le
  obtain ⟨img, _, hbuild, -, -, hload⟩ := build_load ringSample_packable hcount
  obtain ⟨b, n, renew, hrun, -, hsame⟩ := hload Memory.new (fun _ => [])
    (ready_new _) housed_new
  exact ⟨ringSample_packable, hcount, img, hbuild, b, n, renew, hrun, hsame⟩

end Image

end StackVm
