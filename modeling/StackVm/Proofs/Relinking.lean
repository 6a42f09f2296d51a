/-
Writing a loaded chunk again.  A place that has been linked since is written as the
function it holds; a place that still awaits its function is written as the nil it
holds, so the next loading does not list it.
-/
import StackVm.Proofs.RoundTrip

namespace StackVm.Chunk

open Text

/-- Some unlinked places of a chunk have been linked to functions of a memory. -/
inductive Linked (k : Memory) (c : Chunk) : Chunk → Prop
  | start : Linked k c c
  | link {d e : Chunk} {index : Int} {id : ObjectId} : Linked k c d →
      (∃ f, k.function? id = some f) → d.link index (some id) = .ok e → Linked k c e

variable {m n k : Memory} {held : RootId → List ObjectId} {c d e : Chunk} {w : Wire} {t : Text}

/-! ### Linking -/

/-- A link succeeds exactly at an unlinked place, which then holds the function. -/
theorem link_eq_ok {index : Int} {id : ObjectId} :
    d.link index (some id) = .ok e ↔ (0 ≤ index ∧ index.toNat ∈ d.unlinked) ∧
      e = { d with
        constants := d.constants.setIfInBounds index.toNat (.object id)
        unlinked := d.unlinked.erase index.toNat } := by
  rw [link]
  split
  · next h => simp [h, eq_comm]
  · next h => simp [h]

/-- What linking changes about a chunk: the places that are no longer unlinked hold functions. -/
structure Relinks (k : Memory) (c d : Chunk) : Prop where
  code : d.code = c.code
  lines : d.lines = c.lines
  size : d.constants.size = c.constants.size
  nodup : d.unlinked.Nodup
  awaiting : ∀ i ∈ d.unlinked, i ∈ c.unlinked
  linked : ∀ i ∈ c.unlinked, i ∉ d.unlinked → ∃ v, d.constants[i]? = some v ∧ IsFunction k v
  other : ∀ i, i ∉ c.unlinked ∨ i ∈ d.unlinked → d.constants[i]? = c.constants[i]?

theorem Relinks.refl (hc : c.unlinked.Nodup) : Relinks k c c where
  code := rfl
  lines := rfl
  size := rfl
  nodup := hc
  awaiting _ hi := hi
  linked _ hi hnot := absurd hi hnot
  other _ _ := rfl

/-- One more place is linked. -/
theorem Relinks.link (h : Relinks k c d) {place : Nat} (hmem : place ∈ d.unlinked)
    (hlt : place < c.constants.size) {id : ObjectId} (hf : ∃ f, k.function? id = some f) :
    Relinks k c { d with
      constants := d.constants.setIfInBounds place (.object id)
      unlinked := d.unlinked.erase place } where
  code := h.code
  lines := h.lines
  size := by rw [Array.size_setIfInBounds, h.size]
  nodup := h.nodup.erase _
  awaiting i hi := h.awaiting i (List.mem_of_mem_erase hi)
  linked := by
    intro i hi hnot
    rw [h.nodup.mem_erase_iff, not_and] at hnot
    by_cases heq : i = place
    · subst heq
      obtain ⟨f, hf⟩ := hf
      refine ⟨.object id, ?_, id, f, rfl, hf⟩
      rw [Array.getElem?_setIfInBounds_self_of_lt (h.size ▸ hlt)]
    · obtain ⟨v, hv, hfunction⟩ := h.linked i hi (hnot heq)
      exact ⟨v, by rw [Array.getElem?_setIfInBounds_ne (Ne.symm heq), hv], hfunction⟩
  other := by
    intro i hi
    have hne : place ≠ i := by
      rintro rfl
      rcases hi with hi | hi
      · exact hi (h.awaiting _ hmem)
      · exact (h.nodup.mem_erase_iff.1 hi).1 rfl
    rw [Array.getElem?_setIfInBounds_ne hne]
    exact h.other i (hi.imp_right List.mem_of_mem_erase)

theorem Linked.relinks (hc : c.unlinked.Nodup) (hlt : ∀ i ∈ c.unlinked, i < c.constants.size)
    (h : Linked k c d) : Relinks k c d := by
  induction h with
  | start => exact .refl hc
  | link _ hf hlink ih =>
    obtain ⟨⟨-, hmem⟩, rfl⟩ := link_eq_ok.1 hlink
    exact ih.link hmem (hlt _ (ih.awaiting _ hmem)) hf

/-! ### Loaded chunks -/

theorem length_lt_of_series {cs : List WireConstant} (h : Series WireConstant.Written cs t)
    {data : Text} (hdata : .string data ∈ cs) : data.length < 2 ^ 32 := by
  induction h with
  | nil => cases hdata
  | cons hc _ ih =>
    rcases List.mem_cons.1 hdata with rfl | hmem
    · cases hc with
      | string _ hsize => exact hsize.lt
    · exact ih hmem

/-- The sizes of a written chunk fit in four bytes. -/
theorem Wire.Written.fits (h : Wire.Written w t) : w.Fits := by
  cases h with
  | mk hcode hpool hlines _ hconstants =>
    exact ⟨hcode.lt, hlines.lt, hpool.lt, fun _ hdata => length_lt_of_series hconstants hdata⟩

/-- A loaded constant can be written and is no function, as long as strings stay what they are. -/
theorem WireConstant.Stands.writable {x : WireConstant} {v : Value}
    (h : WireConstant.Stands n x v) (hfits : ∀ data, x = .string data → data.length < 2 ^ 32)
    (hkept : ∀ id, v = .object id → k.string? id = n.string? id) :
    Writable k v ∧ ¬ IsFunction k v := by
  cases x with
  | nil =>
    cases h
    exact ⟨.nil, nofun⟩
  | function =>
    cases h
    exact ⟨.nil, nofun⟩
  | int i =>
    cases h
    exact ⟨.int i, nofun⟩
  | bool b =>
    cases h
    exact ⟨.bool b, nofun⟩
  | string data =>
    obtain ⟨id, rfl, hdata⟩ := h
    rw [← hkept id rfl] at hdata
    refine ⟨.string hdata (hfits data rfl), ?_⟩
    rintro ⟨_, f, heq, hf⟩
    cases heq
    have hpayload := Memory.function?_eq_some.1 hf
    rw [Memory.string?_eq_some.1 hdata] at hpayload
    cases hpayload

/-- The unlinked places of a loaded chunk hold nil. -/
theorem Spells.nil_of_unlinked (h : c.Spells w n) {i : Nat} (hi : i ∈ c.unlinked) :
    c.constants[i]? = some .nil := by
  rw [h.unlinked, mem_functionsFrom] at hi
  obtain ⟨j, rfl, hj⟩ := hi
  rw [Nat.zero_add]
  have hrel := h.rel j
  rw [hj] at hrel
  cases hv : c.constants[j]? with
  | none =>
    rw [hv] at hrel
    cases hrel
  | some v =>
    rw [hv] at hrel
    cases hrel with
    | some hstands => rw [show v = .nil from hstands]

theorem Spells.unlinked_lt (h : c.Spells w n) {i : Nat} (hi : i ∈ c.unlinked) :
    i < c.constants.size :=
  (Array.getElem?_eq_some_iff.1 (h.nil_of_unlinked hi)).1

theorem Spells.unlinked_sorted (h : c.Spells w n) : c.unlinked.Pairwise (· < ·) := by
  rw [h.unlinked]
  exact functionsFrom_sorted 0 w.constants

theorem Spells.unlinked_nodup (h : c.Spells w n) : c.unlinked.Nodup :=
  h.unlinked_sorted.imp Nat.ne_of_lt

/-- What the constants of a loaded chunk are, as long as its strings stay what they are. -/
theorem Spells.writable (h : c.Spells w n) (hw : w.Fits)
    (hkept : ∀ id, .object id ∈ c.constants → k.string? id = n.string? id) {i : Nat} {v : Value}
    (hv : c.constants[i]? = some v) : Writable k v ∧ ¬ IsFunction k v := by
  have hrel := h.rel i
  rw [hv] at hrel
  cases hx : w.constants[i]? with
  | none =>
    rw [hx] at hrel
    cases hrel
  | some x =>
    rw [hx] at hrel
    cases hrel with
    | some hstands =>
      refine hstands.writable (fun data heq => ?_) fun id heq => ?_
      · exact hw.strings data (heq ▸ List.mem_of_getElem? hx)
      · exact hkept id (heq ▸ Array.mem_of_getElem? hv)

/-- After linking exactly the linked places hold functions. -/
theorem Relinks.isFunction_iff (hlinks : Relinks k c d) (h : c.Spells w n) (hw : w.Fits)
    (hkept : ∀ id, .object id ∈ c.constants → k.string? id = n.string? id) (i : Nat) :
    (∃ v, d.constants[i]? = some v ∧ IsFunction k v) ↔ i ∈ c.unlinked ∧ i ∉ d.unlinked := by
  constructor
  · rintro ⟨v, hv, hfunction⟩
    by_contra hnot
    have hother : i ∉ c.unlinked ∨ i ∈ d.unlinked := by tauto
    rw [hlinks.other i hother] at hv
    exact (h.writable hw hkept hv).2 hfunction
  · rintro ⟨hi, hnot⟩
    exact hlinks.linked i hi hnot

/-- A loaded chunk fits in the format, whatever has been linked in it. -/
theorem Relinks.storable (hlinks : Relinks k c d) (h : c.Spells w n) (hw : w.Fits)
    (hkept : ∀ id, .object id ∈ c.constants → k.string? id = n.string? id) : d.Storable k where
  code := by
    rw [hlinks.code, ← Array.length_toList, h.code]
    exact hw.code
  lines := by
    rw [hlinks.lines, ← Array.length_toList, h.lines, List.length_map]
    exact hw.lines
  constants := by
    rw [hlinks.size, ← Array.length_toList, ← h.constants.length_eq]
    exact hw.constants
  line line hline := by
    rw [hlinks.lines, ← Array.mem_toList_iff, h.lines] at hline
    obtain ⟨x, -, rfl⟩ := List.mem_map.1 hline
    rw [Int32.toInt_toInt64]
    exact ⟨x.le_toInt, x.toInt_lt⟩
  writable v hv := by
    obtain ⟨i, hi⟩ := Array.mem_iff_getElem?.1 hv
    by_cases hlinked : i ∈ c.unlinked ∧ i ∉ d.unlinked
    · obtain ⟨x, hx, hfunction⟩ := hlinks.linked i hlinked.1 hlinked.2
      rw [hi] at hx
      cases hx
      exact .function hfunction
    · have hother : i ∉ c.unlinked ∨ i ∈ d.unlinked := by tauto
      rw [hlinks.other i hother] at hi
      exact (h.writable hw hkept hi).1

/-- A place of a loaded chunk that still awaits its function holds nil. -/
theorem Relinks.nil_of_awaiting (hlinks : Relinks k c d) (h : c.Spells w n) {i : Nat}
    (hi : i ∈ d.unlinked) : d.constants[i]? = some .nil := by
  rw [hlinks.other i (Or.inr hi)]
  exact h.nil_of_unlinked (hlinks.awaiting i hi)

/-- Where exactly the places linked since are unlinked again, each place of the first loading is
one of those or still awaits its function. -/
theorem Relinks.unlinked_or_awaiting (hlinks : Relinks k c d)
    (hplaces : ∀ i, i ∈ e.unlinked ↔ i ∈ c.unlinked ∧ i ∉ d.unlinked) (i : Nat) :
    i ∈ c.unlinked ↔ i ∈ e.unlinked ∨ i ∈ d.unlinked := by
  rw [hplaces]
  constructor
  · intro hi
    by_cases hawaits : i ∈ d.unlinked
    · exact Or.inr hawaits
    · exact Or.inl ⟨hi, hawaits⟩
  · rintro (⟨hi, -⟩ | hawaits)
    · exact hi
    · exact hlinks.awaiting i hawaits

/-- Nothing is lost exactly where nothing awaits a function. -/
theorem Relinks.unlinked_eq_iff (hlinks : Relinks k c d) (hc : c.unlinked.Pairwise (· < ·))
    (he : e.unlinked.Pairwise (· < ·))
    (hplaces : ∀ i, i ∈ e.unlinked ↔ i ∈ c.unlinked ∧ i ∉ d.unlinked) :
    e.unlinked = c.unlinked ↔ d.unlinked = [] := by
  constructor
  · intro hsame
    apply List.eq_nil_iff_forall_not_mem.2
    intro i hi
    have hmem : i ∈ e.unlinked := hsame ▸ hlinks.awaiting i hi
    exact ((hplaces i).1 hmem).2 hi
  · intro hnone
    apply he.eq_of_mem_iff hc
    intro i
    simp [hplaces, hnone]

/-- Writing a loaded chunk again and loading it keeps the code, the lines, the other
constants and the places that have been linked since.  A place that still awaits its
function comes back as a plain nil constant, so nothing is lost only where nothing awaits
a function. -/
theorem reserialize {m n k : Memory} {held others : RootId → List ObjectId} {t : Text}
    {c d : Chunk} (hm : m.Ready held (stringsIn t))
    (hload : deserialize (.of held) t m = .ok (.ok c) n)
    (hkept : ∀ id ∈ c.owned, k.string? id = n.string? id) (hlinked : Linked k c d)
    (hk : k.Ready others (d.stringCount k)) :
    ∃ u, d.serialize k = .ok u ∧
      ∃ e l, deserialize (.of others) u k = .ok (.ok e) l ∧ Copies k d l e ∧
        e.code = c.code ∧ e.lines = c.lines ∧
        (∀ i, i ∈ c.unlinked ↔ i ∈ e.unlinked ∨ i ∈ d.unlinked) ∧
        (∀ i ∈ d.unlinked, i ∉ e.unlinked ∧ e.constants[i]? = some .nil) ∧
        (e.unlinked = c.unlinked ↔ d.unlinked = []) := by
  obtain ⟨w, vs, hw, hloads⟩ := loads_of_deserialize hm hload
  have hspells := hloads.spells
  have hstrings : ∀ id, .object id ∈ c.constants → k.string? id = n.string? id :=
    fun id hid => hkept id ((hloads.mem_owned id).2 hid)
  have hlinks := hlinked.relinks hspells.unlinked_nodup fun i hi => hspells.unlinked_lt hi
  have hd := hlinks.storable hspells hw.fits hstrings
  obtain ⟨v, hserialize, hwritten, hrenders, hroom⟩ := hd.serialize
  rw [← hroom] at hk
  obtain ⟨vs', l, e, hload', -, hrun⟩ := deserialize_of_written hwritten hk
  have hcopies := hrenders.copies hd hload'.spells fun _ _ hdata => hload'.kept.string?_kept hdata
  have hplaces : ∀ i, i ∈ e.unlinked ↔ i ∈ c.unlinked ∧ i ∉ d.unlinked := fun i =>
    (hcopies.unlinked i).trans (hlinks.isFunction_iff hspells hw.fits hstrings i)
  refine ⟨v.encode, hserialize, e, l, hrun, hcopies, hcopies.code.trans hlinks.code,
    hcopies.lines.trans hlinks.lines, hlinks.unlinked_or_awaiting hplaces, ?_,
    hlinks.unlinked_eq_iff hspells.unlinked_sorted hcopies.sorted hplaces⟩
  intro i hi
  obtain ⟨x, hx, hequal⟩ := hcopies.equal i .nil (hlinks.nil_of_awaiting hspells hi) nofun
  have hxnil : Value.nil = x := eq_of_beq hequal
  exact ⟨fun hmem => ((hplaces i).1 hmem).2 hi, by rw [hx, ← hxnil]⟩

/-- A written chunk with two functions and a number among its constants. -/
def awaitingSample : Text :=
  [0x43, 0x48, 0x4E, 0x4B, 1, 0, 0, 0, 3, 0, 0, 0, 1, 0, 0, 0, 0x00, 7, 0, 0, 0,
    4, 4, 2, 5, 0, 0, 0, 0, 0, 0, 0]

/-- The first place of the sample is linked; it comes back unlinked, and the second one
comes back as a plain nil constant. -/
theorem reserialize_awaitingSample :
    ∃ c n d, deserialize (.of fun _ => []) awaitingSample Memory.new = .ok (.ok c) n ∧
      c.unlinked = [0, 1] ∧ c.link 0 (some 1) = .ok d ∧ Linked storeSample c d ∧
      ∃ u, d.serialize storeSample = .ok u ∧
        ∃ e l, deserialize (.of fun _ => []) u storeSample = .ok (.ok e) l ∧
          ∀ i, i ∈ c.unlinked ↔ i ∈ e.unlinked ∨ i ∈ d.unlinked := by
  have hload : deserialize (.of fun _ => []) awaitingSample Memory.new =
      .ok (.ok ⟨#[0x00], #[7], #[.nil, .nil, .int 5], [], [0, 1]⟩) Memory.new := rfl
  have hlink : Chunk.link ⟨#[0x00], #[7], #[.nil, .nil, .int 5], [], [0, 1]⟩ 0 (some 1) =
      .ok ⟨#[0x00], #[7], #[.object 1, .nil, .int 5], [], [1]⟩ := rfl
  have hlinked : Linked storeSample _ _ := .link .start ⟨{}, rfl⟩ hlink
  obtain ⟨u, hserialize, e, l, hrun, -, -, -, hplaces, -, -⟩ :=
    reserialize (Memory.ready_new _) hload nofun hlinked (storeSample_ready _)
  exact ⟨_, _, _, hload, rfl, hlink, hlinked, u, hserialize, e, l, hrun, hplaces⟩

/-- A place that awaits its function is lost when the loaded sample is written and loaded
again as it is. -/
theorem awaitingSample_loses_places :
    ∃ c n u d l, deserialize (.of fun _ => []) awaitingSample Memory.new = .ok (.ok c) n ∧
      c.unlinked = [0, 1] ∧ c.serialize n = .ok u ∧
      deserialize (.of fun _ => []) u n = .ok (.ok d) l ∧
      d.unlinked = [] ∧ d.constants[0]? = some .nil :=
  ⟨_, _, _, _, _, rfl, rfl, rfl, rfl, rfl, rfl⟩

end StackVm.Chunk
