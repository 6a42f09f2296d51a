/-
Unpacking references.  Whatever the two words of a packed reference are, it is found exactly if a
live object of its type has the slot and the generation that the low halves of the words say, and
what is found packs to those low halves.
-/
import StackVm.Proofs.Collection
import StackVm.Proofs.Handles

namespace StackVm

theorem Kind.type_inj {k k' : Kind} : k.type = k'.type ↔ k = k' := by
  refine ⟨fun h => ?_, congrArg Kind.type⟩
  cases k <;> cases k' <;> first | rfl | cases h

namespace Packed

variable {p : Packed}

/-- The slot that a packed reference is looked up at. -/
def slot (p : Packed) : Nat := p.data.toNat % 2 ^ 32

/-- The generation that a packed reference is looked up with. -/
def generation (p : Packed) : Nat := (p.extra.toInt % 2 ^ 32).toNat

/-- A packed reference without the parts of its words that are not looked at. -/
def low (p : Packed) : Packed := { p with data := .ofNat p.slot, extra := .ofNat p.generation }

/-- Both words are as small as those of a packed object. -/
def Fits (p : Packed) : Prop :=
  p.data.toNat < 2 ^ 32 ∧ 0 ≤ p.extra.toInt ∧ p.extra.toInt < 2 ^ 32

theorem toNat_data (p : Packed) : p.data.toUInt32.toNat = p.slot := UInt64.toNat_toUInt32 _

theorem toNat_extra (p : Packed) : p.extra.toUInt64.toUInt32.toNat = p.generation := by
  have hint : p.extra.toInt = p.extra.toBitVec.toInt := rfl
  have hnat : p.extra.toUInt64.toNat = p.extra.toBitVec.toNat := rfl
  rw [generation, UInt64.toNat_toUInt32, hint, hnat, BitVec.toInt_eq_toNat_cond]
  split_ifs <;> omega

/-- Words that fit are the slot and the generation. -/
theorem fits_iff (p : Packed) :
    p.Fits ↔ p.slot = p.data.toNat ∧ (p.generation : Int) = p.extra.toInt := by
  rw [Fits, slot, generation]
  omega

theorem low_eq_iff (p : Packed) : p.low = p ↔ p.Fits := by
  have hslot : p.slot < 2 ^ 64 := (Nat.mod_lt _ (by decide)).trans (by decide)
  have hgeneration : p.generation < 2 ^ 63 := by
    rw [generation]
    omega
  have hdata : UInt64.ofNat p.slot = p.data ↔ p.slot = p.data.toNat := by
    rw [← UInt64.toNat_inj, UInt64.toNat_ofNat_of_lt' hslot]
  have hextra : Int64.ofNat p.generation = p.extra ↔ (p.generation : Int) = p.extra.toInt := by
    rw [← Int64.toInt_inj, Int64.toInt_ofNat_of_lt hgeneration]
  rw [fits_iff, ← hdata, ← hextra]
  constructor
  · exact fun h => ⟨congrArg data h, congrArg extra h⟩
  · rintro ⟨hd, he⟩
    rw [low, hd, he]

end Packed

theorem UnpackError.wraps_stale {e : UnpackError} (h : ∀ tag, e ≠ .unknownTag tag) :
    ("stale heap handle: " : Text) <+: e.message := by
  cases e with
  | stale type slot generation =>
    simp only [message, List.append_assoc]
    exact List.prefix_append _ _
  | mismatch slot found wanted =>
    have hslot : ("stale heap handle: slot " : Text) =
        "stale heap handle: " ++ ("slot " : Text) := by
      decide
    simp only [message, hslot, List.append_assoc]
    exact List.prefix_append _ _
  | unknownTag tag => exact absurd rfl (h tag)

namespace Memory

variable {m : Memory} {id : ObjectId} {p : Packed} {kind : Kind} {v : Value}

/-! ### Looking up -/

/-- The object is live and has the slot and the generation. -/
def Names (m : Memory) (slot generation : Nat) (id : ObjectId) : Prop :=
  ∃ q, m.Places id q ∧ q.slot = slot ∧ q.generation.toNat = generation

theorem WellFormed.generation (h : m.WellFormed) {q : Placement} (hq : m.Places id q) :
    m.heap.generations[q.slot]? = some q.generation := by
  obtain ⟨r, hr, -, hgeneration⟩ := h.occupied _ _ (h.placed id q hq)
  rwa [hr.unique hq] at hgeneration

theorem WellFormed.lookup_eq_some (h : m.WellFormed) {slot generation : UInt32} :
    m.lookup slot generation = some id ↔ m.Names slot.toNat generation.toNat id := by
  rw [lookup]
  constructor
  · intro hfound
    split at hfound
    · next other hother =>
      split_ifs at hfound with hgeneration
      cases hfound
      obtain ⟨q, hq, hslot, hstored⟩ := h.occupied _ _ (occupant_eq_some.2 hother)
      have hsame := Option.some.inj (hgeneration.symm.trans hstored)
      exact ⟨q, hq, hslot, congrArg UInt32.toNat hsame.symm⟩
    · cases hfound
  · rintro ⟨q, hq, hslot, hgeneration⟩
    rw [← hslot, occupant_eq_some.1 (h.placed id q hq), ← UInt32.toNat_inj.1 hgeneration]
    exact if_pos (h.generation hq)

/-- A packed reference is looked up by the low halves of its words. -/
theorem WellFormed.lookup_packed (h : m.WellFormed) :
    m.lookup p.data.toUInt32 p.extra.toUInt64.toUInt32 = some id ↔
      m.Names p.slot p.generation id := by
  rw [h.lookup_eq_some, p.toNat_data, p.toNat_extra]

theorem Names.object {slot generation : Nat} (h : m.Names slot generation id) :
    ∃ o, m.objects[id]? = some o ∧
      ∃ q, o.placement = some q ∧ q.slot = slot ∧ q.generation.toNat = generation := by
  obtain ⟨q, hq, hslot, hgeneration⟩ := h
  obtain ⟨o, ho, hplacement⟩ := Option.bind_eq_some_iff.1 hq.found
  exact ⟨o, ho, q, hplacement, hslot, hgeneration⟩

/-! ### Unpacking -/

theorem unpack_reference (htag : p.tag = kind.type.tag) :
    m.unpack p = m.unpackReference kind.type p := by
  rw [unpack, htag, ValueType.ofTag?_tag]
  cases kind <;> rfl

/-- A packed reference is found, or what is found is of another type, or nothing is. -/
theorem WellFormed.unpack_cases (h : m.WellFormed) (htag : p.tag = kind.type.tag) :
    (∃ id o, m.Names p.slot p.generation id ∧ m.objects[id]? = some o ∧ o.kind = kind ∧
      m.unpack p = .ok (.object id)) ∨
    (∃ id o, m.Names p.slot p.generation id ∧ m.objects[id]? = some o ∧ o.kind ≠ kind ∧
      m.unpack p = .error (.mismatch p.data o.kind kind.type)) ∨
    ((∀ id, ¬ m.Names p.slot p.generation id) ∧
      m.unpack p = .error (.stale kind.type p.data p.extra)) := by
  rw [unpack_reference htag, unpackReference]
  cases hlookup : m.lookup p.data.toUInt32 p.extra.toUInt64.toUInt32 with
  | none =>
    refine Or.inr (Or.inr ⟨fun id hnames => ?_, rfl⟩)
    rw [h.lookup_packed.2 hnames] at hlookup
    cases hlookup
  | some id =>
    have hnames := h.lookup_packed.1 hlookup
    obtain ⟨o, ho, -⟩ := hnames.object
    simp only [ho]
    split_ifs with htype
    · exact Or.inl ⟨id, o, hnames, ho, Kind.type_inj.1 htype, rfl⟩
    · refine Or.inr (Or.inl ⟨id, o, hnames, ho, fun hkind => htype ?_, rfl⟩)
      rw [hkind]

/-- What is found packs to the low halves that it was found by. -/
theorem Names.pack (h : m.Names p.slot p.generation id) {o : Object}
    (ho : m.objects[id]? = some o) (htag : p.tag = o.kind.type.tag) :
    m.pack (.object id) = p.low := by
  obtain ⟨o', ho', q, hplacement, hslot, hgeneration⟩ := h.object
  cases ho.symm.trans ho'
  rw [pack_object ho, hplacement, Packed.low, htag, ← hslot, ← hgeneration]

theorem WellFormed.names_unique (h : m.WellFormed) (hid : m.Names p.slot p.generation id)
    {other : ObjectId} (hother : m.Names p.slot p.generation other) : id = other :=
  Option.some.inj ((h.lookup_packed.2 hid).symm.trans (h.lookup_packed.2 hother))

theorem WellFormed.unpack_eq_ok (h : m.WellFormed) (htag : p.tag = kind.type.tag) :
    m.unpack p = .ok v ↔ ∃ id o, v = .object id ∧ m.Names p.slot p.generation id ∧
      m.objects[id]? = some o ∧ o.kind = kind := by
  have hunique : ∀ {id other : ObjectId} {o o' : Object}, m.Names p.slot p.generation id →
      m.objects[id]? = some o → m.Names p.slot p.generation other →
      m.objects[other]? = some o' → id = other ∧ o = o' := by
    rintro id other o o' hid ho hother ho'
    obtain rfl := h.names_unique hid hother
    exact ⟨rfl, Option.some.inj (ho.symm.trans ho')⟩
  rcases h.unpack_cases htag with ⟨id, o, hid, ho, hkind, heq⟩ | ⟨id, o, hid, ho, hkind, heq⟩ |
    ⟨hnone, heq⟩
  · rw [heq]
    constructor
    · rintro ⟨⟩
      exact ⟨id, o, rfl, hid, ho, hkind⟩
    · rintro ⟨other, o', rfl, hother, ho', -⟩
      rw [(hunique hid ho hother ho').1]
  · rw [heq]
    refine iff_of_false nofun ?_
    rintro ⟨other, o', rfl, hother, ho', hkind'⟩
    exact hkind ((hunique hid ho hother ho').2 ▸ hkind')
  · rw [heq]
    refine iff_of_false nofun ?_
    rintro ⟨other, o', rfl, hother, -⟩
    exact hnone other hother

/-- A packed reference, with any two words, is unpacked to the live object of its type whose slot
and generation the low halves of the words say, and that object packs to the low halves; where there
is no such object, the reference is stale.  So packing gives back what was unpacked exactly if both
words fit in their low halves, and then they are the slot and the generation themselves. -/
theorem unpack_low_halves (hm : m.Reached) (htag : p.tag = kind.type.tag) :
    (∀ v, m.unpack p = .ok v ↔ ∃ id o, v = .object id ∧ m.Names p.slot p.generation id ∧
      m.objects[id]? = some o ∧ o.kind = kind) ∧
    (∀ v, m.unpack p = .ok v → m.pack v = p.low ∧ (m.pack v = p ↔ p.Fits)) ∧
    (p.Fits → p.slot = p.data.toNat ∧ (p.generation : Int) = p.extra.toInt) ∧
    ∀ e, m.unpack p = .error e →
      ("stale heap handle: " : Text) <+: e.message ∧
      (((∀ id, ¬ m.Names p.slot p.generation id) ∧ e = .stale kind.type p.data p.extra) ∨
        ∃ id o, m.Names p.slot p.generation id ∧ m.objects[id]? = some o ∧ o.kind ≠ kind ∧
          e = .mismatch p.data o.kind kind.type) := by
  have hwf := hm.wellFormed
  refine ⟨fun v => hwf.unpack_eq_ok htag, fun v hv => ?_, p.fits_iff.1, fun e he => ?_⟩
  · obtain ⟨id, o, rfl, hid, ho, rfl⟩ := (hwf.unpack_eq_ok htag).1 hv
    rw [hid.pack ho htag]
    exact ⟨rfl, p.low_eq_iff⟩
  · rcases hwf.unpack_cases htag with ⟨id, o, -, -, -, heq⟩ | ⟨id, o, hid, ho, hkind, heq⟩ |
      ⟨hnone, heq⟩ <;> cases heq.symm.trans he
    · exact ⟨UnpackError.wraps_stale nofun, Or.inr ⟨id, o, hid, ho, hkind, rfl⟩⟩
    · exact ⟨UnpackError.wraps_stale nofun, Or.inl ⟨hnone, rfl⟩⟩

/-- The string of the sample is unpacked from words whose low halves are its slot and generation,
and it does not pack to these. -/
theorem unpack_low_halves_cycleSample :
    cycleSample.Reached ∧
      cycleSample.unpack ⟨3, 0x100000002, -0xFFFFFFFF⟩ = .ok (.object 2) ∧
      cycleSample.pack (.object 2) = ⟨3, 2, 1⟩ ∧
      cycleSample.pack (.object 2) ≠ ⟨3, 0x100000002, -0xFFFFFFFF⟩ := by
  have hstring : cycleSample.Names 2 1 2 := ⟨⟨0, 2, 1, false⟩, ⟨rfl, rfl, rfl⟩, rfl, rfl⟩
  have htag : Packed.tag ⟨3, 0x100000002, -0xFFFFFFFF⟩ = Kind.string.type.tag := rfl
  obtain ⟨hok, hpack, -, -⟩ := unpack_low_halves cycleSample_reached htag
  have hfound := (hok (.object 2)).2 ⟨2, _, rfl, hstring, rfl, rfl⟩
  obtain ⟨hlow, hiff⟩ := hpack _ hfound
  refine ⟨cycleSample_reached, hfound, hlow, fun hsame => ?_⟩
  exact absurd (hiff.1 hsame).1 (by decide)

/-- A reference is accepted although no object has the slot that it says, and packing what is
unpacked gives another reference. -/
theorem cycleSample_accepts_high_words :
    cycleSample.Reached ∧ cycleSample.unpack ⟨3, 0x100000002, 1⟩ = .ok (.object 2) ∧
      cycleSample.pack (.object 2) ≠ ⟨3, 0x100000002, 1⟩ ∧
      ∀ id generation, ¬ cycleSample.Names 0x100000002 generation id := by
  refine ⟨cycleSample_reached, rfl, by decide, ?_⟩
  rintro id generation ⟨q, hq, hslot, -⟩
  have hocc := cycleSample_reached.wellFormed.placed id q hq
  have hnone : cycleSample.heap.occupant 0x100000002 = none := rfl
  rw [hslot, hnone] at hocc
  cases hocc

end Memory

end StackVm
