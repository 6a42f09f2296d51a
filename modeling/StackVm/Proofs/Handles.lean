/-
Handles.  The generations of slots only grow, so as long as they do not wrap no two objects
come to have the same slot and generation.  A handle then names its object for as long as
the object is live and nothing from then on, however often its slot is used again.
-/
import StackVm.Memory.Packed
import StackVm.Proofs.Accounts
import StackVm.Proofs.Likeness

namespace StackVm.Memory

/-- The heap has placed the object there, whether or not it has swept it since. -/
def Issued (m : Memory) (id : ObjectId) (p : Placement) : Prop :=
  m.placement? id = some p ∧ p.heap = m.heap.id

/-- What every change keeps below the number of allocations at which generations wrap. -/
structure Numbered (config : Config) (m : Memory) (count : Nat) : Prop where
  accounts : Accounts config m count
  generation : ∀ (slot : Nat) g, m.heap.generations[slot]? = some g →
    0 < g.toNat ∧ g.toNat ≤ count
  /-- No object has a generation that its slot has not reached. -/
  reached : ∀ id p, m.Issued id p → ∃ g, m.heap.generations[p.slot]? = some g ∧
    0 < p.generation.toNat ∧ p.generation.toNat ≤ g.toNat
  distinct : ∀ id other p q, m.Issued id p → m.Issued other q → p.slot = q.slot →
    p.generation = q.generation → id = other

variable {l m n : Memory} {count more : Nat} {config : Config} {id : ObjectId} {p : Placement}

theorem Fresh.numbered (h : Fresh config m) : Numbered config m 0 where
  accounts := h.accounts
  generation slot g hg := by
    rw [h.heap] at hg
    simp [Heap.create] at hg
  reached id p hp := absurd hp.2 (h.unplaced id p hp.1)
  distinct id other p q hp := absurd hp.2 (h.unplaced id p hp.1)

/-! ### Rewriting -/

theorem Rewrites.issued_iff (h : Rewrites m n) : n.Issued id p ↔ m.Issued id p := by
  obtain ⟨roots, pins, hheap⟩ := h.heap
  have hid : n.heap.id = m.heap.id := by rw [hheap]
  rw [Issued, Issued, hid]
  exact and_congr_left fun hp => h.placement id p hp

theorem Numbered.rewrite (h : Numbered config m count) (hn : Rewrites m n) :
    Numbered config n count := by
  obtain ⟨roots, pins, hheap⟩ := hn.heap
  refine ⟨h.accounts.rewrite hn, ?_, ?_, ?_⟩
  · rw [hheap]
    exact h.generation
  · intro id p hp
    rw [hheap]
    exact h.reached id p (hn.issued_iff.1 hp)
  · intro id other p q hp hq
    exact h.distinct id other p q (hn.issued_iff.1 hp) (hn.issued_iff.1 hq)

/-! ### Sweeping -/

/-- A sweep may mark a placement as swept and does not change it otherwise. -/
theorem placement?_sweep (m : Memory) (marks : Array Bool) (id : ObjectId) :
    (m.sweep marks).placement? id = m.placement? id ∨
      (m.sweep marks).placement? id = (m.placement? id).map fun p => { p with swept := true } := by
  rw [placement?, placement?, getElem?_sweep]
  split
  · refine Or.inr ?_
    cases m.objects[id]? <;> rfl
  · exact Or.inl rfl

theorem issued_of_sweep {marks : Array Bool} (h : (m.sweep marks).Issued id p) :
    ∃ q, m.Issued id q ∧ p.slot = q.slot ∧ p.generation = q.generation := by
  obtain ⟨hp, hheap⟩ := h
  rcases placement?_sweep m marks id with hsame | hswept
  · exact ⟨p, ⟨hsame ▸ hp, hheap⟩, rfl, rfl⟩
  · rw [hswept] at hp
    obtain ⟨q, hq, rfl⟩ := Option.map_eq_some_iff.1 hp
    exact ⟨q, ⟨hq, hheap⟩, rfl, rfl⟩

theorem Numbered.sweep (h : Numbered config m count) (marks : Array Bool) :
    Numbered config (m.sweep marks) count where
  accounts := h.accounts.sweep marks
  generation := h.generation
  reached id p hp := by
    obtain ⟨q, hq, hslot, hgeneration⟩ := issued_of_sweep hp
    rw [hslot, hgeneration]
    exact h.reached id q hq
  distinct id other p q hp hq hslot hgeneration := by
    obtain ⟨p', hp', hpslot, hpgeneration⟩ := issued_of_sweep hp
    obtain ⟨q', hq', hqslot, hqgeneration⟩ := issued_of_sweep hq
    exact h.distinct id other p' q' hp' hq' (hpslot ▸ hqslot ▸ hslot)
      (hpgeneration ▸ hqgeneration ▸ hgeneration)

/-! ### Taking a slot -/

/-- A slot is used one more time; a new slot is used for the first time. -/
theorem takeSlot_generation {h : Heap} (hh : h.Tidy) (id : ObjectId)
    (hbound : ∀ (slot : Nat) g, h.generations[slot]? = some g → g.toNat + 1 < 2 ^ 32) :
    (takeSlot h id).2.generation.toNat =
      ((h.generations[(takeSlot h id).2.slot]?).map UInt32.toNat).getD 0 + 1 := by
  unfold takeSlot
  split
  · next slot hback =>
    obtain ⟨hlt, -⟩ := (hh.mem_free slot).1 (Array.mem_of_back? hback)
    rw [← hh.generations] at hlt
    have hg := Array.getElem?_eq_getElem hlt
    have hfits := hbound slot _ hg
    simp only [hg, Option.getD_some, Option.map_some, UInt32.toNat_add, UInt32.toNat_one]
    exact Nat.mod_eq_of_lt hfits
  · have hnone : h.generations[h.slots.size]? = none :=
      Array.getElem?_eq_none (Nat.le_of_eq hh.generations)
    simp only [hnone]
    rfl

theorem issued_occupy (hid : id < m.objects.size) {i : ObjectId} :
    (m.occupy id).Issued i p ↔
      if i = id then p = (takeSlot m.heap id).2 ∧ p.heap = m.heap.id else m.Issued i p := by
  have hheap : (m.occupy id).heap.id = m.heap.id := takeSlot_heapId ..
  rw [Issued, placement?_occupy hid, hheap]
  split
  · rw [Option.some.injEq, eq_comm]
  · rfl

/-- Below the slot that is taken everything is as it was; the slot itself goes up by one. -/
theorem Numbered.occupy (h : Numbered config m count) (hid : id < m.objects.size)
    (hunplaced : m.placement? id = none) (hfits : m.heap.config.isFull m.heap.live = false)
    (hcount : count + 1 < 2 ^ 32) : Numbered config (m.occupy id) (count + 1) := by
  have htidy := h.accounts.wellFormed.tidy
  have hnext := takeSlot_generation htidy id fun slot g hg => by
    have hle := (h.generation slot g hg).2
    omega
  have hgenerations : ∀ slot : Nat, (m.occupy id).heap.generations[slot]? =
      if slot = (takeSlot m.heap id).2.slot then some (takeSlot m.heap id).2.generation
      else m.heap.generations[slot]? := (takeSlot_taken htidy id).generation
  have hissued : ∀ i q, (m.occupy id).Issued i q ↔
      if i = id then q = (takeSlot m.heap id).2 ∧ q.heap = m.heap.id else m.Issued i q :=
    fun i q => issued_occupy hid
  have haccounts := h.accounts.occupy hid hunplaced hfits
  generalize m.occupy id = n at *
  generalize (takeSlot m.heap id).2 = taken at *
  have hpast : ∀ i q, m.Issued i q → q.slot = taken.slot →
      0 < q.generation.toNat ∧ q.generation.toNat < taken.generation.toNat := by
    intro i q hq hslot
    obtain ⟨g, hg, hpos, hle⟩ := h.reached i q hq
    rw [hslot] at hg
    rw [hg] at hnext
    exact ⟨hpos, by rw [hnext]; exact Nat.lt_succ_of_le hle⟩
  refine ⟨haccounts, fun slot g hg => ?_, fun i q hq => ?_, fun i j q r hq hr hslot hsame => ?_⟩
  · rw [hgenerations] at hg
    split at hg
    · cases hg
      rw [hnext]
      cases hold : m.heap.generations[taken.slot]? with
      | none => simp
      | some g =>
        have hle := (h.generation _ g hold).2
        simpa using hle
    · have hold := h.generation slot g hg
      omega
  · rw [hissued] at hq
    rw [hgenerations]
    split at hq
    · obtain ⟨rfl, -⟩ := hq
      exact ⟨_, if_pos rfl, by omega, Nat.le_refl _⟩
    · split
      · next hslot =>
        obtain ⟨hpos, hlt⟩ := hpast i q hq hslot
        exact ⟨_, rfl, hpos, Nat.le_of_lt hlt⟩
      · exact h.reached i q hq
  · rw [hissued] at hq hr
    split at hq
    · next hi =>
      split at hr
      · next hj => rw [hi, hj]
      · obtain ⟨rfl, -⟩ := hq
        have hlt := (hpast j r hr hslot.symm).2
        rw [hsame] at hlt
        exact absurd hlt (Nat.lt_irrefl _)
    · split at hr
      · obtain ⟨rfl, -⟩ := hr
        have hlt := (hpast i q hq hslot).2
        rw [hsame] at hlt
        exact absurd hlt (Nat.lt_irrefl _)
      · exact h.distinct i j q r hq hr hslot hsame

theorem Changes.numbered (hl : Numbered config l more) (h : Changes l count m)
    (hcount : more + count < 2 ^ 32) : Numbered config m (more + count) := by
  induction h with
  | none => exact hl
  | rewrite _ hn ih => exact (ih hcount).rewrite hn
  | sweep marks _ ih => exact (ih hcount).sweep marks
  | occupy _ hid hunplaced hfits ih =>
    exact (ih (Nat.lt_of_succ_lt hcount)).occupy hid hunplaced hfits hcount

/-! ### What lasts -/

/-- Objects stay of their kind and keep their handles, and what has been swept stays so. -/
structure Lasts (m n : Memory) : Prop where
  kind : ∀ (id : ObjectId) (o : Object), m.objects[id]? = some o →
    ∃ o', n.objects[id]? = some o' ∧ o'.kind = o.kind
  issued : ∀ id p, m.Issued id p → ∃ q, n.Issued id q ∧ q.slot = p.slot ∧
    q.generation = p.generation ∧ (p.swept = true → q.swept = true)

theorem Lasts.refl (m : Memory) : Lasts m m where
  kind _ o ho := ⟨o, ho, rfl⟩
  issued _ p hp := ⟨p, hp, rfl, rfl, id⟩

theorem Lasts.trans {o : Memory} (h : Lasts m n) (h' : Lasts n o) : Lasts m o where
  kind id x hx := by
    obtain ⟨y, hy, hkind⟩ := h.kind id x hx
    obtain ⟨z, hz, hkind'⟩ := h'.kind id y hy
    exact ⟨z, hz, hkind'.trans hkind⟩
  issued id p hp := by
    obtain ⟨q, hq, hslot, hgeneration, hswept⟩ := h.issued id p hp
    obtain ⟨r, hr, hslot', hgeneration', hswept'⟩ := h'.issued id q hq
    exact ⟨r, hr, hslot'.trans hslot, hgeneration'.trans hgeneration, fun hp => hswept' (hswept hp)⟩

theorem Rewrites.lasts (h : Rewrites m n) : Lasts m n where
  kind := h.kind
  issued _ p hp := ⟨p, h.issued_iff.2 hp, rfl, rfl, id⟩

theorem lasts_sweep (m : Memory) (marks : Array Bool) : Lasts m (m.sweep marks) where
  kind id o ho := by
    rw [getElem?_sweep, ho]
    split
    · exact ⟨_, rfl, rfl⟩
    · exact ⟨o, rfl, rfl⟩
  issued id p hp := by
    rcases placement?_sweep m marks id with hsame | hswept
    · exact ⟨p, ⟨hsame.trans hp.1, hp.2⟩, rfl, rfl, fun h => h⟩
    · rw [hp.1] at hswept
      exact ⟨_, ⟨hswept, hp.2⟩, rfl, rfl, fun _ => rfl⟩

theorem lasts_occupy (hid : id < m.objects.size) (hunplaced : m.placement? id = none) :
    Lasts m (m.occupy id) where
  kind i o ho := by
    rw [occupy_eq, Array.getElem?_modify, ho]
    split
    · exact ⟨_, rfl, rfl⟩
    · exact ⟨o, rfl, rfl⟩
  issued i p hp := by
    have hne : i ≠ id := by
      rintro rfl
      rw [hp.1] at hunplaced
      cases hunplaced
    exact ⟨p, (issued_occupy hid).2 (by rwa [if_neg hne]), rfl, rfl, fun h => h⟩

theorem Changes.lasts (h : Changes m count n) : Lasts m n := by
  induction h with
  | none => exact .refl m
  | rewrite _ hn ih => exact ih.trans hn.lasts
  | sweep marks _ ih => exact ih.trans (lasts_sweep _ marks)
  | occupy _ hid hunplaced _ ih => exact ih.trans (lasts_occupy hid hunplaced)

/-! ### Looking handles up -/

theorem Issued.owns_iff (h : m.Issued id p) : m.Owns id ↔ p.swept = false := by
  constructor
  · rintro ⟨q, hq⟩
    rw [Option.some.inj (h.1.symm.trans hq.found)]
    exact hq.unswept
  · exact fun hp => ⟨p, h.1, h.2, hp⟩

/-- A handle names its object while the object is live, and nothing else ever. -/
theorem Numbered.lookup (h : Numbered config m count) (hcount : count < 2 ^ 32)
    (hp : m.Issued id p) :
    p.slot < 2 ^ 32 ∧ (m.Owns id → m.lookup (.ofNat p.slot) p.generation = some id) ∧
      (¬ m.Owns id → m.lookup (.ofNat p.slot) p.generation = none) := by
  have hwf := h.accounts.wellFormed
  obtain ⟨g, hg, -, -⟩ := h.reached id p hp
  have hslot : p.slot < 2 ^ 32 := by
    have hlt := (Array.getElem?_eq_some_iff.1 hg).1
    have hle := h.accounts.slots
    rw [hwf.tidy.generations] at hlt
    omega
  have hexact : (UInt32.ofNat p.slot).toNat = p.slot := UInt32.toNat_ofNat_of_lt' hslot
  refine ⟨hslot, ?_, ?_⟩
  · rintro ⟨q, hq⟩
    have heq : p = q := Option.some.inj (hp.1.symm.trans hq.found)
    subst heq
    have hocc := hwf.placed id p hq
    obtain ⟨r, hr, -, hgeneration⟩ := hwf.occupied _ _ hocc
    rw [hr.unique hq] at hgeneration
    rw [Memory.lookup, hexact, occupant_eq_some.1 hocc]
    exact if_pos hgeneration
  · intro hlost
    rw [Memory.lookup, hexact]
    split
    · next other hother =>
      refine if_neg fun hgeneration => hlost ?_
      obtain ⟨q, hq, hqslot, hqgeneration⟩ :=
        hwf.occupied _ _ (occupant_eq_some.2 hother)
      have hsame := Option.some.inj (hgeneration.symm.trans hqgeneration)
      rw [h.distinct id other p q hp ⟨hq.found, hq.heap⟩ hqslot.symm hsame]
      exact ⟨q, hq⟩
    · rfl

/-- No slot is at the generation of an object that was never placed. -/
theorem Numbered.lookup_zero (h : Numbered config m count) : m.lookup 0 0 = none := by
  rw [Memory.lookup]
  split
  · exact if_neg fun hzero => Nat.lt_irrefl _ (h.generation _ _ hzero).1
  · rfl

/-! ### Packing -/

theorem toUInt32_ofNat (n : Nat) : (UInt64.ofNat n).toUInt32 = UInt32.ofNat n := by
  apply UInt32.toNat.inj
  rw [UInt64.toNat_toUInt32, UInt64.toNat_ofNat', UInt32.toNat_ofNat']
  omega

/-- A scalar is packed into its data word and back. -/
theorem unpack_pack_scalar {v : Value} (hv : v.id? = none) : n.unpack (m.pack v) = .ok v := by
  cases v with
  | nil => rfl
  | int i => exact congrArg (fun i => Except.ok (Value.int i)) (Int64.toInt64_toUInt64 i)
  | bool b => cases b <;> rfl
  | native address => rfl
  | object id => cases hv

theorem pack_object {o : Object} (ho : m.objects[id]? = some o) :
    m.pack (.object id) = match o.placement with
      | some p => ⟨o.kind.type.tag, .ofNat p.slot, .ofNat p.generation.toNat⟩
      | none => ⟨o.kind.type.tag, 0, 0⟩ := by
  have htype : m.typeOf (.object id) = o.kind.type := by simp only [typeOf, ho]
  cases hplacement : o.placement <;> simp only [pack, htype, ho, Option.bind_some, hplacement]

/-- A packed object is unpacked by its handle. -/
theorem unpack_pack_object {o : Object} (ho : m.objects[id]? = some o) :
    n.unpack (m.pack (.object id)) = n.unpackReference o.kind.type (m.pack (.object id)) := by
  have htag : (m.pack (.object id)).tag = o.kind.type.tag := by
    rw [pack_object ho]
    split <;> rfl
  rw [unpack, htag, ValueType.ofTag?_tag]
  cases o.kind <;> rfl

/-- The two words of a packed object are its slot and its generation. -/
theorem lookup_pack {o : Object} (ho : m.objects[id]? = some o) (hp : o.placement = some p) :
    n.lookup (m.pack (.object id)).data.toUInt32 (m.pack (.object id)).extra.toUInt64.toUInt32 =
      n.lookup (.ofNat p.slot) p.generation := by
  have hextra : (Int64.ofNat p.generation.toNat).toUInt64.toUInt32 = p.generation :=
    (toUInt32_ofNat _).trans UInt32.ofNat_toNat
  rw [pack_object ho, hp]
  simp only [toUInt32_ofNat, hextra]

/-- How handles and packed values of one memory are resolved in a later one. -/
structure Resolves (m n : Memory) : Prop where
  /-- No two objects that were ever placed have the same handle. -/
  distinct : ∀ id other p q, n.Issued id p → n.Issued other q → p.slot = q.slot →
    p.generation = q.generation → id = other
  slot : ∀ id p, m.Issued id p → p.slot < 2 ^ 32
  found : ∀ id p, m.Issued id p → n.Owns id →
    n.lookup (.ofNat p.slot) p.generation = some id
  lost : ∀ id p, m.Issued id p → ¬ n.Owns id → n.lookup (.ofNat p.slot) p.generation = none
  /-- What has been swept is not found again. -/
  gone : ∀ id p, m.Issued id p → ¬ m.Owns id → ¬ n.Owns id
  scalar : ∀ v : Value, v.id? = none → n.unpack (m.pack v) = .ok v
  object : ∀ id p, m.Issued id p → n.Owns id →
    n.unpack (m.pack (.object id)) = .ok (.object id)
  stale : ∀ id p, m.Issued id p → ¬ n.Owns id → n.unpack (m.pack (.object id)) =
    .error (.stale (m.typeOf (.object id)) (.ofNat p.slot) (.ofNat p.generation.toNat))
  /-- An object that was not placed when it was packed is not found either. -/
  unplaced : ∀ (id : ObjectId) (o : Object), m.objects[id]? = some o → o.placement = none →
    n.unpack (m.pack (.object id)) = .error (.stale o.kind.type 0 0)

theorem Issued.object (h : m.Issued id p) : ∃ o, m.objects[id]? = some o ∧ o.placement = some p :=
  Option.bind_eq_some_iff.1 h.1

theorem Numbered.resolves (h : Numbered config n count) (hcount : count < 2 ^ 32)
    (hlasts : Lasts m n) : Resolves m n := by
  have hlookup : ∀ id p, m.Issued id p → p.slot < 2 ^ 32 ∧
      (n.Owns id → n.lookup (.ofNat p.slot) p.generation = some id) ∧
      (¬ n.Owns id → n.lookup (.ofNat p.slot) p.generation = none) := by
    intro id p hp
    obtain ⟨q, hq, hslot, hgeneration, -⟩ := hlasts.issued id p hp
    rw [← hslot, ← hgeneration]
    exact h.lookup hcount hq
  constructor
  case distinct => exact h.distinct
  case slot => exact fun id p hp => (hlookup id p hp).1
  case found => exact fun id p hp => (hlookup id p hp).2.1
  case lost => exact fun id p hp => (hlookup id p hp).2.2
  case gone =>
    intro id p hp hswept howns
    obtain ⟨q, hq, -, -, hstays⟩ := hlasts.issued id p hp
    rw [hp.owns_iff, Bool.not_eq_false] at hswept
    rw [hq.owns_iff, hstays hswept] at howns
    cases howns
  case scalar => exact fun v hv => unpack_pack_scalar hv
  case object =>
    intro id p hp howns
    obtain ⟨o, ho, hplacement⟩ := hp.object
    obtain ⟨o', ho', hkind⟩ := hlasts.kind id o ho
    rw [unpack_pack_object ho, unpackReference, lookup_pack ho hplacement,
      (hlookup id p hp).2.1 howns]
    simp only [ho', hkind, if_true]
  case stale =>
    intro id p hp hlost
    obtain ⟨o, ho, hplacement⟩ := hp.object
    have htype : m.typeOf (.object id) = o.kind.type := by simp only [typeOf, ho]
    rw [unpack_pack_object ho, unpackReference, lookup_pack ho hplacement,
      (hlookup id p hp).2.2 hlost, htype, pack_object ho, hplacement]
  case unplaced =>
    intro id o ho hplacement
    have hpack : m.pack (.object id) = ⟨o.kind.type.tag, 0, 0⟩ := by rw [pack_object ho, hplacement]
    have hzero : n.lookup (0 : UInt64).toUInt32 (0 : Int64).toUInt64.toUInt32 = none :=
      h.lookup_zero
    rw [unpack_pack_object ho, hpack, unpackReference]
    simp only [hzero]

/-- In every run of a new heap with fewer allocations than generations, a handle names its
object for as long as the object is live and nothing from then on; so unpacking what was
packed at any moment before gives the same value back, or says that the handle is stale. -/
theorem runs_resolves {config : Config} {l m n : Memory} {before after : Nat}
    (hl : Fresh config l) (hm : Runs l before m) (hn : Runs m after n)
    (hcount : before + after < 2 ^ 32) : Resolves m n := by
  have hnumbered := hm.changes.numbered hl.numbered (by omega)
  rw [Nat.zero_add] at hnumbered
  exact (hn.changes.numbered hnumbered hcount).resolves hcount hn.changes.lasts

/-- The handle of the sample's first string is stale once the next string has its slot. -/
theorem runs_resolves_limitSample :
    Fresh { maxObjects := 1 } ⟨Heap.create 0 { maxObjects := 1 }, #[], #[]⟩ ∧
      Runs ⟨Heap.create 0 { maxObjects := 1 }, #[], #[]⟩ 1 limitSampleStart ∧
      Runs limitSampleStart 1 limitSample ∧ 1 + 1 < 2 ^ 32 ∧
      Resolves limitSampleStart limitSample :=
  have hrest : Runs limitSampleStart 1 limitSample := limitSample_runs .start
  ⟨limitSample_fresh, limitSampleStart_runs, hrest, by decide,
    runs_resolves limitSample_fresh limitSampleStart_runs hrest (by decide)⟩

end StackVm.Memory
