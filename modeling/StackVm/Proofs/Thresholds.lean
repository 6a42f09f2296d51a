/-
The threshold between two collections.  As long as the survivors times the growth factor are a
machine word, the threshold that a collection sets lies as far above the survivors, and the
allocations that follow collect at the threshold or at the object limit and never before.  A
product that is too large wraps, and then only the first threshold is left of the policy.
-/
import StackVm.Manifest.Basic
import StackVm.Proofs.Exhaustion

namespace StackVm

namespace Config

/-- How a threshold grows: it lies above the survivors, and it is at least their number times the
growth factor, or else the largest number there is. -/
structure Grows (c : Config) (live : Nat) (threshold : Int64) : Prop where
  above : (live : Int) < threshold.toInt
  product : live * c.growthFactor.toInt ≤ threshold.toInt ∨ threshold = Int64.maxValue

variable (c : Config) {live : Nat}

theorem two_le_growthFactor : 2 ≤ c.normalized.growthFactor.toInt := by
  have hstandard : standard.growthFactor.toInt = 2 := rfl
  simp only [normalized]
  split
  · exact hstandard.ge
  · next h =>
    have hone : (1 : Int64).toInt = 1 := rfl
    rw [Int64.le_iff_toInt_le, hone] at h
    omega

/-- With few survivors the policy starts again. -/
theorem nextThreshold_of_lt (hfits : live < 2 ^ 63) (h : (live : Int) < c.minThreshold.toInt) :
    c.nextThreshold live = c.initialThreshold := by
  refine if_pos ?_
  rwa [Int64.lt_iff_toInt_lt, Int64.toInt_ofNat_of_lt hfits]

/-- With enough survivors the threshold is their product with the growth factor as a machine word
has it, but not less than the first one. -/
theorem toInt_nextThreshold (hfits : live < 2 ^ 63) (h : c.minThreshold.toInt ≤ live) :
    (c.nextThreshold live).toInt =
      max c.initialThreshold.toInt ((live * c.growthFactor.toInt).bmod (2 ^ 64)) := by
  have hlive := Int64.toInt_ofNat_of_lt hfits
  have henough : ¬ Int64.ofNat live < c.minThreshold := by
    rw [Int64.not_lt, Int64.le_iff_toInt_le, hlive]
    exact h
  have hproduct : (Int64.ofNat live * c.growthFactor).toInt =
      (live * c.growthFactor.toInt).bmod (2 ^ 64) := by
    rw [Int64.toInt_mul, hlive]
  simp only [nextThreshold, if_neg henough]
  rw [← hproduct]
  split
  · next hgrown => exact (max_eq_right (Int64.lt_iff_toInt_lt.1 hgrown).le).symm
  · next hgrown =>
    rw [Int64.not_lt, Int64.le_iff_toInt_le] at hgrown
    exact (max_eq_left hgrown).symm

/-- A threshold grows unless the product of the survivors and the growth factor is more than a
machine word holds. -/
theorem grows_iff (hfits : live + 1 < 2 ^ 63) (hpos : 1 ≤ live)
    (henough : c.normalized.minThreshold.toInt ≤ live) :
    c.normalized.Grows live (c.normalized.nextThreshold live) ↔
      live * c.normalized.growthFactor.toInt ≤ Int64.maxValue.toInt ∨
        c.normalized.nextThreshold live = Int64.maxValue := by
  have hlargest : Int64.maxValue.toInt = 2 ^ 63 - 1 := rfl
  constructor
  · rintro ⟨-, hproduct | hmax⟩
    · exact Or.inl (hproduct.trans (Int64.toInt_le _))
    · exact Or.inr hmax
  · rintro (hproduct | hmax)
    -- A product that is a word is not changed by wrapping, and it is twice the survivors at least.
    · have htwice : live * 2 ≤ live * c.normalized.growthFactor.toInt :=
        Int.mul_le_mul_of_nonneg_left c.two_le_growthFactor (Int.natCast_nonneg live)
      have hexact : (live * c.normalized.growthFactor.toInt).bmod (2 ^ 64) =
          live * c.normalized.growthFactor.toInt :=
        Int.bmod_eq_of_le (by omega) (by omega)
      have hle : live * c.normalized.growthFactor.toInt ≤
          (c.normalized.nextThreshold live).toInt := by
        rw [toInt_nextThreshold _ (by omega) henough, hexact]
        exact le_max_right _ _
      exact ⟨by omega, Or.inl hle⟩
    · refine ⟨?_, Or.inr hmax⟩
      rw [hmax, hlargest]
      omega

end Config

/-! ### Faults of a collection -/

theorem bind_ne_error {ε α β : Type} {x : Except ε α} {f : α → Except ε β} {e : ε}
    (hx : x ≠ .error e) (hf : ∀ a, f a ≠ .error e) : (x >>= f) ≠ .error e := by
  cases x with
  | error e' =>
    rintro ⟨⟩
    exact hx rfl
  | ok a => exact hf a

namespace Marking

variable {objects : Array Object} {heap : HeapId} {s : Marking} {live : Nat} {max : Int64}

theorem mark_ne_exhausted (id : ObjectId) :
    s.mark objects heap id ≠ .error (.exhausted live max) := by
  unfold mark
  split
  · nofun
  · split
    · nofun
    · split
      · nofun
      · split <;> nofun

theorem markAll_ne_exhausted (ids : List ObjectId) :
    markAll objects heap s ids ≠ .error (.exhausted live max) := by
  induction ids generalizing s with
  | nil => nofun
  | cons id rest ih =>
    rw [markAll]
    split
    · next e hmark =>
      rintro ⟨⟩
      exact mark_ne_exhausted id hmark
    · exact ih

theorem drain_ne_exhausted (m : Memory) (s : Marking) :
    s.drain m ≠ .error (.exhausted live max) := by
  fun_induction drain m s with
  | case1 => nofun
  | case2 _ _ _ _ hmark =>
    rintro ⟨⟩
    exact markAll_ne_exhausted _ hmark
  | case3 _ _ _ _ _ ih => exact ih

theorem markHolds_ne_exhausted (holds : List Hold) :
    markHolds objects heap s holds ≠ .error (.exhausted live max) := by
  induction holds generalizing s with
  | nil => nofun
  | cons hold rest ih =>
    cases hold with
    | allocation => nofun
    | object id =>
      rw [markHolds]
      split
      · next e hmark =>
        rintro ⟨⟩
        exact mark_ne_exhausted id hmark
      · exact ih

end Marking

namespace Memory

variable {l m n k : Memory} {holdings : Holdings} {count : Nat} {config : Config}

theorem markPhase_ne_exhausted {live : Nat} {max : Int64} :
    m.markPhase holdings ≠ .error (.exhausted live max) :=
  bind_ne_error (Marking.markHolds_ne_exhausted _) fun _ =>
    bind_ne_error (Marking.markAll_ne_exhausted _) fun t =>
      bind_ne_error (Marking.drain_ne_exhausted m t) fun _ => nofun

/-- A collection does not find the heap exhausted; only an allocation after it does. -/
theorem collect_ne_exhausted {live : Nat} {max : Int64} :
    collect holdings m ≠ .error (.exhausted live max) n := by
  intro h
  rw [collect] at h
  cases hmark : m.markPhase holdings with
  | ok marks =>
    rw [hmark] at h
    cases h
  | error e =>
    rw [hmark] at h
    cases h
    exact markPhase_ne_exhausted hmark

/-! ### When allocations collect -/

/-- An allocation, of a new object or of one that waits for a slot, has succeeded or has found the
heap exhausted. -/
inductive Allocates (m n : Memory) : Prop
  | alloc (holdings : Holdings) (payload : Payload) :
      EndsWith (Memory.alloc holdings payload m) n → Allocates m n
  | place (holdings : Holdings) (id : ObjectId) :
      EndsWith (Memory.place holdings id m) n → Allocates m n

/-- An allocation collects first: the live count has reached the threshold or the limit. -/
def Due (m : Memory) : Prop :=
  m.heap.threshold ≤ Int64.ofNat m.heap.live ∨ m.heap.config.isFull m.heap.live = true

theorem collections_of_due (h : EndsWith (makeRoom holdings m) n) (hdue : m.Due) :
    n.heap.collections = m.heap.collections + 1 := by
  have hcollect : collect holdings m = .ok () n := by
    rw [Due] at hdue
    rw [makeRoom_eq, if_pos hdue] at h
    cases hcollect : collect holdings m with
    | ok u k =>
      rw [hcollect] at h
      simp only [checkRoom] at h
      split at h <;> rcases h with ⟨_, h⟩ | ⟨_, _, h⟩ <;> cases h <;> rfl
    | error e k =>
      rw [hcollect] at h
      rcases h with ⟨_, h⟩ | ⟨_, _, h⟩ <;> cases h
      exact absurd hcollect collect_ne_exhausted
  exact collections_of_collect hcollect

theorem eq_of_not_due (h : EndsWith (makeRoom holdings m) n) (hdue : ¬ m.Due) : n = m := by
  rw [Due] at hdue
  rw [makeRoom_eq, if_neg hdue] at h
  rcases h with ⟨_, h⟩ | ⟨_, _, h⟩ <;> cases h
  rfl

/-- The collections that a placement runs are those that making room for it runs. -/
theorem exists_makeRoom_of_place {id : ObjectId} (h : EndsWith (Memory.place holdings id m) n) :
    ∃ k, EndsWith (makeRoom holdings m) k ∧ n.heap.collections = k.heap.collections := by
  rw [place_eq (place_collects h).1] at h
  cases hroom : makeRoom holdings m with
  | ok u k =>
    rw [hroom] at h
    rcases h with ⟨_, h⟩ | ⟨_, _, h⟩ <;> cases h
    exact ⟨k, Or.inl ⟨u, rfl⟩, collections_occupy k id⟩
  | error e k =>
    rw [hroom] at h
    rcases h with ⟨_, h⟩ | ⟨live, max, h⟩ <;> cases h
    exact ⟨_, Or.inr ⟨live, max, rfl⟩, rfl⟩

theorem place_collects_iff {id : ObjectId} (h : EndsWith (Memory.place holdings id m) n) :
    n.heap.collections ≠ m.heap.collections ↔ m.Due := by
  obtain ⟨k, hroom, hsame⟩ := exists_makeRoom_of_place h
  rw [hsame]
  by_cases hdue : m.Due
  · rw [collections_of_due hroom hdue]
    exact iff_of_true (Nat.succ_ne_self _) hdue
  · rw [eq_of_not_due hroom hdue]
    exact iff_of_false (fun hne => hne rfl) hdue

/-- An allocation collects if and only if one is due. -/
theorem Allocates.collects_iff (h : Allocates m n) :
    n.heap.collections ≠ m.heap.collections ↔ m.Due := by
  cases h with
  | alloc holdings payload h =>
    have hplace := place_collects_iff (place_of_alloc h)
    exact hplace
  | place holdings id h => exact place_collects_iff h

/-! ### Between two collections -/

theorem Changes.collections_le (h : Changes l count m) :
    l.heap.collections ≤ m.heap.collections := by
  induction h with
  | none => exact Nat.le_refl _
  | rewrite _ hn ih =>
    obtain ⟨roots, pins, hheap⟩ := hn.heap
    rw [hheap]
    exact ih
  | sweep marks _ ih => exact Nat.le_succ_of_le ih
  | occupy _ _ _ _ ih => rwa [collections_occupy]

/-- While nothing is collected the live count goes up by one with each allocation, and the threshold
stays. -/
theorem Changes.uncollected (h : Changes l count m)
    (hsame : m.heap.collections = l.heap.collections) :
    m.heap.live = l.heap.live + count ∧ m.heap.threshold = l.heap.threshold ∧
      m.heap.config = l.heap.config := by
  induction h with
  | none => exact ⟨rfl, rfl, rfl⟩
  | rewrite _ hn ih =>
    obtain ⟨roots, pins, hheap⟩ := hn.heap
    rw [hheap] at hsame ⊢
    exact ih hsame
  | sweep marks hrun ih =>
    -- A sweep is counted, and the count never goes back.
    have hle := hrun.collections_le
    rw [collections_sweep] at hsame
    omega
  | @occupy count m id _ _ _ _ ih =>
    rw [collections_occupy] at hsame
    obtain ⟨hlive, hthreshold, hconfig⟩ := ih hsame
    obtain ⟨hgrown, -, hkept⟩ := takeSlot_counts m.heap id
    rw [occupy_eq]
    refine ⟨?_, hkept.trans hthreshold, (takeSlot_same m.heap id).config.trans hconfig⟩
    rw [hgrown, hlive, Nat.add_assoc]

theorem collected_of_collect (h : collect holdings m = .ok () n) :
    n.heap.config = m.heap.config ∧
      n.heap.threshold = n.heap.config.nextThreshold n.heap.live := by
  obtain ⟨marks, rfl⟩ := collect_state h
  exact ⟨rfl, rfl⟩

/-- The policy of a heap from one collection to the next.  With few survivors it starts again.  With
enough of them the threshold is the larger of the first threshold and of the survivors times the
growth factor, as a machine word has the product; it grows as it should if and only if that
product is one, or the threshold is the largest one anyway.  Until the next collection the live
count goes up by one with each allocation, and an allocation collects exactly where the count has
come to the threshold or to the object limit.  The objects of a heap are fewer than a machine word
can count. -/
theorem collect_threshold {before : Nat} (hl : Fresh config l) (hrun : Runs l before m)
    (hcollect : collect holdings m = .ok () n) (hfits : n.heap.live + 1 < 2 ^ 63) :
    ((n.heap.live : Int) < config.normalized.minThreshold.toInt →
      n.heap.threshold = config.normalized.initialThreshold) ∧
    (config.normalized.minThreshold.toInt ≤ n.heap.live →
      n.heap.threshold.toInt = max config.normalized.initialThreshold.toInt
        ((n.heap.live * config.normalized.growthFactor.toInt).bmod (2 ^ 64)) ∧
      (1 ≤ n.heap.live →
        (config.normalized.Grows n.heap.live n.heap.threshold ↔
          n.heap.live * config.normalized.growthFactor.toInt ≤ Int64.maxValue.toInt ∨
            n.heap.threshold = Int64.maxValue))) ∧
    ∀ count k, Runs n count k → k.heap.collections = n.heap.collections →
      k.heap.live < 2 ^ 63 →
      k.heap.live = n.heap.live + count ∧ k.heap.threshold = n.heap.threshold ∧
      ∀ k', Allocates k k' → (k'.heap.collections ≠ k.heap.collections ↔
        n.heap.threshold.toInt ≤ n.heap.live + count ∨
          config.normalized.isFull (n.heap.live + count) = true) := by
  have hpolicy : m.heap.config = config.normalized := (hrun.changes.accounts hl.accounts).configured
  obtain ⟨hconfig, hthreshold⟩ := collected_of_collect hcollect
  rw [hconfig, hpolicy] at hthreshold
  refine ⟨fun hfew => ?_, fun henough => ⟨?_, fun hpos => ?_⟩, fun count k hk hsame hlive => ?_⟩
  · rw [hthreshold]
    exact Config.nextThreshold_of_lt _ (by omega) hfew
  · rw [hthreshold]
    exact Config.toInt_nextThreshold _ (by omega) henough
  · rw [hthreshold]
    exact Config.grows_iff config hfits hpos henough
  · obtain ⟨hcount, hkept, hconfig'⟩ := hk.changes.uncollected hsame
    refine ⟨hcount, hkept, fun k' hallocates => ?_⟩
    rw [hallocates.collects_iff, Due, hkept, hconfig', hconfig, hpolicy, hcount,
      Int64.le_iff_toInt_le, Int64.toInt_ofNat_of_lt (hcount ▸ hlive), Nat.cast_add]

/-! ### A pair of pinned strings -/

/-- A policy with a first threshold of two that never starts again. -/
def pairPolicy (growth : Int64) : Config := ⟨2, growth, 0, 0⟩

/-- A heap with two pinned strings, as many as its first threshold. -/
def pairSample (growth : Int64) : Memory where
  heap := { Heap.create 0 (pairPolicy growth) with
    slots := #[some 0, some 1]
    generations := #[1, 1]
    marks := #[false, false]
    live := 2
    pins := [(0, 1), (1, 1)] }
  objects := #[⟨.string [], some ⟨0, 0, 1, false⟩⟩, ⟨.string [], some ⟨0, 1, 1, false⟩⟩]

theorem pairSample_fresh (growth : Int64) :
    Fresh (pairPolicy growth) ⟨Heap.create 0 (pairPolicy growth), #[], #[]⟩ :=
  ⟨rfl, fun id p hp => by simp [placement?] at hp⟩

theorem pairSample_runs (growth : Int64) :
    Runs ⟨Heap.create 0 (pairPolicy growth), #[], #[]⟩ 2 (pairSample growth) :=
  have hfirst := Runs.start.alloc (.of fun _ => []) (.string []) rfl
  have hsecond := hfirst.alloc (.of fun _ => []) (.string []) rfl
  (hsecond.pin 0 rfl).pin 1 rfl

/-- Both strings are kept. -/
theorem collect_pairSample (growth : Int64) : collect (.of fun _ => []) (pairSample growth) =
    .ok () ((pairSample growth).sweep #[true, true]) := by
  have hmarks : (pairSample growth).markPhase (.of fun _ => []) = .ok #[true, true] := by
    change (Marking.drain _ ⟨_, [1, 0]⟩ >>= _) = _
    rw [drain_cons rfl, drain_cons rfl, drain_nil]
    rfl
  rw [collect, hmarks]

/-- With a growth factor of three the threshold after the collection is six, and four more strings
are allocated before anything is collected. -/
theorem collect_threshold_pairSample :
    Fresh (pairPolicy 3) ⟨Heap.create 0 (pairPolicy 3), #[], #[]⟩ ∧
      Runs ⟨Heap.create 0 (pairPolicy 3), #[], #[]⟩ 2 (pairSample 3) ∧
      ∃ n, collect (.of fun _ => []) (pairSample 3) = .ok () n ∧ n.heap.live + 1 < 2 ^ 63 ∧
        (pairPolicy 3).normalized.Grows n.heap.live n.heap.threshold ∧
        n.heap.threshold.toInt = 6 ∧
        ∀ count k k', Runs n count k → k.heap.collections = n.heap.collections →
          k.heap.live < 2 ^ 63 → Allocates k k' →
          (k'.heap.collections ≠ k.heap.collections ↔ 4 ≤ count) := by
  have hcollect := collect_pairSample 3
  have hlive : ((pairSample 3).sweep #[true, true]).heap.live = 2 := by decide
  generalize (pairSample 3).sweep #[true, true] = n at hcollect hlive
  have hfits : n.heap.live + 1 < 2 ^ 63 := by omega
  obtain ⟨-, henough, hlater⟩ :=
    collect_threshold (pairSample_fresh 3) (pairSample_runs 3) hcollect hfits
  rw [hlive] at henough hlater
  obtain ⟨hthreshold, hgrows⟩ := henough (by decide)
  have hsix : n.heap.threshold.toInt = 6 := hthreshold.trans (by decide)
  refine ⟨pairSample_fresh 3, pairSample_runs 3, n, hcollect, hfits, ?_, hsix, ?_⟩
  · rw [hlive]
    exact (hgrows (by decide)).2 (Or.inl (by decide))
  intro count k k' hrun hsame hfitsk hallocates
  obtain ⟨-, -, hcollects⟩ := hlater count k hrun hsame hfitsk
  rw [hcollects k' hallocates, hsix]
  have hunlimited : (pairPolicy 3).normalized.isFull (2 + count) = false := rfl
  simp only [hunlimited, Bool.false_eq_true, or_false]
  omega

/-- Two survivors times 2⁶² are one more than the largest word.  The threshold falls back to two,
no more than what is live, so that whatever is allocated next collects again.  The policy is one
that a manifest may have. -/
theorem pairSample_thrashes :
    Manifest.problem? { heap := pairPolicy 4611686018427387904 } = none ∧
      Fresh (pairPolicy 4611686018427387904)
        ⟨Heap.create 0 (pairPolicy 4611686018427387904), #[], #[]⟩ ∧
      Runs ⟨Heap.create 0 (pairPolicy 4611686018427387904), #[], #[]⟩ 2
        (pairSample 4611686018427387904) ∧
      ∃ n, collect (.of fun _ => []) (pairSample 4611686018427387904) = .ok () n ∧
        n.heap.live = 2 ∧
        (pairPolicy 4611686018427387904).normalized.minThreshold.toInt ≤ n.heap.live ∧
        n.heap.threshold = 2 ∧
        ¬ (pairPolicy 4611686018427387904).normalized.Grows n.heap.live n.heap.threshold ∧
        ∀ k, Allocates n k → k.heap.collections ≠ n.heap.collections := by
  have hcollect := collect_pairSample 4611686018427387904
  have hlive : ((pairSample 4611686018427387904).sweep #[true, true]).heap.live = 2 := by decide
  have hthreshold : ((pairSample 4611686018427387904).sweep #[true, true]).heap.threshold = 2 := by
    decide
  generalize (pairSample 4611686018427387904).sweep #[true, true] = n at hcollect hlive hthreshold
  refine ⟨by decide, pairSample_fresh _, pairSample_runs _, n, hcollect, hlive, ?_, hthreshold,
    ?_, ?_⟩
  · rw [hlive]
    decide
  · rintro ⟨habove, -⟩
    rw [hlive, hthreshold] at habove
    exact absurd habove (by decide)
  · intro k hallocates
    refine hallocates.collects_iff.2 (Or.inl ?_)
    rw [hlive, hthreshold]
    decide

end Memory

end StackVm
