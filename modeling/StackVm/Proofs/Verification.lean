/-
What verification remembers.  A function that passes with all it leads to is never refused.
The other way round, verified functions have to lead to verified functions only.  Successful
searches see to that, and every search does where functions lead to each other without
cycles; but a search that fails may leave a function behind verified that leads back to the
one it had not finished.
-/
import StackVm.Proofs.Validation

namespace StackVm

open Relation (ReflTransGen TransGen)

namespace Memory

variable {m n : Memory} {i j id : ObjectId} {seen verified ids : List ObjectId}
  {visits rest above : List Visit}

/-- One function has the other object among the constants of its code. -/
def Links (m : Memory) (i j : ObjectId) : Prop :=
  ∃ f c, m.function? i = some f ∧ m.chunkOf? f = some c ∧ j ∈ referents c.constants.toList

/-- The object is no function, or one with valid code. -/
def Valid (m : Memory) (id : ObjectId) : Prop := ∀ f, m.function? id = some f → m.Passes f

/-- Every function that constants lead to has valid code. -/
def WhollyValid (m : Memory) (id : ObjectId) : Prop := ∀ j, ReflTransGen m.Links id j → m.Valid j

/-- The object is no function, or one that is verified or about to be. -/
def Covered (m : Memory) (verified : List ObjectId) (id : ObjectId) : Prop :=
  ∀ f, m.function? id = some f → f.verified = true ∨ id ∈ verified

/-- The function has valid code and leads to covered functions only. -/
structure Closed (m : Memory) (verified : List ObjectId) (id : ObjectId) : Prop where
  valid : m.Valid id
  covers : ∀ j, m.Links id j → m.Covered verified j

/-- Verified functions have valid code and lead to verified functions only. -/
def Settled (m : Memory) : Prop :=
  ∀ i f, m.function? i = some f → f.verified = true → m.Closed [] i

theorem Covered.mono {more : List ObjectId} (h : m.Covered verified i)
    (hmore : ∀ j ∈ verified, j ∈ more) : m.Covered more i :=
  fun f hf => (h f hf).imp_right (hmore i)

theorem Closed.mono {more : List ObjectId} (h : m.Closed verified i)
    (hmore : ∀ j ∈ verified, j ∈ more) : m.Closed more i :=
  ⟨h.valid, fun j hj => (h.covers j hj).mono hmore⟩

theorem verifyOne_links {f : Function} {constants : List Value} (hf : m.function? id = some f)
    (h : m.verifyOne f = .ok constants) : m.Links id j ↔ j ∈ referents constants := by
  rw [verifyOne] at h
  split at h
  · cases h
  · next c hc =>
    split at h
    · cases h
    · cases h
      constructor
      · rintro ⟨g, d, hg, hd, hj⟩
        cases hf.symm.trans hg
        cases hc.symm.trans hd
        exact hj
      · exact fun hj => ⟨f, c, hf, hc, hj⟩

theorem verifyOne_valid {f : Function} {constants : List Value} (hf : m.function? id = some f)
    (h : m.verifyOne f = .ok constants) : m.Valid id := by
  intro g hg
  cases hf.symm.trans hg
  exact verifyOne_ok h

theorem verifyOne_of_passes {f : Function} (h : m.Passes f) (e : VerifyError) :
    m.verifyOne f ≠ .error e := by
  obtain ⟨c, hc, hvalid⟩ := h
  rw [verifyOne_of_valid hc hvalid]
  intro h
  cases h

/-! ### The search -/

/-- The search fails only on functions that lead to invalid code. -/
theorem verifySearch_none (h : ∀ id, .enter id ∈ visits → m.WhollyValid id) :
    (m.verifySearch seen verified visits).2 = none := by
  induction seen, verified, visits using Memory.verifySearch.induct m with
  | case1 seen verified => rw [verifySearch]
  | case2 seen verified id rest ih =>
    rw [verifySearch]
    exact ih fun i hi => h i (List.mem_cons_of_mem _ hi)
  | case3 seen verified id rest hf ih =>
    rw [verifySearch_enter_none hf]
    exact ih fun i hi => h i (List.mem_cons_of_mem _ hi)
  | case4 seen verified id rest f hf hdone ih =>
    rw [verifySearch_enter_some hf, if_pos hdone]
    exact ih fun i hi => h i (List.mem_cons_of_mem _ hi)
  | case5 seen verified id rest f hf hdone e hone =>
    have hpasses := h id List.mem_cons_self id .refl f hf
    exact absurd hone (verifyOne_of_passes hpasses e)
  | case6 seen verified id rest f hf hdone constants hone ih =>
    rw [verifySearch_enter_some hf, if_neg hdone, hone]
    refine ih fun i hi => ?_
    rcases List.mem_append.1 hi with hi | hi
    · obtain ⟨j, hj, heq⟩ := List.mem_map.1 hi
      cases heq
      have hlinks := (verifyOne_links hf hone).2 hj
      exact fun k hk => h id List.mem_cons_self k (.head hlinks hk)
    · rcases List.mem_cons.1 hi with heq | hi
      · cases heq
      · exact h i (List.mem_cons_of_mem _ hi)

theorem Visit.enter_ne_leave (i j : ObjectId) : Visit.enter i ≠ .leave j := nofun

theorem leave_mem_of_cons (h : .leave j ∈ .enter id :: rest) : .leave j ∈ rest :=
  (List.mem_cons.1 h).resolve_left (Visit.enter_ne_leave id j).symm

theorem enter_mem_of_cons (h : .enter j ∈ .leave id :: rest) : .enter j ∈ rest :=
  (List.mem_cons.1 h).resolve_left (Visit.enter_ne_leave j id)

/-- Every function seen has been left behind or is still to be left. -/
def Accounted (seen verified : List ObjectId) (visits : List Visit) : Prop :=
  ∀ i ∈ seen, i ∈ verified ∨ .leave i ∈ visits

theorem Accounted.tail {v : Visit} (h : Accounted seen verified (v :: rest))
    (hv : ∀ i, v ≠ .leave i) : Accounted seen verified rest := by
  intro i hi
  refine (h i hi).imp_right fun hleave => ?_
  rcases List.mem_cons.1 hleave with heq | hleave
  · exact absurd heq.symm (hv i)
  · exact hleave

theorem Accounted.leave (h : Accounted seen verified (.leave id :: rest)) :
    Accounted seen (id :: verified) rest := by
  intro i hi
  rcases h i hi with hi | hi
  · exact Or.inl (List.mem_cons_of_mem _ hi)
  · rcases List.mem_cons.1 hi with heq | hi
    · cases heq
      exact Or.inl List.mem_cons_self
    · exact Or.inr hi

theorem Accounted.expand (h : Accounted seen verified (.enter id :: rest)) (entries : List Visit) :
    Accounted (id :: seen) verified (entries ++ .leave id :: rest) := by
  intro i hi
  rcases List.mem_cons.1 hi with rfl | hi
  · exact Or.inr (List.mem_append_right _ List.mem_cons_self)
  · refine (h.tail (Visit.enter_ne_leave id) i hi).imp_right fun hleave => ?_
    exact List.mem_append_right _ (List.mem_cons_of_mem _ hleave)

/-- What a search that has succeeded leaves behind. -/
structure Finished (m : Memory) (verified : List ObjectId) (visits : List Visit)
    (left : List ObjectId) : Prop where
  kept : ∀ i ∈ verified, i ∈ left
  leaves : ∀ i, .leave i ∈ visits → i ∈ left
  enters : ∀ i, .enter i ∈ visits → m.Covered left i
  closed : ∀ i ∈ left, i ∈ verified ∨ .leave i ∈ visits ∨ m.Closed left i

theorem Finished.leave {left : List ObjectId} (h : m.Finished (id :: verified) rest left) :
    m.Finished verified (.leave id :: rest) left where
  kept i hi := h.kept i (List.mem_cons_of_mem _ hi)
  leaves i hi := by
    rcases List.mem_cons.1 hi with heq | hi
    · cases heq
      exact h.kept _ List.mem_cons_self
    · exact h.leaves i hi
  enters i hi := h.enters i (enter_mem_of_cons hi)
  closed i hi := by
    rcases h.closed i hi with hi | hi | hi
    · rcases List.mem_cons.1 hi with rfl | hi
      · exact Or.inr (Or.inl List.mem_cons_self)
      · exact Or.inl hi
    · exact Or.inr (Or.inl (List.mem_cons_of_mem _ hi))
    · exact Or.inr (Or.inr hi)

theorem Finished.skip {left : List ObjectId} (h : m.Finished verified rest left)
    (hid : m.Covered left id) : m.Finished verified (.enter id :: rest) left where
  kept := h.kept
  leaves i hi := h.leaves i (leave_mem_of_cons hi)
  enters i hi := by
    rcases List.mem_cons.1 hi with heq | hi
    · cases heq
      exact hid
    · exact h.enters i hi
  closed i hi := (h.closed i hi).imp_right (Or.imp_left (List.mem_cons_of_mem _))

theorem Finished.expand {left : List ObjectId} {constants : List Value}
    (h : m.Finished verified ((referents constants).map .enter ++ .leave id :: rest) left)
    (hvalid : m.Valid id) (hlinks : ∀ j, m.Links id j → j ∈ referents constants) :
    m.Finished verified (.enter id :: rest) left where
  kept := h.kept
  leaves i hi := h.leaves i (List.mem_append_right _
    (List.mem_cons_of_mem _ (leave_mem_of_cons hi)))
  enters i hi := by
    rcases List.mem_cons.1 hi with heq | hi
    · cases heq
      exact fun _ _ => Or.inr (h.leaves _ (List.mem_append_right _ List.mem_cons_self))
    · exact h.enters i (List.mem_append_right _ (List.mem_cons_of_mem _ hi))
  closed i hi := by
    rcases h.closed i hi with hi | hi | hi
    · exact Or.inl hi
    · rcases List.mem_append.1 hi with hi | hi
      · obtain ⟨_, _, heq⟩ := List.mem_map.1 hi
        cases heq
      · rcases List.mem_cons.1 hi with heq | hi
        · cases heq
          refine Or.inr (Or.inr ⟨hvalid, fun j hj => h.enters j ?_⟩)
          exact List.mem_append_left _ (List.mem_map_of_mem (hlinks j hj))
        · exact Or.inr (Or.inl (List.mem_cons_of_mem _ hi))
    · exact Or.inr (Or.inr hi)

theorem verifySearch_finished (haccounted : Accounted seen verified visits)
    (h : (m.verifySearch seen verified visits).2 = none) :
    m.Finished verified visits (m.verifySearch seen verified visits).1 := by
  induction seen, verified, visits using Memory.verifySearch.induct m with
  | case1 seen verified =>
    rw [verifySearch]
    exact ⟨fun _ hi => hi, fun _ hi => absurd hi List.not_mem_nil,
      fun _ hi => absurd hi List.not_mem_nil, fun _ hi => Or.inl hi⟩
  | case2 seen verified id rest ih =>
    rw [verifySearch] at h ⊢
    exact (ih haccounted.leave h).leave
  | case3 seen verified id rest hf ih =>
    rw [verifySearch_enter_none hf] at h ⊢
    refine (ih (haccounted.tail (Visit.enter_ne_leave id)) h).skip fun f hsome => ?_
    rw [hf] at hsome
    cases hsome
  | case4 seen verified id rest f hf hdone ih =>
    rw [verifySearch_enter_some hf, if_pos hdone] at h ⊢
    have hfinished := ih (haccounted.tail (Visit.enter_ne_leave id)) h
    refine hfinished.skip fun g hg => ?_
    cases hf.symm.trans hg
    refine hdone.imp_right fun hseen => ?_
    rcases haccounted id hseen with hid | hid
    · exact hfinished.kept id hid
    · exact hfinished.leaves id (leave_mem_of_cons hid)
  | case5 seen verified id rest f hf hdone e hone =>
    rw [verifySearch_enter_some hf, if_neg hdone, hone] at h
    cases h
  | case6 seen verified id rest f hf hdone constants hone ih =>
    rw [verifySearch_enter_some hf, if_neg hdone, hone] at h ⊢
    exact (ih (haccounted.expand _) h).expand (verifyOne_valid hf hone)
      fun j hj => (verifyOne_links hf hone).1 hj

/-! ### Functions without cycles -/

/-- The function a step of the search is about. -/
def Visit.target : Visit → ObjectId
  | .enter id => id
  | .leave id => id

/-- The object is covered, or will be seen to by one of these steps. -/
def Awaits (m : Memory) (verified : List ObjectId) (above : List Visit) (j : ObjectId) : Prop :=
  m.Covered verified j ∨ .enter j ∈ above ∨ .leave j ∈ above

/-- A function that is still to be left has valid code; all steps above come from it, and
they see to what it leads to. -/
def Stacked (m : Memory) (verified : List ObjectId) (above : List Visit) : List Visit → Prop
  | [] => True
  | .enter id :: rest => m.Stacked verified (.enter id :: above) rest
  | .leave id :: rest =>
    (m.Valid id ∧ (∀ v ∈ above, TransGen m.Links id v.target) ∧
      ∀ j, m.Links id j → m.Awaits verified above j) ∧
    m.Stacked verified (.leave id :: above) rest

theorem Stacked.mono {more : List ObjectId} {above' : List Visit}
    (hcome : ∀ i, (∀ v ∈ above, TransGen m.Links i v.target) →
      ∀ v ∈ above', TransGen m.Links i v.target)
    (hawaits : ∀ j, m.Awaits verified above j → m.Awaits more above' j)
    (h : m.Stacked verified above rest) : m.Stacked more above' rest := by
  induction rest generalizing above above' with
  | nil => trivial
  | cons v rest ih =>
    have hcome' : ∀ i, (∀ w ∈ v :: above, TransGen m.Links i w.target) →
        ∀ w ∈ v :: above', TransGen m.Links i w.target := by
      intro i hi w hw
      rcases List.mem_cons.1 hw with rfl | hw
      · exact hi _ List.mem_cons_self
      · exact hcome i (fun w hw => hi w (List.mem_cons_of_mem _ hw)) w hw
    have hawaits' : ∀ j, m.Awaits verified (v :: above) j → m.Awaits more (v :: above') j := by
      have hlift : ∀ j, m.Awaits verified above j → m.Awaits more (v :: above') j := fun j hj =>
        (hawaits j hj).imp_right (Or.imp (List.mem_cons_of_mem _) (List.mem_cons_of_mem _))
      rintro j (hj | hj | hj)
      · exact hlift j (Or.inl hj)
      · rcases List.mem_cons.1 hj with heq | hj
        · exact Or.inr (Or.inl (heq ▸ List.mem_cons_self))
        · exact hlift j (Or.inr (Or.inl hj))
      · rcases List.mem_cons.1 hj with heq | hj
        · exact Or.inr (Or.inr (heq ▸ List.mem_cons_self))
        · exact hlift j (Or.inr (Or.inr hj))
    cases v with
    | enter id => exact ih hcome' hawaits' h
    | leave id =>
      obtain ⟨⟨hvalid, hfrom, hlinks⟩, hrest⟩ := h
      exact ⟨⟨hvalid, hcome id hfrom, fun j hj => hawaits j (hlinks j hj)⟩,
        ih hcome' hawaits' hrest⟩

/-- Without cycles, what is still to be left does not come up again above itself. -/
theorem Stacked.not_mem (hacyclic : ∀ i, ¬ TransGen m.Links i i)
    (h : m.Stacked verified above rest) {v : Visit} (hv : v ∈ above) :
    .leave v.target ∉ rest := by
  induction rest generalizing above with
  | nil => exact nofun
  | cons w rest ih =>
    intro hmem
    have hrest : .leave v.target ∉ rest := by
      cases w with
      | enter id => exact ih h (List.mem_cons_of_mem _ hv)
      | leave id => exact ih h.2 (List.mem_cons_of_mem _ hv)
    rcases List.mem_cons.1 hmem with rfl | hmem
    · exact hacyclic _ (h.1.2.1 v hv)
    · exact hrest hmem

theorem Stacked.leave (h : m.Stacked verified [] (.leave id :: rest)) :
    m.Closed verified id ∧ m.Stacked (id :: verified) [] rest := by
  obtain ⟨⟨hvalid, _, hlinks⟩, hrest⟩ := h
  refine ⟨⟨hvalid, fun j hj => (hlinks j hj).resolve_right nofun⟩, ?_⟩
  refine hrest.mono (fun _ _ _ => nofun) fun j hj => Or.inl ?_
  rcases hj with hj | hj | hj
  · exact hj.mono fun k hk => List.mem_cons_of_mem _ hk
  · cases List.mem_singleton.1 hj
  · cases List.mem_singleton.1 hj
    exact fun _ _ => Or.inr List.mem_cons_self

theorem Stacked.skip (h : m.Stacked verified [] (.enter id :: rest))
    (hid : m.Covered verified id) : m.Stacked verified [] rest := by
  refine Stacked.mono (fun _ _ _ => nofun) (fun j hj => Or.inl ?_) h
  rcases hj with hj | hj | hj
  · exact hj
  · cases List.mem_singleton.1 hj
    exact hid
  · cases List.mem_singleton.1 hj

theorem Stacked.entries (entries : List ObjectId)
    (h : m.Stacked verified ((entries.map .enter).reverse ++ above) rest) :
    m.Stacked verified above (entries.map .enter ++ rest) := by
  induction entries generalizing above with
  | nil => exact h
  | cons id entries ih =>
    rw [List.map_cons, List.reverse_cons, List.append_assoc] at h
    exact ih h

theorem Stacked.expand {constants : List Value} (h : m.Stacked verified [] (.enter id :: rest))
    (hvalid : m.Valid id) (hlinks : ∀ j, m.Links id j ↔ j ∈ referents constants) :
    m.Stacked verified [] ((referents constants).map .enter ++ .leave id :: rest) := by
  have hentry : ∀ v ∈ ((referents constants).map Visit.enter).reverse ++ [],
      m.Links id v.target := by
    intro v hv
    rw [List.append_nil, List.mem_reverse] at hv
    obtain ⟨j, hj, rfl⟩ := List.mem_map.1 hv
    exact (hlinks j).2 hj
  refine .entries _ ⟨⟨hvalid, fun v hv => .single (hentry v hv), fun j hj => ?_⟩, ?_⟩
  · refine Or.inr (Or.inl ?_)
    rw [List.append_nil, List.mem_reverse]
    exact List.mem_map_of_mem ((hlinks j).1 hj)
  · refine Stacked.mono (fun i hi v hv => ?_) (fun j hj => ?_) h
    · have hid := hi _ (List.mem_singleton_self _)
      rcases List.mem_cons.1 hv with rfl | hv
      · exact hid
      · exact hid.tail (hentry v hv)
    · rcases hj with hj | hj | hj
      · exact Or.inl hj
      · cases List.mem_singleton.1 hj
        exact Or.inr (Or.inr List.mem_cons_self)
      · cases List.mem_singleton.1 hj

/-- Without cycles the search leaves only closed functions behind, even if it fails. -/
theorem verifySearch_closed (hacyclic : ∀ i, ¬ TransGen m.Links i i)
    (haccounted : Accounted seen verified visits) (hstacked : m.Stacked verified [] visits)
    (hclosed : ∀ i ∈ verified, m.Closed verified i) :
    ∀ i ∈ (m.verifySearch seen verified visits).1,
      m.Closed (m.verifySearch seen verified visits).1 i := by
  induction seen, verified, visits using Memory.verifySearch.induct m with
  | case1 seen verified =>
    rw [verifySearch]
    exact hclosed
  | case2 seen verified id rest ih =>
    rw [verifySearch]
    obtain ⟨hid, hrest⟩ := hstacked.leave
    refine ih haccounted.leave hrest fun i hi => ?_
    have hmore : ∀ j ∈ verified, j ∈ id :: verified := fun j hj => List.mem_cons_of_mem _ hj
    rcases List.mem_cons.1 hi with rfl | hi
    · exact hid.mono hmore
    · exact (hclosed i hi).mono hmore
  | case3 seen verified id rest hf ih =>
    rw [verifySearch_enter_none hf]
    refine ih (haccounted.tail (Visit.enter_ne_leave id)) (hstacked.skip fun f hsome => ?_) hclosed
    rw [hf] at hsome
    cases hsome
  | case4 seen verified id rest f hf hdone ih =>
    rw [verifySearch_enter_some hf, if_pos hdone]
    refine ih (haccounted.tail (Visit.enter_ne_leave id)) (hstacked.skip fun g hg => ?_) hclosed
    cases hf.symm.trans hg
    refine hdone.imp_right fun hseen => ?_
    refine (haccounted id hseen).resolve_right fun hleave => ?_
    have hentered : m.Stacked verified [.enter id] rest := hstacked
    exact hentered.not_mem hacyclic List.mem_cons_self
      (leave_mem_of_cons hleave)
  | case5 seen verified id rest f hf hdone e hone =>
    rw [verifySearch_enter_some hf, if_neg hdone, hone]
    exact hclosed
  | case6 seen verified id rest f hf hdone constants hone ih =>
    rw [verifySearch_enter_some hf, if_neg hdone, hone]
    exact ih (haccounted.expand _)
      (hstacked.expand (verifyOne_valid hf hone) fun j => verifyOne_links hf hone) hclosed

/-! ### Remembering -/

/-- The other memory has these functions verified as well, and is the same otherwise as far
as verification goes. -/
structure Remembers (m : Memory) (ids : List ObjectId) (n : Memory) : Prop where
  chunks : n.chunks = m.chunks
  typeOf : n.typeOf = m.typeOf
  function : ∀ j, n.function? j =
    (m.function? j).map fun f => { f with verified := f.verified || decide (j ∈ ids) }

theorem Remembers.refl (m : Memory) : m.Remembers [] m :=
  ⟨rfl, rfl, fun j => by cases m.function? j <;> simp⟩

theorem remembers_setVerified (m : Memory) (id : ObjectId) :
    m.Remembers [id] (m.setVerified id) where
  chunks := rfl
  typeOf := by
    funext v
    cases v with
    | object i =>
      rw [typeOf_object, typeOf_object, setVerified, payload?_modifyPayload]
      split
      · rcases m.payload? i with _ | p
        · rfl
        · cases p <;> rfl
      · rfl
    | _ => rfl
  function j := by
    rw [function?_eq, function?_eq, setVerified, payload?_modifyPayload]
    rcases m.payload? j with _ | p
    · rw [Option.map_none, ite_self]
      rfl
    · by_cases hid : id = j
      · subst hid
        cases p <;> simp
      · have hother : ¬ j = id := fun heq => hid heq.symm
        cases p <;> simp [hid, hother]

theorem Remembers.trans {o : Memory} {more : List ObjectId} (h : m.Remembers ids n)
    (h' : n.Remembers more o) : m.Remembers (ids ++ more) o where
  chunks := h'.chunks.trans h.chunks
  typeOf := h'.typeOf.trans h.typeOf
  function j := by
    rw [h'.function, h.function, Option.map_map]
    congr 1
    funext f
    simp [Bool.or_assoc]

theorem remembers_setAllVerified (m : Memory) (ids : List ObjectId) :
    m.Remembers ids (ids.foldl setVerified m) := by
  induction ids generalizing m with
  | nil => exact .refl m
  | cons id ids ih => exact (remembers_setVerified m id).trans (ih (m.setVerified id))

section

variable (h : m.Remembers ids n)

include h

theorem Remembers.chunkOf? {f : Function} {flag : Bool} :
    n.chunkOf? { f with verified := flag } = m.chunkOf? f := by
  rw [Memory.chunkOf?, Memory.chunkOf?, h.chunks]

theorem Remembers.links : n.Links = m.Links := by
  funext i j
  refine propext ⟨?_, ?_⟩
  · rintro ⟨f, c, hf, hc, hj⟩
    rw [h.function] at hf
    obtain ⟨g, hg, rfl⟩ := Option.map_eq_some_iff.1 hf
    exact ⟨g, c, hg, h.chunkOf?.symm.trans hc, hj⟩
  · rintro ⟨g, c, hg, hc, hj⟩
    have hf := h.function i
    rw [hg] at hf
    exact ⟨_, c, hf, h.chunkOf?.trans hc, hj⟩

theorem Remembers.passes {f : Function} {flag : Bool} :
    n.Passes { f with verified := flag } ↔ m.Passes f := by
  rw [Passes, Passes, h.chunkOf?, h.typeOf]

theorem Remembers.valid : n.Valid id ↔ m.Valid id := by
  constructor
  · intro hn g hg
    have hf := h.function id
    rw [hg] at hf
    exact h.passes.1 (hn _ hf)
  · intro hm f hf
    rw [h.function] at hf
    obtain ⟨g, hg, rfl⟩ := Option.map_eq_some_iff.1 hf
    exact h.passes.2 (hm g hg)

theorem Remembers.whollyValid : n.WhollyValid id ↔ m.WhollyValid id := by
  rw [WhollyValid, WhollyValid, h.links]
  exact forall_congr' fun _ => imp_congr_right fun _ => h.valid

theorem Remembers.covered (hcovered : m.Covered ids id) : n.Covered [] id := by
  intro f hf
  rw [h.function] at hf
  obtain ⟨g, hg, rfl⟩ := Option.map_eq_some_iff.1 hf
  refine Or.inl ?_
  rcases hcovered g hg with hverified | hid
  · simp [hverified]
  · simp [hid]

theorem Remembers.settled (hm : m.Settled) (hids : ∀ i ∈ ids, m.Closed ids i) : n.Settled := by
  intro i f hf hverified
  rw [h.function] at hf
  obtain ⟨g, hg, rfl⟩ := Option.map_eq_some_iff.1 hf
  have hclosed : m.Closed ids i := by
    rcases Bool.or_eq_true_iff.1 hverified with hverified | hi
    · exact (hm i g hg hverified).mono fun _ => nofun
    · exact hids i (of_decide_eq_true hi)
  exact ⟨h.valid.2 hclosed.valid, fun j hj => h.covered (hclosed.covers j (h.links ▸ hj))⟩

end

/-! ### Verifying -/

theorem Settled.whollyValid (hm : m.Settled) (hid : m.Covered [] id) : m.WhollyValid id := by
  have hcovered : ∀ j, ReflTransGen m.Links id j → m.Covered [] j := by
    intro j hj
    induction hj with
    | refl => exact hid
    | tail _ hlinks ih =>
      have ⟨f, _, hf, _⟩ := hlinks
      have hverified := (ih f hf).resolve_right nofun
      exact (hm _ f hf hverified).covers _ hlinks
  intro j hj f hf
  have hverified := (hcovered j hj f hf).resolve_right nofun
  exact (hm j f hf hverified).valid f hf

theorem accounted_nil (visits : List Visit) : Accounted [] [] visits := fun _ => nofun

/-- A successful verification leaves the function verified, with all it leads to. -/
theorem verify_finished (hm : m.Settled) (h : (m.verify id).2 = none) :
    (m.verify id).1.Settled ∧ (m.verify id).1.Covered [] id ∧
      ∃ ids, m.Remembers ids (m.verify id).1 := by
  rw [verify_eq] at h ⊢
  split
  · next hverified =>
    refine ⟨hm, fun f hf => Or.inl ?_, [], .refl m⟩
    rw [hf] at hverified
    exact hverified
  · next hverified =>
    rw [if_neg hverified] at h
    have hfinished := verifySearch_finished (accounted_nil _) h
    have hremembers := remembers_setAllVerified m (m.verifySearch [] [] [.enter id]).1
    refine ⟨hremembers.settled hm fun i hi => ?_,
      hremembers.covered (hfinished.enters id List.mem_cons_self), _, hremembers⟩
    rcases hfinished.closed i hi with hi | hi | hi
    · cases hi
    · cases List.mem_singleton.1 hi
    · exact hi

/-- Without cycles a verification keeps memories settled, even if it fails. -/
theorem Settled.verify_of_acyclic (hm : m.Settled) (hacyclic : ∀ i, ¬ TransGen m.Links i i)
    (id : ObjectId) : (m.verify id).1.Settled := by
  rw [verify_eq]
  split
  · exact hm
  · exact (remembers_setAllVerified m _).settled hm
      (verifySearch_closed hacyclic (accounted_nil _) trivial fun _ => nofun)

theorem verify_remembers (m : Memory) (id : ObjectId) : ∃ ids, m.Remembers ids (m.verify id).1 := by
  rw [verify_eq]
  split
  · exact ⟨[], .refl m⟩
  · exact ⟨_, remembers_setAllVerified m _⟩

/-- A function that leads to valid code only is never refused. -/
theorem WhollyValid.verify (h : m.WhollyValid id) : (m.verify id).2 = none := by
  rw [verify_eq]
  split
  · rfl
  · refine verifySearch_none fun i hi => ?_
    cases List.mem_singleton.1 hi
    exact h

/-- In a settled memory verification is exact. -/
theorem Settled.verify_eq_none (hm : m.Settled) :
    (m.verify id).2 = none ↔ m.WhollyValid id := by
  refine ⟨fun h => ?_, WhollyValid.verify⟩
  obtain ⟨hsettled, hcovered, ids, hremembers⟩ := verify_finished hm h
  exact hremembers.whollyValid.1 (hsettled.whollyValid hcovered)

end Memory

end StackVm
