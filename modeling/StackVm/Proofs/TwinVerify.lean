/-
Twins through verification.  The search visits paired functions in the same order,
finds the same error or none, and leaves paired functions verified.
-/
import StackVm.Proofs.Lockstep

namespace StackVm

open List (Forall₂)

/-- The same step of the search for functions that stand for one another. -/
inductive Memory.Visit.Like (pairing : Pairing) : Memory.Visit → Memory.Visit → Prop
  | enter {i j : ObjectId} : pairing i j → Like pairing (.enter i) (.enter j)
  | leave {i j : ObjectId} : pairing i j → Like pairing (.leave i) (.leave j)

section

variable {pairing : Pairing}

theorem mem_iff_of_paired (hone : pairing.OneToOne) {is js : List ObjectId}
    (h : Forall₂ pairing is js) {i j : ObjectId} (hij : pairing i j) : i ∈ is ↔ j ∈ js := by
  constructor
  · intro hi
    obtain ⟨k, hk, hik⟩ := exists_mem_right h hi
    exact hone.right hik hij ▸ hk
  · intro hj
    obtain ⟨k, hk, hkj⟩ := exists_mem_left h hj
    exact hone.left hkj hij ▸ hk

theorem enter_like {vs ws : List Value} (h : Forall₂ (Value.Like pairing) vs ws) :
    Forall₂ (Memory.Visit.Like pairing) ((vs.filterMap Value.id?).map .enter)
      ((ws.filterMap Value.id?).map .enter) := by
  rw [List.forall₂_map_left_iff, List.forall₂_map_right_iff]
  exact (referents_like h).imp fun _ _ hij => .enter hij

namespace Memory

theorem verifySearch_enter_none {m : Memory} {seen verified : List ObjectId} {id : ObjectId}
    {rest : List Visit} (hf : m.function? id = none) :
    m.verifySearch seen verified (.enter id :: rest) = m.verifySearch seen verified rest := by
  rw [verifySearch]
  split
  · rfl
  · next f hsome =>
    rw [hf] at hsome
    cases hsome

theorem verifySearch_enter_some {m : Memory} {seen verified : List ObjectId} {id : ObjectId}
    {rest : List Visit} {f : Function} (hf : m.function? id = some f) :
    m.verifySearch seen verified (.enter id :: rest) =
      if f.verified ∨ id ∈ seen then m.verifySearch seen verified rest
      else match m.verifyOne f with
        | .error e => (verified, some e)
        | .ok constants => m.verifySearch (id :: seen) verified
            ((constants.filterMap Value.id?).map .enter ++ .leave id :: rest) := by
  rw [verifySearch]
  split
  · next hnone =>
    rw [hf] at hnone
    cases hnone
  · next g hsome =>
    rw [hf] at hsome
    cases hsome
    rfl

theorem Like.function?_some {m n : Memory} (h : m.Like pairing n) {i j : ObjectId}
    (hij : pairing i j) {f : Function} (hf : m.function? i = some f) :
    ∃ g, n.function? j = some g ∧ f.Like pairing m.chunks n.chunks g := by
  have hfunction := h.function? hij
  rw [hf] at hfunction
  revert hfunction
  generalize n.function? j = b
  rintro ⟨hfg⟩
  exact ⟨_, rfl, hfg⟩

/-- The search ends alike and leaves paired functions behind. -/
theorem Like.verifySearch {m n : Memory} (h : m.Like pairing n)
    {seen seen' verified verified' : List ObjectId} {visits visits' : List Visit}
    (hseen : Forall₂ pairing seen seen') (hverified : Forall₂ pairing verified verified')
    (hvisits : Forall₂ (Visit.Like pairing) visits visits') :
    Forall₂ pairing (m.verifySearch seen verified visits).1
        (n.verifySearch seen' verified' visits').1 ∧
      (m.verifySearch seen verified visits).2 = (n.verifySearch seen' verified' visits').2 := by
  induction seen, verified, visits using Memory.verifySearch.induct m
    generalizing seen' verified' visits' with
  | case1 seen verified =>
    cases hvisits
    rw [Memory.verifySearch, Memory.verifySearch]
    exact ⟨hverified, rfl⟩
  | case2 seen verified id rest ih =>
    cases hvisits with
    | cons hvisit hrest =>
      cases hvisit with
      | leave hij =>
        rw [Memory.verifySearch, Memory.verifySearch]
        exact ih hseen (.cons hij hverified) hrest
  | case3 seen verified id rest hf ih =>
    cases hvisits with
    | cons hvisit hrest =>
      cases hvisit with
      | @enter _ j hij =>
        have hfunction := h.function? hij
        rw [hf] at hfunction
        rw [verifySearch_enter_none hf]
        cases hg : n.function? j with
        | none =>
          rw [verifySearch_enter_none hg]
          exact ih hseen hverified hrest
        | some g =>
          rw [hg] at hfunction
          cases hfunction
  | case4 seen verified id rest f hf hdone ih =>
    cases hvisits with
    | cons hvisit hrest =>
      cases hvisit with
      | enter hij =>
        obtain ⟨g, hg, hfg⟩ := h.function?_some hij hf
        rw [verifySearch_enter_some hf, if_pos hdone]
        rw [hfg.verified, mem_iff_of_paired h.oneToOne hseen hij] at hdone
        rw [verifySearch_enter_some hg, if_pos hdone]
        exact ih hseen hverified hrest
  | case5 seen verified id rest f hf hdone e hone =>
    cases hvisits with
    | cons hvisit hrest =>
      cases hvisit with
      | enter hij =>
        obtain ⟨g, hg, hfg⟩ := h.function?_some hij hf
        rw [verifySearch_enter_some hf, if_neg hdone]
        rw [hfg.verified, mem_iff_of_paired h.oneToOne hseen hij] at hdone
        rw [verifySearch_enter_some hg, if_neg hdone]
        rcases h.verifyOne hfg with ⟨e', he, he'⟩ | ⟨vs, ws, hvs, _⟩
        · rw [he, he']
          exact ⟨hverified, rfl⟩
        · rw [hvs] at hone
          cases hone
  | case6 seen verified id rest f hf hdone constants hone ih =>
    cases hvisits with
    | cons hvisit hrest =>
      cases hvisit with
      | enter hij =>
        obtain ⟨g, hg, hfg⟩ := h.function?_some hij hf
        rw [verifySearch_enter_some hf, if_neg hdone]
        rw [hfg.verified, mem_iff_of_paired h.oneToOne hseen hij] at hdone
        rw [verifySearch_enter_some hg, if_neg hdone]
        rcases h.verifyOne hfg with ⟨e', he, _⟩ | ⟨vs, ws, hvs, hws, hlike⟩
        · rw [he] at hone
          cases hone
        · rw [hvs] at hone
          cases hone
          rw [hvs, hws]
          refine ih (.cons hij hseen) hverified ?_
          exact List.rel_append (enter_like hlike) (.cons (.leave hij) hrest)

end Memory

variable {E : Comparison} {s t : Execution}

theorem Twin.setVerified (h : Twin E pairing s t) {is js : List ObjectId}
    (hids : Forall₂ pairing is js) :
    Twin E pairing { s with memory := is.foldl Memory.setVerified s.memory }
      { t with memory := js.foldl Memory.setVerified t.memory } := by
  induction hids generalizing s t with
  | nil => exact h
  | @cons i j is js hij _ ih =>
    have hstep : Twin E pairing { s with memory := s.memory.setVerified i }
        { t with memory := t.memory.setVerified j } := by
      refine h.with_payload hij ?_
      intro p q hpq
      cases hpq with
      | function hf => exact .function ⟨hf.name, hf.arity, rfl, hf.code⟩
      | string data => exact .string data
      | array hxs => exact .array hxs
      | struct hr => exact .struct hr
    exact ih hstep

theorem Memory.verify_eq (m : Memory) (id : ObjectId) :
    m.verify id =
      if ((m.function? id).map (·.verified)).getD false then (m, none)
      else ((m.verifySearch [] [] [.enter id]).1.foldl setVerified m,
        (m.verifySearch [] [] [.enter id]).2) := by
  rw [verify]
  rcases m.function? id with _ | ⟨_, _, _, _ | _⟩ <;> rfl

/-- Verification finds the same error on both sides, or none, and leaves twins. -/
theorem Twin.verify (h : Twin E pairing s t) {i j : ObjectId} (hij : pairing i j) :
    (s.memory.verify i).2 = (t.memory.verify j).2 ∧
      Twin E pairing { s with memory := (s.memory.verify i).1 }
        { t with memory := (t.memory.verify j).1 } := by
  have hdone : ((s.memory.function? i).map (·.verified)).getD false =
      ((t.memory.function? j).map (·.verified)).getD false := by
    have hfunction := h.memory.function? hij
    revert hfunction
    generalize s.memory.function? i = a
    generalize t.memory.function? j = b
    rintro (hfg | _)
    · exact hfg.verified
    · rfl
  obtain ⟨hids, herror⟩ := h.memory.verifySearch .nil .nil (.cons (.enter hij) .nil)
  rw [Memory.verify_eq, Memory.verify_eq, hdone]
  split
  · exact ⟨rfl, h⟩
  · exact ⟨herror, h.setVerified hids⟩

end

end StackVm
