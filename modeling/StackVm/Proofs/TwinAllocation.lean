/-
Twins that allocate.  Both sides reach equally many objects, so that an allocation
fails on both or on none; what is reachable survives the collections on both sides,
and the two new objects stand for one another.
-/
import StackVm.Proofs.Lockstep

namespace StackVm

section

variable {E : Comparison} {pairing : Pairing} {s t : Execution}

/-- The pairs that survive an allocation, with the pair of the new objects if it
succeeds. -/
def Twin.survivors (E : Comparison) (pairing : Pairing) (s t : Execution) (made : Prop) : Pairing :=
  fun i j => (pairing i j ∧ s.Reaches E.left i) ∨
    (made ∧ i = s.memory.objects.size ∧ j = t.memory.objects.size)

theorem Memory.Grown.owns {holdings : Holdings} {payload : Payload} {m n : Memory}
    (h : m.Grown holdings payload n) {i : ObjectId} (hi : m.Reachable holdings i)
    (hown : m.Owns i) : n.Owns i := by
  obtain ⟨p, hp⟩ := hown
  refine ⟨p, ?_, hp.heap.trans h.same.id.symm, hp.unswept⟩
  rw [placement?, h.object i hi]
  exact hp.found

theorem Memory.Grown.payload_of_owns {holdings : Holdings} {payload : Payload} {m n : Memory}
    (h : m.Grown holdings payload n) {i : ObjectId} (hi : m.Owns i) :
    n.payload? i = m.payload? i := by
  rw [h.payload, if_neg (Nat.ne_of_lt hi.lt_size)]

theorem Ground.Carries.grown {g : Ground} (hs : g.Carries s) {holdings : Holdings}
    {payload : Payload} {m : Memory} (h : s.memory.Grown holdings payload m) :
    g.Carries { s with memory := m } where
  wellFormed := h.wellFormed
  source := hs.source
  roots := h.same.roots.trans hs.roots
  pins := h.same.pins.trans hs.pins
  limit := (congrArg Config.maxObjects h.same.config).trans hs.limit

theorem Twin.oneToOne_survivors (h : Twin E pairing s t) (made : Prop) :
    (Twin.survivors E pairing s t made).OneToOne := by
  have hlt : ∀ {i j}, pairing i j → i < s.memory.objects.size ∧ j < t.memory.objects.size :=
    fun hij => ⟨(h.owns hij).1.lt_size, (h.owns hij).2.lt_size⟩
  constructor
  · rintro i j k (⟨hij, _⟩ | ⟨_, hi, hj⟩) (⟨hik, _⟩ | ⟨_, hi', hk⟩)
    · exact h.memory.oneToOne.right hij hik
    · exact absurd hi' (Nat.ne_of_lt (hlt hij).1)
    · exact absurd hi (Nat.ne_of_lt (hlt hik).1)
    · exact hj.trans hk.symm
  · rintro i j k (⟨hik, _⟩ | ⟨_, hi, hk⟩) (⟨hjk, _⟩ | ⟨_, hj, hk'⟩)
    · exact h.memory.oneToOne.left hik hjk
    · exact absurd hk' (Nat.ne_of_lt (hlt hik).2)
    · exact absurd hk (Nat.ne_of_lt (hlt hjk).2)
    · exact hi.trans hj.symm

/-- The survivors and the new objects have the same contents on both sides. -/
theorem Twin.memory_survivors (h : Twin E pairing s t) {m n : Memory} {p q : Payload} (made : Prop)
    (hm : s.memory.Grown (s.machine.holdings (.of E.left.held)) p m)
    (hn : t.memory.Grown (t.machine.holdings (.of E.right.held)) q n)
    (hpq : p.Like pairing s.memory.chunks t.memory.chunks q)
    (hrefs : ∀ i ∈ p.references s.memory.chunks, s.Reaches E.left i) :
    m.Like (Twin.survivors E pairing s t made) n := by
  have hkeep : ∀ {i}, s.Reaches E.left i → ∀ j, pairing i j →
      Twin.survivors E pairing s t made i j := fun hi _ hij => Or.inl ⟨hij, hi⟩
  refine ⟨h.oneToOne_survivors made, ?_⟩
  rintro i j (⟨hij, hi⟩ | ⟨_, rfl, rfl⟩)
  · have hpayload := h.memory.payload hij
    rw [hm.payload_of_owns (h.owns hij).1, hn.payload_of_owns (h.owns hij).2,
      hm.chunks, hn.chunks]
    have hclosed : ∀ x ∈ s.memory.references i, s.Reaches E.left x :=
      fun x hx => hi.reference hx
    rw [Memory.references_eq] at hclosed
    revert hpayload hclosed
    generalize s.memory.payload? i = a
    generalize t.memory.payload? j = b
    intro hpayload hclosed
    cases hpayload with
    | none => exact .none
    | some hab => exact .some (hab.restrict fun x hx => hkeep (hclosed x hx))
  · rw [hm.payload, hn.payload, if_pos rfl, if_pos rfl, hm.chunks, hn.chunks]
    exact .some (hpq.restrict fun x hx => hkeep (hrefs x hx))

/-- What an attempt to allocate leaves on both sides is a pair of twins. -/
theorem Twin.grown_both (h : Twin E pairing s t) {m n : Memory} {p q : Payload} (made : Prop)
    (hm : s.memory.Grown (s.machine.holdings (.of E.left.held)) p m)
    (hn : t.memory.Grown (t.machine.holdings (.of E.right.held)) q n)
    (hpq : p.Like pairing s.memory.chunks t.memory.chunks q)
    (hrefs : ∀ i ∈ p.references s.memory.chunks, s.Reaches E.left i)
    (hmade : made → m.Owns s.memory.objects.size ∧ n.Owns t.memory.objects.size) :
    Twin E (Twin.survivors E pairing s t made) { s with memory := m } { t with memory := n } := by
  have hleft := h.left.reachable E.registeredLeft
  have hright := h.right.reachable E.registeredRight
  have hreach : ∀ {i j}, pairing i j → s.Reaches E.left i → t.Reaches E.right j := by
    intro i j hij hi
    -- Some partner is reached, and there is only one.
    obtain ⟨k, hk, hik⟩ := h.reaches_left hi
    exact h.memory.oneToOne.right hik hij ▸ hk
  have hkeep : ∀ {i}, s.Reaches E.left i → ∀ j, pairing i j →
      Twin.survivors E pairing s t made i j := fun hi _ hij => Or.inl ⟨hij, hi⟩
  constructor
  case left => exact h.left.grown hm
  case right => exact h.right.grown hn
  case memory => exact h.memory_survivors made hm hn hpq hrefs
  case machine => exact h.machine.restrict fun i hi => hkeep (.start (Or.inl hi))
  case lastError => exact h.lastError
  case owns =>
    rintro i j (⟨hij, hi⟩ | ⟨hnew, rfl, rfl⟩)
    · exact ⟨hm.owns (hleft ▸ hi) (h.owns hij).1, hn.owns (hright ▸ hreach hij hi) (h.owns hij).2⟩
    · exact hmade hnew
  case outside_left =>
    intro i hi
    obtain ⟨j, hj, hij⟩ := h.outside_left i hi
    exact ⟨j, hj, hkeep (.start (Or.inr hi)) j hij⟩
  case outside_right =>
    intro j hj
    obtain ⟨i, hi, hij⟩ := h.outside_right j hj
    exact ⟨i, hi, hkeep (.start (Or.inr hi)) j hij⟩
  case input => exact h.input
  case out => exact h.out
  case err => exact h.err
  case size =>
    have hsize := h.size
    change m.objects.size + E.right.size = n.objects.size + E.left.size
    rw [hm.size, hn.size]
    omega
  case grown =>
    have hgrown := h.grown
    change E.left.size ≤ m.objects.size
    rw [hm.size]
    omega
  case traces =>
    rintro i j (⟨hij, _⟩ | ⟨_, rfl, rfl⟩)
    · exact h.traces hij
    · have hsize := h.size
      have hgrown := h.grown
      exact Or.inr ⟨hgrown, by omega, hsize⟩

/-- Both sides have made an object, or both have stopped. -/
inductive Made (E : Comparison) (pairing : Pairing) (s : Execution) :
    EStateM.Result Stop Execution ObjectId → EStateM.Result Stop Execution ObjectId → Prop
  | ok {after : Pairing} {i j : ObjectId} {s' t' : Execution} :
      Twin E after s' t' → after i j →
      (∀ x y, pairing x y → s.Reaches E.left x → after x y) → s'.machine = s.machine →
      Made E pairing s (.ok i s') (.ok j t')
  | stop {after : Pairing} {e : Stop} {s' t' : Execution} :
      Twin E after s' t' → e.Expected → Made E pairing s (.error e s') (.error e t')

/-- Two ways of making objects that keep twins in lockstep, where the contents refer to
nothing but what is reached. -/
def Agree (E : Comparison) (make make' : Exec.Allocator) : Prop :=
  ∀ ⦃pairing : Pairing⦄ ⦃s t : Execution⦄ ⦃p q : Payload⦄, Twin E pairing s t →
    p.Like pairing s.memory.chunks t.memory.chunks q →
    (∀ i ∈ p.references s.memory.chunks, s.Reaches E.left i) →
    Made E pairing s (make p s) (make' q t)

theorem Exec.alloc_of_ok {others : Holdings} {p : Payload} {id : ObjectId} {m : Memory}
    (h : Memory.alloc (s.machine.holdings others) p s.memory = .ok id m) :
    Exec.alloc others p s = .ok id { s with memory := m } := by
  obtain ⟨memory, machine, input, out, err⟩ := s
  rw [Exec.alloc, h]

theorem Exec.alloc_of_error {others : Holdings} {p : Payload} {f : Fault} {m : Memory}
    (h : Memory.alloc (s.machine.holdings others) p s.memory = .error f m) :
    Exec.alloc others p s = .error (.fault f) { s with memory := m } := by
  obtain ⟨memory, machine, input, out, err⟩ := s
  rw [Exec.alloc, h]

/-- The reachable objects alone reach the object limit. -/
def Ground.Full (g : Ground) (s : Execution) : Prop :=
  0 < g.limit ∧ g.limit.toInt ≤ {i | s.Reaches g i}.ncard

/-- The outcome of an allocation where every reachable object is owned. -/
theorem Ground.Carries.alloc {g : Ground} (h : g.Carries s) (hregistered : g.Registered)
    (hown : ∀ i, s.Reaches g i → s.memory.Owns i) (p : Payload) :
    ∃ m, s.memory.Grown (s.machine.holdings (.of g.held)) p m ∧
      ((¬ g.Full s ∧ m.Owns s.memory.objects.size ∧
          Exec.alloc (.of g.held) p s = .ok s.memory.objects.size { s with memory := m }) ∨
        (g.Full s ∧ Exec.alloc (.of g.held) p s =
          .error (.fault (.exhausted {i | s.Reaches g i}.ncard g.limit))
            { s with memory := m })) := by
  have hreach := h.reachable hregistered
  rw [Machine.holdings_of] at hreach ⊢
  have hfull : s.memory.Exhausts (.of fun id =>
      if id = s.machine.source then s.machine.holds else g.held id) ↔ g.Full s := by
    rw [Memory.Exhausts, hreach, Config.isFull, h.limit, Bool.and_eq_true, decide_eq_true_eq,
      decide_eq_true_eq, Ground.Full]
  obtain ⟨m, hm, hcases⟩ := Memory.alloc_cases h.wellFormed
    (fun i hi => hown i (hreach ▸ hi)) p
  rw [hfull, hreach, h.limit, ← Machine.holdings_of] at hcases
  refine ⟨m, hm, ?_⟩
  rcases hcases with ⟨hroom, hnew, halloc⟩ | ⟨hnone, halloc⟩
  · exact Or.inl ⟨hroom, hnew, Exec.alloc_of_ok halloc⟩
  · exact Or.inr ⟨hnone, Exec.alloc_of_error halloc⟩

theorem Twin.full_iff (h : Twin E pairing s t) : E.left.Full s ↔ E.right.Full t := by
  rw [Ground.Full, Ground.Full, E.limit, h.ncard_reaches]

/-- Allocations on the two grounds keep twins in lockstep. -/
theorem agree_alloc (E : Comparison) :
    Agree E (Exec.alloc (.of E.left.held)) (Exec.alloc (.of E.right.held)) := by
  intro pairing s t p q h hpq hrefs
  obtain ⟨m, hm, hleft⟩ := h.left.alloc E.registeredLeft (fun i hi => h.owns_left hi) p
  obtain ⟨n, hn, hright⟩ := h.right.alloc E.registeredRight (fun j hj => h.owns_right hj) q
  rw [← h.full_iff, ← E.limit, ← h.ncard_reaches] at hright
  rcases hleft with ⟨hroom, hnew, hleft⟩ | ⟨hfull, hleft⟩
  · rcases hright with ⟨_, hnew', hright⟩ | ⟨hfull, _⟩
    · have htwin := h.grown_both True hm hn hpq hrefs fun _ => ⟨hnew, hnew'⟩
      rw [hleft, hright]
      exact .ok htwin (Or.inr ⟨trivial, rfl, rfl⟩) (fun x y hxy hx => Or.inl ⟨hxy, hx⟩) rfl
    · exact absurd hfull hroom
  · rcases hright with ⟨hroom, _⟩ | ⟨_, hright⟩
    · exact absurd hfull hroom
    · have htwin := h.grown_both False hm hn hpq hrefs False.elim
      rw [hleft, hright]
      exact .stop htwin (.exhausted _ _)

theorem Agree.bind {make make' : Exec.Allocator} (hagree : Agree E make make')
    (h : Twin E pairing s t) {p q : Payload}
    (hpq : p.Like pairing s.memory.chunks t.memory.chunks q)
    (hrefs : ∀ i ∈ p.references s.memory.chunks, s.Reaches E.left i)
    {α α' : Type} {post : Pairing → α → α' → Prop} {f : ObjectId → ExecM α}
    {g : ObjectId → ExecM α'}
    (hnext : ∀ after i j s' t', Twin E after s' t' → after i j →
      (∀ x y, pairing x y → s.Reaches E.left x → after x y) → s'.machine = s.machine →
      Both E post (f i s') (g j t')) :
    Both E post ((make p >>= f) s) ((make' q >>= g) t) := by
  have hmade := hagree h hpq hrefs
  rw [bind_apply, bind_apply]
  revert hmade
  generalize make p s = r
  generalize make' q t = r'
  intro hmade
  cases hmade with
  | ok htwin hij hkept hmachine => exact hnext _ _ _ _ _ htwin hij hkept hmachine
  | stop htwin he => exact .stop htwin he

end

end StackVm
