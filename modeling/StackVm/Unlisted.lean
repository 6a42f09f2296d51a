/-
Counting what a search has not listed yet.

A search over the numbers below a bound that never takes one twice ends, because
the numbers it has not listed go down with each one it takes.
-/

namespace StackVm

theorem countP_lt_of_mem {α : Type} {p q : α → Bool} {l : List α} {a : α}
    (hpq : ∀ x ∈ l, q x = true → p x = true) (ha : a ∈ l) (hp : p a = true)
    (hq : q a = false) : l.countP q < l.countP p := by
  induction l with
  | nil => cases ha
  | cons b rest ih =>
    have hle : rest.countP q ≤ rest.countP p :=
      List.countP_mono_left fun x hx => hpq x (List.mem_cons_of_mem b hx)
    rcases List.mem_cons.1 ha with rfl | ha'
    · rw [List.countP_cons_of_pos hp, List.countP_cons_of_neg (by simp [hq])]
      omega
    · have hlt := ih (fun x hx => hpq x (List.mem_cons_of_mem b hx)) ha'
      by_cases hb : q b = true
      · rw [List.countP_cons_of_pos hb, List.countP_cons_of_pos (hpq b List.mem_cons_self hb)]
        omega
      · rw [List.countP_cons_of_neg hb, List.countP_cons]
        omega

/-- How many numbers below `bound` are not in a list. -/
def unlisted (bound : Nat) (listed : List Nat) : Nat :=
  (List.range bound).countP fun i => decide (i ∉ listed)

theorem unlisted_lt {bound i : Nat} {listed more : List Nat} (hi : i < bound)
    (hnot : i ∉ listed) (hmem : i ∈ more) (hsub : ∀ x ∈ listed, x ∈ more) :
    unlisted bound more < unlisted bound listed := by
  unfold unlisted
  apply countP_lt_of_mem (a := i)
  · intro x _ hx
    simp only [decide_eq_true_eq] at hx ⊢
    exact fun h => hx (hsub x h)
  · exact List.mem_range.2 hi
  · simpa using hnot
  · simpa using hmem

theorem unlisted_cons_lt {bound i : Nat} {listed : List Nat} (hi : i < bound)
    (hnot : i ∉ listed) : unlisted bound (i :: listed) < unlisted bound listed :=
  unlisted_lt hi hnot List.mem_cons_self fun _ h => List.mem_cons_of_mem i h

end StackVm
