/-
Tables of globals under a pairing.  Like tables bind the same names in the same
order and find each name at the same place, whatever their caches hold; reading,
assigning and defining a name keep them alike.
-/
import StackVm.Proofs.Likeness

namespace StackVm.Globals

open List (Forall₂)

/-- The same names bound in the same order to like values, and found alike. -/
structure Like (pairing : Pairing) (g h : Globals) : Prop where
  record : g.toRecord.Like pairing h.toRecord
  place : ∀ name, (g.resolve name).1 = (h.resolve name).1

theorem resolve_record (g : Globals) (name : Text) :
    (g.resolve name).2.toRecord = g.toRecord := by
  unfold resolve
  split
  · rfl
  · split <;> rfl

theorem place_remember (g : Globals) (name other : Text) (slot : Nat) :
    ((g.remember name slot).resolve other).1 =
      if name = other then some slot else g.slot? other := by
  have hcached : (g.remember name slot).cached? other =
      if name = other then some slot else none := by
    simp [cached?, remember]
  have hslot : (g.remember name slot).slot? other = g.slot? other := rfl
  rw [resolve, hcached, hslot]
  by_cases hname : name = other
  · simp only [if_pos hname]
  · simp only [if_neg hname]
    cases g.slot? other <;> rfl

/-- A cache that knows a name knows nothing else. -/
theorem place_of_cached {g : Globals} {name : Text} {slot : Nat}
    (hcached : g.cached? name = some slot) (other : Text) :
    (g.resolve other).1 = if name = other then some slot else g.slot? other := by
  by_cases hname : name = other
  · subst hname
    rw [if_pos rfl, resolve, hcached]
  · have hmiss : g.cached? other = none := by
      rw [cached?] at hcached ⊢
      split at hcached
      · split at hcached
        · next hknown =>
          exact if_neg fun h => hname (hknown.2.symm.trans h.2)
        · cases hcached
      · cases hcached
    rw [if_neg hname, resolve, hmiss]
    cases g.slot? other <;> rfl

/-- Finding a name leaves its place remembered, if it has one. -/
theorem place_resolve (g : Globals) (name other : Text) :
    ((g.resolve name).2.resolve other).1 = match (g.resolve name).1 with
      | some slot => if name = other then some slot else g.slot? other
      | none => (g.resolve other).1 := by
  cases hcached : g.cached? name with
  | some slot =>
    have hresolve : g.resolve name = (some slot, g) := by rw [resolve, hcached]
    rw [hresolve]
    exact place_of_cached hcached other
  | none =>
    cases hslot : g.slot? name with
    | some slot =>
      have hresolve : g.resolve name = (some slot, g.remember name slot) := by
        rw [resolve, hcached, hslot]
      rw [hresolve]
      exact place_remember g name other slot
    | none =>
      have hresolve : g.resolve name = (none, g) := by rw [resolve, hcached, hslot]
      rw [hresolve]

section

variable {pairing smaller : Pairing} {g h : Globals}

theorem like_remember (hlike : g.toRecord.Like pairing h.toRecord) (name : Text) (slot : Nat) :
    (g.remember name slot).Like pairing (h.remember name slot) := by
  refine ⟨hlike, fun other => ?_⟩
  rw [place_remember, place_remember, hlike.slot?]

theorem Like.resolve (hlike : g.Like pairing h) (name : Text) :
    (g.resolve name).2.Like pairing (h.resolve name).2 := by
  constructor
  · rw [resolve_record, resolve_record]
    exact hlike.record
  · intro other
    rw [place_resolve, place_resolve, hlike.place name, hlike.place other, hlike.record.slot?]

/-- Like tables answer alike and stay alike. -/
theorem Like.get (hlike : g.Like pairing h) (name : Text) :
    Option.Rel (Value.Like pairing) (g.get name).1 (h.get name).1 ∧
      (g.get name).2.Like pairing (h.get name).2 := by
  refine ⟨?_, hlike.resolve name⟩
  have hplace := hlike.place name
  have hresolved := hlike.resolve name
  rw [Globals.get, Globals.get]
  simp only [hplace]
  cases (h.resolve name).1 with
  | none => exact .none
  | some slot => exact forall₂_iff_getElem?.1 hresolved.record.values slot

/-- Assigning a name works on both tables or on none. -/
theorem Like.set (hlike : g.Like pairing h) (name : Text) {v w : Value}
    (hvw : v.Like pairing w) :
    Option.Rel (Globals.Like pairing) (g.set name v) (h.set name w) := by
  have hresolved := hlike.resolve name
  have hplace := hlike.place name
  rw [Globals.set, Globals.set]
  simp only [hplace]
  cases (h.resolve name).1 with
  | none => exact .none
  | some slot => exact .some (like_remember (hresolved.record.putAt slot hvw) name slot)

theorem Like.define (hlike : g.Like pairing h) (name : Text) {v w : Value}
    (hvw : v.Like pairing w) : (g.define name v).Like pairing (h.define name w) := by
  rw [Globals.define, Globals.define, hlike.record.slot?, hlike.record.values.length_eq]
  exact like_remember (hlike.record.set name hvw) name _

theorem Like.values (hlike : g.Like pairing h) :
    Forall₂ (Value.Like pairing) g.values h.values := hlike.record.values

theorem Like.restrict (hlike : g.Like pairing h)
    (hkeep : ∀ i ∈ referents g.values, ∀ j, pairing i j → smaller i j) :
    g.Like smaller h := ⟨hlike.record.restrict hkeep, hlike.place⟩

end

end StackVm.Globals
