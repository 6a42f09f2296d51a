/-
Records as maps that remember an order.  The three columns of a record are one list of pairs, and
setting a field is an assignment in that list.  Whatever is set and however often, a record has each
name once, where it first came, with the value that came last.
-/
import Mathlib.Data.List.Induction
import Mathlib.Data.List.Nodup
import StackVm.Record

namespace StackVm.Record

variable {r : Record} {sets : List (Text × Value)} {name other : Text} {v w : Value} {slot : Nat}

/-! ### Names and places -/

/-- No name stands twice, as the index has one place for it. -/
theorem names_nodup (r : Record) : r.names.Nodup := by
  rw [List.nodup_iff_getElem?_ne_getElem?]
  intro i j hij hj hsame
  rw [List.getElem?_eq_getElem hj] at hsame
  have hfirst := (r.indexed _ i).2 hsame
  have hsecond := (r.indexed _ j).2 (List.getElem?_eq_getElem hj)
  have heq : i = j := Option.some.inj (hfirst.symm.trans hsecond)
  omega

/-- The index finds what a search through the names finds. -/
theorem slot?_eq (r : Record) (name : Text) : r.slot? name = r.names.findIdx? (· == name) := by
  refine Option.ext fun slot => ?_
  rw [slot?, r.indexed, List.findIdx?_eq_some_iff_getElem]
  constructor
  · intro hname
    obtain ⟨hlt, rfl⟩ := List.getElem?_eq_some_iff.1 hname
    refine ⟨hlt, beq_self_eq_true _, ?_⟩
    intro j hj hbeq
    have hsame : j = slot := r.names_nodup.getElem_inj_iff.1 (eq_of_beq hbeq)
    omega
  · rintro ⟨hlt, hname, -⟩
    rw [List.getElem?_eq_getElem hlt, eq_of_beq hname]

theorem slot?_eq_none_iff : r.slot? name = none ↔ name ∉ r.names := by
  rw [slot?_eq, List.findIdx?_eq_none_iff]
  constructor
  · intro hall hmem
    simpa using hall name hmem
  · intro hnot x hx
    exact beq_eq_false_iff_ne.2 fun heq => hnot (heq ▸ hx)

/-- Setting a field puts the value in the place of the name, or a new name at the end. -/
theorem set_cases (r : Record) (name : Text) (v : Value) :
    (∃ slot, r.slot? name = some slot ∧ name ∈ r.names ∧ r.set name v = r.putAt slot v) ∨
      ∃ hnew, name ∉ r.names ∧ r.set name v = r.push name v hnew := by
  rcases Option.eq_none_or_eq_some (r.slot? name) with hnew | ⟨slot, hslot⟩
  · exact Or.inr ⟨hnew, slot?_eq_none_iff.1 hnew, set_of_new hnew v⟩
  · have hmem : name ∈ r.names := List.mem_of_getElem? ((r.indexed name slot).1 hslot)
    exact Or.inl ⟨slot, hslot, hmem, set_of_slot? hslot v⟩

/-- Every name has a value at its place. -/
theorem get?_of_slot? (hslot : r.slot? name = some slot) :
    ∃ v, r.values[slot]? = some v ∧ r.get? name = some v := by
  have hname := (List.getElem?_eq_some_iff.1 ((r.indexed name slot).1 hslot)).1
  have hlt : slot < r.values.length := r.aligned.symm ▸ hname
  refine ⟨_, List.getElem?_eq_getElem hlt, ?_⟩
  rw [get?, hslot, Option.bind_some, List.getElem?_eq_getElem hlt]

/-- Where a name stands, its value stands too. -/
theorem values_eq (r : Record) : r.values.map some = r.names.map r.get? := by
  refine List.ext_getElem (by simp [r.aligned]) fun i hi hj => ?_
  rw [List.length_map] at hi hj
  have hslot := (r.indexed r.names[i] i).2 (List.getElem?_eq_getElem hj)
  rw [List.getElem_map, List.getElem_map, get?, slot?, hslot, Option.bind_some,
    List.getElem?_eq_getElem hi]

/-! ### The columns as one list -/

/-- Puts `v` under `name` in a list of pairs: in place if the name is there, else at the end. -/
def setFields (name : Text) (v : Value) : List (Text × Value) → List (Text × Value)
  | [] => [(name, v)]
  | (n, w) :: rest => if n = name then (n, v) :: rest else (n, w) :: setFields name v rest

theorem lookup_cons_ite (n : Text) (x : Value) (fields : List (Text × Value)) :
    ((n, x) :: fields).lookup name = if name = n then some x else fields.lookup name := by
  rw [List.lookup_cons]
  split
  · next heq => rw [if_pos (beq_iff_eq.1 heq)]
  · next hne => rw [if_neg (beq_eq_false_iff_ne.1 hne)]

theorem names_eq_map (r : Record) : r.names = r.fields.map (·.1) :=
  (List.map_fst_zip (Nat.le_of_eq r.aligned.symm)).symm

theorem values_eq_map (r : Record) : r.values = r.fields.map (·.2) :=
  (List.map_snd_zip (Nat.le_of_eq r.aligned)).symm

/-- What stands at the place of a name in one list is what is paired with it. -/
theorem bind_findIdx?_eq_lookup {names : List Text} {values : List Value}
    (hlength : values.length = names.length) (name : Text) :
    ((names.findIdx? (· == name)).bind fun slot => values[slot]?) =
      (names.zip values).lookup name := by
  induction names generalizing values with
  | nil => rfl
  | cons n names ih =>
    cases values with
    | nil => cases hlength
    | cons x values =>
      rw [List.zip_cons_cons, lookup_cons_ite, List.findIdx?_cons, ← ih (Nat.succ.inj hlength)]
      by_cases hname : name = n
      · simp [hname]
      · rw [if_neg hname, beq_eq_false_iff_ne.2 (Ne.symm hname), if_neg Bool.false_ne_true,
          Option.bind_map]
        rfl

/-- A value that is put in the place of a name is put under that name. -/
theorem zip_set_eq_setFields {names : List Text} {values : List Value}
    (hlength : values.length = names.length) (hslot : names.findIdx? (· == name) = some slot) :
    names.zip (values.set slot v) = setFields name v (names.zip values) := by
  induction names generalizing values slot with
  | nil => cases hslot
  | cons n names ih =>
    cases values with
    | nil => cases hlength
    | cons x values =>
      rw [List.findIdx?_cons] at hslot
      rw [List.zip_cons_cons, setFields]
      by_cases hname : n = name
      · rw [beq_iff_eq.2 hname] at hslot
        cases hslot
        rw [if_pos hname]
        rfl
      · rw [beq_eq_false_iff_ne.2 hname] at hslot
        obtain ⟨slot, hrest, rfl⟩ := Option.map_eq_some_iff.1 hslot
        rw [if_neg hname, ← ih (Nat.succ.inj hlength) hrest]
        rfl

theorem setFields_of_notMem {fields : List (Text × Value)} (hnew : name ∉ fields.map (·.1)) :
    setFields name v fields = fields ++ [(name, v)] := by
  induction fields with
  | nil => rfl
  | cons field rest ih =>
    rw [List.map_cons, List.mem_cons, not_or] at hnew
    rw [setFields, if_neg (Ne.symm hnew.1), ih hnew.2]
    rfl

/-- A look-up through the index is one in the list of pairs. -/
theorem get?_eq_lookup (r : Record) (name : Text) : r.get? name = r.fields.lookup name := by
  rw [get?, slot?_eq]
  exact bind_findIdx?_eq_lookup r.aligned name

/-- Setting a field in the columns and in their index is setting it in the list of pairs. -/
theorem fields_set (r : Record) (name : Text) (v : Value) :
    (r.set name v).fields = setFields name v r.fields := by
  obtain ⟨slot, hslot, -, hset⟩ | ⟨hnew, hmem, hset⟩ := set_cases r name v
  · rw [hset]
    exact zip_set_eq_setFields r.aligned (r.slot?_eq name ▸ hslot)
  · rw [hset, setFields_of_notMem (r.names_eq_map ▸ hmem)]
    exact List.zip_append r.aligned.symm

/-! ### One field -/

theorem get?_set : (r.set name v).get? other = if other = name then some v else r.get? other := by
  rw [get?_eq_lookup, get?_eq_lookup, fields_set]
  induction r.fields with
  | nil => rw [setFields, lookup_cons_ite]
  | cons field rest ih =>
    obtain ⟨n, x⟩ := field
    rw [setFields]
    split
    · next heq =>
      subst heq
      rw [lookup_cons_ite, lookup_cons_ite]
      split_ifs <;> rfl
    · next hname =>
      rw [lookup_cons_ite, lookup_cons_ite, ih]
      by_cases hother : other = n
      · rw [if_pos hother, if_neg (hother ▸ hname), if_pos hother]
      · rw [if_neg hother, if_neg hother]

theorem names_set : (r.set name v).names =
    if name ∈ r.names then r.names else r.names ++ [name] := by
  obtain ⟨slot, -, hmem, hset⟩ | ⟨hnew, hmem, hset⟩ := set_cases r name v
  · rw [hset, if_pos hmem]
    rfl
  · rw [hset, if_neg hmem]
    rfl

/-- The index changes where the names do. -/
theorem index_set : (r.set name v).index =
    if name ∈ r.names then r.index else (name, r.names.length) :: r.index := by
  obtain ⟨slot, -, hmem, hset⟩ | ⟨hnew, hmem, hset⟩ := set_cases r name v
  · rw [hset, if_pos hmem]
    rfl
  · rw [hset, if_neg hmem]
    rfl

theorem setFields_comm {fields : List (Text × Value)} (hname : name ∈ fields.map (·.1))
    (hne : name ≠ other) : setFields other w (setFields name v fields) =
      setFields name v (setFields other w fields) := by
  induction fields with
  | nil => cases hname
  | cons field rest ih =>
    obtain ⟨n, x⟩ := field
    by_cases hfirst : n = name
    · have hother : ¬ n = other := fun heq => hne (hfirst.symm.trans heq)
      simp only [setFields, if_pos hfirst, if_neg hother]
    by_cases hother : n = other
    · simp only [setFields, if_neg hfirst, if_pos hother]
    · have hlater : name ∈ rest.map (·.1) := (List.mem_cons.1 hname).resolve_left (Ne.symm hfirst)
      simp only [setFields, if_neg hfirst, if_neg hother, ih hlater]

/-- A name that is there is overwritten in place, whatever else is set. -/
theorem set_comm (hname : name ∈ r.names) (hne : name ≠ other) :
    (r.set name v).set other w = (r.set other w).set name v := by
  have hlater : name ∈ (r.set other w).names := by
    rw [names_set]
    split
    · exact hname
    · exact List.mem_append_left _ hname
  have hnames : (r.set name v).names = r.names := by rw [names_set, if_pos hname]
  have hindex : (r.set name v).index = r.index := by rw [index_set, if_pos hname]
  apply Record.ext
  case index =>
    rw [index_set (r := r.set other w), if_pos hlater, index_set (r := r.set name v), hnames,
      hindex]
    exact index_set.symm
  case names =>
    rw [names_set (r := r.set other w), if_pos hlater, names_set (r := r.set name v), hnames]
    exact names_set.symm
  case values =>
    rw [values_eq_map, values_eq_map, fields_set, fields_set, fields_set, fields_set,
      setFields_comm (r.names_eq_map ▸ hname) hne]

/-! ### Many fields -/

/-- The value that was set last under a name. -/
def lastSet (sets : List (Text × Value)) (name : Text) : Option Value := sets.reverse.lookup name

/-- The record is the map that what has been set makes, in the order in which the names came. -/
structure Remembers (r : Record) (sets : List (Text × Value)) : Prop where
  distinct : r.names.Nodup
  mem_names : ∀ name, name ∈ r.names ↔ name ∈ sets.map (·.1)
  order : r.names.Pairwise fun a b => (sets.map (·.1)).idxOf a < (sets.map (·.1)).idxOf b
  get : ∀ name, r.get? name = lastSet sets name
  contains : ∀ name, r.contains name = (lastSet sets name).isSome
  size : r.size = r.names.length
  values : r.values.map some = r.names.map (lastSet sets)

theorem lastSet_concat : lastSet (sets ++ [(name, v)]) other =
    if other = name then some v else lastSet sets other := by
  rw [lastSet, List.reverse_concat, lookup_cons_ite]
  rfl

theorem ofPairs_append (sets later : List (Text × Value)) :
    ofPairs (sets ++ later) = later.foldl (fun r p => r.set p.1 p.2) (ofPairs sets) :=
  List.foldl_append

theorem remembers_nil : Remembers {} [] where
  distinct := .nil
  mem_names _ := Iff.rfl
  order := .nil
  get _ := rfl
  contains _ := rfl
  size := rfl
  values := rfl

/-- A record has a field exactly when it has a value for it. -/
theorem contains_eq (r : Record) (name : Text) : r.contains name = (r.get? name).isSome := by
  rw [contains]
  cases hslot : r.slot? name with
  | some slot =>
    obtain ⟨v, -, hv⟩ := get?_of_slot? hslot
    rw [hv]
    rfl
  | none => rw [get?, hslot]; rfl

/-- One more thing is remembered when it is set. -/
theorem Remembers.set (h : Remembers r sets) (name : Text) (v : Value) :
    Remembers (r.set name v) (sets ++ [(name, v)]) := by
  have hget : ∀ other, (r.set name v).get? other = lastSet (sets ++ [(name, v)]) other :=
    fun other => by rw [get?_set, lastSet_concat, h.get]
  have hmap : (sets ++ [(name, v)]).map (·.1) = sets.map (·.1) ++ [name] := by
    rw [List.map_append, List.map_singleton]
  -- The names that are there came before, so that they keep their places.
  have hplace : ∀ a ∈ r.names,
      ((sets ++ [(name, v)]).map (·.1)).idxOf a = (sets.map (·.1)).idxOf a := fun a ha => by
    rw [hmap, List.idxOf_append_of_mem ((h.mem_names a).1 ha)]
  have horder : r.names.Pairwise fun a b =>
      ((sets ++ [(name, v)]).map (·.1)).idxOf a < ((sets ++ [(name, v)]).map (·.1)).idxOf b :=
    h.order.imp_of_mem fun ha hb hab => by rwa [hplace _ ha, hplace _ hb]
  constructor
  case distinct => exact names_nodup _
  case mem_names =>
    intro other
    rw [names_set, hmap, List.mem_append, List.mem_singleton, ← h.mem_names other]
    split
    · next hold => exact (or_iff_left_of_imp fun heq => heq ▸ hold).symm
    · rw [List.mem_append, List.mem_singleton]
  case order =>
    rw [names_set]
    split
    · exact horder
    · next hnew =>
      refine List.pairwise_append.2 ⟨horder, List.pairwise_singleton _ _, ?_⟩
      intro a ha b hb
      cases List.mem_singleton.1 hb
      rw [hplace a ha, hmap, List.idxOf_append_of_notMem (mt (h.mem_names name).2 hnew),
        List.idxOf_cons_self, Nat.add_zero]
      exact List.idxOf_lt_length_of_mem ((h.mem_names a).1 ha)
  case get => exact hget
  case contains =>
    intro other
    rw [contains_eq, hget]
  case size => rfl
  case values =>
    rw [values_eq]
    exact List.map_congr_left fun other _ => hget other

/-- What has been set one after another is remembered. -/
theorem remembers_ofPairs (sets : List (Text × Value)) : Remembers (ofPairs sets) sets := by
  induction sets using List.reverseRecOn with
  | nil => exact remembers_nil
  | append_singleton sets last ih =>
    rw [ofPairs_append]
    exact ih.set last.1 last.2

/-- Two settings of names that are there may change places. -/
theorem ofPairs_swap {earlier : List (Text × Value)} (later : List (Text × Value))
    (hname : name ∈ earlier.map (·.1)) (hne : name ≠ other) :
    ofPairs (earlier ++ (name, v) :: (other, w) :: later) =
      ofPairs (earlier ++ (other, w) :: (name, v) :: later) := by
  rw [ofPairs_append, ofPairs_append, List.foldl_cons, List.foldl_cons, List.foldl_cons,
    List.foldl_cons, set_comm (((remembers_ofPairs earlier).mem_names name).2 hname) hne]

end StackVm.Record
