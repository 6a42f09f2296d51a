/-
Building images.  The search lists every function that the entry leads to, each once, and
writes them in the order of the list; a link names the place of its target in the list,
which does not change when the list grows.
-/
import StackVm.Image.Build
import StackVm.Proofs.RoundTrip
import StackVm.Proofs.Verification

namespace StackVm

open Relation (ReflTransGen)

namespace Memory

/-- A function has another one, or itself, among the constants of its code. -/
def Calls (m : Memory) (i j : ObjectId) : Prop :=
  m.Links i j ∧ ∃ f, m.function? j = some f

/-- What a function and its code have to be like to be part of an image. -/
def Packable (m : Memory) (id : ObjectId) : Prop :=
  ∃ f c, m.function? id = some f ∧ m.chunkOf? f = some c ∧ c.Storable m ∧
    ∀ (i : Nat) v, c.constants[i]? = some v → Chunk.IsFunction m v → i ≤ 0xFF

theorem calls_iff {m : Memory} {id j : ObjectId} {g : Function} {c : Chunk}
    (hg : m.function? id = some g) (hc : m.chunkOf? g = some c) :
    m.Calls id j ↔ .object j ∈ c.constants ∧ ∃ f, m.function? j = some f := by
  refine and_congr_left fun _ => ?_
  rw [← Array.mem_toList_iff, ← Chunk.mem_filterMap_id?]
  constructor
  · rintro ⟨g', c', hg', hc', hj⟩
    rw [hg] at hg'
    cases hg'
    rw [hc] at hc'
    cases hc'
    exact hj
  · exact fun hj => ⟨g, c, hg, hc, hj⟩

end Memory

namespace Image

variable {m : Memory} {name : Text} {index : Nat} {v : Value} {vs : List Value}
  {l l' : Listing} {links links' : Links} {id j entry : ObjectId} {ids more written : List ObjectId}

/-! ### The constants of one function -/

/-- A link leads from the place of a function among constants to the place of that
function in a list. -/
def Leads (m : Memory) (ids : List ObjectId) (index : Nat) (vs : List Value)
    (link : UInt8 × Int64) : Prop :=
  ∃ (i : Nat) (id : ObjectId), vs[i]? = some (.object id) ∧ (∃ f, m.function? id = some f) ∧
    link.1.toNat = index + i ∧ link.2 = Int64.ofNat (ids.idxOf id)

/-- What going through constants adds to a list of functions and to a link table. -/
structure Scanned (m : Memory) (index : Nat) (vs : List Value) (l : Listing) (links : Links)
    (l' : Listing) (links' : Links) : Prop where
  grown : ∃ new, l'.listed = l.listed ++ new ∧ l'.pending = l.pending ++ new ∧
    ∀ id ∈ new, .object id ∈ vs ∧ ∃ f, m.function? id = some f
  nodup : l.listed.Nodup → l'.listed.Nodup
  listed : ∀ id, .object id ∈ vs → (∃ f, m.function? id = some f) → id ∈ l'.listed
  linked : ∃ added, links' = links ++ added ∧ added.Pairwise (·.1 < ·.1) ∧
    ∀ link, link ∈ added ↔ Leads m l'.listed index vs link

theorem filter_function_eq_some :
    (v.id?.filter fun id => (m.function? id).isSome) = some id ↔
      v = .object id ∧ ∃ f, m.function? id = some f := by
  rw [Option.filter_eq_some_iff, Option.isSome_iff_exists]
  refine and_congr_left fun _ => ?_
  cases v <;> simp [Value.id?]

theorem Scanned.nil (m : Memory) (index : Nat) (l : Listing) (links : Links) :
    Scanned m index [] l links l links where
  grown := ⟨[], (List.append_nil _).symm, (List.append_nil _).symm, nofun⟩
  nodup h := h
  listed := nofun
  linked := ⟨[], (List.append_nil _).symm, .nil,
    fun link => ⟨nofun, fun ⟨_, _, h, _⟩ => by cases h⟩⟩

theorem leads_cons {link : UInt8 × Int64} : Leads m ids index (v :: vs) link ↔
    (∃ id, v = .object id ∧ (∃ f, m.function? id = some f) ∧ link.1.toNat = index ∧
      link.2 = Int64.ofNat (ids.idxOf id)) ∨ Leads m ids (index + 1) vs link := by
  constructor
  · rintro ⟨i, id, hi, hf, hslot, htarget⟩
    cases i with
    | zero => exact Or.inl ⟨id, Option.some.inj hi, hf, hslot, htarget⟩
    | succ i => exact Or.inr ⟨i, id, hi, hf, by omega, htarget⟩
  · rintro (⟨id, rfl, hf, hslot, htarget⟩ | ⟨i, id, hi, hf, hslot, htarget⟩)
    · exact ⟨0, id, rfl, hf, hslot, htarget⟩
    · exact ⟨i + 1, id, hi, hf, by omega, htarget⟩

/-- A constant that is no function adds nothing. -/
theorem Scanned.skip (hv : ∀ id, v = .object id → ¬ ∃ f, m.function? id = some f)
    (h : Scanned m (index + 1) vs l links l' links') :
    Scanned m index (v :: vs) l links l' links' where
  grown := by
    obtain ⟨new, hlisted, hpending, hnew⟩ := h.grown
    exact ⟨new, hlisted, hpending, fun id hid =>
      (hnew id hid).imp_left (List.mem_cons_of_mem _)⟩
  nodup := h.nodup
  listed id hid hf := by
    rcases List.mem_cons.1 hid with heq | hid
    · exact absurd hf (hv id heq.symm)
    · exact h.listed id hid hf
  linked := by
    obtain ⟨added, hlinks, hsorted, hadded⟩ := h.linked
    refine ⟨added, hlinks, hsorted, fun link => ?_⟩
    rw [hadded, leads_cons, or_iff_right]
    rintro ⟨id, heq, hf, -⟩
    exact hv id heq hf

theorem listed_add (l : Listing) (id : ObjectId) :
    ∃ new, (l.add id).listed = l.listed ++ new ∧ (l.add id).pending = l.pending ++ new ∧
      (∀ i ∈ new, i = id) ∧ (l.listed.Nodup → (l.add id).listed.Nodup) ∧
      id ∈ (l.add id).listed := by
  rw [Listing.add]
  split
  · next hid =>
    exact ⟨[], (List.append_nil _).symm, (List.append_nil _).symm, nofun, fun h => h, hid⟩
  · next hid =>
    refine ⟨[id], rfl, rfl, fun i hi => List.mem_singleton.1 hi, fun h => ?_, by simp⟩
    rw [List.nodup_append]
    refine ⟨h, List.nodup_singleton id, fun a ha b hb => ?_⟩
    rintro rfl
    exact hid (List.mem_singleton.1 hb ▸ ha)

/-- The place of a linked constant fits in the operand byte. -/
theorem toNat_slot (h : index ≤ 0xFF) : index.toUInt8.toNat = index :=
  UInt8.toNat_ofNat_of_lt' (Nat.lt_succ_of_le h)

/-- A link behind all others goes to the end of the table. -/
theorem insert_of_forall_lt {slot : UInt8} {target : Int64}
    (h : ∀ link ∈ links, link.1 < slot) :
    links.insert slot target = links ++ [(slot, target)] := by
  induction links with
  | nil => rfl
  | cons link rest ih =>
    obtain ⟨s, t⟩ := link
    obtain ⟨hfirst, hrest⟩ := List.forall_mem_cons.1 h
    have hfirst' : s.toNat < slot.toNat := UInt8.lt_iff_toNat_lt.1 hfirst
    have hnot : ¬ slot < s := fun hlt => by
      have := UInt8.lt_iff_toNat_lt.1 hlt
      omega
    have hne : slot ≠ s := by
      rintro rfl
      omega
    rw [Links.insert, if_neg hnot, if_neg hne, ih hrest, List.cons_append]

/-- A function is listed and linked. -/
theorem Scanned.call (hf : ∃ f, m.function? id = some f) (hindex : index ≤ 0xFF)
    (h : Scanned m (index + 1) vs (l.add id)
      (links ++ [(index.toUInt8, Int64.ofNat ((l.add id).listed.idxOf id))]) l' links') :
    Scanned m index (.object id :: vs) l links l' links' := by
  obtain ⟨first, hlistedAdd, hpendingAdd, hfirst, hnodupAdd, hmem⟩ := listed_add l id
  obtain ⟨new, hlisted, hpending, hnew⟩ := h.grown
  have hslot := toNat_slot hindex
  refine ⟨⟨first ++ new, ?_, ?_, fun i hi => ?_⟩, fun hl => h.nodup (hnodupAdd hl),
    fun i hi hfi => ?_, ?_⟩
  · rw [hlisted, hlistedAdd, List.append_assoc]
  · rw [hpending, hpendingAdd, List.append_assoc]
  · rcases List.mem_append.1 hi with hi | hi
    · rw [hfirst i hi]
      exact ⟨List.mem_cons_self .., hf⟩
    · exact (hnew i hi).imp_left (List.mem_cons_of_mem _)
  · rcases List.mem_cons.1 hi with heq | hi
    · cases heq
      rw [hlisted]
      exact List.mem_append_left _ hmem
    · exact h.listed i hi hfi
  · obtain ⟨added, hlinks, hsorted, hadded⟩ := h.linked
    have htarget : (l.add id).listed.idxOf id = l'.listed.idxOf id := by
      rw [hlisted, List.idxOf_append_of_mem hmem]
    rw [htarget] at hlinks
    refine ⟨(index.toUInt8, Int64.ofNat (l'.listed.idxOf id)) :: added, ?_,
      .cons (fun link hlink => ?_) hsorted, fun link => ?_⟩
    · rw [hlinks, List.append_assoc]
      rfl
    · obtain ⟨i, _, -, -, hplace, -⟩ := (hadded link).1 hlink
      rw [UInt8.lt_iff_toNat_lt, hslot]
      omega
    · rw [List.mem_cons, hadded, leads_cons]
      refine or_congr_left ⟨?_, ?_⟩
      · rintro rfl
        exact ⟨id, rfl, hf, hslot, rfl⟩
      · rintro ⟨i, heq, -, hplace, hto⟩
        cases heq
        exact Prod.ext (UInt8.toNat_inj.1 (hplace.trans hslot.symm)) hto

/-- Going through constants succeeds where no function has too high a place. -/
theorem scanConstants_scanned (hlinks : ∀ link ∈ links, link.1.toNat < index)
    (hplaces : ∀ (i : Nat) v, vs[i]? = some v → Chunk.IsFunction m v → index + i ≤ 0xFF)
    (l : Listing) : ∃ l' links', scanConstants m name index vs l links = .ok (l', links') ∧
      Scanned m index vs l links l' links' := by
  induction vs generalizing index l links with
  | nil => exact ⟨l, links, rfl, .nil m index l links⟩
  | cons v rest ih =>
    have hrest : ∀ (i : Nat) v, rest[i]? = some v → Chunk.IsFunction m v →
        index + 1 + i ≤ 0xFF := by
      intro i x hx hfunction
      have := hplaces (i + 1) x hx hfunction
      omega
    rw [scanConstants]
    cases hv : v.id?.filter fun id => (m.function? id).isSome with
    | none =>
      have hnot : ∀ id, v = .object id → ¬ ∃ f, m.function? id = some f := by
        intro id heq hf
        rw [filter_function_eq_some.2 ⟨heq, hf⟩] at hv
        cases hv
      obtain ⟨l', links', hscan, hscanned⟩ :=
        ih (fun link hlink => Nat.lt_succ_of_lt (hlinks link hlink)) hrest l
      exact ⟨l', links', hscan, hscanned.skip hnot⟩
    | some id =>
      obtain ⟨rfl, hf⟩ := filter_function_eq_some.1 hv
      obtain ⟨f, hf⟩ := hf
      have hindex : index ≤ 0xFF := hplaces 0 _ rfl ⟨id, f, rfl, hf⟩
      have hslot := toNat_slot hindex
      have hinsert : links.insert index.toUInt8 (Int64.ofNat ((l.add id).listed.idxOf id)) =
          links ++ [(index.toUInt8, Int64.ofNat ((l.add id).listed.idxOf id))] := by
        refine insert_of_forall_lt fun link hlink => ?_
        rw [UInt8.lt_iff_toNat_lt, hslot]
        exact hlinks link hlink
      have hbelow : ∀ link ∈ links ++
          [(index.toUInt8, Int64.ofNat ((l.add id).listed.idxOf id))],
          link.1.toNat < index + 1 := by
        intro link hlink
        rcases List.mem_append.1 hlink with hlink | hlink
        · exact Nat.lt_succ_of_lt (hlinks link hlink)
        · rw [List.mem_singleton.1 hlink, hslot]
          exact Nat.lt_succ_self index
      obtain ⟨l', links', hscan, hscanned⟩ := ih hbelow hrest (l.add id)
      refine ⟨l', links', ?_, hscanned.call ⟨f, hf⟩ hindex⟩
      simp only [if_neg (Nat.not_lt.2 hindex), hinsert]
      exact hscan

/-! ### One function -/

/-- The image says what the function and its code are; its links name places in a list. -/
structure Depicts (m : Memory) (ids : List ObjectId) (g : Function) (c : Chunk)
    (w : Chunk.Wire) (f : FunctionImage) : Prop where
  name : f.name = g.name
  arity : f.arity = g.arity
  renders : w.Renders c m
  written : Chunk.Wire.Written w f.bytes
  sorted : f.links.Pairwise (·.1 < ·.1)
  links : ∀ link, link ∈ f.links ↔ Leads m ids 0 c.constants.toList link
  places : ∀ (i : Nat) v, c.constants[i]? = some v → Chunk.IsFunction m v → i ≤ 0xFF
  listed : ∀ id, .object id ∈ c.constants → (∃ f, m.function? id = some f) → id ∈ ids

/-- The image is one of the function with an identity. -/
def Pictured (m : Memory) (ids : List ObjectId) (id : ObjectId) (f : FunctionImage) : Prop :=
  ∃ g c w, m.function? id = some g ∧ m.chunkOf? g = some c ∧ c.Storable m ∧
    Depicts m ids g c w f

theorem leads_append (hlisted : ∀ id, .object id ∈ vs → (∃ f, m.function? id = some f) → id ∈ ids)
    (more : List ObjectId) (link : UInt8 × Int64) :
    Leads m (ids ++ more) index vs link ↔ Leads m ids index vs link := by
  refine exists_congr fun i => exists_congr fun id => and_congr_right fun hi =>
    and_congr_right fun hf => ?_
  rw [List.idxOf_append_of_mem (hlisted id (List.mem_of_getElem? hi) hf)]

/-- An image stays what it is when the list grows. -/
theorem Pictured.append {f : FunctionImage} (h : Pictured m ids id f) (more : List ObjectId) :
    Pictured m (ids ++ more) id f := by
  obtain ⟨g, c, w, hg, hc, hstorable, h⟩ := h
  refine ⟨g, c, w, hg, hc, hstorable, h.name, h.arity, h.renders, h.written, h.sorted,
    fun link => ?_, h.places, fun j hj hf => List.mem_append_left _ (h.listed j hj hf)⟩
  rw [h.links, leads_append fun j hj => h.listed j (Array.mem_toList_iff.1 hj)]

theorem Pictured.calls {f : FunctionImage} (h : Pictured m ids id f) (hj : m.Calls id j) :
    j ∈ ids := by
  obtain ⟨g, c, w, hg, hc, -, h⟩ := h
  obtain ⟨hmem, hf⟩ := (Memory.calls_iff hg hc).1 hj
  exact h.listed j hmem hf

/-- A function that can be part of an image is written. -/
theorem buildFunction_pictured (hid : m.Packable id) (l : Listing) :
    ∃ f l', buildFunction m id l = .ok (f, l') ∧ Pictured m l'.listed id f ∧
      (∃ new, l'.listed = l.listed ++ new ∧ l'.pending = l.pending ++ new ∧
        ∀ j ∈ new, m.Calls id j) ∧ (l.listed.Nodup → l'.listed.Nodup) := by
  obtain ⟨g, c, hg, hc, hstorable, hplaces⟩ := hid
  obtain ⟨w, hserialize, hwritten, hrenders, -⟩ := hstorable.serialize
  have hplaces' : ∀ (i : Nat) v, c.constants.toList[i]? = some v → Chunk.IsFunction m v →
      0 + i ≤ 0xFF := by
    intro i v hv hfunction
    rw [Nat.zero_add]
    exact hplaces i v (Array.getElem?_toList ▸ hv) hfunction
  obtain ⟨l', links, hscan, hscanned⟩ : ∃ l' links,
      scanConstants m g.displayName 0 c.constants.toList l [] = .ok (l', links) ∧
        Scanned m 0 c.constants.toList l [] l' links :=
    scanConstants_scanned (fun _ hlink => absurd hlink List.not_mem_nil) hplaces' l
  obtain ⟨added, hlinks, hsorted, hadded⟩ := hscanned.linked
  obtain ⟨new, hlisted, hpending, hnew⟩ := hscanned.grown
  rw [List.nil_append] at hlinks
  subst hlinks
  refine ⟨⟨g.name, g.arity, some w.encode, links⟩, l', ?_, ?_, ⟨new, hlisted, hpending, ?_⟩,
    hscanned.nodup⟩
  · simp only [buildFunction, hg, hc, hserialize, hscan]
  · exact ⟨g, c, w, hg, hc, hstorable, rfl, rfl, hrenders, hwritten, hsorted, hadded,
      hplaces, fun i hi hf => hscanned.listed i (Array.mem_toList_iff.2 hi) hf⟩
  · intro i hi
    obtain ⟨hmem, hf⟩ := hnew i hi
    exact (Memory.calls_iff hg hc).2 ⟨Array.mem_toList_iff.1 hmem, hf⟩

/-! ### The search -/

/-- The invariant of the search: the functions that are listed are different and found from
the entry, and those before the pending ones are written. -/
structure Building (m : Memory) (entry : ObjectId) (written : List ObjectId)
    (done : List FunctionImage) (l : Listing) : Prop where
  split : l.listed = written ++ l.pending
  nodup : l.listed.Nodup
  first : l.listed[0]? = some entry
  found : ∀ id ∈ l.listed, ReflTransGen m.Calls entry id
  pictured : List.Forall₂ (Pictured m l.listed) written done.reverse

/-- The image lists the functions that the entry leads to, each once, the entry first. -/
structure Portrays (m : Memory) (entry : ObjectId) (ids : List ObjectId)
    (functions : List FunctionImage) : Prop where
  nodup : ids.Nodup
  first : ids[0]? = some entry
  mem : ∀ id, id ∈ ids ↔ ReflTransGen m.Calls entry id
  pictured : List.Forall₂ (Pictured m ids) ids functions

theorem Building.start (m : Memory) (entry : ObjectId) :
    Building m entry [] [] ⟨[entry], [entry]⟩ where
  split := rfl
  nodup := List.nodup_singleton entry
  first := rfl
  found id hid := by rw [List.mem_singleton.1 hid]
  pictured := .nil

theorem Building.mem_listed {done : List FunctionImage} {listed pending : List ObjectId}
    (h : Building m entry written done ⟨listed, id :: pending⟩) : id ∈ listed := by
  rw [show listed = written ++ id :: pending from h.split]
  simp

/-- One more function is written. -/
theorem Building.write {done : List FunctionImage} {listed pending : List ObjectId}
    {f : FunctionImage} (h : Building m entry written done ⟨listed, id :: pending⟩)
    (hf : Pictured m l'.listed id f) {new : List ObjectId} (hlisted : l'.listed = listed ++ new)
    (hpending : l'.pending = pending ++ new) (hnew : ∀ j ∈ new, m.Calls id j)
    (hnodup : l'.listed.Nodup) : Building m entry (written ++ [id]) (f :: done) l' where
  split := by
    have hsplit : listed = written ++ id :: pending := h.split
    rw [hlisted, hpending, hsplit]
    simp
  nodup := hnodup
  first := by
    rw [hlisted, List.getElem?_append_left (List.getElem?_eq_some_iff.1 h.first).1]
    exact h.first
  found i hi := by
    rw [hlisted] at hi
    rcases List.mem_append.1 hi with hi | hi
    · exact h.found i hi
    · exact (h.found id h.mem_listed).tail (hnew i hi)
  pictured := by
    rw [List.reverse_cons]
    refine List.rel_append (h.pictured.imp fun i g hg => ?_) (.cons hf .nil)
    rw [hlisted]
    exact hg.append new

/-- When nothing is pending everything has been found. -/
theorem Building.portrays {done : List FunctionImage} {listed : List ObjectId}
    (h : Building m entry written done ⟨listed, []⟩) :
    Portrays m entry listed done.reverse := by
  have hwritten : listed = written := h.split.trans (List.append_nil _)
  have hpictured : List.Forall₂ (Pictured m listed) listed done.reverse := by
    conv => arg 2; rw [hwritten]
    exact h.pictured
  refine ⟨h.nodup, h.first, fun id => ⟨h.found id, fun hid => ?_⟩, hpictured⟩
  induction hid with
  | refl => exact List.mem_of_getElem? h.first
  | tail _ hcalls ih =>
    obtain ⟨f, -, hf⟩ := exists_mem_right hpictured ih
    exact hf.calls hcalls

/-- The search ends with all functions found and written. -/
theorem buildPending_portrays (hall : ∀ id, ReflTransGen m.Calls entry id → m.Packable id)
    {done : List FunctionImage} (h : Building m entry written done l) :
    ∃ functions ids, buildPending m done l = .ok functions ∧
      Portrays m entry ids functions := by
  induction done, l using buildPending.induct m generalizing written with
  | case1 done listed =>
    refine ⟨done.reverse, listed, ?_, h.portrays⟩
    rw [buildPending]
  | case2 done listed id pending e herror =>
    obtain ⟨f, l', hbuild, -⟩ :=
      buildFunction_pictured (hall id (h.found id h.mem_listed)) ⟨listed, pending⟩
    rw [herror] at hbuild
    cases hbuild
  | case3 done listed id pending f l hbuild ih =>
    obtain ⟨g, l', hbuild', hg, ⟨new, hlisted, hpending, hnew⟩, hnodup⟩ :=
      buildFunction_pictured (hall id (h.found id h.mem_listed)) ⟨listed, pending⟩
    rw [hbuild] at hbuild'
    cases hbuild'
    obtain ⟨functions, ids, hrun, hportrays⟩ :=
      ih (h.write hg hlisted hpending hnew (hnodup h.nodup))
    refine ⟨functions, ids, ?_, hportrays⟩
    rw [buildPending]
    split
    · next herror =>
      rw [hbuild] at herror
      cases herror
    · next hbuild' =>
      rw [hbuild] at hbuild'
      cases hbuild'
      exact hrun

/-- The image of a function and of everything that it leads to. -/
theorem build_portrays (hall : ∀ id, ReflTransGen m.Calls entry id → m.Packable id) :
    ∃ img ids, build m (some entry) = .ok img ∧ img.entry = 0 ∧
      Portrays m entry ids img.functionList := by
  obtain ⟨functions, ids, hrun, hportrays⟩ := buildPending_portrays hall (.start m entry)
  refine ⟨{ version := formatVersion, functions := some functions }, ids, ?_, rfl, hportrays⟩
  simp only [build, hrun]
  rfl

end Image

end StackVm
