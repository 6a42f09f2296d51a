/-
The image of a program depends on the program alone.  Two searches through functions that
correspond to each other go in step, whatever the identities of the functions are, so that the
same program always gives the same image, also after it has been saved and loaded.
-/
import StackVm.Proofs.ImageRoundTrip
import StackVm.Store

namespace StackVm

open Relation (ReflTransGen)

namespace Memory

/-- Two constants that a program cannot tell apart, where the function `renew i` of the memory
`n` stands for the function `i` of the memory `m`. -/
inductive Corresponds (m n : Memory) (renew : ObjectId → ObjectId) : Value → Value → Prop
  | scalar {v : Value} : v.id? = none → Corresponds m n renew v v
  | string {i j : ObjectId} {data : Text} : m.string? i = some data → n.string? j = some data →
      Corresponds m n renew (.object i) (.object j)
  | function {i : ObjectId} : (∃ f, m.function? i = some f) →
      (∃ g, n.function? (renew i) = some g) → Corresponds m n renew (.object i) (.object (renew i))
  /-- Objects that no image takes in, of one kind. -/
  | other {i j : ObjectId} : (m.payload? i).map Payload.kind = (n.payload? j).map Payload.kind →
      (m.payload? i).map Payload.kind ∉ [some Kind.string, some Kind.function] →
      Corresponds m n renew (.object i) (.object j)

/-- The function `renew i` of the memory `n` is like the function `i` of the memory `m`. -/
def Resembles (m n : Memory) (renew : ObjectId → ObjectId) (i : ObjectId) : Prop :=
  ∃ f c g d, m.function? i = some f ∧ m.chunkOf? f = some c ∧ n.function? (renew i) = some g ∧
    n.chunkOf? g = some d ∧ g.name = f.name ∧ g.arity = f.arity ∧ d.code = c.code ∧
    d.lines = c.lines ∧
    List.Forall₂ (m.Corresponds n renew) c.constants.toList d.constants.toList

/-- What `b` leads to in the memory `n` is the program that `a` leads to in the memory `m`: the
functions correspond one to one, with the same names, arities, codes and lines, and with
constants that correspond index by index. -/
structure SameProgram (m : Memory) (a : ObjectId) (n : Memory) (b : ObjectId)
    (renew : ObjectId → ObjectId) : Prop where
  entry : renew a = b
  injective : Set.InjOn renew {i | ReflTransGen m.Calls a i}
  resembles : ∀ i, ReflTransGen m.Calls a i → m.Resembles n renew i

/-- The code of a function keeps to the sizes that its written form has room for. -/
def Sized (m : Memory) (id : ObjectId) : Prop :=
  ∀ f c, m.function? id = some f → m.chunkOf? f = some c →
    c.code.size < 2 ^ 32 ∧ c.lines.size < 2 ^ 32 ∧ c.constants.size < 2 ^ 32 ∧
      (∀ line ∈ c.lines, -2 ^ 31 ≤ line.toInt ∧ line.toInt < 2 ^ 31) ∧
      ∀ i data, .object i ∈ c.constants → m.string? i = some data → data.length < 2 ^ 32

variable {m n : Memory} {renew : ObjectId → ObjectId} {a b i j : ObjectId} {v w : Value}
  {vs ws : List Value}

theorem Packable.sized (h : m.Packable i) : m.Sized i := by
  obtain ⟨f, c, hf, hc, hstorable, -⟩ := h
  intro g d hg hd
  rw [hf] at hg
  cases hg
  rw [hc] at hd
  cases hd
  refine ⟨hstorable.code, hstorable.lines, hstorable.constants, hstorable.line, ?_⟩
  intro k data hk hdata
  cases hstorable.writable _ hk with
  | string hstring hlength =>
    rw [hdata] at hstring
    cases hstring
    exact hlength
  | function hfunction =>
    obtain ⟨k, e, heq, he⟩ := hfunction
    cases heq
    rw [function?_eq_some, string?_eq_some.1 hdata] at he
    cases he

theorem kind_of_function {f : Function} (h : m.function? i = some f) :
    (m.payload? i).map Payload.kind = some .function := by
  rw [function?_eq_some.1 h]
  rfl

theorem kind_of_string {data : Text} (h : m.string? i = some data) :
    (m.payload? i).map Payload.kind = some .string := by
  rw [string?_eq_some.1 h]
  rfl

/-- An object that is neither a string nor a function has no written form. -/
theorem wireConstant?_eq_none
    (h : (m.payload? i).map Payload.kind ∉ [some Kind.string, some Kind.function]) :
    Chunk.wireConstant? m (.object i) = none := by
  rw [Chunk.wireConstant?]
  cases hpayload : m.payload? i with
  | none => rfl
  | some p => cases p <;> simp_all [Payload.kind]

theorem Corresponds.wireConstant? (h : m.Corresponds n renew v w) :
    Chunk.wireConstant? m v = Chunk.wireConstant? n w := by
  cases h with
  | scalar hv => cases v <;> simp_all [Chunk.wireConstant?, Value.id?]
  | string hi hj => simp [Chunk.wireConstant?, string?_eq_some.1 hi, string?_eq_some.1 hj]
  | function hi hj =>
    obtain ⟨f, hf⟩ := hi
    obtain ⟨g, hg⟩ := hj
    simp [Chunk.wireConstant?, function?_eq_some.1 hf, function?_eq_some.1 hg]
  | other hkind hnot =>
    rw [wireConstant?_eq_none hnot, wireConstant?_eq_none (hkind ▸ hnot)]

theorem Corresponds.typeOf (h : m.Corresponds n renew v w) : m.typeOf v = n.typeOf w := by
  have hobject : ∀ i j, (m.payload? i).map Payload.kind = (n.payload? j).map Payload.kind →
      m.typeOf (.object i) = n.typeOf (.object j) := by
    intro i j hkind
    have htype := congrArg (Option.map Kind.type) hkind
    rw [Option.map_map, Option.map_map] at htype
    rw [typeOf_object, typeOf_object]
    exact congrArg (·.getD ValueType.nil) htype
  cases h with
  | scalar hv => cases v <;> simp_all [Memory.typeOf, Value.id?]
  | string hi hj => exact hobject _ _ ((kind_of_string hi).trans (kind_of_string hj).symm)
  | function hi hj =>
    obtain ⟨f, hf⟩ := hi
    obtain ⟨g, hg⟩ := hj
    exact hobject _ _ ((kind_of_function hf).trans (kind_of_function hg).symm)
  | other hkind _ => exact hobject _ _ hkind

/-- A function corresponds to the one that stands for it, and nothing else to a function. -/
theorem Corresponds.callee (h : m.Corresponds n renew v w) :
    (w.id?.filter fun j => (n.function? j).isSome) =
      (v.id?.filter fun i => (m.function? i).isSome).map renew := by
  have hno : ∀ {m : Memory} {i : ObjectId}, (m.payload? i).map Payload.kind ≠ some .function →
      (m.function? i).isSome = false := by
    intro m i hkind
    cases hf : m.function? i with
    | none => rfl
    | some f => exact absurd (kind_of_function hf) hkind
  cases h with
  | scalar hv => simp [hv]
  | string hi hj =>
    have hleft := hno (by rw [kind_of_string hi]; decide)
    have hright := hno (by rw [kind_of_string hj]; decide)
    simp [Value.id?, Option.filter_some, hleft, hright]
  | function hi hj =>
    obtain ⟨f, hf⟩ := hi
    obtain ⟨g, hg⟩ := hj
    simp [Value.id?, Option.filter_some, hf, hg]
  | @other i j hkind hnot =>
    have hother : (m.payload? i).map Payload.kind ≠ some .function := by
      intro hfunction
      simp [hfunction] at hnot
    simp [Value.id?, Option.filter_some, hno hother, hno (hkind ▸ hother)]

end Memory

/-! ### Two searches in step -/

namespace Chunk

open Memory

variable {m n : Memory} {renew : ObjectId → ObjectId} {vs ws : List Value} {c d : Chunk}

theorem wireConstants_corresponds (h : List.Forall₂ (m.Corresponds n renew) vs ws) (index : Nat) :
    wireConstants m index vs = wireConstants n index ws := by
  induction h generalizing index with
  | nil => rfl
  | cons hv _ ih => rw [wireConstants, wireConstants, hv.wireConstant?, hv.typeOf, ih]

/-- Chunks with the same code and corresponding constants are written alike. -/
theorem serialize_corresponds (hcode : d.code = c.code) (hlines : d.lines = c.lines)
    (h : List.Forall₂ (m.Corresponds n renew) c.constants.toList d.constants.toList) :
    d.serialize n = c.serialize m := by
  rw [serialize, serialize, toWire, toWire, hcode, hlines, wireConstants_corresponds h]

end Chunk

namespace Image

open Memory

variable {m n : Memory} {renew : ObjectId → ObjectId} {a b id : ObjectId} {vs ws : List Value}
  {l l' : Listing} {leads : Set ObjectId}

theorem idxOf_map_of_injOn (hinj : Set.InjOn renew leads) {ids : List ObjectId}
    (hids : ∀ i ∈ ids, i ∈ leads) (hid : id ∈ leads) :
    (ids.map renew).idxOf (renew id) = ids.idxOf id := by
  induction ids with
  | nil => rfl
  | cons i rest ih =>
    obtain ⟨hi, hrest⟩ := List.forall_mem_cons.1 hids
    by_cases hsame : i = id
    · simp [hsame]
    · have hdiffer : renew i ≠ renew id := fun heq => hsame (hinj hi hid heq)
      simp [List.idxOf_cons_ne _ hdiffer, List.idxOf_cons_ne _ hsame, ih hrest]

/-- The progress of a search with the functions that stand for those it has found. -/
def Listing.rename (renew : ObjectId → ObjectId) (l : Listing) : Listing :=
  ⟨l.listed.map renew, l.pending.map renew⟩

/-- A search has found only functions of a set. -/
structure Listing.Within (l : Listing) (leads : Set ObjectId) : Prop where
  listed : ∀ i ∈ l.listed, i ∈ leads
  pending : ∀ i ∈ l.pending, i ∈ leads

theorem rename_add (hinj : Set.InjOn renew leads) (hl : l.Within leads) (hid : id ∈ leads) :
    (l.rename renew).add (renew id) = (l.add id).rename renew := by
  have hmem : renew id ∈ l.listed.map renew ↔ id ∈ l.listed := by
    rw [List.mem_map]
    constructor
    · rintro ⟨i, hi, heq⟩
      exact hinj (hl.listed i hi) hid heq ▸ hi
    · intro hid
      exact ⟨id, hid, rfl⟩
  by_cases hlisted : id ∈ l.listed
  · simp [Listing.add, Listing.rename, hmem, hlisted]
  · simp [Listing.add, Listing.rename, hmem, hlisted]

theorem Listing.Within.add (hl : l.Within leads) (hid : id ∈ leads) : (l.add id).Within leads := by
  rw [Listing.add]
  split
  · exact hl
  · constructor
    · simpa [or_imp, forall_and] using ⟨hl.listed, hid⟩
    · simpa [or_imp, forall_and] using ⟨hl.pending, hid⟩

theorem Listing.Within.cons {listed pending : List ObjectId}
    (hl : (⟨listed, id :: pending⟩ : Listing).Within leads) :
    id ∈ leads ∧ (⟨listed, pending⟩ : Listing).Within leads := by
  obtain ⟨hid, hpending⟩ := List.forall_mem_cons.1 hl.pending
  exact ⟨hid, hl.listed, hpending⟩

/-- Going through corresponding constants adds corresponding functions and the same links. -/
theorem scanConstants_corresponds (name : Text) (hinj : Set.InjOn renew leads)
    (h : List.Forall₂ (m.Corresponds n renew) vs ws)
    (hleads : ∀ i, .object i ∈ vs → (∃ f, m.function? i = some f) → i ∈ leads)
    (hl : l.Within leads) (index : Nat) (links : Links) :
    scanConstants n name index ws (l.rename renew) links =
        (scanConstants m name index vs l links).map (fun r => (r.1.rename renew, r.2)) ∧
      ∀ l' links', scanConstants m name index vs l links = .ok (l', links') →
        l'.Within leads := by
  induction h generalizing index l links with
  | nil =>
    refine ⟨rfl, ?_⟩
    intro l' links' hscan
    cases hscan
    exact hl
  | @cons v w rest rest' hv _ ih =>
    have hrest : ∀ i, .object i ∈ rest → (∃ f, m.function? i = some f) → i ∈ leads :=
      fun i hi => hleads i (List.mem_cons_of_mem _ hi)
    rw [scanConstants, scanConstants, hv.callee]
    cases hcallee : v.id?.filter fun i => (m.function? i).isSome with
    | none => exact ih hrest hl (index + 1) links
    | some i =>
      obtain ⟨rfl, hf⟩ := filter_function_eq_some.1 hcallee
      have hi : i ∈ leads := hleads i (List.mem_cons_self ..) hf
      by_cases hindex : 0xFF < index
      · simp [hindex, Except.map]
      · have hadded := hl.add hi
        have hplace : ((l.add i).rename renew).listed.idxOf (renew i) = (l.add i).listed.idxOf i :=
          idxOf_map_of_injOn hinj hadded.listed hi
        simp only [Option.map_some, if_neg hindex, rename_add hinj hl hi, hplace]
        exact ih hrest hadded (index + 1) _

/-- The functions of a set lead to no other functions, and each resembles the one that stands
for it. -/
structure Mirrored (m n : Memory) (renew : ObjectId → ObjectId) (leads : Set ObjectId) :
    Prop where
  injective : Set.InjOn renew leads
  closed : ∀ i ∈ leads, ∀ j, m.Calls i j → j ∈ leads
  resembles : ∀ i ∈ leads, m.Resembles n renew i

/-- A function and the one that stands for it are written alike and add the same to the
search. -/
theorem Mirrored.buildFunction (h : Mirrored m n renew leads) (hid : id ∈ leads)
    (hl : l.Within leads) :
    buildFunction n (renew id) (l.rename renew) =
        (buildFunction m id l).map (fun r => (r.1, r.2.rename renew)) ∧
      ∀ f l', Image.buildFunction m id l = .ok (f, l') → l'.Within leads := by
  obtain ⟨f, c, g, d, hf, hc, hg, hd, hname, harity, hcode, hlines, hconstants⟩ :=
    h.resembles id hid
  have hshown : g.displayName = f.displayName := by rw [Function.displayName, hname]; rfl
  have hcallees : ∀ i, .object i ∈ c.constants.toList → (∃ e, m.function? i = some e) →
      i ∈ leads := by
    intro i hi hfunction
    apply h.closed id hid i
    exact (calls_iff hf hc).2 ⟨Array.mem_toList_iff.1 hi, hfunction⟩
  obtain ⟨hsame, hlisted⟩ :=
    scanConstants_corresponds f.displayName h.injective hconstants hcallees hl 0 []
  simp only [Image.buildFunction, hf, hc, hg, hd, hshown, hname, harity, hsame,
    Chunk.serialize_corresponds hcode hlines hconstants]
  cases c.serialize m with
  | error e =>
    refine ⟨rfl, ?_⟩
    intro f l' heq
    cases heq
  | ok data =>
    cases hscan : scanConstants m f.displayName 0 c.constants.toList l [] with
    | error e =>
      refine ⟨rfl, ?_⟩
      intro f l' heq
      cases heq
    | ok r =>
      refine ⟨rfl, ?_⟩
      intro e l' heq
      cases heq
      exact hlisted _ _ hscan

theorem buildPending_cons (m : Memory) (done : List FunctionImage) (l : Listing)
    (id : ObjectId) :
    buildPending m done ⟨l.listed, id :: l.pending⟩ =
      match buildFunction m id l with
      | .error e => .error e
      | .ok (f, l) => buildPending m (f :: done) l := by
  rw [buildPending]
  split
  · next e heq => rw [heq]
  · next f l heq => rw [heq]

/-- Two searches through functions that stand for each other end alike. -/
theorem Mirrored.buildPending (h : Mirrored m n renew leads) (done : List FunctionImage)
    (hl : l.Within leads) :
    buildPending n done (l.rename renew) = buildPending m done l := by
  induction done, l using buildPending.induct m with
  | case1 done listed => simp [Listing.rename, Image.buildPending]
  | case2 done listed id pending e herror =>
    obtain ⟨hid, hrest⟩ := hl.cons
    obtain ⟨hsame, -⟩ := h.buildFunction hid hrest
    rw [herror] at hsame
    have hnew := buildPending_cons n done (Listing.rename renew ⟨listed, pending⟩) (renew id)
    rw [hsame] at hnew
    rw [buildPending_cons m done ⟨listed, pending⟩, herror]
    exact hnew
  | case3 done listed id pending f l' hbuild ih =>
    obtain ⟨hid, hrest⟩ := hl.cons
    obtain ⟨hsame, hwithin⟩ := h.buildFunction hid hrest
    rw [hbuild] at hsame
    have hnew := buildPending_cons n done (Listing.rename renew ⟨listed, pending⟩) (renew id)
    rw [hsame] at hnew
    rw [buildPending_cons m done ⟨listed, pending⟩, hbuild]
    exact hnew.trans (ih (hwithin f l' hbuild))

end Image

namespace Memory

variable {m n : Memory} {renew : ObjectId → ObjectId} {a b : ObjectId}

/-- The same program has the same image, or is refused for the same reason. -/
theorem SameProgram.build_eq (h : m.SameProgram a n b renew) :
    Image.build n (some b) = Image.build m (some a) := by
  have hmirrored : Image.Mirrored m n renew {i | ReflTransGen m.Calls a i} := by
    refine ⟨h.injective, ?_, h.resembles⟩
    intro i hi j hj
    exact hi.tail hj
  have hstart : (⟨[a], [a]⟩ : Image.Listing).Within {i | ReflTransGen m.Calls a i} := by
    constructor <;> simp [ReflTransGen.refl]
  have hpending := hmirrored.buildPending [] hstart
  have hrenamed : (⟨[a], [a]⟩ : Image.Listing).rename renew = ⟨[b], [b]⟩ := by
    simp [Image.Listing.rename, h.entry]
  rw [hrenamed] at hpending
  rw [Image.build, Image.build, hpending]

/-- A program that has come back is the same program. -/
theorem Isomorphic.sameProgram (h : m.Isomorphic a n b renew) : m.SameProgram a n b renew := by
  refine ⟨h.entry, h.bijection.injOn, ?_⟩
  intro i hi
  obtain ⟨f, c, g, d, hf, hc, hg, hd, hname, harity, hcode⟩ := h.recreates i hi
  refine ⟨f, c, g, d, hf, hc, hg, hd, hname, harity, hcode.code, hcode.lines, ?_⟩
  rw [List.forall₂_iff_get]
  refine ⟨by simpa using hcode.size.symm, ?_⟩
  intro index hleft hright
  have hlt : index < c.constants.size := by simpa using hleft
  have hv : c.constants[index]? = some (c.constants.toList.get ⟨index, hleft⟩) := by simp
  have hx : d.constants[index]? = some (d.constants.toList.get ⟨index, hright⟩) := by simp
  generalize c.constants.toList.get ⟨index, hleft⟩ = v at hv ⊢
  generalize d.constants.toList.get ⟨index, hright⟩ = x at hx ⊢
  by_cases hfunction : Chunk.IsFunction m v
  · obtain ⟨k, e, rfl, he⟩ := hfunction
    have hset := hcode.function index k hv ⟨e, he⟩
    rw [hx] at hset
    cases hset
    have hk : ReflTransGen m.Calls a k :=
      hi.tail ((calls_iff hf hc).2 ⟨Array.mem_of_getElem? hv, e, he⟩)
    obtain ⟨-, -, g', -, -, -, hg', -⟩ := h.recreates k hk
    exact .function ⟨e, he⟩ ⟨g', hg'⟩
  · obtain ⟨y, hy, hmatches, -⟩ := hcode.other index v hv hfunction
    rw [hx] at hy
    cases hy
    cases hmatches with
    | scalar hscalar => exact .scalar hscalar
    | string hi hj => exact .string hi hj

/-- The sizes stay within bounds when a program comes back. -/
theorem Isomorphic.sized (h : m.Isomorphic a n b renew)
    (hsized : ∀ i, ReflTransGen m.Calls a i → m.Sized i) :
    ∀ j, ReflTransGen n.Calls b j → n.Sized j := by
  intro j hj
  obtain ⟨i, hi, rfl⟩ := h.bijection.surjOn hj
  obtain ⟨f, c, g, d, hf, hc, hg, hd, -, -, hcode, hlines, hconstants⟩ :=
    h.sameProgram.resembles i hi
  obtain ⟨hcodeSize, hlineCount, hcount, hline, hstrings⟩ := hsized i hi f c hf hc
  intro g' d' hg' hd'
  rw [hg] at hg'
  cases hg'
  rw [hd] at hd'
  cases hd'
  have hlength : d.constants.size = c.constants.size := by simpa using hconstants.length_eq.symm
  refine ⟨hcode ▸ hcodeSize, hlines ▸ hlineCount, hlength ▸ hcount, hlines ▸ hline, ?_⟩
  intro k data hk hdata
  obtain ⟨v, hv, hcorresponds⟩ := exists_mem_left hconstants (Array.mem_toList_iff.2 hk)
  cases hcorresponds with
  | scalar hscalar => cases hscalar
  | string hleft hright =>
    rw [hdata] at hright
    cases hright
    exact hstrings _ data (Array.mem_toList_iff.1 hv) hleft
  | function _ hright =>
    obtain ⟨e, he⟩ := hright
    have hkind := (kind_of_function he).symm.trans (kind_of_string hdata)
    cases hkind
  | other hkind hnot =>
    rw [hkind, kind_of_string hdata] at hnot
    simp at hnot

theorem Isomorphic.ncard_eq (h : m.Isomorphic a n b renew) :
    {j | ReflTransGen n.Calls b j}.ncard = {i | ReflTransGen m.Calls a i}.ncard := by
  rw [← h.bijection.image_eq, h.bijection.injOn.ncard_image]

end Memory

namespace Image

open Memory

variable {m : Memory} {name : Text} {id : ObjectId} {vs : List Value} {l : Listing}
  {links : Links} {index : Nat}

/-- Where constants can be gone through no function has too high a place. -/
theorem places_of_scanConstants {r : Listing × Links}
    (h : scanConstants m name index vs l links = .ok r) :
    ∀ (i : Nat) v, vs[i]? = some v → Chunk.IsFunction m v → index + i ≤ 0xFF := by
  induction vs generalizing index l links with
  | nil =>
    intro i v hv
    simp at hv
  | cons w rest ih =>
    rw [scanConstants] at h
    intro i v hv hfunction
    cases hcallee : w.id?.filter fun i => (m.function? i).isSome with
    | none =>
      rw [hcallee] at h
      cases i with
      | zero =>
        obtain ⟨k, f, rfl, hf⟩ := hfunction
        cases hv
        rw [filter_function_eq_some.2 ⟨rfl, f, hf⟩] at hcallee
        cases hcallee
      | succ i =>
        have hplace := ih h i v hv hfunction
        omega
    | some k =>
      rw [hcallee] at h
      by_cases hindex : 0xFF < index
      · simp [hindex] at h
      · simp only [if_neg hindex] at h
        cases i with
        | zero => omega
        | succ i =>
          have hplace := ih h i v hv hfunction
          omega

/-- Constants that have been written have a written form. -/
theorem writable_of_wireConstants {cs : List Chunk.WireConstant}
    (h : Chunk.wireConstants m index vs = .ok cs)
    (hstrings : ∀ i data, .object i ∈ vs → m.string? i = some data → data.length < 2 ^ 32) :
    ∀ v ∈ vs, Chunk.Writable m v := by
  induction vs generalizing index cs with
  | nil => simp
  | cons w rest ih =>
    rw [Chunk.wireConstants] at h
    cases hwire : Chunk.wireConstant? m w with
    | none => simp [hwire] at h
    | some constant =>
      rw [hwire] at h
      cases hrest : Chunk.wireConstants m (index + 1) rest with
      | error e =>
        simp only [hrest] at h
        cases h
      | ok constants =>
        have hmore := ih hrest fun i data hi => hstrings i data (List.mem_cons_of_mem _ hi)
        refine List.forall_mem_cons.2 ⟨?_, hmore⟩
        cases w with
        | nil => exact .nil
        | int i => exact .int i
        | bool t => exact .bool t
        | native address => cases hwire
        | object i =>
          rw [Chunk.wireConstant?] at hwire
          split at hwire
          · next data hdata =>
            have hstring := string?_eq_some.2 hdata
            exact .string hstring (hstrings i data (List.mem_cons_self ..) hstring)
          · next f hf => exact .function ⟨i, f, rfl, function?_eq_some.2 hf⟩
          · cases hwire

/-- A function that has been written, and whose code keeps to the sizes, is packable. -/
theorem packable_of_buildFunction {r : FunctionImage × Listing}
    (h : buildFunction m id l = .ok r) (hsized : m.Sized id) : m.Packable id := by
  rw [buildFunction] at h
  split at h
  · cases h
  · next f hf =>
    split at h
    · cases h
    · next c hc =>
      split at h
      · cases h
      · next data hdata =>
        split at h
        · cases h
        · next hscan =>
          obtain ⟨hcode, hlines, hcount, hline, hstrings⟩ := hsized f c hf hc
          obtain ⟨cs, hcs⟩ : ∃ cs, Chunk.wireConstants m 0 c.constants.toList = .ok cs := by
            cases hwire : Chunk.wireConstants m 0 c.constants.toList with
            | ok cs => exact ⟨cs, rfl⟩
            | error e =>
              rw [Chunk.serialize, Chunk.toWire, hwire] at hdata
              cases hdata
          have hwritable := writable_of_wireConstants hcs fun i data hi =>
            hstrings i data (Array.mem_toList_iff.1 hi)
          refine ⟨f, c, hf, hc, ⟨hcode, hlines, hcount, hline, ?_⟩, ?_⟩
          · intro v hv
            exact hwritable v (Array.mem_toList_iff.2 hv)
          · intro i v hv hfunction
            rw [← Array.getElem?_toList] at hv
            simpa using places_of_scanConstants hscan i v hv hfunction

/-- A search that has succeeded has found everything that the entry leads to. -/
theorem portrays_of_buildPending {entry : ObjectId} {written : List ObjectId}
    {done functions : List FunctionImage}
    (hsized : ∀ i, ReflTransGen m.Calls entry i → m.Sized i)
    (h : Building m entry written done l) (hrun : buildPending m done l = .ok functions) :
    ∃ ids, Portrays m entry ids functions := by
  induction done, l using buildPending.induct m generalizing written with
  | case1 done listed =>
    rw [buildPending] at hrun
    cases hrun
    exact ⟨listed, h.portrays⟩
  | case2 done listed id pending e herror =>
    rw [buildPending_cons m done ⟨listed, pending⟩, herror] at hrun
    cases hrun
  | case3 done listed id pending f l' hbuild ih =>
    rw [buildPending_cons m done ⟨listed, pending⟩, hbuild] at hrun
    have hpackable := packable_of_buildFunction hbuild (hsized id (h.found id h.mem_listed))
    obtain ⟨g, l'', hbuild', hg, ⟨new, hlisted, hpending, hnew⟩, hnodup⟩ :=
      buildFunction_pictured hpackable ⟨listed, pending⟩
    rw [hbuild] at hbuild'
    cases hbuild'
    exact ih (h.write hg hlisted hpending hnew (hnodup h.nodup)) hrun

theorem portrays_of_build {entry : ObjectId} {img : Image}
    (hsized : ∀ i, ReflTransGen m.Calls entry i → m.Sized i)
    (h : build m (some entry) = .ok img) :
    img.entry = 0 ∧ ∃ ids, Portrays m entry ids img.functionList := by
  rw [build] at h
  cases hrun : buildPending m [] ⟨[entry], [entry]⟩ with
  | error e =>
    rw [hrun] at h
    cases h
  | ok functions =>
    rw [hrun] at h
    cases h
    exact ⟨rfl, portrays_of_buildPending hsized (.start m entry) hrun⟩

/-! ### Saving and loading -/

/-- The function `b` of the memory `n` is what is left of the function `a` of the memory `m`
after it has been saved as an image and loaded, each time on another heap, any number of
times. -/
inductive Resaved (m : Memory) (a : ObjectId) : Memory → ObjectId → Prop
  | start : Resaved m a m a
  | load {n n' k : Memory} {b b' : ObjectId} {held : RootId → List ObjectId} {img : Image} :
      Resaved m a n b → build n (some b) = .ok img →
      k.Ready held (objectCount img.functionList) → k.Housed →
      Image.load (.of held) img k = .ok (.ok b') n' → Resaved m a n' b'

/-- However often a program is saved and loaded, it keeps its image. -/
theorem Resaved.build_eq {m n : Memory} {a b : ObjectId} {img : Image}
    (h : Resaved m a n b) (hbuild : build m (some a) = .ok img)
    (hsized : ∀ i, ReflTransGen m.Calls a i → m.Sized i)
    (hcount : {i | ReflTransGen m.Calls a i}.ncard ≤ 2 ^ 63) :
    build n (some b) = .ok img ∧ (∀ j, ReflTransGen n.Calls b j → n.Sized j) ∧
      {j | ReflTransGen n.Calls b j}.ncard ≤ 2 ^ 63 := by
  induction h with
  | start => exact ⟨hbuild, hsized, hcount⟩
  | load _ hsaved hready hhoused hload ih =>
    obtain ⟨hsame, hsizes, hbound⟩ := ih
    rw [hsame] at hsaved
    cases hsaved
    obtain ⟨hzero, ids, hportrays⟩ := portrays_of_build hsizes hsame
    obtain ⟨c, k', renew, hload', -, hisomorphic⟩ :=
      hportrays.isomorphic hzero (hportrays.length_eq.trans_le hbound) hready hhoused
    rw [hload] at hload'
    cases hload'
    refine ⟨?_, hisomorphic.sized hsizes, hisomorphic.ncard_eq.trans_le hbound⟩
    rw [hisomorphic.sameProgram.build_eq, hsame]

/-- What is left of a program after it has been saved and loaded can be loaded again. -/
theorem Resaved.load_eq {m n k : Memory} {a b : ObjectId} {img : Image}
    {held : RootId → List ObjectId} (h : Resaved m a n b) (hbuild : build m (some a) = .ok img)
    (hsized : ∀ i, ReflTransGen m.Calls a i → m.Sized i)
    (hcount : {i | ReflTransGen m.Calls a i}.ncard ≤ 2 ^ 63)
    (hready : k.Ready held (objectCount img.functionList)) (hhoused : k.Housed) :
    ∃ c k', Image.load (.of held) img k = .ok (.ok c) k' ∧ Resaved m a k' c := by
  obtain ⟨hsame, hsizes, hbound⟩ := h.build_eq hbuild hsized hcount
  obtain ⟨hzero, ids, hportrays⟩ := portrays_of_build hsizes hsame
  obtain ⟨c, k', renew, hload, -, -⟩ :=
    hportrays.isomorphic hzero (hportrays.length_eq.trans_le hbound) hready hhoused
  exact ⟨c, k', hload, h.load hsame hready hhoused hload⟩

/-- The same program always gives the same image.  Functions with isomorphic graphs, on
whatever heaps, have equal images or are refused alike; and an image that has been built can be
loaded wherever there is room for it, and what is loaded has that image again, with the same
bytes and the same digest, however often that is done. -/
theorem build_sameProgram {m n : Memory} {a b : ObjectId} {renew : ObjectId → ObjectId}
    (h : m.SameProgram a n b renew) :
    build n (some b) = build m (some a) ∧
      ∀ img, build m (some a) = .ok img →
        (∀ i, ReflTransGen m.Calls a i → m.Sized i) →
        {i | ReflTransGen m.Calls a i}.ncard ≤ 2 ^ 63 →
        ∀ k c, Resaved m a k c →
          build k (some c) = .ok img ∧
            (build k (some c)).map (fun i => (i.encode, imageDigest i.encode)) =
              .ok (img.encode, imageDigest img.encode) ∧
            ∀ (held : RootId → List ObjectId) (k' : Memory),
              k'.Ready held (objectCount img.functionList) → k'.Housed →
              ∃ c' n', Image.load (.of held) img k' = .ok (.ok c') n' ∧ Resaved m a n' c' := by
  refine ⟨h.build_eq, ?_⟩
  intro img hbuild hsized hcount k c hresaved
  obtain ⟨hsame, -, -⟩ := hresaved.build_eq hbuild hsized hcount
  refine ⟨hsame, ?_, ?_⟩
  · rw [hsame]
    rfl
  · intro held k' hready hhoused
    exact hresaved.load_eq hbuild hsized hcount hready hhoused

/-- The two functions of `ringSample` in the reverse order, with rubbish between them. -/
def ringRearranged : Memory where
  heap := Heap.create 0 .standard
  objects := #[⟨.string [0x68, 0x69], none⟩, ⟨.function { arity := 1, chunk := some 0 }, none⟩,
    ⟨.string [0x21], none⟩, ⟨.function { name := [0x66], chunk := some 1 }, none⟩]
  chunks := #[{ code := #[0x00], lines := #[-7], constants := #[.object 3] },
    { code := #[0x00], lines := #[7], constants := #[.object 0, .object 1] }]

theorem ringSample_sameProgram :
    ringSample.SameProgram 0 ringRearranged 3 (fun i => if i = 0 then 3 else i) := by
  refine ⟨rfl, ?_, ?_⟩
  · intro i hi j hj hsame
    rcases ringSample_leads i hi with rfl | rfl <;> rcases ringSample_leads j hj with rfl | rfl
    · rfl
    · simp at hsame
    · simp at hsame
    · rfl
  · intro i hi
    rcases ringSample_leads i hi with rfl | rfl
    · refine ⟨_, _, _, _, rfl, rfl, rfl, rfl, rfl, rfl, rfl, rfl, ?_⟩
      refine .cons ?_ (.cons ?_ .nil)
      · exact @Corresponds.string _ _ _ 2 0 [0x68, 0x69] rfl rfl
      · exact @Corresponds.function ringSample _ _ 1 ⟨_, rfl⟩ ⟨_, rfl⟩
    · refine ⟨_, _, _, _, rfl, rfl, rfl, rfl, rfl, rfl, rfl, rfl, ?_⟩
      exact .cons (@Corresponds.function ringSample _ _ 0 ⟨_, rfl⟩ ⟨_, rfl⟩) .nil

/-- The rearranged functions have the image of the original ones, which stays the same however
often they are saved and loaded. -/
theorem build_ringRearranged :
    ringSample.SameProgram 0 ringRearranged 3 (fun i => if i = 0 then 3 else i) ∧
      ∃ img, build ringSample (some 0) = .ok img ∧ build ringRearranged (some 3) = .ok img ∧
        (∀ i, ReflTransGen ringSample.Calls 0 i → ringSample.Sized i) ∧
        {i | ReflTransGen ringSample.Calls 0 i}.ncard ≤ 2 ^ 63 ∧
        ∀ k c, Resaved ringSample 0 k c → build k (some c) = .ok img := by
  have hsized : ∀ i, ReflTransGen ringSample.Calls 0 i → ringSample.Sized i :=
    fun i hi => (ringSample_packable i hi).sized
  obtain ⟨img, -, hbuild, -⟩ := build_portrays ringSample_packable
  obtain ⟨hsame, hresaved⟩ := build_sameProgram ringSample_sameProgram
  refine ⟨ringSample_sameProgram, img, hbuild, hsame.trans hbuild, hsized, ringSample_ncard_le, ?_⟩
  intro k c hk
  exact (hresaved img hbuild hsized ringSample_ncard_le k c hk).1

end Image

end StackVm
