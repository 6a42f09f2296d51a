/-
Writing a chunk and loading it again.  What fits in the format comes back the same,
with nil in the place of every function and these places listed as unlinked.
-/
import StackVm.Proofs.Loading

namespace StackVm.Chunk

open Text

variable {m n k : Memory} {held : RootId → List ObjectId} {c d : Chunk}
  {cs : List WireConstant} {w : Wire}

/-! ### Encoding -/

/-- What a chunk has to observe for its sizes to be written in four bytes. -/
structure Wire.Fits (w : Wire) : Prop where
  code : w.code.length < 2 ^ 32
  lines : w.lines.length < 2 ^ 32
  constants : w.constants.length < 2 ^ 32
  strings : ∀ data, .string data ∈ w.constants → data.length < 2 ^ 32

theorem lineWritten_encode (line : Int32) :
    LineWritten line (littleEndian 4 line.toUInt32.toNat) := by
  refine ⟨line.toUInt32.toNat, isNumber_littleEndian line.toUInt32.toNat_lt, ?_⟩
  rw [UInt32.ofNat_toNat, Int32.toInt32_toUInt32]

theorem WireConstant.written_encode {w : WireConstant}
    (hw : ∀ data, w = .string data → data.length < 2 ^ 32) : w.Written w.encode := by
  cases w with
  | nil => exact .nil
  | function => exact .function
  | bool b =>
    cases b with
    | false => exact .bool 0
    | true => exact .bool 1
  | string data => exact .string data (isNumber_littleEndian (hw data rfl))
  | int n =>
    have hnumber : IsNumber (littleEndian 8 n.toUInt64.toNat) 8 n.toUInt64.toNat :=
      isNumber_littleEndian n.toUInt64.toNat_lt
    have hwritten := Written.int hnumber
    rw [UInt64.ofNat_toNat, Int64.toInt64_toUInt64] at hwritten
    exact hwritten

theorem series_flatMap {α : Type} {each : α → Text → Prop} {encode : α → Text} {as : List α}
    (h : ∀ a ∈ as, each a (encode a)) : Series each as (as.flatMap encode) := by
  induction as with
  | nil => exact .nil
  | cons a rest ih =>
    rw [List.flatMap_cons]
    exact .cons (h a (List.mem_cons_self ..)) (ih fun b hb => h b (List.mem_cons_of_mem _ hb))

/-- The encoding of a chunk that fits in the format is a written chunk. -/
theorem Wire.Fits.written_encode (hw : w.Fits) : Wire.Written w w.encode := by
  have hlines := series_flatMap fun line (_ : line ∈ w.lines) => lineWritten_encode line
  have hconstants := series_flatMap fun c (hc : c ∈ w.constants) =>
    WireConstant.written_encode fun data heq => hw.strings data (heq ▸ hc)
  have hwritten := Wire.Written.mk (isNumber_littleEndian hw.code)
    (isNumber_littleEndian hw.constants) (isNumber_littleEndian hw.lines) hlines hconstants
  simpa only [Wire.encode, List.append_assoc] using hwritten

/-! ### The places of functions -/

theorem mem_functionsFrom_cons {index i : Nat} {w : WireConstant} :
    i ∈ functionsFrom index (w :: cs) ↔
      (i = index ∧ w = .function) ∨ i ∈ functionsFrom (index + 1) cs := by
  cases w <;> simp [functionsFrom]

theorem mem_functionsFrom {index i : Nat} :
    i ∈ functionsFrom index cs ↔ ∃ j, i = index + j ∧ cs[j]? = some .function := by
  induction cs generalizing index with
  | nil => simp [functionsFrom]
  | cons w rest ih =>
    rw [mem_functionsFrom_cons, ih]
    constructor
    · rintro (⟨rfl, rfl⟩ | ⟨j, rfl, hj⟩)
      · exact ⟨0, rfl, rfl⟩
      · exact ⟨j + 1, by omega, hj⟩
    · rintro ⟨j, rfl, hj⟩
      cases j with
      | zero => exact Or.inl ⟨rfl, Option.some.inj hj⟩
      | succ j => exact Or.inr ⟨j, by omega, hj⟩

theorem functionsFrom_sorted (index : Nat) (cs : List WireConstant) :
    (functionsFrom index cs).Pairwise (· < ·) := by
  induction cs generalizing index with
  | nil => exact .nil
  | cons w rest ih =>
    cases w with
    | function =>
      refine .cons (fun i hi => ?_) (ih (index + 1))
      obtain ⟨j, rfl, -⟩ := mem_functionsFrom.1 hi
      omega
    | _ => exact ih (index + 1)

/-! ### Writing -/

/-- The value is a function. -/
def IsFunction (m : Memory) (v : Value) : Prop :=
  ∃ id f, v = .object id ∧ m.function? id = some f

/-- The value has a written form: it is nil, a number, a truth value, a string whose
length fits in four bytes, or a function. -/
inductive Writable (m : Memory) : Value → Prop
  | nil : Writable m .nil
  | int (n : Int64) : Writable m (.int n)
  | bool (b : Bool) : Writable m (.bool b)
  | string {id : ObjectId} {data : Text} : m.string? id = some data → data.length < 2 ^ 32 →
      Writable m (.object id)
  | function {v : Value} : IsFunction m v → Writable m v

/-- What a chunk of the memory `m` has to observe to fit in the format. -/
structure Storable (c : Chunk) (m : Memory) : Prop where
  code : c.code.size < 2 ^ 32
  lines : c.lines.size < 2 ^ 32
  constants : c.constants.size < 2 ^ 32
  line : ∀ line ∈ c.lines, -2 ^ 31 ≤ line.toInt ∧ line.toInt < 2 ^ 31
  writable : ∀ v ∈ c.constants, Writable m v

/-- How many constants of a chunk are strings. -/
def stringCount (m : Memory) (c : Chunk) : Nat :=
  c.constants.toList.countP fun v => m.typeOf v == .string

/-- The written form of a value. -/
inductive Writes (m : Memory) : Value → WireConstant → Prop
  | nil : Writes m .nil .nil
  | int (n : Int64) : Writes m (.int n) (.int n)
  | bool (b : Bool) : Writes m (.bool b) (.bool b)
  | string {id : ObjectId} {data : Text} : m.string? id = some data →
      Writes m (.object id) (.string data)
  | function {id : ObjectId} {f : Function} : m.function? id = some f →
      Writes m (.object id) .function

theorem Writes.wireConstant? {v : Value} {w : WireConstant} (h : Writes m v w) :
    wireConstant? m v = some w := by
  cases h with
  | string hdata => rw [Chunk.wireConstant?, Memory.string?_eq_some.1 hdata]
  | function hf => rw [Chunk.wireConstant?, Memory.function?_eq_some.1 hf]
  | _ => rfl

theorem Writes.function_iff {v : Value} {w : WireConstant} (h : Writes m v w) :
    w = .function ↔ IsFunction m v := by
  constructor
  · rintro rfl
    cases h with
    | function hf => exact ⟨_, _, rfl, hf⟩
  · rintro ⟨id, f, rfl, hf⟩
    cases h with
    | function _ => rfl
    | string hdata =>
      have hpayload := Memory.function?_eq_some.1 hf
      rw [Memory.string?_eq_some.1 hdata] at hpayload
      cases hpayload

theorem Writes.isString {v : Value} {w : WireConstant} (h : Writes m v w) :
    w.isString = (m.typeOf v == .string) := by
  cases h with
  | string hdata =>
    rw [Memory.typeOf_object, Memory.string?_eq_some.1 hdata]
    rfl
  | function hf =>
    rw [Memory.typeOf_object, Memory.function?_eq_some.1 hf]
    rfl
  | _ => rfl

/-- What a written value is loaded as is equal to it, unless it is a function. -/
theorem Writes.equal {v x : Value} {w : WireConstant} (h : Writes m v w)
    (hx : WireConstant.Stands n w x) (hv : ¬ IsFunction m v)
    (hkept : ∀ id data, m.string? id = some data → n.string? id = some data) :
    n.equal v x = true := by
  cases h with
  | nil =>
    cases hx
    rfl
  | int i =>
    cases hx
    exact beq_self_eq_true (Value.int i)
  | bool b =>
    cases hx
    exact beq_self_eq_true (Value.bool b)
  | string hdata =>
    obtain ⟨other, rfl, hother⟩ := hx
    simp [Memory.equal, hkept _ _ hdata, hother]
  | function hf => exact absurd ⟨_, _, rfl, hf⟩ hv

theorem Writable.writes {v : Value} (h : Writable m v) :
    ∃ w, Writes m v w ∧ ∀ data, w = .string data → data.length < 2 ^ 32 := by
  cases h with
  | nil => exact ⟨.nil, .nil, nofun⟩
  | int n => exact ⟨.int n, .int n, nofun⟩
  | bool b => exact ⟨.bool b, .bool b, nofun⟩
  | string hdata hfits =>
    refine ⟨_, .string hdata, fun data heq => ?_⟩
    cases heq
    exact hfits
  | function hv =>
    obtain ⟨id, f, rfl, hf⟩ := hv
    exact ⟨.function, .function hf, nofun⟩

theorem wireConstants_of_writes {vs : List Value} (h : List.Forall₂ (Writes m) vs cs)
    (index : Nat) : wireConstants m index vs = .ok cs := by
  induction h generalizing index with
  | nil => rfl
  | cons hv _ ih =>
    rw [wireConstants, hv.wireConstant?]
    simp only [ih]
    rfl

theorem writes_of_writable {vs : List Value} (h : ∀ v ∈ vs, Writable m v) :
    ∃ cs, List.Forall₂ (Writes m) vs cs ∧ ∀ data, .string data ∈ cs → data.length < 2 ^ 32 := by
  induction vs with
  | nil => exact ⟨[], .nil, nofun⟩
  | cons v rest ih =>
    obtain ⟨w, hw, hfits⟩ := (h v (List.mem_cons_self ..)).writes
    obtain ⟨cs, hcs, hrest⟩ := ih fun x hx => h x (List.mem_cons_of_mem _ hx)
    refine ⟨w :: cs, .cons hw hcs, fun data hdata => ?_⟩
    rcases List.mem_cons.1 hdata with heq | hmem
    · exact hfits data heq.symm
    · exact hrest data hmem

theorem countP_isString {vs : List Value} (h : List.Forall₂ (Writes m) vs cs) :
    cs.countP WireConstant.isString = vs.countP fun v => m.typeOf v == .string := by
  induction h with
  | nil => rfl
  | cons hv _ ih => rw [List.countP_cons, List.countP_cons, ih, hv.isString]

/-- The written form of a chunk. -/
structure Wire.Renders (w : Wire) (c : Chunk) (m : Memory) : Prop where
  code : w.code = c.code.toList
  lines : w.lines = c.lines.toList.map Int64.toInt32
  constants : List.Forall₂ (Writes m) c.constants.toList w.constants

/-- A chunk that fits in the format has a written form. -/
theorem Storable.toWire (hc : c.Storable m) :
    ∃ w, c.toWire m = .ok w ∧ w.Fits ∧ w.Renders c m := by
  obtain ⟨cs, hcs, hstrings⟩ := writes_of_writable fun v hv =>
    hc.writable v (Array.mem_toList_iff.1 hv)
  refine ⟨⟨c.code.toList, c.lines.toList.map Int64.toInt32, cs⟩, ?_, ?_, rfl, rfl, hcs⟩
  · rw [Chunk.toWire, wireConstants_of_writes hcs]
    rfl
  · refine ⟨hc.code, ?_, ?_, hstrings⟩
    · simpa using hc.lines
    · have hlen := hcs.length_eq
      rw [← hlen]
      exact hc.constants

/-! ### Coming back -/

/-- The chunk `d` of the memory `n` has what the chunk `c` of the memory `m` has, but for
functions: these are left out, and their places are unlinked. -/
structure Copies (m : Memory) (c : Chunk) (n : Memory) (d : Chunk) : Prop where
  code : d.code = c.code
  lines : d.lines = c.lines
  size : d.constants.size = c.constants.size
  equal : ∀ (i : Nat) (v : Value), c.constants[i]? = some v → ¬ IsFunction m v →
    ∃ x, d.constants[i]? = some x ∧ n.equal v x = true
  function : ∀ (i : Nat) (v : Value), c.constants[i]? = some v → IsFunction m v →
    d.constants[i]? = some .nil
  sorted : d.unlinked.Pairwise (· < ·)
  unlinked : ∀ i, i ∈ d.unlinked ↔ ∃ v, c.constants[i]? = some v ∧ IsFunction m v

theorem toInt64_toInt32 {line : Int64} (h : -2 ^ 31 ≤ line.toInt ∧ line.toInt < 2 ^ 31) :
    line.toInt32.toInt64 = line := by
  rw [← Int64.toInt_inj, Int32.toInt_toInt64, Int64.toInt_toInt32]
  exact Int.bmod_eq_of_le (by omega) (by omega)

/-- Each constant of a chunk is written somehow, and loaded from there. -/
theorem Wire.Renders.constant (hw : w.Renders c m) (hd : d.Spells w n) {i : Nat} {v : Value}
    (hv : c.constants[i]? = some v) :
    ∃ k x, w.constants[i]? = some k ∧ Writes m v k ∧ d.constants[i]? = some x ∧
      WireConstant.Stands n k x := by
  have hwritten := forall₂_iff_getElem?.1 hw.constants i
  rw [Array.getElem?_toList, hv] at hwritten
  have hloaded := hd.rel i
  cases hk : w.constants[i]? with
  | none =>
    rw [hk] at hwritten
    cases hwritten
  | some k =>
    rw [hk] at hwritten hloaded
    cases hx : d.constants[i]? with
    | none =>
      rw [hx] at hloaded
      cases hloaded
    | some x =>
      rw [hx] at hloaded
      cases hwritten with
      | some hwrites =>
        cases hloaded with
        | some hstands => exact ⟨k, x, rfl, hwrites, rfl, hstands⟩

theorem Wire.Renders.size_constants (hw : w.Renders c m) (hd : d.Spells w n) :
    d.constants.size = c.constants.size := by
  have hwritten := hw.constants.length_eq
  have hloaded := hd.constants.length_eq
  rw [Array.length_toList] at hwritten hloaded
  rw [← hloaded, ← hwritten]

theorem Wire.Renders.function_iff (hw : w.Renders c m) (i : Nat) :
    w.constants[i]? = some .function ↔ ∃ v, c.constants[i]? = some v ∧ IsFunction m v := by
  have hrel := forall₂_iff_getElem?.1 hw.constants i
  rw [Array.getElem?_toList] at hrel
  generalize c.constants[i]? = v at hrel ⊢
  generalize w.constants[i]? = k at hrel ⊢
  cases hrel with
  | none => simp
  | some hwrites => simp [hwrites.function_iff]

theorem Wire.Renders.unlinked_iff (hw : w.Renders c m) (hd : d.Spells w n) (i : Nat) :
    i ∈ d.unlinked ↔ ∃ v, c.constants[i]? = some v ∧ IsFunction m v := by
  rw [hd.unlinked, mem_functionsFrom]
  simp only [Nat.zero_add, exists_eq_left', hw.function_iff]

theorem Wire.Renders.lines_eq (hw : w.Renders c m) (hc : c.Storable m) :
    w.lines.map Int32.toInt64 = c.lines.toList := by
  rw [hw.lines, List.map_map]
  refine (List.map_congr_left fun line hline => ?_).trans (List.map_id _)
  exact toInt64_toInt32 (hc.line line (Array.mem_toList_iff.1 hline))

/-- Loading the written form of a chunk copies the chunk. -/
theorem Wire.Renders.copies (hw : w.Renders c m) (hc : c.Storable m) (hd : d.Spells w n)
    (hkept : ∀ id data, m.string? id = some data → n.string? id = some data) :
    Copies m c n d where
  code := by
    apply Array.toList_inj.1
    rw [hd.code, hw.code]
  lines := by
    apply Array.toList_inj.1
    rw [hd.lines, hw.lines_eq hc]
  size := hw.size_constants hd
  equal i v hv hnot := by
    obtain ⟨k, x, -, hwrites, hx, hstands⟩ := hw.constant hd hv
    exact ⟨x, hx, hwrites.equal hstands hnot hkept⟩
  function i v hv hfunction := by
    obtain ⟨k, x, -, hwrites, hx, hstands⟩ := hw.constant hd hv
    cases hwrites.function_iff.2 hfunction
    rw [hx, show x = .nil from hstands]
  sorted := by
    rw [hd.unlinked]
    exact functionsFrom_sorted 0 w.constants
  unlinked := hw.unlinked_iff hd

theorem stringsIn_of_written {t : Text} (hw : Wire.Written w t) :
    stringsIn t = w.constants.countP WireConstant.isString := by
  rw [stringsIn, read_eq_none.2 hw]

/-- A chunk that fits in the format is written, and the bytes are a written chunk with as
many strings as the chunk has. -/
theorem Storable.serialize (hc : c.Storable m) :
    ∃ w, c.serialize m = .ok w.encode ∧ Wire.Written w w.encode ∧ w.Renders c m ∧
      stringsIn w.encode = c.stringCount m := by
  obtain ⟨w, hwire, hfits, hrenders⟩ := hc.toWire
  have hwritten := hfits.written_encode
  refine ⟨w, ?_, hwritten, hrenders, ?_⟩
  · rw [Chunk.serialize, hwire]
    rfl
  · rw [stringsIn_of_written hwritten, countP_isString hrenders.constants, stringCount]

/-- A chunk that fits in the format is written and comes back the same where there is room
for its strings, but for functions: their places hold nil and are listed as unlinked. -/
theorem serialize_deserialize {m : Memory} {held : RootId → List ObjectId} {c : Chunk}
    (hc : c.Storable m) (hm : m.Ready held (c.stringCount m)) :
    ∃ t, c.serialize m = .ok t ∧
      ∃ d n, deserialize (.of held) t m = .ok (.ok d) n ∧ Copies m c n d := by
  obtain ⟨w, hserialize, hwritten, hrenders, hroom⟩ := hc.serialize
  rw [← hroom] at hm
  obtain ⟨vs, n, d, hload, -, hrun⟩ := deserialize_of_written hwritten hm
  refine ⟨w.encode, hserialize, d, n, hrun, ?_⟩
  exact hrenders.copies hc hload.spells fun _ _ hdata => hload.kept.string?_kept hdata

/-- A heap with a string and a function. -/
def storeSample : Memory where
  heap := { Heap.create 0 .standard with
    slots := #[some 0, some 1]
    generations := #[1, 1]
    marks := #[false, false]
    live := 2 }
  objects := #[⟨.string [0x00, 0xFF], some ⟨0, 0, 1, false⟩⟩,
    ⟨.function {}, some ⟨0, 1, 1, false⟩⟩]

/-- A chunk with a constant of each kind and a negative line. -/
def storeSampleChunk : Chunk where
  code := #[0x00, 0x01]
  lines := #[-1, 7]
  constants := #[.nil, .object 1, .int (-5), .bool true, .object 0]

theorem storeSample_ready (count : Nat) : storeSample.Ready (fun _ => []) count where
  reached := by
    have hnew : Memory.Reached ⟨Heap.create 0 .standard, #[], #[]⟩ :=
      .create 0 .standard #[] (by simp)
    have hfirst := hnew.step
      (.alloc (.of fun _ => []) (.string [0x00, 0xFF]) (Or.inl ⟨_, rfl⟩))
    exact hfirst.step (.alloc (.of fun _ => []) (.function {}) (Or.inl ⟨_, rfl⟩))
  owns id hid := (Memory.not_reachable_of_no_anchors rfl rfl id hid).elim
  room _ _ := rfl

theorem storeSampleChunk_storable : storeSampleChunk.Storable storeSample where
  code := by decide
  lines := by decide
  constants := by decide
  line := by simp [storeSampleChunk]
  writable v hv := by
    simp only [storeSampleChunk, List.mem_toArray, List.mem_cons, List.not_mem_nil, or_false] at hv
    rcases hv with rfl | rfl | rfl | rfl | rfl
    · exact .nil
    · exact .function ⟨1, {}, rfl, rfl⟩
    · exact .int (-5)
    · exact .bool true
    · exact @Writable.string _ 0 [0x00, 0xFF] rfl (by decide)

/-- The sample chunk comes back. -/
theorem serialize_deserialize_storeSample :
    storeSampleChunk.Storable storeSample ∧
      storeSample.Ready (fun _ => []) (storeSampleChunk.stringCount storeSample) ∧
      ∃ t, storeSampleChunk.serialize storeSample = .ok t ∧
        ∃ d n, deserialize (.of fun _ => []) t storeSample = .ok (.ok d) n ∧
          Copies storeSample storeSampleChunk n d :=
  ⟨storeSampleChunk_storable, storeSample_ready _,
    serialize_deserialize storeSampleChunk_storable (storeSample_ready _)⟩

end StackVm.Chunk
