/-
The encoded form of images.  What is encoded is decoded to the same image, whatever is in it,
so that two images have the same bytes only if they are equal, and everything that can be
parsed is such an image.
-/
import Mathlib.Data.Fintype.Card
import StackVm.Image.Codec
import StackVm.Proofs.CborItems
import StackVm.Proofs.ImageBuilding

namespace StackVm

namespace Links

/-! ### Link tables -/

/-- No slot comes twice, and the slots ascend. -/
def Ascending (links : Links) : Prop := links.Pairwise (·.1 < ·.1)

/-- The table that insertions make, the first one first. -/
def ofInsertions (insertions : List (UInt8 × Int64)) : Links :=
  insertions.foldl (fun links link => links.insert link.1 link.2) []

variable {links table : Links} {slot s : UInt8} {target t : Int64}

theorem lookup_cons (slot s : UInt8) (t : Int64) (links : Links) :
    List.lookup slot ((s, t) :: links) = if slot = s then some t else List.lookup slot links := by
  rw [List.lookup_cons]
  by_cases hslot : slot = s
  · simp [hslot]
  · simp [beq_false_of_ne hslot, hslot]

theorem lookup_insert (links : Links) (slot s : UInt8) (target : Int64) :
    (links.insert slot target).lookup s = if s = slot then some target else links.lookup s := by
  induction links with
  | nil => rw [Links.insert, lookup_cons]
  | cons link rest ih =>
    obtain ⟨first, t⟩ := link
    rw [Links.insert]
    by_cases hbefore : slot < first
    · rw [if_pos hbefore, lookup_cons]
    · rw [if_neg hbefore]
      by_cases hsame : slot = first
      · rw [if_pos hsame, lookup_cons, lookup_cons, hsame]
        by_cases hs : s = first <;> simp [hs]
      · rw [if_neg hsame, lookup_cons, lookup_cons, ih]
        by_cases hs : s = first
        · simp [hs, Ne.symm hsame]
        · simp [hs]

/-- The table after some insertions says of each slot what the last one of them has said. -/
theorem lookup_ofInsertions (insertions : List (UInt8 × Int64)) (s : UInt8) :
    (ofInsertions insertions).lookup s = insertions.reverse.lookup s := by
  induction insertions using List.reverseRecOn with
  | nil => rfl
  | append_singleton front link ih =>
    rw [ofInsertions, List.foldl_append, ← ofInsertions, List.foldl_cons, List.foldl_nil,
      lookup_insert, ih, List.reverse_append, List.reverse_singleton, List.singleton_append,
      lookup_cons]

theorem mem_insert {link : UInt8 × Int64} (h : link ∈ links.insert slot target) :
    link = (slot, target) ∨ link ∈ links := by
  induction links with
  | nil => simpa [Links.insert] using h
  | cons first rest ih =>
    obtain ⟨s, t⟩ := first
    rw [Links.insert] at h
    split_ifs at h
    · simpa using h
    · rcases List.mem_cons.1 h with hlink | hlink
      · exact Or.inl hlink
      · exact Or.inr (List.mem_cons_of_mem _ hlink)
    · rcases List.mem_cons.1 h with hlink | hlink
      · exact Or.inr (hlink ▸ List.mem_cons_self ..)
      · exact (ih hlink).imp_right (List.mem_cons_of_mem _)

theorem Ascending.insert (h : links.Ascending) (slot : UInt8) (target : Int64) :
    Ascending (links.insert slot target) := by
  induction links with
  | nil => exact List.pairwise_singleton _ _
  | cons first rest ih =>
    obtain ⟨s, t⟩ := first
    obtain ⟨hfirst, hrest⟩ := List.pairwise_cons.1 h
    rw [Links.insert]
    split_ifs with hbefore hsame
    · refine List.pairwise_cons.2 ⟨?_, h⟩
      intro link hlink
      rcases List.mem_cons.1 hlink with rfl | hlink
      · exact hbefore
      · exact UInt8.lt_trans hbefore (hfirst link hlink)
    · exact hsame ▸ List.pairwise_cons.2 ⟨hfirst, hrest⟩
    · refine List.pairwise_cons.2 ⟨?_, ih hrest⟩
      intro link hlink
      rcases mem_insert hlink with rfl | hlink
      · exact UInt8.lt_of_le_of_ne (UInt8.not_lt.1 hbefore) (Ne.symm hsame)
      · exact hfirst link hlink

theorem ascending_ofInsertions (insertions : List (UInt8 × Int64)) :
    (ofInsertions insertions).Ascending := by
  induction insertions using List.reverseRecOn with
  | nil => exact List.Pairwise.nil
  | append_singleton front link ih =>
    rw [ofInsertions, List.foldl_append, ← ofInsertions]
    exact ih.insert link.1 link.2

theorem lookup_eq_none (h : ∀ link ∈ links, slot < link.1) : links.lookup slot = none := by
  rw [List.lookup_eq_none_iff]
  intro link hlink
  simpa using UInt8.ne_of_lt (h link hlink)

/-- Nothing is linked before the first slot. -/
theorem Ascending.not_lt {rest : Links} (h : Ascending ((s, t) :: rest))
    (hslot : List.lookup slot ((s, t) :: rest) = some target) : ¬ slot < s := by
  intro hlt
  obtain ⟨hfirst, -⟩ := List.pairwise_cons.1 h
  have hnone : List.lookup slot ((s, t) :: rest) = none := by
    apply lookup_eq_none
    rw [List.forall_mem_cons]
    exact ⟨hlt, fun link hlink => UInt8.lt_trans hlt (hfirst link hlink)⟩
  rw [hnone] at hslot
  cases hslot

/-- Tables with the same content are equal. -/
theorem Ascending.ext (h : links.Ascending) (htable : table.Ascending)
    (hsame : ∀ slot, links.lookup slot = table.lookup slot) : links = table := by
  induction links generalizing table with
  | nil =>
    cases table with
    | nil => rfl
    | cons first rest =>
      obtain ⟨s, t⟩ := first
      simpa [lookup_cons] using hsame s
  | cons first rest ih =>
    obtain ⟨s, t⟩ := first
    obtain ⟨hfirst, hrest⟩ := List.pairwise_cons.1 h
    cases table with
    | nil => simpa [lookup_cons] using hsame s
    | cons first' rest' =>
      obtain ⟨s', t'⟩ := first'
      obtain ⟨hfirst', hrest'⟩ := List.pairwise_cons.1 htable
      have hslot : s = s' := by
        have hle := htable.not_lt (by rw [← hsame, lookup_cons, if_pos rfl])
        have hge := h.not_lt (by rw [hsame, lookup_cons, if_pos rfl])
        exact UInt8.le_antisymm (UInt8.not_lt.1 hge) (UInt8.not_lt.1 hle)
      subst hslot
      have htarget := hsame s
      rw [lookup_cons, lookup_cons, if_pos rfl, if_pos rfl, Option.some.injEq] at htarget
      rw [htarget, ih hrest hrest' ?_]
      intro slot
      by_cases hslot : slot = s
      · rw [hslot, lookup_eq_none hfirst, lookup_eq_none hfirst']
      · simpa [lookup_cons, hslot] using hsame slot

/-- The order of insertions makes no difference as long as the last one for each slot is the
same. -/
theorem ofInsertions_eq {insertions others : List (UInt8 × Int64)}
    (h : ∀ slot, insertions.reverse.lookup slot = others.reverse.lookup slot) :
    ofInsertions insertions = ofInsertions others := by
  apply (ascending_ofInsertions insertions).ext (ascending_ofInsertions others)
  intro slot
  rw [lookup_ofInsertions, lookup_ofInsertions, h]

/-- There is no room for more than 256 slots. -/
theorem Ascending.length_le (h : links.Ascending) : links.length ≤ 256 := by
  have hnodup : (links.map (·.1.toFin)).Nodup := by
    rw [List.Nodup, List.pairwise_map]
    refine h.imp ?_
    intro a b hlt heq
    exact UInt8.ne_of_lt hlt (UInt8.toFin_inj.1 heq)
  simpa using hnodup.length_le_card

end Links

/-- A function whose name is UTF-8 and whose links are in order. -/
structure FunctionImage.Sound (f : FunctionImage) : Prop where
  name : f.name.isUtf8 = true
  links : f.links.Ascending

/-- The function with the links that insertions make. -/
def FunctionImage.linked (f : FunctionImage) (insertions : List (UInt8 × Int64)) : FunctionImage :=
  { f with links := .ofInsertions insertions }

/-- The sizes of a function are machine words. -/
structure FunctionImage.Fits (f : FunctionImage) : Prop where
  name : f.name.length < 2 ^ 64
  bytes : f.bytes.length < 2 ^ 64

namespace Image

open Cbor

/-- An image of the one version there is, with sound functions, and no more of them than can be
read. -/
structure Sound (img : Image) : Prop where
  version : img.version = formatVersion
  count : img.functionList.length ≤ maxElements
  functions : ∀ f ∈ img.functionList, f.Sound

/-- The sizes of an image are machine words. -/
def Fits (img : Image) : Prop := ∀ f ∈ img.functionList, f.Fits

variable {f : FunctionImage} {img : Image} {levels bound : Nat}

/-! ### The items of an image -/

/-- The item that a machine word is written as. -/
def integerItem (n : Int64) : Item :=
  match n.toInt with
  | .ofNat n => .uint n
  | .negSucc n => .negint n

/-- The key and the value that a link is written as. -/
def linkItem (link : UInt8 × Int64) : Item × Item := (.uint link.1.toNat, integerItem link.2)

/-- The item that a function is written as. -/
def functionItem (f : FunctionImage) : Item :=
  let fields : List (Item × Item) :=
    [(.uint 1, .text f.name f.name.isUtf8), (.uint 2, integerItem f.arity),
      (.uint 3, (f.chunk.map Item.bytes).getD (.simple 22))]
  .map (if f.links = [] then fields else fields ++ [(.uint 4, .map (f.links.map linkItem))])

/-- The item that an image is written as. -/
def item (img : Image) : Item :=
  .map [(.uint 1, integerItem img.version), (.uint 2, integerItem img.entry),
    (.uint 3, (img.functions.map fun fs => .array (fs.map functionItem)).getD (.simple 22))]

theorem reads_int (n : Int64) : Reads (int n) (integerItem n) levels := by
  have hlow := n.le_toInt
  have hhigh := n.toInt_lt
  rw [int, integerItem]
  cases hn : n.toInt with
  | ofNat k =>
    rw [hn, Int.ofNat_eq_natCast] at hhigh
    have hk : k < 2 ^ 64 := by omega
    exact (reads_uint hk).mono (Nat.zero_le _)
  | negSucc k =>
    rw [hn] at hlow
    have hk : k < 2 ^ 64 := by omega
    exact (reads_negint hk).mono (Nat.zero_le _)

theorem reads_nat {n : Nat} (hn : n < 256) : Reads (nat n) (.uint n) levels := by
  have hn' : n < 2 ^ 64 := by omega
  exact (reads_uint hn').mono (Nat.zero_le _)

theorem reads_field {n : Nat} (hn : n < 256) {t : Text} {item : Item} (h : Reads t item levels) :
    ReadsEntry levels (nat n, t) (.uint n, item) :=
  ⟨reads_nat hn, h⟩

theorem reads_links (hlinks : f.links.Ascending) :
    Reads (Cbor.map (f.links.map fun (slot, target) => (Cbor.nat slot.toNat, Cbor.int target)))
      (.map (f.links.map linkItem)) 1 := by
  apply reads_map
  · rw [List.forall₂_map_left_iff, List.forall₂_map_right_iff, List.forall₂_same]
    intro link _
    exact ⟨reads_nat link.1.toNat_lt, reads_int link.2⟩
  · have hlength := hlinks.length_le
    rw [List.length_map, maxElements]
    omega

theorem reads_chunk (hfits : f.Fits) :
    Reads ((f.chunk.map Cbor.bytes).getD Cbor.null)
      ((f.chunk.map Item.bytes).getD (.simple 22)) 0 := by
  cases hchunk : f.chunk with
  | none => exact reads_null
  | some data =>
    have hbytes := hfits.bytes
    rw [FunctionImage.bytes, hchunk] at hbytes
    exact reads_bytes hbytes

theorem reads_function (hsound : f.Sound) (hfits : f.Fits) :
    Reads (encodeFunction f) (functionItem f) 2 := by
  have hfields : List.Forall₂ (ReadsEntry 1)
      [(Cbor.nat 1, Cbor.text f.name), (Cbor.nat 2, Cbor.int f.arity),
        (Cbor.nat 3, (f.chunk.map Cbor.bytes).getD Cbor.null)]
      [(Item.uint 1, Item.text f.name f.name.isUtf8), (.uint 2, integerItem f.arity),
        (.uint 3, (f.chunk.map Item.bytes).getD (.simple 22))] := by
    have hname := (reads_text hfits.name).mono (Nat.zero_le 1)
    have hchunk := (reads_chunk hfits).mono (Nat.zero_le 1)
    refine List.Forall₂.cons (reads_field (n := 1) (by decide) hname) ?_
    refine List.Forall₂.cons (reads_field (n := 2) (by decide) (reads_int f.arity)) ?_
    exact .cons (reads_field (n := 3) (by decide) hchunk) .nil
  rw [encodeFunction, functionItem]
  by_cases hempty : f.links = []
  · rw [if_pos hempty, if_pos hempty]
    apply reads_map hfields
    rw [maxElements]
    simp
  · rw [if_neg hempty, if_neg hempty]
    apply reads_map
    · have hlinks := reads_field (n := 4) (by decide) (reads_links hsound.links)
      exact List.rel_append hfields (.cons hlinks .nil)
    · rw [List.length_append, maxElements]
      simp

theorem reads_functions (hsound : img.Sound) (hfits : img.Fits) :
    Reads ((img.functions.map fun fs => Cbor.array (fs.map encodeFunction)).getD Cbor.null)
      ((img.functions.map fun fs => Item.array (fs.map functionItem)).getD (.simple 22)) 3 := by
  cases hfunctions : img.functions with
  | none => exact reads_null.mono (Nat.zero_le 3)
  | some fs =>
    have hlist : img.functionList = fs := by rw [functionList, hfunctions]; rfl
    have hcount := hsound.count
    have hall := hsound.functions
    rw [Fits, hlist] at hfits
    rw [hlist] at hcount hall
    apply reads_array
    · rw [List.forall₂_map_left_iff, List.forall₂_map_right_iff, List.forall₂_same]
      intro f hf
      exact reads_function (hall f hf) (hfits f hf)
    · rw [List.length_map]
      exact hcount

/-- An encoded image is read as its item. -/
theorem reads_encode (hsound : img.Sound) (hfits : img.Fits) :
    Reads img.encode img.item 4 := by
  apply reads_map
  · have hfunctions := reads_functions hsound hfits
    refine List.Forall₂.cons (reads_field (n := 1) (by decide) (reads_int img.version)) ?_
    refine List.Forall₂.cons (reads_field (n := 2) (by decide) (reads_int img.entry)) ?_
    exact .cons (reads_field (n := 3) (by decide) hfunctions) .nil
  · rw [maxElements]
    simp

/-! ### The image of its items -/

theorem asInt64_integerItem (old n : Int64) : asInt64 old (integerItem n) = some n := by
  have hinteger : asInteger old.toInt (integerItem n) = some n.toInt := by
    rw [integerItem]
    cases n.toInt with
    | ofNat k => rfl
    | negSucc k =>
      rw [asInteger, Int.negSucc_eq]
      congr 1
      omega
  have hlow : Int64.minValue.toInt ≤ n.toInt := n.le_toInt
  have hhigh : n.toInt ≤ Int64.maxValue.toInt := n.toInt_le
  rw [asInt64, hinteger, Option.bind_eq_bind, Option.bind_some, if_pos ⟨hlow, hhigh⟩,
    Int64.ofInt_toInt]

theorem asByte_uint (old b : UInt8) : asByte old (.uint b.toNat) = some b := by
  have hlt := b.toNat_lt
  simp [asByte, asInteger]
  omega

theorem linksOf_linkItem {links done : Links} (h : Links.Ascending (done ++ links)) (slot : UInt8)
    (target : Int64) :
    linksOf done slot target (links.map linkItem) = some (done ++ links) := by
  induction links generalizing done slot target with
  | nil => simp [linksOf]
  | cons link rest ih =>
    have hlast : ∀ earlier ∈ done, earlier.1 < link.1 := by
      intro earlier hearlier
      exact (List.pairwise_append.1 h).2.2 _ hearlier _ (List.mem_cons_self ..)
    have hinsert : done.insert link.1 link.2 = done ++ [link] := insert_of_forall_lt hlast
    rw [List.append_cons] at h ⊢
    simp only [List.map_cons, linkItem, linksOf, asByte_uint, asInt64_integerItem,
      Option.bind_eq_bind, Option.bind_some, hinsert]
    exact ih h link.1 link.2

theorem asLinks_map {links : Links} (h : links.Ascending) :
    asLinks (.map (links.map linkItem)) = some links := by
  rw [← List.nil_append links] at h
  rw [asLinks, linksOf_linkItem h, List.nil_append]

theorem asFunction_functionItem (hsound : f.Sound) : asFunction (functionItem f) = some f := by
  obtain ⟨name, arity, chunk, links⟩ := f
  obtain ⟨hname, hlinks⟩ := hsound
  have hchunk : asBytes ((chunk.map Item.bytes).getD (.simple 22)) = some chunk := by
    cases chunk <;> simp [asBytes]
  by_cases hempty : links = []
  · subst hempty
    simp [functionItem, asFunction, readFields, asKey, setFunctionField, asText,
      asInt64_integerItem, hchunk, hname]
  · simp [functionItem, asFunction, readFields, asKey, setFunctionField, asText,
      asInt64_integerItem, hchunk, hname, hempty, asLinks_map hlinks]

theorem mapM_asFunction {fs : List FunctionImage} (hall : ∀ f ∈ fs, f.Sound) :
    (fs.map functionItem).mapM asFunction = some fs := by
  induction fs with
  | nil => rfl
  | cons f rest ih =>
    obtain ⟨hf, hrest⟩ := List.forall_mem_cons.1 hall
    simp [asFunction_functionItem hf, ih hrest]

theorem asImage_item (hsound : img.Sound) : asImage img.item = some img := by
  obtain ⟨version, entry, functions⟩ := img
  have hfunctions : asFunctions ((functions.map fun fs =>
      Item.array (fs.map functionItem)).getD (.simple 22)) = some functions := by
    cases functions with
    | none => simp [asFunctions]
    | some fs =>
      have hall : (fs.map functionItem).mapM asFunction = some fs :=
        mapM_asFunction hsound.functions
      rw [Option.map_some, Option.getD_some, asFunctions, hall, Option.map_some]
  simp [item, asImage, readFields, asKey, setField, asInt64_integerItem, hfunctions]

/-- What is encoded is decoded to the same image. -/
theorem decode_encode (hsound : img.Sound) (hfits : img.Fits) : decode img.encode = .ok img := by
  have hdecode := (reads_encode hsound hfits).decode (by decide)
  rw [decode, hdecode, Option.bind_some, asImage_item hsound]
  simp [hsound.version]

/-- An encoded image is no chunk: already the first byte differs. -/
theorem after?_magic_encode (img : Image) : Text.after? Chunk.magic img.encode = none := by
  have hmagic : Chunk.magic = [0x43, 0x48, 0x4E, 0x4B] := by decide
  rw [hmagic, encode]
  simp [Cbor.map, head, Text.after?]

theorem parse_eq_ok (hsound : img.Sound) (hfits : img.Fits) : parse img.encode = .ok img := by
  rw [parse, after?_magic_encode]
  exact decode_encode hsound hfits

end Image

end StackVm
