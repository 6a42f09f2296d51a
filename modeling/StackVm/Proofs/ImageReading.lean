/-
Images that have been read.  Whatever can be parsed as an image could have been encoded as one,
so that encoding and parsing are inverse to each other.
-/
import StackVm.Proofs.ImageCodec

namespace StackVm.Image

open Cbor

variable {α : Type} {read : Item → Option α} {a : α} {bound : Nat} {i : Item}

/-! ### Tags -/

/-- What a tagged item is read as, its content is read as too. -/
def SeesThroughTags (read : Item → Option α) : Prop :=
  ∀ number content a, read (.tag number content) = some a → read content = some a

theorem exists_untagged (hread : SeesThroughTags read) (h : Proper bound i) (hi : read i = some a) :
    ∃ j, Proper bound j ∧ read j = some a ∧ ∀ number content, j ≠ .tag number content := by
  induction h with
  | tag _ ih => exact ih (hread _ _ _ hi)
  | uint n => exact ⟨_, .uint n, hi, nofun⟩
  | negint n => exact ⟨_, .negint n, hi, nofun⟩
  | bytes hlength => exact ⟨_, .bytes hlength, hi, nofun⟩
  | text hlength hutf => exact ⟨_, .text hlength hutf, hi, nofun⟩
  | array hcount hall => exact ⟨_, .array hcount hall, hi, nofun⟩
  | map hkeys hvalues => exact ⟨_, .map hkeys hvalues, hi, nofun⟩
  | simple n => exact ⟨_, .simple n, hi, nofun⟩
  | float => exact ⟨_, .float, hi, nofun⟩

theorem asText_tag (old : Text) : SeesThroughTags (asText old) := by
  intro number content s h
  unfold asText at h
  split at h <;> simp_all

theorem asBytes_tag : SeesThroughTags asBytes := by
  intro number content s h
  unfold asBytes at h
  split at h <;> simp_all [asBytes]

theorem asLinks_tag : SeesThroughTags asLinks := by
  intro number content s h
  unfold asLinks at h
  split at h <;> simp_all

theorem asFunction_tag : SeesThroughTags asFunction := by
  intro number content s h
  unfold asFunction at h
  split at h <;> simp_all

theorem asFunctions_tag : SeesThroughTags asFunctions := by
  intro number content s h
  unfold asFunctions at h
  split at h <;> simp_all

theorem asImage_tag : SeesThroughTags asImage := by
  intro number content s h
  unfold asImage at h
  split at h <;> simp_all

/-! ### Texts, byte strings and links -/

theorem asText_sound {old s : Text} (h : Proper bound i) (hread : asText old i = some s)
    (hold : old.isUtf8 = true ∧ old.length ≤ bound) :
    s.isUtf8 = true ∧ s.length ≤ bound := by
  obtain ⟨j, hj, hs, hbare⟩ := exists_untagged (asText_tag old) h hread
  cases hj with
  | tag => exact absurd rfl (hbare _ _)
  | text hlength hutf =>
    rw [asText] at hs
    split_ifs at hs with hwell
    cases hs
    exact ⟨hutf hwell, hlength⟩
  | simple n =>
    rw [asText] at hs
    split_ifs at hs
    cases hs
    exact hold
  | _ => simp [asText] at hs

theorem forall₂_of_mapM {items : List Item} {as : List α} (h : items.mapM read = some as) :
    List.Forall₂ (fun i a => read i = some a) items as := by
  induction items generalizing as with
  | nil =>
    cases h
    exact .nil
  | cons i rest ih =>
    rw [List.mapM_cons] at h
    obtain ⟨a, ha, hrest⟩ := Option.bind_eq_some_iff.1 h
    obtain ⟨as', has, heq⟩ := Option.bind_eq_some_iff.1 hrest
    cases heq
    exact .cons ha (ih has)

theorem asBytes_sound {data : Text} (h : Proper bound i) (hread : asBytes i = some (some data)) :
    data.length ≤ max bound maxElements := by
  obtain ⟨j, hj, hdata, hbare⟩ := exists_untagged asBytes_tag h hread
  cases hj with
  | tag => exact absurd rfl (hbare _ _)
  | bytes hlength =>
    cases hdata
    exact hlength.trans (Nat.le_max_left ..)
  | array hcount _ =>
    obtain ⟨bs, hbs, heq⟩ := Option.map_eq_some_iff.1 hdata
    cases heq
    rw [← (forall₂_of_mapM hbs).length_eq]
    exact hcount.trans (Nat.le_max_right ..)
  | simple n =>
    rw [asBytes] at hdata
    split_ifs at hdata
    cases hdata
  | _ => simp [asBytes] at hdata

theorem ascending_linksOf {done links : Links} {slot : UInt8} {target : Int64}
    {entries : List (Item × Item)} (hdone : done.Ascending)
    (h : linksOf done slot target entries = some links) : links.Ascending := by
  induction entries generalizing done slot target with
  | nil =>
    cases h
    exact hdone
  | cons e rest ih =>
    obtain ⟨k, v⟩ := e
    obtain ⟨slot', -, hslot⟩ := Option.bind_eq_some_iff.1 h
    obtain ⟨target', -, hrest⟩ := Option.bind_eq_some_iff.1 hslot
    exact ih (hdone.insert slot' target') hrest

theorem asLinks_sound {links : Links} (h : Proper bound i) (hread : asLinks i = some links) :
    links.Ascending := by
  obtain ⟨j, hj, hlinks, hbare⟩ := exists_untagged asLinks_tag h hread
  cases hj with
  | tag => exact absurd rfl (hbare _ _)
  | map _ _ => exact ascending_linksOf List.Pairwise.nil hlinks
  | simple n =>
    rw [asLinks] at hlinks
    split_ifs at hlinks
    cases hlinks
    exact List.Pairwise.nil
  | _ => simp [asLinks] at hlinks

/-! ### Functions and images -/

/-- What the fields of a structure keep holds when they have been read. -/
theorem readFields_keeps {set : Nat → Item → α → Option α} {P : α → Prop} {found : List Nat}
    {entries : List (Item × Item)} {b : α}
    (hset : ∀ n v a b, Proper bound v → P a → set n v a = some b → P b)
    (hall : ∀ e ∈ entries, Proper bound e.2) (ha : P a)
    (h : readFields set found a entries = some b) : P b := by
  induction entries generalizing found a with
  | nil =>
    cases h
    exact ha
  | cons e rest ih =>
    obtain ⟨k, v⟩ := e
    obtain ⟨hv, hrest⟩ := List.forall_mem_cons.1 hall
    obtain ⟨key, -, hkey⟩ := Option.bind_eq_some_iff.1 h
    cases key with
    | unknown => exact ih hrest ha hkey
    | field n =>
      by_cases hn : n ∈ found
      · simp only [if_pos hn] at hkey
        exact ih hrest ha hkey
      · simp only [if_neg hn] at hkey
        obtain ⟨a', ha', hmore⟩ := Option.bind_eq_some_iff.1 hkey
        exact ih hrest (hset n v a a' hv ha ha') hmore

/-- A function that may have been read from at most `bound` bytes. -/
structure ReadFunction (bound : Nat) (f : FunctionImage) : Prop where
  sound : f.Sound
  name : f.name.length ≤ bound
  bytes : f.bytes.length ≤ max bound maxElements

theorem readFunction_default (bound : Nat) : ReadFunction bound {} := by
  refine ⟨⟨?_, List.Pairwise.nil⟩, Nat.zero_le _, Nat.zero_le _⟩
  simp [Text.isUtf8, Text.runes, Text.runesInto]

theorem setFunctionField_sound {n : Nat} {v : Item} {f g : FunctionImage} (hv : Proper bound v)
    (hf : ReadFunction bound f) (h : setFunctionField n v f = some g) : ReadFunction bound g := by
  unfold setFunctionField at h
  split at h
  · obtain ⟨name, hname, rfl⟩ := Option.map_eq_some_iff.1 h
    obtain ⟨hutf, hlength⟩ := asText_sound hv hname ⟨hf.sound.name, hf.name⟩
    exact ⟨⟨hutf, hf.sound.links⟩, hlength, hf.bytes⟩
  · obtain ⟨arity, -, rfl⟩ := Option.map_eq_some_iff.1 h
    exact ⟨⟨hf.sound.name, hf.sound.links⟩, hf.name, hf.bytes⟩
  · obtain ⟨chunk, hchunk, rfl⟩ := Option.map_eq_some_iff.1 h
    refine ⟨⟨hf.sound.name, hf.sound.links⟩, hf.name, ?_⟩
    cases chunk with
    | none => exact Nat.zero_le _
    | some data => exact asBytes_sound hv hchunk
  · obtain ⟨links, hlinks, rfl⟩ := Option.map_eq_some_iff.1 h
    exact ⟨⟨hf.sound.name, asLinks_sound hv hlinks⟩, hf.name, hf.bytes⟩
  · cases h
    exact hf

theorem asFunction_sound {f : FunctionImage} (h : Proper bound i) (hread : asFunction i = some f) :
    ReadFunction bound f := by
  obtain ⟨j, hj, hf, hbare⟩ := exists_untagged asFunction_tag h hread
  cases hj with
  | tag => exact absurd rfl (hbare _ _)
  | map _ hvalues =>
    exact readFields_keeps (fun _ _ _ _ => setFunctionField_sound) hvalues
      (readFunction_default bound) hf
  | simple n =>
    rw [asFunction] at hf
    split_ifs at hf
    cases hf
    exact readFunction_default bound
  | _ => simp [asFunction] at hf

/-- The functions of an image that may have been read from at most `bound` bytes. -/
def ReadFunctions (bound : Nat) (fs : List FunctionImage) : Prop :=
  fs.length ≤ maxElements ∧ ∀ f ∈ fs, ReadFunction bound f

theorem asFunctions_sound {functions : Option (List FunctionImage)} (h : Proper bound i)
    (hread : asFunctions i = some functions) : ReadFunctions bound (functions.getD []) := by
  obtain ⟨j, hj, hfs, hbare⟩ := exists_untagged asFunctions_tag h hread
  cases hj with
  | tag => exact absurd rfl (hbare _ _)
  | array hcount hall =>
    obtain ⟨fs, hall₂, rfl⟩ := Option.map_eq_some_iff.1 hfs
    have hread := forall₂_of_mapM hall₂
    refine ⟨hread.length_eq ▸ hcount, ?_⟩
    intro f hf
    obtain ⟨e, he, hfunction⟩ := exists_mem_left hread hf
    exact asFunction_sound (hall e he) hfunction
  | simple n =>
    rw [asFunctions] at hfs
    split_ifs at hfs
    cases hfs
    exact ⟨Nat.zero_le _, by simp⟩
  | _ => simp [asFunctions] at hfs

theorem asImage_sound {img : Image} (h : Proper bound i) (hread : asImage i = some img) :
    ReadFunctions bound img.functionList := by
  have hempty : ReadFunctions bound [] := ⟨Nat.zero_le _, by simp⟩
  obtain ⟨j, hj, himg, hbare⟩ := exists_untagged asImage_tag h hread
  cases hj with
  | tag => exact absurd rfl (hbare _ _)
  | map _ hvalues =>
    refine readFields_keeps (P := fun img => ReadFunctions bound img.functionList) ?_ hvalues
      hempty himg
    intro n v img img' hv hbefore hset
    unfold setField at hset
    split at hset
    · obtain ⟨version, -, rfl⟩ := Option.map_eq_some_iff.1 hset
      exact hbefore
    · obtain ⟨entry, -, rfl⟩ := Option.map_eq_some_iff.1 hset
      exact hbefore
    · obtain ⟨functions, hfunctions, rfl⟩ := Option.map_eq_some_iff.1 hset
      exact asFunctions_sound hv hfunctions
    · cases hset
      exact hbefore
  | simple n =>
    rw [asImage] at himg
    split_ifs at himg
    cases himg
    exact hempty
  | _ => simp [asImage] at himg

/-! ### Images that have been parsed -/

theorem sound_of_decode {t : Text} {img : Image} (h : decode t = .ok img) :
    img.Sound ∧ (t.length < 2 ^ 64 → img.Fits) := by
  rw [decode] at h
  split at h
  · cases h
  · next img' hread =>
    split_ifs at h with hversion
    cases h
    obtain ⟨item, hitem, himage⟩ := Option.bind_eq_some_iff.1 hread
    obtain ⟨hcount, hall⟩ := asImage_sound (proper_of_decode hitem) himage
    refine ⟨⟨hversion, hcount, fun f hf => (hall f hf).sound⟩, ?_⟩
    intro hlength f hf
    have hname := (hall f hf).name
    have hbytes := (hall f hf).bytes
    rw [maxElements] at hbytes
    exact ⟨by omega, by omega⟩

theorem sound_ofChunk (t : Text) :
    (ofChunk [] t).Sound ∧ (t.length < 2 ^ 64 → (ofChunk [] t).Fits) := by
  have hone : (ofChunk [] t).functionList.length = 1 := rfl
  refine ⟨⟨rfl, ?_, ?_⟩, ?_⟩
  · rw [hone]
    decide
  · intro f hf
    cases List.mem_singleton.1 hf
    exact ⟨(readFunction_default 0).sound.name, List.Pairwise.nil⟩
  · intro hlength f hf
    cases List.mem_singleton.1 hf
    exact ⟨Nat.two_pow_pos 64, hlength⟩

/-- Every image that is parsed could have been encoded. -/
theorem sound_of_parse {t : Text} {img : Image} (h : parse t = .ok img) :
    img.Sound ∧ (t.length < 2 ^ 64 → img.Fits) := by
  rw [parse] at h
  split_ifs at h
  · cases h
    exact sound_ofChunk t
  · exact sound_of_decode h

/-- Encoding and parsing are inverse to each other.  Every sound image is decoded and parsed from
its bytes, which are no chunk; sound images with the same bytes are equal; the order in which
links have been set makes no difference; and only sound images are parsed.  The sizes that are
written are machine words, as those of everything that has been read are. -/
theorem parse_encode :
    (∀ img : Image, img.Sound → img.Fits →
      decode img.encode = .ok img ∧ parse img.encode = .ok img ∧
        Text.after? Chunk.magic img.encode = none) ∧
    (∀ img other : Image, img.Sound → img.Fits → other.Sound → other.Fits →
      img.encode = other.encode → img = other) ∧
    (∀ (version entry : Int64)
      (fs : List (FunctionImage × List (UInt8 × Int64) × List (UInt8 × Int64))),
      (∀ f ∈ fs, ∀ slot, f.2.1.reverse.lookup slot = f.2.2.reverse.lookup slot) →
        encode ⟨version, entry, some (fs.map fun f => f.1.linked f.2.1)⟩ =
          encode ⟨version, entry, some (fs.map fun f => f.1.linked f.2.2)⟩) ∧
    ∀ (t : Text) (img : Image), parse t = .ok img → img.Sound ∧ (t.length < 2 ^ 64 → img.Fits) := by
  refine ⟨?_, ?_, ?_, fun t img => sound_of_parse⟩
  · intro img hsound hfits
    exact ⟨decode_encode hsound hfits, parse_eq_ok hsound hfits, after?_magic_encode img⟩
  · intro img other hsound hfits hsound' hfits' hsame
    have hdecode := decode_encode hsound hfits
    rw [hsame, decode_encode hsound' hfits'] at hdecode
    cases hdecode
    rfl
  · intro version entry fs hall
    have hsame : (fs.map fun f => f.1.linked f.2.1) = fs.map fun f => f.1.linked f.2.2 := by
      apply List.map_congr_left
      intro f hf
      rw [FunctionImage.linked, FunctionImage.linked, Links.ofInsertions_eq (hall f hf)]
    rw [hsame]

/-- An image with a name that is not ASCII, a missing chunk and links on both sides of the slot
where the encoding of numbers grows. -/
def mixedSample : Image where
  version := 1
  entry := 1
  functions := some
    [{ name := [0xC3, 0xA9], arity := -300, chunk := some [0x43, 0x48],
       links := [(23, 0), (24, -1), (255, 70000)] }, {}]

theorem parse_mixedSample :
    mixedSample.Sound ∧ mixedSample.Fits ∧ parse mixedSample.encode = .ok mixedSample := by
  have hsound : mixedSample.Sound := by
    refine ⟨rfl, by decide, ?_⟩
    intro f hf
    rcases List.mem_pair.1 hf with rfl | rfl
    · exact ⟨by decide +kernel, by simp [Links.Ascending]⟩
    · exact ⟨by decide +kernel, List.Pairwise.nil⟩
  have hfits : mixedSample.Fits := by
    intro f hf
    rcases List.mem_pair.1 hf with rfl | rfl
    · exact ⟨by decide, by decide⟩
    · exact ⟨by decide, by decide⟩
  exact ⟨hsound, hfits, (parse_encode.1 mixedSample hsound hfits).2.1⟩

end StackVm.Image
