/-
Places that await a function.  What a chunk gives out stays what it was, but an awaiting place
counts as a plain nil: a nil that is given such a place becomes the function that is linked there.
-/
import StackVm.Proofs.Emission
import StackVm.Proofs.Relinking

namespace StackVm

/-- Equal values stay equal while objects are made. -/
theorem Memory.KeepsTexts.equal_of_equal {m n : Memory} {v w : Value} (h : m.KeepsTexts n)
    (hequal : m.equal v w = true) : n.equal v w = true := by
  rw [equal_eq_true_iff] at hequal ⊢
  refine hequal.imp_right ?_
  rintro ⟨a, b, data, rfl, rfl, ha, hb⟩
  have hlt : ∀ {id : ObjectId}, m.string? id = some data → id < m.objects.size :=
    fun hid => lt_size_of_payload? (string?_eq_some.1 hid)
  exact ⟨a, b, data, rfl, rfl, (h.string? (hlt ha)).trans ha, (h.string? (hlt hb)).trans hb⟩

namespace Chunk

variable {m n k l : Memory} {c d e : Chunk} {v : Value} {line : Int64} {i : Nat} {id : ObjectId}
  {same : Value → Value → Bool}

/-! ### Awaiting places -/

/-- The places that await a function are listed once each and hold nil. -/
structure Placeholders (c : Chunk) : Prop where
  nodup : c.unlinked.Nodup
  nil : ∀ {i : Nat}, i ∈ c.unlinked → c.constants[i]? = some .nil

theorem Placeholders.lt_size (h : c.Placeholders) (hi : i ∈ c.unlinked) : i < c.constants.size :=
  (Array.getElem?_eq_some_iff.1 (h.nil hi)).1

theorem placeholders_of_none (hc : c.unlinked = []) : c.Placeholders := by
  constructor
  · rw [hc]
    exact .nil
  · rw [hc]
    exact nofun

theorem Placeholders.grow (h : c.Placeholders) (hgrows : c.Grows d)
    (hunlinked : d.unlinked = c.unlinked) : d.Placeholders where
  nodup := by
    rw [hunlinked]
    exact h.nodup
  nil hi := hgrows.constants (h.nil (hunlinked ▸ hi))

theorem getElem?_push_of_some {values : Array Value} {x : Value} (hx : values[i]? = some x)
    (v : Value) : (values.push v)[i]? = some x := by
  have hlt := (Array.getElem?_eq_some_iff.1 hx).1
  rw [Array.getElem?_push, if_neg (Nat.ne_of_lt hlt), hx]

/-- A constant that is read keeps the list; a function becomes one more awaiting place. -/
theorem Placeholders.addRead {holdings : Holdings} {x : WireConstant} (h : c.Placeholders)
    (hread : c.addRead holdings x m = .ok d n) : d.Placeholders := by
  have hpush : ∀ (v : Value) (owned : List ObjectId),
      Placeholders { c with constants := c.constants.push v, owned } := fun v owned =>
    ⟨h.nodup, fun hi => getElem?_push_of_some (h.nil hi) v⟩
  cases x with
  | function =>
    cases hread
    refine ⟨List.nodup_append.2 ⟨h.nodup, List.nodup_singleton _, fun i hi j hj => ?_⟩,
      fun hi => ?_⟩
    · rw [List.mem_singleton.1 hj]
      exact Nat.ne_of_lt (h.lt_size hi)
    · rcases List.mem_append.1 hi with hi | hi
      · exact getElem?_push_of_some (h.nil hi) .nil
      · rw [List.mem_singleton.1 hi]
        exact Array.getElem?_push_size
  | string data =>
    simp only [Chunk.addRead, bind_apply] at hread
    split at hread
    · next id k _ =>
      split at hread
      · cases hread
        exact hpush _ _
      · cases hread
    · cases hread
  | _ =>
    cases hread
    exact hpush _ _

theorem Placeholders.addReads {holdings : Holdings} {cs : List WireConstant} (h : c.Placeholders)
    (hread : c.addReads holdings cs m = .ok d n) : d.Placeholders := by
  induction cs generalizing c m with
  | nil =>
    cases hread
    exact h
  | cons x rest ih =>
    rw [Chunk.addReads, bind_apply] at hread
    split at hread
    · next hfirst => exact ih (h.addRead hfirst) hread
    · cases hread

/-- A chunk that has been loaded lists its functions as awaiting places. -/
theorem placeholders_of_deserialize {holdings : Holdings} {t : Text}
    (hload : deserialize holdings t m = .ok (.ok c) n) : c.Placeholders := by
  cases hread : read t with
  | error e =>
    simp only [deserialize, hread] at hload
    cases hload
  | ok r =>
    obtain ⟨w, e⟩ := r
    simp only [deserialize, hread, bind_apply] at hload
    split at hload
    · next d k hadd =>
      cases e with
      | some e => cases hload
      | none =>
        cases hload
        exact (placeholders_of_none rfl).addReads hadd
    · cases hload

/-! ### Linking -/

/-- The chunk after an attempt to link a place.  Where the attempt fails, it is as it was. -/
def linking (c : Chunk) (index : Int) (fn : Option ObjectId) : Chunk :=
  match c.link index fn with
  | .ok d => d
  | .error _ => c

/-- A link succeeds with a function at an awaiting place, and with nothing else anywhere else. -/
theorem link_cases (c : Chunk) (index : Int) (fn : Option ObjectId) :
    (∃ (i : Nat) (id : ObjectId), index = i ∧ fn = some id ∧ i ∈ c.unlinked ∧
      c.link index fn = .ok { c with
        constants := c.constants.setIfInBounds i (.object id)
        unlinked := c.unlinked.erase i }) ∨
    ((¬ ∃ (i : Nat) (id : ObjectId), index = i ∧ fn = some id ∧ i ∈ c.unlinked) ∧
      ∃ e, c.link index fn = .error e) := by
  by_cases hplace : 0 ≤ index ∧ index.toNat ∈ c.unlinked
  · cases fn with
    | none =>
      refine Or.inr ⟨?_, .noFunction index, if_pos hplace⟩
      rintro ⟨_, _, -, ⟨⟩, -⟩
    | some id =>
      refine Or.inl ⟨index.toNat, id, (Int.toNat_of_nonneg hplace.1).symm, rfl, hplace.2, ?_⟩
      exact link_eq_ok.2 ⟨hplace, rfl⟩
  · refine Or.inr ⟨?_, .notUnlinked index, if_neg hplace⟩
    rintro ⟨i, id, rfl, -, hi⟩
    exact hplace ⟨Int.natCast_nonneg i, by rwa [Int.toNat_natCast]⟩

/-- What a link changes: the one place it names, which leaves the list. -/
structure Installs (i : Nat) (id : ObjectId) (c d : Chunk) : Prop where
  awaiting : i ∈ c.unlinked
  code : d.code = c.code
  lines : d.lines = c.lines
  owned : d.owned = c.owned
  size : d.constants.size = c.constants.size
  place : d.constants[i]? = some (.object id)
  other : ∀ j ≠ i, d.constants[j]? = c.constants[j]?
  unlinked : d.unlinked = c.unlinked.filter (· ≠ i)

theorem Placeholders.installs (h : c.Placeholders) (hi : i ∈ c.unlinked) (id : ObjectId) :
    Installs i id c { c with
      constants := c.constants.setIfInBounds i (.object id)
      unlinked := c.unlinked.erase i } where
  awaiting := hi
  code := rfl
  lines := rfl
  owned := rfl
  size := Array.size_setIfInBounds
  place := Array.getElem?_setIfInBounds_self_of_lt (h.lt_size hi)
  other j hj := Array.getElem?_setIfInBounds_ne hj.symm
  unlinked := by
    rw [h.nodup.erase_eq_filter]
    refine List.filter_congr fun j _ => ?_
    rw [decide_not]
    rfl

theorem Installs.mem_unlinked (h : Installs i id c d) (j : Nat) :
    j ∈ d.unlinked ↔ j ∈ c.unlinked ∧ j ≠ i := by
  rw [h.unlinked, List.mem_filter, decide_eq_true_iff]

theorem Installs.placeholders (h : Installs i id c d) (hc : c.Placeholders) : d.Placeholders where
  nodup := by
    rw [h.unlinked]
    exact hc.nodup.filter _
  nil hj := by
    obtain ⟨hmem, hne⟩ := (h.mem_unlinked _).1 hj
    rw [h.other _ hne]
    exact hc.nil hmem

/-! ### A loaded chunk at work -/

/-- What comes of a chunk: nothing is taken from the code, and no place changes but an awaiting
one, which comes to hold a function. -/
structure Advances (c d : Chunk) : Prop where
  code : ∀ {i : Nat} {b : UInt8}, c.code[i]? = some b → d.code[i]? = some b
  awaiting : ∀ {i : Nat}, i ∈ d.unlinked → i ∈ c.unlinked
  kept : ∀ {i : Nat} {x : Value}, c.constants[i]? = some x →
    (i ∈ c.unlinked → i ∈ d.unlinked) → d.constants[i]? = some x
  linked : ∀ {i : Nat}, i ∈ c.unlinked → i ∉ d.unlinked →
    ∃ id, d.constants[i]? = some (.object id)

theorem Grows.advances (h : c.Grows d) (hunlinked : d.unlinked = c.unlinked) : c.Advances d where
  code := h.code
  awaiting hi := hunlinked ▸ hi
  kept hx _ := h.constants hx
  linked hi hnot := absurd (hunlinked ▸ hi) hnot

theorem Advances.refl (c : Chunk) : c.Advances c := (Grows.refl c).advances rfl

theorem Advances.trans (h : c.Advances d) (h' : d.Advances e) : c.Advances e where
  code hb := h'.code (h.code hb)
  awaiting hi := h.awaiting (h'.awaiting hi)
  kept hx hi := h'.kept (h.kept hx fun hmem => h'.awaiting (hi hmem)) fun hmem =>
    hi (h.awaiting hmem)
  linked {i} hi hnot := by
    by_cases hmem : i ∈ d.unlinked
    · exact h'.linked hmem hnot
    · obtain ⟨id, hid⟩ := h.linked hi hmem
      exact ⟨id, h'.kept hid fun hstill => absurd hstill hmem⟩

theorem Installs.advances (h : Installs i id c d) : c.Advances d where
  code hb := by
    rw [h.code]
    exact hb
  awaiting hj := ((h.mem_unlinked _).1 hj).1
  kept {j x} hx hj := by
    have hne : j ≠ i := by
      rintro rfl
      exact ((h.mem_unlinked j).1 (hj h.awaiting)).2 rfl
    rw [h.other j hne, hx]
  linked {j} hj hnot := by
    have hji : j = i := by
      by_contra hne
      exact hnot ((h.mem_unlinked j).2 ⟨hj, hne⟩)
    rw [hji]
    exact ⟨id, h.place⟩

theorem unlinked_addConstant (same : Value → Value → Bool) (c : Chunk) (v : Value) :
    (c.addConstant same v).1.unlinked = c.unlinked := by
  obtain ⟨constants, heq, -⟩ := c.addConstant_eq same v
  rw [heq]

theorem unlinked_emit (c : Chunk) (op : UInt8) (operands : List UInt8) (line : Int64) :
    (c.emit op operands line).unlinked = c.unlinked := by
  rw [emit_eq]

theorem emitConstant_ok {start : Nat} (h : (c.emitConstant same v line).2 = .ok start) :
    (c.addConstant same v).2 < maxConstants ∧ c.code.size = start := by
  rw [emitConstant_eq] at h
  split_ifs at h with hindex
  cases h
  exact ⟨hindex, rfl⟩

theorem unlinked_emitConstant (same : Value → Value → Bool) (c : Chunk) (v : Value)
    (line : Int64) : (c.emitConstant same v line).1.unlinked = c.unlinked := by
  rw [emitConstant_eq]
  split_ifs
  · exact (unlinked_emit _ _ _ _).trans (unlinked_addConstant _ _ _)
  · exact unlinked_addConstant _ _ _

/-- What comes of a chunk and of the memory beside it when constants are added, instructions are
emitted and places are linked.  In between objects may be made. -/
inductive Works (m : Memory) (c : Chunk) : Memory → Chunk → Prop where
  | start : Works m c m c
  | add {n : Memory} {d : Chunk} (v : Value) : Works m c n d →
      Works m c n (d.addConstant n.equal v).1
  | emitConstant {n : Memory} {d : Chunk} (v : Value) (line : Int64) : Works m c n d →
      Works m c n (d.emitConstant n.equal v line).1
  | emit {n : Memory} {d : Chunk} (op : UInt8) (operands : List UInt8) (line : Int64) :
      Works m c n d → Works m c n (d.emit op operands line)
  | link {n : Memory} {d : Chunk} (index : Int) (fn : Option ObjectId) : Works m c n d →
      Works m c n (d.linking index fn)
  | wait {n k : Memory} {d : Chunk} : Works m c n d → n.KeepsTexts k → Works m c k d

theorem Works.keepsTexts (h : Works m c n d) : m.KeepsTexts n := by
  induction h with
  | start => exact .refl m
  | add _ _ ih => exact ih
  | emitConstant _ _ _ ih => exact ih
  | emit _ _ _ _ ih => exact ih
  | link _ _ _ ih => exact ih
  | wait _ hk ih => exact ih.trans hk

theorem Placeholders.linking (h : c.Placeholders) (index : Int) (fn : Option ObjectId) :
    c.Advances (c.linking index fn) ∧ (c.linking index fn).Placeholders := by
  rw [Chunk.linking]
  rcases c.link_cases index fn with ⟨i, id, -, -, hi, hok⟩ | ⟨-, e, herror⟩
  · rw [hok]
    exact ⟨(h.installs hi id).advances, (h.installs hi id).placeholders h⟩
  · rw [herror]
    exact ⟨.refl c, h⟩

/-- A chunk that has advanced still does when it grows. -/
theorem Advances.grow (h : c.Advances d ∧ d.Placeholders) (hgrows : d.Grows e)
    (hunlinked : e.unlinked = d.unlinked) : c.Advances e ∧ e.Placeholders :=
  ⟨h.1.trans (hgrows.advances hunlinked), h.2.grow hgrows hunlinked⟩

/-- However a chunk is worked on, it only advances, and its awaiting places hold nil. -/
theorem Works.advances (h : Works m c n d) (hc : c.Placeholders) :
    c.Advances d ∧ d.Placeholders := by
  induction h with
  | start => exact ⟨.refl c, hc⟩
  | add v _ ih =>
    exact Advances.grow ih (grows_addConstant _ _ v) (unlinked_addConstant _ _ v)
  | emitConstant v line _ ih =>
    exact Advances.grow ih (grows_emitConstant _ _ v line) (unlinked_emitConstant _ _ v line)
  | emit op operands line _ ih =>
    exact Advances.grow ih (grows_emit _ op operands line) (unlinked_emit _ op operands line)
  | link index fn _ ih =>
    obtain ⟨hadvances, hplaces⟩ := ih.2.linking index fn
    exact ⟨ih.1.trans hadvances, hplaces⟩
  | wait _ _ ih => exact ih

/-! ### What has been given out -/

/-- The constant `v` was given out at a place, which awaited a function then or did not; what the
place holds now is equal to it unless the place has been linked in between. -/
structure Given (v : Value) (i : Nat) (d : Chunk) (l : Memory) (e : Chunk) : Prop where
  held : ∃ x, e.constants[i]? = some x ∧
    (l.equal x v = true ↔ (i ∈ d.unlinked → i ∈ e.unlinked))
  replaced : i ∈ d.unlinked → i ∉ e.unlinked → ∃ id, e.constants[i]? = some (.object id)

/-- Nothing but nil is given a place that awaits a function. -/
theorem Placeholders.eq_nil (h : c.Placeholders) {x : Value} (hx : c.constants[i]? = some x)
    (hequal : m.equal x v = true) (hi : i ∈ c.unlinked) : v = .nil := by
  rw [h.nil hi] at hx
  cases hx
  rcases Memory.equal_eq_true_iff.1 hequal with heq | ⟨_, _, _, ⟨⟩, -⟩
  exact heq.symm

theorem Works.given {x : Value} (h : Works m c n d) (hc : c.Placeholders)
    (hx : c.constants[i]? = some x) (hequal : m.equal x v = true) : Given v i c n d := by
  obtain ⟨hadvances, -⟩ := h.advances hc
  refine ⟨?_, fun hi hnot => hadvances.linked hi hnot⟩
  by_cases hstill : i ∈ c.unlinked → i ∈ d.unlinked
  · exact ⟨x, hadvances.kept hx hstill, iff_of_true (h.keepsTexts.equal_of_equal hequal) hstill⟩
  · obtain ⟨hi, hnot⟩ := Classical.not_imp.1 hstill
    obtain ⟨id, hid⟩ := hadvances.linked hi hnot
    refine ⟨.object id, hid, iff_of_false ?_ hstill⟩
    rw [hc.eq_nil hx hequal hi]
    exact Bool.false_ne_true

/-- Whatever is done with a loaded chunk, a constant that it gives out stays what it is, and so
does the operand that is emitted for it; only a nil is given an awaiting place, if there is none
before, and it is lost when the place is linked.  A link changes the one place it names, for good,
and takes it from the list; a link that fails changes nothing. -/
theorem Works.constants_last {holdings : Holdings} {t : Text}
    (hload : deserialize holdings t m = .ok (.ok c) n) (hworks : Works n c k d) :
    (∀ v,
      let added := (d.addConstant k.equal v).1
      let index := (d.addConstant k.equal v).2
      (index ∈ d.unlinked → v = .nil) ∧
        (v = .nil → ∀ j, d.constants[j]? = some .nil → index ≤ j) ∧
        ∀ l e, Works k added l e → Given v index added l e) ∧
    (∀ v line start, (d.emitConstant k.equal v line).2 = .ok start →
      let emitted := (d.emitConstant k.equal v line).1
      ∃ b : UInt8, b.toNat = (d.addConstant k.equal v).2 ∧
        ∀ l e, Works k emitted l e → e.code[start]? = some Opcode.constant.toByte ∧
          e.code[start + 1]? = some b ∧ Given v b.toNat emitted l e) ∧
    ∀ index fn,
      ((∃ e, d.link index fn = .ok e) ↔
        ∃ (i : Nat) (id : ObjectId), index = i ∧ fn = some id ∧ i ∈ d.unlinked) ∧
      (∀ e, d.link index fn = .ok e →
        ∃ (i : Nat) (id : ObjectId), index = i ∧ fn = some id ∧ Installs i id d e ∧
          ∀ l e', Works k e l e' → e'.constants[i]? = some (.object id)) ∧
      ∀ err, d.link index fn = .error err → d.linking index fn = d := by
  obtain ⟨-, hd⟩ := hworks.advances (placeholders_of_deserialize hload)
  refine ⟨fun v => ?_, fun v line start hstart => ?_, fun index fn => ?_⟩
  · obtain ⟨x, hx, hequal⟩ := exists_added k d v
    have hsame := unlinked_addConstant k.equal d v
    have hadded := hd.grow (d.grows_addConstant k.equal v) hsame
    refine ⟨fun hi => hadded.eq_nil hx hequal (hsame ▸ hi), ?_,
      fun l e hrest => hrest.given hadded hx hequal⟩
    rintro rfl j hj
    exact addConstant_le hj (Memory.equal_eq_true_iff.2 (Or.inl rfl))
  · obtain ⟨hindex, rfl⟩ := emitConstant_ok hstart
    obtain ⟨x, hx, hequal⟩ := exists_added k d v
    obtain ⟨hopcode, b, hoperand, hbyte⟩ := code_emitConstant k.equal d v line hindex
    have hsame := unlinked_emitConstant k.equal d v line
    have hemitted := hd.grow (d.grows_emitConstant k.equal v line) hsame
    rw [← hbyte, ← constants_emitConstant k.equal d v line] at hx
    refine ⟨b, hbyte, fun l e hrest => ?_⟩
    have hadvances := (hrest.advances hemitted).1
    exact ⟨hadvances.code hopcode, hadvances.code hoperand, hrest.given hemitted hx hequal⟩
  · rcases d.link_cases index fn with ⟨i, id, hi, hfn, hmem, hok⟩ | ⟨hnone, err, herror⟩
    · rw [hok, linking, hok]
      refine ⟨iff_of_true ⟨_, rfl⟩ ⟨i, id, hi, hfn, hmem⟩, ?_, nofun⟩
      rintro _ ⟨⟩
      have hinstalls := hd.installs hmem id
      refine ⟨i, id, hi, hfn, hinstalls, fun l e' hrest => ?_⟩
      have hadvances := (hrest.advances (hinstalls.placeholders hd)).1
      refine hadvances.kept hinstalls.place fun hstill => ?_
      exact absurd rfl ((hinstalls.mem_unlinked i).1 hstill).2
    · rw [herror, linking, herror]
      exact ⟨iff_of_false nofun hnone, nofun, fun _ _ => rfl⟩

/-- The sample that awaits two functions, as it is loaded. -/
def awaitingSampleChunk : Chunk where
  code := #[0x00]
  lines := #[7]
  constants := #[.nil, .nil, .int 5]
  unlinked := [0, 1]

/-- What the loaded sample gives out for a number and for a nil. -/
theorem addConstant_awaitingSampleChunk (m : Memory) :
    awaitingSampleChunk.addConstant m.equal (.int 5) = (awaitingSampleChunk, 2) ∧
      awaitingSampleChunk.addConstant m.equal .nil = (awaitingSampleChunk, 0) := by
  constructor <;> simp [addConstant, awaitingSampleChunk, Memory.equal, List.findIdx?_cons]

/-- The sample as it is loaded, and once a function is linked to its first place. -/
theorem awaitingSample_linked : Works Memory.new awaitingSampleChunk storeSample
    { awaitingSampleChunk with constants := #[.object 1, .nil, .int 5], unlinked := [1] } :=
  .link 0 (some 1) (.wait .start ⟨Nat.zero_le _, fun hid => absurd hid (Nat.not_lt_zero _)⟩)

/-- Of a number and a nil that the sample gives out before its first place is linked, the number
stays what it is. -/
theorem constants_last_awaitingSample :
    deserialize (.of fun _ => []) awaitingSample Memory.new =
      .ok (.ok awaitingSampleChunk) Memory.new ∧
    Works Memory.new awaitingSampleChunk Memory.new awaitingSampleChunk ∧
    ∃ d, Works Memory.new awaitingSampleChunk storeSample d ∧ d.unlinked = [1] ∧
      Given (.int 5) 2 awaitingSampleChunk storeSample d ∧
      Given .nil 0 awaitingSampleChunk storeSample d := by
  have hload : deserialize (.of fun _ => []) awaitingSample Memory.new =
      .ok (.ok awaitingSampleChunk) Memory.new := rfl
  obtain ⟨hadd, hadd'⟩ := addConstant_awaitingSampleChunk Memory.new
  obtain ⟨hgiven, -, -⟩ := Works.constants_last hload .start
  obtain ⟨-, -, hint⟩ := hgiven (.int 5)
  obtain ⟨-, -, hnil⟩ := hgiven .nil
  rw [hadd] at hint
  rw [hadd'] at hnil
  exact ⟨hload, .start, _, awaitingSample_linked, rfl, hint _ _ awaitingSample_linked,
    hnil _ _ awaitingSample_linked⟩

/-- A nil that is added to the loaded sample is a function once its first place is linked. -/
theorem awaitingSample_replaces_nil :
    deserialize (.of fun _ => []) awaitingSample Memory.new =
      .ok (.ok awaitingSampleChunk) Memory.new ∧
    awaitingSampleChunk.addConstant Memory.new.equal .nil = (awaitingSampleChunk, 0) ∧
    ∃ d x, Works Memory.new awaitingSampleChunk storeSample d ∧ d.constants[0]? = some x ∧
      storeSample.equal x .nil = false :=
  ⟨rfl, (addConstant_awaitingSampleChunk _).2, _, .object 1, awaitingSample_linked, rfl, rfl⟩

end Chunk

end StackVm
