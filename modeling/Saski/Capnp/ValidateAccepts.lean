import Saski.Capnp.ValidateReads

/-!
# What the validator accepts

The result of each function of the validator as a proposition about the
message and the table, with the loops replaced by quantifiers and the early
returns by conjunctions.  Statements about accepted messages start from these
equivalences and never unfold the validator again.
-/

namespace Saski
namespace Capnp

open Logged ByteMemory

/-- The decoded pointer at a word offset of the segment. -/
def ptrAt (m : CapnpMsg) (off : Int) : CapnpPtr := capnpDecodePtr (readWord m off).value

/-- Where a struct or list pointer at `off` points to. -/
def targetAt (m : CapnpMsg) (off : Int) : Int := off + 1 + (ptrAt m off).offsetWords

/-- A property of a struct at an offset with given section sizes. -/
abbrev StructPred := Int → Nat → Nat → Nat → Prop

/-- A property of a pointer slot at an offset. -/
abbrev SlotPred := Int → PointerSchema → Prop

/-- Acceptance of a struct, over the acceptance of its slots. -/
def StructAccepts (table : SchemaTable) (slot : SlotPred) : StructPred :=
  fun off dataWords ptrWords schema =>
    schema = schemaIdxNone ∨
      (schema < table.structCount ∧
        (table.structs schema).dataWords ≤ dataWords ∧
        ∀ i < min (table.structs schema).pointerCount ptrWords,
          (table.structs schema).firstPointer ≠ schemaIdxNone ∧
            (table.structs schema).firstPointer + i < table.pointerCount ∧
            slot (off + dataWords + i)
              (table.pointers ((table.structs schema).firstPointer + i)))

/-- Acceptance of a composite list whose body starts at `target`. -/
def CompositeAccepts (m : CapnpMsg) (child : StructPred) (pschema : PointerSchema)
    (ptr : CapnpPtr) (target : Int) : Prop :=
  inBounds m target (ptr.elementCount + 1) = true ∧
    ((ptrAt m target).dataWords + (ptrAt m target).ptrWords) * compositeCount (ptrAt m target) ≤
      ptr.elementCount ∧
    ∀ i < compositeCount (ptrAt m target),
      child (target + 1 + (i * ((ptrAt m target).dataWords + (ptrAt m target).ptrWords) : Nat))
        (ptrAt m target).dataWords (ptrAt m target).ptrWords pschema.elementStruct

/-- Acceptance of a non-null pointer against its declared kind. -/
def TargetAccepts (m : CapnpMsg) (child : StructPred) (pschema : PointerSchema)
    (ptr : CapnpPtr) (target : Int) : Prop :=
  match pschema.kind with
  | .any => ptr.tag ≠ .far
  | .capability => ptr.tag = .capability
  | .struct =>
      ptr.tag = .struct ∧ inBounds m target (ptr.dataWords + ptr.ptrWords) = true ∧
        child target ptr.dataWords ptr.ptrWords pschema.elementStruct
  | .text | .data =>
      ptr.tag = .list ∧ ptr.elementSize = 2 ∧
        inBounds m target ((ptr.elementCount + 7) / 8) = true
  | .list =>
      ptr.tag = .list ∧
        (pschema.listElementSize = 0xFF ∨ ptr.elementSize = pschema.listElementSize) ∧
        (ptr.elementSize = 7 → CompositeAccepts m child pschema ptr target) ∧
        (ptr.elementSize ≠ 7 →
          inBounds m target ((bitsPerElem ptr.elementSize * ptr.elementCount + 63) / 64) = true)
  | .unknown _ => False

/-- Acceptance of a pointer slot, over the acceptance of the structs it points to. -/
def SlotAccepts (m : CapnpMsg) (child : StructPred) : SlotPred :=
  fun off pschema =>
    inBounds m off 1 = true ∧
      ((ptrAt m off).tag = .null ∨ TargetAccepts m child pschema (ptrAt m off) (targetAt m off))

theorem value_validateStructWith (table : SchemaTable) (slot : SlotCheck) (off : Int)
    (dataWords ptrWords schema : Nat) :
    (validateStructWith table slot off dataWords ptrWords schema).value = true ↔
      StructAccepts table (fun o p => (slot o p).value = true) off dataWords ptrWords schema := by
  unfold validateStructWith StructAccepts
  by_cases hnone : schema = schemaIdxNone
  · simp [hnone]
  simp only [hnone, if_false, false_or, value_bind, value_schemaStruct]
  by_cases hlt : schema < table.structCount
  · simp only [hlt, ne_eq, hnone, not_false_eq_true, and_self, if_true, true_and]
    by_cases hdata : dataWords < (table.structs schema).dataWords
    · simp only [hdata, if_true, value_pure, Bool.false_eq_true, false_iff, not_and]
      omega
    · -- The source caps `slots_to_check` in two steps: a minimum.
      have hmin : (if ptrWords < (table.structs schema).pointerCount then ptrWords
          else (table.structs schema).pointerCount) =
          min (table.structs schema).pointerCount ptrWords := by
        split <;> omega
      simp only [hdata, if_false, hmin, value_allFrom, Nat.zero_le, true_implies, Nat.zero_add]
      rw [and_iff_right (Nat.not_lt.mp hdata)]
      refine forall_congr' fun i => imp_congr_right fun _ => ?_
      by_cases hfirst : (table.structs schema).firstPointer = schemaIdxNone
      · simp [hfirst]
      · by_cases hrun : table.pointerCount ≤ (table.structs schema).firstPointer + i
        · simp [hfirst, hrun]
        · simp [hfirst, hrun, pointerEntry, Nat.not_le.mp hrun]
  · simp [hlt]

theorem value_validateCompositeList (m : CapnpMsg) (child : StructCheck)
    (pschema : PointerSchema) (ptr : CapnpPtr) (target : Int) :
    (validateCompositeList m child pschema ptr target).value = true ↔
      CompositeAccepts m (fun o d p s => (child o d p s).value = true) pschema ptr target := by
  unfold validateCompositeList CompositeAccepts
  by_cases hin : inBounds m target (ptr.elementCount + 1) = true
  · simp only [hin, not_true_eq_false, if_false, true_and, value_bind]
    change (if _ then _ else _ : Logged Access Bool).value = true ↔ _
    rw [show capnpDecodePtr (readWord m target).value = ptrAt m target from rfl]
    by_cases hfit : ptr.elementCount <
        ((ptrAt m target).dataWords + (ptrAt m target).ptrWords) * compositeCount (ptrAt m target)
    · have hreject : ¬ ((ptrAt m target).dataWords + (ptrAt m target).ptrWords) *
          compositeCount (ptrAt m target) ≤ ptr.elementCount := Nat.not_le.mpr hfit
      simp only [hfit, hreject, if_true, false_and, iff_false]
      split <;> simp
    · have hle := Nat.not_lt.mp hfit
      -- The division check only repeats the product check without overflow.
      have hdiv : ¬ ((ptrAt m target).dataWords + (ptrAt m target).ptrWords ≠ 0 ∧
          ptr.elementCount / ((ptrAt m target).dataWords + (ptrAt m target).ptrWords) <
            compositeCount (ptrAt m target)) := by
        rintro ⟨hne, hlt⟩
        have hcount : compositeCount (ptrAt m target) ≤
            ptr.elementCount / ((ptrAt m target).dataWords + (ptrAt m target).ptrWords) := by
          rw [Nat.le_div_iff_mul_le (Nat.pos_of_ne_zero hne), Nat.mul_comm]
          exact hle
        omega
      rw [if_neg hdiv, if_neg hfit, value_allFrom]
      simp only [hle, true_and, Nat.zero_le, true_implies, Nat.zero_add]
  · simp [hin]

theorem value_validateListSlot (m : CapnpMsg) (child : StructCheck)
    (pschema : PointerSchema) (ptr : CapnpPtr) (target : Int) :
    (validateListSlot m child pschema ptr target).value = true ↔
      ptr.tag = .list ∧
        (pschema.listElementSize = 0xFF ∨ ptr.elementSize = pschema.listElementSize) ∧
        (ptr.elementSize = 7 →
          CompositeAccepts m (fun o d p s => (child o d p s).value = true) pschema ptr target) ∧
        (ptr.elementSize ≠ 7 →
          inBounds m target ((bitsPerElem ptr.elementSize * ptr.elementCount + 63) / 64) =
            true) := by
  unfold validateListSlot
  by_cases htag : ptr.tag = .list
  · rw [if_neg (not_not.mpr htag), and_iff_right htag]
    by_cases hsize : pschema.listElementSize ≠ 0xFF ∧ ptr.elementSize ≠ pschema.listElementSize
    · have hno : ¬ (pschema.listElementSize = 0xFF ∨
          ptr.elementSize = pschema.listElementSize) := by
        rintro (h | h)
        · exact hsize.1 h
        · exact hsize.2 h
      rw [if_pos hsize]
      simp [hno]
    · have hyes : pschema.listElementSize = 0xFF ∨
          ptr.elementSize = pschema.listElementSize := by
        rw [not_and_or, not_not, not_not] at hsize
        exact hsize
      rw [if_neg hsize, and_iff_right hyes]
      by_cases hseven : ptr.elementSize = 7
      · rw [if_pos hseven, value_validateCompositeList]
        simp [hseven]
      · simp [hseven]
  · simp [htag]

theorem value_validateStructSlot (m : CapnpMsg) (child : StructCheck) (pschema : PointerSchema)
    (ptr : CapnpPtr) (target : Int) :
    (validateStructSlot m child pschema ptr target).value = true ↔
      ptr.tag = .struct ∧ inBounds m target (ptr.dataWords + ptr.ptrWords) = true ∧
        (child target ptr.dataWords ptr.ptrWords pschema.elementStruct).value = true := by
  unfold validateStructSlot
  by_cases htag : ptr.tag = .struct
  · by_cases hin : inBounds m target (ptr.dataWords + ptr.ptrWords) = true
    · simp [htag, hin]
    · simp [htag, hin]
  · simp [htag]

theorem value_validateBytesSlot (m : CapnpMsg) (ptr : CapnpPtr) (target : Int) :
    (validateBytesSlot m ptr target).value = true ↔
      ptr.tag = .list ∧ ptr.elementSize = 2 ∧
        inBounds m target ((ptr.elementCount + 7) / 8) = true := by
  unfold validateBytesSlot
  by_cases htag : ptr.tag = .list
  · by_cases hsize : ptr.elementSize = 2
    · simp [htag, hsize]
    · simp [htag, hsize]
  · simp [htag]

theorem value_validateSlotWith (m : CapnpMsg) (child : StructCheck) (off : Int)
    (pschema : PointerSchema) :
    (validateSlotWith m child off pschema).value = true ↔
      SlotAccepts m (fun o d p s => (child o d p s).value = true) off pschema := by
  unfold validateSlotWith SlotAccepts
  by_cases hin : inBounds m off 1 = true
  · simp only [hin, not_true_eq_false, if_false, true_and, value_bind]
    rw [show capnpDecodePtr (readWord m off).value = ptrAt m off from rfl,
      show off + 1 + (ptrAt m off).offsetWords = targetAt m off from rfl]
    by_cases hnull : (ptrAt m off).tag = .null
    · simp [hnull]
    · rw [if_neg hnull, or_iff_right hnull]
      -- Every kind that is left asks for another tag, so the separate rejection of
      -- far pointers changes no result.
      unfold TargetAccepts
      cases hkind : pschema.kind with
      | any => simp
      | capability =>
          by_cases hfar : (ptrAt m off).tag = .far <;> simp [hfar]
      | struct =>
          by_cases hfar : (ptrAt m off).tag = .far
          · simp [hfar]
          · simp [hfar, value_validateStructSlot]
      | text =>
          by_cases hfar : (ptrAt m off).tag = .far
          · simp [hfar]
          · simp [hfar, value_validateBytesSlot]
      | data =>
          by_cases hfar : (ptrAt m off).tag = .far
          · simp [hfar]
          · simp [hfar, value_validateBytesSlot]
      | list =>
          by_cases hfar : (ptrAt m off).tag = .far
          · simp [hfar]
          · simp [hfar, value_validateListSlot]
      | unknown raw =>
          by_cases hfar : (ptrAt m off).tag = .far <;> simp [hfar]
  · simp [hin]

/-! ## The recursive functions -/

theorem value_validateStructAt (m : CapnpMsg) (table : SchemaTable) (levels : Nat) (off : Int)
    (dataWords ptrWords schema : Nat) :
    (validateStructAt m table levels off dataWords ptrWords schema).value = true ↔
      StructAccepts table (fun o p => (validatePointerSlot m table levels o p).value = true)
        off dataWords ptrWords schema :=
  value_validateStructWith table _ off dataWords ptrWords schema

theorem value_validatePointerSlot_zero (m : CapnpMsg) (table : SchemaTable) (off : Int)
    (pschema : PointerSchema) :
    (validatePointerSlot m table 0 off pschema).value = false := rfl

theorem value_validatePointerSlot_succ (m : CapnpMsg) (table : SchemaTable) (levels : Nat)
    (off : Int) (pschema : PointerSchema) :
    (validatePointerSlot m table (levels + 1) off pschema).value = true ↔
      SlotAccepts m (fun o d p s => (validateStructAt m table levels o d p s).value = true)
        off pschema :=
  value_validateSlotWith m _ off pschema

/-! ## The whole message -/

/-- The number of words the header gives to the message's only segment. -/
def seg0Words (msg : Buffer) : Nat := (readBytes msg.bytes 4 4).value

/-- The segment of a single-segment message: it starts after the eight bytes of
the header. -/
def segmentOf (msg : Buffer) : CapnpMsg := ⟨msg.bytes, 8, seg0Words msg⟩

/-- Acceptance of the root pointer.  A null root stands for a struct with empty
sections. -/
def RootAccepts (m : CapnpMsg) (table : SchemaTable) (schema : Nat) : Prop :=
  ((ptrAt m 0).tag = .null ∧
      (validateStructAt m table (capnpMaxDepth + 1) 0 0 0 schema).value = true) ∨
    ((ptrAt m 0).tag = .struct ∧
      inBounds m (targetAt m 0) ((ptrAt m 0).dataWords + (ptrAt m 0).ptrWords) = true ∧
      (validateStructAt m table (capnpMaxDepth + 1) (targetAt m 0) (ptrAt m 0).dataWords
        (ptrAt m 0).ptrWords schema).value = true)

theorem value_validateRoot (m : CapnpMsg) (table : SchemaTable) (schema : Nat) :
    (validateRoot m table schema).value = true ↔ RootAccepts m table schema := by
  unfold validateRoot RootAccepts
  simp only [value_bind]
  rw [show capnpDecodePtr (readWord m 0).value = ptrAt m 0 from rfl,
    show 1 + (ptrAt m 0).offsetWords = targetAt m 0 by unfold targetAt; omega]
  by_cases hnull : (ptrAt m 0).tag = .null
  · simp [hnull]
  · by_cases hstruct : (ptrAt m 0).tag = .struct
    · by_cases hin : inBounds m (targetAt m 0)
          ((ptrAt m 0).dataWords + (ptrAt m 0).ptrWords) = true
      · simp [hstruct, hin]
      · simp [hstruct, hin]
    · simp [hnull, hstruct]

theorem headerBytes_one : headerBytes 1 = 8 := rfl

/-- Acceptance of a message against a schema: a single segment that lies inside
the buffer, with an accepted root. -/
theorem value_capnpValidateMessage (msg : Buffer) (len : Nat) (table : SchemaTable)
    {schema : Nat} (hschema : schema ≠ schemaIdxNone) :
    (capnpValidateMessage msg len (some table) schema).value = true ↔
      schema < table.structCount ∧ msg.isNull = false ∧
        (readBytes msg.bytes 0 4).value = 0 ∧ 8 + seg0Words msg * 8 ≤ len ∧
        1 ≤ seg0Words msg ∧ RootAccepts (segmentOf msg) table schema := by
  unfold capnpValidateMessage
  simp only [hschema, if_false, value_bind, value_schemaStruct]
  by_cases hlt : schema < table.structCount
  · simp only [hlt, ne_eq, hschema, not_false_eq_true, and_self, if_true, true_and]
    by_cases hnull : msg.isNull = true
    · simp [hnull]
    by_cases hlen : len < 8
    · simp only [hlen, or_true, if_true, value_pure, Bool.false_eq_true, false_iff]
      omega
    -- In 32 bits the incremented count is 1 only if the word was 0.
    have hcount : ((readBytes msg.bytes 0 4).value + 1) % 2 ^ 32 = 1 ↔
        (readBytes msg.bytes 0 4).value = 0 := by
      have hword : (readBytes msg.bytes 0 4).value < 2 ^ (8 * 4) := littleEndian_lt _ 4
      omega
    by_cases hone : (readBytes msg.bytes 0 4).value = 0
    · have hone' := hcount.mpr hone
      rw [if_neg (by simp [hnull, hlen])]
      simp only [value_bind, hone', not_true_eq_false, if_false, headerBytes_one]
      rw [show (readBytes msg.bytes 4 4).value = seg0Words msg from rfl,
        show (⟨msg.bytes, ((8 : Nat) : Int), seg0Words msg⟩ : CapnpMsg) = segmentOf msg from rfl]
      by_cases hsize : len < 8 ∨ len - 8 < seg0Words msg * 8
      · rw [if_pos hsize]
        simp only [value_pure, Bool.false_eq_true, false_iff]
        omega
      · rw [if_neg hsize]
        by_cases hwords : seg0Words msg < 1
        · rw [if_pos hwords]
          simp only [value_pure, Bool.false_eq_true, false_iff]
          omega
        · rw [if_neg hwords, value_validateRoot]
          have hfit : 8 + seg0Words msg * 8 ≤ len := by omega
          simp [hone, hfit, Nat.not_lt.mp hwords, Bool.eq_false_of_not_eq_true hnull]
    · have hmany : ((readBytes msg.bytes 0 4).value + 1) % 2 ^ 32 ≠ 1 :=
        fun h => hone (hcount.mp h)
      rw [if_neg (by simp [hnull, hlen]), value_bind, if_pos hmany]
      simp [hone]
  · simp [hlt]

end Capnp
end Saski
