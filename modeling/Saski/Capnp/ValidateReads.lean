import Saski.Capnp.Validate

/-!
# The validator's own reads

Every byte the validator reads from the message lies inside the buffer it was
given, and every entry it reads from the schema table lies inside the table's
arrays.  No hypothesis is made on the message, on the table or on the index:
both come from callers the kernel does not trust.

The argument is local.  A word is only ever read behind an `in_bounds` check of
that word (or of an extent that starts with it), and a table entry behind a
comparison with the array's count, so the induction over the nesting levels
carries no invariant beyond "the segment lies inside the buffer".
-/

namespace Saski
namespace Capnp

open Logged ByteMemory

/-- The read stays inside the buffer of `len` bytes, or inside the array of the
table it indexes. -/
def ReadSafe (len : Nat) (table : Option SchemaTable) : Access → Prop
  | .msgByte index => 0 ≤ index ∧ index < len
  | .structs index => ∃ t, table = some t ∧ index < t.structCount
  | .pointers index => ∃ t, table = some t ∧ index < t.pointerCount
  | .methods index => ∃ t, table = some t ∧ index < t.methodCount
  | .objects index => ∃ t, table = some t ∧ index < t.objectCount

/-- The whole segment lies inside the buffer of `len` bytes. -/
structure SegmentFits (m : CapnpMsg) (len : Nat) : Prop where
  start_nonneg : 0 ≤ m.seg
  end_le : m.seg + m.segWords * 8 ≤ len

/-- `in_bounds`, as the inequalities it decides. -/
theorem inBounds_iff (m : CapnpMsg) (wordOffset : Int) (wordCount : Nat) :
    inBounds m wordOffset wordCount = true ↔
      0 ≤ wordOffset ∧ wordOffset + wordCount ≤ m.segWords := by
  unfold inBounds
  by_cases hneg : wordOffset < 0
  · simp only [hneg, if_true, Bool.false_eq_true, false_iff]
    omega
  · have hcast : (wordOffset.toNat : Int) = wordOffset := Int.toNat_of_nonneg (by omega)
    by_cases hpast : m.segWords < wordOffset.toNat
    · simp only [hneg, hpast, if_true, if_false, Bool.false_eq_true, false_iff]
      omega
    · by_cases hcount : m.segWords - wordOffset.toNat < wordCount
      · simp only [hneg, hpast, hcount, if_true, if_false, Bool.false_eq_true, false_iff]
        omega
      · simp only [hneg, hpast, hcount, if_false, true_iff]
        omega

variable {len : Nat} {table : SchemaTable} {m : CapnpMsg}

theorem logs_readBytes {t : Option SchemaTable} (bytes : Int → UInt8) {start : Int}
    {count : Nat} (hstart : 0 ≤ start) (hend : start + count ≤ len) :
    Logs (ReadSafe len t) (readBytes bytes start count) := by
  refine logs_withLog _ fun e he => ?_
  obtain ⟨i, hi, rfl⟩ := List.mem_map.mp he
  rw [List.mem_range] at hi
  exact ⟨by omega, by omega⟩

/-- A word may be read as soon as an extent that starts with it is in bounds. -/
theorem logs_readWord {t : Option SchemaTable} (hfit : SegmentFits m len) {off : Int}
    {count : Nat} (hin : inBounds m off (count + 1) = true) :
    Logs (ReadSafe len t) (readWord m off) := by
  obtain ⟨hoff, hend⟩ := (inBounds_iff m off (count + 1)).mp hin
  have hseg := hfit.start_nonneg
  have hlen := hfit.end_le
  refine logs_readBytes m.bytes (by omega) ?_
  push_cast at hend ⊢
  omega

theorem logs_validateStructWith {slot : SlotCheck}
    (hslot : ∀ off pschema, Logs (ReadSafe len (some table)) (slot off pschema))
    (off : Int) (dataWords ptrWords schema : Nat) :
    Logs (ReadSafe len (some table))
      (validateStructWith table slot off dataWords ptrWords schema) := by
  apply logs_unless
  intro _
  refine logs_bind (logs_boundedEntry _ _ _ _ fun hlt => ⟨table, rfl, hlt⟩) ?_
  cases (schemaStruct table schema).value with
  | none => exact logs_pure _ _
  | some ss =>
      apply logs_unless
      intro _
      refine logs_allFrom _ _ fun i _ _ => ?_
      apply logs_unless
      intro _
      apply logs_unless
      intro hcount
      refine logs_bind (logs_withLog _ ?_) (hslot _ _)
      simp only [List.mem_singleton, forall_eq]
      exact ⟨table, rfl, by omega⟩

section Slots

variable {child : StructCheck}
  (hchild : ∀ off dataWords ptrWords schema,
    Logs (ReadSafe len (some table)) (child off dataWords ptrWords schema))
  (hfit : SegmentFits m len)

include hchild hfit

theorem logs_validateCompositeList (pschema : PointerSchema) (ptr : CapnpPtr) (target : Int) :
    Logs (ReadSafe len (some table)) (validateCompositeList m child pschema ptr target) := by
  apply logs_unless
  intro hin
  refine logs_bind (logs_readWord hfit (by simpa using hin)) ?_
  apply logs_unless
  intro _
  apply logs_unless
  intro _
  exact logs_allFrom _ _ fun i _ _ => hchild _ _ _ _

theorem logs_validateListSlot (pschema : PointerSchema) (ptr : CapnpPtr) (target : Int) :
    Logs (ReadSafe len (some table)) (validateListSlot m child pschema ptr target) := by
  apply logs_unless
  intro _
  apply logs_unless
  intro _
  refine logs_ite (fun _ => ?_) fun _ => logs_pure _ _
  exact logs_validateCompositeList hchild hfit pschema ptr target

theorem logs_validateSlotWith (off : Int) (pschema : PointerSchema) :
    Logs (ReadSafe len (some table)) (validateSlotWith m child off pschema) := by
  apply logs_unless
  intro hin
  have hin' : inBounds m off (0 + 1) = true := by simpa using hin
  refine logs_bind (logs_readWord hfit hin') ?_
  apply logs_unless
  intro _
  apply logs_unless
  intro _
  apply logs_unless
  intro _
  cases pschema.kind with
  | any => exact logs_pure _ _
  | capability => exact logs_pure _ _
  | unknown raw => exact logs_pure _ _
  | struct =>
      apply logs_unless
      intro _
      exact logs_unless fun _ => hchild _ _ _ _
  | text => exact logs_unless fun _ => logs_pure _ _
  | data => exact logs_unless fun _ => logs_pure _ _
  | list => exact logs_validateListSlot hchild hfit pschema _ _

end Slots

/-- Induction on the nesting levels left. -/
theorem logs_validatePointerSlot (hfit : SegmentFits m len) (levels : Nat) (off : Int)
    (pschema : PointerSchema) :
    Logs (ReadSafe len (some table)) (validatePointerSlot m table levels off pschema) := by
  induction levels generalizing off pschema with
  | zero => exact logs_pure _ _
  | succ levels ih =>
      exact logs_validateSlotWith (logs_validateStructWith ih) hfit off pschema

theorem logs_validateStructAt (hfit : SegmentFits m len) (levels : Nat) (off : Int)
    (dataWords ptrWords schema : Nat) :
    Logs (ReadSafe len (some table))
      (validateStructAt m table levels off dataWords ptrWords schema) :=
  logs_validateStructWith (logs_validatePointerSlot hfit levels) off dataWords ptrWords schema

theorem logs_validateRoot (hfit : SegmentFits m len) (hwords : 1 ≤ m.segWords) (schema : Nat) :
    Logs (ReadSafe len (some table)) (validateRoot m table schema) := by
  have hroot : inBounds m 0 (0 + 1) = true := by
    rw [inBounds_iff]
    omega
  refine logs_bind (logs_readWord hfit hroot) ?_
  refine logs_ite (fun _ => logs_validateStructAt hfit _ _ _ _ _) fun _ => ?_
  apply logs_unless
  intro _
  exact logs_unless fun _ => logs_validateStructAt hfit _ _ _ _ _

/-- The segment of a message whose sizes passed the validator's checks lies
inside the buffer. -/
theorem segmentFits_of_size (bytes : Int → UInt8) {seg0Words header : Nat}
    (h : ¬ (len < header ∨ len - header < seg0Words * 8)) :
    SegmentFits ⟨bytes, header, seg0Words⟩ len where
  start_nonneg := by simp
  end_le := by
    push_cast
    omega

theorem logs_capnpValidateMessage (msg : Buffer) (len : Nat) (table : Option SchemaTable)
    (schema : Nat) : Logs (ReadSafe len table) (capnpValidateMessage msg len table schema) := by
  apply logs_unless
  intro _
  cases table with
  | none => exact logs_pure _ _
  | some table =>
      refine logs_bind (logs_boundedEntry _ _ _ _ fun hlt => ⟨table, rfl, hlt⟩) ?_
      cases (schemaStruct table schema).value with
      | none => exact logs_pure _ _
      | some ss =>
          apply logs_unless
          intro hlen
          -- Both header words are read behind the check for eight bytes.
          have hlen8 : 8 ≤ len := by
            rw [not_or] at hlen
            omega
          refine logs_bind (logs_readBytes _ (by norm_num) (by push_cast; omega)) ?_
          apply logs_unless
          intro _
          refine logs_bind (logs_readBytes _ (by norm_num) (by push_cast; omega)) ?_
          apply logs_unless
          intro hsize
          apply logs_unless
          intro hwords
          exact logs_validateRoot (segmentFits_of_size _ hsize) (Nat.not_lt.mp hwords) schema

/-- **The validator never reads out of bounds.**  For every buffer of `len`
bytes, every schema table and every schema index, each message byte
`capnp_validate_message` reads has an index below `len`, and each index it uses
into the table's structs and pointers is below that array's count. -/
theorem capnpValidateMessage_reads_in_bounds (msg : Buffer) (len : Nat)
    (table : Option SchemaTable) (schema : Nat) :
    let log := (capnpValidateMessage msg len table schema).log
    (∀ index : Int, .msgByte index ∈ log → 0 ≤ index ∧ index < len) ∧
      (∀ index, .structs index ∈ log → ∃ t, table = some t ∧ index < t.structCount) ∧
      ∀ index, .pointers index ∈ log → ∃ t, table = some t ∧ index < t.pointerCount := by
  intro log
  have hsafe := logs_capnpValidateMessage msg len table schema
  refine ⟨?_, ?_, ?_⟩
  · intro index hread
    exact hsafe _ hread
  · intro index hread
    exact hsafe _ hread
  · intro index hread
    exact hsafe _ hread

end Capnp
end Saski
