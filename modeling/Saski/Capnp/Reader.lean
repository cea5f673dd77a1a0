import Saski.Capnp.ValidateAccepts

/-!
# Soundness of the validator for schema-directed readers

The validator exists so that an object can read a message as its declared type
without looking at bounds.  This module says what such a reader does, without
reference to the validator, and proves that it stays inside the message.

* `StructReads` and `SlotReads` are the words a reader touches: the data words
  its schema names, the pointer words present in the struct, and, through every
  declared slot that is not null, the target of the pointer.  Nothing bounds
  the depth, and nothing forbids cycles: a message may point back into itself.
* `ReaderTouches` starts the reader at the root of a message.
* `capnpValidateMessage_reader_in_segment`: on an accepted message every touched
  word lies in the segment and every touched byte in the buffer.

The reader follows a pointer whatever its tag and size fields say.  That these
fields are the ones the slot declares is the validator's business.
-/

namespace Saski
namespace Capnp

open Logged ByteMemory

mutual

/-- The words touched by a reader of the struct at `off` with the given section
sizes, read as the struct schema of index `schema`.  `SCHEMA_IDX_NONE` names no
schema, hence nothing to read. -/
inductive StructReads (m : CapnpMsg) (table : SchemaTable) :
    (off : Int) → (dataWords ptrWords schema : Nat) → Int → Prop
  | dataWord {off : Int} {dataWords ptrWords schema i : Nat}
      (hschema : schema ≠ schemaIdxNone) (hi : i < (table.structs schema).dataWords) :
      StructReads m table off dataWords ptrWords schema (off + i)
  | slot {off : Int} {dataWords ptrWords schema i : Nat} {word : Int}
      (hschema : schema ≠ schemaIdxNone)
      (hi : i < min (table.structs schema).pointerCount ptrWords)
      (hslot : SlotReads m table (off + dataWords + i)
        (table.pointers ((table.structs schema).firstPointer + i)) word) :
      StructReads m table off dataWords ptrWords schema word

/-- The words touched by a reader of the pointer slot at `off`, declared as
`pschema`. -/
inductive SlotReads (m : CapnpMsg) (table : SchemaTable) :
    (off : Int) → (pschema : PointerSchema) → Int → Prop
  | pointerWord {off : Int} {pschema : PointerSchema} : SlotReads m table off pschema off
  | struct {off : Int} {pschema : PointerSchema} {word : Int}
      (hkind : pschema.kind = .struct) (hnull : (ptrAt m off).tag ≠ .null)
      (hstruct : StructReads m table (targetAt m off) (ptrAt m off).dataWords
        (ptrAt m off).ptrWords pschema.elementStruct word) :
      SlotReads m table off pschema word
  | bytes {off : Int} {pschema : PointerSchema} {i : Nat}
      (hkind : pschema.kind = .text ∨ pschema.kind = .data)
      (hnull : (ptrAt m off).tag ≠ .null) (hi : i < ((ptrAt m off).elementCount + 7) / 8) :
      SlotReads m table off pschema (targetAt m off + i)
  | flatList {off : Int} {pschema : PointerSchema} {i : Nat}
      (hkind : pschema.kind = .list) (hnull : (ptrAt m off).tag ≠ .null)
      (hsize : (ptrAt m off).elementSize ≠ 7)
      (hi : i <
        (bitsPerElem (ptrAt m off).elementSize * (ptrAt m off).elementCount + 63) / 64) :
      SlotReads m table off pschema (targetAt m off + i)
  | compositeTag {off : Int} {pschema : PointerSchema}
      (hkind : pschema.kind = .list) (hnull : (ptrAt m off).tag ≠ .null)
      (hsize : (ptrAt m off).elementSize = 7) :
      SlotReads m table off pschema (targetAt m off)
  | compositeElement {off : Int} {pschema : PointerSchema} {i : Nat} {word : Int}
      (hkind : pschema.kind = .list) (hnull : (ptrAt m off).tag ≠ .null)
      (hsize : (ptrAt m off).elementSize = 7)
      (hi : i < compositeCount (ptrAt m (targetAt m off)))
      (helement : StructReads m table
        (targetAt m off + 1 + (i * ((ptrAt m (targetAt m off)).dataWords +
          (ptrAt m (targetAt m off)).ptrWords) : Nat))
        (ptrAt m (targetAt m off)).dataWords (ptrAt m (targetAt m off)).ptrWords
        pschema.elementStruct word) :
      SlotReads m table off pschema word

end

/-- The words touched by a reader of a whole message.  A null root is the
struct with empty sections. -/
inductive ReaderTouches (msg : Buffer) (table : SchemaTable) (schema : Nat) : Int → Prop
  | rootWord : ReaderTouches msg table schema 0
  | nullRoot {word : Int} (hnull : (ptrAt (segmentOf msg) 0).tag = .null)
      (h : StructReads (segmentOf msg) table 0 0 0 schema word) :
      ReaderTouches msg table schema word
  | root {word : Int} (hnull : (ptrAt (segmentOf msg) 0).tag ≠ .null)
      (h : StructReads (segmentOf msg) table (targetAt (segmentOf msg) 0)
        (ptrAt (segmentOf msg) 0).dataWords (ptrAt (segmentOf msg) 0).ptrWords schema word) :
      ReaderTouches msg table schema word

/-- The word lies in the segment. -/
def InSegment (m : CapnpMsg) (word : Int) : Prop := 0 ≤ word ∧ word < m.segWords

/-- A word of an extent that is in bounds lies in the segment. -/
theorem inSegment_of_inBounds {m : CapnpMsg} {off : Int} {count i : Nat}
    (hin : inBounds m off count = true) (hi : i < count) : InSegment m (off + i) := by
  obtain ⟨hoff, hend⟩ := (inBounds_iff m off count).mp hin
  exact ⟨by omega, by omega⟩

/-- The `i`-th element of a composite list lies inside the list's extent. -/
theorem inBounds_element {m : CapnpMsg} {target : Int} {total elemWords count i : Nat}
    (hin : inBounds m target (total + 1) = true) (hfit : elemWords * count ≤ total)
    (hi : i < count) : inBounds m (target + 1 + (i * elemWords : Nat)) elemWords = true := by
  obtain ⟨htarget, hend⟩ := (inBounds_iff m target (total + 1)).mp hin
  have hlast : (i + 1) * elemWords ≤ total := by
    calc (i + 1) * elemWords ≤ count * elemWords := Nat.mul_le_mul_right _ hi
      _ = elemWords * count := Nat.mul_comm _ _
      _ ≤ total := hfit
  rw [Nat.add_mul, Nat.one_mul] at hlast
  rw [inBounds_iff]
  push_cast at hend
  constructor
  · omega
  · omega

variable {m : CapnpMsg} {table : SchemaTable}

/-- A reader of an accepted struct stays in the segment, if readers of its
slots do. -/
theorem structReads_inSegment {slot : SlotPred}
    (hslot : ∀ off pschema word, slot off pschema → SlotReads m table off pschema word →
      InSegment m word)
    {off : Int} {dataWords ptrWords schema : Nat} {word : Int}
    (hin : inBounds m off (dataWords + ptrWords) = true)
    (haccept : StructAccepts table slot off dataWords ptrWords schema)
    (hreads : StructReads m table off dataWords ptrWords schema word) : InSegment m word := by
  cases hreads with
  | dataWord hschema hi =>
      obtain ⟨-, hdata, -⟩ := haccept.resolve_left hschema
      exact inSegment_of_inBounds hin (by omega)
  | slot hschema hi hread =>
      obtain ⟨-, -, hslots⟩ := haccept.resolve_left hschema
      obtain ⟨-, -, hone⟩ := hslots _ hi
      exact hslot _ _ _ hone hread

/-- A reader of an accepted slot stays in the segment, if readers of the structs
it points to do. -/
theorem slotReads_inSegment {child : StructPred}
    (hchild : ∀ off dataWords ptrWords schema word,
      inBounds m off (dataWords + ptrWords) = true → child off dataWords ptrWords schema →
      StructReads m table off dataWords ptrWords schema word → InSegment m word)
    {off : Int} {pschema : PointerSchema} {word : Int}
    (haccept : SlotAccepts m child off pschema)
    (hreads : SlotReads m table off pschema word) : InSegment m word := by
  obtain ⟨hword, htarget⟩ := haccept
  cases hreads with
  | pointerWord =>
      have hself := inSegment_of_inBounds (i := 0) hword (by norm_num)
      simpa using hself
  | struct hkind hnull hstruct =>
      have hstructAccept := htarget.resolve_left hnull
      simp only [TargetAccepts, hkind] at hstructAccept
      obtain ⟨-, hin, haccept⟩ := hstructAccept
      exact hchild _ _ _ _ _ hin haccept hstruct
  | bytes hkind hnull hi =>
      have hbytes := htarget.resolve_left hnull
      rcases hkind with hkind | hkind
      · simp only [TargetAccepts, hkind] at hbytes
        exact inSegment_of_inBounds hbytes.2.2 hi
      · simp only [TargetAccepts, hkind] at hbytes
        exact inSegment_of_inBounds hbytes.2.2 hi
  | flatList hkind hnull hsize hi =>
      have hlist := htarget.resolve_left hnull
      simp only [TargetAccepts, hkind] at hlist
      exact inSegment_of_inBounds (hlist.2.2.2 hsize) hi
  | compositeTag hkind hnull hsize =>
      have hlist := htarget.resolve_left hnull
      simp only [TargetAccepts, hkind] at hlist
      obtain ⟨hin, -, -⟩ := hlist.2.2.1 hsize
      have htag := inSegment_of_inBounds (i := 0) hin (by omega)
      simpa using htag
  | compositeElement hkind hnull hsize hi helement =>
      have hlist := htarget.resolve_left hnull
      simp only [TargetAccepts, hkind] at hlist
      obtain ⟨hin, hfit, helements⟩ := hlist.2.2.1 hsize
      exact hchild _ _ _ _ _ (inBounds_element hin hfit hi) (helements _ hi) helement

/-- Induction on the levels the validator had left: the reader's depth is
unbounded, but an accepted slot only leads to slots accepted one level down. -/
theorem validatePointerSlot_reads_inSegment (levels : Nat) (off : Int)
    (pschema : PointerSchema) (word : Int)
    (haccept : (validatePointerSlot m table levels off pschema).value = true)
    (hreads : SlotReads m table off pschema word) : InSegment m word := by
  induction levels generalizing off pschema word with
  | zero =>
      rw [value_validatePointerSlot_zero] at haccept
      exact absurd haccept Bool.false_ne_true
  | succ levels ih =>
      rw [value_validatePointerSlot_succ] at haccept
      refine slotReads_inSegment ?_ haccept hreads
      intro off dataWords ptrWords schema word hin hchild hstruct
      rw [value_validateStructAt] at hchild
      exact structReads_inSegment ih hin hchild hstruct

theorem validateStructAt_reads_inSegment {levels : Nat} {off : Int}
    {dataWords ptrWords schema : Nat} {word : Int}
    (hin : inBounds m off (dataWords + ptrWords) = true)
    (haccept : (validateStructAt m table levels off dataWords ptrWords schema).value = true)
    (hreads : StructReads m table off dataWords ptrWords schema word) : InSegment m word := by
  rw [value_validateStructAt] at haccept
  exact structReads_inSegment (validatePointerSlot_reads_inSegment levels) hin haccept hreads

theorem rootAccepts_reads_inSegment {msg : Buffer} {schema : Nat} {word : Int}
    (hwords : 1 ≤ seg0Words msg) (haccept : RootAccepts (segmentOf msg) table schema)
    (htouch : ReaderTouches msg table schema word) : InSegment (segmentOf msg) word := by
  cases htouch with
  | rootWord =>
      refine ⟨le_rfl, ?_⟩
      change (0 : Int) < (seg0Words msg : Int)
      omega
  | nullRoot hnull hreads =>
      rcases haccept with ⟨-, hvalid⟩ | ⟨hstruct, -, -⟩
      · have hempty : inBounds (segmentOf msg) 0 (0 + 0) = true := by
          rw [inBounds_iff]
          simp
        exact validateStructAt_reads_inSegment hempty hvalid hreads
      · rw [hnull] at hstruct
        exact absurd hstruct (by decide)
  | root hnull hreads =>
      rcases haccept with ⟨hisNull, -⟩ | ⟨-, hin, hvalid⟩
      · exact absurd hisNull hnull
      · exact validateStructAt_reads_inSegment hin hvalid hreads

/-- **Soundness of the validator.**  If `capnp_validate_message` accepts a
message against a schema, then a schema-directed reader touches no word outside
the message's segment and no byte at or past the end of the buffer. -/
theorem capnpValidateMessage_reader_in_segment (msg : Buffer) (len : Nat)
    (table : SchemaTable) (schema : Nat) (hschema : schema ≠ schemaIdxNone)
    (haccept : (capnpValidateMessage msg len (some table) schema).value = true)
    (word : Int) (htouch : ReaderTouches msg table schema word) :
    (0 ≤ word ∧ word < seg0Words msg) ∧
      ∀ j : Nat, j < 8 → 0 ≤ 8 + word * 8 + j ∧ 8 + word * 8 + j < len := by
  rw [value_capnpValidateMessage msg len table hschema] at haccept
  obtain ⟨-, -, -, hfit, hwords, hroot⟩ := haccept
  have hin := rootAccepts_reads_inSegment hwords hroot htouch
  refine ⟨hin, ?_⟩
  intro j hj
  have hlt : word < seg0Words msg := hin.2
  have hnonneg : 0 ≤ word := hin.1
  constructor
  · omega
  · omega

/-- A message whose root holds a composite list of two one-word structs. -/
def compositeMessage : Buffer :=
  Buffer.ofList
    [0, 0, 0, 0, 5, 0, 0, 0,
      0, 0, 0, 0, 0, 0, 1, 0,
      1, 0, 0, 0, 23, 0, 0, 0,
      8, 0, 0, 0, 1, 0, 0, 0,
      11, 0, 0, 0, 0, 0, 0, 0,
      22, 0, 0, 0, 0, 0, 0, 0]

/-- Struct `0` holds one list slot whose elements are struct `1`. -/
def compositeTable : SchemaTable where
  structs := fun i => if i = 0 then ⟨0, 1, 0⟩ else ⟨1, 0, schemaIdxNone⟩
  structCount := 2
  pointers := fun _ => ⟨.list, 1, 7⟩
  pointerCount := 1
  methods := fun _ => ⟨0, schemaIdxNone, schemaIdxNone⟩
  methodCount := 0
  objects := fun _ => ⟨0, 0⟩
  objectCount := 0

/-- The reader of `compositeMessage` reaches the data word of the last element,
word 4 of a five-word segment. -/
theorem compositeMessage_reader_in_segment :
    ((capnpValidateMessage compositeMessage 48 (some compositeTable) 0).value = true ∧
        ReaderTouches compositeMessage compositeTable 0 4) ∧
      (((0 : Int) ≤ 4 ∧ (4 : Int) < seg0Words compositeMessage) ∧
        ∀ j : Nat, j < 8 → (0 : Int) ≤ 8 + 4 * 8 + j ∧ (8 + 4 * 8 + j : Int) < (48 : Nat)) := by
  have haccept :
      (capnpValidateMessage compositeMessage 48 (some compositeTable) 0).value = true := by
    decide
  have helement : StructReads (segmentOf compositeMessage) compositeTable 4 1 0 1 4 :=
    StructReads.dataWord (i := 0) (by decide) (by decide)
  have hslot : SlotReads (segmentOf compositeMessage) compositeTable 1 ⟨.list, 1, 7⟩ 4 :=
    SlotReads.compositeElement (i := 1) rfl (by decide) (by decide) (by decide) helement
  have htouch : ReaderTouches compositeMessage compositeTable 0 4 :=
    ReaderTouches.root (by decide)
      (StructReads.slot (i := 0) (by decide) (by decide) hslot)
  exact ⟨⟨haccept, htouch⟩,
    capnpValidateMessage_reader_in_segment compositeMessage 48 compositeTable 0 (by decide)
      haccept 4 htouch⟩

end Capnp
end Saski
