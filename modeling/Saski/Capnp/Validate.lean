import Saski.Capnp.Pointer
import Saski.Capnp.Schema
import Saski.Lib.ByteMemory

/-!
# The message validator (`kernel/capnp_validate.c`)

`capnpValidateMessage` is the kernel's structural check of one message against
one entry of a schema table.  It is written in the `Logged Access` monad: the
`value` is the C function's `int` result as a `Bool`, and the `log` lists every
message byte and every table entry it read.

The source bounds its recursion by a `depth` that starts at `0`, grows by one
at every struct pointer and every composite-list element, and is compared with
`CAPNP_MAX_DEPTH` on entry to `validate_pointer_slot`.  The model counts the
same quantity down: `levels` is `CAPNP_MAX_DEPTH + 1 - depth`, so `levels = 0`
is the source's `depth > CAPNP_MAX_DEPTH`.
-/

namespace Saski
namespace Capnp

open Logged ByteMemory

/-- A C pointer to bytes: null, or the memory around the place it points to,
indexed from that place.  Indices outside the object are readable as memory;
whether the code reads them is recorded in its log. -/
structure Buffer where
  isNull : Bool
  bytes : Int → UInt8

/-- The buffer that holds exactly the given bytes, with zeros around them. -/
def Buffer.ofList (l : List UInt8) : Buffer where
  isNull := false
  bytes := fun i => if i < 0 then 0 else l.getD i.toNat 0

/-- The accesses of `count` consecutive message bytes from `start`. -/
def byteAccesses (start : Int) (count : Nat) : List Access :=
  (List.range count).map fun (i : Nat) => Access.msgByte (start + i)

/-- Read `count` bytes from `start` as one little-endian number. -/
def readBytes (bytes : Int → UInt8) (start : Int) (count : Nat) : Logged Access Nat :=
  withLog (littleEndian (fun i => bytes (start + i)) count) (byteAccesses start count)

/-- `CAPNP_MAX_DEPTH`. -/
def capnpMaxDepth : Nat := 16

/-- `capnp_msg_t`: `seg` is the index of the segment's first byte. -/
structure CapnpMsg where
  bytes : Int → UInt8
  seg : Int
  segWords : Nat

/-- `in_bounds`. -/
def inBounds (m : CapnpMsg) (wordOffset : Int) (wordCount : Nat) : Bool :=
  if wordOffset < 0 then false
  else if m.segWords < wordOffset.toNat then false
  else if m.segWords - wordOffset.toNat < wordCount then false
  else true

/-- `read_word`. -/
def readWord (m : CapnpMsg) (wordOffset : Int) : Logged Access Nat :=
  readBytes m.bytes (m.seg + wordOffset * 8) 8

/-- `&table->pointers[pi]`, dereferenced. -/
def pointerEntry (table : SchemaTable) (pi : Nat) : Logged Access PointerSchema :=
  withLog (table.pointers pi) [.pointers pi]

/-- A check of the struct at an offset with given data and pointer section
sizes against a schema index. -/
abbrev StructCheck := (structWordOffset : Int) → (dataWords ptrWords schema : Nat) →
  Logged Access Bool

/-- A check of the pointer word at an offset against its declared kind. -/
abbrev SlotCheck := (ptrWordOffset : Int) → PointerSchema → Logged Access Bool

/-- `validate_struct_at`, over the check of its pointer slots. -/
def validateStructWith (table : SchemaTable) (slot : SlotCheck) : StructCheck :=
  fun structWordOffset dataWords ptrWords schema =>
    -- `SCHEMA_IDX_NONE` is an opt-out, not a malformed index.
    if schema = schemaIdxNone then pure true
    else do
      match ← schemaStruct table schema with
      | none => pure false
      | some ss =>
          if dataWords < ss.dataWords then pure false
          else
            -- Slots the struct does not have are null by the evolution rules.
            let slotsToCheck := if ptrWords < ss.pointerCount then ptrWords else ss.pointerCount
            let ptrSectionStart := structWordOffset + dataWords
            allFrom (fun i =>
              -- A run past the pointer array is a malformed table, not a reason to accept.
              if ss.firstPointer = schemaIdxNone then pure false
              else if table.pointerCount ≤ ss.firstPointer + i then pure false
              else do
                let pschema ← pointerEntry table (ss.firstPointer + i)
                slot (ptrSectionStart + i) pschema) slotsToCheck 0

/-- `static const uint8_t bits_per_elem[8]`. -/
def bitsPerElem (elementSize : Nat) : Nat :=
  [0, 1, 8, 16, 32, 64, 64, 0].getD elementSize 0

/-- The `PTR_SCHEMA_STRUCT` case of `validate_pointer_slot`. -/
def validateStructSlot (m : CapnpMsg) (child : StructCheck) (pschema : PointerSchema)
    (ptr : CapnpPtr) (targetOffset : Int) : Logged Access Bool :=
  if ptr.tag ≠ .struct then pure false
  else if ¬ inBounds m targetOffset (ptr.dataWords + ptr.ptrWords) then pure false
  else child targetOffset ptr.dataWords ptr.ptrWords pschema.elementStruct

/-- The `PTR_SCHEMA_TEXT` and `PTR_SCHEMA_DATA` cases. -/
def validateBytesSlot (m : CapnpMsg) (ptr : CapnpPtr) (targetOffset : Int) :
    Logged Access Bool :=
  if ptr.tag ≠ .list ∨ ptr.elementSize ≠ 2 then pure false
  else pure (inBounds m targetOffset ((ptr.elementCount + 7) / 8))

/-- `(uint32_t)tag.offset_words`: the element count of a composite list. -/
def compositeCount (tag : CapnpPtr) : Nat := (tag.offsetWords % 2 ^ 32).toNat

/-- The composite branch of the `PTR_SCHEMA_LIST` case.  The pointer's count
field is the number of words after the tag word. -/
def validateCompositeList (m : CapnpMsg) (child : StructCheck) (pschema : PointerSchema)
    (ptr : CapnpPtr) (targetOffset : Int) : Logged Access Bool :=
  let totalWords := ptr.elementCount
  if ¬ inBounds m targetOffset (totalWords + 1) then pure false
  else do
    let tagWord ← readWord m targetOffset
    let tag := capnpDecodePtr tagWord
    let elemCount := compositeCount tag
    let elemWords := tag.dataWords + tag.ptrWords
    -- The quotient is compared first so that the product below cannot overflow.
    if elemWords ≠ 0 ∧ totalWords / elemWords < elemCount then pure false
    else if totalWords < elemWords * elemCount then pure false
    else
      allFrom (fun i =>
        child (targetOffset + 1 + (i * elemWords : Nat)) tag.dataWords tag.ptrWords
          pschema.elementStruct) elemCount 0

/-- The `PTR_SCHEMA_LIST` case. -/
def validateListSlot (m : CapnpMsg) (child : StructCheck) (pschema : PointerSchema)
    (ptr : CapnpPtr) (targetOffset : Int) : Logged Access Bool :=
  if ptr.tag ≠ .list then pure false
  else if pschema.listElementSize ≠ 0xFF ∧ ptr.elementSize ≠ pschema.listElementSize then
    pure false
  else if ptr.elementSize = 7 then validateCompositeList m child pschema ptr targetOffset
  else
    let totalBits := bitsPerElem ptr.elementSize * ptr.elementCount
    pure (inBounds m targetOffset ((totalBits + 63) / 64))

/-- The body of `validate_pointer_slot` after its depth check, over the check
of the structs it points to. -/
def validateSlotWith (m : CapnpMsg) (child : StructCheck) : SlotCheck :=
  fun ptrWordOffset pschema =>
    if ¬ inBounds m ptrWordOffset 1 then pure false
    else do
      let word ← readWord m ptrWordOffset
      let ptr := capnpDecodePtr word
      -- An absent pointer is a valid value of every declared type.
      if ptr.tag = .null then pure true
      else if pschema.kind = .any then pure (ptr.tag ≠ .far)
      else if ptr.tag = .far then pure false
      else
        -- Offsets are relative to the word after the pointer word itself.
        let targetOffset := ptrWordOffset + 1 + ptr.offsetWords
        match pschema.kind with
        | .capability => pure (ptr.tag = .capability)
        | .struct => validateStructSlot m child pschema ptr targetOffset
        | .text => validateBytesSlot m ptr targetOffset
        | .data => validateBytesSlot m ptr targetOffset
        | .list => validateListSlot m child pschema ptr targetOffset
        | _ => pure false

/-- `validate_pointer_slot`, with `levels` levels of nesting left. -/
def validatePointerSlot (m : CapnpMsg) (table : SchemaTable) : (levels : Nat) → SlotCheck
  | 0 => fun _ _ => pure false
  | levels + 1 =>
      validateSlotWith m (validateStructWith table (validatePointerSlot m table levels))

/-- `validate_struct_at`, with `levels` levels of nesting left for its slots. -/
def validateStructAt (m : CapnpMsg) (table : SchemaTable) (levels : Nat) : StructCheck :=
  validateStructWith table (validatePointerSlot m table levels)

/-- The check of the root pointer and of the struct it names, once the segment
is known to lie inside the buffer. -/
def validateRoot (m : CapnpMsg) (table : SchemaTable) (schema : Nat) : Logged Access Bool := do
  let rootWord ← readWord m 0
  let root := capnpDecodePtr rootWord
  if root.tag = .null then validateStructAt m table (capnpMaxDepth + 1) 0 0 0 schema
  else if root.tag ≠ .struct then pure false
  else
    let targetOffset := 1 + root.offsetWords
    if ¬ inBounds m targetOffset (root.dataWords + root.ptrWords) then pure false
    else
      validateStructAt m table (capnpMaxDepth + 1) targetOffset root.dataWords root.ptrWords
        schema

/-- The size in bytes of the segment table, padded to a whole word. -/
def headerBytes (segmentCount : Nat) : Nat :=
  let bytes := 4 + 4 * segmentCount
  if bytes % 8 ≠ 0 then bytes + 4 else bytes

/-- `capnp_validate_message`. -/
def capnpValidateMessage (msg : Buffer) (len : Nat) (table : Option SchemaTable)
    (schema : Nat) : Logged Access Bool :=
  if schema = schemaIdxNone then pure true
  else
    match table with
    | none => pure false
    | some table => do
        match ← schemaStruct table schema with
        | none => pure false
        | some _ =>
            if msg.isNull ∨ len < 8 then pure false
            else do
              -- The count is a `uint32_t`, so it wraps to zero and is then refused.
              let segmentCountMinus1 ← readBytes msg.bytes 0 4
              let segmentCount := (segmentCountMinus1 + 1) % 2 ^ 32
              if segmentCount ≠ 1 then pure false
              else do
                let seg0Words ← readBytes msg.bytes 4 4
                let header := headerBytes segmentCount
                if len < header ∨ len - header < seg0Words * 8 then pure false
                else if seg0Words < 1 then pure false
                else validateRoot ⟨msg.bytes, header, seg0Words⟩ table schema

end Capnp
end Saski
