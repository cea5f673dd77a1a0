import Saski.Cap.Invoke

/-!
# The factory object (`factory_handler`, `kernel_cap_bootstrap`)

The factory is the one object the kernel owns.  Its record, its schema table
and the constant arrays behind the table live in the kernel image, so their
addresses are the image's base plus an offset fixed at link time: `ImageLayout`
gives the offsets and `Image` places them.  A second core may run a relocated
copy of the same image, which is the same layout at another base.

`factoryHandler` logs the bytes it reads of the request.  The sections between
`cap_lock` and `cap_unlock` are single steps here, as in `kernelInvoke`, and the
lock word is a part of the state of its own: a record over the lock word, or a
buffer over a record, is out of sight at this level.  `Saski.Cap.InMemory` has all
of them in memory and says when the two levels agree.
-/

namespace Saski
namespace Cap

open ByteMemory Capnp Logged

/-! ## The image -/

/-- Where the linker put the factory's objects, as offsets from the image base. -/
structure ImageOffsets where
  factoryRecord : Nat
  factoryTable : Nat
  factoryStructs : Nat
  factoryPointers : Nat
  factoryMethods : Nat
  factoryObjects : Nat
  factoryHandler : Nat
  capLock : Nat

/-- The constant arrays, as offset and size. -/
def ImageOffsets.arrays (o : ImageOffsets) : List (Nat × Nat) :=
  [(o.factoryStructs, 3 * structSchemaSize), (o.factoryPointers, pointerSchemaSize),
    (o.factoryMethods, 2 * methodSchemaSize), (o.factoryObjects, objectSchemaSize)]

/-- The factory's objects in the image. -/
def ImageOffsets.statics (o : ImageOffsets) : List (Nat × Nat) :=
  (o.factoryRecord, recordSize) :: (o.factoryTable, schemaTableSize) :: o.arrays

/-- The lock word overlaps nothing of them. -/
def ImageOffsets.LockApart (o : ImageOffsets) : Prop :=
  ∀ p ∈ o.statics, p.1 + p.2 ≤ o.capLock ∨ o.capLock + 4 ≤ p.1

instance (o : ImageOffsets) : Decidable o.LockApart :=
  inferInstanceAs (Decidable (∀ p ∈ o.statics, p.1 + p.2 ≤ o.capLock ∨ o.capLock + 4 ≤ p.1))

/-- A layout: the objects lie inside the image and do not overlap. -/
structure ImageLayout extends ImageOffsets where
  size : Nat
  apart : toImageOffsets.statics.Pairwise fun p q => p.1 + p.2 ≤ q.1 ∨ q.1 + q.2 ≤ p.1
  inside : ∀ p ∈ toImageOffsets.statics, p.1 + p.2 ≤ size
  handler_inside : factoryHandler < size
  lock_apart : toImageOffsets.LockApart
  lock_inside : capLock + 4 ≤ size

/-- An image in memory: it does not start at address zero and does not wrap. -/
structure Image where
  layout : ImageLayout
  base : Addr
  base_pos : 0 < base.toNat
  fits : base.toNat + layout.size ≤ 2 ^ 64

namespace Image

variable (img : Image)

/-- `&g_factory_record` -/
def factoryRecord : Addr := img.base + BitVec.ofNat 64 img.layout.factoryRecord
/-- `&g_factory_table` -/
def factoryTable : Addr := img.base + BitVec.ofNat 64 img.layout.factoryTable
/-- `g_factory_structs` -/
def factoryStructs : Addr := img.base + BitVec.ofNat 64 img.layout.factoryStructs
/-- `g_factory_pointers` -/
def factoryPointers : Addr := img.base + BitVec.ofNat 64 img.layout.factoryPointers
/-- `g_factory_methods` -/
def factoryMethods : Addr := img.base + BitVec.ofNat 64 img.layout.factoryMethods
/-- `g_factory_objects` -/
def factoryObjects : Addr := img.base + BitVec.ofNat 64 img.layout.factoryObjects
/-- `factory_handler`, as a function pointer. -/
def factoryHandler : Addr := img.base + BitVec.ofNat 64 img.layout.factoryHandler

/-- `&g_cap_lock` -/
def capLock : Addr := img.base + BitVec.ofNat 64 img.layout.capLock

/-- The factory's objects in memory, as address and size. -/
def statics : List (Addr × Nat) :=
  img.layout.statics.map fun p => (img.base + BitVec.ofNat 64 p.1, p.2)

/-- The address belongs to one of these objects. -/
def Owns (x : Addr) : Prop := ∃ p ∈ img.statics, InExtent p.1 p.2 x

instance (x : Addr) : Decidable (img.Owns x) :=
  inferInstanceAs (Decidable (∃ p ∈ img.statics, InExtent p.1 p.2 x))

/-- No two of these objects overlap. -/
theorem statics_separate {p q : Addr × Nat} (hp : p ∈ img.statics) (hq : q ∈ img.statics)
    (hne : p ≠ q) : Separate p.1 p.2 q.1 q.2 := by
  obtain ⟨o, ho, rfl⟩ := List.mem_map.mp hp
  obtain ⟨o', ho', rfl⟩ := List.mem_map.mp hq
  have hle := img.layout.inside o ho
  have hle' := img.layout.inside o' ho'
  have hfits := img.fits
  have hsymm : Std.Symm fun p q : Nat × Nat => p.1 + p.2 ≤ q.1 ∨ q.1 + q.2 ≤ p.1 :=
    ⟨fun _ _ h => h.symm⟩
  have horder : o.1 + o.2 ≤ o'.1 ∨ o'.1 + o'.2 ≤ o.1 := by
    apply img.layout.apart.forall ho ho'
    rintro rfl
    exact hne rfl
  rcases horder with h | h
  · exact separate_of_le h (by omega)
  · exact (separate_of_le h (by omega)).symm

/-- The lock word is none of them. -/
theorem separate_capLock {p : Addr × Nat} (hp : p ∈ img.statics) :
    Separate p.1 p.2 img.capLock 4 := by
  obtain ⟨o, ho, rfl⟩ := List.mem_map.mp hp
  have hle := img.layout.inside o ho
  have hlock := img.layout.lock_inside
  have hfits := img.fits
  rcases img.layout.lock_apart o ho with h | h
  · exact separate_of_le h (by omega)
  · exact (separate_of_le h (by omega)).symm

/-- These objects lie inside the image. -/
theorem inExtent_of_owns {x : Addr} (hx : img.Owns x) : InExtent img.base img.layout.size x := by
  obtain ⟨p, hp, hin⟩ := hx
  obtain ⟨o, ho, rfl⟩ := List.mem_map.mp hp
  exact hin.of_add (img.layout.inside o ho)

theorem toNat_add_offset {off : Nat} (h : off < img.layout.size) :
    (img.base + BitVec.ofNat 64 off).toNat = img.base.toNat + off := by
  have hfits := img.fits
  exact toNat_add_ofNat (by omega)

theorem factoryTable_ne_zero : img.factoryTable ≠ 0 := by
  intro hzero
  have hin := img.layout.inside (img.layout.factoryTable, schemaTableSize)
    (List.mem_cons_of_mem _ List.mem_cons_self)
  have hsum := img.toNat_add_offset (show img.layout.factoryTable < img.layout.size by
    simp only [schemaTableSize] at hin
    omega)
  have hpos := img.base_pos
  rw [show img.base + BitVec.ofNat 64 img.layout.factoryTable = 0 from hzero] at hsum
  simp at hsum
  omega

end Image

/-- A small layout, and an image of it at `0x1000`. -/
def sampleLayout : ImageLayout where
  factoryRecord := 0x00
  factoryTable := 0x40
  factoryStructs := 0x80
  factoryPointers := 0x98
  factoryMethods := 0xA0
  factoryObjects := 0xB0
  factoryHandler := 0xC0
  capLock := 0xD0
  size := 0x100
  apart := by decide
  inside := by decide
  handler_inside := by decide
  lock_apart := by decide
  lock_inside := by decide

@[inherit_doc sampleLayout]
def sampleImage : Image where
  layout := sampleLayout
  base := 0x1000#64
  base_pos := by decide
  fits := by decide

/-! ## The constant schema arrays -/

/-- `CAP_CREATE_REQUEST_WORDS`. -/
def capCreateRequestWords : Nat := 5

/-- `FACTORY_METHOD_CREATE`. -/
def factoryMethodCreate : Nat := 0

/-- `FACTORY_METHOD_DESTROY`. -/
def factoryMethodDestroy : Nat := 1

/-- `g_factory_structs`: CREATE request, CREATE response, DESTROY request. -/
def gFactoryStructs : List StructSchema :=
  [⟨capCreateRequestWords, 0, schemaIdxNone⟩, ⟨1, 0, schemaIdxNone⟩, ⟨1, 0, schemaIdxNone⟩]

/-- `g_factory_pointers`: a placeholder, `pointer_count` is zero. -/
def gFactoryPointers : List PointerSchema := [⟨.any, 0, 0⟩]

/-- `g_factory_methods`. -/
def gFactoryMethods : List MethodSchema :=
  [⟨factoryMethodCreate, 0, 1⟩, ⟨factoryMethodDestroy, 2, schemaIdxNone⟩]

/-- `g_factory_objects`. -/
def gFactoryObjects : List ObjectSchema := [⟨0, 2⟩]

/-- The image's constant arrays stand in memory as they were compiled. -/
structure ConstData (img : Image) (mem : Mem 64) : Prop where
  structs : ∀ i < 3, gFactoryStructs[i]? =
    some (loadStructSchema mem (entryAddr img.factoryStructs structSchemaSize i))
  pointers : ∀ i < 1, gFactoryPointers[i]? =
    some (loadPointerSchema mem (entryAddr img.factoryPointers pointerSchemaSize i))
  methods : ∀ i < 2, gFactoryMethods[i]? =
    some (loadMethodSchema mem (entryAddr img.factoryMethods methodSchemaSize i))
  objects : ∀ i < 1, gFactoryObjects[i]? =
    some (loadObjectSchema mem (entryAddr img.factoryObjects objectSchemaSize i))

/-- `g_factory_table` after `kernel_cap_bootstrap`. -/
def factoryDescriptor (img : Image) : TableDescriptor where
  structs := img.factoryStructs
  structCount := 3
  pointers := img.factoryPointers
  pointerCount := 0
  methods := img.factoryMethods
  methodCount := 2
  objects := img.factoryObjects
  objectCount := 1

/-! ## The handler -/

/-- `words[k]`, with `words` at byte 16 of the request. -/
def requestWord (msg : Buffer) (k : Nat) : Logged Access Nat :=
  readBytes msg.bytes (16 + 8 * k) 8

/-- The bytes CREATE writes into the response: the header of a two-word segment,
a root pointer to one data word, and the handle. -/
def createResponse (handle : Nat) (i : Nat) : UInt8 :=
  if i < 4 then 0
  else if i < 8 then byteOf 2 (i - 4)
  else if i < 16 then byteOf (1 <<< 32) (i - 8)
  else byteOf handle (i - 16)

/-- `factory_handler`. -/
def factoryHandler (img : Image) (methodId : Nat) (msg : Buffer) (response : Buffer)
    (responseCap : Nat) (mem : Mem 64) : Logged Access HandlerResult :=
  let unanswered (mem : Mem 64) : HandlerResult := ⟨mem, response.bytes, 0⟩
  if methodId = factoryMethodCreate then do
    let handler ← requestWord msg 0
    let handlerData ← requestWord msg 1
    let schemaTable ← requestWord msg 2
    let schemaIndex ← requestWord msg 3
    let recordStorage ← requestWord msg 4
    -- Only null is refused; any other address is taken as it is.
    if recordStorage = 0 then pure (unanswered mem)
    else
      let mem := storeFields mem (BitVec.ofNat 64 recordStorage)
        (createWrites ⟨handler, handlerData, schemaTable, schemaIndex % 2 ^ 16⟩)
      if 24 ≤ responseCap then
        pure
          { mem := mem
            response := fun i =>
              if 0 ≤ i ∧ i < 24 then createResponse recordStorage i.toNat else response.bytes i
            outResponseLen := 24 }
      -- Without room for an answer the record exists all the same.
      else pure (unanswered mem)
  else if methodId = factoryMethodDestroy then do
    let target ← requestWord msg 0
    -- The factory itself is permanently undestroyable.
    if target = img.factoryRecord.toNat then pure (unanswered mem)
    else
      -- The guard against a second DESTROY and against what was never a record.
      let record := loadRecord mem (BitVec.ofNat 64 target)
      if record .magic ≠ capRecordMagic ∨ record .valid = 0 then pure (unanswered mem)
      else pure (unanswered (storeFields mem (BitVec.ofNat 64 target) destroyWrites))
  else pure (unanswered mem)

/-- The factory's code, among whatever other code there is. -/
def factoryCode (img : Image) (others : Code) : Code :=
  fun pointer =>
    if pointer = img.factoryHandler.toNat then
      fun _ methodId msg _ response responseCap mem =>
        (factoryHandler img methodId msg response responseCap mem).value
    else others pointer

/-! ## What a request does -/

/-- The value of `words[k]`. -/
def wordOf (msg : Buffer) (k : Nat) : Nat := (requestWord msg k).value

/-- The payload of a CREATE request. -/
def createPayload (msg : Buffer) : Payload :=
  ⟨wordOf msg 0, wordOf msg 1, wordOf msg 2, wordOf msg 3 % 2 ^ 16⟩

/-- The record write a request causes, if it causes one: the record's address and
the fields written. -/
def factoryWrite (img : Image) (methodId : Nat) (msg : Buffer) (mem : Mem 64) :
    Option (Addr × FieldWrites) :=
  if methodId = factoryMethodCreate then
    if wordOf msg 4 = 0 then none
    else some (BitVec.ofNat 64 (wordOf msg 4), createWrites (createPayload msg))
  else if methodId = factoryMethodDestroy then
    if wordOf msg 0 = img.factoryRecord.toNat then none
    else if (loadRecord mem (BitVec.ofNat 64 (wordOf msg 0))).Live then
      some (BitVec.ofNat 64 (wordOf msg 0), destroyWrites)
    else none
  else none

/-- The memory after a record write. -/
def applyRecordWrite (mem : Mem 64) : Option (Addr × FieldWrites) → Mem 64
  | none => mem
  | some (r, ws) => storeFields mem r ws

theorem wordOf_lt (msg : Buffer) (k : Nat) : wordOf msg k < 2 ^ 64 := littleEndian_lt _ 8

/-- The handler changes memory by its record write and in no other way. -/
theorem factoryHandler_mem (img : Image) (methodId : Nat) (msg response : Buffer)
    (responseCap : Nat) (mem : Mem 64) :
    (factoryHandler img methodId msg response responseCap mem).value.mem =
      applyRecordWrite mem (factoryWrite img methodId msg mem) := by
  unfold factoryHandler factoryWrite
  by_cases hcreate : methodId = factoryMethodCreate
  · simp only [if_pos hcreate, value_bind]
    by_cases hnull : wordOf msg 4 = 0
    · rw [if_pos hnull, if_pos (show (requestWord msg 4).value = 0 from hnull)]
      rfl
    · rw [if_neg hnull, if_neg (show ¬ (requestWord msg 4).value = 0 from hnull)]
      -- Whether there is room for an answer makes no difference to the record.
      split <;> rfl
  · simp only [if_neg hcreate]
    by_cases hdestroy : methodId = factoryMethodDestroy
    · simp only [if_pos hdestroy, value_bind]
      by_cases hself : wordOf msg 0 = img.factoryRecord.toNat
      · rw [if_pos hself, if_pos (show (requestWord msg 0).value = _ from hself)]
        rfl
      · rw [if_neg hself, if_neg (show ¬ (requestWord msg 0).value = _ from hself)]
        by_cases hlive : (loadRecord mem (BitVec.ofNat 64 (wordOf msg 0))).Live
        · have hpass : ¬ (loadRecord mem (BitVec.ofNat 64 (requestWord msg 0).value) .magic ≠
              capRecordMagic ∨
              loadRecord mem (BitVec.ofNat 64 (requestWord msg 0).value) .valid = 0) := by
            rw [← CapRecord.not_live_iff, not_not]
            exact hlive
          rw [if_pos hlive, if_neg hpass]
          rfl
        · have hrefuse : loadRecord mem (BitVec.ofNat 64 (requestWord msg 0).value) .magic ≠
              capRecordMagic ∨
              loadRecord mem (BitVec.ofNat 64 (requestWord msg 0).value) .valid = 0 := by
            rw [← CapRecord.not_live_iff]
            exact hlive
          rw [if_neg hlive, if_pos hrefuse]
          rfl
    · simp only [if_neg hdestroy]
      rfl

/-! ## Bootstrap -/

/-- The kernel state `kernel_cap_bootstrap` works on: the memory and the value of
`g_cap_lock`, which stands at `Image.capLock`. -/
structure KernelState where
  mem : Mem 64
  capLock : Nat

/-- `initial_capabilities_t`. -/
structure InitialCapabilities where
  count : Nat
  factory : Nat
  deriving DecidableEq, Repr

/-- The test for a shared image that is already bootstrapped: the record and the
descriptor name this image's own objects. -/
def alreadyBootstrapped (img : Image) (mem : Mem 64) : Bool :=
  loadRecord mem img.factoryRecord .magic = capRecordMagic &&
    loadRecord mem img.factoryRecord .valid ≠ 0 &&
    loadRecord mem img.factoryRecord .schemaTable = img.factoryTable.toNat &&
    (loadDescriptor mem img.factoryTable).structs = img.factoryStructs &&
    (loadDescriptor mem img.factoryTable).methods = img.factoryMethods &&
    (loadDescriptor mem img.factoryTable).objects = img.factoryObjects

/-- The members of `schema_table_t` as offset, size and value. -/
def TableDescriptor.members (d : TableDescriptor) : List (Nat × Nat × Nat) :=
  [(0, 8, d.structs.toNat), (8, 2, d.structCount), (16, 8, d.pointers.toNat),
    (24, 2, d.pointerCount), (32, 8, d.methods.toNat), (40, 2, d.methodCount),
    (48, 8, d.objects.toNat), (56, 2, d.objectCount)]

/-- Store the members of a descriptor, in order. -/
def storeDescriptor (mem : Mem 64) (t : Addr) (d : TableDescriptor) : Mem 64 :=
  storeMembers mem t d.members

/-- What the factory's record holds: no data, object 0 of its own table. -/
def factoryPayload (img : Image) : Payload where
  handler := img.factoryHandler.toNat
  data := 0
  schemaTable := img.factoryTable.toNat
  schemaIndex := 0

/-- The second half of `kernel_cap_bootstrap`: bind the table to this image's
arrays and the record to this image's handler and table.  The record's fields are
written in the order in which CREATE writes them. -/
def bindFactory (img : Image) (mem : Mem 64) : Mem 64 :=
  storeFields (storeDescriptor mem img.factoryTable (factoryDescriptor img))
    img.factoryRecord (createWrites (factoryPayload img))

/-- `kernel_cap_bootstrap`.  In the shared image it takes and releases the lock;
`none` is the wait for a lock that another core holds. -/
def kernelCapBootstrap (img : Image) (s : KernelState) :
    Option (InitialCapabilities × KernelState) :=
  let caps : InitialCapabilities := ⟨1, img.factoryRecord.toNat⟩
  if alreadyBootstrapped img s.mem then
    -- `cap_lock` and `cap_unlock` around the grant.
    if s.capLock ≠ 0 then none else some (caps, { s with capLock := 0 })
  -- A first boot, or a copy: the copied lock word means nothing here.
  else some (caps, ⟨bindFactory img s.mem, 0⟩)

end Cap
end Saski
