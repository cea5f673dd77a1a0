import Saski.Cap.Record
import Saski.Capnp.Schema

/-!
# Schema tables read from memory

A record names its schema table by address, and the table names its four arrays
by address.  `loadSchemaTable` is the table a reader of memory sees: the counts
as they stand in the descriptor, and the arrays as functions that load the
`i`-th entry.  A null pointer is no table.
-/

namespace Saski
namespace Cap

open ByteMemory Capnp

/-- The address held in an eight-byte pointer. -/
def loadPointer (mem : Mem 64) (a : Addr) : Addr := BitVec.ofNat 64 (load mem a 8)

/-- Address of entry `i` of an array of entries of `size` bytes. -/
def entryAddr (array : Addr) (size i : Nat) : Addr := array + BitVec.ofNat 64 (size * i)

/-- `ptr_schema_kind_t` as stored: an `int`. -/
def ptrSchemaKindOfNat : Nat → PtrSchemaKind
  | 0 => .any
  | 1 => .struct
  | 2 => .list
  | 3 => .text
  | 4 => .data
  | 5 => .capability
  | raw => .unknown raw

def structSchemaSize : Nat := 6
def pointerSchemaSize : Nat := 8
def methodSchemaSize : Nat := 8
def objectSchemaSize : Nat := 4
def schemaTableSize : Nat := 64

def loadStructSchema (mem : Mem 64) (a : Addr) : StructSchema where
  dataWords := load mem (a + BitVec.ofNat 64 0) 2
  pointerCount := load mem (a + BitVec.ofNat 64 2) 2
  firstPointer := load mem (a + BitVec.ofNat 64 4) 2

def loadPointerSchema (mem : Mem 64) (a : Addr) : PointerSchema where
  kind := ptrSchemaKindOfNat (load mem (a + BitVec.ofNat 64 0) 4)
  elementStruct := load mem (a + BitVec.ofNat 64 4) 2
  listElementSize := load mem (a + BitVec.ofNat 64 6) 1

def loadMethodSchema (mem : Mem 64) (a : Addr) : MethodSchema where
  methodId := load mem (a + BitVec.ofNat 64 0) 4
  paramSchema := load mem (a + BitVec.ofNat 64 4) 2
  resultSchema := load mem (a + BitVec.ofNat 64 6) 2

def loadObjectSchema (mem : Mem 64) (a : Addr) : ObjectSchema where
  firstMethod := load mem (a + BitVec.ofNat 64 0) 2
  methodCount := load mem (a + BitVec.ofNat 64 2) 2

/-- The members of `schema_table_t`, in order, as they stand in memory. -/
structure TableDescriptor where
  structs : Addr
  structCount : Nat
  pointers : Addr
  pointerCount : Nat
  methods : Addr
  methodCount : Nat
  objects : Addr
  objectCount : Nat
  deriving DecidableEq

/-- The descriptor at address `t`. -/
def loadDescriptor (mem : Mem 64) (t : Addr) : TableDescriptor where
  structs := loadPointer mem (t + BitVec.ofNat 64 0)
  structCount := load mem (t + BitVec.ofNat 64 8) 2
  pointers := loadPointer mem (t + BitVec.ofNat 64 16)
  pointerCount := load mem (t + BitVec.ofNat 64 24) 2
  methods := loadPointer mem (t + BitVec.ofNat 64 32)
  methodCount := load mem (t + BitVec.ofNat 64 40) 2
  objects := loadPointer mem (t + BitVec.ofNat 64 48)
  objectCount := load mem (t + BitVec.ofNat 64 56) 2

/-- The table a descriptor denotes in a memory. -/
def TableDescriptor.table (mem : Mem 64) (d : TableDescriptor) : SchemaTable where
  structs := fun i => loadStructSchema mem (entryAddr d.structs structSchemaSize i)
  structCount := d.structCount
  pointers := fun i => loadPointerSchema mem (entryAddr d.pointers pointerSchemaSize i)
  pointerCount := d.pointerCount
  methods := fun i => loadMethodSchema mem (entryAddr d.methods methodSchemaSize i)
  methodCount := d.methodCount
  objects := fun i => loadObjectSchema mem (entryAddr d.objects objectSchemaSize i)
  objectCount := d.objectCount

/-- The table at address `t`, or none for a null pointer. -/
def loadSchemaTable (mem : Mem 64) (t : Addr) : Option SchemaTable :=
  if t = 0 then none else some ((loadDescriptor mem t).table mem)

theorem eq_of_loadSchemaTable {mem : Mem 64} {t : Addr} {table : SchemaTable}
    (h : loadSchemaTable mem t = some table) : table = (loadDescriptor mem t).table mem := by
  unfold loadSchemaTable at h
  split at h
  · exact absurd h (by simp)
  · exact (Option.some.inj h).symm

/-- A pointer survives being stored in eight bytes. -/
theorem ofNat_toNat_mod (a : Addr) : BitVec.ofNat 64 (a.toNat % 2 ^ 64) = a := by
  rw [Nat.mod_eq_of_lt a.isLt, BitVec.ofNat_toNat, BitVec.setWidth_eq]

/-! ## Equal contents -/

section SameBytes

variable {mem mem' : Mem 64} {a b : Addr}

theorem loadStructSchema_of_sameBytes (h : SameBytes mem a mem' b structSchemaSize) :
    loadStructSchema mem a = loadStructSchema mem' b := by
  unfold loadStructSchema
  rw [h.load_add 0 2 (by decide), h.load_add 2 2 (by decide), h.load_add 4 2 (by decide)]

theorem loadPointerSchema_of_sameBytes (h : SameBytes mem a mem' b pointerSchemaSize) :
    loadPointerSchema mem a = loadPointerSchema mem' b := by
  unfold loadPointerSchema
  rw [h.load_add 0 4 (by decide), h.load_add 4 2 (by decide), h.load_add 6 1 (by decide)]

theorem loadMethodSchema_of_sameBytes (h : SameBytes mem a mem' b methodSchemaSize) :
    loadMethodSchema mem a = loadMethodSchema mem' b := by
  unfold loadMethodSchema
  rw [h.load_add 0 4 (by decide), h.load_add 4 2 (by decide), h.load_add 6 2 (by decide)]

theorem loadObjectSchema_of_sameBytes (h : SameBytes mem a mem' b objectSchemaSize) :
    loadObjectSchema mem a = loadObjectSchema mem' b := by
  unfold loadObjectSchema
  rw [h.load_add 0 2 (by decide), h.load_add 2 2 (by decide)]

theorem loadDescriptor_of_sameBytes (h : SameBytes mem a mem' b schemaTableSize) :
    loadDescriptor mem a = loadDescriptor mem' b := by
  unfold loadDescriptor loadPointer
  rw [h.load_add 0 8 (by decide), h.load_add 8 2 (by decide), h.load_add 16 8 (by decide),
    h.load_add 24 2 (by decide), h.load_add 32 8 (by decide), h.load_add 40 2 (by decide),
    h.load_add 48 8 (by decide), h.load_add 56 2 (by decide)]

end SameBytes

end Cap
end Saski
