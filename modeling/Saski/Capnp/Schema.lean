import Saski.Lib.Logged

/-!
# Schema tables (`kernel/schema.h`)

A schema table is four arrays with a count each; entries refer to one another
by index.  An array is a function from indices to entries: C does not check
indices, so the entry past the end of an array is whatever lies there, and the
counts are what a careful reader compares against.  Every array access is
logged as an `Access`, so that "never past the end of a table" is a statement
about the log.
-/

namespace Saski
namespace Capnp

/-- One read performed while handling a message: a byte of the message, by its
index from the start of the buffer, or an entry of one of the table's arrays. -/
inductive Access where
  | msgByte (index : Int)
  | structs (index : Nat)
  | pointers (index : Nat)
  | methods (index : Nat)
  | objects (index : Nat)
  deriving DecidableEq, Repr

/-- `ptr_schema_kind_t`.  The enumeration is stored as an `int` in tables the
kernel did not build, so a value outside it can be read: `unknown`. -/
inductive PtrSchemaKind where
  | any
  | struct
  | list
  | text
  | data
  | capability
  | unknown (raw : Nat)
  deriving DecidableEq, Repr

/-- `SCHEMA_IDX_NONE`: "no such entry". -/
def schemaIdxNone : Nat := 0xFFFF

/-- `pointer_schema_t`. -/
structure PointerSchema where
  kind : PtrSchemaKind
  elementStruct : Nat
  listElementSize : Nat
  deriving DecidableEq, Repr

/-- `struct_schema_t`. -/
structure StructSchema where
  dataWords : Nat
  pointerCount : Nat
  firstPointer : Nat
  deriving DecidableEq, Repr

/-- `method_schema_t`. -/
structure MethodSchema where
  methodId : Nat
  paramSchema : Nat
  resultSchema : Nat
  deriving DecidableEq, Repr

/-- `object_schema_t`. -/
structure ObjectSchema where
  firstMethod : Nat
  methodCount : Nat
  deriving DecidableEq, Repr

/-- `schema_table_t`. -/
structure SchemaTable where
  structs : Nat → StructSchema
  structCount : Nat
  pointers : Nat → PointerSchema
  pointerCount : Nat
  methods : Nat → MethodSchema
  methodCount : Nat
  objects : Nat → ObjectSchema
  objectCount : Nat

/-- The common body of the bounds-checked accessors: a malformed index is
`none`, never a read past the end of the array. -/
def boundedEntry {α : Type} (entries : Nat → α) (count : Nat) (access : Nat → Access)
    (i : Nat) : Logged Access (Option α) :=
  if i = schemaIdxNone ∨ count ≤ i then pure none
  else Logged.withLog (some (entries i)) [access i]

/-- `schema_struct`. -/
def schemaStruct (t : SchemaTable) (i : Nat) : Logged Access (Option StructSchema) :=
  boundedEntry t.structs t.structCount .structs i

/-- `schema_object`. -/
def schemaObject (t : SchemaTable) (i : Nat) : Logged Access (Option ObjectSchema) :=
  boundedEntry t.objects t.objectCount .objects i

/-- An accessor returns an entry exactly for the indices inside the array. -/
theorem value_boundedEntry {α : Type} (entries : Nat → α) (count : Nat)
    (access : Nat → Access) (i : Nat) :
    (boundedEntry entries count access i).value =
      if i ≠ schemaIdxNone ∧ i < count then some (entries i) else none := by
  unfold boundedEntry
  by_cases h : i = schemaIdxNone ∨ count ≤ i
  · rw [if_pos h, if_neg (by omega)]
    rfl
  · rw [if_neg h, if_pos (by omega)]
    rfl

theorem value_schemaStruct (t : SchemaTable) (i : Nat) :
    (schemaStruct t i).value =
      if i ≠ schemaIdxNone ∧ i < t.structCount then some (t.structs i) else none :=
  value_boundedEntry _ _ _ _

theorem value_schemaObject (t : SchemaTable) (i : Nat) :
    (schemaObject t i).value =
      if i ≠ schemaIdxNone ∧ i < t.objectCount then some (t.objects i) else none :=
  value_boundedEntry _ _ _ _

/-- The entry an accessor logs lies below the count it was given. -/
theorem logs_boundedEntry {α : Type} {P : Access → Prop} (entries : Nat → α)
    (count : Nat) (access : Nat → Access) (i : Nat)
    (h : i < count → P (access i)) :
    Logged.Logs P (boundedEntry entries count access i) := by
  refine Logged.logs_ite (fun _ => Logged.logs_pure P none) fun hin => ?_
  refine Logged.logs_withLog _ ?_
  simpa using h (by omega)

end Capnp
end Saski
