import Saski.Lib.ByteMemory

/-!
# Capability records in memory (`cap_record_t`, `kernel/cap.c`)

A handle is the address of its own record, in memory the caller of CREATE
supplied.  A record is therefore nothing but six fields at fixed offsets from an
address, and two records may overlap if their addresses are close: the model
keeps the bytes.  Offsets and sizes are those of the LP64 ABIs the kernel is
built for.

CREATE and DESTROY are given as the lists of field writes of the source, in
source order.  The sequential model folds them over the memory; the model of
several cores executes the same lists one write at a time.
-/

namespace Saski
namespace Cap

open ByteMemory

/-- A 64-bit address. -/
abbrev Addr := BitVec 64

/-- The memory that holds the given bytes from `base` on and zeros elsewhere. -/
def memOfBytes (base : Addr) (l : List UInt8) : Mem 64 :=
  fun a => l.getD (a - base).toNat 0

/-- `CAP_RECORD_MAGIC`. -/
def capRecordMagic : Nat := 0xCAB1E000CAB1E000

/-- The fields of `cap_record_t`. -/
inductive Field where
  | magic
  | valid
  | handler
  | data
  | schemaTable
  | schemaIndex
  deriving DecidableEq, Repr

/-- Byte offset of a field in the record. -/
def Field.offset : Field → Nat
  | .magic => 0
  | .valid => 8
  | .handler => 16
  | .data => 24
  | .schemaTable => 32
  | .schemaIndex => 40

/-- Size of a field in bytes: `int valid` has four, `schema_idx_t` has two. -/
def Field.size : Field → Nat
  | .magic => 8
  | .valid => 4
  | .handler => 8
  | .data => 8
  | .schemaTable => 8
  | .schemaIndex => 2

/-- `sizeof(cap_record_t)`, with the padding after `schema_index`. -/
def recordSize : Nat := 48

/-- The values of the six fields. -/
abbrev CapRecord := Field → Nat

def loadField (mem : Mem 64) (r : Addr) (f : Field) : Nat :=
  load mem (r + BitVec.ofNat 64 f.offset) f.size

def storeField (mem : Mem 64) (r : Addr) (f : Field) (v : Nat) : Mem 64 :=
  store mem (r + BitVec.ofNat 64 f.offset) f.size v

/-- The record at address `r`: the copy `cap_record_t record = *target_record`. -/
def loadRecord (mem : Mem 64) (r : Addr) : CapRecord := loadField mem r

/-- A sequence of field writes, as values to be cut to the field's size. -/
abbrev FieldWrites := List (Field × Nat)

def storeFields (mem : Mem 64) (r : Addr) (ws : FieldWrites) : Mem 64 :=
  ws.foldl (fun mem w => storeField mem r w.1 w.2) mem

/-- What a CREATE request asks to be stored. -/
structure Payload where
  handler : Nat
  data : Nat
  schemaTable : Nat
  schemaIndex : Nat
  deriving DecidableEq, Repr

/-- The writes of CREATE, between `cap_lock` and `cap_unlock`. -/
def createWrites (p : Payload) : FieldWrites :=
  [(.magic, capRecordMagic), (.valid, 1), (.handler, p.handler), (.data, p.data),
    (.schemaTable, p.schemaTable), (.schemaIndex, p.schemaIndex)]

/-- The writes of DESTROY, between `cap_lock` and `cap_unlock`. -/
def destroyWrites : FieldWrites :=
  [(.valid, 0), (.magic, 0), (.handler, 0), (.data, 0), (.schemaTable, 0),
    (.schemaIndex, 0xFFFF)]

/-- The record passes the check `magic == CAP_RECORD_MAGIC && valid`. -/
def CapRecord.Live (r : CapRecord) : Prop := r .magic = capRecordMagic ∧ r .valid ≠ 0

instance (r : CapRecord) : Decidable r.Live :=
  inferInstanceAs (Decidable (_ ∧ _))

/-- The check as the source writes it, from the other side. -/
theorem CapRecord.not_live_iff (r : CapRecord) :
    ¬ r.Live ↔ r .magic ≠ capRecordMagic ∨ r .valid = 0 := by
  unfold CapRecord.Live
  rw [not_and_or, not_not]

/-- The four fields `kernel_invoke` dispatches on. -/
def CapRecord.payload (r : CapRecord) : Payload where
  handler := r .handler
  data := r .data
  schemaTable := r .schemaTable
  schemaIndex := r .schemaIndex

/-- The effect of a list of writes on the field values, without memory. -/
def applyWrites (r : CapRecord) (ws : FieldWrites) : CapRecord :=
  ws.foldl (fun r w => Function.update r w.1 (w.2 % 2 ^ (8 * w.1.size))) r

/-! ## Field accesses -/

theorem Field.offset_add_size_le (f : Field) : f.offset + f.size ≤ recordSize := by
  cases f <;> decide

/-- Distinct fields of one record do not overlap. -/
theorem separate_fields (r : Addr) {f g : Field} (h : f ≠ g) :
    Separate (r + BitVec.ofNat 64 f.offset) f.size (r + BitVec.ofNat 64 g.offset) g.size := by
  have horder : f.offset + f.size ≤ g.offset ∨ g.offset + g.size ≤ f.offset := by
    -- Thirty pairs of distinct fields; the six equal pairs contradict `h`.
    cases f <;> cases g <;> first | exact absurd rfl h | decide
  have hf := f.offset_add_size_le
  have hg := g.offset_add_size_le
  have hsize : recordSize ≤ 2 ^ 64 := by decide
  rcases horder with hle | hle
  · exact separate_of_le hle (by omega)
  · exact (separate_of_le hle (by omega)).symm

theorem Field.size_le (f : Field) : f.size ≤ 2 ^ 64 := by
  cases f <;> decide

/-- A field write, seen through the record it goes to. -/
theorem loadRecord_storeField (mem : Mem 64) (r : Addr) (f : Field) (v : Nat) :
    loadRecord (storeField mem r f v) r =
      Function.update (loadRecord mem r) f (v % 2 ^ (8 * f.size)) := by
  ext g
  by_cases hg : g = f
  · subst hg
    rw [Function.update_self]
    exact load_store_same mem _ v g.size_le
  · rw [Function.update_of_ne hg]
    exact load_store_separate g.size_le (separate_fields r hg)

/-- A sequence of field writes, seen through the record they go to. -/
theorem loadRecord_storeFields (mem : Mem 64) (r : Addr) (ws : FieldWrites) :
    loadRecord (storeFields mem r ws) r = applyWrites (loadRecord mem r) ws := by
  induction ws generalizing mem with
  | nil => rfl
  | cons w ws ih =>
      change loadRecord (storeFields (storeField mem r w.1 w.2) r ws) r = _
      rw [ih, loadRecord_storeField]
      rfl

/-- Writes of values that the fields already hold change nothing. -/
theorem storeFields_eq_self {mem : Mem 64} {r : Addr} {ws : FieldWrites}
    (h : ∀ w ∈ ws, loadRecord mem r w.1 = w.2 % 2 ^ (8 * w.1.size)) :
    storeFields mem r ws = mem := by
  induction ws with
  | nil => rfl
  | cons w ws ih =>
      obtain ⟨hfirst, hrest⟩ := List.forall_mem_cons.mp h
      have hsame : storeField mem r w.1 w.2 = mem := store_eq_self hfirst
      change storeFields (storeField mem r w.1 w.2) r ws = mem
      rw [hsame, ih hrest]

/-- Writes to a record change no byte outside it. -/
theorem storeFields_of_not_inExtent (mem : Mem 64) (r : Addr) (ws : FieldWrites) {x : Addr}
    (hx : ¬ InExtent r recordSize x) : storeFields mem r ws x = mem x := by
  induction ws generalizing mem with
  | nil => rfl
  | cons w ws ih =>
      change storeFields (storeField mem r w.1 w.2) r ws x = mem x
      rw [ih]
      refine store_of_not_inExtent fun hin => hx ?_
      exact hin.of_add w.1.offset_add_size_le

theorem storeFields_congr {mem mem' : Mem 64} {x : Addr} (h : mem x = mem' x) (r : Addr)
    (ws : FieldWrites) : storeFields mem r ws x = storeFields mem' r ws x := by
  induction ws generalizing mem mem' with
  | nil => exact h
  | cons w ws ih => exact ih (store_congr h _ _ _)

/-- Writes to a record leave every load from a separate extent alone. -/
theorem load_storeFields_separate (mem : Mem 64) {r a : Addr} {n : Nat} (ws : FieldWrites)
    (hn : n ≤ 2 ^ 64) (h : Separate a n r recordSize) :
    load (storeFields mem r ws) a n = load mem a n :=
  load_congr hn fun x hx => storeFields_of_not_inExtent mem r ws (h x hx)

/-- Writes to a record leave a record that does not overlap it alone. -/
theorem loadRecord_storeFields_separate (mem : Mem 64) {r r' : Addr} (ws : FieldWrites)
    (h : Separate r' recordSize r recordSize) :
    loadRecord (storeFields mem r ws) r' = loadRecord mem r' := by
  ext f
  refine load_storeFields_separate mem ws f.size_le fun x hx => h x ?_
  exact hx.of_add f.offset_add_size_le

/-- Equal contents are equal records. -/
theorem loadRecord_of_sameBytes {mem mem' : Mem 64} {r r' : Addr}
    (h : SameBytes mem r mem' r' recordSize) : loadRecord mem r = loadRecord mem' r' := by
  ext f
  exact h.load_add f.offset f.size f.offset_add_size_le

/-! ## CREATE and DESTROY -/

/-- The payload as the fields hold it: pointers of 64 bits, an index of 16. -/
def Payload.stored (p : Payload) : Payload where
  handler := p.handler % 2 ^ 64
  data := p.data % 2 ^ 64
  schemaTable := p.schemaTable % 2 ^ 64
  schemaIndex := p.schemaIndex % 2 ^ 16

/-- The record CREATE leaves behind. -/
def Payload.record (p : Payload) : CapRecord
  | .magic => capRecordMagic
  | .valid => 1
  | .handler => p.stored.handler
  | .data => p.stored.data
  | .schemaTable => p.stored.schemaTable
  | .schemaIndex => p.stored.schemaIndex

/-- CREATE overwrites every field, so nothing of the old record is left. -/
theorem applyWrites_createWrites (r : CapRecord) (p : Payload) :
    applyWrites r (createWrites p) = p.record := by
  ext f
  cases f <;>
    simp [applyWrites, createWrites, Function.update, Field.size, Payload.record,
      Payload.stored, capRecordMagic]

theorem Payload.record_live (p : Payload) : p.record.Live :=
  ⟨rfl, one_ne_zero⟩

theorem Payload.payload_record (p : Payload) : p.record.payload = p.stored := rfl

/-- CREATE over the very record it would write changes nothing. -/
theorem storeFields_createWrites_eq_self {mem : Mem 64} {r : Addr} {p : Payload}
    (h : loadRecord mem r = p.record) : storeFields mem r (createWrites p) = mem := by
  apply storeFields_eq_self
  rw [h]
  simp [createWrites, Field.size, Payload.record, Payload.stored, capRecordMagic]

theorem applyWrites_destroyWrites_not_live (r : CapRecord) :
    ¬ (applyWrites r destroyWrites).Live := by
  rintro ⟨-, hvalid⟩
  simp [applyWrites, destroyWrites, Function.update] at hvalid

end Cap
end Saski
