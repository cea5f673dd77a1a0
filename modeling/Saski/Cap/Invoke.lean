import Saski.Cap.SchemaMemory
import Saski.Capnp.ValidateAccepts

/-!
# The one syscall (`kernel_invoke`, `kernel/cap.c`)

`kernelInvoke` looks up the target record, finds the method in the object's
schema, validates the request, calls the object's handler and validates what
the handler left in the response buffer.

* The memory `mem` holds records and schema tables.  The request, the response
  buffer and `*out_response_len` are the caller's own objects, separate from it;
  `Saski.Cap.InMemory` has them in memory.
* A handler is code the kernel does not know: `code` maps a function pointer to
  an arbitrary function of everything the handler is given, which may change the
  memory, the response bytes and the reported length.
* The section between `cap_lock` and `cap_unlock` only reads the record; it is
  one step here.  That no other core can get in between is the subject of
  `Saski.Cap.LockSystem`.
* A null `out_response_len` makes the C function use a local instead; the model
  returns the value either way.

The log records what is read on behalf of the request, the call of the handler
and what is read of the response.
-/

namespace Saski
namespace Cap

open ByteMemory Capnp Logged

/-- What a handler leaves behind. -/
structure HandlerResult where
  mem : Mem 64
  response : Int → UInt8
  outResponseLen : Nat

/-- `object_handler_fn`. -/
abbrev Handler := (data methodId : Nat) → (msg : Buffer) → (len : Nat) →
  (response : Buffer) → (responseCap : Nat) → Mem 64 → HandlerResult

/-- The code behind every function pointer. -/
abbrev Code := Nat → Handler

/-- What `kernel_invoke` does that an observer can tell apart. -/
inductive InvokeEvent where
  | request (access : Access)
  | call (handler data methodId : Nat)
  | response (access : Access)
  deriving DecidableEq, Repr

/-- What `kernel_invoke` leaves behind. -/
structure InvokeResult where
  ret : Bool
  outResponseLen : Nat
  response : Int → UInt8
  mem : Mem 64

/-- `table->methods[idx]`. -/
def methodEntry (table : SchemaTable) (idx : Nat) : Logged Access MethodSchema :=
  withLog (table.methods idx) [.methods idx]

/-- The loop of `find_method` from its `i`-th iteration on, with `count`
iterations left. -/
def findMethodFrom (table : SchemaTable) (obj : ObjectSchema) (methodId : Nat) :
    (count i : Nat) → Logged Access (Option Nat)
  | 0, _ => pure none
  | count + 1, i =>
      let idx := obj.firstMethod + i
      -- The run is clipped to the array: a longer one ends the search.
      if table.methodCount ≤ idx then pure none
      else do
        let method ← methodEntry table idx
        if method.methodId = methodId then pure (some idx)
        else findMethodFrom table obj methodId count (i + 1)

/-- `find_method`: the index of the method's entry, instead of its address. -/
def findMethod (table : Option SchemaTable) (objectSchema methodId : Nat) :
    Logged Access (Option Nat) :=
  match table with
  | none => pure none
  | some table => do
      match ← schemaObject table objectSchema with
      | none => pure none
      | some obj => findMethodFrom table obj methodId obj.methodCount 0

/-- The first `cap` bytes overwritten with zeros. -/
def zeroFirst (cap : Nat) (bytes : Int → UInt8) : Int → UInt8 :=
  fun i => if 0 ≤ i ∧ i < cap then 0 else bytes i

/-- The end of `kernel_invoke`, after the handler returned `r`.  The method
entry and the table are pointers into memory the handler may have changed, so
both are read again. -/
def checkResponse (tableAddr methodAddr : Addr) (response : Buffer) (responseCap : Nat)
    (r : HandlerResult) : Logged InvokeEvent InvokeResult :=
  let resultSchema := (loadMethodSchema r.mem methodAddr).resultSchema
  if resultSchema = schemaIdxNone then
    pure ⟨true, r.outResponseLen, r.response, r.mem⟩
  else do
    let ok ← (capnpValidateMessage ⟨response.isNull, r.response⟩ r.outResponseLen
      (loadSchemaTable r.mem tableAddr) resultSchema).relabel .response
    if ok then pure ⟨true, r.outResponseLen, r.response, r.mem⟩
    else pure ⟨false, 0, zeroFirst responseCap r.response, r.mem⟩

/-- `kernel_invoke`. -/
def kernelInvoke (code : Code) (mem : Mem 64) (target : Addr) (methodId : Nat)
    (msg : Buffer) (len : Nat) (response : Buffer) (responseCap : Nat) :
    Logged InvokeEvent InvokeResult :=
  let refused : InvokeResult := ⟨false, 0, response.bytes, mem⟩
  -- The copy taken under the lock; nothing below looks at the record again.
  let record := loadRecord mem target
  if record .magic ≠ capRecordMagic ∨ record .valid = 0 then pure refused
  else do
    let tableAddr : Addr := BitVec.ofNat 64 (record .schemaTable)
    let table := loadSchemaTable mem tableAddr
    match ← (findMethod table (record .schemaIndex) methodId).relabel .request with
    | none => pure refused
    | some idx =>
        let methodAddr := entryAddr (loadDescriptor mem tableAddr).methods methodSchemaSize idx
        let ok ← (capnpValidateMessage msg len table
          (loadMethodSchema mem methodAddr).paramSchema).relabel .request
        if ok then do
          emit (.call (record .handler) (record .data) methodId)
          checkResponse tableAddr methodAddr response responseCap
            (code (record .handler) (record .data) methodId msg len response responseCap mem)
        else pure refused

/-! ## The method search -/

/-- `idx` is the first entry of the object's method run, clipped to the method
array, that carries `methodId`. -/
def FirstMethod (table : Option SchemaTable) (objectSchema methodId idx : Nat) : Prop :=
  ∃ t, table = some t ∧ objectSchema ≠ schemaIdxNone ∧ objectSchema < t.objectCount ∧
    ∃ i < (t.objects objectSchema).methodCount,
      idx = (t.objects objectSchema).firstMethod + i ∧ idx < t.methodCount ∧
      (t.methods idx).methodId = methodId ∧
      ∀ j < i, (t.methods ((t.objects objectSchema).firstMethod + j)).methodId ≠ methodId

theorem value_findMethodFrom (table : SchemaTable) (obj : ObjectSchema)
    (methodId count start idx : Nat) :
    (findMethodFrom table obj methodId count start).value = some idx ↔
      ∃ i, start ≤ i ∧ i < start + count ∧ idx = obj.firstMethod + i ∧
        idx < table.methodCount ∧ (table.methods idx).methodId = methodId ∧
        ∀ j, start ≤ j → j < i → (table.methods (obj.firstMethod + j)).methodId ≠ methodId := by
  -- The entry at `start` decides, or the search goes on behind it.
  induction count generalizing start with
  | zero =>
      simp only [findMethodFrom, value_pure, reduceCtorEq, false_iff]
      rintro ⟨i, hle, hlt, -⟩
      omega
  | succ count ih =>
      simp only [findMethodFrom]
      by_cases hclip : table.methodCount ≤ obj.firstMethod + start
      · rw [if_pos hclip]
        simp only [value_pure, reduceCtorEq, false_iff]
        rintro ⟨i, hle, hlt, rfl, hbound, -⟩
        omega
      · rw [if_neg hclip, value_bind]
        by_cases hfound : (table.methods (obj.firstMethod + start)).methodId = methodId
        · simp only [methodEntry, value_withLog, hfound, if_true, value_pure, Option.some.injEq]
          constructor
          · rintro rfl
            refine ⟨start, le_rfl, by omega, rfl, by omega, hfound, ?_⟩
            intro j hle hlt
            omega
          · rintro ⟨i, hle, hlt, rfl, hbound, hid, hfirst⟩
            rcases Nat.eq_or_lt_of_le hle with rfl | hgt
            · rfl
            · exact absurd hfound (hfirst start le_rfl hgt)
        · simp only [methodEntry, value_withLog, hfound, if_false, ih]
          constructor
          · rintro ⟨i, hle, hlt, hidx, hbound, hid, hfirst⟩
            refine ⟨i, by omega, by omega, hidx, hbound, hid, ?_⟩
            intro j hjle hjlt
            rcases Nat.eq_or_lt_of_le hjle with rfl | hgt
            · exact hfound
            · exact hfirst j hgt hjlt
          · rintro ⟨i, hle, hlt, hidx, hbound, hid, hfirst⟩
            rcases Nat.eq_or_lt_of_le hle with rfl | hgt
            · subst hidx
              exact absurd hid hfound
            · exact ⟨i, hgt, by omega, hidx, hbound, hid,
                fun j hjle hjlt => hfirst j (by omega) hjlt⟩

/-- `find_method` finds the first matching entry of the clipped run. -/
theorem value_findMethod (table : Option SchemaTable) (objectSchema methodId idx : Nat) :
    (findMethod table objectSchema methodId).value = some idx ↔
      FirstMethod table objectSchema methodId idx := by
  cases table with
  | none => simp [findMethod, FirstMethod]
  | some t =>
      simp only [findMethod, value_bind, value_schemaObject, FirstMethod, Option.some.injEq,
        exists_eq_left']
      by_cases hin : objectSchema ≠ schemaIdxNone ∧ objectSchema < t.objectCount
      · rw [if_pos hin, and_iff_right hin.1, and_iff_right hin.2]
        simp only [value_findMethodFrom, Nat.zero_le, true_and, true_implies, Nat.zero_add]
      · rw [if_neg hin]
        simp only [value_pure, reduceCtorEq, false_iff]
        rintro ⟨hne, hlt, -⟩
        exact hin ⟨hne, hlt⟩

end Cap
end Saski
