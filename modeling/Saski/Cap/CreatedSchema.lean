import Saski.Cap.CreateAtomic

/-!
# The schema a created object answers for

A CREATE request names its object's schema by a table and a 64-bit word, the
number of an object in that table.  The record keeps 16 bits of the word, and
nobody looks at the number before the first call on the new handle.  There the
bounds check of `schema_object` sees what is left of it.

`Callable` says which calls the request asked for; it knows no machine integers.
`created_answers_iff` compares it with the calls `kernel_invoke` dispatches.
-/

namespace Saski
namespace Cap

open ByteMemory Capnp Logged

/-! ## What the request names -/

/-- `idx` is the first entry of the object's method run, clipped to the method
array, that carries `methodId`. -/
def MethodOf (t : SchemaTable) (obj : ObjectSchema) (methodId idx : Nat) : Prop :=
  ∃ i < obj.methodCount, idx = obj.firstMethod + i ∧ idx < t.methodCount ∧
    (t.methods idx).methodId = methodId ∧
    ∀ j < i, (t.methods (obj.firstMethod + j)).methodId ≠ methodId

/-- The request is one to a method of object number `number` of the table.  An
object number that the table does not have has no methods. -/
def Callable (table : Option SchemaTable) (number methodId : Nat) (msg : Buffer) (len : Nat) :
    Prop :=
  ∃ t idx, table = some t ∧ number < t.objectCount ∧
    MethodOf t (t.objects number) methodId idx ∧
    Conforms msg len table (t.methods idx).paramSchema

/-- No request at all is one to object number `number`: the table does not have
it, its run is empty, or the parameters of its methods are structs the table does
not have. -/
def Uncallable (table : Option SchemaTable) (number : Nat) : Prop :=
  ∀ t methodId idx, table = some t → number < t.objectCount →
    MethodOf t (t.objects number) methodId idx →
    (t.methods idx).paramSchema ≠ schemaIdxNone ∧ t.structCount ≤ (t.methods idx).paramSchema

/-- The table a CREATE request names, as it stands in `m`. -/
def namedTable (m : Mem 64) (c : Call) : Option SchemaTable :=
  loadSchemaTable m (BitVec.ofNat 64 (rootWord c.msg 2))

/-- The object that `c` created answers, in the memory `m`, for the schema that `c`
named: a call reaches the requested handler, with the requested data, if it is one
to a method of the named object; every other call is refused in front of the
handler. -/
def AnswersAsNamed (code : Code) (m : Mem 64) (c : Call) : Prop :=
  ∀ (methodId : Nat) (msg : Buffer) (len : Nat) (response : Buffer) (responseCap : Nat),
    let run := kernelInvoke code m (storageOf c) methodId msg len response responseCap
    (Callable (namedTable m c) (rootWord c.msg 3) methodId msg len →
        calls run.log = [(rootWord c.msg 0, rootWord c.msg 1, methodId)]) ∧
      (¬ Callable (namedTable m c) (rootWord c.msg 3) methodId msg len →
        calls run.log = [] ∧ run.value.ret = false ∧ run.value.mem = m)

/-! ## Tables from memory -/

/-- `object_count` has 16 bits. -/
theorem objectCount_lt_of_loadSchemaTable {m : Mem 64} {addr : Addr} {t : SchemaTable}
    (htable : loadSchemaTable m addr = some t) : t.objectCount < 2 ^ 16 := by
  rw [eq_of_loadSchemaTable htable]
  exact load_lt _ _ 2

/-- An object that a table in memory has is not the sentinel. -/
theorem firstMethod_iff_methodOf {m : Mem 64} {addr : Addr} {number methodId idx : Nat} :
    FirstMethod (loadSchemaTable m addr) number methodId idx ↔
      ∃ t, loadSchemaTable m addr = some t ∧ number < t.objectCount ∧
        MethodOf t (t.objects number) methodId idx := by
  constructor
  · rintro ⟨t, ht, -, hlt, hmethod⟩
    exact ⟨t, ht, hlt, hmethod⟩
  · rintro ⟨t, ht, hlt, hmethod⟩
    have hcount := objectCount_lt_of_loadSchemaTable ht
    refine ⟨t, ht, ?_, hlt, hmethod⟩
    unfold schemaIdxNone
    omega

/-- A number of more than 16 bits names no object of any table. -/
theorem not_callable_of_wide {m : Mem 64} {addr : Addr} {number methodId : Nat} {msg : Buffer}
    {len : Nat} (hwide : 2 ^ 16 ≤ number) :
    ¬ Callable (loadSchemaTable m addr) number methodId msg len := by
  rintro ⟨t, -, ht, hlt, -⟩
  have hcount := objectCount_lt_of_loadSchemaTable ht
  omega

/-- Some message conforms to every schema that a table in memory has. -/
theorem exists_conforms {m : Mem 64} {addr : Addr} {t : SchemaTable}
    (htable : loadSchemaTable m addr = some t) {schema : Nat}
    (hschema : schema = schemaIdxNone ∨ schema < t.structCount) :
    ∃ msg len, Conforms msg len (some t) schema := by
  by_cases hnone : schema = schemaIdxNone
  · exact ⟨⟨false, fun _ => 0⟩, 0, Or.inl hnone⟩
  · refine ⟨⟨false, smallestResponse (t.structs schema).dataWords⟩,
      16 + (t.structs schema).dataWords * 8, Or.inr ?_⟩
    exact smallestResponse_accepted hnone (hschema.resolve_left hnone) rfl (fun _ _ _ => rfl)
      (dataWords_lt_of_loadSchemaTable htable schema) (by omega) (by omega)

/-- An object is uncallable if no call is one to it. -/
theorem uncallable_iff {m : Mem 64} {addr : Addr} {number : Nat} :
    Uncallable (loadSchemaTable m addr) number ↔
      ∀ methodId msg len, ¬ Callable (loadSchemaTable m addr) number methodId msg len := by
  constructor
  · rintro hnone methodId msg len ⟨t, idx, ht, hlt, hmethod, hconforms⟩
    obtain ⟨hschema, hbound⟩ := hnone t methodId idx ht hlt hmethod
    rw [conforms_iff, ht, value_capnpValidateMessage _ _ _ hschema] at hconforms
    exact absurd hconforms.1 (by omega)
  · intro hnone t methodId idx ht hlt hmethod
    by_contra hparam
    have hschema : (t.methods idx).paramSchema = schemaIdxNone ∨
        (t.methods idx).paramSchema < t.structCount := by
      rwa [not_and_or, not_not, not_le] at hparam
    obtain ⟨msg, len, hconforms⟩ := exists_conforms ht hschema
    refine hnone methodId msg len ⟨t, idx, ht, hlt, hmethod, ?_⟩
    rw [ht]
    exact hconforms

/-! ## The gate of a created object -/

section Created

variable {img : Image} {c : Call} {m : Mem 64}

/-- The new handle lets through the calls to the object whose number is the low 16
bits of the word. -/
theorem FlatCreate.gateOpen_created_iff (hc : FlatCreate img c)
    (hrecord : loadRecord m (storageOf c) = (rootPayload c.msg).record) {methodId : Nat}
    {msg : Buffer} {len : Nat} :
    (∃ idx, GateOpen m (storageOf c) methodId msg len idx) ↔
      Callable (namedTable m c) (rootWord c.msg 3 % 2 ^ 16) methodId msg len := by
  have haddr : tableAddrOf m (storageOf c) = BitVec.ofNat 64 (rootWord c.msg 2) := by
    unfold tableAddrOf
    rw [hrecord]
    change BitVec.ofNat 64 (rootWord c.msg 2 % 2 ^ 64) = _
    rw [Nat.mod_eq_of_lt (hc.rootWord_lt 2)]
  have htable : tableOf m (storageOf c) = namedTable m c := by
    unfold tableOf namedTable
    rw [haddr]
  have hindex : loadRecord m (storageOf c) .schemaIndex = rootWord c.msg 3 % 2 ^ 16 := by
    rw [hrecord]
    rfl
  -- The entry behind the address is the entry of the table.
  have hentry : ∀ {t : SchemaTable} (idx : Nat), namedTable m c = some t →
      loadMethodSchema m (methodAddrOf m (storageOf c) idx) = t.methods idx := by
    intro t idx ht
    unfold methodAddrOf
    rw [haddr, eq_of_loadSchemaTable ht]
    rfl
  constructor
  · rintro ⟨idx, hgate⟩
    have hmethod := hgate.method
    have hconforms := hgate.conforms
    rw [htable] at hmethod hconforms
    rw [hindex] at hmethod
    obtain ⟨t, ht, hlt, hof⟩ := firstMethod_iff_methodOf.mp hmethod
    rw [hentry idx ht] at hconforms
    exact ⟨t, idx, ht, hlt, hof, hconforms⟩
  · rintro ⟨t, idx, ht, hlt, hof, hconforms⟩
    refine ⟨idx, ?_, ?_, ?_⟩
    · rw [hrecord]
      exact Payload.record_live _
    · rw [htable, hindex]
      exact firstMethod_iff_methodOf.mpr ⟨t, ht, hlt, hof⟩
    · rw [htable, hentry idx ht]
      exact hconforms

/-- What a call on the new handle does, with the low 16 bits in place of the word. -/
theorem FlatCreate.calls_created (hc : FlatCreate img c)
    (hrecord : loadRecord m (storageOf c) = (rootPayload c.msg).record) (code : Code)
    (methodId : Nat) (msg : Buffer) (len : Nat) (response : Buffer) (responseCap : Nat) :
    let run := kernelInvoke code m (storageOf c) methodId msg len response responseCap
    (Callable (namedTable m c) (rootWord c.msg 3 % 2 ^ 16) methodId msg len →
        calls run.log = [(rootWord c.msg 0, rootWord c.msg 1, methodId)]) ∧
      (¬ Callable (namedTable m c) (rootWord c.msg 3 % 2 ^ 16) methodId msg len →
        calls run.log = [] ∧ run.value.ret = false ∧ run.value.mem = m) := by
  intro run
  rw [← hc.gateOpen_created_iff hrecord]
  constructor
  · rintro ⟨idx, hgate⟩
    have hcalls := calls_kernelInvoke_of_gateOpen code response responseCap hgate
    have hhandler : loadRecord m (storageOf c) .handler = rootWord c.msg 0 := by
      rw [hrecord]
      exact Nat.mod_eq_of_lt (hc.rootWord_lt 0)
    have hdata : loadRecord m (storageOf c) .data = rootWord c.msg 1 := by
      rw [hrecord]
      exact Nat.mod_eq_of_lt (hc.rootWord_lt 1)
    rwa [hhandler, hdata] at hcalls
  · intro hclosed
    obtain ⟨hvalue, reads, hlog⟩ :=
      kernelInvoke_of_gate_closed code response responseCap hclosed
    have hvalue' : run.value = ⟨false, 0, response.bytes, m⟩ := hvalue
    have hlog' : run.log = reads.map .request := hlog
    rw [hvalue', hlog', calls_map_request]
    exact ⟨rfl, rfl, rfl⟩

end Created

/-- **When a created object answers for the schema its CREATE named.**  After
bootstrap, for every flat-encoded CREATE request with storage, every 64-bit schema
index and every table, and in every later memory in which the new record still
stands: the calls that reach the object's handler are those to the methods of the
named object, and none if the table has no such object, exactly when the index
fits 16 bits or the object that its low 16 bits name cannot be called. -/
theorem created_answers_iff {img : Image} {mem : Mem 64} {c : Call} (others code : Code)
    (hready : FactoryReady img mem) (hc : FlatCreate img c) (hstorage : rootWord c.msg 4 ≠ 0)
    {m : Mem 64} (hkept : loadRecord m (storageOf c) =
      loadRecord (resultOf (factoryCode img others) mem c).mem (storageOf c)) :
    AnswersAsNamed code m c ↔
      rootWord c.msg 3 < 2 ^ 16 ∨
        Uncallable (namedTable m c) (rootWord c.msg 3 % 2 ^ 16) := by
  have hrecord : loadRecord m (storageOf c) = (rootPayload c.msg).record := by
    rw [hkept, hc.mem_resultOf hready others hstorage, hc.loadRecord_overlay]
  have hcalls := hc.calls_created hrecord code
  rcases Nat.lt_or_ge (rootWord c.msg 3) (2 ^ 16) with hnarrow | hwide
  · refine iff_of_true ?_ (Or.inl hnarrow)
    rw [Nat.mod_eq_of_lt hnarrow] at hcalls
    exact hcalls
  -- The word names no object, so the object must be one that nobody can call.
  rw [or_iff_right (Nat.not_lt.mpr hwide), namedTable, uncallable_iff]
  constructor
  · intro hanswers methodId msg len hcallable
    have hdispatched := (hcalls methodId msg len ⟨false, fun _ => 0⟩ 0).1 hcallable
    obtain ⟨hrefused, -⟩ := (hanswers methodId msg len ⟨false, fun _ => 0⟩ 0).2
      (not_callable_of_wide hwide)
    rw [hdispatched] at hrefused
    exact List.cons_ne_nil _ _ hrefused
  · intro hnone methodId msg len response responseCap
    refine ⟨fun hcallable => absurd hcallable (not_callable_of_wide hwide), fun _ => ?_⟩
    exact (hcalls methodId msg len response responseCap).2 (hnone methodId msg len)

/-- A flat CREATE request for an object of the sample factory's own table, which has
one object. -/
def factoryTableRequest (index : Nat) : Buffer :=
  Buffer.ofList
    ([0, 0, 0, 0, 6, 0, 0, 0,
      0, 0, 0, 0, 5, 0, 0, 0,
      0x40, 0, 0, 0, 0, 0, 0, 0, 0x50, 0, 0, 0, 0, 0, 0, 0,
      0x40, 0x10, 0, 0, 0, 0, 0, 0] ++ (List.range 8).map (byteOf index) ++
      [0x00, 0x30, 0, 0, 0, 0, 0, 0])

/-- An object created for object 0 answers for object 0. -/
theorem objectZero_answers :
    let c := sampleCreate (factoryTableRequest 0)
    let mem := bindFactory sampleImage sampleMemory
    (FactoryReady sampleImage mem ∧ FlatCreate sampleImage c ∧ rootWord c.msg 4 ≠ 0) ∧
      AnswersAsNamed idleCode (resultOf (factoryCode sampleImage idleCode) mem c).mem c := by
  intro c mem
  have hready := bindFactory_ready sampleImage sampleMemory_fresh.const
  have hc : FlatCreate sampleImage c :=
    ⟨rfl, rfl, by decide, by decide⟩
  have hstorage : rootWord c.msg 4 ≠ 0 := by decide
  refine ⟨⟨hready, hc, hstorage⟩, ?_⟩
  exact (created_answers_iff idleCode idleCode hready hc hstorage rfl).mpr (Or.inl (by decide))

/-- An object created for object `0x10000`, which the table does not have, answers
for object 0 all the same. -/
theorem wideIndex_answers_for_zero :
    let c := sampleCreate (factoryTableRequest 0x10000)
    let mem := bindFactory sampleImage sampleMemory
    let m := (resultOf (factoryCode sampleImage idleCode) mem c).mem
    (FactoryReady sampleImage mem ∧ FlatCreate sampleImage c ∧ rootWord c.msg 3 = 0x10000 ∧
        (loadDescriptor m sampleImage.factoryTable).objectCount = 1) ∧
      calls (kernelInvoke idleCode m (storageOf c) 0 flatRequest 56 ⟨false, fun _ => 0⟩ 24).log =
        [(0x40, 0x50, 0)] ∧
      ¬ AnswersAsNamed idleCode m c := by
  intro c mem m
  have hready := bindFactory_ready sampleImage sampleMemory_fresh.const
  have hcalls : calls (kernelInvoke idleCode m (storageOf c) 0 flatRequest 56
      ⟨false, fun _ => 0⟩ 24).log = [(0x40, 0x50, 0)] := by
    decide
  have hc : FlatCreate sampleImage c :=
    ⟨rfl, rfl, by decide, by decide⟩
  have hword : rootWord c.msg 3 = 0x10000 := by decide
  refine ⟨⟨hready, hc, hword, by decide⟩, hcalls, fun hanswers => ?_⟩
  obtain ⟨hrefused, -⟩ := (hanswers 0 flatRequest 56 ⟨false, fun _ => 0⟩ 24).2
    (not_callable_of_wide (by omega))
  rw [hcalls] at hrefused
  exact List.cons_ne_nil _ _ hrefused

end Cap
end Saski
