import Saski.Cap.ObjectRuns
import Saski.Cap.ResponseBuffer

/-!
# CREATE and its failures

`factory_handler` writes the record first and looks at the response buffer
afterwards, and `kernel_invoke` checks what stands in the buffer after that.  A
CREATE that comes back as failed may therefore have made its object: nothing is
undone on the way out.

The results below say what every flat-encoded CREATE leaves behind, and for which
requests, buffers and memories that is all of the object or nothing of it.  The
places that the call writes to must not overlap one another (`CreateApart`): a
record over the lock word is spoilt by `cap_unlock`, and one under the response
by the response.
-/

namespace Saski
namespace Cap

open ByteMemory Capnp Logged

/-! ## The request and its outcome -/

/-- A flat-encoded CREATE request to the factory. -/
structure FlatCreate (img : Image) (c : Call) : Prop where
  target : c.target = img.factoryRecord
  method : c.methodId = factoryMethodCreate
  flat : (ptrAt (segmentOf c.msg) 0).offsetWords = 0
  root : HasRootStruct c.msg c.len capCreateRequestWords

/-- The storage a CREATE request names; its address is the new object's handle. -/
def storageOf (c : Call) : Addr := BitVec.ofNat 64 (rootWord c.msg 4)

/-- What one call returns and leaves behind. -/
def resultOf (code : Code) (mem : Mem 64) (c : Call) : InvokeResult :=
  (kernelInvoke code mem c.target c.methodId c.msg c.len c.response c.responseCap).value

/-- The request as the kernel reads it, behind its first store. -/
abbrev CallAt.request (c : CallAt) (mem : Mem 64) : Call := c.call (c.begun mem)

/-- The storage of a request, if it is not null. -/
def namedStorage (c : Call) : Set Addr := {a | a = storageOf c ∧ a ≠ 0}

/-- What a CREATE writes to does not overlap: the storage is apart from the lock word, and
the two places for the response are apart from the storage, from the factory's objects and
the lock word, and from each other. -/
structure CreateApart (img : Image) (mem : Mem 64) (c : CallAt) : Prop where
  lock : ∀ a ∈ namedStorage (c.request mem), Separate a recordSize img.capLock 4
  outputs : ∀ x, Protected img (namedStorage (c.request mem)) x → ¬ c.Outputs x
  length : Separate c.outResponseLen 8 c.response c.responseCap

/-- The caller supplied a buffer with room for the 24 bytes of the response. -/
def HasBuffer (a : Arguments) : Prop := a.response ≠ 0 ∧ 24 ≤ a.responseCap

instance (a : Arguments) : Decidable (HasBuffer a) := inferInstanceAs (Decidable (_ ∧ _))

/-- The object exists and its creator knows: the call returned 1, the response of
24 bytes carries the storage as its handle, and the record there is live with what
the request asked for. -/
structure Created (mem : Mem 64) (c : CallAt) (r : Bool × Mem 64) : Prop where
  ret : r.1 = true
  length : load r.2 c.outResponseLen 8 = 24
  response : HasRootStruct (bufferAt r.2 c.response) 24 1
  handle : rootWord (bufferAt r.2 c.response) 0 = rootWord (c.request mem).msg 4
  live : (loadRecord r.2 (storageOf (c.request mem))).Live
  payload : (loadRecord r.2 (storageOf (c.request mem))).payload =
    rootPayload (c.request mem).msg

/-- The call failed, and every record is what it was, wherever it may be; what the response
is written over is no record. -/
def Untouched (mem : Mem 64) (c : CallAt) (r : Bool × Mem 64) : Prop :=
  r.1 = false ∧ ∀ a, (∀ x, InExtent a recordSize x → ¬ c.Outputs x) →
    loadRecord r.2 a = loadRecord mem a

/-- The memory with the requested record laid over the storage. -/
def overlay (mem : Mem 64) (c : Call) : Mem 64 :=
  storeFields mem (storageOf c) (createWrites (createPayload c.msg))

/-- The result schema of CREATE as it stands in the factory's method array. -/
def createResultSchema (img : Image) (mem : Mem 64) : Nat :=
  (loadMethodSchema mem (entryAddr img.factoryMethods methodSchemaSize 0)).resultSchema

/-- A struct of one data word and no pointers is what the schema asks for. -/
def OneWordFits (table : SchemaTable) (schema : Nat) : Prop :=
  schema = schemaIdxNone ∨
    (schema < table.structCount ∧ (table.structs schema).dataWords ≤ 1)

/-- The factory's own tables, as they stand in `mem`, admit the response of
CREATE. -/
def AdmitsResponse (img : Image) (mem : Mem 64) : Prop :=
  OneWordFits ((loadDescriptor mem img.factoryTable).table mem) (createResultSchema img mem)

/-! ## The response -/

/-- The response buffer after CREATE has answered. -/
def answerOf (handle : Nat) (bytes : Int → UInt8) : Int → UInt8 :=
  fun i => if 0 ≤ i ∧ i < 24 then createResponse handle i.toNat else bytes i

section Answer

variable (handle : Nat) (bytes : Int → UInt8) (isNull : Bool)

theorem answerOf_segments : (readBytes (answerOf handle bytes) 0 4).value = 0 := by
  have hzero : (readBytes (answerOf handle bytes) 0 4).value = 0 % 2 ^ (8 * 4) := by
    refine readBytes_eq fun i hi => ?_
    rw [answerOf, if_pos (by omega), createResponse, if_pos (by omega)]
    simp [byteOf]
  exact hzero

theorem answerOf_seg0Words : seg0Words ⟨isNull, answerOf handle bytes⟩ = 2 := by
  have hread : seg0Words ⟨isNull, answerOf handle bytes⟩ = 2 % 2 ^ (8 * 4) := by
    refine readBytes_eq fun i hi => ?_
    change answerOf handle bytes (4 + (i : Int)) = _
    rw [answerOf, if_pos (by omega), createResponse, if_neg (by omega), if_pos (by omega)]
    congr 1
    omega
  exact hread

theorem answerOf_root :
    ptrAt (segmentOf ⟨isNull, answerOf handle bytes⟩) 0 =
      { tag := .struct, offsetWords := 0, dataWords := 1, ptrWords := 0 } := by
  have hread : (readWord (segmentOf ⟨isNull, answerOf handle bytes⟩) 0).value =
      (1 <<< 32) % 2 ^ (8 * 8) := by
    refine readBytes_eq fun i hi => ?_
    change answerOf handle bytes (8 + 0 * 8 + (i : Int)) = _
    rw [answerOf, if_pos (by omega), createResponse, if_neg (by omega), if_neg (by omega),
      if_pos (by omega)]
    congr 1
    omega
  rw [ptrAt, hread]
  decide

/-- The data word of the response is the handle. -/
theorem answerOf_handle (hlt : handle < 2 ^ 64) :
    rootWord ⟨isNull, answerOf handle bytes⟩ 0 = handle := by
  have htarget : targetAt (segmentOf ⟨isNull, answerOf handle bytes⟩) 0 = 1 := by
    rw [targetAt, answerOf_root]
    rfl
  have hread : rootWord ⟨isNull, answerOf handle bytes⟩ 0 = handle % 2 ^ (8 * 8) := by
    unfold rootWord
    rw [htarget]
    refine readBytes_eq fun i hi => ?_
    change answerOf handle bytes (8 + (1 + 0) * 8 + (i : Int)) = _
    rw [answerOf, if_pos (by omega), createResponse, if_neg (by omega), if_neg (by omega),
      if_neg (by omega)]
    congr 1
    omega
  rw [hread, Nat.mod_eq_of_lt hlt]

/-- The response is a message with one data word. -/
theorem answerOf_hasRootStruct : HasRootStruct ⟨false, answerOf handle bytes⟩ 24 1 where
  notNull := rfl
  oneSegment := answerOf_segments handle bytes
  fits := by rw [answerOf_seg0Words]
  nonempty := by rw [answerOf_seg0Words]; decide
  tag := by rw [answerOf_root]
  inBounds := by
    rw [inBounds_iff, targetAt, answerOf_root]
    change _ ∧ _ ≤ ((seg0Words ⟨false, answerOf handle bytes⟩ : Nat) : Int)
    rw [answerOf_seg0Words]
    decide
  words := by rw [answerOf_root]

/-- What the response conforms to. -/
theorem answerOf_conforms_iff (table : SchemaTable) (schema : Nat) :
    Conforms ⟨false, answerOf handle bytes⟩ 24 (some table) schema ↔
      OneWordFits table schema := by
  by_cases hnone : schema = schemaIdxNone
  · exact iff_of_true (Or.inl hnone) (Or.inl hnone)
  have hroot := answerOf_hasRootStruct handle bytes
  unfold OneWordFits
  rw [conforms_iff, value_capnpValidateMessage _ _ _ hnone, RootAccepts, answerOf_root,
    value_validateStructAt, value_validateStructAt]
  constructor
  · rintro ⟨hlt, -, -, -, -, ⟨htag, -⟩ | ⟨-, -, hstruct⟩⟩
    · exact absurd htag (by decide)
    · exact Or.inr ⟨hlt, (hstruct.resolve_left hnone).2.1⟩
  · intro hfits
    obtain ⟨hlt, hwords⟩ := hfits.resolve_left hnone
    have hin := hroot.inBounds
    rw [answerOf_root] at hin
    refine ⟨hlt, rfl, hroot.oneSegment, hroot.fits, hroot.nonempty, Or.inr ⟨rfl, hin, ?_⟩⟩
    exact Or.inr ⟨hlt, hwords, fun i hi => by simp at hi⟩

end Answer

/-- No buffer and no bytes conform to no schema. -/
theorem not_conforms_of_empty {msg : Buffer} {len : Nat} {table : SchemaTable} {schema : Nat}
    (hschema : schema ≠ schemaIdxNone) (hempty : msg.isNull = true ∨ len = 0) :
    ¬ Conforms msg len (some table) schema := by
  rw [conforms_iff, value_capnpValidateMessage _ _ _ hschema]
  rintro ⟨-, hnull, -, hfits, -⟩
  rcases hempty with htrue | rfl
  · rw [htrue] at hnull
    exact absurd hnull (by decide)
  · omega

/-- The bytes of the answer in memory. -/
theorem storeMembers_answerMembers (mem : Mem 64) (a : Addr) (handle : Nat) {i : Nat}
    (hi : i < 24) :
    storeMembers mem a (answerMembers handle) (a + BitVec.ofNat 64 i) =
      createResponse handle i := by
  have hbyte : ∀ (m : Mem 64) (off n v : Nat), off + n ≤ 24 →
      store m (a + BitVec.ofNat 64 off) n v (a + BitVec.ofNat 64 i) =
        if off ≤ i ∧ i < off + n then byteOf v (i - off) else m (a + BitVec.ofNat 64 i) :=
    fun m off n v hfit => store_add m a v (by omega) (by omega)
  unfold storeMembers answerMembers createResponse
  simp only [List.foldl_cons, List.foldl_nil]
  rw [hbyte _ 16 8 _ (by decide), hbyte _ 8 8 _ (by decide)]
  by_cases hhandle : 16 ≤ i
  · rw [if_pos (by omega), if_neg (by omega), if_neg (by omega), if_neg (by omega)]
  rw [if_neg (by omega)]
  by_cases hroot : 8 ≤ i
  · rw [if_pos (by omega), if_neg (by omega), if_neg (by omega), if_pos (by omega)]
  -- The header, byte by byte.
  rw [if_neg (by omega), hbyte _ 7 1 _ (by decide), hbyte _ 6 1 _ (by decide),
    hbyte _ 5 1 _ (by decide), hbyte _ 4 1 _ (by decide), hbyte _ 3 1 _ (by decide),
    hbyte _ 2 1 _ (by decide), hbyte _ 1 1 _ (by decide), hbyte _ 0 1 _ (by decide)]
  have hlt : i < 8 := by omega
  clear hbyte hi hhandle hroot
  interval_cases i <;> simp [byteOf]

/-- With room for it, the response is the answer of the handler. -/
theorem bufferAt_answer {a : Arguments} (handle : Nat) (mem : Mem 64) (hroom : 24 ≤ a.responseCap)
    (hlength : Separate a.outResponseLen 8 a.response a.responseCap) :
    bufferAt (answer a handle mem) a.response =
      ⟨a.response == 0, answerOf handle (bufferAt (answer a handle mem) a.response).bytes⟩ := by
  unfold answerOf
  rw [bufferAt, Buffer.mk.injEq]
  refine ⟨rfl, funext fun i => ?_⟩
  split
  case isTrue hi =>
    obtain ⟨k, rfl⟩ := Int.eq_ofNat_of_zero_le hi.1
    have hk : k < 24 := by omega
    have hin : InExtent a.response a.responseCap (a.response + BitVec.ofNat 64 k) := by
      unfold InExtent
      rw [toNat_add_ofNat_sub _ (by omega)]
      omega
    rw [BitVec.ofInt_natCast, Int.toNat_natCast, answer, if_pos hroom,
      store_of_not_inExtent (hlength.symm _ hin), storeMembers_answerMembers _ _ _ hk]
  case isFalse => rfl

/-! ## The two halves of the call -/

section Request

variable {img : Image} {mem : Mem 64} {c : Call}

theorem FlatCreate.wordOf_eq (hc : FlatCreate img c) (k : Nat) :
    wordOf c.msg k = rootWord c.msg k :=
  wordOf_eq_rootWord hc.flat k

theorem FlatCreate.rootWord_lt (hc : FlatCreate img c) (k : Nat) : rootWord c.msg k < 2 ^ 64 := by
  rw [← hc.wordOf_eq]
  exact wordOf_lt c.msg k

theorem FlatCreate.gateOpen (hc : FlatCreate img c) (hready : FactoryReady img mem) :
    GateOpen mem c.target c.methodId c.msg c.len 0 := by
  rw [hc.target, hc.method]
  exact hready.gateOpen_iff.mpr ⟨⟨0, 0, 1⟩, rfl, rfl, hc.root⟩

theorem FlatCreate.methodAddrOf_eq (hc : FlatCreate img c) (hready : FactoryReady img mem) :
    methodAddrOf mem c.target 0 = entryAddr img.factoryMethods methodSchemaSize 0 := by
  unfold methodAddrOf
  rw [hc.target, hready.tableAddrOf_eq, hready.descriptor]
  rfl

theorem FlatCreate.storage_mem (hc : FlatCreate img c) (hstorage : rootWord c.msg 4 ≠ 0) :
    storageOf c ∈ namedStorage c := by
  refine ⟨rfl, fun hzero => hstorage ?_⟩
  have hword := congrArg BitVec.toNat hzero
  rwa [storageOf, BitVec.toNat_ofNat, Nat.mod_eq_of_lt (hc.rootWord_lt 4)] at hword

/-- The record write of the request. -/
theorem FlatCreate.write_eq (hc : FlatCreate img c) (hstorage : rootWord c.msg 4 ≠ 0) :
    applyRecordWrite mem (factoryWrite img c.methodId c.msg mem) = overlay mem c := by
  unfold factoryWrite
  rw [if_pos hc.method, hc.wordOf_eq, if_neg hstorage]
  rfl

/-- The storage holds the requested record in the overlay. -/
theorem FlatCreate.loadRecord_overlay (hc : FlatCreate img c) (mem : Mem 64) :
    loadRecord (overlay mem c) (storageOf c) = (rootPayload c.msg).record := by
  unfold overlay
  rw [loadRecord_storeFields, applyWrites_createWrites]
  ext f
  cases f <;> simp [Payload.record, Payload.stored, createPayload, rootPayload, hc.wordOf_eq]

/-- A record that is already there is not changed by being written again. -/
theorem FlatCreate.overlay_eq_self (hc : FlatCreate img c)
    (hsame : loadRecord mem (storageOf c) = (rootPayload c.msg).record) :
    overlay mem c = mem := by
  apply storeFields_createWrites_eq_self
  rw [hsame]
  ext f
  cases f <;> simp [Payload.record, Payload.stored, createPayload, rootPayload, hc.wordOf_eq]

/-- With storage the record is written, whatever comes of the call. -/
theorem FlatCreate.mem_resultOf (hc : FlatCreate img c) (hready : FactoryReady img mem)
    (others : Code) (hstorage : rootWord c.msg 4 ≠ 0) :
    (resultOf (factoryCode img others) mem c).mem = overlay mem c := by
  have hhandler : loadRecord mem c.target .handler = img.factoryHandler.toNat := by
    rw [hc.target]
    exact hready.handler
  have hmem := invoke_of_dispatched (factoryCode img others) ⟨0, hc.gateOpen hready⟩
  rw [handlerRun_factoryCode others hhandler] at hmem
  exact hmem.trans (hc.write_eq hstorage)

end Request

section Factory

variable {img : Image} {mem : Mem 64}

theorem loadSchemaTable_factoryTable (img : Image) (mem : Mem 64) :
    loadSchemaTable mem img.factoryTable =
      some ((loadDescriptor mem img.factoryTable).table mem) :=
  if_neg img.factoryTable_ne_zero

/-- A ready factory answers CREATE with a struct of its second schema. -/
theorem FactoryReady.createResultSchema_eq (hready : FactoryReady img mem) :
    createResultSchema img mem = 1 := by
  unfold createResultSchema
  rw [← Option.some.inj (hready.const.methods 0 (by decide))]

theorem FactoryReady.admitsResponse (hready : FactoryReady img mem) : AdmitsResponse img mem := by
  unfold AdmitsResponse
  rw [hready.createResultSchema_eq, hready.descriptor]
  refine Or.inr ⟨by simp [TableDescriptor.table, factoryDescriptor], ?_⟩
  rw [← Option.some.inj (hready.isFactoryTable.structs 1 (by decide))]

/-- The check behind the handler of CREATE. -/
def checkCreate (img : Image) (a : Arguments) (mem : Mem 64) : Bool × Mem 64 :=
  finish a img.factoryTable (entryAddr img.factoryMethods methodSchemaSize 0) mem

/-- It lets pass what conforms to the factory's tables. -/
theorem checkCreate_cases (img : Image) (a : Arguments) (mem : Mem 64) :
    let conforms := Conforms (bufferAt mem a.response) (load mem a.outResponseLen 8)
      (some ((loadDescriptor mem img.factoryTable).table mem)) (createResultSchema img mem)
    (conforms ∧ checkCreate img a mem = (true, mem)) ∨
      (¬ conforms ∧ (checkCreate img a mem).1 = false) := by
  intro conforms
  unfold checkCreate finish
  rw [loadSchemaTable_factoryTable]
  dsimp only
  rw [show (loadMethodSchema mem (entryAddr img.factoryMethods methodSchemaSize 0)).resultSchema =
    createResultSchema img mem from rfl]
  by_cases hnone : createResultSchema img mem = schemaIdxNone
  · exact Or.inl ⟨Or.inl hnone, if_pos hnone⟩
  rw [if_neg hnone]
  by_cases haccept : conforms
  · exact Or.inl ⟨haccept, if_pos ((conforms_iff _ _ _ _).mp haccept)⟩
  · right
    refine ⟨haccept, ?_⟩
    rw [if_neg fun hvalue => haccept ((conforms_iff _ _ _ _).mpr hvalue)]

/-- A ready factory's CREATE cannot succeed without a response. -/
theorem FactoryReady.checkCreate_of_empty (hready : FactoryReady img mem) {a : Arguments}
    (hempty : a.response = 0 ∨ load mem a.outResponseLen 8 = 0) :
    (checkCreate img a mem).1 = false := by
  have hschema : createResultSchema img mem ≠ schemaIdxNone := by
    rw [hready.createResultSchema_eq]
    decide
  have hbuffer : (bufferAt mem a.response).isNull = true ∨ load mem a.outResponseLen 8 = 0 :=
    hempty.imp_left fun hnull => beq_iff_eq.mpr hnull
  rcases checkCreate_cases img a mem with ⟨hconforms, -⟩ | ⟨-, hfails⟩
  · exact absurd hconforms (not_conforms_of_empty hschema hbuffer)
  · exact hfails

end Factory

section Create

variable {img : Image} {mem : Mem 64} {c : CallAt}

/-- Memory behind the handler. -/
abbrev CallAt.handled (img : Image) (mem : Mem 64) (c : CallAt) : Mem 64 :=
  Cap.handled img c.toArguments (c.begun mem)

theorem CreateApart.ready_begun (hapart : CreateApart img mem c) (hready : FactoryReady img mem) :
    FactoryReady img (c.begun mem) :=
  hready.of_agree fun x hx => c.begun_of_not_outputs (hapart.outputs x (.inl hx))

theorem CreateApart.free_begun (hapart : CreateApart img mem c) (hfree : LockFree img mem) :
    LockFree img (c.begun mem) := by
  refine (load_congr (by decide) fun x hx => ?_).trans hfree
  exact c.begun_of_not_outputs (hapart.outputs x (.inr (.inl hx)))

/-- The kernel's half: the call returns what the check makes of the handler's memory. -/
theorem FlatCreate.kernelInvokeAt_eq (hc : FlatCreate img (c.request mem))
    (hapart : CreateApart img mem c) (hready : FactoryReady img mem) (hfree : LockFree img mem)
    (others : CodeAt) :
    kernelInvokeAt img (factoryCodeAt img others) mem c =
      some (checkCreate img c.toArguments (c.handled img mem)) := by
  have hbegun := hapart.ready_begun hready
  have htarget : c.target = img.factoryRecord := hc.target
  have hsep : Separate c.target recordSize img.capLock 4 := by
    rw [htarget]
    exact img.record_separate_lock
  have hhandler : loadRecord (c.begun mem) c.target .handler = img.factoryHandler.toNat := by
    rw [htarget]
    exact hbegun.handler
  have hclear : LockClear img c.methodId (bufferAt (c.begun mem) c.msg) := by
    constructor
    · intro _
      by_cases hstorage : rootWord (c.request mem).msg 4 = 0
      · exact Or.inl ((hc.wordOf_eq 4).trans hstorage)
      · right
        rw [show wordOf (bufferAt (c.begun mem) c.msg) 4 = _ from hc.wordOf_eq 4]
        exact hapart.lock _ (hc.storage_mem hstorage)
    · intro hdestroy
      exact absurd (hc.method.symm.trans hdestroy) (by decide)
  have hmethod : methodAddrOf (c.begun mem) c.target 0 =
      entryAddr img.factoryMethods methodSchemaSize 0 := hc.methodAddrOf_eq hbegun
  rw [kernelInvokeAt_handled others (hapart.free_begun hfree) hsep hhandler hclear
    (hc.gateOpen hbegun), hmethod, htarget, hbegun.tableAddrOf_eq]
  rfl

/-- The handler's half: the record, then the answer if there is room for it. -/
theorem FlatCreate.handled_eq (hc : FlatCreate img (c.request mem))
    (hstorage : rootWord (c.request mem).msg 4 ≠ 0) :
    c.handled img mem =
      answer c.toArguments (rootWord (c.request mem).msg 4)
        (overlay (c.begun mem) (c.request mem)) := by
  have hword : wordOf (bufferAt (c.begun mem) c.msg) 4 = rootWord (c.request mem).msg 4 :=
    hc.wordOf_eq 4
  unfold CallAt.handled Cap.handled
  dsimp only
  rw [hword, if_pos ⟨hc.method, hstorage⟩]
  exact congrArg _ (hc.write_eq hstorage)

/-- With storage at null the handler does nothing. -/
theorem FlatCreate.handled_of_null (hc : FlatCreate img (c.request mem))
    (hnull : rootWord (c.request mem).msg 4 = 0) : c.handled img mem = c.begun mem := by
  have hword : wordOf (bufferAt (c.begun mem) c.msg) 4 = 0 := (hc.wordOf_eq 4).trans hnull
  have hmethod : c.methodId = factoryMethodCreate := hc.method
  unfold CallAt.handled Cap.handled factoryWrite
  dsimp only
  rw [if_neg fun h => h.2 hword, if_pos hmethod, if_pos hword]
  rfl

/-- Without storage the call fails and does nothing. -/
theorem FlatCreate.untouched_of_null (hc : FlatCreate img (c.request mem))
    (hapart : CreateApart img mem c) (hready : FactoryReady img mem)
    (hnull : rootWord (c.request mem).msg 4 = 0) :
    Untouched mem c (checkCreate img c.toArguments (c.handled img mem)) := by
  rw [hc.handled_of_null hnull]
  have hlength : load (c.begun mem) c.outResponseLen 8 = 0 := load_store_same _ _ 0 (by decide)
  refine ⟨(hapart.ready_begun hready).checkCreate_of_empty (Or.inr hlength), fun a ha => ?_⟩
  apply loadRecord_of_sameBytes
  refine sameBytes_of_agree (by decide) fun x hx => ?_
  rw [checkCreate, finish_of_not_outputs _ _ _ (ha x hx), c.begun_of_not_outputs (ha x hx)]

section Storage

variable (hc : FlatCreate img (c.request mem)) (hapart : CreateApart img mem c)
  (hstorage : rootWord (c.request mem).msg 4 ≠ 0)

include hc hstorage

/-- Outside of the response, the call lays the record over the storage. -/
theorem FlatCreate.checkCreate_of_not_outputs {x : Addr} (hx : ¬ c.Outputs x) :
    (checkCreate img c.toArguments (c.handled img mem)).2 x =
      overlay (c.begun mem) (c.request mem) x := by
  rw [checkCreate, finish_of_not_outputs _ _ _ hx, hc.handled_eq hstorage,
    answer_of_not_outputs _ _ hx]

include hapart

theorem FlatCreate.storage_not_outputs {x : Addr}
    (hx : InExtent (storageOf (c.request mem)) recordSize x) : ¬ c.Outputs x :=
  hapart.outputs x (.inr (.inr ⟨_, hc.storage_mem hstorage, hx⟩))

/-- So the record stands at the storage, whatever comes of the call. -/
theorem FlatCreate.loadRecord_checkCreate :
    loadRecord (checkCreate img c.toArguments (c.handled img mem)).2
      (storageOf (c.request mem)) = (rootPayload (c.request mem).msg).record := by
  rw [← hc.loadRecord_overlay (c.begun mem)]
  apply loadRecord_of_sameBytes
  refine sameBytes_of_agree (by decide) fun x hx => hc.checkCreate_of_not_outputs hstorage ?_
  exact hc.storage_not_outputs hapart hstorage hx

/-- The length of the response is 24 if there is room for it. -/
theorem FlatCreate.load_handled :
    load (c.handled img mem) c.outResponseLen 8 = if 24 ≤ c.responseCap then 24 else 0 := by
  rw [hc.handled_eq hstorage, answer]
  by_cases hroom : 24 ≤ c.responseCap
  · rw [if_pos hroom, if_pos hroom]
    exact load_store_same _ _ 24 (by decide)
  · rw [if_neg hroom, if_neg hroom]
    have hkept : load (overlay (c.begun mem) (c.request mem)) c.outResponseLen 8 =
        load (c.begun mem) c.outResponseLen 8 := by
      refine load_congr (by decide) fun x hx => storeFields_of_not_inExtent _ _ _ fun hin => ?_
      exact hc.storage_not_outputs hapart hstorage hin (.inl hx)
    exact hkept.trans (load_store_same _ _ 0 (by decide))

/-- What is in the buffer is the answer of the handler. -/
theorem FlatCreate.bufferAt_handled (hbuffer : HasBuffer c.toArguments) :
    bufferAt (c.handled img mem) c.response =
      ⟨false, answerOf (rootWord (c.request mem).msg 4)
        (bufferAt (c.handled img mem) c.response).bytes⟩ := by
  have hresponse := bufferAt_answer (rootWord (c.request mem).msg 4)
    (overlay (c.begun mem) (c.request mem)) hbuffer.2 hapart.length
  rwa [← hc.handled_eq hstorage, beq_eq_false_iff_ne.mpr hbuffer.1] at hresponse

/-- With a buffer the call answers if the factory's tables admit the response. -/
theorem FlatCreate.checkCreate_of_buffer (hbuffer : HasBuffer c.toArguments) :
    (AdmitsResponse img (c.handled img mem) →
        checkCreate img c.toArguments (c.handled img mem) = (true, c.handled img mem)) ∧
      (¬ AdmitsResponse img (c.handled img mem) →
        (checkCreate img c.toArguments (c.handled img mem)).1 = false) := by
  have hconforms := answerOf_conforms_iff (rootWord (c.request mem).msg 4)
    (bufferAt (c.handled img mem) c.response).bytes
    ((loadDescriptor (c.handled img mem) img.factoryTable).table (c.handled img mem))
    (createResultSchema img (c.handled img mem))
  rw [← hc.bufferAt_handled hapart hstorage hbuffer] at hconforms
  have hcases := checkCreate_cases img c.toArguments (c.handled img mem)
  rw [hc.load_handled hapart hstorage, if_pos hbuffer.2] at hcases
  rcases hcases with ⟨hyes, hcheck⟩ | ⟨hno, hcheck⟩
  · exact ⟨fun _ => hcheck, fun hrefuse => absurd (hconforms.mp hyes) hrefuse⟩
  · exact ⟨fun hadmits => absurd (hconforms.mpr hadmits) hno, fun _ => hcheck⟩

/-- The record keeps 16 bits of the schema index. -/
theorem FlatCreate.index_lt_of_created
    (hcreated : Created mem c (checkCreate img c.toArguments (c.handled img mem))) :
    rootWord (c.request mem).msg 3 < 2 ^ 16 := by
  have hindex := congrArg Payload.schemaIndex hcreated.payload
  rw [hc.loadRecord_checkCreate hapart hstorage, Payload.payload_record] at hindex
  have hkept : rootWord (c.request mem).msg 3 % 2 ^ 16 = rootWord (c.request mem).msg 3 := hindex
  rw [← hkept]
  exact Nat.mod_lt _ (by decide)

/-- If the index fits and the tables admit the response, then all is done. -/
theorem FlatCreate.created_of_admits (hbuffer : HasBuffer c.toArguments)
    (hindex : rootWord (c.request mem).msg 3 < 2 ^ 16)
    (hadmits : AdmitsResponse img (c.handled img mem)) :
    Created mem c (checkCreate img c.toArguments (c.handled img mem)) := by
  have hcheck := (hc.checkCreate_of_buffer hapart hstorage hbuffer).1 hadmits
  have hresponse := hc.bufferAt_handled hapart hstorage hbuffer
  have hrecord := hc.loadRecord_checkCreate hapart hstorage
  refine ⟨congrArg Prod.fst hcheck, ?_, ?_, ?_, ?_, ?_⟩
  · rw [hcheck, hc.load_handled hapart hstorage, if_pos hbuffer.2]
  · rw [hcheck, hresponse]
    exact answerOf_hasRootStruct _ _
  · rw [hcheck, hresponse]
    exact answerOf_handle _ _ _ (hc.rootWord_lt 4)
  · rw [hrecord]
    exact Payload.record_live _
  · rw [hrecord, Payload.payload_record]
    unfold Payload.stored rootPayload
    simp only [Nat.mod_eq_of_lt (hc.rootWord_lt _), Nat.mod_eq_of_lt hindex]

/-- Only with a buffer does a creator get to know the object. -/
theorem FlatCreate.hasBuffer_of_created
    (hcreated : Created mem c (checkCreate img c.toArguments (c.handled img mem))) :
    HasBuffer c.toArguments := by
  have hnull := hcreated.response.notNull
  refine ⟨beq_eq_false_iff_ne.mp hnull, ?_⟩
  rcases checkCreate_cases img c.toArguments (c.handled img mem) with ⟨-, hcheck⟩ | ⟨-, hcheck⟩
  · have hlength := hcreated.length
    rw [hcheck, hc.load_handled hapart hstorage] at hlength
    by_contra hroom
    rw [if_neg hroom] at hlength
    exact absurd hlength (by decide)
  · exact absurd (hcreated.ret.symm.trans hcheck) (by decide)

/-- The factory stays ready if its objects are apart from the storage, or if the record stood
there before. -/
theorem FlatCreate.ready_handled (hready : FactoryReady img mem)
    (hkept : ∀ x, img.Owns x → overlay (c.begun mem) (c.request mem) x = c.begun mem x) :
    FactoryReady img (c.handled img mem) := by
  refine (hapart.ready_begun hready).of_agree fun x hx => ?_
  rw [hc.handled_eq hstorage, answer_of_not_outputs _ _ (hapart.outputs x (.inl hx)), hkept x hx]

/-- A call that leaves all records alone found its own record at the storage. -/
theorem FlatCreate.stands_of_untouched
    (hkept : Untouched mem c (checkCreate img c.toArguments (c.handled img mem))) :
    loadRecord mem (storageOf (c.request mem)) = (rootPayload (c.request mem).msg).record :=
  (hkept.2 _ fun _ => hc.storage_not_outputs hapart hstorage).symm.trans
    (hc.loadRecord_checkCreate hapart hstorage)

section Stands

variable (hstands : loadRecord mem (storageOf (c.request mem)) =
  (rootPayload (c.request mem).msg).record)

include hstands

/-- To write a record over itself changes nothing. -/
theorem FlatCreate.overlay_of_stands :
    overlay (c.begun mem) (c.request mem) = c.begun mem := by
  apply hc.overlay_eq_self
  rw [← hstands]
  apply loadRecord_of_sameBytes
  exact sameBytes_of_agree (by decide) fun x hx =>
    c.begun_of_not_outputs (hc.storage_not_outputs hapart hstorage hx)

theorem FlatCreate.ready_of_stands (hready : FactoryReady img mem) :
    FactoryReady img (c.handled img mem) :=
  hc.ready_handled hapart hstorage hready fun x _ =>
    congrFun (hc.overlay_of_stands hapart hstorage hstands) x

/-- Without a buffer, the call then fails and does nothing. -/
theorem FlatCreate.untouched_of_stands (hready : FactoryReady img mem)
    (hbuffer : ¬ HasBuffer c.toArguments) :
    Untouched mem c (checkCreate img c.toArguments (c.handled img mem)) := by
  -- Either there is no buffer at all, or there is no room in it.
  have hempty : c.response = 0 ∨ load (c.handled img mem) c.outResponseLen 8 = 0 := by
    rw [hc.load_handled hapart hstorage]
    by_cases hnull : c.response = 0
    · exact Or.inl hnull
    · exact Or.inr (if_neg fun hroom => hbuffer ⟨hnull, hroom⟩)
  have hstays := hc.ready_of_stands hapart hstorage hstands hready
  refine ⟨hstays.checkCreate_of_empty hempty, fun a ha => ?_⟩
  apply loadRecord_of_sameBytes
  refine sameBytes_of_agree (by decide) fun x hx => ?_
  rw [hc.checkCreate_of_not_outputs hstorage (ha x hx),
    hc.overlay_of_stands hapart hstorage hstands, c.begun_of_not_outputs (ha x hx)]

end Stands

end Storage

end Create

/-! ## All or nothing -/

/-- The sample call with `responseCap` bytes for the response. -/
def roomCall (responseCap : Nat) : CallAt :=
  { sampleTurn₁.call with responseCap := responseCap }

section Sample

variable (n : Nat)

theorem roomCall_request : FlatCreate sampleImage ((roomCall n).request sampleTurn₁.mem) where
  target := rfl
  method := rfl
  flat := by
    change (ptrAt (segmentOf (sampleTurn₁.call.request sampleTurn₁.mem).msg) 0).offsetWords = 0
    decide +kernel
  root := by
    change HasRootStruct (sampleTurn₁.call.request sampleTurn₁.mem).msg 56 capCreateRequestWords
    decide +kernel

theorem roomCall_storage : storageOf ((roomCall n).request sampleTurn₁.mem) = 0x3000#64 := by
  change storageOf (sampleTurn₁.call.request sampleTurn₁.mem) = 0x3000#64
  decide +kernel

theorem sampleTurn₁_own : OwnTurn sampleImage {0x3000#64} sampleBooted sampleTurn₁ :=
  sampleTurn_own (by rintro a rfl; decide) sampleBooted 0x1000#64 0 (by decide)

theorem sampleTurn₁_ready : FactoryReady sampleImage sampleTurn₁.mem ∧
    LockFree sampleImage sampleTurn₁.mem := by
  obtain ⟨hready, hfree⟩ := ready_of_bootstrapAt sampleMemory_fresh sampleBooted_eq
  exact ⟨hready.of_agree fun x hx => sampleTurn₁_own.same x (.inl hx),
    hfree.of_agree sampleTurn₁_own.same⟩

/-- A shorter response takes no more place. -/
theorem roomCall_apart (hn : n ≤ 24) : CreateApart sampleImage sampleTurn₁.mem (roomCall n) := by
  have hstorage : ∀ a ∈ namedStorage ((roomCall n).request sampleTurn₁.mem), a = 0x3000#64 :=
    fun a ha => ha.1.trans (roomCall_storage n)
  constructor
  · intro a ha
    rw [hstorage a ha]
    exact (separate_of_toNat_le (by decide) (by decide)).symm
  · intro x hx houtput
    have hprotected : Protected sampleImage {0x3000#64} x := by
      rcases hx with howns | hlock | ⟨a, ha, hin⟩
      · exact .inl howns
      · exact .inr (.inl hlock)
      · exact .inr (.inr ⟨a, hstorage a ha, hin⟩)
    exact sampleTurn₁_own.outputs x hprotected (houtput.imp_right fun hin => extent_mono _ hn hin)
  · have hsep : Separate 0x7100#64 8 0x7000#64 24 :=
      (separate_of_toNat_le (by decide) (by decide)).symm
    exact fun x hx hin => hsep x hx (extent_mono _ hn hin)

end Sample

-- With the response over the storage the call returns 1, and the record is spoilt.
example :
    (kernelInvokeAt sampleImage (factoryCodeAt sampleImage idleCodeAt) sampleTurn₁.mem
      { roomCall 24 with response := 0x3000#64 }).map
        (fun r => (r.1, (loadRecord r.2 0x3000#64).object)) = some (true, none) := by
  decide +kernel

end Cap
end Saski
