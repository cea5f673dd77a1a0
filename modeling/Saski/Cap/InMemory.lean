import Saski.Cap.FactoryRuns
import Saski.Lib.MemoryPatch

/-!
# The capability layer in one memory (`kernel/cap.c`)

`kernelInvoke` and `factoryHandler` keep the lock word, the request and the places
for the response apart from the memory with the records.  In the C code they are in
the same memory: `cap_lock` and `cap_unlock` store to `g_cap_lock`, the request is
read from where the caller put it, and the response goes through two pointers of the
caller.  Here the functions are written once more with addresses for all of them.

* A lock that is not free is waited for, which has no result.
* With a free lock that the record does not overlap, taking and releasing it leaves
  no trace.  So a call reaches its handler exactly behind the gate of `kernelInvoke`
  (`admission_eq_dispatch_iff`), and the handler's record write is that of
  `factoryHandler` (`factoryHandlerAt_eq`).
* Outside of the places for the response, a call on the factory changes memory as
  `invoke` does (`kernelInvokeAt_factory`), and bootstrap as `kernelCapBootstrap` does
  (`kernelCapBootstrapAt_eq`).
-/

namespace Saski
namespace Cap

open ByteMemory Capnp Logged

/-! ## The lock word -/

/-- `cap_lock`: with a word that is not zero it waits. -/
def capLock (img : Image) (mem : Mem 64) : Option (Mem 64) :=
  if load mem img.capLock 4 = 0 then some (store mem img.capLock 4 1) else none

/-- `cap_unlock` -/
def capUnlock (img : Image) (mem : Mem 64) : Mem 64 := store mem img.capLock 4 0

/-- The lock is free. -/
def LockFree (img : Image) (mem : Mem 64) : Prop := load mem img.capLock 4 = 0

instance (img : Image) (mem : Mem 64) : Decidable (LockFree img mem) :=
  inferInstanceAs (Decidable (_ = _))

section Lock

variable {img : Image} {mem : Mem 64} (hfree : LockFree img mem)

include hfree

theorem capLock_of_free : capLock img mem = some (store mem img.capLock 4 1) := if_pos hfree

theorem capUnlock_of_free : capUnlock img mem = mem := store_eq_self hfree

theorem capUnlock_held : capUnlock img (store mem img.capLock 4 1) = mem := by
  rw [capUnlock, store_store]
  exact capUnlock_of_free hfree

/-- The fields of a record that does not overlap the lock word, written under the lock. -/
theorem capUnlock_storeFields {r : Addr} (hr : Separate r recordSize img.capLock 4)
    (ws : FieldWrites) :
    capUnlock img (storeFields (store mem img.capLock 4 1) r ws) = storeFields mem r ws := by
  funext x
  by_cases hx : InExtent img.capLock 4 x
  · have hout : ¬ InExtent r recordSize x := fun hin => hr x hin hx
    rw [storeFields_of_not_inExtent mem r ws hout]
    -- The byte of the lock word is the zero that it was.
    have hzero := congrFun (capUnlock_of_free hfree) x
    rw [← hzero]
    unfold capUnlock store
    rw [if_pos hx, if_pos hx]
  · have hsame : store mem img.capLock 4 1 x = mem x := store_of_not_inExtent hx
    rw [capUnlock, store_of_not_inExtent hx, storeFields_congr hsame]

end Lock

theorem loadRecord_store_separate {mem : Mem 64} {r a : Addr} {n v : Nat}
    (h : Separate r recordSize a n) : loadRecord (store mem a n v) r = loadRecord mem r := by
  apply loadRecord_of_sameBytes
  exact sameBytes_of_agree (by decide) fun x hx => store_of_not_inExtent (h x hx)

theorem Image.record_separate_lock (img : Image) :
    Separate img.factoryRecord recordSize img.capLock 4 :=
  img.separate_capLock img.mem_statics_record

/-! ## Bootstrap -/

/-- `kernel_cap_bootstrap` -/
def kernelCapBootstrapAt (img : Image) (mem : Mem 64) :
    Option (InitialCapabilities × Mem 64) :=
  let caps : InitialCapabilities := ⟨1, img.factoryRecord.toNat⟩
  if alreadyBootstrapped img mem then
    (capLock img mem).map fun mem => (caps, capUnlock img mem)
  else some (caps, bindFactory img (store mem img.capLock 4 0))

/-- Binding the factory and freeing the lock do not get in each other's way. -/
theorem bindFactory_store_lock (img : Image) (mem : Mem 64) :
    bindFactory img (store mem img.capLock 4 0) = store (bindFactory img mem) img.capLock 4 0 := by
  funext x
  by_cases hx : InExtent img.capLock 4 x
  · have hrecord : ¬ InExtent img.factoryRecord recordSize x := fun hin =>
      img.record_separate_lock x hin hx
    have htable : ¬ InExtent img.factoryTable schemaTableSize x := fun hin =>
      img.separate_capLock img.mem_statics_table x hin hx
    rw [bindFactory_of_not_inExtent img _ hrecord htable]
    unfold store
    rw [if_pos hx, if_pos hx]
  · have hsame : store mem img.capLock 4 0 x = mem x := store_of_not_inExtent hx
    rw [store_of_not_inExtent hx]
    exact storeFields_congr (storeMembers_congr hsame _ _) _ _

/-- The function of the level above, with the lock word in its place. -/
theorem kernelCapBootstrapAt_eq (img : Image) (mem : Mem 64) :
    kernelCapBootstrapAt img mem =
      (kernelCapBootstrap img ⟨mem, load mem img.capLock 4⟩).map fun r =>
        (r.1, store r.2.mem img.capLock 4 r.2.capLock) := by
  unfold kernelCapBootstrapAt kernelCapBootstrap
  by_cases hshared : alreadyBootstrapped img mem = true
  · simp only [hshared, if_true]
    by_cases hfree : LockFree img mem
    · have hword : load mem img.capLock 4 = 0 := hfree
      have hsame : store mem img.capLock 4 0 = mem := capUnlock_of_free hfree
      simp [capLock_of_free hfree, capUnlock_held hfree, hword, hsame]
    · have hword : load mem img.capLock 4 ≠ 0 := hfree
      simp [capLock, hword]
  · simp only [hshared, Bool.false_eq_true, if_false, Option.map_some, bindFactory_store_lock]

/-- The first bootstrap leaves the factory ready and the lock free. -/
theorem ready_of_bootstrapAt {img : Image} {mem mem₀ : Mem 64} {caps : InitialCapabilities}
    (hfresh : FreshImage img mem) (hboot : kernelCapBootstrapAt img mem = some (caps, mem₀)) :
    FactoryReady img mem₀ ∧ LockFree img mem₀ := by
  rw [kernelCapBootstrapAt_eq, kernelCapBootstrap_of_fresh hfresh, Option.map_some,
    Option.some.injEq, Prod.mk.injEq] at hboot
  obtain ⟨-, rfl⟩ := hboot
  constructor
  · apply (bindFactory_ready img hfresh.const).of_agree
    rintro x ⟨p, hp, hin⟩
    exact store_of_not_inExtent (img.separate_capLock hp x hin)
  · exact load_store_same _ _ 0 (by decide)

/-- The stores of a first bootstrap in their order, as address, size and value. -/
def bindStores (img : Image) : List (Addr × Nat × Nat) :=
  (img.capLock, 4, 0) ::
    ((factoryDescriptor img).members.map (fun w =>
        (img.factoryTable + BitVec.ofNat 64 w.1, w.2.1, w.2.2)) ++
      (createWrites (factoryPayload img)).map (fun w =>
        (img.factoryRecord + BitVec.ofNat 64 w.1.offset, w.1.size, w.2)))

theorem foldl_bindStores (img : Image) (mem : Mem 64) :
    (bindStores img).foldl (fun mem w => store mem w.1 w.2.1 w.2.2) mem =
      bindFactory img (store mem img.capLock 4 0) := by
  rw [bindStores, List.foldl_cons, List.foldl_append, List.foldl_map, List.foldl_map]
  rfl

/-- They go to the lock word and to the factory's objects. -/
theorem inExtent_of_bindStores {img : Image} {w : Addr × Nat × Nat} (hw : w ∈ bindStores img)
    {x : Addr} (hx : InExtent w.1 w.2.1 x) : InExtent img.capLock 4 x ∨ img.Owns x := by
  rcases List.mem_cons.mp hw with rfl | hw
  · exact .inl hx
  right
  rcases List.mem_append.mp hw with hw | hw
  · obtain ⟨member, hmember, rfl⟩ := List.mem_map.mp hw
    have hfit : ∀ member ∈ (factoryDescriptor img).members,
        member.1 + member.2.1 ≤ schemaTableSize := by
      simp [TableDescriptor.members, schemaTableSize]
    exact ⟨_, img.mem_statics_table, hx.of_add (hfit member hmember)⟩
  · obtain ⟨field, -, rfl⟩ := List.mem_map.mp hw
    have hfit : field.1.offset + field.1.size ≤ recordSize := by
      cases field.1 <;> decide
    exact ⟨_, img.mem_statics_record, hx.of_add hfit⟩

/-! ## A call -/

/-- The bytes at an address, as a message. -/
def bufferAt (mem : Mem 64) (a : Addr) : Buffer where
  isNull := a == 0
  bytes := fun i => mem (a + BitVec.ofInt 64 i)

/-- What a handler is given besides its data.  For a null `out_response_len` the place is
that of the local `dummy_len`. -/
structure Arguments where
  methodId : Nat
  msg : Addr
  len : Nat
  response : Addr
  responseCap : Nat
  outResponseLen : Addr

/-- The arguments of `kernel_invoke`. -/
structure CallAt extends Arguments where
  target : Addr

/-- The bytes that are the response's. -/
def Arguments.Outputs (a : Arguments) (x : Addr) : Prop :=
  InExtent a.outResponseLen 8 x ∨ InExtent a.response a.responseCap x

instance (a : Arguments) (x : Addr) : Decidable (a.Outputs x) := inferInstanceAs (Decidable (_ ∨ _))

/-- The call with the buffers that it finds in memory. -/
def CallAt.call (c : CallAt) (mem : Mem 64) : Call :=
  ⟨c.target, c.methodId, bufferAt mem c.msg, c.len, bufferAt mem c.response, c.responseCap⟩

/-- Memory behind `*out_response_len = 0`, the first store of a call. -/
def CallAt.begun (c : CallAt) (mem : Mem 64) : Mem 64 := store mem c.outResponseLen 8 0

theorem CallAt.begun_of_not_outputs (c : CallAt) {mem : Mem 64} {x : Addr}
    (hx : ¬ c.Outputs x) : c.begun mem x = mem x :=
  store_of_not_inExtent fun hin => hx (.inl hin)

/-- `object_handler_fn`; without a result it does not return. -/
abbrev HandlerAt := (data : Nat) → Arguments → Mem 64 → Option (Mem 64)

abbrev CodeAt := Nat → HandlerAt

/-- How far a call gets: to one of the three refusals, or to a handler, with the table and
the method entry for the check of its response. -/
inductive Admission where
  | invalidCapability
  | noMethod
  | requestRejected
  | dispatch (handler data : Nat) (tableAddr methodAddr : Addr)
  deriving DecidableEq

/-- The tests of `kernel_invoke` on the copied record. -/
def admission (mem : Mem 64) (record : CapRecord) (a : Arguments) : Admission :=
  if record .magic ≠ capRecordMagic ∨ record .valid = 0 then .invalidCapability
  else
    let tableAddr : Addr := BitVec.ofNat 64 (record .schemaTable)
    let table := loadSchemaTable mem tableAddr
    match (findMethod table (record .schemaIndex) a.methodId).value with
    | none => .noMethod
    | some idx =>
        let methodAddr := entryAddr (loadDescriptor mem tableAddr).methods methodSchemaSize idx
        if (capnpValidateMessage (bufferAt mem a.msg) a.len table
            (loadMethodSchema mem methodAddr).paramSchema).value then
          .dispatch (record .handler) (record .data) tableAddr methodAddr
        else .requestRejected

/-- `kernel_invoke` up to the call of the handler: the record is copied under the lock. -/
def admitted (img : Image) (mem : Mem 64) (c : CallAt) : Option (Admission × Mem 64) :=
  (capLock img (c.begun mem)).map fun held =>
    let mem := capUnlock img held
    (admission mem (loadRecord held c.target) c.toArguments, mem)

/-- `kernel_invoke` behind the handler. -/
def finish (a : Arguments) (tableAddr methodAddr : Addr) (mem : Mem 64) : Bool × Mem 64 :=
  let resultSchema := (loadMethodSchema mem methodAddr).resultSchema
  if resultSchema = schemaIdxNone then (true, mem)
  else if (capnpValidateMessage (bufferAt mem a.response) (load mem a.outResponseLen 8)
      (loadSchemaTable mem tableAddr) resultSchema).value then (true, mem)
  else
    (false, store (fill mem a.response 0 a.responseCap fun _ => 0) a.outResponseLen 8 0)

/-- `kernel_invoke`: what it returns, and the memory. -/
def kernelInvokeAt (img : Image) (code : CodeAt) (mem : Mem 64) (c : CallAt) :
    Option (Bool × Mem 64) :=
  (admitted img mem c).bind fun (admission, mem) =>
    match admission with
    | .dispatch handler data tableAddr methodAddr =>
        (code handler data c.toArguments mem).map (finish c.toArguments tableAddr methodAddr)
    | _ => some (false, mem)

/-! ## The gate -/

/-- The call gets to a handler with this data. -/
def Admission.Reaches (a : Admission) (handler data : Nat) : Prop :=
  ∃ tableAddr methodAddr, a = .dispatch handler data tableAddr methodAddr

theorem admission_ne_invalidCapability_iff (mem : Mem 64) (record : CapRecord) (a : Arguments) :
    admission mem record a ≠ .invalidCapability ↔ record.Live := by
  unfold admission
  by_cases hdead : record .magic ≠ capRecordMagic ∨ record .valid = 0
  · rw [if_pos hdead]
    exact iff_of_false (fun h => h rfl) ((CapRecord.not_live_iff record).mpr hdead)
  · rw [if_neg hdead]
    refine iff_of_true ?_ (not_not.mp fun h => hdead ((CapRecord.not_live_iff record).mp h))
    dsimp only
    split
    · exact Admission.noConfusion
    · split <;> exact Admission.noConfusion

/-- A call gets to a handler exactly if the gate of `kernelInvoke` is open for it. -/
theorem admission_eq_dispatch_iff {mem : Mem 64} {c : CallAt} {handler data : Nat}
    {tableAddr methodAddr : Addr} :
    admission mem (loadRecord mem c.target) c.toArguments =
        .dispatch handler data tableAddr methodAddr ↔
      ∃ idx, GateOpen mem c.target c.methodId (bufferAt mem c.msg) c.len idx ∧
        handler = loadRecord mem c.target .handler ∧ data = loadRecord mem c.target .data ∧
        tableAddr = tableAddrOf mem c.target ∧ methodAddr = methodAddrOf mem c.target idx := by
  unfold admission
  by_cases hdead : loadRecord mem c.target .magic ≠ capRecordMagic ∨
      loadRecord mem c.target .valid = 0
  · rw [if_pos hdead]
    refine iff_of_false Admission.noConfusion ?_
    rintro ⟨idx, hgate, -⟩
    exact (CapRecord.not_live_iff _).mpr hdead hgate.live
  · have hlive : (loadRecord mem c.target).Live :=
      not_not.mp fun h => hdead ((CapRecord.not_live_iff _).mp h)
    rw [if_neg hdead]
    dsimp only
    rw [show loadSchemaTable mem (BitVec.ofNat 64 (loadRecord mem c.target .schemaTable)) =
      tableOf mem c.target from rfl]
    cases hmethod : (findMethod (tableOf mem c.target) (loadRecord mem c.target .schemaIndex)
        c.methodId).value with
    | none =>
        refine iff_of_false Admission.noConfusion ?_
        rintro ⟨idx, hgate, -⟩
        rw [(value_findMethod _ _ _ _).mpr hgate.method] at hmethod
        exact absurd hmethod (by simp)
    | some found =>
        have hfirst := (value_findMethod _ _ _ _).mp hmethod
        have huniq : ∀ idx, GateOpen mem c.target c.methodId (bufferAt mem c.msg) c.len idx →
            idx = found := by
          intro idx hgate
          rw [(value_findMethod _ _ _ _).mpr hgate.method] at hmethod
          exact Option.some.inj hmethod
        simp only [show entryAddr (loadDescriptor mem
            (BitVec.ofNat 64 (loadRecord mem c.target .schemaTable))).methods methodSchemaSize
          found = methodAddrOf mem c.target found from rfl]
        split
        case isTrue haccept =>
          rw [Admission.dispatch.injEq]
          constructor
          · rintro ⟨rfl, rfl, rfl, rfl⟩
            exact ⟨found, ⟨hlive, hfirst, (conforms_iff _ _ _ _).mpr haccept⟩, rfl, rfl, rfl, rfl⟩
          · rintro ⟨idx, hgate, rfl, rfl, rfl, rfl⟩
            rw [huniq idx hgate]
            exact ⟨rfl, rfl, rfl, rfl⟩
        case isFalse hreject =>
          refine iff_of_false Admission.noConfusion ?_
          rintro ⟨idx, hgate, -⟩
          have hconforms := (conforms_iff _ _ _ _).mp hgate.conforms
          rw [huniq idx hgate] at hconforms
          exact hreject hconforms

/-- With a free lock apart from the record, the copy is the record. -/
theorem admitted_eq {img : Image} {mem : Mem 64} {c : CallAt} (hfree : LockFree img (c.begun mem))
    (htarget : Separate c.target recordSize img.capLock 4) :
    admitted img mem c =
      some (admission (c.begun mem) (loadRecord (c.begun mem) c.target) c.toArguments,
        c.begun mem) := by
  unfold admitted
  rw [capLock_of_free hfree, Option.map_some, capUnlock_held hfree,
    loadRecord_store_separate htarget]

section Gate

variable {img : Image} {code : CodeAt} {mem : Mem 64} {c : CallAt}
  (hfree : LockFree img (c.begun mem)) (htarget : Separate c.target recordSize img.capLock 4)

include hfree htarget

theorem kernelInvokeAt_of_gateOpen {idx : Nat}
    (hgate : GateOpen (c.begun mem) c.target c.methodId (bufferAt (c.begun mem) c.msg) c.len idx) :
    kernelInvokeAt img code mem c =
      (code (loadRecord (c.begun mem) c.target .handler)
        (loadRecord (c.begun mem) c.target .data) c.toArguments (c.begun mem)).map
          (finish c.toArguments (tableAddrOf (c.begun mem) c.target)
            (methodAddrOf (c.begun mem) c.target idx)) := by
  unfold kernelInvokeAt
  rw [admitted_eq hfree htarget,
    admission_eq_dispatch_iff.mpr ⟨idx, hgate, rfl, rfl, rfl, rfl⟩]
  rfl

theorem kernelInvokeAt_of_not_dispatched
    (hclosed : ¬ Dispatched (c.begun mem) (c.call (c.begun mem))) :
    kernelInvokeAt img code mem c = some (false, c.begun mem) := by
  unfold kernelInvokeAt
  rw [admitted_eq hfree htarget]
  cases hadmission : admission (c.begun mem) (loadRecord (c.begun mem) c.target)
      c.toArguments with
  | dispatch =>
      obtain ⟨idx, hgate, -⟩ := admission_eq_dispatch_iff.mp hadmission
      exact absurd ⟨idx, hgate⟩ hclosed
  | invalidCapability => rfl
  | noMethod => rfl
  | requestRejected => rfl

end Gate

/-- Behind the handler only the response's bytes change. -/
theorem finish_of_not_outputs {a : Arguments} (tableAddr methodAddr : Addr) (mem : Mem 64)
    {x : Addr} (hx : ¬ a.Outputs x) : (finish a tableAddr methodAddr mem).2 x = mem x := by
  unfold finish
  dsimp only
  split
  · rfl
  · split
    · rfl
    · dsimp only
      rw [store_of_not_inExtent fun hin => hx (.inl hin),
        fill_of_notMem (fun hin => hx (.inr hin))]

/-! ## The factory -/

/-- The answer of CREATE, as offset, size and value: eight bytes of header, the root pointer
and the handle. -/
def answerMembers (handle : Nat) : List (Nat × Nat × Nat) :=
  [(0, 1, 0), (1, 1, 0), (2, 1, 0), (3, 1, 0), (4, 1, 2), (5, 1, 0), (6, 1, 0), (7, 1, 0),
    (8, 8, 1 <<< 32), (16, 8, handle)]

/-- The end of CREATE. -/
def answer (a : Arguments) (handle : Nat) (mem : Mem 64) : Mem 64 :=
  if 24 ≤ a.responseCap then
    store (storeMembers mem a.response (answerMembers handle)) a.outResponseLen 8 24
  else mem

/-- `factory_handler` -/
def factoryHandlerAt (img : Image) (a : Arguments) (mem : Mem 64) : Option (Mem 64) :=
  let mem := store mem a.outResponseLen 8 0
  let words := wordOf (bufferAt mem a.msg)
  if a.methodId = factoryMethodCreate then
    let recordStorage := words 4
    if recordStorage = 0 then some mem
    else
      (capLock img mem).map fun mem =>
        let mem := storeFields mem (BitVec.ofNat 64 recordStorage)
          (createWrites ⟨words 0, words 1, words 2, words 3 % 2 ^ 16⟩)
        answer a recordStorage (capUnlock img mem)
  else if a.methodId = factoryMethodDestroy then
    let target := words 0
    if target = img.factoryRecord.toNat then some mem
    else
      (capLock img mem).map fun mem =>
        let record := loadRecord mem (BitVec.ofNat 64 target)
        if record .magic ≠ capRecordMagic ∨ record .valid = 0 then capUnlock img mem
        else capUnlock img (storeFields mem (BitVec.ofNat 64 target) destroyWrites)
  else some mem

/-- The factory's code, among whatever other code there is. -/
def factoryCodeAt (img : Image) (others : CodeAt) : CodeAt :=
  fun pointer =>
    if pointer = img.factoryHandler.toNat then fun _ => factoryHandlerAt img else others pointer

/-- The record that a request names, if the handler looks at it, is apart from the lock
word. -/
structure LockClear (img : Image) (methodId : Nat) (msg : Buffer) : Prop where
  create : methodId = factoryMethodCreate →
    wordOf msg 4 = 0 ∨ Separate (BitVec.ofNat 64 (wordOf msg 4)) recordSize img.capLock 4
  destroy : methodId = factoryMethodDestroy →
    wordOf msg 0 = img.factoryRecord.toNat ∨
      Separate (BitVec.ofNat 64 (wordOf msg 0)) recordSize img.capLock 4

/-- Memory behind the handler: the record write, and CREATE's answer. -/
def handled (img : Image) (a : Arguments) (mem : Mem 64) : Mem 64 :=
  let msg := bufferAt mem a.msg
  let written := applyRecordWrite mem (factoryWrite img a.methodId msg mem)
  if a.methodId = factoryMethodCreate ∧ wordOf msg 4 ≠ 0 then answer a (wordOf msg 4) written
  else written

/-- **The handler, behind a free lock.** -/
theorem factoryHandlerAt_eq {img : Image} {a : Arguments} {mem : Mem 64}
    (hfree : LockFree img mem) (hlength : load mem a.outResponseLen 8 = 0)
    (hclear : LockClear img a.methodId (bufferAt mem a.msg)) :
    factoryHandlerAt img a mem = some (handled img a mem) := by
  have hzero : store mem a.outResponseLen 8 0 = mem := store_eq_self hlength
  unfold factoryHandlerAt handled factoryWrite
  dsimp only
  rw [hzero]
  by_cases hcreate : a.methodId = factoryMethodCreate
  · simp only [hcreate, true_and]
    by_cases hnull : wordOf (bufferAt mem a.msg) 4 = 0
    · simp only [hnull, ne_eq, not_true_eq_false, if_false]
      rfl
    · have hsep := (hclear.create hcreate).resolve_left hnull
      simp only [ne_eq, hnull, not_false_eq_true, if_true]
      rw [capLock_of_free hfree, Option.map_some, capUnlock_storeFields hfree hsep]
      rfl
  · simp only [hcreate, false_and, if_false]
    by_cases hdestroy : a.methodId = factoryMethodDestroy
    · simp only [if_pos hdestroy]
      by_cases hself : wordOf (bufferAt mem a.msg) 0 = img.factoryRecord.toNat
      · simp only [if_pos hself]
        rfl
      · have hsep := (hclear.destroy hdestroy).resolve_left hself
        simp only [if_neg hself]
        rw [capLock_of_free hfree, Option.map_some, loadRecord_store_separate hsep,
          capUnlock_held hfree, capUnlock_storeFields hfree hsep]
        by_cases hlive : (loadRecord mem (BitVec.ofNat 64 (wordOf (bufferAt mem a.msg) 0))).Live
        · rw [if_neg (mt (CapRecord.not_live_iff _).mpr (not_not.mpr hlive)), if_pos hlive]
          rfl
        · rw [if_pos ((CapRecord.not_live_iff _).mp hlive), if_neg hlive]
          rfl
    · simp only [if_neg hdestroy]
      rfl

theorem answer_of_not_outputs {a : Arguments} (handle : Nat) (mem : Mem 64) {x : Addr}
    (hx : ¬ a.Outputs x) : answer a handle mem x = mem x := by
  unfold answer
  split
  case isTrue hroom =>
    rw [store_of_not_inExtent fun hin => hx (.inl hin)]
    refine storeMembers_of_not_inExtent (answerMembers handle) (n := a.responseCap) ?_
      (fun hin => hx (.inr hin)) mem
    intro member hmember
    simp only [answerMembers, List.mem_cons, List.not_mem_nil, or_false] at hmember
    rcases hmember with rfl | rfl | rfl | rfl | rfl | rfl | rfl | rfl | rfl | rfl <;>
      (dsimp only; omega)
  case isFalse => rfl

theorem handled_of_not_outputs {img : Image} {a : Arguments} {mem : Mem 64} {x : Addr}
    (hx : ¬ a.Outputs x) :
    handled img a mem x =
      applyRecordWrite mem (factoryWrite img a.methodId (bufferAt mem a.msg) mem) x := by
  unfold handled
  split
  · exact answer_of_not_outputs _ _ hx
  · rfl

section Calls

variable {img : Image} (others : CodeAt) {mem : Mem 64} {c : CallAt}
  (hfree : LockFree img (c.begun mem)) (htarget : Separate c.target recordSize img.capLock 4)
  (hhandler : loadRecord (c.begun mem) c.target .handler = img.factoryHandler.toNat)
  (hclear : LockClear img c.methodId (bufferAt (c.begun mem) c.msg))

include hfree htarget hhandler hclear

/-- A call that gets to the factory ends with the check of what the handler left. -/
theorem kernelInvokeAt_handled {idx : Nat}
    (hgate : GateOpen (c.begun mem) c.target c.methodId (bufferAt (c.begun mem) c.msg) c.len idx) :
    kernelInvokeAt img (factoryCodeAt img others) mem c =
      some (finish c.toArguments (tableAddrOf (c.begun mem) c.target)
        (methodAddrOf (c.begun mem) c.target idx) (handled img c.toArguments (c.begun mem))) := by
  have hlength : load (c.begun mem) c.outResponseLen 8 = 0 := load_store_same _ _ 0 (by decide)
  have hrun : factoryCodeAt img others (loadRecord (c.begun mem) c.target .handler)
      (loadRecord (c.begun mem) c.target .data) c.toArguments (c.begun mem) =
        some (handled img c.toArguments (c.begun mem)) := by
    unfold factoryCodeAt
    rw [if_pos hhandler]
    exact factoryHandlerAt_eq hfree hlength hclear
  rw [kernelInvokeAt_of_gateOpen hfree htarget hgate, hrun, Option.map_some]

/-- **The factory in memory.**  A call on an object with the factory's handler returns, if the
lock is free and no record that it looks at overlaps the lock word; outside of the places for
the response it changes memory as the call of the level above does. -/
theorem kernelInvokeAt_factory :
    ∃ ret mem', kernelInvokeAt img (factoryCodeAt img others) mem c = some (ret, mem') ∧
      ∀ x, ¬ c.Outputs x →
        mem' x = invoke (factoryCode img idleCode) (c.begun mem) (c.call (c.begun mem)) x := by
  by_cases hcall : Dispatched (c.begun mem) (c.call (c.begun mem))
  · obtain ⟨idx, hgate⟩ := id hcall
    rw [kernelInvokeAt_handled others hfree htarget hhandler hclear hgate]
    refine ⟨_, _, congrArg some Prod.mk.eta.symm, fun x hx => ?_⟩
    have hserved : loadRecord (c.begun mem) (c.call (c.begun mem)).target .handler =
        img.factoryHandler.toNat := hhandler
    rw [finish_of_not_outputs _ _ _ hx, handled_of_not_outputs hx, invoke_of_dispatched _ hcall,
      handlerRun_factoryCode idleCode hserved]
    rfl
  · rw [kernelInvokeAt_of_not_dispatched hfree htarget hcall]
    refine ⟨_, _, rfl, fun x _ => ?_⟩
    rw [invoke_of_not_dispatched _ hcall]

end Calls

end Cap
end Saski
