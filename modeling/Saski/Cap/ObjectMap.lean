import Saski.Cap.FactoryRuns
import Saski.Lib.KeyedStore

/-!
# The capability layer as an object map

What the factory is for: a map from handles to objects, where CREATE binds a
handle to the handler, data, table and index of its request and DESTROY unbinds
it.  The kernel keeps no such map.  A handle is the address of caller memory, and
an object is whatever the six fields there say.

The simulation relates the two.  It holds along every sequence of flat-encoded
CREATE and DESTROY requests on storages that overlap neither each other nor the
factory's record, including CREATE over a live record and DESTROY of a stale
handle.  A call that `kernel_invoke` refuses is no operation of the map, and
neither is the DESTROY of a handle that is not live.  `Saski.Cap.ObjectRuns` runs it in
the memory that also holds the lock word, the requests and the responses.
-/

namespace Saski
namespace Cap

open ByteMemory Capnp KeyedStore Logged Run

/-! ## The abstract map -/

/-- CREATE and DESTROY of objects, by handle. -/
abbrev Op := KeyedStore.Op Addr Payload

/-- The objects that exist, by handle. -/
abbrev ObjectMap := Store Addr Payload

/-! ## The operation a request asks for -/

/-- Data word `k` of the root struct. -/
def rootWord (msg : Buffer) (k : Nat) : Nat :=
  (readWord (segmentOf msg) (targetAt (segmentOf msg) 0 + k)).value

/-- In a flat message, the words the factory reads are the root struct's. -/
theorem wordOf_eq_rootWord {msg : Buffer} (hflat : (ptrAt (segmentOf msg) 0).offsetWords = 0)
    (k : Nat) : wordOf msg k = rootWord msg k := by
  have hstart : (16 + 8 * k : Int) = 8 + (targetAt (segmentOf msg) 0 + k) * 8 := by
    unfold targetAt
    omega
  unfold wordOf rootWord requestWord readWord
  rw [hstart]
  rfl

/-- The payload of a CREATE request, read from its root struct. -/
def rootPayload (msg : Buffer) : Payload :=
  ⟨rootWord msg 0, rootWord msg 1, rootWord msg 2, rootWord msg 3⟩

/-- The operation a call asks for. -/
def opOf (c : Call) : Option Op :=
  if c.methodId = factoryMethodCreate then
    some (.create (BitVec.ofNat 64 (rootWord c.msg 4)) (rootPayload c.msg))
  else if c.methodId = factoryMethodDestroy then
    some (.destroy (BitVec.ofNat 64 (rootWord c.msg 0)))
  else none

/-- The operation a call asks for, if there is something to do: a DESTROY of a
handle that is not live does nothing. -/
def requestedOp (mem : Mem 64) (c : Call) : Option Op :=
  match opOf c with
  | some (.create h p) => some (.create h p)
  | some (.destroy h) => if (loadRecord mem h).Live then some (.destroy h) else none
  | none => none

/-- The operation a call performs: nothing, if `kernel_invoke` refuses it. -/
def effectiveOp (code : Code) (mem : Mem 64) (c : Call) : Option Op :=
  if calls (kernelInvoke code mem c.target c.methodId c.msg c.len c.response
    c.responseCap).log = [] then none
  else requestedOp mem c

/-- The record write of an operation. -/
def Op.write : Op → Addr × FieldWrites
  | .create h p => (h, createWrites p)
  | .destroy h => (h, destroyWrites)

/-- Storages for records: not null, and overlapping neither each other nor the
factory's record. -/
structure Arena (img : Image) (S : Set Addr) : Prop where
  ne_zero : ∀ a ∈ S, a ≠ 0
  apart : ∀ a ∈ S, ∀ b ∈ S, a ≠ b → Separate a recordSize b recordSize
  clear : ∀ a ∈ S, Separate img.factoryRecord recordSize a recordSize

/-- A flat-encoded request to the factory about one of the storages. -/
inductive FactoryCall (img : Image) (S : Set Addr) (c : Call) : Prop
  | create (htarget : c.target = img.factoryRecord)
      (hflat : (ptrAt (segmentOf c.msg) 0).offsetWords = 0)
      (hmethod : c.methodId = factoryMethodCreate)
      (hroot : HasRootStruct c.msg c.len capCreateRequestWords)
      (hstorage : BitVec.ofNat 64 (rootWord c.msg 4) ∈ S)
      (hindex : rootWord c.msg 3 < 2 ^ 16)
  | destroy (htarget : c.target = img.factoryRecord)
      (hflat : (ptrAt (segmentOf c.msg) 0).offsetWords = 0)
      (hmethod : c.methodId = factoryMethodDestroy)
      (hroot : HasRootStruct c.msg c.len 1)
      (hstorage : BitVec.ofNat 64 (rootWord c.msg 0) ∈ S)

section Calls

variable {img : Image} {S : Set Addr} {c : Call}

theorem FactoryCall.target (hc : FactoryCall img S c) : c.target = img.factoryRecord := by
  cases hc with
  | create htarget => exact htarget
  | destroy htarget => exact htarget

/-- Every such request asks for an operation on one of the storages. -/
theorem FactoryCall.exists_op (hc : FactoryCall img S c) :
    ∃ op, opOf c = some op ∧ op.key ∈ S := by
  cases hc with
  | create _ _ hmethod _ hstorage _ =>
      exact ⟨_, if_pos hmethod, hstorage⟩
  | destroy _ _ hmethod _ hstorage =>
      refine ⟨.destroy (BitVec.ofNat 64 (rootWord c.msg 0)), ?_, hstorage⟩
      unfold opOf
      rw [hmethod]
      rfl

/-- The payload of a request fits the record's fields. -/
theorem FactoryCall.stored_eq (hc : FactoryCall img S c) {h : Addr} {p : Payload}
    (hop : opOf c = some (.create h p)) : p.stored = p := by
  cases hc with
  | create _ hflat hmethod _ _ hindex =>
      unfold opOf at hop
      rw [if_pos hmethod, Option.some.injEq, Op.create.injEq] at hop
      have hword : ∀ k, rootWord c.msg k < 2 ^ 64 := by
        intro k
        rw [← wordOf_eq_rootWord hflat]
        exact wordOf_lt c.msg k
      rw [← hop.2]
      unfold Payload.stored rootPayload
      simp only [Nat.mod_eq_of_lt (hword _), Nat.mod_eq_of_lt hindex]
  | destroy _ _ hmethod _ _ =>
      unfold opOf at hop
      rw [hmethod] at hop
      exact absurd hop (by simp [factoryMethodCreate, factoryMethodDestroy])

/-- The factory's handler makes the record write of the requested operation. -/
theorem factoryWrite_eq (harena : Arena img S) (hc : FactoryCall img S c) (mem : Mem 64) :
    factoryWrite img c.methodId c.msg mem = (requestedOp mem c).map Op.write := by
  cases hc with
  | create _ hflat hmethod _ hstorage hindex =>
      have hne : wordOf c.msg 4 ≠ 0 := by
        intro hzero
        apply harena.ne_zero _ hstorage
        rw [← wordOf_eq_rootWord hflat, hzero]
        rfl
      have hpayload : createPayload c.msg = rootPayload c.msg := by
        unfold createPayload rootPayload
        simp only [wordOf_eq_rootWord hflat, Nat.mod_eq_of_lt hindex]
      unfold factoryWrite requestedOp opOf
      rw [if_pos hmethod, if_neg hne, if_pos hmethod, hpayload, wordOf_eq_rootWord hflat]
      rfl
  | destroy _ hflat hmethod _ hstorage =>
      -- The storages are clear of the factory's record, so the guard lets it pass.
      have hself : wordOf c.msg 0 ≠ img.factoryRecord.toNat := by
        intro heq
        rw [← wordOf_eq_rootWord hflat, heq, BitVec.ofNat_toNat, BitVec.setWidth_eq] at hstorage
        have hown : InExtent img.factoryRecord recordSize img.factoryRecord := by
          unfold InExtent
          rw [BitVec.sub_self]
          decide
        exact harena.clear _ hstorage _ hown hown
      have hcreate : c.methodId ≠ factoryMethodCreate := by
        rw [hmethod]
        decide
      unfold factoryWrite requestedOp opOf
      rw [if_neg hcreate, if_pos hmethod, if_neg hself, if_neg hcreate, if_pos hmethod,
        wordOf_eq_rootWord hflat]
      by_cases hlive : (loadRecord mem (BitVec.ofNat 64 (rootWord c.msg 0))).Live
      · simp only [if_pos hlive]
        rfl
      · simp only [if_neg hlive]
        rfl

end Calls

/-! ## The simulation -/

/-- The object a record stands for, as `kernel_invoke` sees it. -/
def CapRecord.object (record : CapRecord) : Option Payload :=
  if record.Live then some record.payload else none

theorem CapRecord.object_eq_some_iff (record : CapRecord) (p : Payload) :
    record.object = some p ↔ record.Live ∧ record.payload = p := by
  unfold CapRecord.object
  by_cases hlive : record.Live
  · simp [hlive]
  · simp [hlive]

theorem CapRecord.object_eq_none_iff (record : CapRecord) :
    record.object = none ↔ ¬ record.Live := by
  unfold CapRecord.object
  by_cases hlive : record.Live
  · simp [hlive]
  · simp [hlive]

/-- The record that CREATE leaves stands for what was stored. -/
theorem Payload.object_record (p : Payload) : p.record.object = some p.stored := by
  rw [CapRecord.object_eq_some_iff]
  exact ⟨p.record_live, p.payload_record⟩

/-- The object at a handle. -/
def objectAt (mem : Mem 64) (h : Addr) : Option Payload := (loadRecord mem h).object

/-- An operation's record write does to its own handle what the map does. -/
theorem objectAt_write_self (mem : Mem 64) (m : ObjectMap) (op : Op)
    (hstored : ∀ h p, op = .create h p → p.stored = p) :
    objectAt (applyRecordWrite mem (some op.write)) op.key = m.apply op op.key := by
  cases op with
  | create h p =>
      have hrecord : loadRecord (storeFields mem h (createWrites p)) h = p.record := by
        rw [loadRecord_storeFields, applyWrites_createWrites]
      change (loadRecord (storeFields mem h (createWrites p)) h).object = m.apply (.create h p) h
      rw [hrecord, p.object_record, hstored h p rfl, Store.apply_create_self]
  | destroy h =>
      have hdead : ¬ (loadRecord (storeFields mem h destroyWrites) h).Live := by
        rw [loadRecord_storeFields]
        exact applyWrites_destroyWrites_not_live _
      change (loadRecord (storeFields mem h destroyWrites) h).object = m.apply (.destroy h) h
      rw [Store.apply_destroy_self]
      exact (CapRecord.object_eq_none_iff _).mpr hdead

/-- It does nothing to the record at an address clear of that handle. -/
theorem loadRecord_write_separate (mem : Mem 64) (op : Op) {r : Addr}
    (hsep : Separate r recordSize op.key recordSize) :
    loadRecord (applyRecordWrite mem (some op.write)) r = loadRecord mem r := by
  cases op with
  | create h p => exact loadRecord_storeFields_separate mem (createWrites p) hsep
  | destroy h => exact loadRecord_storeFields_separate mem destroyWrites hsep

/-- The log shows a call exactly when the request is dispatched. -/
theorem calls_eq_nil_iff (code : Code) (mem : Mem 64) (c : Call) :
    calls (kernelInvoke code mem c.target c.methodId c.msg c.len c.response
      c.responseCap).log = [] ↔ ¬ Dispatched mem c := by
  constructor
  · rintro hnil ⟨idx, hgate⟩
    rw [calls_kernelInvoke_of_gateOpen code c.response c.responseCap hgate] at hnil
    exact List.cons_ne_nil _ _ hnil
  · intro hclosed
    obtain ⟨-, reads, hlog⟩ :=
      kernelInvoke_of_gate_closed code c.response c.responseCap hclosed
    rw [hlog, calls_map_request]

section Simulation

variable {img : Image} {S : Set Addr} (others : Code)

/-- Calls on the storages stay clear of what the storages are clear of. -/
theorem FactoryCall.writeClear {c : Call} (hc : FactoryCall img S c) {R : Addr → Prop}
    (hR : ∀ a ∈ S, ∀ x, R x → ¬ InExtent a recordSize x) (mem : Mem 64) :
    WriteClear img R mem c := by
  cases hc with
  | create _ hflat hmethod _ hstorage _ =>
      constructor
      · intro _
        right
        rw [wordOf_eq_rootWord hflat]
        exact hR _ hstorage
      · intro hdestroy
        rw [hmethod] at hdestroy
        exact absurd hdestroy (by decide)
  | destroy _ hflat hmethod _ hstorage =>
      constructor
      · intro hcreate
        rw [hmethod] at hcreate
        exact absurd hcreate (by decide)
      · intro _
        right
        right
        rw [wordOf_eq_rootWord hflat]
        exact hR _ hstorage

/-- A call changes memory by the record write of its effective operation. -/
theorem invoke_eq_effective (harena : Arena img S) {mem : Mem 64}
    (hintact : FactoryRecordIntact img mem) {c : Call} (hc : FactoryCall img S c) :
    invoke (factoryCode img others) mem c =
      applyRecordWrite mem ((effectiveOp (factoryCode img others) mem c).map Op.write) := by
  have hhandler : loadRecord mem c.target .handler = img.factoryHandler.toNat := by
    rw [hc.target]
    exact hintact.handler
  unfold effectiveOp
  by_cases hcall : Dispatched mem c
  · have hsome := mt (calls_eq_nil_iff (factoryCode img others) mem c).mp (not_not.mpr hcall)
    rw [if_neg hsome, invoke_of_dispatched _ hcall, handlerRun_factoryCode others hhandler,
      factoryWrite_eq harena hc]
  · rw [if_pos ((calls_eq_nil_iff _ mem c).mpr hcall), invoke_of_not_dispatched _ hcall]
    rfl

/-- An effective operation is the one the call asks for. -/
theorem opOf_of_effectiveOp {code : Code} {mem : Mem 64} {c : Call} {op : Op}
    (h : effectiveOp code mem c = some op) : opOf c = some op := by
  unfold effectiveOp at h
  split at h
  · exact absurd h (by simp)
  · unfold requestedOp at h
    cases hop : opOf c with
    | none => simp [hop] at h
    | some requested =>
        cases requested with
        | create r p => simpa [hop] using h
        | destroy r =>
            simp only [hop] at h
            split at h
            · exact h
            · exact absurd h (by simp)

/-- A DESTROY of a handle that is not live has no effect. -/
theorem effectiveOp_of_dead (code : Code) {mem : Mem 64} {c : Call} {h : Addr}
    (hop : opOf c = some (.destroy h)) (hdead : ¬ (loadRecord mem h).Live) :
    effectiveOp code mem c = none := by
  unfold effectiveOp requestedOp
  simp [hop, hdead]

/-- A call leaves every record clear of its storage alone. -/
theorem loadRecord_invoke_separate (harena : Arena img S) {mem : Mem 64}
    (hintact : FactoryRecordIntact img mem) {c : Call} (hc : FactoryCall img S c) {op : Op}
    (hop : opOf c = some op) {r : Addr} (hsep : Separate r recordSize op.key recordSize) :
    loadRecord (invoke (factoryCode img others) mem c) r = loadRecord mem r := by
  rw [invoke_eq_effective others harena hintact hc]
  cases heffect : effectiveOp (factoryCode img others) mem c with
  | none => rfl
  | some op' =>
      obtain rfl : op' = op := Option.some.inj ((opOf_of_effectiveOp heffect).symm.trans hop)
      exact loadRecord_write_separate mem op' hsep

/-- The state simulates the map: the factory is in place, and the objects at the
storages are those of the map. -/
structure Simulates (img : Image) (S : Set Addr) (mem : Mem 64) (m : ObjectMap) : Prop where
  intact : FactoryRecordIntact img mem
  objects : ∀ h ∈ S, objectAt mem h = m h

/-- One call simulates its effective operation, if it has one. -/
theorem Simulates.step (harena : Arena img S) {mem : Mem 64} {m : ObjectMap} {c : Call}
    (hsim : Simulates img S mem m) (hc : FactoryCall img S c) :
    Simulates img S (invoke (factoryCode img others) mem c)
      ((effectiveOp (factoryCode img others) mem c).toList.foldl Store.apply m) := by
  have hclear := hc.writeClear harena.clear mem
  refine ⟨factoryRecordIntact_step others hsim.intact hc.target hclear, ?_⟩
  intro h hh
  rw [invoke_eq_effective others harena hsim.intact hc]
  cases hop : effectiveOp (factoryCode img others) mem c with
  | none => exact hsim.objects h hh
  | some op =>
      have hask := opOf_of_effectiveOp hop
      obtain ⟨op', hop', hstorage⟩ := hc.exists_op
      obtain rfl : op = op' := Option.some.inj (hask.symm.trans hop')
      change objectAt (applyRecordWrite mem (some op.write)) h = m.apply op h
      by_cases hself : h = op.key
      · rw [hself]
        apply objectAt_write_self
        intro r p hcreate
        exact hc.stored_eq (hask.trans (congrArg some hcreate))
      · -- Another storage: its bytes are not touched.
        have hsep := harena.apart h hh op.key hstorage hself
        rw [Store.apply_of_ne m op hself, ← hsim.objects h hh]
        unfold objectAt
        rw [loadRecord_write_separate mem op hsep]

/-- The live records at the storages are those whose last operation was a CREATE,
and they hold what it asked for. -/
theorem Simulates.live_payload_iff {mem : Mem 64} {ops : List Op}
    (hsim : Simulates img S mem (contents ops)) {h : Addr}
    (hh : h ∈ S) (p : Payload) :
    (loadRecord mem h).Live ∧ (loadRecord mem h).payload = p ↔
      lastOn h ops = some (.create h p) := by
  rw [← CapRecord.object_eq_some_iff, ← contents_eq_some_iff, ← hsim.objects h hh]
  rfl

/-- A ready factory dispatches every such request. -/
theorem FactoryCall.dispatched {c : Call} (hc : FactoryCall img S c) {mem : Mem 64}
    (hready : FactoryReady img mem) : Dispatched mem c := by
  unfold Dispatched
  rw [hc.target]
  cases hc with
  | create _ _ hmethod hroot _ _ =>
      rw [hmethod]
      exact hready.dispatches (List.mem_cons_self : ⟨factoryMethodCreate, 0, 1⟩ ∈ gFactoryMethods)
        hroot
  | destroy _ _ hmethod hroot _ =>
      rw [hmethod]
      exact hready.dispatches (List.mem_cons_of_mem _ List.mem_cons_self :
        ⟨factoryMethodDestroy, 2, schemaIdxNone⟩ ∈ gFactoryMethods) hroot

end Simulation

/-- One storage for a record, away from the sample image. -/
theorem sampleArena : Arena sampleImage {0x3000#64} where
  ne_zero := by
    rintro a rfl
    decide
  apart := by
    rintro a rfl b rfl hne
    exact absurd rfl hne
  clear := by
    rintro a rfl
    exact separate_of_toNat_le (by decide) (by decide)

end Cap
end Saski
