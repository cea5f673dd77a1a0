import Saski.Cap.FactoryReady
import Saski.Lib.Run

/-!
# Runs of the kernel on its factory

A run is a sequence of `kernel_invoke` calls.  Past its gate a call changes
memory only through the handler it dispatches to, and `factory_handler` changes
it only by the record write of its request.  So the factory's record survives
every run whose record writes stay clear of it.

DESTROY refuses the factory's own handle.  CREATE has no such guard: a request
that names the factory's record as storage replaces the factory by the object it
describes.
-/

namespace Saski
namespace Cap

open ByteMemory Capnp Logged Run

/-- One `kernel_invoke` call. -/
structure Call where
  target : Addr
  methodId : Nat
  msg : Buffer
  len : Nat
  response : Buffer
  responseCap : Nat

/-- The memory after one call. -/
def invoke (code : Code) (mem : Mem 64) (c : Call) : Mem 64 :=
  (kernelInvoke code mem c.target c.methodId c.msg c.len c.response c.responseCap).value.mem

/-- The call reaches the handler of its target. -/
def Dispatched (mem : Mem 64) (c : Call) : Prop :=
  ∃ idx, GateOpen mem c.target c.methodId c.msg c.len idx

theorem invoke_of_dispatched (code : Code) {mem : Mem 64} {c : Call} (h : Dispatched mem c) :
    invoke code mem c = (handlerRun code mem c.target c.methodId c.msg c.len c.response
      c.responseCap).mem := by
  obtain ⟨idx, hgate⟩ := h
  exact mem_kernelInvoke_of_gateOpen code c.response c.responseCap hgate

theorem invoke_of_not_dispatched (code : Code) {mem : Mem 64} {c : Call}
    (h : ¬ Dispatched mem c) : invoke code mem c = mem := by
  have hvalue := (kernelInvoke_of_gate_closed code c.response c.responseCap h).1
  unfold invoke
  rw [hvalue]

/-- The factory's handler behind its function pointer. -/
theorem handlerRun_factoryCode {img : Image} (others : Code) {mem : Mem 64} {c : Call}
    (h : loadRecord mem c.target .handler = img.factoryHandler.toNat) :
    (handlerRun (factoryCode img others) mem c.target c.methodId c.msg c.len c.response
      c.responseCap).mem = applyRecordWrite mem (factoryWrite img c.methodId c.msg mem) := by
  unfold handlerRun factoryCode
  rw [if_pos h]
  exact factoryHandler_mem img c.methodId c.msg c.response c.responseCap mem

/-! ## Record writes and regions -/

/-- The record write of the request, if it makes one, stays clear of the region
`R`.  CREATE writes at the storage it is given unless that is null; DESTROY
writes at its target unless that is the factory or not live. -/
structure WriteClear (img : Image) (R : Addr → Prop) (mem : Mem 64) (c : Call) : Prop where
  create : c.methodId = factoryMethodCreate → wordOf c.msg 4 = 0 ∨
    ∀ x, R x → ¬ InExtent (BitVec.ofNat 64 (wordOf c.msg 4)) recordSize x
  destroy : c.methodId = factoryMethodDestroy → wordOf c.msg 0 = img.factoryRecord.toNat ∨
    ¬ (loadRecord mem (BitVec.ofNat 64 (wordOf c.msg 0))).Live ∨
    ∀ x, R x → ¬ InExtent (BitVec.ofNat 64 (wordOf c.msg 0)) recordSize x

theorem WriteClear.keeps {img : Image} {R : Addr → Prop} {mem : Mem 64} {c : Call}
    (h : WriteClear img R mem c) {x : Addr} (hx : R x) :
    applyRecordWrite mem (factoryWrite img c.methodId c.msg mem) x = mem x := by
  unfold factoryWrite
  by_cases hcreate : c.methodId = factoryMethodCreate
  · rw [if_pos hcreate]
    by_cases hnull : wordOf c.msg 4 = 0
    · rw [if_pos hnull]
      rfl
    · have hclear := (h.create hcreate).resolve_left hnull
      rw [if_neg hnull]
      exact storeFields_of_not_inExtent _ _ _ (hclear x hx)
  · rw [if_neg hcreate]
    by_cases hdestroy : c.methodId = factoryMethodDestroy
    · rw [if_pos hdestroy]
      by_cases hself : wordOf c.msg 0 = img.factoryRecord.toNat
      · rw [if_pos hself]
        rfl
      · rw [if_neg hself]
        by_cases hlive : (loadRecord mem (BitVec.ofNat 64 (wordOf c.msg 0))).Live
        · have hclear := ((h.destroy hdestroy).resolve_left hself).resolve_left (not_not.mpr hlive)
          rw [if_pos hlive]
          exact storeFields_of_not_inExtent _ _ _ (hclear x hx)
        · rw [if_neg hlive]
          rfl
    · rw [if_neg hdestroy]
      rfl

theorem WriteClear.restrict {img : Image} {R R' : Addr → Prop} {mem : Mem 64} {c : Call}
    (h : WriteClear img R mem c) (hsub : ∀ x, R' x → R x) : WriteClear img R' mem c where
  create := fun hc => (h.create hc).imp_right fun hclear x hx => hclear x (hsub x hx)
  destroy := fun hd =>
    (h.destroy hd).imp_right fun hlive => hlive.imp_right fun hclear x hx => hclear x (hsub x hx)

/-- A call on an object that the factory's handler serves leaves a region alone
if its record write does. -/
theorem invoke_keeps {img : Image} (others : Code) {R : Addr → Prop} {mem : Mem 64} {c : Call}
    (hhandler : loadRecord mem c.target .handler = img.factoryHandler.toNat)
    (hclear : WriteClear img R mem c) {x : Addr} (hx : R x) :
    invoke (factoryCode img others) mem c x = mem x := by
  by_cases hcall : Dispatched mem c
  · rw [invoke_of_dispatched _ hcall, handlerRun_factoryCode others hhandler]
    exact hclear.keeps hx
  · rw [invoke_of_not_dispatched _ hcall]

/-! ## Runs on the factory -/

/-- The factory's record as bootstrap wrote it. -/
def FactoryRecordIntact (img : Image) (mem : Mem 64) : Prop :=
  loadRecord mem img.factoryRecord = (factoryPayload img).record

theorem FactoryRecordIntact.handler {img : Image} {mem : Mem 64} (h : FactoryRecordIntact img mem) :
    loadRecord mem img.factoryRecord .handler = img.factoryHandler.toNat := by
  rw [h]
  exact Nat.mod_eq_of_lt img.factoryHandler.isLt

/-- One call keeps the record. -/
theorem factoryRecordIntact_step {img : Image} (others : Code) {mem : Mem 64} {c : Call}
    (h : FactoryRecordIntact img mem) (htarget : c.target = img.factoryRecord)
    (hclear : WriteClear img (InExtent img.factoryRecord recordSize) mem c) :
    FactoryRecordIntact img (invoke (factoryCode img others) mem c) := by
  have hhandler : loadRecord mem c.target .handler = img.factoryHandler.toNat := by
    rw [htarget]
    exact h.handler
  unfold FactoryRecordIntact
  rw [← h]
  apply loadRecord_of_sameBytes
  apply sameBytes_of_agree (by decide)
  intro x hx
  exact invoke_keeps others hhandler hclear hx

/-- One call keeps the whole factory ready. -/
theorem factoryReady_step {img : Image} (others : Code) {mem : Mem 64} {c : Call}
    (h : FactoryReady img mem) (htarget : c.target = img.factoryRecord)
    (hclear : WriteClear img img.Owns mem c) :
    FactoryReady img (invoke (factoryCode img others) mem c) := by
  have hhandler : loadRecord mem c.target .handler = img.factoryHandler.toNat := by
    rw [htarget]
    exact h.handler
  apply h.of_agree
  intro x hx
  exact invoke_keeps others hhandler hclear hx

/-- A ready factory dispatches every well-formed request for one of its methods. -/
theorem FactoryReady.dispatches {img : Image} {mem : Mem 64} (h : FactoryReady img mem)
    {method : MethodSchema} (hmethod : method ∈ gFactoryMethods) {msg : Buffer} {len : Nat}
    (hroot : HasRootStruct msg len (requestWords method)) :
    ∃ idx, GateOpen mem img.factoryRecord method.methodId msg len idx := by
  obtain ⟨idx, hentry⟩ := List.getElem?_of_mem hmethod
  exact ⟨idx, h.gateOpen_iff.mpr ⟨method, hentry, rfl, hroot⟩⟩

/-- **The factory is permanent as long as no request writes over it.**  After
bootstrap, along every run of calls on the factory whose record writes stay clear
of the factory's record, that record keeps its magic, validity, handler, table
and index.  If they also stay clear of the factory's table and arrays, the handle
keeps dispatching CREATE and DESTROY to `factory_handler`. -/
theorem factory_permanent (img : Image) (others : Code) {s s₀ : KernelState}
    {caps : InitialCapabilities} (hfresh : FreshImage img s.mem)
    (hboot : kernelCapBootstrap img s = some (caps, s₀)) (cs : List Call)
    (htarget : ∀ c ∈ cs, c.target = img.factoryRecord)
    (hclear : Guarded (invoke (factoryCode img others))
      (WriteClear img (InExtent img.factoryRecord recordSize)) s₀.mem cs) :
    let mem := cs.foldl (invoke (factoryCode img others)) s₀.mem
    let record := loadRecord mem img.factoryRecord
    (record .magic = capRecordMagic ∧ record .valid = 1 ∧
        record .handler = img.factoryHandler.toNat ∧
        record .schemaTable = img.factoryTable.toNat ∧ record .schemaIndex = 0) ∧
      (Guarded (invoke (factoryCode img others)) (WriteClear img img.Owns) s₀.mem cs →
        ∀ method ∈ gFactoryMethods, ∀ (msg : Buffer) (len : Nat),
          HasRootStruct msg len (requestWords method) →
          ∀ (response : Buffer) (responseCap : Nat),
            calls (kernelInvoke (factoryCode img others) mem img.factoryRecord method.methodId
              msg len response responseCap).log =
                [(img.factoryHandler.toNat, 0, method.methodId)]) := by
  intro mem record
  obtain ⟨-, hready₀⟩ := factoryReady_of_bootstrap hfresh hboot
  -- The target is part of the guard, so that the invariant rule sees it.
  have hguard : ∀ {G : Mem 64 → Call → Prop},
      Guarded (invoke (factoryCode img others)) G s₀.mem cs →
      Guarded (invoke (factoryCode img others))
        (fun mem c => c.target = img.factoryRecord ∧ G mem c) s₀.mem cs := by
    intro G hG
    exact (guarded_of_forall htarget).and hG
  constructor
  · have hintact : FactoryRecordIntact img mem :=
      (hguard hclear).invariant
        (fun mem c h hc => factoryRecordIntact_step others h hc.1 hc.2) hready₀.record
    have hrecord : record = (factoryPayload img).record := hintact
    rw [hrecord]
    exact ⟨rfl, rfl, Nat.mod_eq_of_lt img.factoryHandler.isLt,
      Nat.mod_eq_of_lt img.factoryTable.isLt, rfl⟩
  · intro howned method hmethod msg len hroot response responseCap
    have hready : FactoryReady img mem :=
      (hguard howned).invariant
        (fun mem c h hc => factoryReady_step others h hc.1 hc.2) hready₀
    obtain ⟨idx, hgate⟩ := hready.dispatches hmethod hroot
    rw [calls_kernelInvoke_of_gateOpen _ _ _ hgate, hready.handler, hready.data]

/-- No code but the factory's. -/
def idleCode : Code := fun _ _ _ _ _ response _ mem => ⟨mem, response.bytes, 0⟩

/-- A call of CREATE on the sample factory. -/
def sampleCreate (msg : Buffer) : Call :=
  ⟨sampleImage.factoryRecord, factoryMethodCreate, msg, 56, ⟨false, fun _ => 0⟩, 24⟩

theorem flatRequest_clear (mem : Mem 64) :
    WriteClear sampleImage sampleImage.Owns mem (sampleCreate flatRequest) where
  create := by
    intro _
    right
    intro x hx
    have hsep : Separate sampleImage.base sampleImage.layout.size
        (BitVec.ofNat 64 (wordOf flatRequest 4)) recordSize :=
      separate_of_toNat_le (by decide) (by decide)
    exact hsep x (sampleImage.inExtent_of_owns hx)
  destroy := by
    intro h
    exact absurd h (by decide)

/-- A CREATE of an object elsewhere leaves the sample factory dispatching. -/
theorem sampleFactory_permanent :
    let s₀ : KernelState := ⟨bindFactory sampleImage sampleMemory, 0⟩
    (FreshImage sampleImage sampleMemory ∧
        kernelCapBootstrap sampleImage ⟨sampleMemory, 1⟩ = some (⟨1, 0x1000⟩, s₀) ∧
        Guarded (invoke (factoryCode sampleImage idleCode)) (WriteClear sampleImage
          sampleImage.Owns) s₀.mem [sampleCreate flatRequest]) ∧
      loadRecord (invoke (factoryCode sampleImage idleCode) s₀.mem (sampleCreate flatRequest))
        sampleImage.factoryRecord .handler = 0x10C0 ∧
      calls (kernelInvoke (factoryCode sampleImage idleCode)
        (invoke (factoryCode sampleImage idleCode) s₀.mem (sampleCreate flatRequest))
        sampleImage.factoryRecord 0 flatRequest 56 ⟨false, fun _ => 0⟩ 24).log =
          [(0x10C0, 0, 0)] := by
  intro s₀
  have hboot : kernelCapBootstrap sampleImage ⟨sampleMemory, 1⟩ = some (⟨1, 0x1000⟩, s₀) :=
    kernelCapBootstrap_of_fresh sampleMemory_fresh
  have howned : Guarded (invoke (factoryCode sampleImage idleCode)) (WriteClear sampleImage
      sampleImage.Owns) s₀.mem [sampleCreate flatRequest] := ⟨flatRequest_clear _, trivial⟩
  have hrecord : Guarded (invoke (factoryCode sampleImage idleCode)) (WriteClear sampleImage
      (InExtent sampleImage.factoryRecord recordSize)) s₀.mem [sampleCreate flatRequest] :=
    howned.mono fun _ _ h => h.restrict fun x hx => ⟨_, sampleImage.mem_statics_record, hx⟩
  have hroot : HasRootStruct flatRequest 56 (requestWords ⟨0, 0, 1⟩) := by
    decide
  obtain ⟨⟨-, -, hhandler, -⟩, hdispatch⟩ := factory_permanent sampleImage idleCode
    sampleMemory_fresh hboot [sampleCreate flatRequest] (by simp [sampleCreate]) hrecord
  exact ⟨⟨sampleMemory_fresh, hboot, howned⟩, hhandler,
    hdispatch howned ⟨0, 0, 1⟩ List.mem_cons_self flatRequest 56 hroot _ 24⟩

/-- A CREATE request whose storage is the sample factory's own record. -/
def replacingRequest : Buffer :=
  Buffer.ofList
    [0, 0, 0, 0, 6, 0, 0, 0,
      0, 0, 0, 0, 5, 0, 0, 0,
      0x40, 0, 0, 0, 0, 0, 0, 0, 0x50, 0, 0, 0, 0, 0, 0, 0,
      0x60, 0, 0, 0, 0, 0, 0, 0, 2, 0, 0, 0, 0, 0, 0, 0,
      0x00, 0x10, 0, 0, 0, 0, 0, 0]

/-- One call of CREATE after bootstrap replaces the factory: its record then has
the handler, the table and the index of the request. -/
theorem create_replaces_factory :
    ((kernelCapBootstrap sampleImage ⟨sampleMemory, 0⟩).map fun r =>
      let mem := invoke (factoryCode sampleImage idleCode) r.2.mem (sampleCreate replacingRequest)
      (r.1.factory, loadRecord mem sampleImage.factoryRecord .handler,
        loadRecord mem sampleImage.factoryRecord .schemaTable,
        loadRecord mem sampleImage.factoryRecord .schemaIndex)) =
      some (sampleImage.factoryRecord.toNat, 0x40, 0x60, 2) := by
  decide

end Cap
end Saski
