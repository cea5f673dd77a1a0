import Saski.Cap.InMemory
import Saski.Cap.ObjectMap

/-!
# The object map in memory

The runs of `Saski.Cap.ObjectMap` in the memory that the C code works on.  A caller takes
turns: it writes what it likes to memory of its own, a request among it, and calls the
factory (`Turn`).  The factory's objects, the lock word and the storages are not memory of
its own (`Protected`).

`factory_refines_objectMap` says what a handle is good for behind every such run: a call on
it gets past the capability check exactly if the last effective operation on it was a
CREATE, and to the handler of that CREATE exactly with the methods of its schema.  The
storages must not overlap the lock word, since `cap_unlock` would write into a record that
CREATE has just made (`createOverLock_not_live`).
-/

namespace Saski
namespace Cap

open ByteMemory Capnp KeyedStore Run

/-! ## Turns -/

/-- What callers leave alone: the factory's objects, the lock word and the storages. -/
def Protected (img : Image) (S : Set Addr) (x : Addr) : Prop :=
  img.Owns x ∨ InExtent img.capLock 4 x ∨ ∃ a ∈ S, InExtent a recordSize x

/-- A caller hands over the memory with a call. -/
structure Turn where
  mem : Mem 64
  call : CallAt

/-- The memory in which the call looks at its request. -/
def Turn.begun (t : Turn) : Mem 64 := t.call.begun t.mem

def Turn.request (t : Turn) : Call := t.call.call t.begun

/-- The caller has written only to memory of its own, and the response will go there too. -/
structure OwnTurn (img : Image) (S : Set Addr) (mem : Mem 64) (t : Turn) : Prop where
  same : ∀ x, Protected img S x → t.mem x = mem x
  outputs : ∀ x, Protected img S x → ¬ t.call.Outputs x

/-- A request to the factory about one of the storages. -/
structure FactoryTurn (img : Image) (S : Set Addr) (mem : Mem 64) (t : Turn) : Prop
    extends OwnTurn img S mem t where
  asks : FactoryCall img S t.request

/-- Memory behind a turn. -/
def takeTurn (img : Image) (others : CodeAt) (_ : Mem 64) (t : Turn) : Mem 64 :=
  ((kernelInvokeAt img (factoryCodeAt img others) t.mem t.call).map Prod.snd).getD t.mem

/-- The operation that a call performs: nothing, if it does not get to the handler. -/
def effectiveAt (mem : Mem 64) (c : CallAt) : Option Op :=
  match admission mem (loadRecord mem c.target) c.toArguments with
  | .dispatch .. => requestedOp mem (c.call mem)
  | _ => none

/-- The method of a call is one of the object's, and the request conforms to it. -/
def Payload.Offers (p : Payload) (mem : Mem 64) (a : Arguments) : Prop :=
  ∃ idx, FirstMethod (loadSchemaTable mem (BitVec.ofNat 64 p.schemaTable)) p.schemaIndex
      a.methodId idx ∧
    Conforms (bufferAt mem a.msg) a.len (loadSchemaTable mem (BitVec.ofNat 64 p.schemaTable))
      (loadMethodSchema mem (entryAddr (loadDescriptor mem
        (BitVec.ofNat 64 p.schemaTable)).methods methodSchemaSize idx)).paramSchema

/-- This is the effective operation of the level above. -/
theorem effectiveAt_eq (code : Code) (mem : Mem 64) (c : CallAt) :
    effectiveAt mem c = effectiveOp code mem (c.call mem) := by
  unfold effectiveAt effectiveOp
  by_cases hcall : Dispatched mem (c.call mem)
  · rw [if_neg fun hnil => (calls_eq_nil_iff code mem (c.call mem)).mp hnil hcall]
    obtain ⟨idx, hgate⟩ := hcall
    rw [admission_eq_dispatch_iff.mpr ⟨idx, hgate, rfl, rfl, rfl, rfl⟩]
  · rw [if_pos ((calls_eq_nil_iff code mem (c.call mem)).mpr hcall)]
    cases hadmission : admission mem (loadRecord mem c.target) c.toArguments with
    | dispatch =>
        obtain ⟨idx, hgate, -⟩ := admission_eq_dispatch_iff.mp hadmission
        exact absurd ⟨idx, hgate⟩ hcall
    | invalidCapability => rfl
    | noMethod => rfl
    | requestRejected => rfl

/-- Behind a live record, a call gets to the record's handler with the methods of its
schema. -/
theorem admission_reaches_iff {mem : Mem 64} {c : CallAt} {p : Payload}
    (hlive : (loadRecord mem c.target).Live) (hpayload : (loadRecord mem c.target).payload = p)
    (handler data : Nat) :
    (admission mem (loadRecord mem c.target) c.toArguments).Reaches handler data ↔
      handler = p.handler ∧ data = p.data ∧ p.Offers mem c.toArguments := by
  subst hpayload
  constructor
  · rintro ⟨tableAddr, methodAddr, hadmission⟩
    obtain ⟨idx, hgate, hhandler, hdata, -⟩ := admission_eq_dispatch_iff.mp hadmission
    exact ⟨hhandler, hdata, idx, hgate.method, hgate.conforms⟩
  · rintro ⟨hhandler, hdata, idx, hmethod, hconforms⟩
    exact ⟨_, _, admission_eq_dispatch_iff.mpr
      ⟨idx, ⟨hlive, hmethod, hconforms⟩, hhandler, hdata, rfl, rfl⟩⟩

/-! ## What a turn preserves -/

section Turns

variable {img : Image} {S : Set Addr} {mem mem' : Mem 64} {m : ObjectMap} {t : Turn}

theorem OwnTurn.begun_eq (ht : OwnTurn img S mem t) {x : Addr} (hx : Protected img S x) :
    t.begun x = mem x :=
  (t.call.begun_of_not_outputs (ht.outputs x hx)).trans (ht.same x hx)

theorem LockFree.of_agree (h : LockFree img mem)
    (hagree : ∀ x, Protected img S x → mem' x = mem x) : LockFree img mem' :=
  (load_congr (by decide) fun x hx => hagree x (.inr (.inl hx))).trans h

theorem loadRecord_of_agree (hagree : ∀ x, Protected img S x → mem' x = mem x) {r : Addr}
    (hr : ∀ x, InExtent r recordSize x → Protected img S x) :
    loadRecord mem' r = loadRecord mem r :=
  loadRecord_of_sameBytes (sameBytes_of_agree (by decide) fun x hx => hagree x (hr x hx))

/-- The simulation is a matter of the protected bytes. -/
theorem Simulates.of_agree (h : Simulates img S mem m)
    (hagree : ∀ x, Protected img S x → mem' x = mem x) : Simulates img S mem' m := by
  constructor
  · unfold FactoryRecordIntact
    rw [← h.intact]
    exact loadRecord_of_agree hagree fun x hx => .inl ⟨_, img.mem_statics_record, hx⟩
  · intro a ha
    rw [← h.objects a ha]
    unfold objectAt
    rw [loadRecord_of_agree hagree fun x hx => .inr (.inr ⟨a, ha, hx⟩)]

theorem FactoryCall.lockClear (hlock : ∀ a ∈ S, Separate a recordSize img.capLock 4) {c : Call}
    (hc : FactoryCall img S c) : LockClear img c.methodId c.msg := by
  cases hc with
  | create _ hflat hmethod _ hstorage _ =>
      constructor
      · intro _
        right
        rw [wordOf_eq_rootWord hflat]
        exact hlock _ hstorage
      · intro hdestroy
        rw [hmethod] at hdestroy
        exact absurd hdestroy (by decide)
  | destroy _ hflat hmethod _ hstorage =>
      constructor
      · intro hcreate
        rw [hmethod] at hcreate
        exact absurd hcreate (by decide)
      · intro _
        right
        rw [wordOf_eq_rootWord hflat]
        exact hlock _ hstorage

theorem OwnTurn.ready_begun (ht : OwnTurn img S mem t) (hready : FactoryReady img mem) :
    FactoryReady img t.begun :=
  hready.of_agree fun _ hx => ht.begun_eq (.inl hx)

variable (others : CodeAt) (hlock : ∀ a ∈ S, Separate a recordSize img.capLock 4)

include hlock

/-- What the capability check makes of a call on a storage. -/
theorem Simulates.admitted {ops : List Op} (hsim : Simulates img S mem (contents ops))
    (hfree : LockFree img mem) (ht : OwnTurn img S mem t) (htarget : t.call.target ∈ S) :
    ∃ a, Cap.admitted img t.mem t.call = some (a, t.begun) ∧
      (a ≠ .invalidCapability ↔ ∃ p, lastOn t.call.target ops = some (.create t.call.target p)) ∧
      ∀ p, lastOn t.call.target ops = some (.create t.call.target p) → ∀ handler data,
        a.Reaches handler data ↔
          handler = p.handler ∧ data = p.data ∧ p.Offers t.begun t.call.toArguments := by
  have hagree : ∀ x, Protected img S x → t.begun x = mem x := fun _ => ht.begun_eq
  have hobject := (hsim.of_agree hagree).live_payload_iff htarget
  refine ⟨_, admitted_eq (hfree.of_agree hagree) (hlock _ htarget), ?_, ?_⟩
  · rw [admission_ne_invalidCapability_iff]
    constructor
    · intro hlive
      exact ⟨_, (hobject _).mp ⟨hlive, rfl⟩⟩
    · rintro ⟨p, hlast⟩
      exact ((hobject p).mpr hlast).1
  · intro p hlast handler data
    obtain ⟨hlive, hpayload⟩ := (hobject p).mpr hlast
    exact admission_reaches_iff hlive hpayload handler data

/-- A turn comes to its end, and outside of the response it does what the call of the level
above does. -/
theorem FactoryTurn.returns (hintact : FactoryRecordIntact img mem) (hfree : LockFree img mem)
    (ht : FactoryTurn img S mem t) :
    ∃ ret, kernelInvokeAt img (factoryCodeAt img others) t.mem t.call =
        some (ret, takeTurn img others mem t) ∧
      ∀ x, ¬ t.call.Outputs x →
        takeTurn img others mem t x = invoke (factoryCode img idleCode) t.begun t.request x := by
  have htarget : t.call.target = img.factoryRecord := ht.asks.target
  have hagree : ∀ x, Protected img S x → t.begun x = mem x := fun _ => ht.begun_eq
  have hhandler : loadRecord t.begun t.call.target .handler = img.factoryHandler.toNat := by
    rw [htarget, loadRecord_of_agree hagree fun x hx => .inl ⟨_, img.mem_statics_record, hx⟩]
    exact hintact.handler
  have hsep : Separate t.call.target recordSize img.capLock 4 := by
    rw [htarget]
    exact img.record_separate_lock
  obtain ⟨ret, mem', hrun, hsame⟩ := kernelInvokeAt_factory others (hfree.of_agree hagree) hsep
    hhandler (ht.asks.lockClear hlock)
  have hmem' : takeTurn img others mem t = mem' := by
    unfold takeTurn
    rw [hrun]
    rfl
  rw [hmem']
  exact ⟨ret, hrun, hsame⟩

/-- A turn on the storages leaves the lock free. -/
theorem FactoryTurn.lockFree (hintact : FactoryRecordIntact img mem) (hfree : LockFree img mem)
    (ht : FactoryTurn img S mem t) : LockFree img (takeTurn img others mem t) := by
  obtain ⟨-, -, hsame⟩ := ht.returns others hlock hintact hfree
  have hagree : ∀ x, Protected img S x → t.begun x = mem x := fun _ => ht.begun_eq
  have hintact' : FactoryRecordIntact img t.begun := by
    unfold FactoryRecordIntact
    rw [loadRecord_of_agree hagree fun x hx => .inl ⟨_, img.mem_statics_record, hx⟩]
    exact hintact
  have hhandler : loadRecord t.begun t.request.target .handler = img.factoryHandler.toNat := by
    rw [ht.asks.target]
    exact hintact'.handler
  have hclear : WriteClear img (InExtent img.capLock 4) t.begun t.request :=
    ht.asks.writeClear (fun a ha x hx hin => hlock a ha x hin hx) t.begun
  refine (load_congr (by decide) fun x hx => ?_).trans (hfree.of_agree hagree)
  rw [hsame x (ht.outputs x (.inr (.inl hx)))]
  exact invoke_keeps idleCode hhandler hclear hx

/-- One turn simulates its effective operation, if it has one. -/
theorem Simulates.takeTurn (harena : Arena img S) (hsim : Simulates img S mem m)
    (hfree : LockFree img mem) (ht : FactoryTurn img S mem t) :
    Simulates img S (takeTurn img others mem t)
      ((effectiveAt t.begun t.call).toList.foldl Store.apply m) := by
  obtain ⟨-, -, hsame⟩ := ht.returns others hlock hsim.intact hfree
  rw [effectiveAt_eq (factoryCode img idleCode)]
  refine ((hsim.of_agree fun _ => ht.begun_eq).step idleCode harena ht.asks).of_agree ?_
  exact fun x hx => hsame x (ht.outputs x hx)

/-- A DESTROY of a handle that is not live changes nothing but the response. -/
theorem Simulates.takeTurn_of_dead (harena : Arena img S) (hsim : Simulates img S mem m)
    (hfree : LockFree img mem) (ht : FactoryTurn img S mem t) {h : Addr}
    (hop : opOf t.request = some (.destroy h)) (hdead : objectAt mem h = none) {x : Addr}
    (hx : ¬ t.call.Outputs x) : Cap.takeTurn img others mem t x = t.mem x := by
  obtain ⟨-, -, hsame⟩ := ht.returns others hlock hsim.intact hfree
  have hsim' := hsim.of_agree fun x hx => ht.begun_eq hx
  obtain ⟨op', hop', hstorage⟩ := ht.asks.exists_op
  obtain rfl : op' = .destroy h := Option.some.inj (hop'.symm.trans hop)
  have hdead' : ¬ (loadRecord t.begun h).Live := by
    rw [← CapRecord.object_eq_none_iff]
    exact (hsim'.objects h hstorage).trans ((hsim.objects h hstorage).symm.trans hdead)
  have hbegun : t.begun x = t.mem x := t.call.begun_of_not_outputs hx
  rw [hsame x hx, invoke_eq_effective idleCode harena hsim'.intact ht.asks,
    effectiveOp_of_dead _ hop hdead', ← hbegun]
  rfl

/-- A record that overlaps neither the storage nor the response is left alone. -/
theorem Simulates.loadRecord_takeTurn (harena : Arena img S) (hsim : Simulates img S mem m)
    (hfree : LockFree img mem) (ht : FactoryTurn img S mem t) {op : Op}
    (hop : opOf t.request = some op) {r : Addr} (hsep : Separate r recordSize op.key recordSize)
    (hr : ∀ x, InExtent r recordSize x → ¬ t.call.Outputs x) :
    loadRecord (Cap.takeTurn img others mem t) r = loadRecord t.mem r := by
  obtain ⟨-, -, hsame⟩ := ht.returns others hlock hsim.intact hfree
  have hsim' := hsim.of_agree fun x hx => ht.begun_eq hx
  have hkept : loadRecord (Cap.takeTurn img others mem t) r =
      loadRecord (invoke (factoryCode img idleCode) t.begun t.request) r :=
    loadRecord_of_sameBytes (sameBytes_of_agree (by decide) fun x hx => hsame x (hr x hx))
  rw [hkept, loadRecord_invoke_separate idleCode harena hsim'.intact ht.asks hop hsep]
  exact loadRecord_of_sameBytes (sameBytes_of_agree (by decide) fun x hx =>
    t.call.begun_of_not_outputs (hr x hx))

/-- If the storages are apart from the factory's table and arrays, then the factory stays
ready. -/
theorem FactoryTurn.ready (hclear : ∀ a ∈ S, ∀ x, img.Owns x → ¬ InExtent a recordSize x)
    (hready : FactoryReady img mem) (hfree : LockFree img mem) (ht : FactoryTurn img S mem t) :
    FactoryReady img (Cap.takeTurn img others mem t) := by
  obtain ⟨-, -, hsame⟩ := ht.returns others hlock hready.record hfree
  refine (factoryReady_step idleCode (ht.ready_begun hready) ht.asks.target
    (ht.asks.writeClear hclear t.begun)).of_agree fun x hx => ?_
  exact hsame x (ht.outputs x (.inl hx))

end Turns

/-- A caller with its request at `0x6000` and the places for the response behind it. -/
def sampleTurn (mem : Mem 64) (target : Addr) (methodId : Nat) (request : List UInt8) : Turn where
  mem := fill mem 0x6000#64 0 request.length (request.getD · 0)
  call := ⟨⟨methodId, 0x6000#64, request.length, 0x7000#64, 24, 0x7100#64⟩, target⟩

/-- CREATE with the schema of the factory itself. -/
def createRequest (handler data storageLow storageHigh : UInt8) : List UInt8 :=
  [0, 0, 0, 0, 6, 0, 0, 0,
    0, 0, 0, 0, 5, 0, 0, 0,
    handler, 0, 0, 0, 0, 0, 0, 0, data, 0, 0, 0, 0, 0, 0, 0,
    0x40, 0x10, 0, 0, 0, 0, 0, 0, 0, 0, 0, 0, 0, 0, 0, 0,
    storageLow, storageHigh, 0, 0, 0, 0, 0, 0]

/-- DESTROY of `0x3000`. -/
def destroyRequest : List UInt8 :=
  [0, 0, 0, 0, 2, 0, 0, 0,
    0, 0, 0, 0, 1, 0, 0, 0,
    0, 0x30, 0, 0, 0, 0, 0, 0]

/-- Other code that does nothing. -/
def idleCodeAt : CodeAt := fun _ _ _ mem => some mem

/-- Such a caller writes to memory of its own if the storages lie below it. -/
theorem sampleTurn_own {S : Set Addr} (hS : ∀ a ∈ S, a.toNat + recordSize ≤ 0x6000)
    (mem : Mem 64) (target : Addr) (methodId : Nat) {request : List UInt8}
    (hlength : request.length ≤ 0x1000) :
    OwnTurn sampleImage S mem (sampleTurn mem target methodId request) := by
  have hbelow : ∀ x, Protected sampleImage S x → x.toNat < 0x6000 := by
    have hin : ∀ {a x : Addr} {n : Nat}, a.toNat + n ≤ 0x6000 → InExtent a n x →
        x.toNat < 0x6000 := by
      intro a x n hle hx
      have hmem := (mem_extent_iff (show a.toNat + n ≤ 2 ^ 64 by omega)).mp hx
      omega
    rintro x (howns | hlock | ⟨a, ha, hx⟩)
    · exact hin (by decide) (sampleImage.inExtent_of_owns howns)
    · exact hin (by decide) hlock
    · exact hin (hS a ha) hx
  have hout : ∀ {a x : Addr} {n : Nat}, 0x6000 ≤ a.toNat → a.toNat + n ≤ 2 ^ 64 →
      x.toNat < 0x6000 → ¬ InExtent a n x := by
    intro a x n hlow hfits hx hin
    have hmem := (mem_extent_iff hfits).mp hin
    omega
  constructor
  · intro x hx
    have hbuffer : ¬ InExtent 0x6000#64 request.length x :=
      hout (by decide) (show 0x6000 + request.length ≤ 2 ^ 64 by omega) (hbelow x hx)
    change fill mem 0x6000#64 0 request.length (request.getD · 0) x = mem x
    exact fill_of_notMem hbuffer _
  · rintro x hx (hin | hin)
    · exact hout (a := 0x7100#64) (n := 8) (by decide) (by decide) (hbelow x hx) hin
    · exact hout (a := 0x7000#64) (n := 24) (by decide) (by decide) (hbelow x hx) hin

/-- The memory that bootstrap leaves. -/
def sampleBooted : Mem 64 := bindFactory sampleImage (store sampleMemory sampleImage.capLock 4 0)

theorem sampleBooted_eq :
    kernelCapBootstrapAt sampleImage sampleMemory = some (⟨1, 0x1000⟩, sampleBooted) := by
  unfold kernelCapBootstrapAt
  rw [if_neg (by decide)]
  rfl

/-- CREATE at `0x3000`, its DESTROY, and another CREATE there. -/
def sampleTurn₁ : Turn := sampleTurn sampleBooted 0x1000#64 0 (createRequest 0x40 0x50 0 0x30)
@[inherit_doc sampleTurn₁]
def sampleTurn₂ : Turn :=
  sampleTurn (takeTurn sampleImage idleCodeAt sampleBooted sampleTurn₁) 0x1000#64 1 destroyRequest
@[inherit_doc sampleTurn₁]
def sampleTurn₃ : Turn :=
  sampleTurn ([sampleTurn₁, sampleTurn₂].foldl (takeTurn sampleImage idleCodeAt) sampleBooted)
    0x1000#64 0 (createRequest 0x44 0x54 0 0x30)

/-- A call on the object at `0x3000` behind these turns. -/
def sampleCallTurn : Turn :=
  sampleTurn ([sampleTurn₁, sampleTurn₂, sampleTurn₃].foldl (takeTurn sampleImage idleCodeAt)
    sampleBooted) 0x3000#64 1 destroyRequest

theorem sampleTurns_guarded :
    Guarded (takeTurn sampleImage idleCodeAt) (FactoryTurn sampleImage {0x3000#64}) sampleBooted
      [sampleTurn₁, sampleTurn₂, sampleTurn₃] := by
  have hS : ∀ a ∈ ({0x3000#64} : Set Addr), a.toNat + recordSize ≤ 0x6000 := by
    rintro a rfl
    decide
  refine ⟨⟨sampleTurn_own hS _ _ _ (by decide), ?_⟩, ⟨sampleTurn_own hS _ _ _ (by decide), ?_⟩,
    ⟨sampleTurn_own hS _ _ _ (by decide), ?_⟩, trivial⟩
  · exact .create rfl (by decide +kernel) rfl (by decide +kernel) (by decide +kernel)
      (by decide +kernel)
  · exact .destroy rfl (by decide +kernel) rfl (by decide +kernel) (by decide +kernel)
  · exact .create rfl (by decide +kernel) rfl (by decide +kernel) (by decide +kernel)
      (by decide +kernel)

/-- CREATE over the lock word. -/
def lockTurn : Turn := sampleTurn sampleBooted 0x1000#64 0 (createRequest 0x40 0x50 0xD0 0x10)

end Cap
end Saski
