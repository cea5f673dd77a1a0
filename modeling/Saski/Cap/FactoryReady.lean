import Saski.Cap.DispatchGate
import Saski.Cap.FactoryRequest

/-!
# The bootstrapped factory

`FactoryReady img mem` is the state `kernel_cap_bootstrap` establishes: the
record and the descriptor name the image's own objects, and the constant arrays
are as compiled.  It depends on nothing but the bytes of these objects, so it
survives every step that leaves them alone, and it moves with the bytes to
another image.

In such a state the factory's handle dispatches exactly the two methods of its
table, each for the requests its schema accepts.
-/

namespace Saski
namespace Cap

open ByteMemory Capnp Logged

/-- The factory is bootstrapped in this image. -/
structure FactoryReady (img : Image) (mem : Mem 64) : Prop where
  record : loadRecord mem img.factoryRecord = (factoryPayload img).record
  descriptor : loadDescriptor mem img.factoryTable = factoryDescriptor img
  const : ConstData img mem

/-- The two objects that bootstrap itself writes are bound to this image. -/
structure FactoryBound (img : Image) (mem : Mem 64) : Prop where
  record : loadRecord mem img.factoryRecord = (factoryPayload img).record
  descriptor : loadDescriptor mem img.factoryTable = factoryDescriptor img

theorem FactoryReady.bound {img : Image} {mem : Mem 64} (h : FactoryReady img mem) :
    FactoryBound img mem := ⟨h.record, h.descriptor⟩

/-! ## The state is a matter of bytes -/

theorem Image.mem_statics_record (img : Image) :
    (img.factoryRecord, recordSize) ∈ img.statics := List.mem_cons_self

theorem Image.mem_statics_table (img : Image) :
    (img.factoryTable, schemaTableSize) ∈ img.statics :=
  List.mem_cons_of_mem _ List.mem_cons_self

theorem Image.mem_statics_of_arrays (img : Image) {p : Nat × Nat} (hp : p ∈ img.layout.arrays) :
    (img.base + BitVec.ofNat 64 p.1, p.2) ∈ img.statics :=
  List.mem_map.mpr ⟨p, List.mem_cons_of_mem _ (List.mem_cons_of_mem _ hp), rfl⟩

/-- The constant arrays move with their bytes. -/
theorem ConstData.of_sameBytes {img img' : Image} {mem mem' : Mem 64}
    (hlayout : img'.layout = img.layout)
    (h : ∀ p ∈ img.layout.arrays,
      SameBytes mem' (img'.base + BitVec.ofNat 64 p.1) mem (img.base + BitVec.ofNat 64 p.1) p.2)
    (hconst : ConstData img mem) : ConstData img' mem' := by
  obtain ⟨layout', base', hpos', hfits'⟩ := img'
  subst hlayout
  simp only [ImageOffsets.arrays, List.forall_mem_cons] at h
  obtain ⟨hstructs, hpointers, hmethods, hobjects, -⟩ := h
  constructor
  · intro i hi
    rw [hconst.structs i hi]
    refine congrArg some (loadStructSchema_of_sameBytes ?_).symm
    exact hstructs.of_add (by unfold structSchemaSize; omega)
  · intro i hi
    rw [hconst.pointers i hi]
    refine congrArg some (loadPointerSchema_of_sameBytes ?_).symm
    exact hpointers.of_add (by unfold pointerSchemaSize; omega)
  · intro i hi
    rw [hconst.methods i hi]
    refine congrArg some (loadMethodSchema_of_sameBytes ?_).symm
    exact hmethods.of_add (by unfold methodSchemaSize; omega)
  · intro i hi
    rw [hconst.objects i hi]
    refine congrArg some (loadObjectSchema_of_sameBytes ?_).symm
    exact hobjects.of_add (by unfold objectSchemaSize; omega)

theorem Image.static_size_le (img : Image) {p : Addr × Nat} (hp : p ∈ img.statics) :
    p.2 ≤ 2 ^ 64 := by
  obtain ⟨o, ho, rfl⟩ := List.mem_map.mp hp
  have hin := img.layout.inside o ho
  have hfits := img.fits
  show o.2 ≤ 2 ^ 64
  omega

/-- A step that leaves the image's objects alone leaves the factory ready. -/
theorem FactoryReady.of_agree {img : Image} {mem mem' : Mem 64} (h : FactoryReady img mem)
    (hagree : ∀ x, img.Owns x → mem' x = mem x) : FactoryReady img mem' := by
  have hsame : ∀ p ∈ img.statics, SameBytes mem' p.1 mem p.1 p.2 := by
    intro p hp
    exact sameBytes_of_agree (img.static_size_le hp) fun x hx => hagree x ⟨p, hp, hx⟩
  constructor
  · rw [← h.record]
    exact loadRecord_of_sameBytes (hsame _ img.mem_statics_record)
  · rw [← h.descriptor]
    exact loadDescriptor_of_sameBytes (hsame _ img.mem_statics_table)
  · exact h.const.of_sameBytes rfl fun p hp => hsame _ (img.mem_statics_of_arrays hp)

/-! ## Bootstrap establishes it -/

/-- A descriptor with 16-bit counts can be loaded back. -/
theorem loadDescriptor_storeDescriptor (mem : Mem 64) (t : Addr) (d : TableDescriptor)
    (hstructs : d.structCount < 2 ^ 16) (hpointers : d.pointerCount < 2 ^ 16)
    (hmethods : d.methodCount < 2 ^ 16) (hobjects : d.objectCount < 2 ^ 16) :
    loadDescriptor (storeDescriptor mem t d) t = d := by
  have hload : ∀ member ∈ d.members,
      load (storeDescriptor mem t d) (t + BitVec.ofNat 64 member.1) member.2.1 =
        member.2.2 % 2 ^ (8 * member.2.1) := by
    intro member hmember
    refine load_storeMembers d.members ?_ ?_ hmember mem
    · simp [TableDescriptor.members]
    · simp [TableDescriptor.members]
  simp only [TableDescriptor.members, List.forall_mem_cons] at hload
  obtain ⟨h0, h8, h16, h24, h32, h40, h48, h56, -⟩ := hload
  unfold loadDescriptor loadPointer
  rw [h0, h8, h16, h24, h32, h40, h48, h56, Nat.mod_eq_of_lt hstructs,
    Nat.mod_eq_of_lt hpointers, Nat.mod_eq_of_lt hmethods, Nat.mod_eq_of_lt hobjects]
  simp only [Nat.reduceMul, ofNat_toNat_mod]

/-- Binding changes the record and the descriptor and nothing else. -/
theorem bindFactory_of_not_inExtent (img : Image) (mem : Mem 64) {x : Addr}
    (hrecord : ¬ InExtent img.factoryRecord recordSize x)
    (htable : ¬ InExtent img.factoryTable schemaTableSize x) :
    bindFactory img mem x = mem x := by
  unfold bindFactory storeDescriptor
  rw [storeFields_of_not_inExtent _ _ _ hrecord]
  refine storeMembers_of_not_inExtent _ ?_ htable mem
  simp [TableDescriptor.members, schemaTableSize]

/-- Binding does not depend on what the record and the descriptor held. -/
theorem bindFactory_bound (img : Image) (mem : Mem 64) :
    FactoryBound img (bindFactory img mem) := by
  constructor
  · unfold bindFactory
    rw [loadRecord_storeFields, applyWrites_createWrites]
  · have hsep := img.statics_separate img.mem_statics_table img.mem_statics_record (by
      simp [recordSize, schemaTableSize])
    have hkeep : loadDescriptor (bindFactory img mem) img.factoryTable =
        loadDescriptor (storeDescriptor mem img.factoryTable (factoryDescriptor img))
          img.factoryTable := by
      refine loadDescriptor_of_sameBytes (sameBytes_of_agree (by decide) fun x hx => ?_)
      exact storeFields_of_not_inExtent _ _ _ (hsep x hx)
    rw [hkeep]
    refine loadDescriptor_storeDescriptor mem _ _ ?_ ?_ ?_ ?_ <;> simp [factoryDescriptor]

/-- No array overlaps the two objects that binding writes. -/
theorem bindFactory_const (img : Image) {mem : Mem 64} (hconst : ConstData img mem) :
    ConstData img (bindFactory img mem) := by
  refine hconst.of_sameBytes rfl fun p hp => ?_
  have hmem := img.mem_statics_of_arrays hp
  have hsize : p.2 ≠ recordSize ∧ p.2 ≠ schemaTableSize := by
    simp only [ImageOffsets.arrays, List.mem_cons, List.not_mem_nil, or_false] at hp
    rcases hp with rfl | rfl | rfl | rfl <;>
      simp [recordSize, schemaTableSize, structSchemaSize, pointerSchemaSize,
        methodSchemaSize, objectSchemaSize]
  refine sameBytes_of_agree (img.static_size_le hmem) fun x hx => ?_
  apply bindFactory_of_not_inExtent
  · refine img.statics_separate hmem img.mem_statics_record ?_ x hx
    intro heq
    exact hsize.1 (congrArg Prod.snd heq)
  · refine img.statics_separate hmem img.mem_statics_table ?_ x hx
    intro heq
    exact hsize.2 (congrArg Prod.snd heq)

theorem bindFactory_ready (img : Image) {mem : Mem 64} (hconst : ConstData img mem) :
    FactoryReady img (bindFactory img mem) :=
  ⟨(bindFactory_bound img mem).record, (bindFactory_bound img mem).descriptor,
    bindFactory_const img hconst⟩

/-- An image as the boot loader leaves it: the record, which has no initialiser,
is zero, and the constant arrays are in place. -/
structure FreshImage (img : Image) (mem : Mem 64) : Prop where
  zeroed : ∀ f, loadRecord mem img.factoryRecord f = 0
  const : ConstData img mem

/-- Memory with a fresh `sampleImage`: only its constant arrays are not zero. -/
def sampleMemory : Mem 64 :=
  memOfBytes 0x1080#64
    [5, 0, 0, 0, 0xFF, 0xFF, 1, 0, 0, 0, 0xFF, 0xFF, 1, 0, 0, 0, 0xFF, 0xFF, 0, 0, 0, 0, 0, 0,
      0, 0, 0, 0, 0, 0, 0, 0,
      0, 0, 0, 0, 0, 0, 1, 0, 1, 0, 0, 0, 2, 0, 0xFF, 0xFF,
      0, 0, 2, 0]

theorem sampleMemory_fresh : FreshImage sampleImage sampleMemory where
  zeroed := by
    intro f
    cases f <;> decide
  const :=
    { structs := by decide
      pointers := by decide
      methods := by decide
      objects := by decide }

/-- The factory's payload fits the record's fields. -/
theorem factoryPayload_stored (img : Image) : (factoryPayload img).stored = factoryPayload img := by
  unfold Payload.stored factoryPayload
  simp [Nat.mod_eq_of_lt (BitVec.isLt _)]

/-- The first bootstrap binds the factory. -/
theorem kernelCapBootstrap_of_fresh {img : Image} {s : KernelState} (h : FreshImage img s.mem) :
    kernelCapBootstrap img s =
      some (⟨1, img.factoryRecord.toNat⟩, ⟨bindFactory img s.mem, 0⟩) := by
  have hfirst : alreadyBootstrapped img s.mem = false := by
    simp [alreadyBootstrapped, h.zeroed, capRecordMagic]
  unfold kernelCapBootstrap
  simp [hfirst]

/-- The first bootstrap leaves the factory ready and hands out its address. -/
theorem factoryReady_of_bootstrap {img : Image} {s s₀ : KernelState} {caps : InitialCapabilities}
    (hfresh : FreshImage img s.mem) (hboot : kernelCapBootstrap img s = some (caps, s₀)) :
    caps = ⟨1, img.factoryRecord.toNat⟩ ∧ FactoryReady img s₀.mem := by
  rw [kernelCapBootstrap_of_fresh hfresh, Option.some.injEq, Prod.mk.injEq] at hboot
  obtain ⟨rfl, rfl⟩ := hboot
  exact ⟨rfl, bindFactory_ready img hfresh.const⟩

/-! ## Dispatch -/

section Dispatch

variable {img : Image} {mem : Mem 64} (h : FactoryReady img mem)

include h

theorem FactoryReady.live : (loadRecord mem img.factoryRecord).Live := by
  rw [h.record]
  exact Payload.record_live _

theorem FactoryReady.handler :
    loadRecord mem img.factoryRecord .handler = img.factoryHandler.toNat := by
  rw [h.record]
  exact Nat.mod_eq_of_lt img.factoryHandler.isLt

theorem FactoryReady.data : loadRecord mem img.factoryRecord .data = 0 := by
  rw [h.record]
  rfl

theorem FactoryReady.tableAddrOf_eq : tableAddrOf mem img.factoryRecord = img.factoryTable := by
  unfold tableAddrOf
  rw [h.record]
  exact ofNat_toNat_mod img.factoryTable

theorem FactoryReady.tableOf_eq :
    tableOf mem img.factoryRecord = some ((factoryDescriptor img).table mem) := by
  unfold tableOf loadSchemaTable
  rw [h.tableAddrOf_eq, if_neg img.factoryTable_ne_zero, h.descriptor]

theorem FactoryReady.isFactoryTable : IsFactoryTable ((factoryDescriptor img).table mem) where
  structCount := rfl
  methodCount := rfl
  objectCount := rfl
  structs := h.const.structs
  methods := h.const.methods
  objects := h.const.objects

/-- Entry `idx` of the factory's method array. -/
theorem FactoryReady.loadMethodSchema_eq {idx : Nat} (hidx : idx < 2) :
    gFactoryMethods[idx]? =
      some (loadMethodSchema mem (methodAddrOf mem img.factoryRecord idx)) := by
  have haddr : methodAddrOf mem img.factoryRecord idx =
      entryAddr img.factoryMethods methodSchemaSize idx := by
    unfold methodAddrOf
    rw [h.tableAddrOf_eq, h.descriptor]
    rfl
  rw [haddr]
  exact h.const.methods idx hidx

/-- The factory's handle lets through exactly its two methods. -/
theorem FactoryReady.firstMethod_iff {methodId idx : Nat} :
    FirstMethod (tableOf mem img.factoryRecord) (loadRecord mem img.factoryRecord .schemaIndex)
        methodId idx ↔
      ∃ method, gFactoryMethods[idx]? = some method ∧ method.methodId = methodId := by
  have hindex : loadRecord mem img.factoryRecord .schemaIndex = 0 := by
    rw [h.record]
    rfl
  have hobject : ((factoryDescriptor img).table mem).objects 0 = ⟨0, 2⟩ :=
    (Option.some.inj (h.isFactoryTable.objects 0 (by decide))).symm
  have hmethod : ∀ i < 2, gFactoryMethods[i]? =
      some (((factoryDescriptor img).table mem).methods i) := h.isFactoryTable.methods
  have hids : ∀ i < 2, (((factoryDescriptor img).table mem).methods i).methodId = i := by
    intro i hi
    have hentry := hmethod i hi
    rcases (show i = 0 ∨ i = 1 by omega) with rfl | rfl
    · rw [← Option.some.inj hentry]
      rfl
    · rw [← Option.some.inj hentry]
      rfl
  rw [hindex, h.tableOf_eq]
  constructor
  · rintro ⟨t, ht, -, -, i, hi, rfl, hlt, hid, -⟩
    obtain rfl := Option.some.inj ht
    rw [hobject] at hi hlt hid ⊢
    exact ⟨_, hmethod _ (by simpa using hi), hid⟩
  · rintro ⟨method, hentry, hid⟩
    have hlt : idx < 2 := (List.getElem?_eq_some_iff.mp hentry).1
    have hsame : method = ((factoryDescriptor img).table mem).methods idx :=
      Option.some.inj (hentry.symm.trans (hmethod idx hlt))
    refine ⟨_, rfl, by decide, Nat.one_pos, idx, ?_, ?_, hlt, ?_, ?_⟩
    · rw [hobject]
      exact hlt
    · rw [hobject]
      exact (Nat.zero_add idx).symm
    · rw [← hsame]
      exact hid
    · -- Entry `j` carries the method id `j`, so no earlier entry matches.
      intro j hj
      rw [hobject, Nat.zero_add, hids j (by omega), ← hid, hsame, hids idx hlt]
      exact hj.ne

/-- The gate of the factory's handle. -/
theorem FactoryReady.gateOpen_iff {methodId idx : Nat} {msg : Buffer} {len : Nat} :
    GateOpen mem img.factoryRecord methodId msg len idx ↔
      ∃ method, gFactoryMethods[idx]? = some method ∧ method.methodId = methodId ∧
        HasRootStruct msg len (requestWords method) := by
  constructor
  · intro hgate
    obtain ⟨method, hentry, hid⟩ := h.firstMethod_iff.mp hgate.method
    have hlt : idx < 2 := (List.getElem?_eq_some_iff.mp hentry).1
    have hconforms := (conforms_iff _ _ _ _).mp hgate.conforms
    rw [← Option.some.inj (hentry.symm.trans (h.loadMethodSchema_eq hlt)), h.tableOf_eq,
      h.isFactoryTable.accepts_iff (List.mem_of_getElem? hentry)] at hconforms
    exact ⟨method, hentry, hid, hconforms⟩
  · rintro ⟨method, hentry, hid, hroot⟩
    have hlt : idx < 2 := (List.getElem?_eq_some_iff.mp hentry).1
    refine ⟨h.live, h.firstMethod_iff.mpr ⟨method, hentry, hid⟩, ?_⟩
    rw [conforms_iff, ← Option.some.inj (hentry.symm.trans (h.loadMethodSchema_eq hlt)),
      h.tableOf_eq, h.isFactoryTable.accepts_iff (List.mem_of_getElem? hentry)]
    exact hroot

end Dispatch

end Cap
end Saski
