import Saski.Cap.FactoryRuns

/-!
# Bootstrapping again (`kernel_cap_bootstrap` under both AP models)

Every core runs `kernel_cap_bootstrap`.  In the shared image it has to find the
factory as the first core left it and hand out the same handle.  In a relocated
copy of the image it has to bind the copy's factory to the copy's own objects and
to free the lock, whatever was copied.

It tells the two apart by pointer identity: the record and the descriptor name
this image's own objects or they do not.  That identity is `FactoryBound`, so it
holds in every state reached by calls whose record writes, and by handlers that
themselves, stay clear of these two objects.  A CREATE in the storage of
`g_factory_table` breaks it.
-/

namespace Saski
namespace Cap

open ByteMemory Capnp Logged Run

/-- The two objects that bootstrap looks at: `g_factory_record` and `g_factory_table`. -/
def Image.Binds (img : Image) (x : Addr) : Prop :=
  InExtent img.factoryRecord recordSize x ∨ InExtent img.factoryTable schemaTableSize x

/-- Handlers leave the factory's record and table alone. -/
def RespectsImage (img : Image) (others : Code) : Prop :=
  ∀ pointer data methodId msg len response responseCap mem x, img.Binds x →
    (others pointer data methodId msg len response responseCap mem).mem x = mem x

/-- A call that reaches `factory_handler` makes no record write over the
factory's record and table. -/
def FactoryWriteClear (img : Image) (mem : Mem 64) (c : Call) : Prop :=
  loadRecord mem c.target .handler = img.factoryHandler.toNat → WriteClear img img.Binds mem c

theorem FactoryBound.of_agree {img : Image} {mem mem' : Mem 64} (h : FactoryBound img mem)
    (hagree : ∀ x, img.Binds x → mem' x = mem x) : FactoryBound img mem' := by
  constructor
  · rw [← h.record]
    exact loadRecord_of_sameBytes
      (sameBytes_of_agree (by decide) fun x hx => hagree x (.inl hx))
  · rw [← h.descriptor]
    exact loadDescriptor_of_sameBytes
      (sameBytes_of_agree (by decide) fun x hx => hagree x (.inr hx))

/-- A call on any object keeps the factory bound. -/
theorem factoryBound_invoke {img : Image} {others : Code} (hothers : RespectsImage img others)
    {mem : Mem 64} {c : Call} (h : FactoryBound img mem) (hclear : FactoryWriteClear img mem c) :
    FactoryBound img (invoke (factoryCode img others) mem c) := by
  apply h.of_agree
  intro x hx
  -- The target may be any object, so the handler decides who does the writing.
  by_cases hhandler : loadRecord mem c.target .handler = img.factoryHandler.toNat
  · exact invoke_keeps others hhandler (hclear hhandler) hx
  · by_cases hcall : Dispatched mem c
    · rw [invoke_of_dispatched _ hcall]
      unfold handlerRun factoryCode
      rw [if_neg hhandler]
      exact hothers _ _ _ _ _ _ _ _ _ hx
    · rw [invoke_of_not_dispatched _ hcall]

/-! ## The shared image -/

/-- A bound factory passes the identity test. -/
theorem FactoryBound.alreadyBootstrapped {img : Image} {mem : Mem 64}
    (h : FactoryBound img mem) : alreadyBootstrapped img mem = true := by
  have htable : loadRecord mem img.factoryRecord .schemaTable = img.factoryTable.toNat := by
    rw [h.record]
    exact Nat.mod_eq_of_lt img.factoryTable.isLt
  unfold Cap.alreadyBootstrapped
  rw [htable, h.descriptor, h.record]
  simp [Payload.record, factoryDescriptor]

/-- In the shared image bootstrap waits for the lock and changes nothing. -/
theorem FactoryBound.kernelCapBootstrap_eq {img : Image} {s : KernelState}
    (h : FactoryBound img s.mem) :
    kernelCapBootstrap img s =
      if s.capLock = 0 then some (⟨1, img.factoryRecord.toNat⟩, s) else none := by
  unfold kernelCapBootstrap
  rw [if_pos h.alreadyBootstrapped]
  by_cases hfree : s.capLock = 0
  · have hsame : { s with capLock := 0 } = s := by
      rw [← hfree]
    simp [hfree, hsame]
  · simp [hfree]

/-! ## The relocated copy -/

/-- `img'` is a copy of `img`: the same layout at another base, and in `mem'` the
bytes that `img` has in `mem`. -/
structure ImageCopy (img : Image) (mem : Mem 64) (img' : Image) (mem' : Mem 64) : Prop where
  layout : img'.layout = img.layout
  base : img'.base ≠ img.base
  bytes : SameBytes mem' img'.base mem img.base img.layout.size

section Copy

variable {img img' : Image} {mem mem' : Mem 64} (hcopy : ImageCopy img mem img' mem')

include hcopy

/-- An object of the copy is not where the original has it. -/
theorem ImageCopy.addr_ne (off : Nat) :
    img'.base + BitVec.ofNat 64 off ≠ img.base + BitVec.ofNat 64 off := by
  intro heq
  exact hcopy.base ((BitVec.add_left_inj _).mp heq)

/-- The copied objects have the original's contents. -/
theorem ImageCopy.sameBytes {p : Nat × Nat} (hp : p ∈ img.layout.statics) :
    SameBytes mem' (img'.base + BitVec.ofNat 64 p.1) mem (img.base + BitVec.ofNat 64 p.1) p.2 :=
  hcopy.bytes.of_add (img.layout.inside p hp)

theorem ImageCopy.constData (hconst : ConstData img mem) : ConstData img' mem' :=
  hconst.of_sameBytes hcopy.layout fun _ hp =>
    hcopy.sameBytes (List.mem_cons_of_mem _ (List.mem_cons_of_mem _ hp))

/-- The copied record still names the original's table, so the identity test
fails in the copy. -/
theorem ImageCopy.not_alreadyBootstrapped (h : FactoryBound img mem) :
    alreadyBootstrapped img' mem' = false := by
  have hrecord : loadRecord mem' img'.factoryRecord = (factoryPayload img).record := by
    rw [← h.record]
    unfold Image.factoryRecord
    rw [hcopy.layout]
    exact loadRecord_of_sameBytes (hcopy.sameBytes List.mem_cons_self)
  have htable : loadRecord mem' img'.factoryRecord .schemaTable ≠ img'.factoryTable.toNat := by
    rw [hrecord]
    intro heq
    rw [show (factoryPayload img).record .schemaTable = img.factoryTable.toNat from
      Nat.mod_eq_of_lt img.factoryTable.isLt] at heq
    have haddr : img'.factoryTable = img.factoryTable := (BitVec.eq_of_toNat_eq heq).symm
    unfold Image.factoryTable at haddr
    rw [hcopy.layout] at haddr
    exact hcopy.addr_ne _ haddr
  unfold Cap.alreadyBootstrapped
  simp [htable]

/-- In a copy bootstrap binds the copy's factory and frees the lock. -/
theorem ImageCopy.kernelCapBootstrap_eq (h : FactoryBound img mem) (lock : Nat) :
    kernelCapBootstrap img' ⟨mem', lock⟩ =
      some (⟨1, img'.factoryRecord.toNat⟩, ⟨bindFactory img' mem', 0⟩) := by
  unfold kernelCapBootstrap
  simp [hcopy.not_alreadyBootstrapped h]

end Copy

/-- **Bootstrap is right under both AP models.**  Take any state reached after
the first bootstrap by calls whose record writes, and by handlers that
themselves, leave the factory's record and table alone.

In the same image, bootstrap with a free lock returns the same handle and leaves
the whole state as it is; with a held lock it waits.  In a copy of the image at
another base, with any value in the copied lock, it ends with the lock free, the
record and the descriptor naming the copy's own handler, table and arrays, and
none of them the original's.  Constant arrays that nobody has written over are
in place in the copy as well. -/
theorem kernelCapBootstrap_again (img : Image) (others : Code)
    (hothers : RespectsImage img others) {s s₀ : KernelState} {caps : InitialCapabilities}
    (hfresh : FreshImage img s.mem) (hboot : kernelCapBootstrap img s = some (caps, s₀))
    (cs : List Call)
    (hclear : Guarded (invoke (factoryCode img others)) (FactoryWriteClear img) s₀.mem cs) :
    let mem := cs.foldl (invoke (factoryCode img others)) s₀.mem
    (kernelCapBootstrap img ⟨mem, 0⟩ = some (caps, ⟨mem, 0⟩) ∧
        ∀ lock, lock ≠ 0 → kernelCapBootstrap img ⟨mem, lock⟩ = none) ∧
      ∀ (img' : Image) (mem' : Mem 64) (lock : Nat), ImageCopy img mem img' mem' →
        ∃ s', kernelCapBootstrap img' ⟨mem', lock⟩ = some (⟨1, img'.factoryRecord.toNat⟩, s') ∧
          s'.capLock = 0 ∧
          loadRecord s'.mem img'.factoryRecord = (factoryPayload img').record ∧
          loadDescriptor s'.mem img'.factoryTable = factoryDescriptor img' ∧
          (ConstData img mem → ConstData img' s'.mem) ∧
          img'.factoryRecord ≠ img.factoryRecord ∧ img'.factoryTable ≠ img.factoryTable ∧
          img'.factoryHandler ≠ img.factoryHandler ∧
          img'.factoryStructs ≠ img.factoryStructs ∧
          img'.factoryPointers ≠ img.factoryPointers ∧
          img'.factoryMethods ≠ img.factoryMethods ∧
          img'.factoryObjects ≠ img.factoryObjects := by
  intro mem
  obtain ⟨rfl, hready₀⟩ := factoryReady_of_bootstrap hfresh hboot
  have hbound : FactoryBound img mem :=
    hclear.invariant (fun mem c h hc => factoryBound_invoke hothers h hc) hready₀.bound
  refine ⟨⟨?_, ?_⟩, ?_⟩
  · rw [FactoryBound.kernelCapBootstrap_eq hbound]
    rfl
  · intro lock hheld
    rw [FactoryBound.kernelCapBootstrap_eq hbound]
    exact if_neg hheld
  · intro img' mem' lock hcopy
    have hcopied := bindFactory_bound img' mem'
    have haddr := hcopy.addr_ne
    refine ⟨_, hcopy.kernelCapBootstrap_eq hbound lock, rfl, hcopied.record, hcopied.descriptor,
      fun hconst => bindFactory_const img' (hcopy.constData hconst), ?_⟩
    simp only [Image.factoryRecord, Image.factoryTable, Image.factoryHandler,
      Image.factoryStructs, Image.factoryPointers, Image.factoryMethods, Image.factoryObjects,
      hcopy.layout]
    exact ⟨haddr _, haddr _, haddr _, haddr _, haddr _, haddr _, haddr _⟩

/-- The sample layout at `0x5000`. -/
def copyImage : Image where
  layout := sampleLayout
  base := 0x5000#64
  base_pos := by decide
  fits := by decide

/-- A memory in which `copyImage` has the bytes that `sampleImage` has in `mem`. -/
def copyMemory (mem : Mem 64) : Mem 64 := fun x => mem (x - 0x4000#64)

theorem copyMemory_copy (mem : Mem 64) :
    ImageCopy sampleImage mem copyImage (copyMemory mem) where
  layout := rfl
  base := by decide
  bytes := by
    intro i _
    have haddr : 0x5000#64 + BitVec.ofNat 64 i - 0x4000#64 = 0x1000#64 + BitVec.ofNat 64 i := by
      bv_omega
    exact congrArg mem haddr

/-- After a CREATE elsewhere, the sample image is found again, and a copy made
while the lock was held is bound to itself. -/
theorem sampleImage_bootstrap_again :
    let code := factoryCode sampleImage idleCode
    let mem₀ := bindFactory sampleImage sampleMemory
    let mem := invoke code mem₀ (sampleCreate flatRequest)
    (RespectsImage sampleImage idleCode ∧ FreshImage sampleImage sampleMemory ∧
        Guarded (invoke code) (FactoryWriteClear sampleImage) mem₀ [sampleCreate flatRequest] ∧
        ImageCopy sampleImage mem copyImage (copyMemory mem)) ∧
      kernelCapBootstrap sampleImage ⟨mem, 0⟩ = some (⟨1, 0x1000⟩, ⟨mem, 0⟩) ∧
      ∃ s', kernelCapBootstrap copyImage ⟨copyMemory mem, 1⟩ = some (⟨1, 0x5000⟩, s') ∧
        s'.capLock = 0 ∧
        loadDescriptor s'.mem copyImage.factoryTable = factoryDescriptor copyImage := by
  intro code mem₀ mem
  have hothers : RespectsImage sampleImage idleCode := fun _ _ _ _ _ _ _ _ _ _ => rfl
  have hboot : kernelCapBootstrap sampleImage ⟨sampleMemory, 0⟩ = some (⟨1, 0x1000⟩, ⟨mem₀, 0⟩) :=
    kernelCapBootstrap_of_fresh sampleMemory_fresh
  have hclear : Guarded (invoke code) (FactoryWriteClear sampleImage) mem₀
      [sampleCreate flatRequest] :=
    ⟨fun _ => (flatRequest_clear _).restrict fun _ hx => hx.elim
      (fun hin => ⟨_, sampleImage.mem_statics_record, hin⟩)
      fun hin => ⟨_, sampleImage.mem_statics_table, hin⟩, trivial⟩
  obtain ⟨⟨hshared, -⟩, hcopied⟩ := kernelCapBootstrap_again sampleImage idleCode hothers
    sampleMemory_fresh hboot [sampleCreate flatRequest] hclear
  obtain ⟨s', hs', hlock, -, hdescriptor, -⟩ := hcopied copyImage _ 1 (copyMemory_copy mem)
  exact ⟨⟨hothers, sampleMemory_fresh, hclear, copyMemory_copy mem⟩, hshared,
    s', hs', hlock, hdescriptor⟩

/-- A CREATE request whose storage is the sample factory's table. -/
def tableRequest : Buffer :=
  Buffer.ofList
    [0, 0, 0, 0, 6, 0, 0, 0,
      0, 0, 0, 0, 5, 0, 0, 0,
      0x40, 0, 0, 0, 0, 0, 0, 0, 0x50, 0, 0, 0, 0, 0, 0, 0,
      0x60, 0, 0, 0, 0, 0, 0, 0, 2, 0, 0, 0, 0, 0, 0, 0,
      0x40, 0x10, 0, 0, 0, 0, 0, 0]

/-- After a CREATE in the storage of the factory's table, bootstrap takes the
shared image for a copy: with a free lock it rewrites the descriptor, which
destroys the record just created there, and a held lock it frees. -/
theorem create_in_table_breaks_bootstrap :
    ((kernelCapBootstrap sampleImage ⟨sampleMemory, 0⟩).bind fun r =>
      let mem := invoke (factoryCode sampleImage idleCode) r.2.mem (sampleCreate tableRequest)
      (kernelCapBootstrap sampleImage ⟨mem, 0⟩).bind fun free =>
        (kernelCapBootstrap sampleImage ⟨mem, 1⟩).map fun held =>
          (decide (loadRecord mem sampleImage.factoryTable).Live,
            decide (loadRecord free.2.mem sampleImage.factoryTable).Live,
            (loadDescriptor mem sampleImage.factoryTable).structs,
            (loadDescriptor free.2.mem sampleImage.factoryTable).structs, held.2.capLock)) =
      some (true, false, 0xCAB1E000CAB1E000#64, 0x1080#64, 0) := by
  decide

end Cap
end Saski
