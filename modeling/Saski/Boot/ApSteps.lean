import Saski.Boot.BootInfo
import Saski.Boot.LoadSteps
import Saski.Cap.Bootstrap
import Saski.Cap.InMemory

/-!
# The steps of another core (`kernel_boot_ap_aarch64`)

Every other core runs a copy of the kernel in a region of its own.  It loads init into its
slot, binds the factory of its copy, fills in a `struct init_boot_info` in its copy from
the discovery record, and enters init.

`apNext` has this as one access after the other: every store of `macho_load`, of
`kernel_cap_bootstrap` and of the assignments to `boot_info` is a step of its own, and a
value is read in the step that uses it.  Besides, the compiled code uses the core's stack,
and `serial_init` may set the two statics of the serial driver.  What it stores there is
left open (`scratch`).  The device itself is not memory.
-/

namespace Saski
namespace Boot

open ByteMemory Agents

/-! ## The region and its parts -/

/-- Two objects, as offset and size, do not overlap. -/
def Apart (p q : Nat × Nat) : Prop := p.1 + p.2 ≤ q.1 ∨ q.1 + q.2 ≤ p.1

instance (p q : Nat × Nat) : Decidable (Apart p q) := inferInstanceAs (Decidable (_ ∨ _))

/-- The region of a core. -/
structure CoreRegion where
  base : Addr
  pos : 0 < base.toNat
  fits : base.toNat + coreRegionSize ≤ 2 ^ 64

namespace CoreRegion

variable (R : CoreRegion)

/-- The addresses of the region. -/
def bytes : Set Addr := extent R.base coreRegionSize

/-- The slot for init. -/
def slot : Set Addr := {a | InInitSlot R.base a}

/-- A part of the region, as offset and size. -/
def place (p : Nat × Nat) : Set Addr := extent (R.base + BitVec.ofNat 64 p.1) p.2

def stack : Set Addr := R.place (coreStackOffset, coreStackSize)

/-- `slide` of `kernel_boot_ap_aarch64`. -/
def slide : Addr :=
  R.base + BitVec.ofNat 64 coreInitOffset - BitVec.ofNat 64 (bspInitLoadBase .aarch64)

/-- `discovery[i]`. -/
def discovery (m : Mem 64) (i : Nat) : Nat :=
  element m (R.base + BitVec.ofNat 64 coreDiscoveryOffset) 8 i

theorem place_subset {p : Nat × Nat} (hp : p.1 + p.2 ≤ coreRegionSize) : R.place p ⊆ R.bytes :=
  extent_add_subset R.base p.1 hp

theorem disjoint_place {p q : Nat × Nat} (hp : p.1 + p.2 ≤ coreRegionSize)
    (hq : q.1 + q.2 ≤ coreRegionSize) (h : Apart p q) : Disjoint (R.place p) (R.place q) := by
  have hlimit : coreRegionSize ≤ 2 ^ 64 := by decide
  rw [Set.disjoint_left]
  rcases h with hle | hle
  · exact separate_of_le hle (by omega)
  · exact fun x hx hx' => separate_of_le hle (by omega) x hx' hx

theorem slot_eq_place : R.slot = R.place (coreInitOffset, coreInitMaxSize) := by
  ext x
  exact (mem_part_iff R.fits (by decide) (by decide)).symm

end CoreRegion

/-! ## The copy of the kernel -/

/-- `KERNEL_LOAD_BASE`. -/
def kernelLoadBase : Nat := 0x41000000

/-- What `kernel_boot_ap_aarch64` refers to in its own copy of the kernel, as offsets from
the start of the image. -/
structure ApOffsets where
  caps : Cap.ImageLayout
  gEmbeddedInitStart : Nat
  gEmbeddedInitEnd : Nat
  gFdtBlobPhys : Nat
  gUartBase : Nat
  gUartIsCadence : Nat
  bootInfo : Nat
  kernelInvoke : Nat
  kernelBootAp : Nat

namespace ApOffsets

variable (K : ApOffsets)

/-- The embedded init. -/
def initImage : Nat × Nat := (K.gEmbeddedInitStart, K.gEmbeddedInitEnd - K.gEmbeddedInitStart)

def fdtWord : Nat × Nat := (K.gFdtBlobPhys, 8)

def infoObject : Nat × Nat := (K.bootInfo, bootInfoSize)

/-- The statics of the serial driver. -/
def uart : List (Nat × Nat) := [(K.gUartBase, 8), (K.gUartIsCadence, 4)]

/-- The lock word and the factory's objects. -/
def capObjects : List (Nat × Nat) := (K.caps.capLock, 4) :: K.caps.statics

end ApOffsets

/-- The image fits the part of a region for it, and the objects in it do not overlap. -/
structure ApSymbols extends ApOffsets where
  fits : caps.size ≤ coreKernelMaxSize
  inside : ∀ p ∈ toApOffsets.initImage :: toApOffsets.fdtWord :: toApOffsets.infoObject ::
    toApOffsets.uart, p.1 + p.2 ≤ caps.size
  uart_apart : ∀ p ∈ toApOffsets.uart, ∀ q ∈ toApOffsets.initImage :: toApOffsets.fdtWord ::
    toApOffsets.infoObject :: toApOffsets.capObjects, Apart p q
  info_apart : ∀ q ∈ toApOffsets.fdtWord :: toApOffsets.capObjects, Apart toApOffsets.infoObject q
  fdt_apart : ∀ q ∈ toApOffsets.capObjects, Apart toApOffsets.fdtWord q

namespace ApSymbols

variable (K : ApSymbols) (R : CoreRegion)

/-- The copy of the kernel in a region. -/
def image : Cap.Image where
  layout := K.caps
  base := R.base
  base_pos := R.pos
  fits := by
    have hregion := R.fits
    have himage := K.fits
    have hlimits : coreKernelMaxSize ≤ coreRegionSize := by decide
    omega

/-- `g_embedded_init_start` in the copy. -/
def init : Addr := R.base + BitVec.ofNat 64 K.gEmbeddedInitStart

/-- The static `boot_info` of the copy. -/
def info : Addr := R.base + BitVec.ofNat 64 K.bootInfo

/-- The handle that a core is granted: the factory of its own copy. -/
def granted : Cap.InitialCapabilities := ⟨1, (K.image R).factoryRecord.toNat⟩

/-- The assignments to `boot_info` of `kernel_boot_ap_aarch64`, with what they read. -/
def apInfo : List (InfoField × (Mem 64 → Nat)) :=
  [(.capsCount, fun _ => (K.granted R).count), (.capsFactory, fun _ => (K.granted R).factory),
    (.kernelInvoke, fun _ => (R.base + BitVec.ofNat 64 K.kernelInvoke).toNat),
    (.kernelLoadBase, fun _ => Boot.kernelLoadBase), (.initDescriptionPhys, fun _ => 0),
    (.kernelBootApAddr, fun _ => (R.base + BitVec.ofNat 64 K.kernelBootAp).toNat),
    (.pml4Phys, fun _ => 0), (.initImageAddr, fun _ => 0), (.initImageLen, fun _ => 0),
    (.kernelImageAddr, fun _ => 0), (.kernelImageLen, fun _ => 0),
    (.bspKernelInvokeAddr, fun m => R.discovery m 0),
    (.mutexManagerHandle, fun m => R.discovery m 1),
    (.memoryManagerHandle, fun m => R.discovery m 2),
    (.hardwareMutexId, fun m => R.discovery m 3),
    (.lapicCalibrationCount, fun m => R.discovery m 4),
    (.clusterSchedulerHandle, fun m => R.discovery m 5),
    (.serialResourceHandle, fun m => R.discovery m 6),
    (.earlyRsdpPhys, fun m => R.discovery m 7),
    (.apCoreStatePhys, fun m => R.discovery m 8),
    (.fdtBlobPhys, fun m => load m (R.base + BitVec.ofNat 64 K.gFdtBlobPhys) 8)]

/-- The bytes of the embedded init in the copy. -/
def initBytes : Set Addr := R.place K.initImage

/-- The bytes of `boot_info` in the copy. -/
def infoBytes : Set Addr := R.place K.infoObject

/-- The lock word and the factory's objects in the copy. -/
def capBytes : Set Addr := {x | ∃ p ∈ K.capObjects, x ∈ R.place p}

/-- What the assignments read. -/
def infoReads : Set Addr := R.place (coreDiscoveryOffset, coreDiscoverySize) ∪ R.place K.fdtWord

/-- What is stored to besides: the stack and the statics of the serial driver. -/
def scratch : Set Addr := R.stack ∪ {x | ∃ p ∈ K.uart, x ∈ R.place p}

/-- What the steps look at. -/
def own : Set Addr := R.bytes \ K.scratch R

end ApSymbols

/-! ## The steps -/

/-- How far a core has come. -/
inductive ApPhase where
  | loading (pc : LoadPc)
  /-- in front of the test of `kernel_cap_bootstrap` -/
  | bootstrap (entry : Addr)
  /-- in `cap_lock`, where the image is shared -/
  | waiting (entry : Addr)
  | granting (entry : Addr)
  /-- with the stores that are left -/
  | binding (entry : Addr) (ws : List (Addr × Nat × Nat))
  /-- with the assignments that are left -/
  | filling (entry : Addr) (ws : List (InfoField × (Mem 64 → Nat)))
  /-- init runs from `entry`, with the address of `boot_info` as its argument -/
  | entered (entry : Addr)
  | panicked

/-- The steps of `kernel_boot_ap_aarch64`. -/
def apNext (K : ApSymbols) (R : CoreRegion) : Script ApPhase Addr UInt8
  | (.loading (.done entry), m) => some (if entry = 0 then .panicked else .bootstrap entry, m)
  | (.loading pc, m) =>
      some (.loading (loadStep .aarch64 (K.init R) R.slide (pc, m)).1,
        (loadStep .aarch64 (K.init R) R.slide (pc, m)).2)
  | (.bootstrap entry, m) =>
      some (if Cap.alreadyBootstrapped (K.image R) m then .waiting entry
        else .binding entry (Cap.bindStores (K.image R)), m)
  | (.waiting entry, m) =>
      match Cap.capLock (K.image R) m with
      | none => some (.waiting entry, m)
      | some m' => some (.granting entry, m')
  | (.granting entry, m) => some (.filling entry (K.apInfo R), Cap.capUnlock (K.image R) m)
  | (.binding entry [], m) => some (.filling entry (K.apInfo R), m)
  | (.binding entry (w :: ws), m) => some (.binding entry ws, store m w.1 w.2.1 w.2.2)
  | (.filling entry [], m) => some (.entered entry, m)
  | (.filling entry (w :: ws), m) =>
      some (.filling entry ws, storeInfo m (K.info R) [(w.1, w.2 m)])
  | (.entered _, _) => none
  | (.panicked, _) => none

theorem apNext_loading {K : ApSymbols} {R : CoreRegion} {pc : LoadPc}
    (hpc : ∀ entry, pc ≠ .done entry) (m : Mem 64) :
    apNext K R (.loading pc, m) =
      some (.loading (loadAction .aarch64 (K.init R) R.slide m pc).1,
        perform m (loadAction .aarch64 (K.init R) R.slide m pc).2) := by
  cases pc with
  | done entry => exact absurd rfl (hpc entry)
  | start => rfl
  | pass => rfl
  | copy => rfl
  | zero => rfl

theorem apNext_waiting (K : ApSymbols) (R : CoreRegion) (entry : Addr) (m : Mem 64) :
    apNext K R (.waiting entry, m) =
      if Cap.LockFree (K.image R) m then
        some (.granting entry, store m (K.image R).capLock 4 1)
      else some (.waiting entry, m) := by
  by_cases hfree : Cap.LockFree (K.image R) m
  · rw [apNext, Cap.capLock_of_free hfree, if_pos hfree]
  · have hheld : Cap.capLock (K.image R) m = none := if_neg hfree
    rw [apNext, hheld, if_neg hfree]

theorem apNext_of_loadNext {K : ApSymbols} {R : CoreRegion} {x y : LoadPc × Mem 64}
    (h : loadNext .aarch64 (K.init R) R.slide x = some y) :
    apNext K R (.loading x.1, x.2) = some (.loading y.1, y.2) := by
  obtain ⟨pc, m⟩ := x
  cases pc with
  | done => exact absurd h (by simp [loadNext])
  | _ =>
      obtain rfl := Option.some.inj h
      rfl

/-- What the call of `macho_load` returns, the core gets to by its steps. -/
theorem reach_of_kernelBootApAarch64 {K : ApSymbols} {R : CoreRegion} {m m' : Mem 64}
    {entry : Addr} (h : (kernelBootApAarch64 m (K.init R) R.base).Returns (m', entry)) :
    (apNext K R).Reach (.loading .start, m) (.loading (.done entry), m') :=
  Relation.ReflTransGen.lift (fun x : LoadPc × Mem 64 => (ApPhase.loading x.1, x.2))
    (fun _ _ hstep => apNext_of_loadNext hstep) _ _ (reach_of_returns h)

/-! ## Where they go -/

section Parts

variable (K : ApSymbols) (R : CoreRegion)

theorem place_le {p : Nat × Nat} (hp : p.1 + p.2 ≤ K.caps.size) :
    p.1 + p.2 ≤ coreKernelMaxSize := hp.trans K.fits

theorem uart_le {p : Nat × Nat} (hp : p ∈ K.uart) : p.1 + p.2 ≤ coreKernelMaxSize :=
  place_le K (K.inside p (List.mem_cons_of_mem _ (List.mem_cons_of_mem _
    (List.mem_cons_of_mem _ hp))))

theorem own_subset : K.own R ⊆ R.bytes := Set.sdiff_subset

theorem own_disjoint : Disjoint (K.own R) (K.scratch R) :=
  Set.disjoint_left.mpr fun _ hx => hx.2

theorem scratch_subset : K.scratch R ⊆ R.bytes := by
  have hkernel : coreKernelMaxSize ≤ coreRegionSize := by decide
  rintro x (hx | ⟨p, hp, hx⟩)
  · exact R.place_subset (by decide) hx
  · exact R.place_subset ((uart_le K hp).trans hkernel) hx

/-- A part of the region that neither the stack nor the driver's statics overlap. -/
theorem place_subset_own {p : Nat × Nat} (hp : p.1 + p.2 ≤ coreRegionSize)
    (hstack : Apart p (coreStackOffset, coreStackSize)) (huart : ∀ q ∈ K.uart, Apart q p) :
    R.place p ⊆ K.own R := by
  have hkernel : coreKernelMaxSize ≤ coreRegionSize := by decide
  intro x hx
  refine ⟨R.place_subset hp hx, ?_⟩
  rintro (hin | ⟨q, hq, hin⟩)
  · exact Set.disjoint_left.mp (R.disjoint_place hp (by decide) hstack) hx hin
  · exact Set.disjoint_left.mp
      (R.disjoint_place ((uart_le K hq).trans hkernel) hp (huart q hq)) hin hx

/-- An object of the image that is not one of the driver's. -/
theorem object_subset_own {p : Nat × Nat} (hp : p.1 + p.2 ≤ K.caps.size)
    (huart : ∀ q ∈ K.uart, Apart q p) : R.place p ⊆ K.own R := by
  have hle := place_le K hp
  have hlimits : coreKernelMaxSize = 0x100000 ∧ coreRegionSize = 0x400000 ∧
      coreStackOffset = 0x300000 := ⟨rfl, rfl, rfl⟩
  exact place_subset_own K R (by omega) (Or.inl (by dsimp only; omega)) huart

/-- A part of the region behind the image. -/
theorem behind_subset_own {p : Nat × Nat} (hp : p.1 + p.2 ≤ coreRegionSize)
    (hstack : Apart p (coreStackOffset, coreStackSize)) (himage : coreKernelMaxSize ≤ p.1) :
    R.place p ⊆ K.own R :=
  place_subset_own K R hp hstack fun _ hq => Or.inl ((uart_le K hq).trans himage)

theorem initBytes_subset_own : K.initBytes R ⊆ K.own R :=
  object_subset_own K R (K.inside _ List.mem_cons_self)
    fun q hq => K.uart_apart q hq _ List.mem_cons_self

theorem fdtWord_subset_own : R.place K.fdtWord ⊆ K.own R :=
  object_subset_own K R (K.inside _ (List.mem_cons_of_mem _ List.mem_cons_self))
    fun q hq => K.uart_apart q hq _ (List.mem_cons_of_mem _ List.mem_cons_self)

theorem info_le : K.infoObject.1 + K.infoObject.2 ≤ K.caps.size :=
  K.inside _ (List.mem_cons_of_mem _ (List.mem_cons_of_mem _ List.mem_cons_self))

theorem infoBytes_subset_own : K.infoBytes R ⊆ K.own R :=
  object_subset_own K R (info_le K) fun q hq =>
    K.uart_apart q hq _ (List.mem_cons_of_mem _ (List.mem_cons_of_mem _ List.mem_cons_self))

theorem capObject_le {p : Nat × Nat} (hp : p ∈ K.capObjects) : p.1 + p.2 ≤ K.caps.size := by
  rcases List.mem_cons.mp hp with rfl | hp
  · exact K.caps.lock_inside
  · exact K.caps.inside p hp

theorem capBytes_subset_own : K.capBytes R ⊆ K.own R := by
  rintro x ⟨p, hp, hx⟩
  refine object_subset_own K R (capObject_le K hp) (fun q hq => ?_) hx
  exact K.uart_apart q hq _ (List.mem_cons_of_mem _ (List.mem_cons_of_mem _
    (List.mem_cons_of_mem _ hp)))

theorem slot_subset_own : R.slot ⊆ K.own R := by
  rw [R.slot_eq_place]
  exact behind_subset_own K R (by decide) (by decide) (by decide)

theorem infoReads_subset_own : K.infoReads R ⊆ K.own R := by
  rintro x (hx | hx)
  · exact behind_subset_own K R (by decide) (by decide) (by decide) hx
  · exact fdtWord_subset_own K R hx

/-- The image is in front of the slot. -/
theorem disjoint_slot {p : Nat × Nat} (hp : p.1 + p.2 ≤ K.caps.size) :
    Disjoint (R.place p) R.slot := by
  have hle := place_le K hp
  have hlimits : coreKernelMaxSize = 0x100000 ∧ coreRegionSize = 0x400000 ∧
      coreInitOffset = 0x100000 := ⟨rfl, rfl, rfl⟩
  rw [R.slot_eq_place]
  exact R.disjoint_place (by omega) (by decide) (Or.inl (by dsimp only; omega))

theorem disjoint_capBytes {p : Nat × Nat} (hp : p.1 + p.2 ≤ K.caps.size)
    (hapart : ∀ q ∈ K.capObjects, Apart p q) : Disjoint (R.place p) (K.capBytes R) := by
  have hkernel : coreKernelMaxSize ≤ coreRegionSize := by decide
  rw [Set.disjoint_left]
  rintro x hx ⟨q, hq, hin⟩
  have hdisjoint := R.disjoint_place ((place_le K hp).trans hkernel)
    ((place_le K (capObject_le K hq)).trans hkernel) (hapart q hq)
  exact Set.disjoint_left.mp hdisjoint hx hin

theorem info_apart_cap : Disjoint (K.infoBytes R) (K.capBytes R) :=
  disjoint_capBytes K R (info_le K) fun q hq => K.info_apart q (List.mem_cons_of_mem _ hq)

/-- The discovery record is behind all that the steps store to. -/
theorem infoReads_apart :
    Disjoint (K.infoReads R) (R.slot ∪ K.capBytes R ∪ K.infoBytes R) := by
  have hkernel : coreKernelMaxSize ≤ coreRegionSize := by decide
  have hlimits : coreKernelMaxSize = 0x100000 ∧ coreDiscoveryOffset = 0x390000 := ⟨rfl, rfl⟩
  have hfdt := K.inside _ (List.mem_cons_of_mem _ List.mem_cons_self)
  have hbehind : ∀ {p : Nat × Nat}, p.1 + p.2 ≤ K.caps.size →
      Disjoint (R.place (coreDiscoveryOffset, coreDiscoverySize)) (R.place p) := by
    intro p hp
    have hle := place_le K hp
    exact R.disjoint_place (by decide) (hle.trans hkernel) (Or.inr (by dsimp only; omega))
  have hslot : Disjoint (R.place (coreDiscoveryOffset, coreDiscoverySize)) R.slot := by
    rw [R.slot_eq_place]
    exact R.disjoint_place (by decide) (by decide) (by decide)
  have hcap : Disjoint (R.place (coreDiscoveryOffset, coreDiscoverySize)) (K.capBytes R) := by
    rw [Set.disjoint_left]
    rintro x hx ⟨q, hq, hin⟩
    exact Set.disjoint_left.mp (hbehind (capObject_le K hq)) hx hin
  have hword : Disjoint (R.place K.fdtWord) (K.infoBytes R) := by
    refine (R.disjoint_place ((place_le K (info_le K)).trans hkernel)
      ((place_le K hfdt).trans hkernel) ?_).symm
    exact K.info_apart _ List.mem_cons_self
  unfold ApSymbols.infoReads
  rw [Set.disjoint_union_left, Set.disjoint_union_right, Set.disjoint_union_right,
    Set.disjoint_union_right, Set.disjoint_union_right]
  exact ⟨⟨⟨hslot, hcap⟩, hbehind (info_le K)⟩,
    ⟨⟨disjoint_slot K R hfdt, disjoint_capBytes K R hfdt K.fdt_apart⟩, hword⟩⟩

/-- The factory's objects, as those of the image. -/
theorem owns_iff {x : Addr} : (K.image R).Owns x ↔ ∃ p ∈ K.caps.statics, x ∈ R.place p := by
  constructor
  · rintro ⟨q, hq, hin⟩
    obtain ⟨p, hp, rfl⟩ := List.mem_map.mp hq
    exact ⟨p, hp, hin⟩
  · rintro ⟨p, hp, hin⟩
    exact ⟨_, List.mem_map_of_mem hp, hin⟩

theorem owns_subset {x : Addr} (hx : (K.image R).Owns x) : x ∈ K.capBytes R := by
  obtain ⟨p, hp, hin⟩ := (owns_iff K R).mp hx
  exact ⟨p, List.mem_cons_of_mem _ hp, hin⟩

theorem lock_subset {x : Addr} (hx : InExtent (K.image R).capLock 4 x) : x ∈ K.capBytes R :=
  ⟨(K.caps.capLock, 4), List.mem_cons_self, hx⟩

/-- Whether the lock is free is a matter of the lock word. -/
theorem lockFree_of_eqOn {m n : Mem 64} (h : Set.EqOn n m (K.capBytes R)) :
    Cap.LockFree (K.image R) n ↔ Cap.LockFree (K.image R) m := by
  have hword : load n (K.image R).capLock 4 = load m (K.image R).capLock 4 :=
    load_of_eqOn h (by decide) fun _ hx => lock_subset K R hx
  unfold Cap.LockFree
  rw [hword]

end Parts

/-- What is assigned to `boot_info` is a matter of what the assignments read. -/
theorem apInfo_of_eqOn {K : ApSymbols} {R : CoreRegion} {m n : Mem 64}
    (h : Set.EqOn n m (K.infoReads R)) {w : InfoField × (Mem 64 → Nat)} (hw : w ∈ K.apInfo R) :
    w.2 n = w.2 m := by
  have hword : ∀ i < 9, R.discovery n i = R.discovery m i := by
    intro i hi
    have hsize : 8 * i + 8 ≤ coreDiscoverySize := by
      change 8 * i + 8 ≤ 0x48
      omega
    exact load_of_eqOn h (by decide) ((extent_add_subset _ (8 * i) hsize).trans
      Set.subset_union_left)
  have hfdt : load n (R.base + BitVec.ofNat 64 K.gFdtBlobPhys) 8 =
      load m (R.base + BitVec.ofNat 64 K.gFdtBlobPhys) 8 :=
    load_of_eqOn h (by decide) Set.subset_union_right
  have hall : ∀ w ∈ K.apInfo R, w.2 n = w.2 m := by
    simp [ApSymbols.apInfo, hfdt, hword]
  exact hall w hw

end Boot
end Saski
