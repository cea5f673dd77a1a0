import Mathlib
import Saski.Boot.MachoLoad
import Saski.Lib.StoreLog

/-!
# The region of an additional core (`include/smp_layout.h`)

Every core but the first boots in a region of its own, with a copy of the kernel, a slot
for init, a stack, a discovery record and page tables at fixed offsets.  The kernel loads
init into that region on both architectures, but not in the same way.

* On aarch64, `kernel_boot_ap_aarch64` moves init by the distance between its load address
  and the slot.  If the size that `kernel_boot_aarch64` measured fits the slot, everything
  is written there.
* On x86_64, `kernel_boot_ap` passes the address of the slot itself.  The loader adds the
  addresses of the segments to it, so that init never arrives in the region.
-/

namespace Saski
namespace Boot

open ByteMemory Logged Prog

/-! ## The layout -/

/-- `CORE_REGION_BASE`. -/
def coreRegionBase : Arch → Nat
  | .aarch64 => 0x42000000
  | .x86_64 => 0x4000000

def coreRegionSize : Nat := 0x400000

def coreKernelOffset : Nat := 0x000000

def coreKernelMaxSize : Nat := 0x100000

def coreInitOffset : Nat := 0x100000

def coreInitMaxSize : Nat := 0x200000

def coreStackOffset : Nat := 0x300000

def coreStackSize : Nat := 0x080000

def coreDiscoveryOffset : Nat := 0x390000

/-- The discovery record: nine words, of which the last is `ap_core_state_phys`. -/
def coreDiscoverySize : Nat := 0x48

def corePgtableOffset : Nat := 0x3A0000

def corePgtablePml4Off : Nat := 0x0000

def corePgtablePdptOff : Nat := 0x1000

def corePgtablePdOff : Nat := 0x2000

def corePgtablePdHiOff : Nat := 0x3000

/-- `BSP_INIT_LOAD_BASE`. -/
def bspInitLoadBase : Arch → Nat
  | .aarch64 => 0x40200000
  | .x86_64 => 0x1800000

/-- The region of core `n`, for `n ≥ 1`. -/
def regionOf (arch : Arch) (n : Nat) : Addr :=
  BitVec.ofNat 64 (coreRegionBase arch + (n - 1) * coreRegionSize)

/-! ## Page tables -/

def ptePresent : BitVec 64 := 0x1

def pteWritable : BitVec 64 := 0x2

def pteHuge : BitVec 64 := 0x80

/-- `table[i] = v`, for a table of 64-bit entries. -/
def storeEntry (m : Mem 64) (table : Addr) (i : Nat) (v : BitVec 64) : Logged Addr (Mem 64) :=
  let a := table + BitVec.ofNat 64 (8 * i)
  withLog (store m a 8 v.toNat) ((List.range 8).map fun k => a + BitVec.ofNat 64 k)

/-- The state of a loop over table entries. -/
structure TableLoop where
  i : Nat
  mem : Mem 64

/-- `for (; i < 512; i++) { first[i] = ...; second[i] = ...; }` -/
def tablesBody (first second : Addr) (firstEntry secondEntry : Nat → BitVec 64) (s : TableLoop) :
    Prog Addr (TableLoop ⊕ Mem 64) :=
  if s.i < 512 then do
    let mem ← storeEntry s.mem first s.i (firstEntry s.i)
    let mem ← storeEntry mem second s.i (secondEntry s.i)
    pure (.inl ⟨s.i + 1, mem⟩)
  else pure (.inr s.mem)

/-- `build_ap_page_tables`: the memory it leaves, and the address of the top table. -/
def buildApPageTables (m : Mem 64) (regionBase : Addr) : Prog Addr (Mem 64 × Addr) := do
  let tables := regionBase + BitVec.ofNat 64 corePgtableOffset
  let pml4 := tables + BitVec.ofNat 64 corePgtablePml4Off
  let pdpt := tables + BitVec.ofNat 64 corePgtablePdptOff
  let pd := tables + BitVec.ofNat 64 corePgtablePdOff
  let pdHi := tables + BitVec.ofNat 64 corePgtablePdHiOff
  let m ← loop (tablesBody pml4 pdpt (fun _ => 0) (fun _ => 0)) ⟨0, m⟩
  let m ← storeEntry m pml4 0 (pdpt ||| ptePresent ||| pteWritable)
  let m ← storeEntry m pdpt 0 (pd ||| ptePresent ||| pteWritable)
  let m ← storeEntry m pdpt 3 (pdHi ||| ptePresent ||| pteWritable)
  let m ← loop (tablesBody pd pdHi
    (fun i => BitVec.ofNat 64 (i * 0x200000) ||| ptePresent ||| pteWritable ||| pteHuge)
    (fun i => BitVec.ofNat 64 (0xC0000000 + i * 0x200000) ||| ptePresent ||| pteWritable |||
      pteHuge)) ⟨0, m⟩
  pure (m, pml4)

/-- `kernel_boot_ap` on x86_64, as far as init is loaded: the memory, and the entry point. -/
def kernelBootAp (m : Mem 64) (initImage regionBase : Addr) : Prog Addr (Mem 64 × Addr) := do
  let r ← buildApPageTables m regionBase
  machoLoad .x86_64 r.1 initImage (regionBase + BitVec.ofNat 64 coreInitOffset)

/-- `kernel_boot_ap_aarch64`, as far as init is loaded. -/
def kernelBootApAarch64 (m : Mem 64) (initImage regionBase : Addr) : Prog Addr (Mem 64 × Addr) :=
  let slide := regionBase + BitVec.ofNat 64 coreInitOffset -
    BitVec.ofNat 64 (bspInitLoadBase .aarch64)
  machoLoad .aarch64 m initImage slide

/-! ## The page tables stay in their window -/

/-- The four tables of a core. -/
def pageTables (regionBase : Addr) : Set Addr :=
  extent (regionBase + BitVec.ofNat 64 corePgtableOffset) 0x4000

section Tables

variable {m mem : Mem 64} {window : Set Addr}

theorem ensures_storeEntry {table : Addr} {i : Nat} {v : BitVec 64} {β : Type} {Q : β → Prop}
    {k : Mem 64 → Prog Addr β} (htable : extent table 0x1000 ⊆ window) (hi : i < 512)
    (hmem : Set.EqOn mem m windowᶜ)
    (hk : ∀ mem, Set.EqOn mem m windowᶜ → Ensures (· ∈ window) Q (k mem)) :
    Ensures (· ∈ window) Q ((liftM (storeEntry mem table i v) : Prog Addr (Mem 64)) >>= k) := by
  have hentry : extent (table + BitVec.ofNat 64 (8 * i)) 8 ⊆ window :=
    (extent_add_subset table (8 * i) (by omega)).trans htable
  apply ensures_liftM_bind
  · apply logs_withLog
    intro e he
    obtain ⟨j, hj, rfl⟩ := List.mem_map.mp he
    exact hentry (inExtent_add (by decide) (List.mem_range.mp hj))
  · apply hk
    intro x hx
    exact (store_of_not_inExtent fun hin => hx (hentry hin)).trans (hmem hx)

theorem ensures_tables {first second : Addr} {firstEntry secondEntry : Nat → BitVec 64}
    (hfirst : extent first 0x1000 ⊆ window) (hsecond : extent second 0x1000 ⊆ window)
    (hmem : Set.EqOn mem m windowᶜ) :
    Ensures (· ∈ window) (Set.EqOn · m windowᶜ)
      (loop (tablesBody first second firstEntry secondEntry) ⟨0, mem⟩) := by
  apply ensures_loop (fun s => Set.EqOn s.mem m windowᶜ) (fun s => 512 - s.i) _ hmem
  intro s hs
  unfold tablesBody
  apply ensures_ite
  · intro hlt
    apply ensures_storeEntry hfirst hlt hs
    intro mem hmem
    apply ensures_storeEntry hsecond hlt hmem
    intro mem hmem
    apply ensures_pure
    constructor
    · exact hmem
    · change 512 - (s.i + 1) < 512 - s.i
      omega
  · intro _
    exact ensures_pure hs

end Tables

theorem ensures_buildApPageTables (m : Mem 64) (regionBase : Addr) :
    Ensures (· ∈ pageTables regionBase) (fun r => Set.EqOn r.1 m (pageTables regionBase)ᶜ)
      (buildApPageTables m regionBase) := by
  have htable : ∀ off, off + 0x1000 ≤ 0x4000 →
      extent (regionBase + BitVec.ofNat 64 corePgtableOffset + BitVec.ofNat 64 off) 0x1000 ⊆
        pageTables regionBase :=
    fun off hoff => extent_add_subset _ off hoff
  have hpml4 := htable corePgtablePml4Off (by decide)
  have hpdpt := htable corePgtablePdptOff (by decide)
  have hpd := htable corePgtablePdOff (by decide)
  have hpdHi := htable corePgtablePdHiOff (by decide)
  unfold buildApPageTables
  apply (ensures_tables hpml4 hpdpt (Set.eqOn_refl m _)).bind
  intro mem hmem
  apply ensures_storeEntry hpml4 (by decide) hmem
  intro mem hmem
  apply ensures_storeEntry hpdpt (by decide) hmem
  intro mem hmem
  apply ensures_storeEntry hpdpt (by decide) hmem
  intro mem hmem
  apply (ensures_tables hpd hpdHi hmem).bind
  intro mem hmem
  exact ensures_pure hmem

/-! ## A small init -/

/-- The bytes of an `LC_SEGMENT_64` command. -/
def segmentBytes (seg : SegmentCommand64) : List UInt8 :=
  [lcSegment64, 72].flatMap (StoreLog.leBytes 4) ++ List.replicate 16 0 ++
    [seg.vmaddr, seg.vmsize, seg.fileoff, seg.filesize].flatMap (StoreLog.leBytes 8) ++
    List.replicate 16 0

/-- A small init: a reservation of the addresses below it, one segment, and `LC_MAIN`. -/
def sampleInit (arch : Arch) : List UInt8 :=
  [mhMagic64, cpuTypeNative arch, 0, 2, 3, 168, 0, 0].flatMap (StoreLog.leBytes 4) ++
    segmentBytes ⟨0, bspInitLoadBase arch, 0, 0⟩ ++
    segmentBytes ⟨bspInitLoadBase arch, 0x20, 0, 0x10⟩ ++
    [lcMain, 24].flatMap (StoreLog.leBytes 4) ++ [8, 0].flatMap (StoreLog.leBytes 8)

/-- Where it stands: on x86_64 in the first core's kernel, on aarch64 in the kernel copy of
core 1. -/
def sampleImage : Arch → Addr
  | .x86_64 => 0x1010000
  | .aarch64 => 0x42008000

/-- A memory with the small init and zeros. -/
def sampleMem (arch : Arch) : Mem 64 :=
  fun a => (sampleInit arch).getD (a - sampleImage arch).toNat 0

theorem sliceOf_sample (arch : Arch) :
    sliceOf arch (sampleMem arch) (sampleImage arch) = some (sampleImage arch) := by
  cases arch <;> decide +kernel

theorem nativeSlice_sample (arch : Arch) :
    nativeSlice arch (sampleMem arch) (sampleImage arch) = some (sampleImage arch) := by
  have hheader : (headerAt (sampleMem arch) (sampleImage arch)).magic = mhMagic64 ∧
      (headerAt (sampleMem arch) (sampleImage arch)).cputype = cpuTypeNative arch := by
    cases arch <;> decide +kernel
  exact nativeSlice_eq_some_iff.mpr ⟨sliceOf_sample arch, hheader⟩

/-- The second command starts where the first one ends, and so on. -/
theorem loadCommands_sample (arch : Arch) :
    loadCommands arch (sampleMem arch) (sampleImage arch) =
      [sampleImage arch + 32, sampleImage arch + 104, sampleImage arch + 176] := by
  have hcount : (headerAt (sampleMem arch) (sampleImage arch)).ncmds = 3 := by
    cases arch <;> decide +kernel
  have hfirst : nextCommand (sampleMem arch) (sampleImage arch + 32) = sampleImage arch + 104 := by
    cases arch <;> decide +kernel
  have hsecond :
      nextCommand (sampleMem arch) (sampleImage arch + 104) = sampleImage arch + 176 := by
    cases arch <;> decide +kernel
  rw [loadCommands_of_slice (nativeSlice_sample arch), sliceCommands, hcount]
  change commands _ 3 (sampleImage arch + 32) = _
  rw [commands, commands, commands, commands, hfirst, hsecond]

theorem segments_sample (arch : Arch) :
    segments arch (sampleMem arch) (sampleImage arch) =
      [⟨0, bspInitLoadBase arch, 0, 0⟩, ⟨bspInitLoadBase arch, 0x20, 0, 0x10⟩] := by
  have hfirst : (commandAt (sampleMem arch) (sampleImage arch + 32)).cmd = lcSegment64 := by
    cases arch <;> decide +kernel
  have hsecond : (commandAt (sampleMem arch) (sampleImage arch + 104)).cmd = lcSegment64 := by
    cases arch <;> decide +kernel
  have hthird : (commandAt (sampleMem arch) (sampleImage arch + 176)).cmd ≠ lcSegment64 := by
    cases arch <;> decide +kernel
  have hreserved : segmentAt (sampleMem arch) (sampleImage arch + 32) =
      ⟨0, bspInitLoadBase arch, 0, 0⟩ := by
    cases arch <;> decide +kernel
  have htext : segmentAt (sampleMem arch) (sampleImage arch + 104) =
      ⟨bspInitLoadBase arch, 0x20, 0, 0x10⟩ := by
    cases arch <;> decide +kernel
  rw [segments, loadCommands_sample, segmentsAmong_cons_of_segment _ hfirst,
    segmentsAmong_cons_of_segment _ hsecond, segmentsAmong_cons_of_other _ hthird, hreserved, htext]
  rfl

theorem headerBytes_sample (arch : Arch) :
    headerBytes arch (sampleMem arch) (sampleImage arch) ⊆ extent (sampleImage arch) 200 := by
  apply headerBytes_subset
  · cases arch <;> decide +kernel
  · rw [sliceOf_sample]
    rintro slice ⟨⟩
    cases arch <;> decide +kernel
  · rw [loadCommands_sample]
    intro p hp
    simp only [List.mem_cons, List.not_mem_nil, or_false] at hp
    rcases hp with rfl | rfl | rfl <;> cases arch <;> decide +kernel

/-! ## x86_64 -/

section X86

variable {m : Mem 64} {initImage regionBase : Addr}

theorem pageTables_subset (regionBase : Addr) :
    pageTables regionBase ⊆ extent regionBase coreRegionSize :=
  extent_add_subset regionBase corePgtableOffset (by decide)

/-- The tables are built before init is loaded, and leave its headers alone. -/
theorem returns_tables
    (hapart : Disjoint (headerBytes .x86_64 m initImage) (pageTables regionBase)) :
    ∃ r, (buildApPageTables m regionBase).Returns r ∧
      segments .x86_64 r.1 initImage = segments .x86_64 m initImage := by
  obtain ⟨r, hr, hmem⟩ := (ensures_buildApPageTables m regionBase).result
  exact ⟨r, hr, segments_of_eqOn (hmem.mono (Set.disjoint_left.mp hapart))⟩

/-- The loader adds the address of a segment to the address of the slot. -/
theorem performs_kernelBootAp_first
    (hapart : Disjoint (headerBytes .x86_64 m initImage) (pageTables regionBase))
    (hmapped : ∃ seg ∈ segments .x86_64 m initImage, seg.Mapped) :
    ∃ seg ∈ segments .x86_64 m initImage, seg.Mapped ∧
      (kernelBootAp m initImage regionBase).Performs
        (regionBase + BitVec.ofNat 64 (coreInitOffset + seg.vmaddr)) := by
  obtain ⟨r, hr, hsegments⟩ := returns_tables hapart
  rw [← hsegments] at hmapped ⊢
  obtain ⟨seg, hseg, hmap, hperforms⟩ :=
    performs_machoLoad_first (regionBase + BitVec.ofNat 64 coreInitOffset) hmapped
  refine ⟨seg, hseg, hmap, ?_⟩
  rw [kernelBootAp, performs_bind_of hr, BitVec.ofNat_add, ← BitVec.add_assoc]
  exact Or.inr hperforms

/-- An image with nothing to copy only costs the page tables. -/
theorem kernelBootAp_performs_tables
    (hapart : Disjoint (headerBytes .x86_64 m initImage) (pageTables regionBase))
    (hnone : ∀ seg ∈ segments .x86_64 m initImage, ¬ seg.Mapped) {a : Addr}
    (ha : (kernelBootAp m initImage regionBase).Performs a) : a ∈ pageTables regionBase := by
  obtain ⟨r, hr, hsegments⟩ := returns_tables hapart
  rw [← hsegments] at hnone
  rw [kernelBootAp, performs_bind_of hr] at ha
  rcases ha with ha | ha
  · exact (ensures_buildApPageTables m regionBase).events a ha
  · have hload := ensures_machoLoad (regionBase + BitVec.ofNat 64 coreInitOffset)
      (Set.disjoint_empty (headerBytes .x86_64 r.1 initImage))
      (fun seg hseg hmap => absurd hmap (hnone seg hseg))
    exact absurd (hload.events a ha) (Set.notMem_empty a)

/-- **No core stays in its region.**  Where init's segments lie in the 2 MiB from
`BSP_INIT_LOAD_BASE`, `kernel_boot_ap` writes inside the region of its core exactly when
there is nothing to load. -/
theorem kernelBootAp_confined_iff (m : Mem 64) (initImage : Addr) (n : Nat)
    (hapart : Disjoint (headerBytes .x86_64 m initImage) (pageTables (regionOf .x86_64 n)))
    (hsegments : ∀ seg ∈ segments .x86_64 m initImage, seg.FileBacked →
      bspInitLoadBase .x86_64 ≤ seg.vmaddr ∧
      seg.vmaddr + seg.vmsize ≤ bspInitLoadBase .x86_64 + coreInitMaxSize ∧
      seg.filesize ≤ seg.vmsize) :
    (∀ a, (kernelBootAp m initImage (regionOf .x86_64 n)).Performs a →
        a ∈ extent (regionOf .x86_64 n) coreRegionSize) ↔
      ∀ seg ∈ segments .x86_64 m initImage, ¬ seg.FileBacked := by
  constructor
  · intro hinside seg hseg hfile
    have hmapped : seg.Mapped := by
      have hsize := (hsegments seg hseg hfile).2.2
      exact ⟨fun hzero => hfile (Nat.le_zero.mp (hzero ▸ hsize)), hfile⟩
    obtain ⟨first, hfirst, hmap, hperforms⟩ :=
      performs_kernelBootAp_first hapart ⟨seg, hseg, hmapped⟩
    obtain ⟨hlow, hhigh, -⟩ := hsegments first hfirst hmap.2
    -- The offset in the region is that of the slot plus an address above the region's size.
    have hoffset := hinside _ hperforms
    change (_ : Addr).toNat < coreRegionSize at hoffset
    have hlimits : bspInitLoadBase .x86_64 = 0x1800000 ∧ coreInitMaxSize = 0x200000 ∧
        coreInitOffset = 0x100000 ∧ coreRegionSize = 0x400000 := ⟨rfl, rfl, rfl, rfl⟩
    rw [toNat_add_ofNat_sub _ (by omega)] at hoffset
    omega
  · intro hnone a ha
    exact pageTables_subset _
      (kernelBootAp_performs_tables hapart (fun seg hseg hmap => hnone seg hseg hmap.2) ha)

end X86

/-- The small init is far below the region of core 1. -/
theorem disjoint_pageTables_sample :
    Disjoint (headerBytes .x86_64 (sampleMem .x86_64) (sampleImage .x86_64))
      (pageTables (regionOf .x86_64 1)) := by
  apply Set.disjoint_of_subset_left (headerBytes_sample .x86_64)
  exact Set.disjoint_left.mpr (separate_of_toNat_le (by decide) (by decide))

/-- The small init leaves the region of core 1. -/
theorem kernelBootAp_sample_not_confined :
    ¬ ∀ a, (kernelBootAp (sampleMem .x86_64) (sampleImage .x86_64)
        (regionOf .x86_64 1)).Performs a → a ∈ extent (regionOf .x86_64 1) coreRegionSize := by
  have hsegments := segments_sample .x86_64
  rw [kernelBootAp_confined_iff _ _ 1 disjoint_pageTables_sample]
  · rw [hsegments]
    decide
  · rw [hsegments]
    decide

/-- Core 1 writes its init into the region of core 7. -/
theorem kernelBootAp_writes_other_region :
    ∃ (m : Mem 64) (initImage : Addr),
      Disjoint (headerBytes .x86_64 m initImage) (pageTables (regionOf .x86_64 1)) ∧
      (∀ seg ∈ segments .x86_64 m initImage, seg.FileBacked →
        bspInitLoadBase .x86_64 ≤ seg.vmaddr ∧
        seg.vmaddr + seg.vmsize ≤ bspInitLoadBase .x86_64 + coreInitMaxSize ∧
        seg.filesize ≤ seg.vmsize) ∧
      ∃ a, (kernelBootAp m initImage (regionOf .x86_64 1)).Performs a ∧
        a ∉ extent (regionOf .x86_64 1) coreRegionSize ∧
        a ∈ extent (regionOf .x86_64 7) coreRegionSize := by
  have hsegments := segments_sample .x86_64
  obtain ⟨seg, hseg, hmap, hperforms⟩ := performs_kernelBootAp_first disjoint_pageTables_sample
    (by rw [hsegments]; exact ⟨_, List.mem_cons_of_mem _ List.mem_cons_self, by decide⟩)
  rw [hsegments] at hseg
  refine ⟨sampleMem .x86_64, sampleImage .x86_64, disjoint_pageTables_sample, ?_, _, hperforms, ?_⟩
  · rw [hsegments]
    decide
  · simp only [List.mem_cons, List.not_mem_nil, or_false] at hseg
    rcases hseg with rfl | rfl
    · exact absurd hmap (by decide)
    · exact ⟨by change ¬ InExtent _ _ _; decide, by change InExtent _ _ _; decide⟩

/-! ## aarch64 -/

/-- An address in the slot for init. -/
def InInitSlot (regionBase a : Addr) : Prop :=
  regionBase.toNat + coreInitOffset ≤ a.toNat ∧
    a.toNat < regionBase.toNat + coreInitOffset + coreInitMaxSize

instance (regionBase a : Addr) : Decidable (InInitSlot regionBase a) :=
  inferInstanceAs (Decidable (_ ∧ _))

/-- The kernel copy, the stack and the discovery record of a core. -/
def coreParts (regionBase : Addr) : Set Addr :=
  extent (regionBase + BitVec.ofNat 64 coreKernelOffset) coreKernelMaxSize ∪
    extent (regionBase + BitVec.ofNat 64 coreStackOffset) coreStackSize ∪
    extent (regionBase + BitVec.ofNat 64 coreDiscoveryOffset) coreDiscoverySize

section Aarch64

variable {m : Mem 64} {initImage regionBase : Addr}

theorem mem_part_iff (hregion : regionBase.toNat + coreRegionSize ≤ 2 ^ 64) {off size : Nat}
    (hsize : 0 < size) (hfit : off + size ≤ coreRegionSize) {a : Addr} :
    a ∈ extent (regionBase + BitVec.ofNat 64 off) size ↔
      regionBase.toNat + off ≤ a.toNat ∧ a.toNat < regionBase.toNat + off + size := by
  have hoff : (regionBase + BitVec.ofNat 64 off).toNat = regionBase.toNat + off := by
    rw [BitVec.toNat_add, BitVec.toNat_ofNat, Nat.mod_eq_of_lt (show off < 2 ^ 64 by omega),
      Nat.mod_eq_of_lt (by omega)]
  rw [mem_extent_iff (by omega), hoff]

/-- The slot ends before the stack and starts behind the kernel. -/
theorem notMem_coreParts (hregion : regionBase.toNat + coreRegionSize ≤ 2 ^ 64) {a : Addr}
    (ha : InInitSlot regionBase a) : a ∉ coreParts regionBase := by
  have hlimits : coreKernelOffset = 0 ∧ coreKernelMaxSize = 0x100000 ∧
      coreInitOffset = 0x100000 ∧ coreInitMaxSize = 0x200000 ∧ coreStackOffset = 0x300000 ∧
      coreDiscoveryOffset = 0x390000 := ⟨rfl, rfl, rfl, rfl, rfl, rfl⟩
  obtain ⟨hlow, hhigh⟩ := ha
  rintro ((hkernel | hstack) | hdiscovery)
  · rw [mem_part_iff hregion (by decide) (by decide)] at hkernel
    omega
  · rw [mem_part_iff hregion (by decide) (by decide)] at hstack
    omega
  · rw [mem_part_iff hregion (by decide) (by decide)] at hdiscovery
    omega

/-- What stands in the kernel copy is not in the slot. -/
theorem disjoint_initSlot (hregion : regionBase.toNat + coreRegionSize ≤ 2 ^ 64)
    {bytes : Set Addr} (hbytes : bytes ⊆
      extent (regionBase + BitVec.ofNat 64 coreKernelOffset) coreKernelMaxSize) :
    Disjoint bytes {a | InInitSlot regionBase a} := by
  rw [Set.disjoint_left]
  intro a ha hslot
  exact notMem_coreParts hregion hslot (Or.inl (Or.inl (hbytes ha)))

/-- The slide takes a segment to its place in the slot. -/
theorem add_slide (regionBase : Addr) {vmaddr : Nat} (hbase : bspInitLoadBase .aarch64 ≤ vmaddr)
    (b : Nat) :
    regionBase + BitVec.ofNat 64 coreInitOffset - BitVec.ofNat 64 (bspInitLoadBase .aarch64) +
        BitVec.ofNat 64 vmaddr + BitVec.ofNat 64 b =
      regionBase + BitVec.ofNat 64 coreInitOffset +
        BitVec.ofNat 64 (vmaddr - bspInitLoadBase .aarch64 + b) := by
  obtain ⟨above, rfl⟩ := Nat.exists_eq_add_of_le hbase
  rw [Nat.add_sub_cancel_left, BitVec.ofNat_add, BitVec.ofNat_add, ← BitVec.add_assoc,
    BitVec.sub_add_cancel, BitVec.add_assoc]

/-- **Init fits its slot.**  For an init whose lowest file-backed segment is linked at
`BSP_INIT_LOAD_BASE` and whose measured size passes the check, the core loads init into
the slot and nowhere else, and enters it there. -/
theorem kernelBootApAarch64_fits (m : Mem 64) (initImage regionBase : Addr)
    (hregion : regionBase.toNat + coreRegionSize ≤ 2 ^ 64)
    (hapart : Disjoint (headerBytes .aarch64 m initImage) {a | InInitSlot regionBase a})
    (hlowest : IsLeast {v | ∃ seg ∈ segments .aarch64 m initImage,
      seg.FileBacked ∧ seg.vmaddr = v} (bspInitLoadBase .aarch64))
    (hsegments : ∀ seg ∈ segments .aarch64 m initImage, seg.FileBacked →
      seg.filesize ≤ seg.vmsize ∧ seg.vmaddr + seg.vmsize < 2 ^ 64)
    (hcheck : machoImageSize .aarch64 m initImage ≤ coreInitMaxSize) :
    ∃ m' entry, (kernelBootApAarch64 m initImage regionBase).Returns (m', entry) ∧
      (∀ a, (kernelBootApAarch64 m initImage regionBase).Performs a →
        InInitSlot regionBase a ∧ a ∉ coreParts regionBase) ∧
      (entry ≠ 0 → InInitSlot regionBase entry ∧ entry ∉ coreParts regionBase) := by
  -- A byte of a file-backed segment, as far as its memory goes, is a byte of the slot.
  have hslot : ∀ seg ∈ segments .aarch64 m initImage, seg.FileBacked → ∀ b < seg.vmsize,
      InInitSlot regionBase (regionBase + BitVec.ofNat 64 coreInitOffset -
        BitVec.ofNat 64 (bspInitLoadBase .aarch64) + BitVec.ofNat 64 seg.vmaddr +
        BitVec.ofNat 64 b) := by
    intro seg hseg hfile b hb
    have hbase : bspInitLoadBase .aarch64 ≤ seg.vmaddr := hlowest.2 ⟨seg, hseg, hfile, rfl⟩
    have hend := le_of_machoImageSize hlowest (fun seg hseg hfile => (hsegments seg hseg hfile).2)
      hcheck hseg hfile
    rw [add_slide regionBase hbase]
    exact (mem_part_iff hregion (by decide) (by decide)).mp
      (inExtent_add (by decide) (show _ < coreInitMaxSize by omega))
  have hload := ensures_machoLoad (regionBase + BitVec.ofNat 64 coreInitOffset -
    BitVec.ofNat 64 (bspInitLoadBase .aarch64)) hapart (by
      rintro seg hseg hmap a ⟨b, hb, rfl⟩
      rw [max_eq_right (hsegments seg hseg hmap.2).1] at hb
      exact hslot seg hseg hmap.2 b hb)
  obtain ⟨⟨m', entry⟩, hreturns, hentry⟩ := hload.result
  refine ⟨m', entry, hreturns, ?_, ?_⟩
  · intro a ha
    exact ⟨hload.events a ha, notMem_coreParts hregion (hload.events a ha)⟩
  · intro hne
    obtain hzero | ⟨seg, hseg, k, hk, rfl⟩ := hentry
    · exact absurd hzero hne
    · have hfile : seg.FileBacked := Nat.ne_of_gt (Nat.zero_lt_of_lt hk)
      have hin := hslot seg hseg hfile k (hk.trans_le (hsegments seg hseg hfile).1)
      exact ⟨hin, notMem_coreParts hregion hin⟩

end Aarch64

/-- The small init, in the kernel copy of core 1. -/
theorem kernelBootApAarch64_sample_fits :
    ∃ m' entry,
      (kernelBootApAarch64 (sampleMem .aarch64) (sampleImage .aarch64)
        (regionOf .aarch64 1)).Returns (m', entry) ∧
      (∀ a, (kernelBootApAarch64 (sampleMem .aarch64) (sampleImage .aarch64)
          (regionOf .aarch64 1)).Performs a →
        InInitSlot (regionOf .aarch64 1) a ∧ a ∉ coreParts (regionOf .aarch64 1)) ∧
      (entry ≠ 0 → InInitSlot (regionOf .aarch64 1) entry ∧
        entry ∉ coreParts (regionOf .aarch64 1)) := by
  have hsegments := segments_sample .aarch64
  apply kernelBootApAarch64_fits
  · decide
  · apply disjoint_initSlot (by decide)
    have himage : regionOf .aarch64 1 + BitVec.ofNat 64 coreKernelOffset +
        BitVec.ofNat 64 0x8000 = sampleImage .aarch64 := by decide
    apply (headerBytes_sample .aarch64).trans
    rw [← himage]
    exact extent_add_subset _ 0x8000 (by decide)
  · rw [hsegments]
    constructor
    · exact ⟨_, List.mem_cons_of_mem _ List.mem_cons_self, by decide, rfl⟩
    · rintro v ⟨seg, hseg, hfile, rfl⟩
      simp only [List.mem_cons, List.not_mem_nil, or_false] at hseg
      rcases hseg with rfl | rfl
      · exact absurd rfl hfile
      · exact le_rfl
  · rw [hsegments]
    decide
  · rw [machoImageSize_of_slice (nativeSlice_sample .aarch64), hsegments]
    decide

end Boot
end Saski
