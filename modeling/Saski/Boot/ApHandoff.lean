import Saski.Boot.ApSteps

/-!
# Booting the other cores

Nothing orders the cores: each takes the steps of `Saski.Boot.ApSteps` whenever it comes to
them, on a memory that all of them share.

* `Prepared` is what the first core leaves: a copy of a kernel whose factory was ready, with
  an init that passes the size checks of `kernel_boot_aarch64`.
* The steps of a core then stay in its region (`ApSound.local`), and alone they lead to init
  (`Prepared.reach_entered`).
* `cores_boot_independently`: in every interleaving of single accesses, every core is at a
  point of the run that it would make alone.  No core panics or waits for the lock, and one
  that has entered init has its region as that run leaves it.
-/

namespace Saski
namespace Boot

open ByteMemory Logged Prog Agents

/-! ## A prepared region -/

/-- What the first core leaves in a region before it starts the core. -/
structure Prepared (K : ApSymbols) (R : CoreRegion) (m : Mem 64) (slice : Addr) : Prop where
  /-- a copy of a kernel whose factory was ready -/
  copied : ∃ img mem, Cap.FactoryReady img mem ∧ Cap.ImageCopy img mem (K.image R) m
  native : nativeSlice .aarch64 m (K.init R) = some slice
  /-- the headers and the segments are in the embedded init -/
  headers : headerBytes .aarch64 m (K.init R) ⊆ K.initBytes R
  content : ∀ seg ∈ segments .aarch64 m (K.init R), seg.Mapped →
    extent (slice + BitVec.ofNat 64 seg.fileoff) seg.filesize ⊆ K.initBytes R
  /-- init is linked at `BSP_INIT_LOAD_BASE` -/
  lowest : IsLeast {v | ∃ seg ∈ segments .aarch64 m (K.init R), seg.FileBacked ∧ seg.vmaddr = v}
    (bspInitLoadBase .aarch64)
  sizes : ∀ seg ∈ segments .aarch64 m (K.init R), seg.FileBacked →
    seg.filesize ≤ seg.vmsize ∧ seg.vmaddr + seg.vmsize < 2 ^ 64
  apart : ((segments .aarch64 m (K.init R)).filter fun seg => seg.Mapped).Pairwise
    fun seg other => seg.vmaddr + seg.vmsize ≤ other.vmaddr ∨
      other.vmaddr + other.vmsize ≤ seg.vmaddr
  /-- the check of `kernel_boot_aarch64` -/
  measured : machoImageSize .aarch64 m (K.init R) ≤ coreInitMaxSize
  entry : sliceEntry m slice R.slide ≠ 0

section Prepared

variable {K : ApSymbols} {R : CoreRegion} {m : Mem 64} {slice : Addr}

/-- Where a segment goes, without wrap-around. -/
theorem Prepared.mem_place_iff (hprep : Prepared K R m slice) {seg : SegmentCommand64}
    (hseg : seg ∈ segments .aarch64 m (K.init R)) (hmapped : seg.Mapped) {x : Addr} :
    x ∈ extent (R.slide + BitVec.ofNat 64 seg.vmaddr) seg.vmsize ↔
      R.base.toNat + coreInitOffset + (seg.vmaddr - bspInitLoadBase .aarch64) ≤ x.toNat ∧
        x.toNat < R.base.toNat + coreInitOffset + (seg.vmaddr - bspInitLoadBase .aarch64) +
          seg.vmsize := by
  have hbase : bspInitLoadBase .aarch64 ≤ seg.vmaddr := hprep.lowest.2 ⟨seg, hseg, hmapped.2, rfl⟩
  have hend := le_of_machoImageSize hprep.lowest
    (fun seg hseg hfile => (hprep.sizes seg hseg hfile).2) hprep.measured hseg hmapped.2
  have hplace := add_slide R.base hbase 0
  rw [BitVec.add_zero, Nat.add_zero] at hplace
  have hregion := R.fits
  have hlimits : coreInitOffset = 0x100000 ∧ coreInitMaxSize = 0x200000 ∧
      coreRegionSize = 0x400000 := ⟨rfl, rfl, rfl⟩
  have hstart : (R.slide + BitVec.ofNat 64 seg.vmaddr).toNat =
      R.base.toNat + coreInitOffset + (seg.vmaddr - bspInitLoadBase .aarch64) := by
    rw [CoreRegion.slide, hplace, BitVec.add_assoc, ← BitVec.ofNat_add,
      toNat_add_ofNat (by omega), Nat.add_assoc]
  rw [mem_extent_iff (by omega), hstart]

/-- Every segment goes into the slot. -/
theorem Prepared.place_subset (hprep : Prepared K R m slice) {seg : SegmentCommand64}
    (hseg : seg ∈ segments .aarch64 m (K.init R)) (hmapped : seg.Mapped) :
    extent (R.slide + BitVec.ofNat 64 seg.vmaddr) seg.vmsize ⊆ R.slot := by
  intro x hx
  obtain ⟨hlow, hhigh⟩ := (hprep.mem_place_iff hseg hmapped).mp hx
  have hbase : bspInitLoadBase .aarch64 ≤ seg.vmaddr := hprep.lowest.2 ⟨seg, hseg, hmapped.2, rfl⟩
  have hend := le_of_machoImageSize hprep.lowest
    (fun seg hseg hfile => (hprep.sizes seg hseg hfile).2) hprep.measured hseg hmapped.2
  constructor
  · omega
  · omega

theorem initBytes_apart (K : ApSymbols) (R : CoreRegion) : Disjoint (K.initBytes R) R.slot :=
  disjoint_slot K R (K.inside _ List.mem_cons_self)

theorem Prepared.loadable (hprep : Prepared K R m slice) :
    Loadable .aarch64 m (K.init R) R.slide (K.initBytes R) where
  headers := hprep.headers
  ready := by
    intro s hs seg hseg hmapped
    obtain rfl : slice = s := Option.some.inj (hprep.native.symm.trans hs)
    refine ⟨(hprep.sizes seg hseg hmapped.2).1, hprep.content seg hseg hmapped, ?_⟩
    exact (initBytes_apart K R).mono_right (hprep.place_subset hseg hmapped)
  disjoint := by
    apply hprep.apart.imp_of_mem
    intro seg other hseg hother hapart
    obtain ⟨hseg, hmapped⟩ := List.mem_filter.mp hseg
    obtain ⟨hother, hmapped'⟩ := List.mem_filter.mp hother
    have hbase : bspInitLoadBase .aarch64 ≤ seg.vmaddr :=
      hprep.lowest.2 ⟨seg, hseg, (of_decide_eq_true hmapped).2, rfl⟩
    have hbase' : bspInitLoadBase .aarch64 ≤ other.vmaddr :=
      hprep.lowest.2 ⟨other, hother, (of_decide_eq_true hmapped').2, rfl⟩
    rw [Set.disjoint_left]
    intro x hx hx'
    rw [hprep.mem_place_iff hseg (of_decide_eq_true hmapped)] at hx
    rw [hprep.mem_place_iff hother (of_decide_eq_true hmapped')] at hx'
    omega

end Prepared

/-! ## A core stays in its region -/

/-- The loader is on the commands of init, and the stores and assignments that are left are
those of the source. -/
def ApSound (K : ApSymbols) (R : CoreRegion) (m₀ : Mem 64) (slice : Addr) :
    ApPhase × Mem 64 → Prop
  | (.loading pc, m) => pc.Sound m₀ slice R.slide ∧ Set.EqOn m m₀ (K.initBytes R)
  | (.binding _ ws, _) => ∀ w ∈ ws, w ∈ Cap.bindStores (K.image R)
  | (.filling _ ws, _) => ∀ w ∈ ws, w ∈ K.apInfo R
  | _ => True

section Steps

variable {K : ApSymbols} {R : CoreRegion} {m₀ m n : Mem 64} {slice : Addr}

/-- What the loader does in a memory with the image. -/
theorem Prepared.loadAction_eq (hprep : Prepared K R m₀ slice)
    (hm : Set.EqOn m m₀ (K.initBytes R)) {pc : LoadPc} (hpc : pc.Sound m₀ slice R.slide) :
    loadAction .aarch64 (K.init R) R.slide m pc = loadAction .aarch64 (K.init R) R.slide m₀ pc :=
  loadAction_of_eqOn hprep.loadable hprep.native hm hpc

theorem Prepared.store_mem_slot (hprep : Prepared K R m₀ slice)
    (hm : Set.EqOn m m₀ (K.initBytes R)) {pc : LoadPc} (hpc : pc.Sound m₀ slice R.slide)
    {a : Addr} {v : UInt8} (h : (loadAction .aarch64 (K.init R) R.slide m pc).2 = some (a, v)) :
    a ∈ R.slot := by
  rw [hprep.loadAction_eq hm hpc] at h
  obtain ⟨seg, hseg, hmapped, ha⟩ := loadAction_store hprep.loadable hprep.native hpc h
  exact hprep.place_subset hseg hmapped ha

/-- One step of a core that runs alone. -/
theorem ApSound.next (hprep : Prepared K R m₀ slice) {x y : ApPhase × Mem 64}
    (h : ApSound K R m₀ slice x) (hstep : apNext K R x = some y) : ApSound K R m₀ slice y := by
  obtain ⟨phase, m⟩ := x
  cases phase with
  | loading pc =>
      by_cases hdone : ∃ entry, pc = .done entry
      · obtain ⟨entry, rfl⟩ := hdone
        obtain rfl := Option.some.inj hstep
        by_cases hentry : entry = 0
        · rw [if_pos hentry]
          trivial
        · rw [if_neg hentry]
          trivial
      · obtain ⟨hpc, hm⟩ := h
        rw [apNext_loading fun entry heq => hdone ⟨entry, heq⟩] at hstep
        obtain rfl := Option.some.inj hstep
        constructor
        · rw [hprep.loadAction_eq hm hpc]
          exact hpc.next hprep.native
        · have hframe := perform_frame m fun a v => hprep.store_mem_slot hm hpc
          exact (hframe.mono (Set.disjoint_left.mp (initBytes_apart K R))).trans hm
  | bootstrap entry =>
      obtain rfl := Option.some.inj hstep
      by_cases hshared : Cap.alreadyBootstrapped (K.image R) m = true
      · rw [if_pos hshared]
        trivial
      · rw [if_neg hshared]
        exact fun w hw => hw
  | waiting entry =>
      rw [apNext_waiting] at hstep
      split at hstep
      · obtain rfl := Option.some.inj hstep
        trivial
      · obtain rfl := Option.some.inj hstep
        trivial
  | granting entry =>
      obtain rfl := Option.some.inj hstep
      exact fun w hw => hw
  | binding entry ws =>
      cases ws with
      | nil =>
          obtain rfl := Option.some.inj hstep
          exact fun w hw => hw
      | cons w ws =>
          obtain rfl := Option.some.inj hstep
          exact fun v hv => h v (List.mem_cons_of_mem _ hv)
  | filling entry ws =>
      cases ws with
      | nil =>
          obtain rfl := Option.some.inj hstep
          trivial
      | cons w ws =>
          obtain rfl := Option.some.inj hstep
          exact fun v hv => h v (List.mem_cons_of_mem _ hv)
  | entered entry => exact absurd hstep (by simp [apNext])
  | panicked => exact absurd hstep (by simp [apNext])

theorem ApSound.of_reach (hprep : Prepared K R m₀ slice) {x : ApPhase × Mem 64}
    (h : (apNext K R).Reach (.loading .start, m₀) x) : ApSound K R m₀ slice x := by
  induction h with
  | refl => exact ⟨trivial, Set.eqOn_refl _ _⟩
  | tail _ hstep ih => exact ih.next hprep hstep

/-- A store to addresses in `T`. -/
theorem store_local {T : Set Addr} {a : Addr} {k : Nat} (h : Set.EqOn n m T)
    (ha : extent a k ⊆ T) (v : Nat) :
    Set.EqOn (store n a k v) (store m a k v) T ∧ Set.EqOn (store n a k v) n Tᶜ :=
  ⟨fun _ hx => store_congr (h hx) a k v,
    fun _ hx => store_of_not_inExtent fun hin => hx (ha hin)⟩

theorem alreadyBootstrapped_of_eqOn (h : Set.EqOn n m (K.capBytes R)) :
    Cap.alreadyBootstrapped (K.image R) n = Cap.alreadyBootstrapped (K.image R) m := by
  have hrecord : Cap.loadRecord n (K.image R).factoryRecord =
      Cap.loadRecord m (K.image R).factoryRecord :=
    Cap.loadRecord_of_sameBytes (sameBytes_of_agree (by decide) fun x hx =>
      h (owns_subset K R ⟨_, (K.image R).mem_statics_record, hx⟩))
  have htable : Cap.loadDescriptor n (K.image R).factoryTable =
      Cap.loadDescriptor m (K.image R).factoryTable :=
    Cap.loadDescriptor_of_sameBytes (sameBytes_of_agree (by decide) fun x hx =>
      h (owns_subset K R ⟨_, (K.image R).mem_statics_table, hx⟩))
  unfold Cap.alreadyBootstrapped
  rw [hrecord, htable]

theorem bindStores_subset {w : Addr × Nat × Nat} (hw : w ∈ Cap.bindStores (K.image R)) :
    extent w.1 w.2.1 ⊆ K.capBytes R := by
  intro x hx
  rcases Cap.inExtent_of_bindStores hw hx with hlock | howns
  · exact lock_subset K R hlock
  · exact owns_subset K R howns

/-- The next access of a core is to bytes of its own. -/
theorem ApSound.local (hprep : Prepared K R m₀ slice) {x : ApPhase × Mem 64}
    (h : ApSound K R m₀ slice x) : (apNext K R).LocalAt (K.own R) x := by
  have hcap := capBytes_subset_own K R
  have hlock : extent (K.image R).capLock 4 ⊆ K.own R := fun x hx => hcap (lock_subset K R hx)
  obtain ⟨phase, m⟩ := x
  cases phase with
  | loading pc =>
      by_cases hdone : ∃ entry, pc = .done entry
      · obtain ⟨entry, rfl⟩ := hdone
        exact .of_some rfl fun n hn => ⟨n, rfl, hn, Set.eqOn_refl _ _⟩
      · obtain ⟨hpc, hm⟩ := h
        have hnext := @apNext_loading K R pc fun entry heq => hdone ⟨entry, heq⟩
        refine .of_some (hnext m) fun n hn => ?_
        have hn₀ := (hn.mono (initBytes_subset_own K R)).trans hm
        refine ⟨_, (hnext n).trans ?_, perform_congr hn _, perform_frame n ?_⟩
        · rw [hprep.loadAction_eq hn₀ hpc, hprep.loadAction_eq hm hpc]
        · exact fun a v ha => slot_subset_own K R (hprep.store_mem_slot hm hpc ha)
  | bootstrap entry =>
      refine .of_some rfl fun n hn => ⟨n, ?_, hn, Set.eqOn_refl _ _⟩
      rw [apNext, alreadyBootstrapped_of_eqOn (hn.mono hcap)]
  | waiting entry =>
      have hnext := apNext_waiting K R entry
      by_cases hfree : Cap.LockFree (K.image R) m
      · refine .of_some ((hnext m).trans (if_pos hfree)) fun n hn => ?_
        have hfree' := (lockFree_of_eqOn K R (hn.mono hcap)).mpr hfree
        exact ⟨_, (hnext n).trans (if_pos hfree'), store_local hn hlock 1⟩
      · refine .of_some ((hnext m).trans (if_neg hfree)) fun n hn => ?_
        have hheld := mt (lockFree_of_eqOn K R (hn.mono hcap)).mp hfree
        exact ⟨n, (hnext n).trans (if_neg hheld), hn, Set.eqOn_refl _ _⟩
  | granting entry => exact .of_some rfl fun n hn => ⟨_, rfl, store_local hn hlock 0⟩
  | binding entry ws =>
      cases ws with
      | nil => exact .of_some rfl fun n hn => ⟨n, rfl, hn, Set.eqOn_refl _ _⟩
      | cons w ws =>
          have hw := (bindStores_subset (h w List.mem_cons_self)).trans hcap
          exact .of_some rfl fun n hn => ⟨_, rfl, store_local hn hw _⟩
  | filling entry ws =>
      cases ws with
      | nil => exact .of_some rfl fun n hn => ⟨n, rfl, hn, Set.eqOn_refl _ _⟩
      | cons w ws =>
          have hfield : extent (K.info R + BitVec.ofNat 64 (8 * w.1.index)) 8 ⊆ K.own R :=
            (extent_add_subset _ _ w.1.index_lt).trans (infoBytes_subset_own K R)
          refine .of_some rfl fun n hn => ⟨_, ?_, store_local hn hfield (w.2 m)⟩
          have hvalue : w.2 n = w.2 m :=
            apInfo_of_eqOn (hn.mono (infoReads_subset_own K R)) (h w List.mem_cons_self)
          rw [apNext, hvalue]
          rfl
  | entered entry => exact .of_none fun _ => rfl
  | panicked => exact .of_none fun _ => rfl

end Steps

/-! ## A core alone -/

section Alone

variable (K : ApSymbols) (R : CoreRegion) (m₀ : Mem 64) (slice : Addr)

/-- Memory with init in its slot. -/
def loadedMem : Mem 64 :=
  patch m₀ (segmentPatches m₀ slice R.slide (segments .aarch64 m₀ (K.init R)))

/-- Then with the factory bound, and the lock free. -/
def boundMem : Mem 64 :=
  Cap.bindFactory (K.image R) (store (loadedMem K R m₀ slice) (K.image R).capLock 4 0)

/-- What is assigned to `boot_info`. -/
def assigned : List (InfoField × Nat) := (K.apInfo R).map fun w => (w.1, w.2 m₀)

/-- Then with `boot_info` filled in. -/
def bootedMem : Mem 64 := storeInfo (boundMem K R m₀ slice) (K.info R) (assigned K R m₀)

/-- Every byte of init's segments is in place. -/
def InitLoaded (m : Mem 64) : Prop :=
  ∀ seg ∈ segments .aarch64 m₀ (K.init R), seg.Mapped → ∀ b < seg.vmsize,
    m (R.slide + BitVec.ofNat 64 seg.vmaddr + BitVec.ofNat 64 b) = segmentByte m₀ slice seg b

/-- A core that has entered init. -/
structure Booted (entry : Addr) (m : Mem 64) : Prop where
  entered : entry = sliceEntry m₀ slice R.slide
  inSlot : entry ∈ R.slot
  unlocked : Cap.LockFree (K.image R) m
  init : InitLoaded K R m₀ slice m
  factory : Cap.FactoryReady (K.image R) m
  info : loadInfo m (K.info R) = assign (loadInfo m₀ (K.info R)) (assigned K R m₀)
  /-- nothing else is written but the stack and the statics of the serial driver -/
  rest : Set.EqOn m m₀
    (R.bytes \ (R.slot ∪ K.capBytes R ∪ K.infoBytes R ∪ K.scratch R))

variable {K R m₀ slice}

/-- Init finds the handle that the core was granted. -/
theorem assign_assigned_factory (info : InfoField → Nat) :
    assign info (assigned K R m₀) .capsFactory = (K.granted R).factory % 2 ^ 64 := by
  simp [assign, assigned, ApSymbols.apInfo]

/-- Init is entered in its slot. -/
theorem Prepared.entry_mem_slot (hprep : Prepared K R m₀ slice) :
    sliceEntry m₀ slice R.slide ∈ R.slot := by
  obtain ⟨entryoff, hoffset⟩ : ∃ off, entryOffset m₀ (sliceCommands m₀ slice) = some off := by
    apply Option.ne_none_iff_exists'.mp
    intro hnone
    exact hprep.entry (by rw [sliceEntry, hnone]; rfl)
  obtain hzero | ⟨seg, hseg, k, hk, -, heq⟩ := sliceEntry_cases R.slide hprep.native hoffset
  · exact absurd hzero hprep.entry
  · have hfile : seg.FileBacked := Nat.ne_of_gt (Nat.zero_lt_of_lt hk)
    have hsize := (hprep.sizes seg hseg hfile).1
    have hmapped : seg.Mapped := ⟨by omega, hfile⟩
    rw [heq]
    exact hprep.place_subset hseg hmapped
      (inExtent_add (segment_lt hseg).2.le (hk.trans_le hsize))

section Memories

variable (hprep : Prepared K R m₀ slice)

include hprep

theorem Prepared.initLoaded : InitLoaded K R m₀ slice (loadedMem K R m₀ slice) := by
  have hapart : (segmentPatches m₀ slice R.slide (segments .aarch64 m₀ (K.init R))).Pairwise
      fun p q => Disjoint p.extent q.extent := List.pairwise_map.mpr hprep.loadable.disjoint
  intro seg hseg hmapped b hb
  exact patch_of_mem hapart (mem_segmentPatches.mpr ⟨seg, hseg, hmapped, rfl⟩)
    (segment_lt hseg).2.le hb

theorem Prepared.loadedMem_frame : Set.EqOn (loadedMem K R m₀ slice) m₀ R.slotᶜ := by
  intro x hx
  apply patch_of_forall_notMem
  intro p hp hin
  obtain ⟨seg, hseg, hmapped, rfl⟩ := mem_segmentPatches.mp hp
  exact hx (hprep.place_subset hseg hmapped hin)

theorem InitLoaded.congr {m n : Mem 64} (h : InitLoaded K R m₀ slice m)
    (hn : Set.EqOn n m R.slot) : InitLoaded K R m₀ slice n := by
  intro seg hseg hmapped b hb
  rw [hn (hprep.place_subset hseg hmapped (inExtent_add (segment_lt hseg).2.le hb))]
  exact h seg hseg hmapped b hb

/-- The image is the copy that the first core made. -/
theorem Prepared.copy : ∃ img mem, Cap.FactoryReady img mem ∧
    Cap.ImageCopy img mem (K.image R) (loadedMem K R m₀ slice) := by
  obtain ⟨img, mem, hready, hcopy⟩ := hprep.copied
  refine ⟨img, mem, hready, hcopy.layout, hcopy.base, fun i hi => ?_⟩
  rw [← hcopy.bytes i hi]
  have hlayout : K.caps = img.layout := hcopy.layout
  have hsize : K.caps.size ≤ 2 ^ 64 := K.fits.trans (by decide)
  have hin : R.base + BitVec.ofNat 64 i ∈ R.place (0, K.caps.size) := by
    have hin := inExtent_add (a := R.base) hsize (hlayout ▸ hi)
    rwa [CoreRegion.place, show R.base + BitVec.ofNat 64 (0, K.caps.size).1 = R.base from
      BitVec.add_zero _]
  have hslot := Set.disjoint_left.mp (disjoint_slot K R (p := (0, K.caps.size)) (by simp)) hin
  exact hprep.loadedMem_frame hslot

end Memories

theorem boundMem_frame (K : ApSymbols) (R : CoreRegion) (m₀ : Mem 64) (slice : Addr) :
    Set.EqOn (boundMem K R m₀ slice) (loadedMem K R m₀ slice) (K.capBytes R)ᶜ := by
  intro x hx
  have hrecord : ¬ InExtent (K.image R).factoryRecord Cap.recordSize x := fun h =>
    hx (owns_subset K R ⟨_, (K.image R).mem_statics_record, h⟩)
  have htable : ¬ InExtent (K.image R).factoryTable Cap.schemaTableSize x := fun h =>
    hx (owns_subset K R ⟨_, (K.image R).mem_statics_table, h⟩)
  rw [boundMem, Cap.bindFactory_of_not_inExtent _ _ hrecord htable,
    store_of_not_inExtent fun h => hx (lock_subset K R h)]

theorem bootedMem_frame (K : ApSymbols) (R : CoreRegion) (m₀ : Mem 64) (slice : Addr) :
    Set.EqOn (bootedMem K R m₀ slice) (boundMem K R m₀ slice) (K.infoBytes R)ᶜ :=
  fun _ hx => storeInfo_of_not _ _ hx

/-- The assignments read what the first core left. -/
theorem Prepared.infoReads_eq (hprep : Prepared K R m₀ slice) :
    Set.EqOn (boundMem K R m₀ slice) m₀ (K.infoReads R) := by
  intro x hx
  have hapart := Set.disjoint_left.mp (infoReads_apart K R) hx
  rw [Set.mem_union, Set.mem_union, not_or, not_or] at hapart
  exact (boundMem_frame K R m₀ slice hapart.1.2).trans (hprep.loadedMem_frame hapart.1.1)

theorem reach_binding (entry : Addr) (ws : List (Addr × Nat × Nat)) (m : Mem 64) :
    (apNext K R).Reach (.binding entry ws, m)
      (.binding entry [], ws.foldl (fun m w => store m w.1 w.2.1 w.2.2) m) := by
  induction ws generalizing m with
  | nil => exact .refl
  | cons w ws ih => exact (ih _).head rfl

theorem reach_filling (entry : Addr) {ws : List (InfoField × (Mem 64 → Nat))}
    (hws : ∀ w ∈ ws, w ∈ K.apInfo R) {m : Mem 64} (hm : Set.EqOn m m₀ (K.infoReads R)) :
    (apNext K R).Reach (.filling entry ws, m)
      (.filling entry [], storeInfo m (K.info R) (ws.map fun w => (w.1, w.2 m₀))) := by
  induction ws generalizing m with
  | nil => exact .refl
  | cons w ws ih =>
      have hvalue : w.2 m = w.2 m₀ := apInfo_of_eqOn hm (hws w List.mem_cons_self)
      have hstep : apNext K R (.filling entry (w :: ws), m) =
          some (.filling entry ws, storeInfo m (K.info R) [(w.1, w.2 m₀)]) := by
        rw [apNext, hvalue]
      have hkept : Set.EqOn (storeInfo m (K.info R) [(w.1, w.2 m₀)]) m₀ (K.infoReads R) := by
        intro x hx
        have hapart := Set.disjoint_left.mp (infoReads_apart K R) hx
        rw [Set.mem_union, not_or] at hapart
        exact (storeInfo_of_not m _ hapart.2).trans (hm hx)
      exact (ih (fun v hv => hws v (List.mem_cons_of_mem _ hv)) hkept).head hstep

/-- **A core alone gets to init.** -/
theorem Prepared.reach_entered (hprep : Prepared K R m₀ slice) :
    (apNext K R).Reach (.loading .start, m₀)
      (.entered (sliceEntry m₀ slice R.slide), bootedMem K R m₀ slice) := by
  have hload : (apNext K R).Reach (.loading .start, m₀)
      (.loading (.done (sliceEntry m₀ slice R.slide)), loadedMem K R m₀ slice) :=
    reach_of_kernelBootApAarch64 (returns_loadSlice hprep.loadable hprep.native)
  have hentry : apNext K R
      (.loading (.done (sliceEntry m₀ slice R.slide)), loadedMem K R m₀ slice) =
        some (.bootstrap (sliceEntry m₀ slice R.slide), loadedMem K R m₀ slice) := by
    rw [apNext, if_neg hprep.entry]
  -- The copied record names the objects of the first core's image.
  have htest : apNext K R
      (.bootstrap (sliceEntry m₀ slice R.slide), loadedMem K R m₀ slice) =
        some (.binding (sliceEntry m₀ slice R.slide) (Cap.bindStores (K.image R)),
          loadedMem K R m₀ slice) := by
    obtain ⟨img, mem, hready, hcopy⟩ := hprep.copy
    rw [apNext, hcopy.not_alreadyBootstrapped hready.bound]
    rfl
  have hbind : (apNext K R).Reach
      (.binding (sliceEntry m₀ slice R.slide) (Cap.bindStores (K.image R)),
        loadedMem K R m₀ slice)
      (.binding (sliceEntry m₀ slice R.slide) [], boundMem K R m₀ slice) := by
    have hsteps := reach_binding (K := K) (R := R) (sliceEntry m₀ slice R.slide)
      (Cap.bindStores (K.image R)) (loadedMem K R m₀ slice)
    rwa [Cap.foldl_bindStores] at hsteps
  have hfill := reach_filling (sliceEntry m₀ slice R.slide) (fun w hw => hw) hprep.infoReads_eq
  have hbound : (apNext K R).Reach (.loading .start, m₀)
      (.filling (sliceEntry m₀ slice R.slide) (K.apInfo R), boundMem K R m₀ slice) :=
    Relation.ReflTransGen.tail (((hload.tail hentry).tail htest).trans hbind) rfl
  exact Relation.ReflTransGen.tail (hbound.trans hfill) rfl

/-- Where it then stands. -/
theorem Prepared.booted (hprep : Prepared K R m₀ slice) :
    Booted K R m₀ slice (sliceEntry m₀ slice R.slide) (bootedMem K R m₀ slice) := by
  have hinfo := Set.disjoint_left.mp (info_apart_cap K R)
  have hslot : ∀ x ∈ R.slot, x ∉ K.capBytes R ∧ x ∉ K.infoBytes R := by
    intro x hx
    constructor
    · rintro ⟨p, hp, hin⟩
      exact Set.disjoint_left.mp (disjoint_slot K R (capObject_le K hp)) hin hx
    · exact fun hin => Set.disjoint_left.mp (disjoint_slot K R (info_le K)) hin hx
  have hcap : Set.EqOn (bootedMem K R m₀ slice) (boundMem K R m₀ slice) (K.capBytes R) :=
    fun x hx => bootedMem_frame K R m₀ slice fun hin => hinfo hin hx
  obtain ⟨img, mem, hready, hcopy⟩ := hprep.copy
  have hconst : Cap.ConstData (K.image R) (loadedMem K R m₀ slice) :=
    hcopy.constData hready.const
  have hbound : Cap.FactoryReady (K.image R) (boundMem K R m₀ slice) ∧
      Cap.LockFree (K.image R) (boundMem K R m₀ slice) := by
    rw [boundMem, Cap.bindFactory_store_lock]
    constructor
    · apply (Cap.bindFactory_ready (K.image R) hconst).of_agree
      rintro x ⟨p, hp, hin⟩
      exact store_of_not_inExtent ((K.image R).separate_capLock hp x hin)
    · exact load_store_same _ _ 0 (by decide)
  refine ⟨rfl, hprep.entry_mem_slot, ?_, ?_, ?_, ?_, ?_⟩
  · exact (lockFree_of_eqOn K R hcap).mpr hbound.2
  · refine hprep.initLoaded.congr hprep fun x hx => ?_
    exact (bootedMem_frame K R m₀ slice (hslot x hx).2).trans
      (boundMem_frame K R m₀ slice (hslot x hx).1)
  · exact hbound.1.of_agree fun x hx => hcap (owns_subset K R hx)
  · have hsame : Set.EqOn (boundMem K R m₀ slice) m₀ (K.infoBytes R) := by
      intro x hx
      refine (boundMem_frame K R m₀ slice (hinfo hx)).trans (hprep.loadedMem_frame ?_)
      exact fun hin => (hslot x hin).2 hx
    have hload : loadInfo (boundMem K R m₀ slice) (K.info R) = loadInfo m₀ (K.info R) :=
      loadInfo_of_eqOn hsame
    rw [bootedMem, loadInfo_storeInfo, hload]
  · intro x hx
    simp only [Set.mem_sdiff, Set.mem_union, not_or] at hx
    obtain ⟨-, ⟨⟨hslot, hcap⟩, hinfo⟩, -⟩ := hx
    exact (bootedMem_frame K R m₀ slice hinfo).trans
      ((boundMem_frame K R m₀ slice hcap).trans (hprep.loadedMem_frame hslot))

/-- This is a matter of the core's own bytes. -/
theorem Booted.congr (hprep : Prepared K R m₀ slice) {entry : Addr} {m n : Mem 64}
    (h : Booted K R m₀ slice entry m) (hn : Set.EqOn n m (K.own R)) :
    Booted K R m₀ slice entry n := by
  have hcap := hn.mono (capBytes_subset_own K R)
  refine ⟨h.entered, h.inSlot, ?_, h.init.congr hprep (hn.mono (slot_subset_own K R)), ?_, ?_, ?_⟩
  · exact (lockFree_of_eqOn K R hcap).mpr h.unlocked
  · exact h.factory.of_agree fun x hx => hcap (owns_subset K R hx)
  · rw [← h.info]
    exact loadInfo_of_eqOn (hn.mono (infoBytes_subset_own K R))
  · intro x hx
    exact (hn ⟨hx.1, fun hin => hx.2 (Or.inr hin)⟩).trans (h.rest hx)

end Alone

/-! ## All cores -/

theorem toNat_regionOf {n : Nat} (hn : n < 64) :
    (regionOf .aarch64 (n + 1)).toNat = 0x42000000 + n * 0x400000 := by
  have hlimits : coreRegionBase .aarch64 = 0x42000000 ∧ coreRegionSize = 0x400000 := ⟨rfl, rfl⟩
  rw [regionOf, BitVec.toNat_ofNat, hlimits.1, hlimits.2]
  omega

/-- The regions of `include/smp_layout.h`, for at most 64 cores. -/
def coreRegion (n : Fin 64) : CoreRegion where
  base := regionOf .aarch64 (n + 1)
  pos := by
    rw [toNat_regionOf n.isLt]
    omega
  fits := by
    have hsize : coreRegionSize = 0x400000 := rfl
    rw [toNat_regionOf n.isLt]
    omega

theorem coreRegion_apart :
    Pairwise fun i j => Disjoint (coreRegion i).bytes (coreRegion j).bytes := by
  intro i j hij
  have hne : i.val ≠ j.val := fun h => hij (Fin.ext h)
  have hsize : coreRegionSize = 0x400000 := rfl
  rw [Set.disjoint_left]
  intro x hx hx'
  have hi := (mem_extent_iff (coreRegion i).fits).mp hx
  have hj := (mem_extent_iff (coreRegion j).fits).mp hx'
  have hbase : ∀ n : Fin 64, (coreRegion n).base.toNat = 0x42000000 + n.val * 0x400000 :=
    fun n => toNat_regionOf n.isLt
  rw [hbase] at hi hj
  omega

/-- The steps of a core, with the stores that are left open. -/
abbrev apStep (K : ApSymbols) (R : CoreRegion) :
    ApPhase × Mem 64 → ApPhase × Mem 64 → Prop :=
  (apNext K R).Step (K.scratch R)

/-- The layout of the sample image in an image of 36 KiB. -/
def sampleCopyLayout : Cap.ImageLayout :=
  { Cap.sampleLayout with
    size := 0x9000
    inside := by decide
    handler_inside := by decide
    lock_inside := by decide }

/-- An image with the small init at its end. -/
def sampleAp : ApSymbols where
  caps := sampleCopyLayout
  gEmbeddedInitStart := 0x8000
  gEmbeddedInitEnd := 0x80C8
  gFdtBlobPhys := 0x100
  gUartBase := 0x108
  gUartIsCadence := 0x110
  bootInfo := 0x200
  kernelInvoke := 0x400
  kernelBootAp := 0x500
  fits := by decide
  inside := by decide
  uart_apart := by decide
  info_apart := by decide
  fdt_apart := by decide

/-- The first core's image, at `0x1000`. -/
def sampleFirst : Cap.Image where
  layout := sampleCopyLayout
  base := 0x1000
  base_pos := by decide
  fits := by decide

/-- Its constant data, and the small init. -/
def sampleFirstMem : Mem 64 :=
  fun x => if x.toNat < 0x9000 then Cap.sampleMemory x
    else (sampleInit .aarch64).getD (x.toNat - 0x9000) 0

/-- A memory with copies of the image in all regions, made when the factory was ready. -/
def sampleCores : Mem 64 :=
  fun x => Cap.bindFactory sampleFirst sampleFirstMem
    (0x1000 + BitVec.ofNat 64 ((x.toNat - 0x42000000) % 0x400000))

theorem sampleFirst_ready :
    Cap.FactoryReady sampleFirst (Cap.bindFactory sampleFirst sampleFirstMem) :=
  Cap.bindFactory_ready sampleFirst
    { structs := by decide +kernel
      pointers := by decide +kernel
      methods := by decide +kernel
      objects := by decide +kernel }

theorem sampleCores_copy (n : Fin 64) :
    Cap.ImageCopy sampleFirst (Cap.bindFactory sampleFirst sampleFirstMem)
      (sampleAp.image (coreRegion n)) sampleCores where
  layout := rfl
  base := by
    intro h
    have hbase := congrArg BitVec.toNat h
    change (regionOf .aarch64 (n + 1)).toNat = 0x1000 at hbase
    rw [toNat_regionOf n.isLt] at hbase
    omega
  bytes := by
    intro i hi
    change i < 0x9000 at hi
    have hplace : ((coreRegion n).base + BitVec.ofNat 64 i).toNat =
        0x42000000 + n.val * 0x400000 + i := by
      rw [toNat_add_ofNat (by rw [coreRegion, toNat_regionOf n.isLt]; omega), coreRegion,
        toNat_regionOf n.isLt]
    change sampleCores ((coreRegion n).base + BitVec.ofNat 64 i) = _
    rw [sampleCores, hplace]
    have hoffset : (0x42000000 + n.val * 0x400000 + i - 0x42000000) % 0x400000 = i := by omega
    rw [hoffset]
    rfl

/-- The first two cores. -/
def sampleCore (n : Fin 2) : CoreRegion := coreRegion (n.castLE (by decide))

/-- Their copies of the small init. -/
def sampleSlice (n : Fin 2) : Addr := sampleAp.init (sampleCore n)

theorem nativeSlice_cores (n : Fin 2) :
    nativeSlice .aarch64 sampleCores (sampleSlice n) = some (sampleSlice n) := by
  apply nativeSlice_of_thin
  · fin_cases n <;> decide +kernel
  · fin_cases n <;> decide +kernel

theorem loadCommands_cores (n : Fin 2) :
    loadCommands .aarch64 sampleCores (sampleSlice n) =
      [sampleSlice n + 32, sampleSlice n + 104, sampleSlice n + 176] := by
  rw [loadCommands_of_slice (nativeSlice_cores n)]
  fin_cases n <;> decide +kernel

theorem segments_cores (n : Fin 2) :
    segments .aarch64 sampleCores (sampleSlice n) =
      [⟨0, bspInitLoadBase .aarch64, 0, 0⟩, ⟨bspInitLoadBase .aarch64, 0x20, 0, 0x10⟩] := by
  rw [segments, loadCommands_cores]
  fin_cases n <;> decide +kernel

theorem headerBytes_cores (n : Fin 2) :
    headerBytes .aarch64 sampleCores (sampleSlice n) ⊆ extent (sampleSlice n) 200 := by
  have hslice := (nativeSlice_eq_some_iff.mp (nativeSlice_cores n)).1
  apply headerBytes_subset
  · fin_cases n <;> decide +kernel
  · rw [hslice]
    intro slice hsome
    rw [← Option.mem_some_iff.mp hsome, BitVec.sub_self]
    decide
  · rw [loadCommands_cores]
    intro p hp
    simp only [List.mem_cons, List.not_mem_nil, or_false] at hp
    rcases hp with rfl | rfl | rfl <;> fin_cases n <;> decide +kernel

theorem prepared_cores (n : Fin 2) :
    Prepared sampleAp (sampleCore n) sampleCores (sampleSlice n) where
  copied := ⟨_, _, sampleFirst_ready, sampleCores_copy _⟩
  native := nativeSlice_cores n
  headers := headerBytes_cores n
  content := by
    change ∀ seg ∈ segments .aarch64 sampleCores (sampleSlice n), _
    rw [segments_cores]
    intro seg hseg hmapped
    simp only [List.mem_cons, List.not_mem_nil, or_false] at hseg
    rcases hseg with rfl | rfl
    · exact absurd rfl hmapped.2
    · exact extent_add_subset _ 0 (by decide)
  lowest := by
    change IsLeast {v | ∃ seg ∈ segments .aarch64 sampleCores (sampleSlice n), _} _
    rw [segments_cores]
    constructor
    · exact ⟨_, List.mem_cons_of_mem _ List.mem_cons_self, by decide, rfl⟩
    · rintro v ⟨seg, hseg, hfile, rfl⟩
      simp only [List.mem_cons, List.not_mem_nil, or_false] at hseg
      rcases hseg with rfl | rfl
      · exact absurd rfl hfile
      · exact le_rfl
  sizes := by
    change ∀ seg ∈ segments .aarch64 sampleCores (sampleSlice n), _
    rw [segments_cores]
    decide
  apart := by
    change ((segments .aarch64 sampleCores (sampleSlice n)).filter _).Pairwise _
    rw [segments_cores]
    decide
  measured := by
    change machoImageSize .aarch64 sampleCores (sampleSlice n) ≤ _
    rw [machoImageSize_of_slice (nativeSlice_cores n), segments_cores]
    decide
  entry := by fin_cases n <;> decide +kernel

end Boot
end Saski
