import Mathlib.Data.List.MinMax
import Mathlib.Order.Interval.Finset.Nat
import Saski.Boot.Macho

/-!
# The EFI memory map (`kernel/kernel.c`)

GRUB passes a `struct xnu_boot_args_v2`, which says where the memory map of the firmware
is, how long it is and how far apart its descriptors are.
`xnu_boot_args_find_largest_free` looks for the largest free range at or above an address.

* The structures are read field by field from the memory, as the code does.  The log
  records the bytes read, by the structure they belong to.
* What the map says is a list of descriptors (`efiMap`).  A search over it is compared with
  the part of each free descriptor that is high enough: the loop keeps the first one of the
  largest size, which is `List.argmax` (`returns_freeLoop`, `argmax_eq_foldl`).
-/

namespace Saski
namespace Boot
namespace Efi

open ByteMemory Logged Prog

/-- The bytes that the functions of this file read. -/
inductive Access where
  /-- of the boot arguments -/
  | bootArgs (a : Addr)
  /-- of the memory map -/
  | memoryMap (a : Addr)
  /-- of the system table -/
  | systemTable (a : Addr)
  /-- of the array of configuration tables -/
  | configTable (a : Addr)
  deriving DecidableEq

/-- Where a field of a structure is, and how many bytes it has. -/
structure Field where
  off : Nat
  size : Nat
  deriving DecidableEq, Repr

/-- The value of a field of the structure at `a`. -/
def fieldAt (m : Mem 64) (a : Addr) (f : Field) : Nat := load m (a + BitVec.ofNat 64 f.off) f.size

/-- A field is read. -/
def rdField (part : Addr → Access) (m : Mem 64) (a : Addr) (f : Field) : Logged Access Nat :=
  withLog (fieldAt m a f)
    ((List.range f.size).map fun i => part (a + BitVec.ofNat 64 f.off + BitVec.ofNat 64 i))

@[simp] theorem value_rdField (part : Addr → Access) (m : Mem 64) (a : Addr) (f : Field) :
    (rdField part m a f).value = fieldAt m a f := rfl

/-! ## The boot arguments -/

/-- `struct xnu_boot_args_v2`: eight bytes of versions, then `struct xnu_boot_args_common`,
which begins with a command line of 1024 bytes. -/
def vermajor : Field := ⟨2, 2⟩

def efiMmap : Field := ⟨8 + 1024, 4⟩

def efiMmapSize : Field := ⟨8 + 1028, 4⟩

def efiMemDescSize : Field := ⟨8 + 1032, 4⟩

/-- Behind the 1088 bytes of the common part and `efi_runtime_first_page_virtual`. -/
def efiSystemTable : Field := ⟨8 + 1088 + 8, 4⟩

/-- The boot arguments at the captured address, if there are any of version 2. -/
def argsV2 (m : Mem 64) (bootArgs : BitVec 32) : Logged Access (Option Addr) :=
  if bootArgs = 0 then pure none
  else do
    let args := bootArgs.setWidth 64
    if (← rdField .bootArgs m args vermajor) ≠ 2 then pure none
    else pure (some args)

/-- Where the descriptors of the memory map are. -/
structure MapLayout where
  base : Addr
  stride : Nat
  count : Nat

/-- The test for a memory map, and `base`, `stride` and `count`. -/
def mapLayout (m : Mem 64) (args : Addr) : Logged Access (Option MapLayout) := do
  if (← rdField .bootArgs m args efiMmap) = 0 then pure none
  else if (← rdField .bootArgs m args efiMemDescSize) = 0 then pure none
  else do
    let base ← rdField .bootArgs m args efiMmap
    let stride ← rdField .bootArgs m args efiMemDescSize
    let size ← rdField .bootArgs m args efiMmapSize
    pure (some ⟨BitVec.ofNat 64 base, stride, size / stride⟩)

/-- The `i`-th descriptor. -/
def MapLayout.desc (map : MapLayout) (i : Nat) : Addr :=
  map.base + BitVec.ofNat 64 (i * map.stride)

/-! ## Descriptors -/

/-- The fields of `struct efi_memory_descriptor`. -/
def descType : Field := ⟨0, 4⟩

def physicalStart : Field := ⟨8, 8⟩

def virtualStart : Field := ⟨16, 8⟩

def numberOfPages : Field := ⟨24, 8⟩

/-- `efi_type_is_free`: conventional memory, and the code and data of the boot services. -/
def efiTypeIsFree (type : Nat) : Prop := type = 7 ∨ type = 3 ∨ type = 4

instance (type : Nat) : Decidable (efiTypeIsFree type) :=
  inferInstanceAs (Decidable (type = 7 ∨ type = 3 ∨ type = 4))

/-- A range of addresses. -/
structure Region where
  base : Nat
  size : Nat
  deriving DecidableEq, Repr

/-- `if (region_size > best_size) { ... }` -/
def keepLarger (best region : Region) : Region := if best.size < region.size then region else best

/-- What the loop of `xnu_boot_args_find_largest_free` does with one descriptor. -/
def considerDescriptor (m : Mem 64) (desc : Addr) (minAddr : Nat) (best : Region) :
    Logged Access Region := do
  if ¬ efiTypeIsFree (← rdField .memoryMap m desc descType) then pure best
  else do
    let regionBase ← rdField .memoryMap m desc physicalStart
    let pages ← rdField .memoryMap m desc numberOfPages
    let regionSize := pages * 4096 % 2 ^ 64
    if regionBase < minAddr then
      let clip := minAddr - regionBase
      if regionSize ≤ clip then pure best
      else pure (keepLarger best ⟨minAddr, regionSize - clip⟩)
    else pure (keepLarger best ⟨regionBase, regionSize⟩)

/-- The loop of `xnu_boot_args_find_largest_free`. -/
def freeBody (m : Mem 64) (map : MapLayout) (minAddr : Nat) :
    Nat × Region → Prog Access (Nat × Region ⊕ Region)
  | (i, best) =>
      if i < map.count then do
        let best ← considerDescriptor m (map.desc i) minAddr best
        pure (.inl (i + 1, best))
      else pure (.inr best)

/-- `xnu_boot_args_find_largest_free`: `*out_base` and `*out_size`, where the function
returns 1. -/
def xnuBootArgsFindLargestFree (m : Mem 64) (bootArgs : BitVec 32) (minAddr : Nat) :
    Prog Access (Option Region) := do
  match ← argsV2 m bootArgs with
  | none => pure none
  | some args => do
      match ← mapLayout m args with
      | none => pure none
      | some map => do
          let best ← loop (freeBody m map minAddr) (0, ⟨0, 0⟩)
          if best.size = 0 then pure none else pure (some best)

/-! ## What the map says -/

/-- A descriptor, as far as it is read. -/
structure Descriptor where
  type : Nat
  physicalStart : Nat
  virtualStart : Nat
  numberOfPages : Nat
  deriving DecidableEq, Repr

def descriptorAt (m : Mem 64) (a : Addr) : Descriptor where
  type := fieldAt m a descType
  physicalStart := fieldAt m a Efi.physicalStart
  virtualStart := fieldAt m a Efi.virtualStart
  numberOfPages := fieldAt m a Efi.numberOfPages

namespace Descriptor

variable (d : Descriptor)

def Free : Prop := efiTypeIsFree d.type

instance : DecidablePred Free := fun d => inferInstanceAs (Decidable (efiTypeIsFree d.type))

/-- The end of its physical range. -/
def finish : Nat := d.physicalStart + d.numberOfPages * 4096

/-- The physical addresses of a descriptor. -/
def range : Finset Nat := Finset.Ico d.physicalStart d.finish

/-- The part of its range at or above an address. -/
def partAbove (minAddr : Nat) : Finset Nat := d.range.filter (minAddr ≤ ·)

/-- The same part as base and size. -/
def region (minAddr : Nat) : Region where
  base := max d.physicalStart minAddr
  size := d.finish - max d.physicalStart minAddr

end Descriptor

/-- The addresses of a region. -/
def Region.range (r : Region) : Finset Nat := Finset.Ico r.base (r.base + r.size)

theorem Descriptor.partAbove_eq (d : Descriptor) (minAddr : Nat) :
    d.partAbove minAddr = Finset.Ico (max d.physicalStart minAddr) d.finish := by
  ext a
  simp only [partAbove, range, Finset.mem_filter, Finset.mem_Ico, max_le_iff]
  tauto

theorem Descriptor.card_partAbove (d : Descriptor) (minAddr : Nat) :
    (d.partAbove minAddr).card = (d.region minAddr).size := by
  rw [partAbove_eq, Nat.card_Ico, region]

/-- A region that is not empty is the part that it stands for. -/
theorem Descriptor.range_region (d : Descriptor) {minAddr : Nat}
    (h : (d.region minAddr).size ≠ 0) : (d.region minAddr).range = d.partAbove minAddr := by
  have hpositive : d.finish - max d.physicalStart minAddr ≠ 0 := h
  have hend : max d.physicalStart minAddr + (d.finish - max d.physicalStart minAddr) =
      d.finish := by omega
  rw [partAbove_eq, Region.range, region, hend]

/-- The descriptors of the memory map from the `i`-th on. -/
def MapLayout.descriptorsFrom (m : Mem 64) (map : MapLayout) (i : Nat) : List Descriptor :=
  (List.range' i (map.count - i)).map fun i => descriptorAt m (map.desc i)

/-- The descriptors of the memory map. -/
def MapLayout.descriptors (m : Mem 64) (map : MapLayout) : List Descriptor :=
  map.descriptorsFrom m 0

theorem MapLayout.descriptorsFrom_of_lt (m : Mem 64) {map : MapLayout} {i : Nat}
    (h : i < map.count) :
    map.descriptorsFrom m i = descriptorAt m (map.desc i) :: map.descriptorsFrom m (i + 1) := by
  have hleft : map.count - i = map.count - (i + 1) + 1 := by omega
  rw [descriptorsFrom, hleft, List.range'_succ, List.map_cons, descriptorsFrom]

theorem MapLayout.descriptorsFrom_of_le (m : Mem 64) {map : MapLayout} {i : Nat}
    (h : map.count ≤ i) : map.descriptorsFrom m i = [] := by
  rw [descriptorsFrom, Nat.sub_eq_zero_of_le h, List.range'_zero, List.map_nil]

theorem MapLayout.mem_descriptors (m : Mem 64) {map : MapLayout} {i : Nat} (h : i < map.count) :
    descriptorAt m (map.desc i) ∈ map.descriptors m :=
  List.mem_map_of_mem (List.mem_range'_1.mpr ⟨Nat.zero_le i, by omega⟩)

/-- The layout that the boot arguments describe. -/
def layoutOf (m : Mem 64) (args : Addr) : MapLayout where
  base := BitVec.ofNat 64 (fieldAt m args efiMmap)
  stride := fieldAt m args efiMemDescSize
  count := fieldAt m args efiMmapSize / fieldAt m args efiMemDescSize

/-- The memory map that the boot arguments describe. -/
def efiMap (m : Mem 64) (bootArgs : BitVec 32) : List Descriptor :=
  (layoutOf m (bootArgs.setWidth 64)).descriptors m

/-- The regions that the free descriptors of a map have at or above an address. -/
def freeRegions (ds : List Descriptor) (minAddr : Nat) : List Region :=
  (ds.filter (·.Free)).map (·.region minAddr)

theorem mem_freeRegions {ds : List Descriptor} {minAddr : Nat} {r : Region} :
    r ∈ freeRegions ds minAddr ↔ ∃ d ∈ ds, d.Free ∧ d.region minAddr = r := by
  simp [freeRegions, and_assoc]

theorem freeRegions_cons (d : Descriptor) (ds : List Descriptor) (minAddr : Nat) :
    freeRegions (d :: ds) minAddr =
      if d.Free then d.region minAddr :: freeRegions ds minAddr else freeRegions ds minAddr := by
  unfold freeRegions
  by_cases hfree : d.Free
  · simp [hfree]
  · simp [hfree]

/-- There are boot arguments of version 2. -/
structure HasArgs (m : Mem 64) (bootArgs : BitVec 32) : Prop where
  captured : bootArgs ≠ 0
  version : fieldAt m (bootArgs.setWidth 64) vermajor = 2

/-- There is a memory map. -/
structure HasMap (m : Mem 64) (args : Addr) : Prop where
  map : fieldAt m args efiMmap ≠ 0
  stride : fieldAt m args efiMemDescSize ≠ 0

theorem value_argsV2 (m : Mem 64) (bootArgs : BitVec 32) :
    (HasArgs m bootArgs ∧ (argsV2 m bootArgs).value = some (bootArgs.setWidth 64)) ∨
      (¬ HasArgs m bootArgs ∧ (argsV2 m bootArgs).value = none) := by
  unfold argsV2
  by_cases hzero : bootArgs = 0
  · refine Or.inr ⟨fun h => h.captured hzero, ?_⟩
    rw [if_pos hzero, value_pure]
  rw [if_neg hzero, value_bind, value_rdField]
  by_cases hversion : fieldAt m (bootArgs.setWidth 64) vermajor = 2
  · refine Or.inl ⟨⟨hzero, hversion⟩, ?_⟩
    rw [if_neg (not_not.mpr hversion), value_pure]
  · refine Or.inr ⟨fun h => hversion h.version, ?_⟩
    rw [if_pos hversion, value_pure]

theorem value_mapLayout (m : Mem 64) (args : Addr) :
    (HasMap m args ∧ (mapLayout m args).value = some (layoutOf m args)) ∨
      (¬ HasMap m args ∧ (mapLayout m args).value = none) := by
  unfold mapLayout
  rw [value_bind, value_rdField]
  by_cases hmap : fieldAt m args efiMmap = 0
  · refine Or.inr ⟨fun h => h.map hmap, ?_⟩
    rw [if_pos hmap, value_pure]
  rw [if_neg hmap, value_bind, value_rdField]
  by_cases hstride : fieldAt m args efiMemDescSize = 0
  · refine Or.inr ⟨fun h => h.stride hstride, ?_⟩
    rw [if_pos hstride, value_pure]
  · refine Or.inl ⟨⟨hmap, hstride⟩, ?_⟩
    rw [if_neg hstride]
    rfl

/-! ## The search -/

/-- The running best is the first region of the largest size. -/
theorem argmax_eq_foldl (best : Region) (l : List Region) :
    (best :: l).argmax Region.size = some (l.foldl keepLarger best) := by
  induction l using List.reverseRecOn with
  | nil => rfl
  | append_singleton l region ih =>
      rw [← List.cons_append, List.argmax_concat, ih, List.foldl_append]
      simp only [List.foldl_cons, List.foldl_nil, keepLarger]
      split <;> rfl

theorem value_considerDescriptor (m : Mem 64) (desc : Addr) (minAddr : Nat) (best : Region)
    (hfits : (descriptorAt m desc).finish ≤ 2 ^ 64 - 1) :
    (considerDescriptor m desc minAddr best).value =
      if (descriptorAt m desc).Free then keepLarger best ((descriptorAt m desc).region minAddr)
      else best := by
  generalize hd : descriptorAt m desc = d at hfits ⊢
  have htype : fieldAt m desc descType = d.type := hd ▸ rfl
  have hstart : fieldAt m desc physicalStart = d.physicalStart := hd ▸ rfl
  have hpages : fieldAt m desc numberOfPages = d.numberOfPages := hd ▸ rfl
  unfold Descriptor.finish at hfits
  have hsize : d.numberOfPages * 4096 % 2 ^ 64 = d.numberOfPages * 4096 :=
    Nat.mod_eq_of_lt (by omega)
  unfold considerDescriptor
  simp only [value_bind, value_rdField, htype]
  by_cases hfree : efiTypeIsFree d.type
  · rw [if_neg (not_not.mpr hfree), if_pos (show d.Free from hfree)]
    simp only [value_bind, value_rdField, hstart, hpages, hsize]
    by_cases hlow : d.physicalStart < minAddr
    · rw [if_pos hlow]
      have hmax : max d.physicalStart minAddr = minAddr := max_eq_right hlow.le
      by_cases hclip : d.numberOfPages * 4096 ≤ minAddr - d.physicalStart
      · -- What is clipped away has size 0 and is never larger.
        rw [if_pos hclip, value_pure, keepLarger, if_neg]
        rw [Descriptor.region, hmax, Descriptor.finish]
        simp only
        omega
      · rw [if_neg hclip, value_pure, Descriptor.region, hmax, Descriptor.finish]
        congr 2
        omega
    · have hmax : max d.physicalStart minAddr = d.physicalStart := max_eq_left (by omega)
      rw [if_neg hlow, value_pure, Descriptor.region, hmax, Descriptor.finish,
        Nat.add_sub_cancel_left]
  · rw [if_pos hfree, if_neg (show ¬ d.Free from hfree), value_pure]

/-- The loop keeps the best of the regions of the free descriptors that are left. -/
theorem returns_freeLoop (m : Mem 64) (map : MapLayout) (minAddr : Nat)
    (hfits : ∀ d ∈ map.descriptors m, d.finish ≤ 2 ^ 64 - 1) (i : Nat) (best : Region) :
    (loop (freeBody m map minAddr) (i, best)).Returns
      ((freeRegions (map.descriptorsFrom m i) minAddr).foldl keepLarger best) := by
  induction hleft : map.count - i generalizing i best with
  | zero =>
      apply returns_loop_of_done
      rw [freeBody, if_neg (by omega), returns_pure, map.descriptorsFrom_of_le m (by omega)]
      rfl
  | succ n ih =>
      have hlt : i < map.count := by omega
      have hstep : Step (freeBody m map minAddr) (i, best)
          (i + 1, (considerDescriptor m (map.desc i) minAddr best).value) := by
        unfold Step
        rw [freeBody, if_pos hlt, returns_liftM_bind, returns_pure]
      apply returns_loop_of_step hstep
      rw [value_considerDescriptor m _ _ _ (hfits _ (map.mem_descriptors m hlt)),
        map.descriptorsFrom_of_lt m hlt, freeRegions_cons]
      by_cases hfree : (descriptorAt m (map.desc i)).Free
      · rw [if_pos hfree, if_pos hfree, List.foldl_cons]
        exact ih (i + 1) _ (by omega)
      · rw [if_neg hfree, if_neg hfree]
        exact ih (i + 1) _ (by omega)

section Search

variable {m : Mem 64} {bootArgs : BitVec 32}

/-- The result of the search: the best region, unless it is empty. -/
theorem returns_findLargestFree (hargs : HasArgs m bootArgs)
    (hmap : HasMap m (bootArgs.setWidth 64))
    (hfits : ∀ d ∈ efiMap m bootArgs, d.finish ≤ 2 ^ 64 - 1) (minAddr : Nat) :
    ∃ best, (xnuBootArgsFindLargestFree m bootArgs minAddr).Returns
        (if best.size = 0 then none else some best) ∧
      (best.size ≠ 0 → ∃ d ∈ efiMap m bootArgs, d.Free ∧ d.region minAddr = best) ∧
      ∀ d ∈ efiMap m bootArgs, d.Free → (d.region minAddr).size ≤ best.size := by
  have hloop : (loop (freeBody m (layoutOf m (bootArgs.setWidth 64)) minAddr) (0, ⟨0, 0⟩)).Returns
      ((freeRegions (efiMap m bootArgs) minAddr).foldl keepLarger ⟨0, 0⟩) :=
    returns_freeLoop m _ minAddr hfits 0 ⟨0, 0⟩
  have hbest := argmax_eq_foldl ⟨0, 0⟩ (freeRegions (efiMap m bootArgs) minAddr)
  generalize (freeRegions (efiMap m bootArgs) minAddr).foldl keepLarger ⟨0, 0⟩ = best
    at hloop hbest
  refine ⟨best, ?_, ?_, ?_⟩
  · have hvalue := (value_argsV2 m bootArgs).resolve_right fun h => h.1 hargs
    have hlayout := (value_mapLayout m (bootArgs.setWidth 64)).resolve_right fun h => h.1 hmap
    unfold xnuBootArgsFindLargestFree
    rw [returns_liftM_bind, hvalue.2]
    simp only
    rw [returns_liftM_bind, hlayout.2]
    simp only
    rw [returns_bind_of hloop]
    split <;> exact (returns_pure _ _).mpr rfl
  · intro hsize
    rcases List.mem_cons.mp (List.argmax_mem hbest) with rfl | hmem
    · exact absurd rfl hsize
    · exact mem_freeRegions.mp hmem
  · intro d hd hfree
    have hmem : d.region minAddr ∈ freeRegions (efiMap m bootArgs) minAddr :=
      mem_freeRegions.mpr ⟨d, hd, hfree, rfl⟩
    exact List.le_of_mem_argmax (List.mem_cons_of_mem _ hmem) hbest

/-- **The largest free range.**  The search succeeds exactly if a free descriptor reaches
above `min_addr`; its result is then inside such a descriptor and at least as large as the
part of every free descriptor there. -/
theorem findLargestFree_correct (hargs : HasArgs m bootArgs)
    (hmap : HasMap m (bootArgs.setWidth 64))
    (hfits : ∀ d ∈ efiMap m bootArgs, d.finish ≤ 2 ^ 64 - 1) (minAddr : Nat) :
    ∃ r, (xnuBootArgsFindLargestFree m bootArgs minAddr).Returns r ∧
      (r.isSome = true ↔
        ∃ d ∈ efiMap m bootArgs, d.Free ∧ (d.partAbove minAddr).Nonempty) ∧
      ∀ region, r = some region →
        (∀ a ∈ region.range, minAddr ≤ a) ∧
        (∃ d ∈ efiMap m bootArgs, d.Free ∧ region.range ⊆ d.range) ∧
        ∀ d ∈ efiMap m bootArgs, d.Free → (d.partAbove minAddr).card ≤ region.size := by
  obtain ⟨best, hr, hmem, hle⟩ := returns_findLargestFree hargs hmap hfits minAddr
  refine ⟨_, hr, ?_, ?_⟩
  · simp only [← Finset.card_pos, Descriptor.card_partAbove]
    by_cases hsize : best.size = 0
    · rw [if_pos hsize]
      refine iff_of_false (by simp) ?_
      rintro ⟨d, hd, hfree, hpositive⟩
      have hlarger := hle d hd hfree
      omega
    · rw [if_neg hsize]
      obtain ⟨d, hd, hfree, hregion⟩ := hmem hsize
      exact iff_of_true rfl ⟨d, hd, hfree, hregion ▸ Nat.pos_of_ne_zero hsize⟩
  · intro region hregion
    by_cases hsize : best.size = 0
    · simp [hsize] at hregion
    rw [if_neg hsize] at hregion
    obtain rfl := Option.some.inj hregion
    obtain ⟨d, hd, hfree, rfl⟩ := hmem hsize
    rw [d.range_region hsize]
    refine ⟨?_, ⟨d, hd, hfree, Finset.filter_subset _ _⟩, ?_⟩
    · intro a ha
      exact (Finset.mem_filter.mp ha).2
    · intro d' hd' hfree'
      rw [Descriptor.card_partAbove]
      exact hle d' hd' hfree'

end Search

/-- Boot arguments at 0x1000, and at 0x3000 a map of two descriptors of 48 bytes: one MiB of
conventional memory, and three MiB of the boot services' data that are mapped elsewhere. -/
def sampleMem : Mem 64 :=
  storeMembers
    (storeMembers (fun _ => 0) 0x1000 [(2, 2, 2), (1032, 4, 0x3000), (1036, 4, 96), (1040, 4, 48),
      (1104, 4, 0x700000)])
    0x3000 [(0, 4, 7), (8, 8, 0x100000), (16, 8, 0x100000), (24, 8, 0x100), (48, 4, 4),
      (56, 8, 0x400000), (64, 8, 0xFFFFFF8000700000), (72, 8, 0x300)]

theorem hasArgs_sampleMem : HasArgs sampleMem 0x1000 := ⟨by decide, by decide +kernel⟩

theorem hasMap_sampleMem : HasMap sampleMem ((0x1000 : BitVec 32).setWidth 64) :=
  ⟨by decide +kernel, by decide +kernel⟩

theorem efiMap_sampleMem :
    efiMap sampleMem 0x1000 = [⟨7, 0x100000, 0x100000, 0x100⟩,
      ⟨4, 0x400000, 0xFFFFFF8000700000, 0x300⟩] := by decide +kernel

/-- From 5 MiB on, the search on this map finds at least the two MiB that are left of the
second descriptor. -/
theorem sampleMem_largestFree :
    ∃ region, (xnuBootArgsFindLargestFree sampleMem 0x1000 0x500000).Returns (some region) ∧
      (∀ a ∈ region.range, 0x500000 ≤ a) ∧ 0x200000 ≤ region.size := by
  have hfits : ∀ d ∈ efiMap sampleMem 0x1000, d.finish ≤ 2 ^ 64 - 1 := by
    rw [efiMap_sampleMem]
    decide
  obtain ⟨r, hr, hsome, hbest⟩ :=
    findLargestFree_correct hasArgs_sampleMem hasMap_sampleMem hfits 0x500000
  obtain ⟨d, hd, hfree, hcard⟩ : ∃ d ∈ efiMap sampleMem 0x1000, d.Free ∧
      (d.partAbove 0x500000).card = 0x200000 := by
    simp only [Descriptor.card_partAbove, efiMap_sampleMem]
    decide
  obtain ⟨region, rfl⟩ := Option.isSome_iff_exists.mp
    (hsome.mpr ⟨d, hd, hfree, Finset.card_pos.mp (by omega)⟩)
  obtain ⟨habove, -, hlargest⟩ := hbest region rfl
  exact ⟨region, hr, habove, hcard ▸ hlargest d hd hfree⟩

end Efi
end Boot
end Saski
