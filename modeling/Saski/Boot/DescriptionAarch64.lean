import Saski.Boot.EfiTables
import Saski.Boot.EntryAarch64

/-!
# How the machine is described on aarch64 (`kernel/kernel_boot_aarch64.c`)

A loader leaves a device tree blob in `x0`, or the boot parameters of GRUB's xnu loader.
`_start` records a blob, and `resolve_xnu_boot_params` goes on from the boot parameters
through the system table of the firmware.

* `describe` says what the memory at reset describes: a device tree, the tables of ACPI, or
  nothing.  A published device tree with a bad header hides the tables of ACPI.
* It rests on the bytes of `restsOn` only (`describe_congr`).
* `resolve_finds_description`: if these bytes are outside of what `_start` writes, the
  recorded words are exactly the description, whichever of the two found it.  In particular
  a device tree and an RSDP are never recorded together.
-/

namespace Saski
namespace Boot
namespace Description

open ByteMemory Efi EntryAarch64 A64

/-! ## The code -/

/-- The words that tell how the machine is described. -/
structure Globals where
  gFdtBlobPhys : Nat
  gFdtBlobSize : Nat
  gBootX0 : Nat
  gRsdpPhys : Nat
  deriving DecidableEq, Repr

/-- `be32_at`. -/
def be32At (m : Mem 64) (addr : Addr) : Nat :=
  ((m addr).toNat <<< 24) ||| ((m (addr + 1#64)).toNat <<< 16) |||
    ((m (addr + 2#64)).toNat <<< 8) ||| (m (addr + 3#64)).toNat

/-- `resolve_xnu_boot_params`. -/
def resolveXnuBootParams (m : Mem 64) (g : Globals) : Globals :=
  if g.gFdtBlobPhys ≠ 0 ∨ g.gBootX0 = 0 then g
  else
    let bp := BitVec.ofNat 64 g.gBootX0
    if fieldAt m bp vermajor ≠ 2 then g
    else
      let system := fieldAt m bp efiSystemTable
      let fdt := efiFindTable m system Guid.fdt
      if fdt = 0 then { g with gRsdpPhys := efiFindTable m system Guid.acpi20 }
      else if be32At m (BitVec.ofNat 64 fdt) ≠ 0xd00dfeed then g
      else
        { g with
          gFdtBlobPhys := fdt
          gFdtBlobSize := be32At m (BitVec.ofNat 64 fdt + 4#64) }

theorem be32At_add (m : Mem 64) (a : Addr) (off : Nat) :
    be32At m (a + BitVec.ofNat 64 off) = Fdt.be32 (blobAt m a).bytes off := by
  have hbyte : ∀ i : Nat, m (a + BitVec.ofNat 64 off + BitVec.ofNat 64 i) =
      (blobAt m a).bytes (off + i) := by
    intro i
    rw [BitVec.add_assoc, ← BitVec.ofNat_add]
    exact congrArg (fun x => m (a + x)) (BitVec.ofInt_natCast 64 (off + i)).symm
  have h0 := hbyte 0
  rw [BitVec.add_zero] at h0
  rw [be32At, Fdt.be32, h0, hbyte 1, hbyte 2, hbyte 3]
  simp only [Nat.cast_zero, add_zero, Nat.cast_one, Nat.cast_ofNat]

/-! ## The description -/

/-- How the firmware describes the machine. -/
inductive Machine where
  /-- by the device tree blob at `phys` -/
  | deviceTree (phys size : Nat)
  /-- by the tables of ACPI -/
  | acpi (rsdp : Nat)
  | unknown
  deriving DecidableEq, Repr

/-- A blob counts if it has the magic number, and with the size in its own header. -/
def blobMachine (m : Mem 64) (a : Addr) : Machine :=
  if Describes m a then .deviceTree a.toNat (Fdt.be32 (blobAt m a).bytes 4) else .unknown

/-- What the published tables say: a device tree comes first, even a bad one. -/
def tablesMachine (m : Mem 64) (es : List TableEntry) : Machine :=
  if tableOf es Guid.fdt ≠ 0 then blobMachine m (BitVec.ofNat 64 (tableOf es Guid.fdt))
  else if tableOf es Guid.acpi20 ≠ 0 then .acpi (tableOf es Guid.acpi20)
  else .unknown

/-- `x0` is the boot parameter block of GRUB's xnu loader. -/
def IsBootParams (m : Mem 64) (x0 : Addr) : Prop := x0 ≠ 0 ∧ fieldAt m x0 vermajor = 2

instance (m : Mem 64) (x0 : Addr) : Decidable (IsBootParams m x0) :=
  inferInstanceAs (Decidable (_ ∧ _))

/-- **What the memory at reset describes**, from the register that the loader set. -/
def describe (m : Mem 64) (x0 : Addr) : Machine :=
  if Describes m x0 then blobMachine m x0
  else if IsBootParams m x0 then tablesMachine m (listedTables m (fieldAt m x0 efiSystemTable))
  else .unknown

/-- The words for a description. -/
def Machine.globals (x0 : Nat) : Machine → Globals
  | .deviceTree phys size => ⟨phys, size, x0, 0⟩
  | .acpi rsdp => ⟨0, 0, x0, rsdp⟩
  | .unknown => ⟨0, 0, x0, 0⟩

/-- The words behind `_start`: only a blob has been recorded. -/
def recordedGlobals (m : Mem 64) (x0 : Addr) : Globals := (blobMachine m x0).globals x0.toNat

theorem tableOf_lt (m : Mem 64) (system : Nat) (guid : Guid) :
    tableOf (listedTables m system) guid < 2 ^ 64 := by
  rw [tableOf]
  cases hfind : (listedTables m system).find? (·.guid = guid) with
  | none => exact Nat.two_pow_pos 64
  | some e =>
      have hmem := List.mem_of_find?_eq_some hfind
      simp only [listedTables] at hmem
      split_ifs at hmem
      · exact absurd hmem List.not_mem_nil
      · obtain ⟨i, -, rfl⟩ := List.mem_map.mp hmem
        exact load_lt m _ 8

/-- The test of the magic number in C is the one in `_start`. -/
theorem describes_iff_be32At (m : Mem 64) {a : Addr} (ha : a ≠ 0) :
    Describes m a ↔ be32At m a = 0xd00dfeed := by
  have hmagic := be32At_add m a 0
  rw [BitVec.add_zero] at hmagic
  rw [hmagic]
  exact and_iff_right ha

/-- The words that the published tables lead to. -/
theorem globals_tablesMachine (m : Mem 64) (system x0 : Nat) :
    (tablesMachine m (listedTables m system)).globals x0 =
      if tableOf (listedTables m system) Guid.fdt = 0 then
        ⟨0, 0, x0, tableOf (listedTables m system) Guid.acpi20⟩
      else if be32At m (BitVec.ofNat 64 (tableOf (listedTables m system) Guid.fdt)) ≠ 0xd00dfeed
        then ⟨0, 0, x0, 0⟩
      else ⟨tableOf (listedTables m system) Guid.fdt,
        be32At m (BitVec.ofNat 64 (tableOf (listedTables m system) Guid.fdt) + 4#64), x0, 0⟩ := by
  have hlt := tableOf_lt m system Guid.fdt
  unfold tablesMachine
  generalize tableOf (listedTables m system) Guid.fdt = fdt at hlt ⊢
  generalize tableOf (listedTables m system) Guid.acpi20 = rsdp
  by_cases hfdt : fdt = 0
  · by_cases hrsdp : rsdp = 0
    · simp [hfdt, hrsdp, Machine.globals]
    · simp [hfdt, hrsdp, Machine.globals]
  · have hphys : (BitVec.ofNat 64 fdt).toNat = fdt := Nat.mod_eq_of_lt hlt
    have hne : BitVec.ofNat 64 fdt ≠ 0 := by
      intro h
      exact hfdt (hphys ▸ congrArg BitVec.toNat h)
    have hsize := be32At_add m (BitVec.ofNat 64 fdt) 4
    rw [if_pos hfdt, if_neg hfdt, blobMachine]
    by_cases hmagic : be32At m (BitVec.ofNat 64 fdt) = 0xd00dfeed
    · rw [if_pos ((describes_iff_be32At m hne).mpr hmagic), if_neg (not_not.mpr hmagic), hsize,
        Machine.globals, hphys]
      rfl
    · rw [if_neg fun h => hmagic ((describes_iff_be32At m hne).mp h), if_pos hmagic,
        Machine.globals]

theorem resolve_recordedGlobals (m : Mem 64) (x0 : Addr) :
    resolveXnuBootParams m (recordedGlobals m x0) = (describe m x0).globals x0.toNat := by
  have hzero : x0.toNat = 0 ↔ x0 = 0#64 := BitVec.toNat_inj (y := 0#64)
  by_cases hdescribes : Describes m x0
  · have hphys : x0.toNat ≠ 0 := fun h => hdescribes.1 (hzero.mp h)
    simp [resolveXnuBootParams, recordedGlobals, describe, blobMachine, hdescribes,
      Machine.globals, hphys]
  have hrecorded : recordedGlobals m x0 = ⟨0, 0, x0.toNat, 0⟩ := by
    simp [recordedGlobals, blobMachine, hdescribes, Machine.globals]
  rw [hrecorded, describe, if_neg hdescribes]
  by_cases hparams : IsBootParams m x0
  · have hx0 : x0.toNat ≠ 0 := fun h => hparams.1 (hzero.mp h)
    rw [if_pos hparams, globals_tablesMachine]
    simp [resolveXnuBootParams, hx0, hparams.2, efiFindTable_eq]
  · have hnot : x0.toNat ≠ 0 → fieldAt m x0 vermajor ≠ 2 :=
      fun hx0 hversion => hparams ⟨fun h => hx0 (hzero.mpr h), hversion⟩
    rw [if_neg hparams]
    by_cases hx0 : x0.toNat = 0
    · simp [resolveXnuBootParams, hx0, Machine.globals]
    · simp [resolveXnuBootParams, hx0, hnot hx0, Machine.globals]

/-! ## The bytes that the description rests on -/

/-- The parts of a system table that are read. -/
def tableBytes (m : Mem 64) (system : Nat) : Set Addr :=
  let st := BitVec.ofNat 64 system
  let n := fieldAt m st numberOfTableEntries
  let ct := BitVec.ofNat 64 (fieldAt m st configurationTable)
  extent st 120 ∪ {x | n ≤ 256 ∧ ∃ i < n, x ∈ extent (tableEntry ct i) 24}

/-- The header of a blob, or the boot parameters, the tables and the header of the blob in
them. -/
def restsOn (m : Mem 64) (x0 : Addr) : Set Addr :=
  let system := fieldAt m x0 efiSystemTable
  extent x0 8 ∪ {x | ¬ Describes m x0 ∧ IsBootParams m x0 ∧
    (x ∈ extent x0 1108 ∨ x ∈ tableBytes m system ∨
      x ∈ extent (BitVec.ofNat 64 (tableOf (listedTables m system) Guid.fdt)) 8)}

theorem fieldAt_of_eqOn {m m' : Mem 64} {a : Addr} {n : Nat} (h : Set.EqOn m' m (extent a n))
    {f : Field} (hf : f.off + f.size ≤ n) (hsize : f.size ≤ 2 ^ 64) :
    fieldAt m' a f = fieldAt m a f :=
  load_of_eqOn h hsize (extent_add_subset a f.off hf)

theorem describes_of_eqOn {m m' : Mem 64} {a : Addr} (h : Set.EqOn m' m (extent a 8)) :
    Describes m' a ↔ Describes m a := by
  have hmagic : Fdt.be32 (blobAt m' a).bytes 0 = Fdt.be32 (blobAt m a).bytes 0 :=
    be32_of_eqOn h (show 0 + 4 ≤ 8 by decide)
  rw [Describes, Describes, hmagic]

theorem blobMachine_of_eqOn {m m' : Mem 64} {a : Addr} (h : Set.EqOn m' m (extent a 8)) :
    blobMachine m' a = blobMachine m a := by
  have hsize : Fdt.be32 (blobAt m' a).bytes 4 = Fdt.be32 (blobAt m a).bytes 4 :=
    be32_of_eqOn h (show 4 + 4 ≤ 8 by decide)
  unfold blobMachine
  simp only [describes_of_eqOn h, hsize]

theorem listedTables_of_eqOn {m m' : Mem 64} {system : Nat}
    (h : Set.EqOn m' m (tableBytes m system)) : listedTables m' system = listedTables m system := by
  have hst := h.mono Set.subset_union_left
  have hn := fieldAt_of_eqOn hst (f := numberOfTableEntries) (by decide) (by decide)
  have hct := fieldAt_of_eqOn hst (f := configurationTable) (by decide) (by decide)
  simp only [listedTables, hn, hct]
  split_ifs with himplausible
  · rfl
  · apply List.map_congr_left
    intro i hi
    have hbytes : Set.EqOn m' m (extent (tableEntry (BitVec.ofNat 64
        (fieldAt m (BitVec.ofNat 64 system) configurationTable)) i) 24) := by
      apply h.mono
      intro x hx
      refine Or.inr ⟨by omega, i, ?_, hx⟩
      simp only [List.mem_range'_1] at hi
      omega
    rw [entryAt, entryAt, guidAt, guidAt, fieldAt_of_eqOn hbytes (by decide) (by decide),
      fieldAt_of_eqOn hbytes (by decide) (by decide),
      fieldAt_of_eqOn hbytes (by decide) (by decide)]

/-- The description is the same in every memory that has these bytes. -/
theorem describe_congr {m m' : Mem 64} {x0 : Addr} (h : Set.EqOn m' m (restsOn m x0)) :
    describe m' x0 = describe m x0 := by
  have hhead := h.mono Set.subset_union_left
  have hversion := fieldAt_of_eqOn hhead (f := vermajor) (by decide) (by decide)
  have hparams : IsBootParams m' x0 ↔ IsBootParams m x0 := by
    rw [IsBootParams, IsBootParams, hversion]
  unfold describe
  simp only [describes_of_eqOn hhead, hparams, blobMachine_of_eqOn hhead]
  split_ifs with hdescribes hin
  · rfl
  · have hrest : ∀ s : Set Addr, (∀ x ∈ s, x ∈ extent x0 1108 ∨
        x ∈ tableBytes m (fieldAt m x0 efiSystemTable) ∨
        x ∈ extent (BitVec.ofNat 64 (tableOf (listedTables m (fieldAt m x0 efiSystemTable))
          Guid.fdt)) 8) → Set.EqOn m' m s :=
      fun s hs => h.mono fun x hx => Or.inr ⟨hdescribes, hin, hs x hx⟩
    rw [fieldAt_of_eqOn (hrest _ fun x hx => Or.inl hx) (f := efiSystemTable) (by decide)
        (by decide),
      listedTables_of_eqOn (hrest _ fun x hx => Or.inr (Or.inl hx)), tablesMachine, tablesMachine,
      blobMachine_of_eqOn (hrest _ fun x hx => Or.inr (Or.inr hx))]
  · rfl

/-! ## From reset to the description -/

/-- The words in memory, with `g_rsdp_phys` in `.bss`. -/
def globalsIn (L : Symbols) (gRsdpPhys : Addr) (m : Mem 64) : Globals where
  gFdtBlobPhys := load m L.gFdtBlobPhys 8
  gFdtBlobSize := load m L.gFdtBlobSize 8
  gBootX0 := load m L.gBootX0 8
  gRsdpPhys := load m gRsdpPhys 8

theorem globalsIn_started {L : Symbols} {gRsdpPhys : Addr} {s t : State} (h : Started L s t)
    (hrsdp : extent gRsdpPhys 8 ⊆ bss L) :
    globalsIn L gRsdpPhys t.mem = recordedGlobals s.mem (s.get 0) := by
  have hzero : load t.mem gRsdpPhys 8 = 0 := by
    have hfresh : load t.mem gRsdpPhys 8 = load (fun _ => 0) gRsdpPhys 8 :=
      load_congr (by decide) fun x hx => h.zero x (hrsdp hx)
    rw [hfresh]
    simp [load, littleEndian]
  rw [globalsIn, h.bootX0, h.blobPhys, h.blobSize, hzero, recordedGlobals, blobMachine]
  split_ifs
  · rfl
  · rfl

/-- **The kernel finds the description.**  Behind `_start` and `resolve_xnu_boot_params` the
recorded words are those of what the memory at reset describes, as long as `_start` did not
write over it. -/
theorem resolve_finds_description {L : Symbols} {gRsdpPhys : Addr} {s t : State}
    (h : Started L s t) (hrsdp : extent gRsdpPhys 8 ⊆ bss L)
    (hapart : ∀ x ∈ restsOn s.mem (s.get 0), ¬ InExtent L.data 24 x ∧ x ∉ bss L) :
    resolveXnuBootParams t.mem (globalsIn L gRsdpPhys t.mem) =
      (describe s.mem (s.get 0)).globals (s.get 0).toNat := by
  have hsame : Set.EqOn t.mem s.mem (restsOn s.mem (s.get 0)) :=
    fun x hx => h.rest x (hapart x hx).1 (hapart x hx).2
  have hrecorded : recordedGlobals s.mem (s.get 0) = recordedGlobals t.mem (s.get 0) := by
    rw [recordedGlobals, recordedGlobals, blobMachine_of_eqOn (hsame.mono Set.subset_union_left)]
  rw [globalsIn_started h hrsdp, hrecorded, resolve_recordedGlobals, describe_congr hsame]

/-- Boot parameters at 0x48000000, and a firmware that publishes the tables of ACPI only. -/
def sampleTables : Mem 64 :=
  storeMembers (fun _ => 0) 0x48000000
    [(2, 2, 2), (1104, 4, 0x48001000), (0x1068, 8, 1), (0x1070, 8, 0x48002000),
      (0x2000, 8, Guid.acpi20.lo), (0x2008, 8, Guid.acpi20.hi), (0x2010, 8, 0x7ff00000)]

/-- The machine at reset with these tables. -/
def sampleReset : State := { sampleState [] with mem := sampleTables }

/-- The machine behind `_start`. -/
def sampleStarted : State :=
  { sampleReset with
    pc := sampleSymbols.kernelBootAarch64
    sp := sampleSymbols.stackTop
    mem := zeroed sampleSymbols
      (recorded sampleSymbols (captured sampleSymbols sampleTables 0x48000000) 0x48000000)
      (sampleSymbols.bssEnd.toNat - sampleSymbols.edata.toNat) }

theorem started_sample : Started sampleSymbols sampleReset sampleStarted :=
  started_of_mem sampleSymbols_linked (separate_of_toNat_le (by decide) (by decide)).symm rfl rfl
    rfl

/-- The tables are behind everything that is written. -/
theorem le_of_mem_restsOn_sample {x : Addr} (hx : x ∈ restsOn sampleTables 0x48000000) :
    x.toNat < 8 ∨ 0x48000000 ≤ x.toNat := by
  have hsystem : fieldAt sampleTables 0x48000000 efiSystemTable = 0x48001000 := by decide +kernel
  have hentries : fieldAt sampleTables 0x48001000#64 numberOfTableEntries = 1 := by decide +kernel
  have harray : fieldAt sampleTables 0x48001000#64 configurationTable = 0x48002000 := by
    decide +kernel
  have hfdt : tableOf (listedTables sampleTables 0x48001000) Guid.fdt = 0 := by decide +kernel
  have hextent : ∀ {a : Addr} {n : Nat}, a.toNat + n ≤ 2 ^ 64 → x ∈ extent a n →
      a.toNat ≤ x.toNat ∧ x.toNat < a.toNat + n := fun hfit => (mem_extent_iff hfit).mp
  simp only [restsOn, tableBytes, hsystem, hentries, harray, hfdt] at hx
  rcases hx with hhead | ⟨-, -, hparams | (hsys | ⟨-, i, hi, hentry⟩) | hblob⟩
  · exact Or.inr (hextent (by decide) hhead).1
  · exact Or.inr (hextent (by decide) hparams).1
  · have := (hextent (by decide) hsys).1
    exact Or.inr (le_trans (by decide) this)
  · obtain rfl : i = 0 := by omega
    have := (hextent (by decide) hentry).1
    exact Or.inr (le_trans (by decide) this)
  · exact Or.inl (hextent (by decide) hblob).2

theorem resolve_finds_description_acpi :
    resolveXnuBootParams sampleStarted.mem
        (globalsIn sampleSymbols 0x41110000#64 sampleStarted.mem) =
      ⟨0, 0, 0x48000000, 0x7ff00000⟩ := by
  have hrsdp : extent 0x41110000#64 8 ⊆ bss sampleSymbols := by
    intro x hx
    obtain ⟨hlow, hhigh⟩ := (mem_extent_iff (by decide)).mp hx
    exact (mem_extent_iff (by decide)).mpr
      ⟨le_trans (by decide) hlow, lt_trans hhigh (by decide)⟩
  have hapart : ∀ x ∈ restsOn sampleReset.mem (sampleReset.get 0),
      ¬ InExtent sampleSymbols.data 24 x ∧ x ∉ bss sampleSymbols := by
    intro x hx
    have hplace := le_of_mem_restsOn_sample hx
    constructor
    · intro hdata
      have := (mem_extent_iff (a := sampleSymbols.data) (by decide)).mp hdata
      simp [sampleSymbols] at this
      omega
    · intro hbss
      have := (mem_extent_iff (by decide)).mp hbss
      simp [sampleSymbols] at this
      omega
  have hdescribe : describe sampleTables 0x48000000 = .acpi 0x7ff00000 := by decide +kernel
  rw [resolve_finds_description started_sample hrsdp hapart]
  exact congrArg (Machine.globals 0x48000000) hdescribe

end Description
end Boot
end Saski
