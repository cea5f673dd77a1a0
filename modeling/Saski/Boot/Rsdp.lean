import Saski.Boot.EfiMap

/-!
# From the boot arguments to the RSDP (`kernel/kernel.c`)

`xnu_boot_args_find_rsdp` goes from the boot arguments to the EFI system table, from there
to the array of configuration tables, and looks for the ACPI tables in it.  Each address on
the way is translated through the memory map first.

* `physicalOf` is the translation without the loop: the first remapped descriptor with the
  address in its virtual range decides, and without one the address is left as it is
  (`returns_xnuEfiTranslateVirt`).
-/

namespace Saski
namespace Boot
namespace Efi

open ByteMemory Logged Prog

/-! ## The functions -/

/-- What the loop of `xnu_efi_translate_virt` does with one descriptor. -/
def translateDescriptor (m : Mem 64) (d : Addr) (virt : Nat) : Logged Access (Option Nat) := do
  if (← rdField .memoryMap m d virtualStart) = (← rdField .memoryMap m d physicalStart) then
    pure none
  else do
    let vstart := (← rdField .memoryMap m d virtualStart) % 2 ^ 32
    let size := (← rdField .memoryMap m d numberOfPages) * 4096 % 2 ^ 64
    if vstart ≤ virt ∧ virt < (vstart + size) % 2 ^ 64 then do
      let phys ← rdField .memoryMap m d physicalStart
      pure (some ((phys + (virt - vstart)) % 2 ^ 32))
    else pure none

/-- The loop of `xnu_efi_translate_virt`. -/
def translateBody (m : Mem 64) (map : MapLayout) (virt i : Nat) : Prog Access (Nat ⊕ Nat) :=
  if i < map.count then do
    match ← translateDescriptor m (map.desc i) virt with
    | some phys => pure (.inr phys)
    | none => pure (.inl (i + 1))
  else pure (.inr virt)

/-- `xnu_efi_translate_virt`. -/
def xnuEfiTranslateVirt (m : Mem 64) (args : Addr) (virt : Nat) : Prog Access Nat := do
  match ← mapLayout m args with
  | none => pure 0
  | some map => loop (translateBody m map virt) 0

/-- The fields of `struct efi_system_table_64` that are read. -/
def signature : Field := ⟨0, 8⟩

def numberOfTableEntries : Field := ⟨104, 8⟩

def configurationTable : Field := ⟨112, 8⟩

/-- `EFI_SYSTEM_TABLE_SIGNATURE`. -/
def systemTableSignature : Nat := 0x5453595320494249

/-- `vendor_table` of `struct efi_configuration_table`, behind the GUID. -/
def vendorTable : Field := ⟨16, 8⟩

/-- `tables[i]`. -/
def tableEntry (tables : Addr) (i : Nat) : Addr := tables + BitVec.ofNat 64 (24 * i)

/-- Fields are compared until one differs. -/
def fieldsEq (m : Mem 64) (g : Addr) : List (Field × Nat) → Logged Access Bool
  | [] => pure true
  | (f, v) :: rest => do
      if (← rdField .configTable m g f) = v then fieldsEq m g rest else pure false

/-- The fields of a GUID, in the order of the comparison. -/
def guidFields (d1 d2 d3 : Nat) (d4 : List Nat) : List (Field × Nat) :=
  (⟨0, 4⟩, d1) :: (⟨4, 2⟩, d2) :: (⟨6, 2⟩, d3) :: d4.zipIdx.map fun x => (⟨8 + x.2, 1⟩, x.1)

/-- `efi_guid_eq`. -/
def efiGuidEq (m : Mem 64) (g : Addr) (d1 d2 d3 : Nat) (d4 : List Nat) : Logged Access Bool :=
  fieldsEq m g (guidFields d1 d2 d3 d4)

/-- ACPI 2.0: 8868e871-e4f1-11d3-bc22-0080c73c8881. -/
def isAcpi20 (m : Mem 64) (g : Addr) : Logged Access Bool :=
  efiGuidEq m g 0x8868e871 0xe4f1 0x11d3 [0xbc, 0x22, 0x00, 0x80, 0xc7, 0x3c, 0x88, 0x81]

/-- ACPI 1.0: eb9d2d30-2d88-11d3-9a16-0090273fc14d. -/
def isAcpi10 (m : Mem 64) (g : Addr) : Logged Access Bool :=
  efiGuidEq m g 0xeb9d2d30 0x2d88 0x11d3 [0x9a, 0x16, 0x00, 0x90, 0x27, 0x3f, 0xc1, 0x4d]

/-- The loop of `xnu_boot_args_find_rsdp`, with the candidate of ACPI 1.0, and the return
behind it. -/
def rsdpBody (m : Mem 64) (args sys tables : Addr) :
    Nat × Nat → Prog Access (Nat × Nat ⊕ Nat)
  | (i, acpi1Addr) => do
      if i < (← (rdField .systemTable m sys numberOfTableEntries : Logged Access Nat)) then do
        if ← isAcpi20 m (tableEntry tables i) then do
          let table ← rdField .configTable m (tableEntry tables i) vendorTable
          let rsdp ← xnuEfiTranslateVirt m args (table % 2 ^ 32)
          pure (.inr rsdp)
        else if ← isAcpi10 m (tableEntry tables i) then do
          let table ← rdField .configTable m (tableEntry tables i) vendorTable
          pure (.inl (i + 1, table % 2 ^ 32))
        else pure (.inl (i + 1, acpi1Addr))
      else if acpi1Addr = 0 then pure (.inr 0)
      else do
        let rsdp ← xnuEfiTranslateVirt m args acpi1Addr
        pure (.inr rsdp)

/-- `xnu_boot_args_find_rsdp`. -/
def xnuBootArgsFindRsdp (m : Mem 64) (bootArgs : BitVec 32) : Prog Access Nat := do
  match ← argsV2 m bootArgs with
  | none => pure 0
  | some args => do
      let table ← rdField .bootArgs m args efiSystemTable
      if table = 0 then pure 0
      else do
        let sysPhys ← xnuEfiTranslateVirt m args table
        if sysPhys = 0 then pure 0
        else do
          let sys := BitVec.ofNat 64 sysPhys
          if (← (rdField .systemTable m sys signature : Logged Access Nat)) ≠
              systemTableSignature then pure 0
          else do
            let configuration ← rdField .systemTable m sys configurationTable
            if configuration = 0 then pure 0
            else do
              let tablesPhys ← xnuEfiTranslateVirt m args (configuration % 2 ^ 32)
              if tablesPhys = 0 then pure 0
              else loop (rsdpBody m args sys (BitVec.ofNat 64 tablesPhys)) (0, 0)

/-! ## The translation -/

namespace Descriptor

variable (d : Descriptor)

/-- The start of its virtual range, without the prefix of the kernel's half. -/
def vstart : Nat := d.virtualStart % 2 ^ 32

/-- The descriptor is remapped and has the address in its virtual range, as the code tests
it in 64-bit arithmetic. -/
def Translates (virt : Nat) : Prop :=
  d.virtualStart ≠ d.physicalStart ∧ d.vstart ≤ virt ∧
    virt < (d.vstart + d.numberOfPages * 4096 % 2 ^ 64) % 2 ^ 64

instance (virt : Nat) : Decidable (d.Translates virt) := inferInstanceAs (Decidable (_ ∧ _ ∧ _))

/-- The descriptor covers the address: with its virtual range if it is remapped, and with its
physical range if it is not. -/
def Covers (virt : Nat) : Prop :=
  if d.virtualStart = d.physicalStart then d.physicalStart ≤ virt ∧ virt < d.finish
  else d.vstart ≤ virt ∧ virt < d.vstart + d.numberOfPages * 4096

instance (virt : Nat) : Decidable (d.Covers virt) :=
  inferInstanceAs (Decidable (if d.virtualStart = d.physicalStart then _ ∧ _ else _ ∧ _))

end Descriptor

/-- The physical address that the memory map gives for an address. -/
def physicalOf (ds : List Descriptor) (virt : Nat) : Nat :=
  match ds.find? (·.Translates virt) with
  | some d => (d.physicalStart + (virt - d.vstart)) % 2 ^ 32
  | none => virt

theorem physicalOf_cons (d : Descriptor) (ds : List Descriptor) (virt : Nat) :
    physicalOf (d :: ds) virt =
      if d.Translates virt then (d.physicalStart + (virt - d.vstart)) % 2 ^ 32
      else physicalOf ds virt := by
  unfold physicalOf
  by_cases hin : d.Translates virt
  · simp [hin]
  · simp [hin]

theorem value_translateDescriptor (m : Mem 64) (a : Addr) (virt : Nat) :
    (translateDescriptor m a virt).value =
      if (descriptorAt m a).Translates virt then
        some (((descriptorAt m a).physicalStart + (virt - (descriptorAt m a).vstart)) % 2 ^ 32)
      else none := by
  generalize hd : descriptorAt m a = d
  have hvirtual : fieldAt m a virtualStart = d.virtualStart := hd ▸ rfl
  have hstart : fieldAt m a physicalStart = d.physicalStart := hd ▸ rfl
  have hpages : fieldAt m a numberOfPages = d.numberOfPages := hd ▸ rfl
  unfold translateDescriptor
  simp only [value_bind, value_rdField, hvirtual, hstart]
  by_cases hsame : d.virtualStart = d.physicalStart
  · have hnot : ¬ d.Translates virt := fun h => h.1 hsame
    rw [if_pos hsame, if_neg hnot, value_pure]
  have hvstart : d.virtualStart % 2 ^ 32 = d.vstart := rfl
  rw [if_neg hsame]
  simp only [value_bind, value_rdField, hvirtual, hpages, hvstart]
  by_cases hin : d.Translates virt
  · rw [if_pos hin, if_pos hin.2, value_bind, value_rdField, hstart, value_pure]
  · have hout : ¬ (d.vstart ≤ virt ∧
        virt < (d.vstart + d.numberOfPages * 4096 % 2 ^ 64) % 2 ^ 64) := fun h => hin ⟨hsame, h⟩
    rw [if_neg hin, if_neg hout, value_pure]

/-- Not a byte of the configuration tables. -/
def Elsewhere : Access → Prop
  | .configTable _ => False
  | _ => True

theorem logs_rdField (part : Addr → Access) (h : ∀ a, Elsewhere (part a)) (m : Mem 64)
    (a : Addr) (f : Field) : Logs Elsewhere (rdField part m a f) := by
  apply logs_withLog
  intro e he
  obtain ⟨i, -, rfl⟩ := List.mem_map.mp he
  exact h _

theorem logs_translateDescriptor (m : Mem 64) (d : Addr) (virt : Nat) :
    Logs Elsewhere (translateDescriptor m d virt) := by
  have hfield := logs_rdField .memoryMap (fun _ => trivial) m d
  unfold translateDescriptor
  apply logs_bind (hfield _)
  apply logs_bind (hfield _)
  apply logs_unless
  intro _
  apply logs_bind (hfield _)
  apply logs_bind (hfield _)
  apply logs_ite
  · intro _
    apply logs_bind (hfield _)
    exact logs_pure _ _
  · intro _
    exact logs_pure _ _

/-- The loop translates through the first descriptor that has the address. -/
theorem ensures_translateLoop (m : Mem 64) (map : MapLayout) (virt : Nat) :
    Ensures Elsewhere (· = physicalOf (map.descriptors m) virt)
      (loop (translateBody m map virt) 0) := by
  -- No descriptor in front of `i` has the address.
  apply ensures_loop
    (fun i => physicalOf (map.descriptorsFrom m i) virt = physicalOf (map.descriptors m) virt)
    (fun i => map.count - i) _ rfl
  intro i hi
  unfold translateBody
  apply ensures_ite
  · intro hlt
    rw [map.descriptorsFrom_of_lt m hlt, physicalOf_cons] at hi
    apply ensures_liftM_bind (logs_translateDescriptor m _ virt)
    rw [value_translateDescriptor]
    by_cases hin : (descriptorAt m (map.desc i)).Translates virt
    · rw [if_pos hin] at hi ⊢
      exact ensures_pure hi
    · rw [if_neg hin] at hi ⊢
      exact ensures_pure ⟨hi, by omega⟩
  · intro hend
    rw [map.descriptorsFrom_of_le m (by omega)] at hi
    exact ensures_pure hi

theorem logs_mapLayout (m : Mem 64) (args : Addr) : Logs Elsewhere (mapLayout m args) := by
  have hfield := logs_rdField .bootArgs (fun _ => trivial) m args
  unfold mapLayout
  apply logs_bind (hfield _)
  apply logs_unless
  intro _
  apply logs_bind (hfield _)
  apply logs_unless
  intro _
  apply logs_bind (hfield _)
  apply logs_bind (hfield _)
  apply logs_bind (hfield _)
  exact logs_pure _ _

/-- `xnu_efi_translate_virt` translates through the memory map, if there is one. -/
theorem ensures_xnuEfiTranslateVirt (m : Mem 64) (args : Addr) (virt : Nat) :
    Ensures Elsewhere
      (fun phys => (HasMap m args ∧ phys = physicalOf ((layoutOf m args).descriptors m) virt) ∨
        (¬ HasMap m args ∧ phys = 0))
      (xnuEfiTranslateVirt m args virt) := by
  unfold xnuEfiTranslateVirt
  apply ensures_liftM_bind (logs_mapLayout m args)
  rcases value_mapLayout m args with ⟨hmap, hvalue⟩ | ⟨hmap, hvalue⟩
  · rw [hvalue]
    have hloop := ensures_translateLoop m (layoutOf m args) virt
    obtain ⟨phys, hr, hphys⟩ := hloop.result
    exact ⟨hloop.events, phys, hr, Or.inl ⟨hmap, hphys⟩⟩
  · rw [hvalue]
    exact ensures_pure (Or.inr ⟨hmap, rfl⟩)

/-! ## The configuration tables -/

section Rsdp

variable (m : Mem 64) (bootArgs : BitVec 32)

/-- The system table that the boot arguments name, as an address of the memory. -/
def systemTable : Nat :=
  physicalOf (efiMap m bootArgs) (fieldAt m (bootArgs.setWidth 64) efiSystemTable)

/-- The address of the array of configuration tables, as the system table has it. -/
def arrayAddress : Nat :=
  fieldAt m (BitVec.ofNat 64 (systemTable m bootArgs)) configurationTable % 2 ^ 32

variable {m bootArgs}

theorem logs_argsV2 : Logs Elsewhere (argsV2 m bootArgs) := by
  unfold argsV2
  apply logs_unless
  intro _
  apply logs_bind (logs_rdField .bootArgs (fun _ => trivial) m _ _)
  apply logs_ite
  · intro _
    exact logs_pure _ _
  · intro _
    exact logs_pure _ _

theorem returns_xnuEfiTranslateVirt {args : Addr} (hmap : HasMap m args) (virt : Nat) :
    (xnuEfiTranslateVirt m args virt).Returns
      (physicalOf ((layoutOf m args).descriptors m) virt) := by
  obtain ⟨phys, hr, hphys⟩ := (ensures_xnuEfiTranslateVirt m args virt).result
  obtain ⟨-, rfl⟩ := hphys.resolve_right fun hnone => hnone.1 hmap
  exact hr

end Rsdp

end Efi
end Boot
end Saski
