import Saski.Boot.Rsdp

/-!
# The configuration tables of the firmware

The firmware publishes its machine descriptions in an array of configuration tables, each
named by a GUID.  The kernel looks for one in two places: `xnu_boot_args_find_rsdp` of
`kernel/kernel.c` compares the fields of a GUID, and `efi_find_table` of
`kernel/kernel_boot_aarch64.c` compares it as two quadwords.

* What the array says is a list of entries (`entriesFrom`), and both comparisons are
  equality of GUIDs there (`value_isAcpi20`, `efiFindTable_eq`).
* On x86 the first table of ACPI 2.0 decides.  Without one it is the *last* table of
  ACPI 1.0, since the loop overwrites its candidate (`rsdpIn`).  The function returns this
  address for every memory, however many entries the array claims to have
  (`findRsdp_returns_published`).
-/

namespace Saski
namespace Boot
namespace Efi

open ByteMemory Logged Prog

/-! ## Entries -/

/-- A GUID, as two little-endian quadwords. -/
structure Guid where
  lo : Nat
  hi : Nat
  deriving DecidableEq, Repr

/-- `EFI_ACPI20_GUID_LO`, `EFI_ACPI20_GUID_HI`. -/
def Guid.acpi20 : Guid := ⟨0x11D3E4F18868E871, 0x81883CC7800022BC⟩

/-- The GUID of ACPI 1.0 in the same form. -/
def Guid.acpi10 : Guid := ⟨0x11D32D88EB9D2D30, 0x4DC13F279000169A⟩

/-- `EFI_FDT_GUID_LO`, `EFI_FDT_GUID_HI`. -/
def Guid.fdt : Guid := ⟨0x41A5F19CB1B621D5, 0xE0AA692C15D90B83⟩

/-- `struct efi_configuration_table`. -/
structure TableEntry where
  guid : Guid
  table : Nat
  deriving DecidableEq, Repr

def guidAt (m : Mem 64) (a : Addr) : Guid := ⟨fieldAt m a ⟨0, 8⟩, fieldAt m a ⟨8, 8⟩⟩

def entryAt (m : Mem 64) (a : Addr) : TableEntry := ⟨guidAt m a, fieldAt m a vendorTable⟩

/-- The entries `i`, ..., `n - 1` of the array. -/
def entriesFrom (m : Mem 64) (tables : Addr) (n i : Nat) : List TableEntry :=
  (List.range' i (n - i)).map fun j => entryAt m (tableEntry tables j)

theorem entriesFrom_of_lt (m : Mem 64) (tables : Addr) {n i : Nat} (h : i < n) :
    entriesFrom m tables n i =
      entryAt m (tableEntry tables i) :: entriesFrom m tables n (i + 1) := by
  have hleft : n - i = (n - (i + 1)) + 1 := by omega
  rw [entriesFrom, hleft, List.range'_succ, List.map_cons, entriesFrom]

theorem entriesFrom_of_le (m : Mem 64) (tables : Addr) {n i : Nat} (h : n ≤ i) :
    entriesFrom m tables n i = [] := by
  rw [entriesFrom, Nat.sub_eq_zero_of_le h, List.range'_zero, List.map_nil]

/-! ## Comparing GUIDs -/

theorem value_fieldsEq (m : Mem 64) (g : Addr) (fs : List (Field × Nat)) :
    (fieldsEq m g fs).value = decide (∀ fv ∈ fs, fieldAt m g fv.1 = fv.2) := by
  induction fs with
  | nil => simp [fieldsEq]
  | cons fv fs ih =>
      rw [fieldsEq, value_bind, value_rdField]
      by_cases h : fieldAt m g fv.1 = fv.2
      · rw [if_pos h, ih]
        simp [h]
      · rw [if_neg h, value_pure]
        simp [h]

theorem fieldAt_add (m : Mem 64) (a : Addr) (off n k : Nat) :
    fieldAt m a ⟨off, n + k⟩ =
      fieldAt m a ⟨off, n⟩ + fieldAt m a ⟨off + n, k⟩ * 2 ^ (8 * n) := by
  simp only [fieldAt]
  rw [load_add, BitVec.add_assoc, ← BitVec.ofNat_add]

/-- Two neighbouring fields have the given values if together they have the packed value. -/
theorem fieldAt_add_eq_iff (m : Mem 64) (a : Addr) (off k u : Nat) {n v : Nat}
    (hv : v < 2 ^ (8 * n)) :
    fieldAt m a ⟨off, n + k⟩ = v + u * 2 ^ (8 * n) ↔
      fieldAt m a ⟨off, n⟩ = v ∧ fieldAt m a ⟨off + n, k⟩ = u := by
  have hlt : fieldAt m a ⟨off, n⟩ < 2 ^ (8 * n) := load_lt m _ n
  rw [fieldAt_add]
  constructor
  · intro h
    have hlow : fieldAt m a ⟨off, n⟩ = v := by
      have hmod := congrArg (· % 2 ^ (8 * n)) h
      simpa [Nat.add_mul_mod_self_right, Nat.mod_eq_of_lt hlt, Nat.mod_eq_of_lt hv] using hmod
    rw [hlow] at h
    exact ⟨hlow, Nat.eq_of_mul_eq_mul_right (Nat.two_pow_pos _) (Nat.add_left_cancel h)⟩
  · rintro ⟨rfl, rfl⟩
    rfl

/-- The same for a field of bytes. -/
theorem fieldAt_bytes_eq_iff (m : Mem 64) (a : Addr) {bytes : List Nat}
    (hbytes : ∀ b ∈ bytes, b < 2 ^ 8) (off i : Nat) :
    fieldAt m a ⟨off + i, bytes.length⟩ = Nat.ofDigits (2 ^ 8) bytes ↔
      ∀ x ∈ bytes.zipIdx i, fieldAt m a ⟨off + x.2, 1⟩ = x.1 := by
  induction bytes generalizing i with
  | nil => simp [fieldAt, load, littleEndian]
  | cons b bytes ih =>
      obtain ⟨hb, hrest⟩ := List.forall_mem_cons.mp hbytes
      have hsplit := fieldAt_add_eq_iff m a (off + i) bytes.length
        (Nat.ofDigits (2 ^ 8) bytes) (n := 1) hb
      rw [List.zipIdx_cons, List.forall_mem_cons, ← ih hrest, List.length_cons,
        Nat.add_comm bytes.length 1, Nat.ofDigits_cons, Nat.mul_comm (2 ^ 8)]
      exact hsplit

/-- The GUID with the given fields. -/
def Guid.ofFields (d1 d2 d3 : Nat) (d4 : List Nat) : Guid :=
  ⟨d1 + (d2 + d3 * 2 ^ 16) * 2 ^ 32, Nat.ofDigits (2 ^ 8) d4⟩

/-- Comparing the fields of a GUID is comparing its quadwords. -/
theorem value_efiGuidEq (m : Mem 64) (a : Addr) {d1 d2 d3 : Nat} {d4 : List Nat}
    (h1 : d1 < 2 ^ 32) (h2 : d2 < 2 ^ 16) (hlength : d4.length = 8)
    (hbytes : ∀ b ∈ d4, b < 2 ^ 8) :
    (efiGuidEq m a d1 d2 d3 d4).value = decide (guidAt m a = Guid.ofFields d1 d2 d3 d4) := by
  have hlo : fieldAt m a ⟨0, 8⟩ = d1 + (d2 + d3 * 2 ^ 16) * 2 ^ 32 ↔
      fieldAt m a ⟨0, 4⟩ = d1 ∧ fieldAt m a ⟨4, 2⟩ = d2 ∧ fieldAt m a ⟨6, 2⟩ = d3 := by
    rw [← fieldAt_add_eq_iff m a 4 2 d3 (n := 2) h2]
    exact fieldAt_add_eq_iff m a 0 4 _ (n := 4) h1
  have hhi := fieldAt_bytes_eq_iff m a hbytes 8 0
  rw [hlength, Nat.add_zero] at hhi
  rw [efiGuidEq, value_fieldsEq, decide_eq_decide, guidAt, Guid.ofFields, Guid.mk.injEq, hlo, hhi]
  simp only [guidFields, List.forall_mem_cons, List.forall_mem_map, and_assoc]

theorem value_isAcpi20 (m : Mem 64) (a : Addr) :
    (isAcpi20 m a).value = decide (guidAt m a = Guid.acpi20) :=
  value_efiGuidEq m a (by decide) (by decide) rfl (by decide)

theorem value_isAcpi10 (m : Mem 64) (a : Addr) :
    (isAcpi10 m a).value = decide (guidAt m a = Guid.acpi10) :=
  value_efiGuidEq m a (by decide) (by decide) rfl (by decide)

/-! ## The tables of ACPI on x86 -/

/-- The candidate of ACPI 1.0 behind some entries, if it was `acpi1Addr` in front of them: each
entry overwrites it, so the last one counts. -/
def acpi10Candidate (acpi1Addr : Nat) (es : List TableEntry) : Nat :=
  ((es.filter (·.guid = Guid.acpi10)).getLast?.map (·.table % 2 ^ 32)).getD acpi1Addr

/-- What the loop returns from some entries on. -/
def rsdpFrom (ds : List Descriptor) (acpi1Addr : Nat) (es : List TableEntry) : Nat :=
  match es.find? (·.guid = Guid.acpi20) with
  | some e => physicalOf ds (e.table % 2 ^ 32)
  | none =>
      if acpi10Candidate acpi1Addr es = 0 then 0 else physicalOf ds (acpi10Candidate acpi1Addr es)

/-- Where the published tables of ACPI are, 0 for nowhere. -/
def rsdpIn (ds : List Descriptor) (es : List TableEntry) : Nat := rsdpFrom ds 0 es

theorem acpi10Candidate_cons (acpi1Addr : Nat) (e : TableEntry) (es : List TableEntry) :
    acpi10Candidate acpi1Addr (e :: es) =
      acpi10Candidate (if e.guid = Guid.acpi10 then e.table % 2 ^ 32 else acpi1Addr) es := by
  unfold acpi10Candidate
  by_cases h : e.guid = Guid.acpi10
  · rw [List.filter_cons_of_pos (by simp [h]), if_pos h, List.getLast?_cons]
    cases (es.filter (·.guid = Guid.acpi10)).getLast? with
    | none => rfl
    | some last => rfl
  · rw [List.filter_cons_of_neg (by simp [h]), if_neg h]

theorem rsdpFrom_cons (ds : List Descriptor) (acpi1Addr : Nat) (e : TableEntry)
    (es : List TableEntry) :
    rsdpFrom ds acpi1Addr (e :: es) =
      if e.guid = Guid.acpi20 then physicalOf ds (e.table % 2 ^ 32)
      else rsdpFrom ds (if e.guid = Guid.acpi10 then e.table % 2 ^ 32 else acpi1Addr) es := by
  unfold rsdpFrom
  by_cases h : e.guid = Guid.acpi20
  · rw [List.find?_cons_of_pos (by simp [h]), if_pos h]
  · rw [List.find?_cons_of_neg (by simp [h]), if_neg h, acpi10Candidate_cons]

section Search

variable {m : Mem 64} {args : Addr}

/-- One iteration at an entry. -/
theorem returns_rsdpBody (hmap : HasMap m args) (sys tables : Addr) {i : Nat} (acpi1Addr : Nat)
    (hi : i < fieldAt m sys numberOfTableEntries) :
    (rsdpBody m args sys tables (i, acpi1Addr)).Returns
      (if (entryAt m (tableEntry tables i)).guid = Guid.acpi20 then
        .inr (physicalOf ((layoutOf m args).descriptors m)
          ((entryAt m (tableEntry tables i)).table % 2 ^ 32))
      else .inl (i + 1, if (entryAt m (tableEntry tables i)).guid = Guid.acpi10 then
        (entryAt m (tableEntry tables i)).table % 2 ^ 32 else acpi1Addr)) := by
  have hguid : (entryAt m (tableEntry tables i)).guid = guidAt m (tableEntry tables i) := rfl
  rw [rsdpBody, returns_liftM_bind, value_rdField, if_pos hi, returns_liftM_bind, value_isAcpi20,
    hguid]
  by_cases h20 : guidAt m (tableEntry tables i) = Guid.acpi20
  · rw [if_pos (decide_eq_true h20), if_pos h20, returns_liftM_bind, value_rdField,
      returns_bind_of (returns_xnuEfiTranslateVirt hmap _)]
    exact (returns_pure _ _).mpr rfl
  · rw [if_neg (by simpa using h20), if_neg h20, returns_liftM_bind, value_isAcpi10]
    by_cases h10 : guidAt m (tableEntry tables i) = Guid.acpi10
    · rw [if_pos (decide_eq_true h10), if_pos h10, returns_liftM_bind, value_rdField]
      exact (returns_pure _ _).mpr rfl
    · rw [if_neg (by simpa using h10), if_neg h10]
      exact (returns_pure _ _).mpr rfl

/-- The iteration behind the last entry. -/
theorem returns_rsdpBody_of_le (hmap : HasMap m args) (sys tables : Addr) {i : Nat}
    (acpi1Addr : Nat) (hi : fieldAt m sys numberOfTableEntries ≤ i) :
    (rsdpBody m args sys tables (i, acpi1Addr)).Returns
      (.inr (rsdpFrom ((layoutOf m args).descriptors m) acpi1Addr [])) := by
  rw [rsdpBody, returns_liftM_bind, value_rdField, if_neg (by omega)]
  by_cases hzero : acpi1Addr = 0
  · simp [rsdpFrom, acpi10Candidate, hzero]
  · rw [if_neg hzero, returns_bind_of (returns_xnuEfiTranslateVirt hmap _)]
    simp [rsdpFrom, acpi10Candidate, hzero]

/-- The loop returns what the entries say, however many there are. -/
theorem returns_rsdpLoop (hmap : HasMap m args) (sys tables : Addr) (i acpi1Addr : Nat) :
    (loop (rsdpBody m args sys tables) (i, acpi1Addr)).Returns
      (rsdpFrom ((layoutOf m args).descriptors m) acpi1Addr
        (entriesFrom m tables (fieldAt m sys numberOfTableEntries) i)) := by
  generalize hn : fieldAt m sys numberOfTableEntries - i = n
  induction n generalizing i acpi1Addr with
  | zero =>
      apply returns_loop_of_done
      rw [entriesFrom_of_le m tables (by omega)]
      exact returns_rsdpBody_of_le hmap sys tables acpi1Addr (by omega)
  | succ n ih =>
      have hi : i < fieldAt m sys numberOfTableEntries := by omega
      have hbody := returns_rsdpBody hmap sys tables acpi1Addr hi
      rw [entriesFrom_of_lt m tables hi, rsdpFrom_cons]
      by_cases h20 : (entryAt m (tableEntry tables i)).guid = Guid.acpi20
      · rw [if_pos h20] at hbody ⊢
        exact returns_loop_of_done hbody
      · rw [if_neg h20] at hbody ⊢
        exact returns_loop_of_step hbody (ih _ _ (by omega))

end Search

section Published

variable (m : Mem 64) (bootArgs : BitVec 32)

/-- Where the array of configuration tables is in memory. -/
def arrayPhys : Nat := physicalOf (efiMap m bootArgs) (arrayAddress m bootArgs)

/-- The boot arguments lead to an array of configuration tables. -/
structure HasArray : Prop where
  args : HasArgs m bootArgs
  map : HasMap m (bootArgs.setWidth 64)
  table : fieldAt m (bootArgs.setWidth 64) efiSystemTable ≠ 0
  system : systemTable m bootArgs ≠ 0
  signed : fieldAt m (BitVec.ofNat 64 (systemTable m bootArgs)) signature = systemTableSignature
  configuration : fieldAt m (BitVec.ofNat 64 (systemTable m bootArgs)) configurationTable ≠ 0
  array : arrayPhys m bootArgs ≠ 0

/-- The entries of the array. -/
def published : List TableEntry :=
  entriesFrom m (BitVec.ofNat 64 (arrayPhys m bootArgs))
    (fieldAt m (BitVec.ofNat 64 (systemTable m bootArgs)) numberOfTableEntries) 0

open Classical in
/-- **What the firmware published**: the RSDP in the array of configuration tables, if the boot
arguments lead to one. -/
noncomputable def publishedRsdp : Nat :=
  if HasArray m bootArgs then rsdpIn (efiMap m bootArgs) (published m bootArgs) else 0

variable {m bootArgs}

theorem publishedRsdp_of_not (h : ¬ HasArray m bootArgs) : publishedRsdp m bootArgs = 0 := if_neg h

/-- The events do not matter here. -/
theorem ensures_of_returns {α : Type} {p : Prog Access α} {a : α} (h : p.Returns a) :
    Ensures (fun _ => True) (· = a) p :=
  ⟨fun _ _ => trivial, a, h, rfl⟩

theorem ensures_findRsdp_published (m : Mem 64) (bootArgs : BitVec 32) :
    Ensures (fun _ => True) (· = publishedRsdp m bootArgs) (xnuBootArgsFindRsdp m bootArgs) := by
  have hlogs : ∀ {α : Type} (t : Logged Access α), Logs (fun _ => True) t :=
    fun _ _ _ => trivial
  unfold xnuBootArgsFindRsdp
  apply ensures_liftM_bind (hlogs _)
  rcases value_argsV2 m bootArgs with ⟨hargs, hvalue⟩ | ⟨hargs, hvalue⟩
  · rw [hvalue]
    apply ensures_liftM_bind (hlogs _)
    refine ensures_unless (fun hc => (publishedRsdp_of_not fun h => h.table hc).symm)
      fun htable => ?_
    by_cases hmap : HasMap m (bootArgs.setWidth 64)
    · have htranslate := fun virt => ensures_of_returns (returns_xnuEfiTranslateVirt hmap virt)
      apply (htranslate _).bind
      rintro _ rfl
      refine ensures_unless (fun hc => (publishedRsdp_of_not fun h => h.system hc).symm)
        fun hsystem => ?_
      apply ensures_liftM_bind (hlogs _)
      refine ensures_unless (fun hc => (publishedRsdp_of_not fun h => hc h.signed).symm)
        fun hsigned => ?_
      apply ensures_liftM_bind (hlogs _)
      refine ensures_unless (fun hc => (publishedRsdp_of_not fun h => h.configuration hc).symm)
        fun hconfiguration => ?_
      apply (htranslate _).bind
      rintro _ rfl
      refine ensures_unless (fun hc => (publishedRsdp_of_not fun h => h.array hc).symm)
        fun harray => ?_
      have hhas : HasArray m bootArgs :=
        ⟨hargs, hmap, htable, hsystem, not_not.mp hsigned, hconfiguration, harray⟩
      rw [publishedRsdp, if_pos hhas]
      exact ensures_of_returns (returns_rsdpLoop hmap _ _ 0 0)
    · -- Without a memory map the address of the system table is translated to 0.
      obtain ⟨phys, hphys, hnone⟩ := (ensures_xnuEfiTranslateVirt m (bootArgs.setWidth 64)
        (fieldAt m (bootArgs.setWidth 64) efiSystemTable)).result
      obtain ⟨-, rfl⟩ := hnone.resolve_left fun h => hmap h.1
      apply (ensures_of_returns hphys).bind
      rintro _ rfl
      exact ensures_pure (publishedRsdp_of_not fun h => hmap h.map).symm
  · rw [hvalue]
    exact ensures_pure (publishedRsdp_of_not fun h => hargs h.args).symm

end Published

/-- **The search is exact.**  For every memory the search ends and returns the published RSDP. -/
theorem findRsdp_returns_published (m : Mem 64) (bootArgs : BitVec 32) :
    (xnuBootArgsFindRsdp m bootArgs).Returns (publishedRsdp m bootArgs) := by
  obtain ⟨rsdp, hreturns, rfl⟩ := (ensures_findRsdp_published m bootArgs).result
  exact hreturns

/-! ## The tables on aarch64 -/

/-- The loop of `efi_find_table`, with `k` entries left from `i` on. -/
def findTableLoop (m : Mem 64) (ct : Addr) (guid : Guid) : Nat → Nat → Nat
  | 0, _ => 0
  | k + 1, i =>
      let e := tableEntry ct i
      if fieldAt m e ⟨0, 8⟩ = guid.lo ∧ fieldAt m e ⟨8, 8⟩ = guid.hi then fieldAt m e ⟨16, 8⟩
      else findTableLoop m ct guid k (i + 1)

/-- `efi_find_table`. -/
def efiFindTable (m : Mem 64) (system : Nat) (guid : Guid) : Nat :=
  if system = 0 then 0
  else
    let st := BitVec.ofNat 64 system
    let n := fieldAt m st numberOfTableEntries
    let ct := fieldAt m st configurationTable
    if ct = 0 ∨ 256 < n then 0
    else findTableLoop m (BitVec.ofNat 64 ct) guid n 0

/-- The entries that the system table lists, if they are plausible. -/
def listedTables (m : Mem 64) (system : Nat) : List TableEntry :=
  let st := BitVec.ofNat 64 system
  let n := fieldAt m st numberOfTableEntries
  let ct := fieldAt m st configurationTable
  if system = 0 ∨ ct = 0 ∨ 256 < n then [] else entriesFrom m (BitVec.ofNat 64 ct) n 0

/-- The table of the first entry with the GUID, 0 without one. -/
def tableOf (es : List TableEntry) (guid : Guid) : Nat :=
  match es.find? (·.guid = guid) with
  | some e => e.table
  | none => 0

theorem tableOf_cons (e : TableEntry) (es : List TableEntry) (guid : Guid) :
    tableOf (e :: es) guid = if e.guid = guid then e.table else tableOf es guid := by
  unfold tableOf
  by_cases h : e.guid = guid
  · simp [h]
  · simp [h]

theorem findTableLoop_eq (m : Mem 64) (ct : Addr) (guid : Guid) {n i k : Nat} (hk : n - i = k) :
    findTableLoop m ct guid k i = tableOf (entriesFrom m ct n i) guid := by
  have hguid : ∀ e : TableEntry, e.guid.lo = guid.lo ∧ e.guid.hi = guid.hi ↔ e.guid = guid := by
    rintro ⟨⟨lo, hi⟩, table⟩
    cases guid
    simp
  induction k generalizing i with
  | zero => rw [entriesFrom_of_le m ct (by omega), findTableLoop, tableOf, List.find?_nil]
  | succ k ih =>
      rw [findTableLoop, entriesFrom_of_lt m ct (by omega), ih (by omega), tableOf_cons]
      simp only [← hguid]
      rfl

theorem efiFindTable_eq (m : Mem 64) (system : Nat) (guid : Guid) :
    efiFindTable m system guid = tableOf (listedTables m system) guid := by
  simp only [efiFindTable, listedTables]
  by_cases hsystem : system = 0
  · simp [hsystem, tableOf]
  · simp only [hsystem, if_false, false_or]
    split_ifs with himplausible
    · simp [tableOf]
    · exact findTableLoop_eq m _ guid rfl

end Efi
end Boot
end Saski
