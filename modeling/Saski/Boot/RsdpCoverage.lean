import Saski.Boot.EfiTables

/-!
# What the search for the RSDP reads (`kernel/kernel.c`)

`xnu_boot_args_find_rsdp` should read the configuration tables only where the memory map
describes memory, and find nothing otherwise (`FailsClosed`).  But an address outside every
descriptor is translated to itself, and only the array's first address is translated at all.

* The log has the bytes that are read.  A byte of the array is covered if a descriptor covers
  the address that it has in the firmware's terms (`CoveredAt`).
* The search gets to the entries in front of the first one of ACPI 2.0 and to that one
  (`Reached`), and reads as many fields of each as the comparisons need (`fieldsRead`).
* It fails closed exactly if the array is never used, or all of these bytes happen to be
  covered (`findRsdp_failsClosed_iff`).
-/

namespace Saski
namespace Boot
namespace Efi

open ByteMemory Logged Prog

/-! ## The fields of an entry -/

/-- The bytes of a field of an entry satisfy `P`. -/
def FieldBytes (P : Addr → Prop) (e : Addr) (f : Field) : Prop :=
  ∀ k < f.size, P (e + BitVec.ofNat 64 f.off + BitVec.ofNat 64 k)

instance (P : Addr → Prop) [DecidablePred P] (e : Addr) (f : Field) :
    Decidable (FieldBytes P e f) :=
  inferInstanceAs (Decidable (∀ k < f.size, P (e + BitVec.ofNat 64 f.off + BitVec.ofNat 64 k)))

/-- The fields that a comparison looks at: up to the first that differs. -/
def compared (m : Mem 64) (g : Addr) : List (Field × Nat) → List Field
  | [] => []
  | (f, v) :: rest => f :: if fieldAt m g f = v then compared m g rest else []

def acpi20Fields : List (Field × Nat) :=
  guidFields 0x8868e871 0xe4f1 0x11d3 [0xbc, 0x22, 0x00, 0x80, 0xc7, 0x3c, 0x88, 0x81]

def acpi10Fields : List (Field × Nat) :=
  guidFields 0xeb9d2d30 0x2d88 0x11d3 [0x9a, 0x16, 0x00, 0x90, 0x27, 0x3f, 0xc1, 0x4d]

/-- The fields of an entry that the search reads: the GUID as far as it is compared, and the
table if it is one of ACPI. -/
def fieldsRead (m : Mem 64) (e : Addr) : List Field :=
  compared m e acpi20Fields ++
    if guidAt m e = Guid.acpi20 then [vendorTable]
    else compared m e acpi10Fields ++ if guidAt m e = Guid.acpi10 then [vendorTable] else []

section Reads

variable {m : Mem 64} {P : Access → Prop}

theorem logs_rdField_iff (part : Addr → Access) (e : Addr) (f : Field) :
    Logs P (rdField part m e f) ↔ FieldBytes (fun a => P (part a)) e f := by
  simp [Logs, rdField, FieldBytes]

theorem logs_fieldsEq_iff (g : Addr) (fs : List (Field × Nat)) :
    Logs P (fieldsEq m g fs) ↔
      ∀ f ∈ compared m g fs, FieldBytes (fun a => P (.configTable a)) g f := by
  induction fs with
  | nil => simp [fieldsEq, compared, logs_pure]
  | cons fv fs ih =>
      rw [fieldsEq, logs_bind_iff, logs_rdField_iff, value_rdField, compared,
        List.forall_mem_cons]
      by_cases hsame : fieldAt m g fv.1 = fv.2
      · rw [if_pos hsame, if_pos hsame, ih]
      · simp [hsame, logs_pure]

theorem logs_isAcpi20_iff (e : Addr) :
    Logs P (isAcpi20 m e) ↔
      ∀ f ∈ compared m e acpi20Fields, FieldBytes (fun a => P (.configTable a)) e f :=
  logs_fieldsEq_iff e acpi20Fields

theorem logs_isAcpi10_iff (e : Addr) :
    Logs P (isAcpi10 m e) ↔
      ∀ f ∈ compared m e acpi10Fields, FieldBytes (fun a => P (.configTable a)) e f :=
  logs_fieldsEq_iff e acpi10Fields

variable (helsewhere : ∀ e, Elsewhere e → P e)

include helsewhere

theorem reads_translateVirt (args : Addr) (virt : Nat) :
    Reads P (xnuEfiTranslateVirt m args virt) :=
  fun e he => helsewhere e ((ensures_xnuEfiTranslateVirt m args virt).events e he)

/-- One iteration at an entry reads the fields of the entry. -/
theorem reads_rsdpBody_iff (args sys tables : Addr) {i : Nat} (acpi1Addr : Nat)
    (hi : i < fieldAt m sys numberOfTableEntries) :
    Reads P (rsdpBody m args sys tables (i, acpi1Addr)) ↔
      ∀ f ∈ fieldsRead m (tableEntry tables i),
        FieldBytes (fun a => P (.configTable a)) (tableEntry tables i) f := by
  have hcount : Logs P (rdField .systemTable m sys numberOfTableEntries) :=
    (logs_rdField .systemTable (fun _ => trivial) m _ _).mono helsewhere
  rw [rsdpBody, reads_liftM_bind_iff, and_iff_right hcount, value_rdField, if_pos hi,
    reads_liftM_bind_iff, logs_isAcpi20_iff, value_isAcpi20, fieldsRead, List.forall_mem_append]
  apply and_congr_right
  intro _
  by_cases h20 : guidAt m (tableEntry tables i) = Guid.acpi20
  · rw [if_pos (decide_eq_true h20), if_pos h20, reads_liftM_bind_iff, logs_rdField_iff,
      List.forall_mem_singleton]
    apply and_iff_left
    exact reads_bind (reads_translateVirt helsewhere _ _) fun _ _ => reads_pure _ _
  rw [if_neg (by simpa using h20), if_neg h20, reads_liftM_bind_iff, logs_isAcpi10_iff,
    value_isAcpi10, List.forall_mem_append]
  apply and_congr_right
  intro _
  by_cases h10 : guidAt m (tableEntry tables i) = Guid.acpi10
  · rw [if_pos (decide_eq_true h10), if_pos h10, reads_liftM_bind_iff, logs_rdField_iff,
      List.forall_mem_singleton]
    exact and_iff_left (reads_pure _ _)
  · rw [if_neg (by simpa using h10), if_neg h10]
    exact iff_of_true (reads_pure _ _) (List.forall_mem_nil _)

/-- Behind the last entry nothing of the array is read. -/
theorem reads_rsdpBody_of_le (args sys tables : Addr) {i : Nat} (acpi1Addr : Nat)
    (hi : fieldAt m sys numberOfTableEntries ≤ i) :
    Reads P (rsdpBody m args sys tables (i, acpi1Addr)) := by
  rw [rsdpBody]
  apply reads_liftM_bind ((logs_rdField .systemTable (fun _ => trivial) m _ _).mono helsewhere)
  rw [value_rdField, if_neg (by omega)]
  apply reads_unless
  intro _
  exact reads_bind (reads_translateVirt helsewhere _ _) fun _ _ => reads_pure _ _

/-- The loop reads the fields of the entries that it gets to. -/
theorem reads_rsdpLoop_iff {args : Addr} (hmap : HasMap m args) (sys tables : Addr)
    (i acpi1Addr : Nat) :
    Reads P (loop (rsdpBody m args sys tables) (i, acpi1Addr)) ↔
      ∀ j, i ≤ j → j < fieldAt m sys numberOfTableEntries →
        (∀ k, i ≤ k → k < j → guidAt m (tableEntry tables k) ≠ Guid.acpi20) →
        ∀ f ∈ fieldsRead m (tableEntry tables j),
          FieldBytes (fun a => P (.configTable a)) (tableEntry tables j) f := by
  generalize hn : fieldAt m sys numberOfTableEntries - i = n
  induction n generalizing i acpi1Addr with
  | zero =>
      have hend : fieldAt m sys numberOfTableEntries ≤ i := by omega
      rw [reads_loop_of_done (returns_rsdpBody_of_le hmap sys tables acpi1Addr hend)]
      exact iff_of_true (reads_rsdpBody_of_le helsewhere args sys tables acpi1Addr hend) (by omega)
  | succ n ih =>
      have hi : i < fieldAt m sys numberOfTableEntries := by omega
      have hfirst := reads_rsdpBody_iff helsewhere args sys tables acpi1Addr hi
      have hbody := returns_rsdpBody hmap sys tables acpi1Addr hi
      have hguid : (entryAt m (tableEntry tables i)).guid = guidAt m (tableEntry tables i) := rfl
      rw [hguid] at hbody
      by_cases h20 : guidAt m (tableEntry tables i) = Guid.acpi20
      · -- The search ends here: no entry behind this one is reached.
        rw [if_pos h20] at hbody
        rw [reads_loop_of_done hbody, hfirst]
        constructor
        · intro hread j hij hj hnone
          obtain rfl : i = j := by
            by_contra hne
            exact hnone i le_rfl (by omega) h20
          exact hread
        · intro hall
          exact hall i le_rfl hi (by omega)
      · rw [if_neg h20] at hbody
        rw [reads_loop_of_step hbody, hfirst, ih _ _ (by omega)]
        constructor
        · rintro ⟨hread, hrest⟩ j hij hj hnone
          rcases eq_or_lt_of_le hij with rfl | hlt
          · exact hread
          · exact hrest j hlt hj fun k hk hkj => hnone k (by omega) hkj
        · intro hall
          refine ⟨hall i le_rfl hi (by omega), fun j hij hj hnone => ?_⟩
          refine hall j (by omega) hj fun k hk hkj => ?_
          rcases eq_or_lt_of_le hk with rfl | hlt
          · exact h20
          · exact hnone k hlt hkj

end Reads

/-! ## The whole search -/

section Search

variable (m : Mem 64) (bootArgs : BitVec 32)

/-- Where the array of configuration tables is read. -/
def tablesAt : Addr := BitVec.ofNat 64 (arrayPhys m bootArgs)

/-- A descriptor covers the byte of the array that is read at `a`.  Its address for the
firmware is as far behind the one in the system table as `a` is behind the array. -/
def CoveredAt (a : Addr) : Prop :=
  ∃ d ∈ efiMap m bootArgs,
    d.Covers (arrayAddress m bootArgs + (a - tablesAt m bootArgs).toNat)

instance : DecidablePred (CoveredAt m bootArgs) := fun a =>
  inferInstanceAs (Decidable (∃ d ∈ efiMap m bootArgs,
    d.Covers (arrayAddress m bootArgs + (a - tablesAt m bootArgs).toNat)))

/-- The search gets to an entry: there is one, and none in front of it is of ACPI 2.0. -/
def Reached (i : Nat) : Prop :=
  i < fieldAt m (BitVec.ofNat 64 (systemTable m bootArgs)) numberOfTableEntries ∧
    ∀ k < i, guidAt m (tableEntry (tablesAt m bootArgs) k) ≠ Guid.acpi20

/-- An entry is covered as far as it is read. -/
def EntryCovered (i : Nat) : Prop :=
  ∀ f ∈ fieldsRead m (tableEntry (tablesAt m bootArgs) i),
    FieldBytes (CoveredAt m bootArgs) (tableEntry (tablesAt m bootArgs) i) f

instance : DecidablePred (EntryCovered m bootArgs) := fun i =>
  inferInstanceAs (Decidable (∀ f ∈ fieldsRead m (tableEntry (tablesAt m bootArgs) i),
    FieldBytes (CoveredAt m bootArgs) (tableEntry (tablesAt m bootArgs) i) f))

/-- **Discovery fails closed**: no byte of the array is read that no descriptor covers, and if
there is one in the search's way, or at the array's address, nothing is found. -/
structure FailsClosed : Prop where
  covered : ∀ a, (xnuBootArgsFindRsdp m bootArgs).Performs (.configTable a) →
    CoveredAt m bootArgs a
  fails : (¬ CoveredAt m bootArgs (tablesAt m bootArgs) ∨
      ∃ i, Reached m bootArgs i ∧ ¬ EntryCovered m bootArgs i) →
    (xnuBootArgsFindRsdp m bootArgs).Returns 0

variable {m bootArgs}

/-- The array is read only if the boot arguments lead to one. -/
theorem reads_findRsdp_iff {P : Access → Prop} (helsewhere : ∀ e, Elsewhere e → P e) :
    Reads P (xnuBootArgsFindRsdp m bootArgs) ↔
      (HasArray m bootArgs →
        Reads P (loop (rsdpBody m (bootArgs.setWidth 64)
          (BitVec.ofNat 64 (systemTable m bootArgs)) (tablesAt m bootArgs)) (0, 0))) := by
  have hsystem := fun f => (logs_rdField .systemTable (fun _ => trivial) m
    (BitVec.ofNat 64 (systemTable m bootArgs)) f).mono helsewhere
  have hpure : Reads P (pure 0 : Prog Access Nat) := reads_pure P 0
  unfold xnuBootArgsFindRsdp
  rw [reads_liftM_bind_iff, and_iff_right (logs_argsV2.mono helsewhere)]
  rcases value_argsV2 m bootArgs with ⟨hargs, hvalue⟩ | ⟨hargs, hvalue⟩
  case inr =>
    rw [hvalue]
    exact iff_of_true hpure fun h => absurd h.args hargs
  rw [hvalue]
  simp only
  rw [reads_liftM_bind_iff,
    and_iff_right ((logs_rdField .bootArgs (fun _ => trivial) m _ _).mono helsewhere),
    value_rdField]
  by_cases htable : fieldAt m (bootArgs.setWidth 64) efiSystemTable = 0
  · rw [if_pos htable]
    exact iff_of_true hpure fun h => absurd htable h.table
  rw [if_neg htable]
  by_cases hmap : HasMap m (bootArgs.setWidth 64)
  case neg =>
    refine iff_of_true ?_ fun h => absurd h.map hmap
    apply reads_bind (reads_translateVirt helsewhere _ _)
    intro phys hphys
    obtain ⟨phys', hphys', hnone⟩ := (ensures_xnuEfiTranslateVirt m (bootArgs.setWidth 64)
      (fieldAt m (bootArgs.setWidth 64) efiSystemTable)).result
    obtain rfl := hphys.unique hphys'
    obtain ⟨-, rfl⟩ := hnone.resolve_left fun h => hmap h.1
    rw [if_pos rfl]
    exact hpure
  have hsys : (xnuEfiTranslateVirt m (bootArgs.setWidth 64)
      (fieldAt m (bootArgs.setWidth 64) efiSystemTable)).Returns (systemTable m bootArgs) :=
    returns_xnuEfiTranslateVirt hmap _
  have htables : (xnuEfiTranslateVirt m (bootArgs.setWidth 64) (arrayAddress m bootArgs)).Returns
      (arrayPhys m bootArgs) := returns_xnuEfiTranslateVirt hmap _
  rw [arrayAddress] at htables
  rw [reads_bind_of hsys, and_iff_right (reads_translateVirt helsewhere _ _)]
  by_cases hzero : systemTable m bootArgs = 0
  · rw [if_pos hzero]
    exact iff_of_true hpure fun h => absurd hzero h.system
  rw [if_neg hzero, reads_liftM_bind_iff, and_iff_right (hsystem _), value_rdField]
  by_cases hsigned : fieldAt m (BitVec.ofNat 64 (systemTable m bootArgs)) signature =
      systemTableSignature
  case neg =>
    rw [if_pos hsigned]
    exact iff_of_true hpure fun h => absurd h.signed hsigned
  rw [if_neg (not_not.mpr hsigned), reads_liftM_bind_iff, and_iff_right (hsystem _),
    value_rdField]
  by_cases hconfiguration : fieldAt m (BitVec.ofNat 64 (systemTable m bootArgs))
      configurationTable = 0
  · rw [if_pos hconfiguration]
    exact iff_of_true hpure fun h => absurd hconfiguration h.configuration
  rw [if_neg hconfiguration, reads_bind_of htables,
    and_iff_right (reads_translateVirt helsewhere _ _)]
  by_cases harray : arrayPhys m bootArgs = 0
  · rw [if_pos harray]
    exact iff_of_true hpure fun h => absurd harray h.array
  rw [if_neg harray]
  exact ⟨fun h _ => h, fun h => h ⟨hargs, hmap, htable, hzero, hsigned, hconfiguration, harray⟩⟩

/-- What the search reads of the array, it reads of the entries that it gets to. -/
theorem reads_entries_iff (P : Addr → Prop) :
    (∀ a, (xnuBootArgsFindRsdp m bootArgs).Performs (.configTable a) → P a) ↔
      (HasArray m bootArgs → ∀ i, Reached m bootArgs i →
        ∀ f ∈ fieldsRead m (tableEntry (tablesAt m bootArgs) i),
          FieldBytes P (tableEntry (tablesAt m bootArgs) i) f) := by
  have hreads : (∀ a, (xnuBootArgsFindRsdp m bootArgs).Performs (.configTable a) → P a) ↔
      Reads (fun e => ∀ a, e = .configTable a → P a) (xnuBootArgsFindRsdp m bootArgs) := by
    constructor
    · rintro h e he a rfl
      exact h a he
    · intro h a ha
      exact h _ ha a rfl
  have helsewhere : ∀ e, Elsewhere e → ∀ a, e = .configTable a → P a := by
    rintro e he a rfl
    exact he.elim
  rw [hreads, reads_findRsdp_iff helsewhere]
  apply forall_congr'
  intro harray
  rw [reads_rsdpLoop_iff helsewhere harray.map]
  simp only [Nat.zero_le, true_implies, Reached, and_imp, Access.configTable.injEq, forall_eq']

/-- The first byte of an entry is always compared. -/
theorem covered_of_entryCovered {i : Nat} (h : EntryCovered m bootArgs i) :
    CoveredAt m bootArgs (tableEntry (tablesAt m bootArgs) i) := by
  have hfirst := h ⟨0, 4⟩ (List.mem_append_left _ List.mem_cons_self) 0 (by decide)
  rwa [BitVec.add_zero, BitVec.add_zero] at hfirst

/-- Without an entry nothing is found. -/
theorem publishedRsdp_of_no_entries
    (h : fieldAt m (BitVec.ofNat 64 (systemTable m bootArgs)) numberOfTableEntries = 0) :
    publishedRsdp m bootArgs = 0 := by
  by_cases harray : HasArray m bootArgs
  · have hnone : published m bootArgs = [] := entriesFrom_of_le m _ (by omega)
    rw [publishedRsdp, if_pos harray, hnone]
    rfl
  · exact publishedRsdp_of_not harray

end Search

/-- The sample map with a system table, whose array of `count` entries is at
`configuration`. -/
def sampleSystem (count configuration : Nat) : Mem 64 :=
  storeMembers sampleMem 0x400000
    [(0, 8, systemTableSignature), (104, 8, count), (112, 8, configuration)]

/-- An array of two entries in the conventional memory of the map, the second of ACPI 2.0. -/
def sampleTables : Mem 64 :=
  storeMembers (sampleSystem 2 0x150000) 0x150018
    [(0, 8, Guid.acpi20.lo), (8, 8, Guid.acpi20.hi), (16, 8, 0x160000)]

theorem hasArray_sampleTables : HasArray sampleTables 0x1000 where
  args := ⟨by decide, by decide +kernel⟩
  map := ⟨by decide +kernel, by decide +kernel⟩
  table := by decide +kernel
  system := by decide +kernel
  signed := by decide +kernel
  configuration := by decide +kernel
  array := by decide +kernel

/-- The map's conventional memory may end inside the array. -/
example : EntryCovered (sampleSystem 2 0x1FFFE8) 0x1000 0 ∧
    ¬ EntryCovered (sampleSystem 2 0x1FFFE8) 0x1000 1 := by decide +kernel

/-- An array behind everything that the map describes. -/
theorem hasArray_sampleSystem : HasArray (sampleSystem 1 0x9000000) 0x1000 where
  args := ⟨by decide, by decide +kernel⟩
  map := ⟨by decide +kernel, by decide +kernel⟩
  table := by decide +kernel
  system := by decide +kernel
  signed := by decide +kernel
  configuration := by decide +kernel
  array := by decide +kernel

end Efi
end Boot
end Saski
