import Mathlib
import Saski.Boot.BootTables
import Saski.Lib.X86

/-!
# The entry of the x86-64 kernel (`kernel/boot.S`)

GRUB enters the kernel in 32-bit protected mode without paging.  The assembly records the
address of the boot arguments, turns interrupts off, builds the identity map of the first
4 GiB, switches to long mode through it and calls `kernel_boot` on its own stack.

The code is given instruction by instruction, as `.code32` and `.code64` mean it.  The
lengths that the assembler chose and the addresses that the linker chose are parameters
(`Symbols`).  The layout of `.data` is that of the file: the tables, the stack, the
descriptor table and the embedded image of init stand one behind the other, with the word
for the boot arguments last.  The code is not part of the modelled memory.
-/

namespace Saski
namespace Boot
namespace EntryX86

open ByteMemory X86 CodeRun

/-! ## The code -/

/-- What the linker and the assembler decide, and the length of the embedded image. -/
structure Symbols where
  text : BitVec 32
  sizes : List Nat
  bootPml4 : BitVec 32
  initLen : Nat
  kernelBoot : BitVec 64

namespace Symbols

variable (L : Symbols)

def bootPdpt : BitVec 32 := L.bootPml4 + 0x1000#32

/-- `boot_pd0` to `boot_pd3` -/
def bootPd (p : Nat) : BitVec 32 := L.bootPml4 + BitVec.ofNat 32 (0x2000 + p * 0x1000)

def stackTop : BitVec 32 := L.bootPml4 + 0x16000#32

def gdt64Pointer : BitVec 32 := L.bootPml4 + 0x16018#32

/-- How far behind the tables `_g_xnu_boot_args_addr` stands: behind the image of init,
which starts at a multiple of 16, at the next one. -/
def bootArgsOffset : Nat := 0x16020 + (L.initLen + 15) / 16 * 16

def gXnuBootArgsAddr : BitVec 32 := L.bootPml4 + BitVec.ofNat 32 L.bootArgsOffset

/-- The address of instruction `k`. -/
def label (k : Nat) : BitVec 64 := place (L.text.setWidth 64) L.sizes k

end Symbols

variable (L : Symbols)

/-- `_start` -/
def recordBootArgs : List Op := [.movImm .bx L.gXnuBootArgsAddr, .store .bx 0 .ax, .cli]

/-- Up to the load of `cr0`. -/
def enableLongMode : List Op :=
  [.movFromCr .ax .cr4, .orImm .ax 0x20, .movToCr .cr4 .ax,
    .movImm .ax L.bootPml4, .movToCr .cr3 .ax,
    .movImm .cx 0xC0000080, .rdmsr, .orImm .ax 0x100, .wrmsr,
    .movFromCr .ax .cr0, .orImm .ax 0x80000000]

/-- The address of a table, as an entry of another one. -/
def linkTable (table disp : BitVec 32) : List Op :=
  [.movImm .ax table, .orImm .ax 0x3, .storeAbs disp .ax]

def linkTables : List Op :=
  linkTable L.bootPdpt L.bootPml4 ++ linkTable (L.bootPd 0) L.bootPdpt ++
    linkTable (L.bootPd 1) (L.bootPdpt + 8) ++ linkTable (L.bootPd 2) (L.bootPdpt + 16) ++
    linkTable (L.bootPd 3) (L.bootPdpt + 24)

def fillBody : List Op :=
  [.store .di 0 .ax, .storeImm .di 4 0, .addImm .ax 0x200000, .addImm .di 8]

def loadSegments : List Op :=
  .movImm16 .ax 0x10 :: [Seg.ds, .es, .ss, .fs, .gs].map (.movToSeg · .ax)

/-- `setup_identity_map32`, at instruction 18. -/
def setupIdentityMap32 : List Instr :=
  [Op.movImm .di L.bootPml4, .movImm .cx 6144, .xor .ax .ax].map .op ++ [.repStosl] ++
    (linkTables L).map .op ++
    [.op (.movImm .di (L.bootPd 0)), .op (.xor .ax .ax), .call (L.label 50),
      .op (.movImm .di (L.bootPd 1)), .op (.movImm .ax 0x40000000), .call (L.label 50),
      .op (.movImm .di (L.bootPd 2)), .op (.movImm .ax 0x80000000), .call (L.label 50),
      .op (.movImm .di (L.bootPd 3)), .op (.movImm .ax 0xC0000000), .call (L.label 50), .ret]

/-- `fill_pd32`, at instruction 50; its loop is at 52. -/
def fillPd32 : List Instr :=
  [Op.orImm .ax 0x83, .movImm .cx 512].map .op ++ fillBody.map .op ++ [.loop (L.label 52), .ret]

/-- `long_mode_entry`, at instruction 58; `.hang` is at 67. -/
def longModeEntry : List Instr :=
  loadSegments.map .op ++
    [.op (.movAbs .sp (L.stackTop.setWidth 64)), .call L.kernelBoot, .op .cli, .hlt,
      .jmp (L.label 67)]

def program : List Instr :=
  (recordBootArgs L).map .op ++ [.call (L.label 18)] ++ (enableLongMode L).map .op ++
    [.op (.movToCr .cr0 .ax), .op (.lgdt L.gdt64Pointer),
      .ljmp 0x08 ((L.label 58).setWidth 32)] ++
    setupIdentityMap32 L ++ fillPd32 L ++ longModeEntry L

def code : Code := ⟨L.text.setWidth 64, program L, L.sizes⟩

/-- The labels are where the branches say. -/
example : (program L).length = 69 ∧ (program L)[18]? = some (.op (.movImm .di L.bootPml4)) ∧
    (program L)[50]? = some (.op (.orImm .ax 0x83)) ∧
    (program L)[52]? = some (.op (.store .di 0 .ax)) ∧
    (program L)[58]? = some (.op (.movImm16 .ax 0x10)) ∧ (program L)[67]? = some .hlt :=
  ⟨rfl, rfl, rfl, rfl, rfl, rfl⟩

/-! ## Addresses -/

namespace Symbols

/-- The six tables. -/
def tables : BitVec 64 := L.bootPml4.setWidth 64

/-- The image is linked below 4 GiB, the tables to a page. -/
structure Linked : Prop where
  sizes : L.sizes.length = 69
  pos : ∀ n ∈ L.sizes, 0 < n
  text : L.text.toNat + L.sizes.sum ≤ 2 ^ 32
  align : L.bootPml4.toNat % 0x1000 = 0
  data : L.bootPml4.toNat + L.bootArgsOffset + 4 ≤ 2 ^ 32

variable {L}

theorem toNat_tables : L.tables.toNat = L.bootPml4.toNat := BitVec.toNat_setWidth_of_le (by decide)

theorem Linked.placed (hL : L.Linked) : (code L).Placed where
  sizes := hL.sizes
  pos := hL.pos
  fits := by
    rw [code, BitVec.toNat_setWidth_of_le (by decide)]
    exact hL.text

theorem Linked.tables_fit (hL : L.Linked) : L.tables.toNat + 0x16020 + 4 ≤ 2 ^ 32 := by
  have := hL.data
  rw [toNat_tables]
  unfold bootArgsOffset at this
  omega

/-- The address of something in `.data`. -/
theorem setWidth_add {n : Nat} (h : L.tables.toNat + n < 2 ^ 32) :
    (L.bootPml4 + BitVec.ofNat 32 n).setWidth 64 = L.tables + BitVec.ofNat 64 n :=
  setWidth_add_ofNat (toNat_tables (L := L) ▸ h)

end Symbols

variable {L}

/-- The bytes of the tables. -/
def tableBytes (L : Symbols) : Set (BitVec 64) := extent L.tables 0x6000

/-- A half of an entry is in the tables. -/
theorem half_subset {n : Nat} (hn : n < 6144) :
    extent (L.tables + BitVec.ofNat 64 (4 * n)) 4 ⊆ tableBytes L :=
  extent_add_subset _ _ (by omega)

section Fill

/-- The head of the loop of `fill_pd32`, after `i` entries of table `p`. -/
structure Filling (L : Symbols) (p : Nat) (s₀ : State) (i : Nat) (s : State) : Prop where
  pc : s.pc = L.label (if i < 512 then 52 else 57)
  ax : s.get .ax = BitVec.ofNat 32 (entry L.tables.toNat (1024 + 512 * p + i))
  cx : s.get .cx = BitVec.ofNat 32 (512 - i)
  di : s.get .di = L.bootPml4 + BitVec.ofNat 32 (4 * (2048 + 1024 * p + 2 * i))
  sp : s.get .sp = s₀.get .sp
  control : s.control = s₀.control
  built : Built s.mem L.tables (2048 + 1024 * p + 2 * i)
  frame : Set.EqOn s.mem s₀.mem (tableBytes L)ᶜ

theorem effect_fillBody {s : State} (hs : s.paging = false) :
    execAll Op.effect fillBody s = some (((s.setMem (store (store s.mem
      ((s.get .di + 0).setWidth 64) 4 (s.get .ax).toNat) ((s.get .di + 4).setWidth 64) 4 0)).set .ax
        (s.get .ax + 0x200000)).set .di (s.get .di + 8)) := by
  simp only [fillBody, execAll, effect_store, effect_storeImm, hs, State.paging_setMem,
    Option.bind_some]
  rfl

/-- One pass through the loop. -/
theorem Filling.step (hL : L.Linked) {p i : Nat} {s₀ s : State} (hp : p < 4) (hi : i < 512)
    (hunpaged : s₀.paging = false) (h : Filling L p s₀ i s) :
    ∃ t, Runs (fetch (code L)) exec s t ∧ Filling L p s₀ (i + 1) t := by
  have hs : s.paging = false := (State.paging_of_control h.control).trans hunpaged
  have hfit := hL.tables_fit
  obtain ⟨n, hn⟩ : ∃ n, n = 2048 + 1024 * p + 2 * i := ⟨_, rfl⟩
  have hdi : s.get .di = L.bootPml4 + BitVec.ofNat 32 (4 * n) := hn ▸ h.di
  have hlow : (s.get .di + 0).setWidth 64 = L.tables + BitVec.ofNat 64 (4 * n) := by
    rw [hdi, ← Symbols.setWidth_add (by omega)]
    exact congrArg _ (BitVec.add_zero _)
  have hhigh : (s.get .di + 4).setWidth 64 = L.tables + BitVec.ofNat 64 (4 * (n + 1)) := by
    rw [hdi, ← Symbols.setWidth_add (by omega), Nat.mul_succ, BitVec.ofNat_add, BitVec.add_assoc]
    rfl
  have hax : (s.get .ax).toNat = half L.tables.toNat n := by
    rw [h.ax, half, if_pos (by omega), show n / 2 = 1024 + 512 * p + i by omega, BitVec.toNat_ofNat,
      Nat.mod_eq_of_lt (entry_lt (by omega) (by omega))]
  have hzero : 0 = half L.tables.toNat (n + 1) := by rw [half, if_neg (by omega)]
  have hbody := hL.placed.opsUnpaged (k := 52) hs rfl rfl
    (h.pc.trans (by rw [if_pos hi]; rfl)) (effect_fillBody hs)
  rw [hlow, hhigh, hax] at hbody
  have hcx : s.get .cx - 1 = BitVec.ofNat 32 (512 - (i + 1)) := by
    rw [h.cx, show 512 - i = 512 - (i + 1) + 1 by omega, BitVec.ofNat_add]
    exact BitVec.add_sub_cancel _ _
  have hend : s.get .cx - 1 = 0 ↔ ¬ i + 1 < 512 := by
    rw [hcx, ← BitVec.toNat_inj, BitVec.toNat_ofNat, Nat.mod_eq_of_lt (by omega)]
    change 512 - (i + 1) = 0 ↔ _
    omega
  refine ⟨_, hbody.trans (hL.placed.loop (k := 56) (by exact hs) rfl rfl),
    ?_, ?_, by simpa using hcx, ?_, by simpa using h.sp, h.control, ?_, ?_⟩
  · simp only [State.get_set, State.get_jump, State.get_setMem, reduceCtorEq, if_false]
    change (if s.get .cx - 1 = 0 then L.label 57 else L.label 52) = _
    by_cases hlast : i + 1 < 512
    · rw [if_neg (hend.not_left.mpr hlast), if_pos hlast]
    · rw [if_pos (hend.mpr hlast), if_neg hlast]
  · simp only [State.get_set, State.get_jump, State.get_setMem, reduceCtorEq, if_false, if_true]
    rw [h.ax, entry_of_page (by omega), entry_of_page (by omega),
      show (1024 + 512 * p + (i + 1) - 1024) * 0x200000 + 0x83 =
        (1024 + 512 * p + i - 1024) * 0x200000 + 0x83 + 0x200000 by omega]
    exact (BitVec.ofNat_add _ _).symm
  · simp only [State.get_set, State.get_jump, State.get_setMem, reduceCtorEq, if_false, if_true]
    rw [h.di, show 4 * (2048 + 1024 * p + 2 * (i + 1)) = 4 * (2048 + 1024 * p + 2 * i) + 8 by omega,
      BitVec.ofNat_add, ← BitVec.add_assoc]
    rfl
  · have hbuilt := ((hn ▸ h.built : Built s.mem L.tables n).store (by omega) (by omega)).store
      (by omega) (by omega)
    rw [← hzero] at hbuilt
    rw [show 2048 + 1024 * p + 2 * (i + 1) = n + 1 + 1 by omega]
    exact hbuilt
  · exact eqOn_store (eqOn_store h.frame (half_subset (by omega)) _) (half_subset (by omega)) _

/-- **`fill_pd32`**: one table of pages, and back to the address on the stack. -/
theorem runs_fillPd32 (hL : L.Linked) {p : Nat} (hp : p < 4) {s : State} (hs : s.paging = false)
    (hpc : s.pc = L.label 50) (hax : s.get .ax = BitVec.ofNat 32 (p * 2 ^ 30))
    (hdi : s.get .di = L.bootPd p) (hbuilt : Built s.mem L.tables (2048 + 1024 * p)) :
    ∃ t, Runs (fetch (code L)) exec s t ∧
      t.pc = BitVec.ofNat 64 (load t.mem ((s.get .sp).setWidth 64) 4) ∧
      t.get .sp = s.get .sp + 4 ∧ t.control = s.control ∧
      Built t.mem L.tables (2048 + 1024 * (p + 1)) ∧ Set.EqOn t.mem s.mem (tableBytes L)ᶜ := by
  have heffect : execAll Op.effect [.orImm .ax 0x83, .movImm .cx 512] s =
      some ((s.set .ax (s.get .ax ||| 0x83)).set .cx 512) := rfl
  have hhead := hL.placed.opsUnpaged (k := 50) hs rfl rfl hpc heffect
  have hstart : Filling L p s 0
      (((s.set .ax (s.get .ax ||| 0x83)).set .cx 512).jump (L.label 52)) := by
    refine ⟨congrArg L.label (if_pos (by decide)).symm, ?_, by simp, ?_, by simp, rfl, hbuilt,
      Set.eqOn_refl _ _⟩
    · simp only [State.get_set, State.get_jump, reduceCtorEq, if_false, if_true]
      rw [hax, entry_of_page (by omega)]
      interval_cases p <;> decide
    · simp only [State.get_set, State.get_jump, reduceCtorEq, if_false]
      rw [hdi, Symbols.bootPd]
      congr 2
      omega
  obtain ⟨u, hloop, hu⟩ := Runs.loop (n := 512) (Filling L p s)
    (fun i hi _ h => h.step hL hp hi hs) hstart
  have hupaging : u.paging = false := (State.paging_of_control hu.control).trans hs
  have hupc : u.pc = L.label 57 := hu.pc.trans (congrArg L.label (if_neg (Nat.lt_irrefl 512)))
  have hret := hL.placed.ret (k := 57) hupaging hupc rfl
  refine ⟨_, (hhead.trans hloop).trans hret, ?_, ?_, hu.control, ?_, hu.frame⟩
  · rw [← hu.sp]
    rfl
  · simp [hu.sp]
  · have hbuilt := hu.built
    rw [show 2048 + 1024 * p + 2 * 512 = 2048 + 1024 * (p + 1) by omega] at hbuilt
    exact hbuilt

end Fill

/-! ## The six tables -/

section Clear

/-- `rep stosl` after `i` words. -/
structure Clearing (L : Symbols) (s₀ : State) (i : Nat) (s : State) : Prop where
  pc : s.pc = L.label 21
  ax : s.get .ax = 0
  cx : s.get .cx = BitVec.ofNat 32 (6144 - i)
  di : s.get .di = L.bootPml4 + BitVec.ofNat 32 (4 * i)
  sp : s.get .sp = s₀.get .sp
  control : s.control = s₀.control
  zero : ∀ j < i, element s.mem L.tables 4 j = 0
  frame : Set.EqOn s.mem s₀.mem (tableBytes L)ᶜ

theorem Clearing.step (hL : L.Linked) {i : Nat} {s₀ s : State} (hi : i < 6144)
    (hunpaged : s₀.paging = false) (hup : s₀.down = false) (h : Clearing L s₀ i s) :
    ∃ t, Runs (fetch (code L)) exec s t ∧ Clearing L s₀ (i + 1) t := by
  have hs : s.paging = false := (State.paging_of_control h.control).trans hunpaged
  have hdown : s.down = false := by
    have hdown : s.control.down = s₀.control.down := congrArg State.down h.control
    exact hdown.trans hup
  have hfit := hL.tables_fit
  have hdi : (s.get .di).setWidth 64 = L.tables + BitVec.ofNat 64 (4 * i) := by
    rw [h.di, Symbols.setWidth_add (by omega)]
  have hne : s.get .cx ≠ 0 := by
    rw [h.cx, ne_eq, ← BitVec.toNat_inj, BitVec.toNat_ofNat, Nat.mod_eq_of_lt (by omega)]
    change ¬ 6144 - i = 0
    omega
  refine ⟨_, hL.placed.repStosl_of_ne hs h.pc rfl hne hdown, h.pc, by simp [h.ax], ?_, ?_,
    by simp [h.sp], h.control, ?_, ?_⟩
  · simp only [State.get_set, if_true]
    rw [h.cx, show 6144 - i = 6144 - (i + 1) + 1 by omega, BitVec.ofNat_add]
    exact BitVec.add_sub_cancel _ _
  · simp only [State.get_set, reduceCtorEq, if_false, if_true]
    rw [h.di, Nat.mul_succ, BitVec.ofNat_add, ← BitVec.add_assoc]
    rfl
  · intro j hj
    change element (store s.mem ((s.get .di).setWidth 64) 4 (s.get .ax).toNat) L.tables 4 j = 0
    rw [hdi, element_store s.mem L.tables _ (by omega) (by omega), h.ax]
    by_cases hlast : j = i
    · rw [if_pos hlast]
      rfl
    · rw [if_neg hlast, h.zero j (by omega)]
  · have hsub : extent ((s.get .di).setWidth 64) 4 ⊆ tableBytes L := hdi ▸ half_subset hi
    exact eqOn_store h.frame hsub _

end Clear

/-- The halves that are set one by one. -/
def link (L : Symbols) (m : Mem 64) (n : Nat) : Mem 64 :=
  store m (L.tables + BitVec.ofNat 64 (4 * n)) 4 (half L.tables.toNat n)

/-- The entry for the table of gigabytes, and its four entries. -/
def links : List Nat := [0, 1024, 1026, 1028, 1030]

section Links

theorem element_links (hL : L.Linked) {ns : List Nat} (hns : ∀ n ∈ ns, n < 6144) {j : Nat}
    (hj : j < 6144) (m : Mem 64) :
    element (ns.foldl (link L) m) L.tables 4 j =
      if j ∈ ns then half L.tables.toNat j else element m L.tables 4 j := by
  induction ns generalizing m with
  | nil => simp
  | cons n ns ih =>
      have hn := hns n List.mem_cons_self
      have hfit := hL.tables_fit
      rw [List.foldl_cons, ih fun n hn => hns n (List.mem_cons_of_mem _ hn), link,
        element_store m L.tables _ (by omega) (by omega),
        Nat.mod_eq_of_lt (half_lt (by omega) hn)]
      by_cases hjn : j = n
      · simp [hjn]
      · simp [hjn]

theorem eqOn_links {ns : List Nat} (hns : ∀ n ∈ ns, n < 6144) {m m₀ : Mem 64}
    (h : Set.EqOn m m₀ (tableBytes L)ᶜ) :
    Set.EqOn (ns.foldl (link L) m) m₀ (tableBytes L)ᶜ := by
  induction ns generalizing m with
  | nil => exact h
  | cons n ns ih =>
      exact ih (fun n hn => hns n (List.mem_cons_of_mem _ hn))
        (eqOn_store h (half_subset (hns n List.mem_cons_self)) _)

theorem lt_of_mem_links : ∀ n ∈ links, n < 6144 := by
  simp [links]

/-- The first two tables. -/
theorem built_links (hL : L.Linked) {m : Mem 64} (hzero : ∀ j < 6144, element m L.tables 4 j = 0) :
    Built (links.foldl (link L) m) L.tables 2048 := by
  intro j hj
  rw [element_links hL lt_of_mem_links (by omega)]
  split_ifs with hlink
  · rfl
  · rw [hzero j (by omega), half]
    have habsent : j % 2 = 0 → entry L.tables.toNat (j / 2) = 0 := by
      intro heven
      simp only [links, List.mem_cons, List.not_mem_nil, or_false] at hlink
      by_cases htop : j / 2 < 512
      · exact entry_of_top (by omega) htop
      · exact entry_of_absent (by omega) (by omega)
    split_ifs with heven
    · exact (habsent heven).symm
    · rfl

end Links

section Setup

/-- An aligned address with the flags of an entry. -/
theorem toNat_or_flags32 {a : BitVec 32} (ha : a.toNat % 0x1000 = 0) :
    (a ||| 0x3).toNat = a.toNat + 0x3 := by
  obtain ⟨q, hq⟩ := Nat.dvd_of_mod_eq_zero ha
  rw [BitVec.toNat_or, hq]
  exact (Nat.two_pow_add_eq_or_of_lt (i := 12) (by decide) q).symm

theorem effect_linkTable {s : State} (hs : s.paging = false) (table disp : BitVec 32) :
    execAll Op.effect (linkTable table disp) s =
      some ((s.set .ax (table ||| 0x3)).setMem
        (store s.mem (disp.setWidth 64) 4 (table ||| 0x3).toNat)) := by
  have hmov : (Op.movImm .ax table).effect s = some (s.set .ax table) := rfl
  have hor : (Op.orImm .ax 0x3).effect (s.set .ax table) = some (s.set .ax (table ||| 0x3)) := by
    simp only [Op.effect, State.get_set, if_true]
    simp only [State.set, State.setReg, Function.update_idem]
  rw [linkTable, execAll, hmov, Option.bind_some, execAll, hor, Option.bind_some, execAll,
    effect_storeAbs (by exact hs), Option.bind_some, execAll, State.get_set, if_pos rfl]
  rfl

/-- A table at an offset behind the first one, as an entry. -/
theorem toNat_entry32 (hL : L.Linked) {off : Nat} (hoff : off % 0x1000 = 0) (hfit : off < 0x6000) :
    ((L.bootPml4 + BitVec.ofNat 32 off) ||| 0x3).toNat = L.tables.toNat + off + 0x3 := by
  have hbound := hL.tables_fit
  have halign := hL.align
  have hword : (L.bootPml4 + BitVec.ofNat 32 off).toNat = L.tables.toNat + off := by
    rw [Symbols.toNat_tables] at hbound ⊢
    exact toNat_add_ofNat (by omega)
  rw [toNat_or_flags32 (by rw [hword, Symbols.toNat_tables]; omega), hword]

/-- The entry for a table of pages. -/
theorem half_gigabyte (t : Nat) {g : Nat} (hg : g < 4) :
    half t (1024 + 2 * g) = t + (0x2000 + g * 0x1000) + 0x3 := by
  rw [half, if_pos (by omega), entry_of_gigabyte (by omega) (by omega)]
  omega

/-- The entries for tables are in place. -/
theorem effect_linkTables (hL : L.Linked) {s : State} (hs : s.paging = false) :
    ∃ t, execAll Op.effect (linkTables L) s = some t ∧ t.mem = links.foldl (link L) s.mem ∧
      t.get .sp = s.get .sp ∧ t.control = s.control := by
  have hfit := hL.tables_fit
  have hstep : ∀ (s : State) (off n : Nat) (disp : BitVec 32), s.control.paging = false →
      off % 0x1000 = 0 → off < 0x6000 → n < 6144 →
      half L.tables.toNat n = L.tables.toNat + off + 0x3 →
      disp = L.bootPml4 + BitVec.ofNat 32 (4 * n) →
      ∃ t, execAll Op.effect (linkTable (L.bootPml4 + BitVec.ofNat 32 off) disp) s = some t ∧
        t.mem = link L s.mem n ∧ t.get .sp = s.get .sp ∧ t.control = s.control := by
    intro s off n disp hs hoff hoff' hn hhalf hdisp
    refine ⟨_, effect_linkTable (s := s) hs _ _, ?_, by simp, rfl⟩
    rw [toNat_entry32 hL hoff hoff', ← hhalf, hdisp, Symbols.setWidth_add (by omega)]
    rfl
  obtain ⟨t₁, h₁, hm₁, hsp₁, hc₁⟩ := hstep s 0x1000 0 L.bootPml4 hs rfl (by decide) (by decide) rfl
    (BitVec.add_zero _).symm
  obtain ⟨t₂, h₂, hm₂, hsp₂, hc₂⟩ := hstep t₁ 0x2000 1024 L.bootPdpt (hc₁ ▸ hs) rfl (by decide)
    (by decide) (half_gigabyte _ (g := 0) (by decide)) rfl
  obtain ⟨t₃, h₃, hm₃, hsp₃, hc₃⟩ := hstep t₂ 0x3000 1026 (L.bootPdpt + 8) (hc₂ ▸ hc₁ ▸ hs) rfl
    (by decide) (by decide) (half_gigabyte _ (g := 1) (by decide)) (BitVec.add_assoc _ _ _)
  obtain ⟨t₄, h₄, hm₄, hsp₄, hc₄⟩ := hstep t₃ 0x4000 1028 (L.bootPdpt + 16)
    (hc₃ ▸ hc₂ ▸ hc₁ ▸ hs) rfl (by decide) (by decide) (half_gigabyte _ (g := 2) (by decide))
    (BitVec.add_assoc _ _ _)
  obtain ⟨t₅, h₅, hm₅, hsp₅, hc₅⟩ := hstep t₄ 0x5000 1030 (L.bootPdpt + 24)
    (hc₄ ▸ hc₃ ▸ hc₂ ▸ hc₁ ▸ hs) rfl (by decide) (by decide) (half_gigabyte _ (g := 3) (by decide))
    (BitVec.add_assoc _ _ _)
  refine ⟨t₅, ?_, ?_, by rw [hsp₅, hsp₄, hsp₃, hsp₂, hsp₁], by rw [hc₅, hc₄, hc₃, hc₂, hc₁]⟩
  · have h₂' := (execAll_append h₁).trans h₂
    have h₃' := (execAll_append h₂').trans h₃
    have h₄' := (execAll_append h₃').trans h₄
    exact (execAll_append h₄').trans h₅
  · rw [hm₅, hm₄, hm₃, hm₂, hm₁]
    rfl

/-- A return address on the stack. -/
theorem ofNat_load_label (hL : L.Linked) {k : Nat} (hk : k < 69) (m : Mem 64) (a : BitVec 64) :
    BitVec.ofNat 64 (load (store m a 4 (L.label k).toNat) a 4) = L.label k := by
  have hlt := hL.placed.toNat_place_lt (List.getElem?_eq_getElem (l := program L) hk)
  have hmod : (L.label k).toNat % 2 ^ (8 * 4) = (L.label k).toNat :=
    Nat.mod_eq_of_lt (Nat.lt_of_succ_le hlt)
  rw [load_store_same m a _ (by decide), hmod, BitVec.ofNat_toNat, BitVec.setWidth_eq]

/-- The word that a call from here pushes. -/
def pushed (s : State) : Set (BitVec 64) := extent ((s.get .sp - 4).setWidth 64) 4

/-- The arguments of the call for table `p`. -/
def fillArguments (L : Symbols) (p : Nat) : List Op :=
  [.movImm .di (L.bootPd p),
    if p = 0 then .xor .ax .ax else .movImm .ax (BitVec.ofNat 32 (p * 2 ^ 30))]

theorem effect_fillArguments (s : State) {p : Nat} (hp : p < 4) :
    ∃ t, execAll Op.effect (fillArguments L p) s = some t ∧
      t.get .ax = BitVec.ofNat 32 (p * 2 ^ 30) ∧ t.get .di = L.bootPd p ∧
      t.get .sp = s.get .sp ∧ t.mem = s.mem ∧ t.control = s.control := by
  by_cases hzero : p = 0
  · subst hzero
    refine ⟨_, rfl, ?_, by simp, by simp, rfl, rfl⟩
    simp
  · have harguments : fillArguments L p =
        [.movImm .di (L.bootPd p), .movImm .ax (BitVec.ofNat 32 (p * 2 ^ 30))] := by
      rw [fillArguments, if_neg hzero]
    rw [harguments]
    exact ⟨_, rfl, by simp, by simp, by simp, rfl, rfl⟩

/-- What a part of `setup_identity_map32` keeps. -/
structure KeepsStack (L : Symbols) (s t : State) : Prop where
  sp : t.get .sp = s.get .sp
  control : t.control = s.control
  frame : Set.EqOn t.mem s.mem (tableBytes L ∪ pushed s)ᶜ

/-- One call of `fill_pd32`. -/
theorem runs_fillTable (hL : L.Linked) {p : Nat} (hp : p < 4) {s : State} (hs : s.paging = false)
    (hpc : s.pc = L.label (37 + 3 * p)) (hapart : Disjoint (pushed s) (tableBytes L))
    (hbuilt : Built s.mem L.tables (2048 + 1024 * p)) :
    ∃ t, Runs (fetch (code L)) exec s t ∧ t.pc = L.label (37 + 3 * (p + 1)) ∧
      Built t.mem L.tables (2048 + 1024 * (p + 1)) ∧ KeepsStack L s t := by
  obtain ⟨u, heffect, hax, hdi, hsp, hmem, hcontrol⟩ := effect_fillArguments (L := L) s hp
  have hu : u.paging = false := (State.paging_of_control hcontrol).trans hs
  have hops : ((program L).drop (37 + 3 * p)).take 2 = (fillArguments L p).map .op := by
    interval_cases p <;> rfl
  have hcall : (program L)[37 + 3 * p + 2]? = some (.call (L.label 50)) := by
    interval_cases p <;> rfl
  have hload : ((fillArguments L p).any Op.loadsCr0) = false := by
    interval_cases p <;> rfl
  have harguments := hL.placed.opsUnpaged hs hload hops hpc heffect
  have hpush := hL.placed.call (s := u.jump (L.label (37 + 3 * p + 2))) hu rfl hcall
  have hslot : Disjoint (extent ((u.get .sp - 4).setWidth 64) 4) (tableBytes L) := by
    rw [hsp]
    exact hapart
  -- The pushed word is outside of the tables, so it is still there at the return.
  obtain ⟨t, hfill, htpc, htsp, htcontrol, htbuilt, htframe⟩ := runs_fillPd32 hL hp
    (s := ((u.jump (L.label (37 + 3 * p + 2))).setMem (store u.mem
      ((u.get .sp - 4).setWidth 64) 4 (L.label (37 + 3 * (p + 1))).toNat)).set .sp
        (u.get .sp - 4) |>.jump (L.label 50)) hu rfl (by simpa using hax) (by simpa using hdi) (by
      apply Built.of_eqOn (m := u.mem) (hmem ▸ hbuilt) (by omega)
      intro x hx
      exact store_of_not_inExtent fun hslot' => Set.disjoint_left.mp hslot hslot' hx)
  simp only [State.get_set, State.get_jump, if_true] at htpc htsp
  refine ⟨t, harguments.trans (hpush.trans hfill), ?_, htbuilt, ?_, ?_, ?_⟩
  · rw [htpc, load_of_eqOn (htframe.mono fun _ hx => Set.disjoint_left.mp hslot hx) (by decide)
      subset_rfl]
    exact ofNat_load_label hL (by omega) _ _
  · rw [htsp, hsp]
    exact BitVec.sub_add_cancel _ _
  · exact htcontrol.trans hcontrol
  · intro x hx
    have htable : x ∉ tableBytes L := fun h => hx (Or.inl h)
    have hstack : ¬ InExtent ((u.get .sp - 4).setWidth 64) 4 x := fun h => hx (Or.inr (by
      rw [pushed, ← hsp]
      exact h))
    rw [htframe htable, ← hmem]
    exact store_of_not_inExtent hstack

/-- **`setup_identity_map32`**: all six tables, and back to the address on the stack. -/
theorem runs_setupIdentityMap32 (hL : L.Linked) {s : State} (hs : s.paging = false)
    (hup : s.down = false) (hpc : s.pc = L.label 18)
    (hapart : Disjoint (pushed s) (tableBytes L)) :
    ∃ t, Runs (fetch (code L)) exec s t ∧
      t.pc = BitVec.ofNat 64 (load t.mem ((s.get .sp).setWidth 64) 4) ∧
      t.get .sp = s.get .sp + 4 ∧ t.control = s.control ∧ Built t.mem L.tables 6144 ∧
      Set.EqOn t.mem s.mem (tableBytes L ∪ pushed s)ᶜ := by
  have hclearArguments : execAll Op.effect
      [.movImm .di L.bootPml4, .movImm .cx 6144, .xor .ax .ax] s =
      some (((s.set .di L.bootPml4).set .cx 6144).set .ax
        (((s.set .di L.bootPml4).set .cx 6144).get .ax ^^^
          ((s.set .di L.bootPml4).set .cx 6144).get .ax)) := rfl
  have hhead := hL.placed.opsUnpaged (k := 18) hs rfl rfl hpc hclearArguments
  have hstart : Clearing L s 0 ((((s.set .di L.bootPml4).set .cx 6144).set .ax
      (((s.set .di L.bootPml4).set .cx 6144).get .ax ^^^
        ((s.set .di L.bootPml4).set .cx 6144).get .ax)).jump (L.label 21)) :=
    ⟨rfl, by simp, by simp, by simp, by simp, rfl, fun j hj => absurd hj (Nat.not_lt_zero j),
      Set.eqOn_refl _ _⟩
  obtain ⟨u, hclear, hu⟩ := Runs.loop (n := 6144) (Clearing L s)
    (fun i hi _ h => h.step hL hi hs hup) hstart
  have hupaging : u.paging = false := (State.paging_of_control hu.control).trans hs
  have hdone := hL.placed.repStosl_of_zero (k := 21) hupaging hu.pc rfl hu.cx
  obtain ⟨v, heffect, hvmem, hvsp, hvcontrol⟩ := effect_linkTables hL (s := u.jump (L.label 22))
    hupaging
  have hlink := hL.placed.opsUnpaged (k := 22) (s := u.jump (L.label 22)) hupaging rfl rfl rfl
    heffect
  have hbuilt : Built v.mem L.tables 2048 := by
    rw [hvmem]
    exact built_links hL hu.zero
  have hvframe : Set.EqOn v.mem s.mem (tableBytes L)ᶜ := by
    rw [hvmem]
    exact eqOn_links lt_of_mem_links hu.frame
  have hkeeps : KeepsStack L s (v.jump (L.label 37)) :=
    ⟨hvsp.trans hu.sp, hvcontrol.trans hu.control,
      hvframe.mono (Set.compl_subset_compl.mpr Set.subset_union_left)⟩
  have hstep : ∀ p < 4, ∀ t : State, (t.pc = L.label (37 + 3 * p) ∧
      Built t.mem L.tables (2048 + 1024 * p) ∧ KeepsStack L s t) →
      ∃ t', Runs (fetch (code L)) exec t t' ∧ t'.pc = L.label (37 + 3 * (p + 1)) ∧
        Built t'.mem L.tables (2048 + 1024 * (p + 1)) ∧ KeepsStack L s t' := by
    rintro p hp t ⟨htpc, htbuilt, ht⟩
    have hsame : pushed t = pushed s := by rw [pushed, pushed, ht.sp]
    obtain ⟨t', hrun, hpc', hbuilt', h'⟩ := runs_fillTable hL hp
      ((State.paging_of_control ht.control).trans hs) htpc (hsame ▸ hapart) htbuilt
    exact ⟨t', hrun, hpc', hbuilt', h'.sp.trans ht.sp, h'.control.trans ht.control,
      fun x hx => (h'.frame (hsame ▸ hx)).trans (ht.frame hx)⟩
  obtain ⟨w, hfill, hwpc, hwbuilt, hw⟩ := Runs.loop (n := 4) (s := v.jump (L.label 37))
    (fun p t => t.pc = L.label (37 + 3 * p) ∧ Built t.mem L.tables (2048 + 1024 * p) ∧
      KeepsStack L s t) hstep ⟨rfl, hbuilt, hkeeps⟩
  have hret := hL.placed.ret (k := 49) ((State.paging_of_control hw.control).trans hs) hwpc rfl
  refine ⟨_, hhead.trans (hclear.trans (hdone.trans (hlink.trans (hfill.trans hret)))), ?_, ?_,
    hw.control, hwbuilt, hw.frame⟩
  · rw [← hw.sp]
    rfl
  · simp [hw.sp]

end Setup

end EntryX86
end Boot
end Saski
