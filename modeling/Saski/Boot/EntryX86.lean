import Saski.Boot.IdentityMap32

/-!
# From the loader to `kernel_boot` (`kernel/boot.S`)

The whole path of the x86-64 entry: the boot arguments are recorded, the identity map is
built (`IdentityMap32`), paging and long mode are turned on under it, the far jump and the
segment loads go through the descriptor table of the file, and `kernel_boot` is called on
the kernel's own stack.

* `Loaded`: what the code expects of the loader.
* `Mapped`: paging is on, so that every address below 4 GiB still means itself.
* `start_enters_longMode`: the machine in front of the first instruction of C.
-/

namespace Saski
namespace Boot
namespace EntryX86

open ByteMemory X86 CodeRun

variable {L : Symbols}

/-! ## Where the machine starts -/

namespace Symbols

variable (L : Symbols)

/-- `gdt64` -/
def gdt : BitVec 64 := L.tables + BitVec.ofNat 64 0x16000

/-- `_g_xnu_boot_args_addr` -/
def bootArgs : BitVec 64 := L.tables + BitVec.ofNat 64 L.bootArgsOffset

def bootArgsBytes : Set (BitVec 64) := extent L.bootArgs 4

/-- The descriptors and the pointer to them. -/
def gdtBytes : Set (BitVec 64) := extent L.gdt 30

/-- The top of the stack of the kernel. -/
def stackBytes : Set (BitVec 64) := extent (L.tables + BitVec.ofNat 64 0x15FF8) 8

end Symbols

/-- The stack that the loader set up, as far as the 32-bit code uses it. -/
def loaderStack (s : State) : Set (BitVec 64) := extent ((s.get .sp - 8).setWidth 64) 8

/-- `gdt64_code` -/
def codeDescriptor : Nat := 0x00AF9A000000FFFF

/-- `gdt64_data`, and the same after its first use -/
def dataDescriptor : Nat := 0x00AF92000000FFFF

def dataDescriptorUsed : Nat := 0x00AF93000000FFFF

/-- The machine as the loader leaves it: protected mode without paging, the image in memory,
and a few bytes of stack apart from what the code writes. -/
structure Loaded (L : Symbols) (s : State) : Prop where
  pc : s.pc = L.label 0
  protectedMode : s.cr0.getLsbD 0 = true
  unpaged : s.paging = false
  code32 : s.csLong = false
  up : s.down = false
  room : 8 ≤ (s.get .sp).toNat
  tables : Disjoint (loaderStack s) (tableBytes L)
  gdt : Disjoint (loaderStack s) L.gdtBytes
  bootArgs : Disjoint (loaderStack s) L.bootArgsBytes
  codeDescriptor : load s.mem (L.gdt + BitVec.ofNat 64 8) 8 = EntryX86.codeDescriptor
  dataDescriptor : load s.mem (L.gdt + BitVec.ofNat 64 16) 8 = EntryX86.dataDescriptor
  pointer : load s.mem (L.gdt + BitVec.ofNat 64 24) 6 = 23 + L.gdt.toNat * 2 ^ 16

section Start

theorem Symbols.Linked.bootArgs_lt (hL : L.Linked) :
    L.tables.toNat + L.bootArgsOffset + 4 ≤ 2 ^ 32 ∧ 0x16020 ≤ L.bootArgsOffset := by
  refine ⟨Symbols.toNat_tables (L := L) ▸ hL.data, ?_⟩
  unfold Symbols.bootArgsOffset
  omega

/-- Parts of `.data` are apart. -/
theorem disjoint_data {off n off' n' : Nat} (h : off + n ≤ off') (hfit : off' + n' ≤ 2 ^ 32) :
    Disjoint (extent (L.tables + BitVec.ofNat 64 off) n)
      (extent (L.tables + BitVec.ofNat 64 off') n') :=
  Set.disjoint_left.mpr (separate_of_le h (by omega))

theorem disjoint_tables {off n : Nat} (h : 0x6000 ≤ off) (hfit : off + n ≤ 2 ^ 32) :
    Disjoint (tableBytes L) (extent (L.tables + BitVec.ofNat 64 off) n) := by
  have hdata : Disjoint (extent (L.tables + BitVec.ofNat 64 0) 0x6000)
      (extent (L.tables + BitVec.ofNat 64 off) n) := disjoint_data (by omega) hfit
  have hzero : L.tables + BitVec.ofNat 64 0 = L.tables := BitVec.add_zero _
  rw [hzero] at hdata
  exact hdata

/-- The two words of the loader's stack. -/
theorem loaderStack_words {s : State} (hroom : 8 ≤ (s.get .sp).toNat) :
    (s.get .sp - 4).setWidth 64 = (s.get .sp - 8).setWidth 64 + BitVec.ofNat 64 4 ∧
      s.get .sp - 4 - 4 = s.get .sp - 8 := by
  have hsub : (s.get .sp - 8).toNat = (s.get .sp).toNat - 8 :=
    BitVec.toNat_sub_of_le (BitVec.le_def.mpr hroom)
  have hlt := (s.get .sp).isLt
  refine ⟨?_, by bv_omega⟩
  rw [← setWidth_add_ofNat (by omega)]
  congr 1
  bv_omega

theorem words_apart (a : BitVec 64) : Separate a 4 (a + BitVec.ofNat 64 4) 4 := by
  have hzero : a + BitVec.ofNat 64 0 = a := BitVec.add_zero a
  have hapart := separate_of_le (a := a) (show 0 + 4 ≤ 4 by decide) (show 4 + 4 ≤ 2 ^ 64 by decide)
  rw [hzero] at hapart
  exact hapart

theorem effect_recordBootArgs {s : State} (hs : s.paging = false) :
    execAll Op.effect (recordBootArgs L) s =
      some { (s.set .bx L.gXnuBootArgsAddr).setMem
        (store s.mem ((L.gXnuBootArgsAddr + 0).setWidth 64) 4 (s.get .ax).toNat) with
        interrupts := false } := by
  have hmov : (Op.movImm .bx L.gXnuBootArgsAddr).effect s =
      some (s.set .bx L.gXnuBootArgsAddr) := rfl
  rw [recordBootArgs, execAll, hmov, Option.bind_some, execAll, effect_store (by exact hs),
    Option.bind_some, State.get_set, if_pos rfl, State.get_set, if_neg (by decide)]
  rfl

/-- What the 32-bit code writes. -/
def written32 (L : Symbols) (s : State) : Set (BitVec 64) :=
  tableBytes L ∪ L.bootArgsBytes ∪ loaderStack s

/-- Up to the return from `setup_identity_map32`. -/
theorem runs_recordAndMap (hL : L.Linked) {s : State} (h : Loaded L s) :
    ∃ t, Runs (fetch (code L)) exec s t ∧ t.pc = L.label 4 ∧ Built t.mem L.tables 6144 ∧
      load t.mem L.bootArgs 4 = (s.get .ax).toNat ∧
      t.control = { s with interrupts := false }.control ∧
      Set.EqOn t.mem s.mem (written32 L s)ᶜ := by
  obtain ⟨hfit, hoff⟩ := hL.bootArgs_lt
  obtain ⟨hhigh, hlow⟩ := loaderStack_words h.room
  have hargs : (L.gXnuBootArgsAddr + 0).setWidth 64 = L.bootArgs := by
    rw [Symbols.bootArgs, ← Symbols.setWidth_add (by omega)]
    exact congrArg _ (BitVec.add_zero _)
  have hrecord := hL.placed.opsUnpaged (k := 0) h.unpaged rfl rfl h.pc
    (effect_recordBootArgs h.unpaged)
  rw [hargs] at hrecord
  obtain ⟨a, ha⟩ : ∃ a : State, a = State.jump { (s.set .bx L.gXnuBootArgsAddr).setMem
    (store s.mem L.bootArgs 4 (s.get .ax).toNat) with interrupts := false } (L.label 3) := ⟨_, rfl⟩
  have hamem : a.mem = store s.mem L.bootArgs 4 (s.get .ax).toNat := by rw [ha]; rfl
  have hasp : a.get .sp = s.get .sp := by
    rw [ha]
    change (s.set .bx L.gXnuBootArgsAddr).get .sp = _
    simp
  have hacontrol : a.control = { s with interrupts := false }.control := by rw [ha]; rfl
  have hapaging : a.paging = false := by rw [ha]; exact h.unpaged
  have hadown : a.down = false := by rw [ha]; exact h.up
  have hcall := hL.placed.call (k := 3) hapaging (by rw [ha]; rfl) rfl
  rw [hasp, hhigh, hamem] at hcall
  obtain ⟨b, hb⟩ : ∃ b : State, b = ((a.setMem (store (store s.mem L.bootArgs 4
    (s.get .ax).toNat) ((s.get .sp - 8).setWidth 64 + BitVec.ofNat 64 4) 4
      (L.label 4).toNat)).set .sp (s.get .sp - 4)).jump (L.label 18) := ⟨_, rfl⟩
  have hbsp : b.get .sp = s.get .sp - 4 := by rw [hb]; simp
  have hbmem : b.mem = store (store s.mem L.bootArgs 4 (s.get .ax).toNat)
      ((s.get .sp - 8).setWidth 64 + BitVec.ofNat 64 4) 4 (L.label 4).toNat := by rw [hb]; rfl
  have hbcontrol : b.control = a.control := by rw [hb]; rfl
  have hslot : pushed b = extent ((s.get .sp - 8).setWidth 64) 4 := by rw [pushed, hbsp, hlow]
  have hslotStack : pushed b ⊆ loaderStack s := hslot ▸ extent_mono _ (by decide)
  have hreturnStack : extent ((s.get .sp - 8).setWidth 64 + BitVec.ofNat 64 4) 4 ⊆
      loaderStack s := extent_add_subset _ _ (by decide)
  obtain ⟨t, hsetup, htpc, -, htcontrol, htbuilt, htframe⟩ := runs_setupIdentityMap32 hL (s := b)
    (by rw [hb]; exact hapaging) (by rw [hb]; exact hadown) (by rw [hb]; rfl)
    (h.tables.mono_left hslotStack)
  refine ⟨t, hrecord.trans ?_, ?_, htbuilt, ?_, htcontrol.trans (hbcontrol.trans hacontrol), ?_⟩
  · rw [ha] at hcall
    rw [hb, ha] at hsetup
    exact hcall.trans hsetup
  · -- The return address is on the loader's stack, above the word of the inner call.
    have houtside : extent ((s.get .sp - 8).setWidth 64 + BitVec.ofNat 64 4) 4 ⊆
        (tableBytes L ∪ pushed b)ᶜ := by
      intro x hx hmem
      rcases hmem with htable | hpushed
      · exact Set.disjoint_left.mp h.tables (hreturnStack hx) htable
      · rw [hslot] at hpushed
        exact words_apart _ x hpushed hx
    rw [htpc, hbsp, hhigh, load_of_eqOn htframe (by decide) houtside, hbmem]
    exact ofNat_load_label hL (by decide) _ _
  · have houtside : L.bootArgsBytes ⊆ (tableBytes L ∪ pushed b)ᶜ := by
      intro x hx hmem
      rcases hmem with htable | hpushed
      · exact Set.disjoint_left.mp (disjoint_tables (by omega) (by omega)) htable hx
      · exact Set.disjoint_left.mp h.bootArgs (hslotStack hpushed) hx
    have hapart : Separate L.bootArgs 4 ((s.get .sp - 8).setWidth 64 + BitVec.ofNat 64 4) 4 :=
      fun x hx hx' => Set.disjoint_left.mp h.bootArgs (hreturnStack hx') hx
    rw [load_of_eqOn htframe (by decide) houtside, hbmem, load_store_separate (by decide) hapart,
      load_store_same _ _ _ (by decide), Nat.mod_eq_of_lt (s.get .ax).isLt]
  · intro x hx
    have houtside : x ∈ (tableBytes L ∪ pushed b)ᶜ := by
      rintro (htable | hpushed)
      · exact hx (Or.inl (Or.inl htable))
      · exact hx (Or.inr (hslotStack hpushed))
    rw [htframe houtside, hbmem,
      store_of_not_inExtent fun hstack => hx (Or.inr (hreturnStack hstack)),
      store_of_not_inExtent fun hbytes => hx (Or.inl (Or.inr hbytes))]

end Start

/-! ## Into long mode -/

section LongMode

variable {s : State} (hs : s.paging = false)

include hs

/-- Bits are set in a control register, in `eax`. -/
theorem effect_orCr (c : Cr) (imm : BitVec 32) :
    execAll Op.effect [.movFromCr .ax c, .orImm .ax imm] s =
      some (s.set .ax ((s.getCr c).setWidth 32 ||| imm)) := by
  have hmov : (Op.movFromCr .ax c).effect s = some (s.set .ax ((s.getCr c).setWidth 32)) := by
    rw [Op.effect, s.wide_of_unpaged hs, if_neg (by decide)]
  rw [execAll, hmov, Option.bind_some, execAll, Op.effect, Option.bind_some, execAll, State.get_set,
    if_pos rfl]
  simp only [State.set, State.setReg, Function.update_idem]

theorem effect_enablePae :
    ∃ t, execAll Op.effect [.movFromCr .ax .cr4, .orImm .ax 0x20, .movToCr .cr4 .ax] s = some t ∧
      t.mem = s.mem ∧
      t.control = { s.control with cr4 := (s.cr4.setWidth 32 ||| 0x20).setWidth 64 } := by
  have hto : ∀ u : State, u.paging = false → (Op.movToCr .cr4 .ax).effect u =
      some { u with cr4 := (u.get .ax).setWidth 64 } := by
    intro u hu
    rw [Op.effect, State.word, u.wide_of_unpaged hu, if_neg (by decide), State.setCr,
      if_neg (by simp [State.longActive, hu])]
  refine ⟨{ s.set .ax (s.cr4.setWidth 32 ||| 0x20) with
    cr4 := (s.cr4.setWidth 32 ||| 0x20).setWidth 64 },
    (execAll_append (effect_orCr hs .cr4 0x20)).trans ?_, rfl, rfl⟩
  rw [execAll, hto _ (by exact hs), Option.bind_some, execAll, State.get_set, if_pos rfl]
  rfl

theorem effect_loadCr3 :
    ∃ t, execAll Op.effect [.movImm .ax L.bootPml4, .movToCr .cr3 .ax] s = some t ∧
      t.mem = s.mem ∧ t.control = { s.control with cr3 := L.tables } := by
  have hto : (Op.movToCr .cr3 .ax).effect (s.set .ax L.bootPml4) =
      some { s.set .ax L.bootPml4 with cr3 := L.tables } := by
    rw [Op.effect, State.word, State.wide_of_unpaged (by exact hs), if_neg (by decide),
      State.get_set, if_pos rfl]
    rfl
  refine ⟨{ s.set .ax L.bootPml4 with cr3 := L.tables }, ?_, rfl, rfl⟩
  rw [execAll, Op.effect, Option.bind_some, execAll, hto, Option.bind_some, execAll]

theorem effect_enableLme :
    ∃ t, execAll Op.effect [.movImm .cx 0xC0000080, .rdmsr, .orImm .ax 0x100, .wrmsr] s = some t ∧
      t.mem = s.mem ∧ t.control = { s.control with
        efer := s.efer.extractLsb' 32 32 ++ (s.efer.setWidth 32 ||| 0x100#32) } := by
  obtain ⟨a, ha⟩ : ∃ a : State, a = s.set .cx eferNumber := ⟨_, rfl⟩
  obtain ⟨b, hb⟩ : ∃ b : State, b = ((a.set .ax (a.efer.setWidth 32)).set .dx
    (a.efer.extractLsb' 32 32)).set .ax (a.efer.setWidth 32 ||| 0x100) := ⟨_, rfl⟩
  have hread : Op.rdmsr.effect a = some ((a.set .ax (a.efer.setWidth 32)).set .dx
      (a.efer.extractLsb' 32 32)) := by
    rw [Op.effect, if_pos (by rw [ha]; simp)]
  have hor : (Op.orImm .ax 0x100).effect ((a.set .ax (a.efer.setWidth 32)).set .dx
      (a.efer.extractLsb' 32 32)) = some b := by
    rw [Op.effect, hb]
    simp
  have hpaging : b.paging = false := by
    rw [hb, ha]
    exact hs
  have hcx : b.get .cx = eferNumber := by
    rw [hb, ha]
    simp
  have hwrite : Op.wrmsr.effect b = some { b with efer := b.get .dx ++ b.get .ax } := by
    rw [Op.effect]
    exact if_neg (by simp [hpaging, hcx])
  refine ⟨{ b with efer := b.get .dx ++ b.get .ax }, ?_, ?_, ?_⟩
  · have hmov : (Op.movImm .cx 0xC0000080).effect s = some a := by
      rw [ha]
      rfl
    rw [execAll, hmov, Option.bind_some, execAll, hread, Option.bind_some, execAll, hor,
      Option.bind_some, execAll, hwrite, Option.bind_some, execAll]
  · rw [hb, ha]
    rfl
  · have hefer : b.get .dx ++ b.get .ax =
        s.efer.extractLsb' 32 32 ++ (s.efer.setWidth 32 ||| 0x100#32) := by
      rw [hb, ha]
      simp only [State.get_set, reduceCtorEq, if_true, if_false]
      rfl
    rw [hefer, hb, ha]
    rfl

/-- Ready for paging: the tables are loaded and long mode is enabled. -/
theorem effect_enableLongMode :
    ∃ t, execAll Op.effect (enableLongMode L) s = some t ∧
      t.get .ax = s.cr0.setWidth 32 ||| 0x80000000 ∧ t.mem = s.mem ∧
      t.control = { s.control with
        cr3 := L.tables
        cr4 := (s.cr4.setWidth 32 ||| 0x20).setWidth 64
        efer := s.efer.extractLsb' 32 32 ++ (s.efer.setWidth 32 ||| 0x100#32) } := by
  obtain ⟨t₁, h₁, hm₁, hc₁⟩ := effect_enablePae hs
  obtain ⟨t₂, h₂, hm₂, hc₂⟩ := effect_loadCr3 (L := L) (s := t₁) (by
    have hpaging : t₁.control.paging = s.paging := by rw [hc₁]; rfl
    exact hpaging.trans hs)
  rw [hc₁] at hc₂
  obtain ⟨t₃, h₃, hm₃, hc₃⟩ := effect_enableLme (s := t₂) (by
    have hpaging : t₂.control.paging = s.paging := by rw [hc₂]; rfl
    exact hpaging.trans hs)
  have hefer : t₂.efer = s.efer := by
    have hefer : t₂.control.efer = s.efer := by rw [hc₂]; rfl
    exact hefer
  rw [hc₂, hefer] at hc₃
  have hcr0 : t₃.cr0 = s.cr0 := by
    have hcr0 : t₃.control.cr0 = s.cr0 := by rw [hc₃]; rfl
    exact hcr0
  have hpaging : t₃.paging = false := by
    rw [State.paging, hcr0]
    exact hs
  have h₂' := (execAll_append h₁).trans h₂
  have h₃' := (execAll_append h₂').trans h₃
  refine ⟨_, (execAll_append h₃').trans (effect_orCr hpaging .cr0 0x80000000), ?_, ?_, ?_⟩
  · rw [State.get_set, if_pos rfl, ← hcr0]
    rfl
  · exact hm₃.trans (hm₂.trans hm₁)
  · exact hc₃

end LongMode

section Paging

/-- Paging is on, with the six tables. -/
structure Mapped (L : Symbols) (s : State) : Prop where
  active : s.longActive = true
  top : s.pml4 = L.tables
  built : Built s.mem L.tables 6144

theorem Mapped.translate (hL : L.Linked) {s : State} (h : Mapped L s) {v : Nat} (hv : v < 2 ^ 48) :
    X86Paging.translate s.mem s.pml4 v = if v < 2 ^ 32 then some ⟨v, true⟩ else none := by
  have hfit := hL.tables_fit
  have halign : L.tables.toNat % 2 ^ 12 = 0 := Symbols.toNat_tables (L := L) ▸ hL.align
  rw [h.top]
  exact translate_of_built h.built halign (by omega) hv

theorem Mapped.plain (hL : L.Linked) {s : State} (h : Mapped L s) : Plain s := by
  apply plain_of_identity h.active
  intro v hv
  rw [h.translate hL (by omega), if_pos hv]

/-- Paging is switched on. -/
theorem runs_enterLongMode (hL : L.Linked) {s : State} (hs : s.paging = false)
    (hprotected : s.cr0.getLsbD 0 = true) (hcode : s.csLong = false) (hpc : s.pc = L.label 4)
    (hbuilt : Built s.mem L.tables 6144) :
    ∃ t, Runs (fetch (code L)) exec s t ∧ t.pc = L.label 16 ∧ Mapped L t ∧ t.csLong = false ∧
      t.mem = s.mem ∧ t.interrupts = s.interrupts := by
  obtain ⟨u, heffect, hax, hmem, hcontrol⟩ := effect_enableLongMode (L := L) hs
  have hrun := hL.placed.opsUnpaged (k := 4) hs rfl rfl hpc heffect
  have hcr0 : u.cr0 = s.cr0 := by
    have hcr0 := congrArg State.cr0 hcontrol
    exact hcr0
  have hcr3 : u.cr3 = L.tables := congrArg State.cr3 hcontrol
  have hpae : u.pae = true := by
    have hcr4 : u.cr4 = (s.cr4.setWidth 32 ||| 0x20).setWidth 64 := congrArg State.cr4 hcontrol
    rw [State.pae, hcr4]
    simp
  have hlong : u.longEnabled = true := by
    have hefer : u.efer = s.efer.extractLsb' 32 32 ++ (s.efer.setWidth 32 ||| 0x100#32) :=
      congrArg State.efer hcontrol
    rw [State.longEnabled, hefer, BitVec.getLsbD_append]
    simp
  have hucode : u.csLong = false := (congrArg State.csLong hcontrol).trans hcode
  have hupaging : u.paging = false := by
    rw [State.paging, hcr0]
    exact hs
  obtain ⟨v, hv⟩ : ∃ v, v = BitVec.setWidth 64 (s.cr0.setWidth 32 ||| 0x80000000) := ⟨_, rfl⟩
  have hbit31 : v.getLsbD 31 = true := by rw [hv]; simp
  have hbit0 : v.getLsbD 0 = true := by rw [hv]; simp [hprotected]
  have hload : (Op.movToCr .cr0 .ax).effect u = some { u with cr0 := v } := by
    rw [Op.effect, State.word, u.wide_of_unpaged hupaging, if_neg (by decide), hax, ← hv,
      State.setCr, if_neg (by simp [hbit0, hpae, hucode])]
  have hstep : Runs (fetch (code L)) exec (u.jump (L.label 15))
      (State.jump { u with cr0 := v } (L.label 16)) := by
    apply hL.placed.step (s := u.jump (L.label 15)) (k := 15) (i := .op (.movToCr .cr0 .ax))
      (plain_of_unpaged hupaging) rfl rfl
    intro n hn
    rw [exec, Op.effect_jump, hload, hn]
    rfl
  have hfit := hL.tables_fit
  have halign : L.tables.toNat % 2 ^ 12 = 0 := Symbols.toNat_tables (L := L) ▸ hL.align
  have htop : X86Paging.frame 12 (L.tables.toNat + 0) = L.tables.toNat :=
    X86Paging.frame_add_flags le_rfl halign (by omega) (by decide) (by decide)
  rw [Nat.add_zero] at htop
  refine ⟨_, hrun.trans hstep, rfl, ⟨?_, ?_, ?_⟩, hucode, hmem, ?_⟩
  · exact Bool.and_eq_true_iff.mpr ⟨hbit31, hlong⟩
  · change BitVec.ofNat 64 (X86Paging.frame 12 u.cr3.toNat) = L.tables
    rw [hcr3, htop, BitVec.ofNat_toNat, BitVec.setWidth_eq]
  · change Built u.mem L.tables 6144
    rw [hmem]
    exact hbuilt
  · have hinterrupts := congrArg State.interrupts hcontrol
    exact hinterrupts

end Paging

section FarJump

/-- A byte of the descriptor table. -/
theorem toNat_gdt (hL : L.Linked) {n : Nat} (hn : n < 0x20) :
    (L.gdt + BitVec.ofNat 64 n).toNat = L.tables.toNat + 0x16000 + n := by
  have hfit := hL.tables_fit
  rw [Symbols.gdt, BitVec.add_assoc, ← BitVec.ofNat_add, toNat_add_ofNat (by omega)]
  omega

theorem disjoint_gdt {n k : Nat} (hfit : n + k ≤ 0x20) :
    Disjoint (tableBytes L) (extent (L.gdt + BitVec.ofNat 64 n) k) := by
  rw [Symbols.gdt, BitVec.add_assoc, ← BitVec.ofNat_add]
  exact disjoint_tables (by omega) (by omega)

/-- `lgdt` and the far jump. -/
theorem runs_farJump (hL : L.Linked) {s : State} (h : Mapped L s) (hcode : s.csLong = false)
    (hpc : s.pc = L.label 16)
    (hdescriptor : load s.mem (L.gdt + BitVec.ofNat 64 8) 8 = codeDescriptor)
    (hpointer : load s.mem (L.gdt + BitVec.ofNat 64 24) 6 = 23 + L.gdt.toNat * 2 ^ 16) :
    ∃ t, Runs (fetch (code L)) exec s t ∧
      t = { s with
        pc := L.label 58
        mem := ByteMemory.store s.mem (L.gdt + BitVec.ofNat 64 13) 1 0x9B
        gdtLimit := 23
        gdtBase := L.gdt
        cs := 0x08
        csLong := true } := by
  have hwide : s.wide = false := by rw [State.wide, hcode, Bool.and_false]
  have hplain := h.plain hL
  have hoperand : s.operand 0 L.gdt64Pointer = L.gdt + BitVec.ofNat 64 24 := by
    have hfit := hL.tables_fit
    have haddr : L.gdt64Pointer.setWidth 64 = L.tables + BitVec.ofNat 64 0x16018 :=
      Symbols.setWidth_add (n := 0x16018) (by omega)
    rw [State.operand, hwide, if_neg (by decide), Symbols.gdt, BitVec.add_assoc]
    exact (congrArg _ (BitVec.zero_add _)).trans haddr
  have hgdt : L.gdt.toNat < 2 ^ 32 := by
    have hgdt := toNat_gdt hL (n := 0) (by decide)
    have hfit := hL.tables_fit
    have hzero : L.gdt + BitVec.ofNat 64 0 = L.gdt := BitVec.add_zero _
    rw [hzero] at hgdt
    omega
  have hlgdt : (Op.lgdt L.gdt64Pointer).effect s =
      some { s with gdtLimit := 23, gdtBase := L.gdt } := by
    have hlimit : (23 + L.gdt.toNat * 2 ^ 16) % 2 ^ 16 = 23 := by omega
    have hbase : (23 + L.gdt.toNat * 2 ^ 16) / 2 ^ 16 = L.gdt.toNat := by omega
    have hlow := toNat_gdt hL (n := 24) (by decide)
    have hfit := hL.tables_fit
    rw [Op.effect, hwide, if_neg (by decide), hoperand, hplain.read (by decide) (by omega),
      hpointer, Option.map_some, hlimit, hbase, BitVec.ofNat_toNat, BitVec.setWidth_eq]
  obtain ⟨u, hu⟩ : ∃ u : State, u = State.jump { s with gdtLimit := 23, gdtBase := L.gdt }
    (L.label 17) := ⟨_, rfl⟩
  have hplainU : Plain u := hu ▸ hplain
  have hfirst : Runs (fetch (code L)) exec s u := by
    apply hL.placed.step (k := 16) (i := .op (.lgdt L.gdt64Pointer)) hplain hpc rfl
    intro n hn
    rw [exec, hlgdt, hn, hu]
    rfl
  have hload : u.descriptor 0x08 isCode = some (codeDescriptor,
      ByteMemory.store s.mem (L.gdt + BitVec.ofNat 64 13) 1 0x9B) := by
    have hlow := toNat_gdt hL (n := 8) (by decide)
    have hfit := hL.tables_fit
    have hbyte : L.gdt + BitVec.ofNat 64 8 + 5 = L.gdt + BitVec.ofNat 64 13 :=
      BitVec.add_assoc _ _ _
    rw [State.descriptor_eq hplainU (a := L.gdt + BitVec.ofNat 64 8) (d := codeDescriptor)
      (by decide) (by decide) (by rw [hu]; exact (show 15 ≤ 23 by decide)) (by rw [hu]; rfl)
      (by omega) (by rw [hu]; exact hdescriptor) (by decide), hbyte, hu]
    rfl
  have hlabel : ((L.label 58).setWidth 32).setWidth 64 = L.label 58 := by
    have hlt := hL.placed.toNat_place_lt (k := 58) rfl
    apply BitVec.eq_of_toNat_eq
    rw [BitVec.toNat_setWidth_of_le (by decide), BitVec.toNat_setWidth]
    exact Nat.mod_eq_of_lt (Nat.lt_of_succ_le hlt)
  have hsecond : Runs (fetch (code L)) exec u { s with
      pc := L.label 58
      mem := ByteMemory.store s.mem (L.gdt + BitVec.ofNat 64 13) 1 0x9B
      gdtLimit := 23
      gdtBase := L.gdt
      cs := 0x08
      csLong := true } := by
    apply hL.placed.step (k := 17) (i := .ljmp 0x08 ((L.label 58).setWidth 32)) hplainU
      (by rw [hu]; rfl) rfl
    intro n _
    have huwide : u.wide = false := by rw [hu]; exact hwide
    have hactive : u.longActive = true := by rw [hu]; exact h.active
    have hlong : codeDescriptor.testBit 53 = true := by decide
    rw [exec, huwide, if_neg (by decide), hload, Option.map_some, hactive, hlabel, hu]
    simp only [hlong, Bool.and_self]
    rfl
  exact ⟨_, hfirst.trans hsecond, rfl⟩

end FarJump

section Segments

/-- The segment registers in the order of their loads. -/
def segOf : Nat → Seg
  | 0 => .ds
  | 1 => .es
  | 2 => .ss
  | 3 => .fs
  | _ => .gs

/-- After `i` loads of segment registers. -/
structure Loading (L : Symbols) (s₀ : State) (i : Nat) (s : State) : Prop where
  pc : s.pc = L.label (59 + i)
  ax : (s.reg .ax).setWidth 16 = 0x10#16
  mapped : Mapped L s
  csLong : s.csLong = true
  cs : s.cs = s₀.cs
  gdtBase : s.gdtBase = L.gdt
  gdtLimit : s.gdtLimit = 23
  interrupts : s.interrupts = s₀.interrupts
  descriptor : load s.mem (L.gdt + BitVec.ofNat 64 16) 8 = dataDescriptor ∨
    load s.mem (L.gdt + BitVec.ofNat 64 16) 8 = dataDescriptorUsed
  loaded : ∀ j < i, s.seg (segOf j) = 0x10#16
  frame : Set.EqOn s.mem s₀.mem (extent (L.gdt + BitVec.ofNat 64 21) 1)ᶜ

/-- The byte with the accessed bit, in the middle of the descriptor. -/
theorem load_descriptor_used {m : Mem 64} {a : BitVec 64} (h : load m a 8 = dataDescriptor) :
    load (store m (a + BitVec.ofNat 64 5) 1 (dataDescriptor / 2 ^ 40 % 256 ||| 1)) a 8 =
      dataDescriptorUsed := by
  have hsplit : ∀ m : Mem 64, load m a 8 = load m a 5 +
      (load m (a + BitVec.ofNat 64 5) 1 + load m (a + BitVec.ofNat 64 6) 2 * 2 ^ 8) * 2 ^ 40 := by
    intro m
    rw [load_add m a 5 3, load_add m (a + BitVec.ofNat 64 5) 1 2, BitVec.add_assoc]
    rfl
  have hzero : a + BitVec.ofNat 64 0 = a := BitVec.add_zero a
  have hbelow : Separate a 5 (a + BitVec.ofNat 64 5) 1 := by
    have hapart := separate_of_le (a := a) (show 0 + 5 ≤ 5 by decide)
      (show 5 + 1 ≤ 2 ^ 64 by decide)
    rw [hzero] at hapart
    exact hapart
  have habove : Separate (a + BitVec.ofNat 64 6) 2 (a + BitVec.ofNat 64 5) 1 :=
    (separate_of_le (show 5 + 1 ≤ 6 by decide) (show 6 + 2 ≤ 2 ^ 64 by decide)).symm
  have hvalue : (dataDescriptor / 2 ^ 40 % 256 ||| 1) % 2 ^ (8 * 1) = 0x93 := by decide
  have hold := hsplit m
  have hlow := load_lt m a 5
  have hbyte := load_lt m (a + BitVec.ofNat 64 5) 1
  rw [h, dataDescriptor] at hold
  rw [hsplit, load_store_separate (by decide) hbelow, load_store_separate (by decide) habove,
    load_store_same m _ _ (by decide), hvalue, dataDescriptorUsed]
  omega

theorem Loading.step (hL : L.Linked) {s₀ s : State} {i : Nat} (hi : i < 5)
    (h : Loading L s₀ i s) :
    ∃ t, Runs (fetch (code L)) exec s t ∧ Loading L s₀ (i + 1) t := by
  have hplain := h.mapped.plain hL
  have hlow := toNat_gdt hL (n := 16) (by decide)
  have hfit := hL.tables_fit
  have hbyte : L.gdt + BitVec.ofNat 64 16 + 5 = L.gdt + BitVec.ofNat 64 21 :=
    BitVec.add_assoc _ _ _
  -- The first load sets the accessed bit, the others find it set.
  have hload : ∃ d m, s.descriptor 0x10#16 isData = some (d, m) ∧
      load m (L.gdt + BitVec.ofNat 64 16) 8 = dataDescriptorUsed ∧
      Set.EqOn m s.mem (extent (L.gdt + BitVec.ofNat 64 21) 1)ᶜ := by
    rcases h.descriptor with hfresh | hused
    · refine ⟨_, _, State.descriptor_eq hplain (d := dataDescriptor) (by decide) (by decide)
        (h.gdtLimit ▸ (by decide)) (by rw [h.gdtBase]; rfl) (by omega) hfresh (by decide), ?_, ?_⟩
      · rw [if_neg (by decide)]
        exact load_descriptor_used hfresh
      · rw [if_neg (by decide), hbyte]
        exact eqOn_store (Set.eqOn_refl _ _) subset_rfl _
    · refine ⟨_, _, State.descriptor_eq hplain (d := dataDescriptorUsed) (by decide) (by decide)
        (h.gdtLimit ▸ (by decide)) (by rw [h.gdtBase]; rfl) (by omega) hused (by decide), ?_, ?_⟩
      · rw [if_pos (by decide)]
        exact hused
      · rw [if_pos (by decide)]
        exact Set.eqOn_refl _ _
  obtain ⟨d, m, hd, hused, hframe⟩ := hload
  have hinstr : (program L)[59 + i]? = some (.op (.movToSeg (segOf i) .ax)) := by
    interval_cases i <;> rfl
  have hload' : (Op.movToSeg (segOf i) .ax).effect s = some { s with
      mem := m
      seg := Function.update s.seg (segOf i) 0x10#16 } := by
    rw [Op.effect]
    simp only [h.ax]
    rw [hd, Option.map_some]
  have hstep : Runs (fetch (code L)) exec s (State.jump { s with
      mem := m
      seg := Function.update s.seg (segOf i) 0x10#16 } (L.label (59 + (i + 1)))) := by
    apply hL.placed.step hplain h.pc hinstr
    intro n hn
    rw [exec, hload', hn]
    rfl
  have houtside : tableBytes L ⊆ (extent (L.gdt + BitVec.ofNat 64 21) 1)ᶜ :=
    fun x hx => Set.disjoint_left.mp (disjoint_gdt (by decide)) hx
  refine ⟨_, hstep, rfl, h.ax, ⟨h.mapped.active, h.mapped.top, ?_⟩, h.csLong, h.cs, h.gdtBase,
    h.gdtLimit, h.interrupts, Or.inr hused, ?_, ?_⟩
  · exact h.mapped.built.of_eqOn le_rfl (hframe.mono houtside)
  · intro j hj
    change Function.update s.seg (segOf i) 0x10#16 (segOf j) = 0x10#16
    by_cases hsame : segOf j = segOf i
    · rw [hsame, Function.update_self]
    · rw [Function.update_of_ne hsame]
      exact h.loaded j (by
        have hne : j ≠ i := fun heq => hsame (heq ▸ rfl)
        omega)
  · exact fun x hx => (hframe hx).trans (h.frame hx)

end Segments

/-! ## The whole entry -/

/-- The two bytes of the descriptor table in which the processor notes a use. -/
def accessedBytes (L : Symbols) : Set (BitVec 64) :=
  extent (L.gdt + BitVec.ofNat 64 13) 1 ∪ extent (L.gdt + BitVec.ofNat 64 21) 1

/-- Everything that the entry writes. -/
def written (L : Symbols) (s : State) : Set (BitVec 64) :=
  written32 L s ∪ accessedBytes L ∪ L.stackBytes

/-- The machine in front of `kernel_boot`. -/
structure InKernel (L : Symbols) (s t : State) : Prop where
  pc : t.pc = L.kernelBoot
  wide : t.wide = true
  interrupts : t.interrupts = false
  map : ∀ v < 2 ^ 48, X86Paging.translate t.mem t.pml4 v =
    if v < 2 ^ 32 then some ⟨v, true⟩ else none
  sp : t.reg .sp + 8 = L.stackTop.setWidth 64
  cs : t.cs = 0x08
  seg : ∀ sr, t.seg sr = 0x10#16
  bootArgs : load t.mem L.bootArgs 4 = (s.get .ax).toNat
  rest : ∀ x ∉ written L s, t.mem x = s.mem x

section Entry

/-- The descriptor table is as the loader left it. -/
theorem gdt_subset (hL : L.Linked) {s : State} (h : Loaded L s) {n k : Nat} (hfit : n + k ≤ 30) :
    extent (L.gdt + BitVec.ofNat 64 n) k ⊆ (written32 L s)ᶜ := by
  obtain ⟨hdata, hoff⟩ := hL.bootArgs_lt
  have hgdt : extent (L.gdt + BitVec.ofNat 64 n) k ⊆ L.gdtBytes := extent_add_subset _ _ hfit
  intro x hx hwritten
  rcases hwritten with (htable | hargs) | hstack
  · exact Set.disjoint_left.mp (disjoint_gdt (by omega)) htable hx
  · have hapart := disjoint_data (L := L) (n := 30) (show 0x16000 + 30 ≤ L.bootArgsOffset by omega)
      (show L.bootArgsOffset + 4 ≤ 2 ^ 32 by omega)
    exact Set.disjoint_left.mp hapart (hgdt hx) hargs
  · exact Set.disjoint_left.mp h.gdt hstack (hgdt hx)

theorem accessedBytes_subset : accessedBytes L ⊆ L.gdtBytes :=
  Set.union_subset (extent_add_subset _ _ (by decide)) (extent_add_subset _ _ (by decide))

/-- The 64-bit code leaves the record of the boot arguments alone. -/
theorem bootArgs_subset (hL : L.Linked) :
    L.bootArgsBytes ⊆ (accessedBytes L ∪ L.stackBytes)ᶜ := by
  obtain ⟨hdata, hoff⟩ := hL.bootArgs_lt
  have hgdt : Disjoint L.gdtBytes L.bootArgsBytes := disjoint_data (by omega) (by omega)
  have hstack : Disjoint L.stackBytes L.bootArgsBytes := disjoint_data (by omega) (by omega)
  rw [Set.subset_compl_iff_disjoint_left]
  exact Set.disjoint_union_left.mpr ⟨hgdt.mono_left accessedBytes_subset, hstack⟩

/-- `long_mode_entry` up to the load of the stack pointer. -/
theorem runs_loadSegments (hL : L.Linked) {s : State} (h : Mapped L s) (hcode : s.csLong = true)
    (hpc : s.pc = L.label 58) (hbase : s.gdtBase = L.gdt) (hlimit : s.gdtLimit = 23)
    (hdata : load s.mem (L.gdt + BitVec.ofNat 64 16) 8 = dataDescriptor) :
    ∃ t, Runs (fetch (code L)) exec s t ∧ Loading L s 5 t := by
  obtain ⟨u, hu⟩ : ∃ u : State, u = (s.setReg .ax ((s.reg .ax).extractLsb' 16 48 ++ 0x10#16)).jump
    (L.label 59) := ⟨_, rfl⟩
  have hfirst : Runs (fetch (code L)) exec s u := by
    apply hL.placed.step (k := 58) (i := .op (.movImm16 .ax 0x10)) (h.plain hL) hpc rfl
    intro n hn
    rw [exec, Op.effect, Option.map_some, hn, hu]
    rfl
  have hax : (u.reg .ax).setWidth 16 = 0x10#16 := by
    have hreg : u.reg .ax = (s.reg .ax).extractLsb' 16 48 ++ 0x10#16 := by
      rw [hu]
      simp [State.setReg, State.jump]
    rw [hreg, BitVec.setWidth_append]
    simp
  have hstart : Loading L s 0 u := by
    rw [hu] at hax ⊢
    exact ⟨rfl, hax, ⟨h.active, h.top, h.built⟩, hcode, rfl, hbase, hlimit, rfl, Or.inl hdata,
      fun j hj => absurd hj (Nat.not_lt_zero j), Set.eqOn_refl _ _⟩
  obtain ⟨t, hloop, ht⟩ := Runs.loop (n := 5) (Loading L s) (fun i hi _ h => h.step hL hi) hstart
  exact ⟨t, hfirst.trans hloop, ht⟩

/-- The stack pointer and the call of `kernel_boot`. -/
theorem runs_callKernelBoot (hL : L.Linked) {s₀ s : State} (h : Loading L s₀ 5 s) :
    ∃ t, Runs (fetch (code L)) exec s t ∧ t = { s with
      pc := L.kernelBoot
      reg := Function.update s.reg .sp (L.tables + BitVec.ofNat 64 0x15FF8)
      mem := store s.mem (L.tables + BitVec.ofNat 64 0x15FF8) 8 (L.label 66).toNat } := by
  have hfit := hL.tables_fit
  have hplain := h.mapped.plain hL
  have htop : L.stackTop.setWidth 64 = L.tables + BitVec.ofNat 64 0x16000 :=
    Symbols.setWidth_add (n := 0x16000) (by omega)
  obtain ⟨u, hu⟩ : ∃ u : State, u = (s.setReg .sp (L.stackTop.setWidth 64)).jump (L.label 65) :=
    ⟨_, rfl⟩
  have hfirst : Runs (fetch (code L)) exec s u := by
    apply hL.placed.step (k := 64) (i := .op (.movAbs .sp (L.stackTop.setWidth 64))) hplain h.pc rfl
    intro n hn
    rw [exec, Op.effect, Option.map_some, hn, hu]
    rfl
  have hplainU : Plain u := hu ▸ hplain
  have hsp : u.reg .sp - 8 = L.tables + BitVec.ofNat 64 0x15FF8 := by
    have hreg : u.reg .sp = L.tables + BitVec.ofNat 64 0x16000 := by
      rw [hu, ← htop]
      simp [State.setReg, State.jump]
    rw [hreg, show (0x16000 : Nat) = 0x15FF8 + 8 from rfl, BitVec.ofNat_add, ← BitVec.add_assoc]
    exact BitVec.add_sub_cancel _ _
  have hlow : (L.tables + BitVec.ofNat 64 0x15FF8).toNat = L.tables.toNat + 0x15FF8 :=
    toNat_add_ofNat (by omega)
  have hwide : u.wide = true := by
    rw [hu]
    exact Bool.and_eq_true_iff.mpr ⟨h.mapped.active, h.csLong⟩
  have hsecond : Runs (fetch (code L)) exec u { s with
      pc := L.kernelBoot
      reg := Function.update s.reg .sp (L.tables + BitVec.ofNat 64 0x15FF8)
      mem := store s.mem (L.tables + BitVec.ofNat 64 0x15FF8) 8 (L.label 66).toNat } := by
    apply hL.placed.step (k := 65) (i := .call L.kernelBoot) hplainU (by rw [hu]; rfl) rfl
    intro n hn
    rw [exec, State.push, if_pos hwide, hsp, hn, hplainU.write (by decide) (by omega), hu]
    simp only [Option.map_some, State.setReg, State.setMem, State.jump, Function.update_idem]
    rfl
  exact ⟨_, hfirst.trans hsecond, rfl⟩

/-- **From `_start` to C.**  The kernel starts in 64-bit mode on its own stack with interrupts
off, the first 4 GiB mapped to themselves and nothing else mapped, and the register of the
loader recorded; nothing else in memory has changed. -/
theorem start_enters_longMode (hL : L.Linked) {s : State} (h : Loaded L s) :
    ∃ t, Runs (fetch (code L)) exec s t ∧ InKernel L s t := by
  obtain ⟨t₁, hrun₁, hpc₁, hbuilt₁, hargs₁, hcontrol₁, hframe₁⟩ := runs_recordAndMap hL h
  have hcr0 := congrArg State.cr0 hcontrol₁
  have hcode := congrArg State.csLong hcontrol₁
  have hinterrupts := congrArg State.interrupts hcontrol₁
  have hpaging : t₁.paging = false := (congrArg (BitVec.getLsbD · 31) hcr0).trans h.unpaged
  obtain ⟨t₂, hrun₂, hpc₂, hmapped₂, hcode₂, hmem₂, hinterrupts₂⟩ := runs_enterLongMode hL hpaging
    ((congrArg (BitVec.getLsbD · 0) hcr0).trans h.protectedMode) (hcode.trans h.code32) hpc₁ hbuilt₁
  have hloaded : ∀ n k, n + k ≤ 30 → load t₂.mem (L.gdt + BitVec.ofNat 64 n) k =
      load s.mem (L.gdt + BitVec.ofNat 64 n) k := by
    intro n k hfit
    rw [hmem₂, load_of_eqOn hframe₁ (by omega) (gdt_subset hL h hfit)]
  obtain ⟨t₃, hrun₃, ht₃⟩ := runs_farJump hL hmapped₂ hcode₂ hpc₂
    ((hloaded 8 8 (by decide)).trans h.codeDescriptor)
    ((hloaded 24 6 (by decide)).trans h.pointer)
  have hmem₃ : t₃.mem = store t₂.mem (L.gdt + BitVec.ofNat 64 13) 1 0x9B := by rw [ht₃]
  have hmapped₃ : Mapped L t₃ := by
    have hbuilt : Built t₃.mem L.tables 6144 := by
      apply hmapped₂.built.of_eqOn le_rfl
      intro x hx
      rw [hmem₃]
      exact store_of_not_inExtent fun hbyte =>
        Set.disjoint_left.mp (disjoint_gdt (by decide)) hx hbyte
    rw [ht₃] at hbuilt ⊢
    exact ⟨hmapped₂.active, hmapped₂.top, hbuilt⟩
  have hdata : load t₃.mem (L.gdt + BitVec.ofNat 64 16) 8 = dataDescriptor := by
    have hapart : Separate (L.gdt + BitVec.ofNat 64 16) 8 (L.gdt + BitVec.ofNat 64 13) 1 :=
      (separate_of_le (by decide) (by decide)).symm
    rw [hmem₃, load_store_separate (by decide) hapart, hloaded 16 8 (by decide), h.dataDescriptor]
  obtain ⟨t₄, hrun₄, h₄⟩ := runs_loadSegments hL hmapped₃ (by rw [ht₃]) (by rw [ht₃]) (by rw [ht₃])
    (by rw [ht₃]) hdata
  obtain ⟨t, hrun, ht⟩ := runs_callKernelBoot hL h₄
  refine ⟨t, hrun₁.trans (hrun₂.trans (hrun₃.trans (hrun₄.trans hrun))), ?_⟩
  have hfit := hL.tables_fit
  have hmem : t.mem = store t₄.mem (L.tables + BitVec.ofNat 64 0x15FF8) 8 (L.label 66).toNat := by
    rw [ht]
  have hmapped : Mapped L t := by
    have hbuilt : Built t.mem L.tables 6144 := by
      apply h₄.mapped.built.of_eqOn le_rfl
      intro x hx
      rw [hmem]
      exact store_of_not_inExtent fun hstack =>
        Set.disjoint_left.mp (disjoint_tables (by decide) (by decide)) hx hstack
    rw [ht] at hbuilt ⊢
    exact ⟨h₄.mapped.active, h₄.mapped.top, hbuilt⟩
  -- Behind the 32-bit code only the accessed bits and the return address are written.
  have hframe : Set.EqOn t.mem t₁.mem (accessedBytes L ∪ L.stackBytes)ᶜ := by
    intro x hx
    rw [hmem, store_of_not_inExtent fun hstack => hx (Or.inr hstack),
      h₄.frame fun hbyte => hx (Or.inl (Or.inr hbyte)), hmem₃,
      store_of_not_inExtent fun hbyte => hx (Or.inl (Or.inl hbyte)), hmem₂]
  refine ⟨by rw [ht], ?_, ?_, fun v hv => hmapped.translate hL hv, ?_, ?_, ?_, ?_, ?_⟩
  · have hcsLong : t.csLong = true := by rw [ht]; exact h₄.csLong
    exact Bool.and_eq_true_iff.mpr ⟨hmapped.active, hcsLong⟩
  · have hlast : t.interrupts = t₄.interrupts := by rw [ht]
    have hjump : t₃.interrupts = t₂.interrupts := by rw [ht₃]
    rw [hlast, h₄.interrupts, hjump, hinterrupts₂]
    exact hinterrupts
  · have hreg : t.reg .sp = L.tables + BitVec.ofNat 64 0x15FF8 := by
      rw [ht]
      simp
    have htop : L.stackTop.setWidth 64 = L.tables + BitVec.ofNat 64 0x16000 :=
      Symbols.setWidth_add (n := 0x16000) (by omega)
    rw [hreg, htop, BitVec.add_assoc]
    rfl
  · have hlast : t.cs = t₄.cs := by rw [ht]
    rw [hlast, h₄.cs, ht₃]
  · intro sr
    have hlast : t.seg = t₄.seg := by rw [ht]
    rw [hlast]
    cases sr
    · exact h₄.loaded 0 (by decide)
    · exact h₄.loaded 1 (by decide)
    · exact h₄.loaded 2 (by decide)
    · exact h₄.loaded 3 (by decide)
    · exact h₄.loaded 4 (by decide)
  · rw [load_of_eqOn hframe (by decide) (bootArgs_subset hL), hargs₁]
  · intro x hx
    have houtside : x ∈ (accessedBytes L ∪ L.stackBytes)ᶜ := by
      rintro (hbyte | hstack)
      · exact hx (Or.inl (Or.inr hbyte))
      · exact hx (Or.inr hstack)
    rw [hframe houtside, hframe₁ fun hwritten => hx (Or.inl (Or.inl hwritten))]

end Entry

/-! A small image, linked at 16 MiB, and the loader's stack above it. -/

def sampleSymbols : Symbols where
  text := 0x1000000
  sizes := List.replicate 69 5
  bootPml4 := 0x1010000
  initLen := 0x20
  kernelBoot := 0x1001000

theorem sampleSymbols_linked : sampleSymbols.Linked :=
  ⟨by decide, by decide, by decide, by decide, by decide⟩

/-- The loader hands over the address of its boot arguments, 0x8000. -/
def sampleState : State where
  pc := 0x1000000
  reg r := if r = .ax then 0x8000 else if r = .sp then 0x2000000 else 0
  mem := storeMembers (fun _ => 0) 0x1026000 [(8, 8, codeDescriptor), (16, 8, dataDescriptor),
    (24, 6, 23 + 0x1026000 * 2 ^ 16)]
  cr0 := 1
  cr3 := 0
  cr4 := 0
  efer := 0
  interrupts := true
  down := false
  gdtLimit := 0
  gdtBase := 0
  cs := 0x10
  csLong := false
  seg _ := 0x18

/-- The loader's stack is above the whole image. -/
theorem sampleState_disjoint {b : BitVec 64} {k : Nat} (h : b.toNat + k ≤ 0x1FFFFF8) :
    Disjoint (loaderStack sampleState) (extent b k) := by
  have hstack : (BitVec.setWidth 64 (sampleState.get .sp - 8)).toNat = 0x1FFFFF8 := by decide
  apply Disjoint.symm
  exact Set.disjoint_left.mpr (separate_of_toNat_le (hstack ▸ h) (by rw [hstack]; decide))

theorem sampleState_loaded : Loaded sampleSymbols sampleState where
  pc := by decide
  protectedMode := by decide
  unpaged := by decide
  code32 := rfl
  up := rfl
  room := by decide
  tables := sampleState_disjoint (by decide)
  gdt := sampleState_disjoint (by decide)
  bootArgs := sampleState_disjoint (by decide)
  codeDescriptor := by decide +kernel
  dataDescriptor := by decide +kernel
  pointer := by decide +kernel

theorem sample_enters_longMode :
    ∃ t, Runs (fetch (code sampleSymbols)) exec sampleState t ∧
      InKernel sampleSymbols sampleState t :=
  start_enters_longMode sampleSymbols_linked sampleState_loaded

end EntryX86
end Boot
end Saski
