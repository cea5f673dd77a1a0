import Saski.Fdt.Tokens
import Saski.Lib.A64
import Saski.Lib.MemoryPatch

/-!
# The entries of the aarch64 kernel (`arch/boot_aarch64.S`)

The assembly in front of C, as A64 instructions with the offsets of its labels.  Addresses
that only the linker knows are parameters (`Symbols`); the code is not part of the modelled
memory, and the literal pool of `ldr =symbol` is not modelled.

* `_start` records `x0`, checks whether it points to a device tree blob, zeroes `.bss` and
  calls C on the stack of the kernel (`start_enters_kernel`).
* `boot_protocol_start` records three registers without a check and keeps the stack
  (`bootProtocolStart_enters_kernel`).

The first instructions run before the MMU is on, where an access that is misaligned or has no
memory behind it hangs.  `start_enters_kernel` is about such a machine: the code, `.data`,
`.bss` and the first words at `x0` have to be memory, and aligned.

The blob is read through `Fdt.be32`, the reader of `lib/fdt.c`: what the assembly takes for
the magic number and the size is what `fdt_valid` reads again.
-/

namespace Saski
namespace Boot
namespace EntryAarch64

open ByteMemory A64 CodeRun

/-! ## The code -/

/-- What the linker decides.  The five words of `.data` stand one behind the other. -/
structure Symbols where
  data : BitVec 64
  edata : BitVec 64
  bssEnd : BitVec 64
  stackTop : BitVec 64
  kernelBootAarch64 : BitVec 64
  kernelBootAarch64BootProtocol : BitVec 64

namespace Symbols

variable (L : Symbols)

def gFdtBlobPhys : BitVec 64 := L.data

def gFdtBlobSize : BitVec 64 := L.data + 8#64

def gBootX0 : BitVec 64 := L.data + 16#64

def gInitDescriptionPhys : BitVec 64 := L.data + 24#64

def gInitEntryPhys : BitVec 64 := L.data + 32#64

/-- `.bss` is behind `.data`. -/
structure Linked : Prop where
  data : L.data.toNat + 40 ≤ L.edata.toNat
  bss : L.edata.toNat ≤ L.bssEnd.toNat

end Symbols

variable (L : Symbols)

/-- The loop over `.bss`. -/
def zeroBss : List Instr :=
  [.ldrSym 9 L.edata, .ldrSym 10 L.bssEnd, .cmp .x 9 10, .bCond 2 12, .strb 31 9 1, .b (-12)]

/-- A register into a word of `.data`. -/
def save (r : Reg) (a : BitVec 64) : List Instr := [.ldrSym 9 a, .str r 9 0]

/-- `real_start`, up to the test of `x0`. -/
def capture : List Instr := save 0 L.gBootX0 ++ save 0 L.gFdtBlobPhys

/-- The magic number in the bytes that `x0` points to. -/
def checkMagic : List Instr :=
  [.ldr .w 10 0 0, .movz .w 11 0xfeed 0, .movk .w 11 0xd00d 16, .rev 10 10, .cmp .w 10 11]

def recordSize : List Instr := [.ldr .w 12 0 4, .rev 12 12] ++ save 12 L.gFdtBlobSize

/-- `no_fdt` -/
def noFdt : List Instr := save 31 L.gFdtBlobPhys ++ save 31 L.gFdtBlobSize

/-- A call of `f` from instruction `k`, and the loop behind it. -/
def callAndHang (text f : BitVec 64) (k : Nat) : List Instr :=
  [.bl (f - slot text k), .wfi, .b (-4)]

/-- `_start`: the header of the image and `real_start` behind it. -/
def start (text : BitVec 64) : List (Option Instr) :=
  some (.b 64) :: List.replicate 15 none ++
    (capture L ++ (.cbz 0 48 :: (checkMagic ++ (.bCond 1 24 :: (recordSize L ++ (.b 20 ::
      (noFdt L ++ (zeroBss L ++ (.ldrSym 9 L.stackTop :: .addImm 31 9 0 ::
        callAndHang text L.kernelBootAarch64 44))))))))).map some

/-- The two other registers of the boot protocol. -/
def captureInit : List Instr := save 1 L.gInitEntryPhys ++ save 2 L.gInitDescriptionPhys

def bootProtocolStart (text : BitVec 64) : List (Option Instr) :=
  (capture L ++ (captureInit L ++ (zeroBss L ++
    callAndHang text L.kernelBootAarch64BootProtocol 14))).map some

/-! ## Zeroing `.bss` -/

/-- Memory with `.bss` zeroed. -/
def zeroed (m : Mem 64) (j : Nat) : Mem 64 := fill m L.edata 0 j fun _ => 0

/-- The registers that a part of the code leaves alone, and the system registers. -/
structure Keeps (rs : List Reg) (s t : State) : Prop where
  regs : ∀ r : Reg, r ∉ rs → t.get r = s.get r
  sp : t.sp = s.sp
  el : t.el = s.el

theorem Keeps.mono {rs rs' : List Reg} {s t : State} (h : Keeps rs s t) (hrs : rs ⊆ rs') :
    Keeps rs' s t := ⟨fun r hr => h.regs r fun hmem => hr (hrs hmem), h.sp, h.el⟩

theorem Keeps.trans {rs : List Reg} {s t u : State} (h : Keeps rs s t) (h' : Keeps rs t u) :
    Keeps rs s u :=
  ⟨fun r hr => (h'.regs r hr).trans (h.regs r hr), h'.sp.trans h.sp, h'.el.trans h.el⟩

/-- The head of the loop. -/
structure Zeroing (text : BitVec 64) (k : Nat) (s₀ : State) (j : Nat) (s : State) : Prop where
  pc : s.pc = slot text (k + 2)
  mem : s.mem = zeroed L s₀.mem j
  x9 : s.get 9 = L.edata + BitVec.ofNat 64 j
  x10 : s.get 10 = L.bssEnd
  keeps : Keeps [9, 10] s₀ s

section ZeroBss

variable {L} {M : Machine} {program : List (Option Instr)} {text : BitVec 64} {k : Nat}
  (hsize : 4 * program.length < 2 ^ 64) (htext : M.Region text (4 * program.length) 4)
  (hcode : (zeroBss L).map some <+: program.drop k)
  (hram : M.Region L.edata (L.bssEnd.toNat - L.edata.toNat) 1)

include hsize htext hcode hram

/-- One more byte. -/
theorem runs_zeroing (hL : L.Linked) {s₀ : State} {j : Nat}
    (hj : j < L.bssEnd.toNat - L.edata.toNat) {s : State} (hs : Zeroing L text k s₀ j s) :
    ∃ t, Runs (fetchOn M (fetchAt program text)) (execOn M) s t ∧
      Zeroing L text k s₀ (j + 1) t := by
  have hend := L.bssEnd.isLt
  have hbss := hL.bss
  have hx9 : (s.get 9).toNat = L.edata.toNat + j := by
    rw [hs.x9, toNat_add_ofNat (by omega)]
  have hnext : ∀ (i : Nat) (t : State), t.pc = slot text (k + i) →
      t.next.pc = slot text (k + i + 1) := by
    intro i t ht
    rw [State.next_pc, ht, slot_succ]
  let u := (s.setFlags (subFlags (s.get 9) (s.get 10))).next
  have hcmp : execOn M (.cmp .x 9 10) s = some u := execOn_of_plain rfl
  have hu : u.pc = slot text (k + 3) := hnext 2 (s.setFlags _) hs.pc
  have hflags : holds 2 u.flags = false := by
    change holds 2 (subFlags (s.get 9) (s.get 10)) = false
    rw [holds_hs, hx9, hs.x10, decide_eq_false_iff_not]
    omega
  -- the store
  have hmem : Function.update s.mem (s.get 9) 0 = zeroed L s₀.mem (j + 1) := by
    rw [hs.mem, hs.x9]
    exact fill_succ _ _ (Nat.zero_le j) (by omega) _
  let v := ((u.next.setMem (zeroed L s₀.mem (j + 1))).setSp 9 fun t => t.getSp 9 + 1).next
  have hpermits : M.Permits (s.get 9) 1 := by
    rw [hs.x9]
    exact hram.permits (by omega) (dvd_refl 1) (one_dvd j) (one_dvd _)
  have hstore : execOn M (.strb 31 9 1) u.next = some v := by
    rw [execOn_of_permits hpermits rfl rfl]
    simp only [v, ← hmem]
    rfl
  have hv : v.pc = slot text (k + 5) := hnext 4 _ (hnext 3 u hu)
  have hback : execOn M (.b (-12)) v = some (v.jump (slot text (k + 2))) := by
    have hoff : BitVec.ofNat 64 (4 * (k + 5)) + (-12) = BitVec.ofNat 64 (4 * (k + 2)) := by
      simp [Nat.mul_add, BitVec.ofNat_add, BitVec.add_assoc]
    rw [execOn_of_plain rfl, exec, hv, slot_add text hoff]
  have hfalls : execOn M (.bCond 2 12) u = some u.next :=
    (execOn_of_plain rfl).trans (exec_bCond_of_false hflags)
  have hget : ∀ r : Reg, r ≠ 9 → v.get r = s.get r := by
    intro r hr
    simp [v, u, State.setSp_of_ne, State.get_set, hr]
  have hx9' : v.get 9 = s.get 9 + 1 := by
    simp [v, u, State.setSp_of_ne, State.getSp_of_ne, State.get_set]
  refine ⟨v.jump (slot text (k + 2)), ?_, State.jump_pc _ _, ?_, ?_, ?_,
    ⟨fun r hr => ?_, ?_, ?_⟩⟩
  · exact (Runs.one (fetchAt_part hsize htext hcode 2 rfl hs.pc) hcmp).trans
      ((Runs.one (fetchAt_part hsize htext hcode 3 rfl hu) hfalls).trans
      ((Runs.one (fetchAt_part hsize htext hcode 4 rfl (hnext 3 u hu)) hstore).trans
      (Runs.one (fetchAt_part hsize htext hcode 5 rfl hv) hback)))
  · simp [v]
  · rw [State.get_jump, hx9', hs.x9, BitVec.add_assoc, BitVec.ofNat_add]
    rfl
  · rw [State.get_jump, hget 10 (by decide), hs.x10]
  · rw [State.get_jump, hget r fun h => hr (h ▸ List.mem_cons_self), hs.keeps.regs r hr]
  · simp [v, u, hs.keeps.sp]
  · simp [v, u, hs.keeps.el]

/-- All of `.bss`. -/
theorem runs_zeroBss (hL : L.Linked) {s : State} (hs : s.pc = slot text k) :
    ∃ t, Runs (fetchOn M (fetchAt program text)) (execOn M) s t ∧ t.pc = slot text (k + 6) ∧
      t.mem = zeroed L s.mem (L.bssEnd.toNat - L.edata.toNat) ∧ Keeps [9, 10] s t := by
  have hprefix : [Instr.ldrSym 9 L.edata, .ldrSym 10 L.bssEnd].map some <+: program.drop k :=
    (List.prefix_append _ _).trans hcode
  obtain ⟨u, hexec, hmem, hx9, hx10, hkeeps⟩ :
      ∃ u, execAll (execOn M) [.ldrSym 9 L.edata, .ldrSym 10 L.bssEnd] s = some u ∧
        u.mem = s.mem ∧ u.get 9 = L.edata ∧ u.get 10 = L.bssEnd ∧ Keeps [9, 10] s u := by
    refine ⟨_, execAll_execOn_of_plain rfl, rfl, ?_, ?_, ⟨fun r hr => ?_, rfl, rfl⟩⟩
    · simp [State.get_set]
    · simp [State.get_set]
    · simp only [List.mem_cons, List.not_mem_nil, or_false, not_or] at hr
      simp [State.get_set, hr]
  obtain ⟨hsetup, hpc⟩ : Runs (fetchOn M (fetchAt program text)) (execOn M) s u ∧
      u.pc = slot text (k + 2) := runs_line hsize htext hprefix rfl hs hexec
  have hstart : Zeroing L text k s 0 u := by
    refine ⟨hpc, ?_, ?_, hx10, hkeeps⟩
    · rw [zeroed, fill_empty _ _ le_rfl, hmem]
    · rw [hx9, BitVec.add_zero]
  obtain ⟨v, hloop, hv⟩ := Runs.loop (Zeroing L text k s)
    (fun j hj _ => runs_zeroing hsize htext hcode hram hL hj) hstart
  -- The test that ends the loop.
  let w := (v.setFlags (subFlags (v.get 9) (v.get 10))).next
  have hcmp : execOn M (.cmp .x 9 10) v = some w := execOn_of_plain rfl
  have hw : w.pc = slot text (k + 3) := by
    rw [State.next_pc, State.setFlags_pc, hv.pc, slot_succ]
  have hflags : holds 2 w.flags = true := by
    change holds 2 (subFlags (v.get 9) (v.get 10)) = true
    have hend := L.bssEnd.isLt
    have hbss := hL.bss
    rw [holds_hs, hv.x9, hv.x10, toNat_add_ofNat (by omega), decide_eq_true_eq]
    omega
  have hbranch : execOn M (.bCond 2 12) w = some (w.jump (slot text (k + 6))) := by
    have hoff : BitVec.ofNat 64 (4 * (k + 3)) + 12 = BitVec.ofNat 64 (4 * (k + 6)) := by
      simp [Nat.mul_add, BitVec.ofNat_add, BitVec.add_assoc]
    rw [execOn_of_plain rfl, exec_bCond_of_true hflags, hw, slot_add text hoff]
  refine ⟨w.jump (slot text (k + 6)), ?_, State.jump_pc _ _, hv.mem,
    ⟨hv.keeps.regs, hv.keeps.sp, hv.keeps.el⟩⟩
  exact hsetup.trans (hloop.trans
    ((Runs.one (fetchAt_part hsize htext hcode 2 rfl hv.pc) hcmp).trans
    (Runs.one (fetchAt_part hsize htext hcode 3 rfl hw) hbranch)))

end ZeroBss

/-! ## The blob that `x0` points to -/

/-- The bytes at an address, as a blob. -/
def blobAt (m : Mem 64) (a : BitVec 64) : Capnp.Buffer where
  isNull := a == 0
  bytes := fun i => m (a + BitVec.ofInt 64 i)

/-- A big-endian word, as `ldr` and `rev` read it. -/
theorem reverseBytes_load (m : Mem 64) (a : BitVec 64) (off : Nat) :
    reverseBytes (BitVec.ofNat 64 (load m (a + BitVec.ofNat 64 off) 4)) =
      BitVec.ofNat 64 (Fdt.be32 (blobAt m a).bytes off) := by
  have hbyte : ∀ i : Nat, m (a + BitVec.ofNat 64 off + BitVec.ofNat 64 i) =
      (blobAt m a).bytes (off + i) := by
    intro i
    rw [BitVec.add_assoc, ← BitVec.ofNat_add]
    exact congrArg (fun x => m (a + x)) (BitVec.ofInt_natCast 64 (off + i)).symm
  have hload : load m (a + BitVec.ofNat 64 off) 4 =
      ((blobAt m a).bytes off).toNat + ((blobAt m a).bytes (off + 1)).toNat * 2 ^ 8 +
        ((blobAt m a).bytes (off + 2)).toNat * 2 ^ 16 +
        ((blobAt m a).bytes (off + 3)).toNat * 2 ^ 24 := by
    simp only [load, hbyte, littleEndian_succ]
    simp [littleEndian]
  have h0 := ((blobAt m a).bytes off).toNat_lt
  have h1 := ((blobAt m a).bytes (off + 1)).toNat_lt
  have h2 := ((blobAt m a).bytes (off + 2)).toNat_lt
  have h3 := ((blobAt m a).bytes (off + 3)).toNat_lt
  have hlt : load m (a + BitVec.ofNat 64 off) 4 < 2 ^ 64 := by omega
  rw [reverseBytes, BitVec.toNat_ofNat, Nat.mod_eq_of_lt hlt, hload, Fdt.be32_eq]
  refine congrArg (BitVec.ofNat 64) ?_
  omega

/-- A word of the header is read from its own bytes. -/
theorem be32_of_eqOn {m m' : Mem 64} {a : BitVec 64} (h : Set.EqOn m' m (extent a 8)) {off : Nat}
    (hoff : off + 4 ≤ 8) :
    Fdt.be32 (blobAt m' a).bytes off = Fdt.be32 (blobAt m a).bytes off := by
  have hbyte : ∀ i : Nat, i < 4 →
      (blobAt m' a).bytes (off + i) = (blobAt m a).bytes (off + i) := by
    intro i hi
    have hplace : a + BitVec.ofInt 64 (off + i) = a + BitVec.ofNat 64 (off + i) :=
      congrArg (a + ·) (BitVec.ofInt_natCast 64 (off + i))
    change m' (a + BitVec.ofInt 64 (off + i)) = m (a + BitVec.ofInt 64 (off + i))
    rw [hplace]
    exact h (inExtent_add (by decide) (by omega))
  have h0 := hbyte 0 (by decide)
  have h1 := hbyte 1 (by decide)
  have h2 := hbyte 2 (by decide)
  have h3 := hbyte 3 (by decide)
  simp only [Nat.cast_zero, Nat.cast_one, Nat.cast_ofNat, add_zero] at h0 h1 h2 h3
  rw [Fdt.be32, Fdt.be32, h0, h1, h2, h3]

/-- `x0` points to a device tree blob. -/
def Describes (m : Mem 64) (x0 : BitVec 64) : Prop :=
  x0 ≠ 0 ∧ Fdt.be32 (blobAt m x0).bytes 0 = Fdt.fdtMagic

instance (m : Mem 64) (x0 : BitVec 64) : Decidable (Describes m x0) :=
  inferInstanceAs (Decidable (_ ∧ _))

section Data

variable {M : Machine}

theorem exec_checkMagic {s : State} (hpermits : M.Permits (s.get 0) 4) :
    ∃ t, execAll (execOn M) checkMagic s = some t ∧
      holds 1 t.flags = decide (Fdt.be32 (blobAt s.mem (s.get 0)).bytes 0 ≠ Fdt.fdtMagic) ∧
      t.mem = s.mem ∧ Keeps [10, 11] s t := by
  have hword : reverseBytes (BitVec.ofNat 64 (load s.mem (s.get 0) 4)) =
      BitVec.ofNat 64 (Fdt.be32 (blobAt s.mem (s.get 0)).bytes 0) := by
    have hfirst := reverseBytes_load s.mem (s.get 0) 0
    rwa [BitVec.add_zero] at hfirst
  have hlt := Fdt.be32_lt (blobAt s.mem (s.get 0)).bytes 0
  have hload : execOn M (.ldr .w 10 0 0) s = exec (.ldr .w 10 0 0) s := by
    refine execOn_of_permits hpermits ?_ rfl
    simp [Instr.accesses, State.getSp_of_ne, Width.bytes]
  refine ⟨_, (execAll_cons hload).trans (execAll_execOn_of_plain rfl), ?_, rfl,
    ⟨fun r hr => ?_, rfl, rfl⟩⟩
  · have hcompare : BitVec.setWidth 32
        (reverseBytes (BitVec.ofNat 64 (load s.mem (s.get 0) 4))) = 0xd00dfeed#32 ↔
          Fdt.be32 (blobAt s.mem (s.get 0)).bytes 0 = Fdt.fdtMagic := by
      rw [hword, BitVec.setWidth_ofNat_of_le (by decide), ← BitVec.toNat_inj,
        BitVec.toNat_ofNat, Nat.mod_eq_of_lt hlt]
      rfl
    simpa [State.get_set, cmpFlags, holds_ne, cut, low, State.getSp_of_ne, Width.bytes]
      using hcompare
  · simp only [List.mem_cons, List.not_mem_nil, or_false, not_or] at hr
    simp [State.get_set, hr]

theorem exec_save (r : Reg) {a : BitVec 64} (ha : M.Permits a 8) (hr : r ≠ 9) (s : State) :
    ∃ t, execAll (execOn M) (save r a) s = some t ∧ t.mem = store s.mem a 8 (s.get r).toNat ∧
      Keeps [9] s t := by
  let u := (s.set 9 fun _ => a).next
  have hfirst : execOn M (.ldrSym 9 a) s = some u := execOn_of_plain rfl
  have hstore : execOn M (.str r 9 0) u = exec (.str r 9 0) u := by
    refine execOn_of_permits ha ?_ rfl
    simp [Instr.accesses, u, State.getSp_of_ne, State.get_set]
  refine ⟨_, (execAll_cons hfirst).trans (execAll_cons hstore), ?_, ⟨fun r' hr' => ?_, rfl, rfl⟩⟩
  · simp [u, State.get_set, State.getSp_of_ne, hr]
  · simp only [List.mem_cons, List.not_mem_nil, or_false] at hr'
    simp [u, State.get_set, hr']

/-- Two words. -/
theorem exec_save_save {r r' : Reg} {a a' : BitVec 64} (ha : M.Permits a 8)
    (ha' : M.Permits a' 8) (hr : r ≠ 9) (hr' : r' ≠ 9) (s : State) :
    ∃ t, execAll (execOn M) (save r a ++ save r' a') s = some t ∧
      t.mem = store (store s.mem a 8 (s.get r).toNat) a' 8 (s.get r').toNat ∧ Keeps [9] s t := by
  obtain ⟨u, hfirst, hmem, hkeeps⟩ := exec_save r ha hr s
  obtain ⟨t, hsecond, hmem', hkeeps'⟩ := exec_save r' ha' hr' u
  have hsame : u.get r' = s.get r' := hkeeps.regs r' (by simpa using hr')
  refine ⟨t, (execAll_append hfirst).trans hsecond, ?_, ?_⟩
  · rw [hmem', hmem, hsame]
  · exact ⟨fun r hr => (hkeeps'.regs r hr).trans (hkeeps.regs r hr), hkeeps'.sp.trans hkeeps.sp,
      hkeeps'.el.trans hkeeps.el⟩

theorem exec_recordSize {s : State} (hpermits : M.Permits (s.get 0 + 4#64) 4)
    (hword : M.Permits L.gFdtBlobSize 8) :
    ∃ t, execAll (execOn M) (recordSize L) s = some t ∧
      t.mem = store s.mem L.gFdtBlobSize 8 (Fdt.be32 (blobAt s.mem (s.get 0)).bytes 4) ∧
      Keeps [9, 12] s t := by
  have hload : execOn M (.ldr .w 12 0 4) s = exec (.ldr .w 12 0 4) s := by
    refine execOn_of_permits hpermits ?_ rfl
    simp [Instr.accesses, State.getSp_of_ne, Width.bytes]
  obtain ⟨u, hfirst, hsize, hmem, hkeeps⟩ : ∃ u,
      execAll (execOn M) [.ldr .w 12 0 4, .rev 12 12] s = some u ∧
      u.get 12 = reverseBytes (BitVec.ofNat 64 (load s.mem (s.get 0 + 4#64) 4)) ∧
      u.mem = s.mem ∧ Keeps [12] s u := by
    refine ⟨_, (execAll_cons hload).trans (execAll_execOn_of_plain rfl), ?_, rfl,
      ⟨fun r hr => ?_, rfl, rfl⟩⟩
    · simp [State.get_set, State.getSp_of_ne, Width.bytes]
    · simp only [List.mem_cons, List.not_mem_nil, or_false] at hr
      simp [State.get_set, hr]
  obtain ⟨t, hsecond, hmem', hkeeps'⟩ := exec_save 12 hword (by decide) u
  refine ⟨t, (execAll_append hfirst).trans hsecond, ?_, ⟨fun r hr => ?_, ?_, ?_⟩⟩
  · have hlt := Fdt.be32_lt (blobAt s.mem (s.get 0)).bytes 4
    have hlt' : Fdt.be32 (blobAt s.mem (s.get 0)).bytes 4 < 2 ^ 64 := by omega
    rw [hmem', hmem, hsize, reverseBytes_load, Nat.cast_ofNat, BitVec.toNat_ofNat,
      Nat.mod_eq_of_lt hlt']
  · simp only [List.mem_cons, List.not_mem_nil, or_false, not_or] at hr
    rw [hkeeps'.regs r (by simpa using hr.1), hkeeps.regs r (by simpa using hr.2)]
  · exact hkeeps'.sp.trans hkeeps.sp
  · exact hkeeps'.el.trans hkeeps.el

/-- A call from instruction `k`. -/
theorem runs_call {program : List (Option Instr)} {text f : BitVec 64}
    (hsize : 4 * program.length < 2 ^ 64) (htext : M.Region text (4 * program.length) 4) {k : Nat}
    (hcode : program[k]? = some (some (.bl (f - slot text k)))) {s : State}
    (hs : s.pc = slot text k) :
    Runs (fetchOn M (fetchAt program text)) (execOn M) s
      ((s.set 30 fun s => s.pc + 4).jump f) := by
  refine Runs.one (fetchAt_slot hsize htext hcode hs) ?_
  rw [execOn_of_plain rfl, exec, hs, BitVec.add_comm, BitVec.sub_add_cancel]

end Data

/-! ## The words of `.data` -/

/-- Word `i` of `.data`. -/
def dataWord (i : Nat) : BitVec 64 := L.data + BitVec.ofNat 64 (8 * i)

theorem gFdtBlobPhys_eq : L.gFdtBlobPhys = dataWord L 0 := (BitVec.add_zero _).symm

theorem gFdtBlobSize_eq : L.gFdtBlobSize = dataWord L 1 := rfl

theorem gBootX0_eq : L.gBootX0 = dataWord L 2 := rfl

theorem gInitDescriptionPhys_eq : L.gInitDescriptionPhys = dataWord L 3 := rfl

theorem gInitEntryPhys_eq : L.gInitEntryPhys = dataWord L 4 := rfl

/-- All words of `.data` are aligned memory. -/
theorem permits_dataWord {M : Machine} {n : Nat} (hdata : M.Region L.data (8 * n) 8) {i : Nat}
    (hi : i < n) : M.Permits (dataWord L i) 8 :=
  hdata.permits (by omega) (dvd_refl 8) (dvd_mul_right 8 i) (by decide)

/-! ## `_start` -/

/-- Memory after `x0` has been stored twice. -/
def captured (m : Mem 64) (x0 : BitVec 64) : Mem 64 :=
  store (store m L.gBootX0 8 x0.toNat) L.gFdtBlobPhys 8 x0.toNat

/-- Memory at `fdt_ok`. -/
def recorded (m : Mem 64) (x0 : BitVec 64) : Mem 64 :=
  if Describes m x0 then store m L.gFdtBlobSize 8 (Fdt.be32 (blobAt m x0).bytes 4)
  else store (store m L.gFdtBlobPhys 8 0) L.gFdtBlobSize 8 0

section Start

variable {L} {M : Machine} {text : BitVec 64}

theorem length_start (L : Symbols) (text : BitVec 64) : 4 * (start L text).length < 2 ^ 64 :=
  show 4 * 47 < 2 ^ 64 by decide

/-- What the machine has to have for `_start`. -/
structure Hosts (M : Machine) (L : Symbols) (text : BitVec 64) : Prop where
  text : M.Region text (4 * (start L text).length) 4
  data : M.Region L.data 24 8
  bss : M.Region L.edata (L.bssEnd.toNat - L.edata.toNat) 1

variable (hhosts : Hosts M L text)

include hhosts

theorem fetch_start (k : Nat) {i : Instr} {s : State} (hi : (start L text)[k]? = some (some i))
    (hs : s.pc = slot text k) : fetchOn M (fetchAt (start L text) text) s = some i :=
  fetchAt_slot (length_start L text) hhosts.text hi hs

theorem Hosts.permits {i : Nat} (hi : i < 3) : M.Permits (dataWord L i) 8 :=
  permits_dataWord L hhosts.data hi

theorem runs_start_capture {s : State} (hs : s.pc = text) :
    ∃ t, Runs (fetchOn M (fetchAt (start L text) text)) (execOn M) s t ∧ t.pc = slot text 20 ∧
      t.mem = captured L s.mem (s.get 0) ∧ Keeps [9] s t := by
  have hpc : s.pc = slot text 0 := by rw [hs, slot, BitVec.add_zero]
  have hskip : execOn M (.b 64) s = some (s.jump (slot text 16)) := by
    simp only [execOn_of_plain (i := .b 64) rfl, exec, hs]
    rfl
  obtain ⟨t, hexec, hmem, hkeeps⟩ : ∃ t,
      execAll (execOn M) (capture L) (s.jump (slot text 16)) = some t ∧
      t.mem = captured L s.mem (s.get 0) ∧ Keeps [9] (s.jump (slot text 16)) t :=
    exec_save_save (hhosts.permits (show 2 < 3 by decide))
      (gFdtBlobPhys_eq L ▸ hhosts.permits (show 0 < 3 by decide)) (by decide) (by decide) _
  obtain ⟨hrun, ht⟩ :
      Runs (fetchOn M (fetchAt (start L text) text)) (execOn M) (s.jump (slot text 16)) t ∧
        t.pc = slot text 20 :=
    runs_line (length_start L text) hhosts.text ⟨_, rfl⟩ rfl (State.jump_pc _ _) hexec
  exact ⟨t, (Runs.one (fetch_start hhosts 0 rfl hpc) hskip).trans hrun, ht, hmem,
    ⟨hkeeps.regs, hkeeps.sp, hkeeps.el⟩⟩

/-- `no_fdt` -/
theorem runs_start_noFdt {s : State} (hs : s.pc = slot text 32) :
    ∃ t, Runs (fetchOn M (fetchAt (start L text) text)) (execOn M) s t ∧ t.pc = slot text 36 ∧
      t.mem = store (store s.mem L.gFdtBlobPhys 8 0) L.gFdtBlobSize 8 0 ∧ Keeps [9] s t := by
  obtain ⟨t, hexec, hmem, hkeeps⟩ : ∃ t, execAll (execOn M) (noFdt L) s = some t ∧
      t.mem = store (store s.mem L.gFdtBlobPhys 8 0) L.gFdtBlobSize 8 0 ∧ Keeps [9] s t :=
    exec_save_save (gFdtBlobPhys_eq L ▸ hhosts.permits (show 0 < 3 by decide))
      (hhosts.permits (show 1 < 3 by decide)) (by decide) (by decide) _
  obtain ⟨hrun, ht⟩ : Runs (fetchOn M (fetchAt (start L text) text)) (execOn M) s t ∧
      t.pc = slot text 36 :=
    runs_line (length_start L text) hhosts.text ⟨_, rfl⟩ rfl hs hexec
  exact ⟨t, hrun, ht, hmem, hkeeps⟩

/-- The size of a blob with the magic number, from behind the test to `fdt_ok`. -/
theorem runs_start_recordSize {s : State} (hs : s.pc = slot text 27)
    (hblob : M.Region (s.get 0) 8 4) :
    ∃ t, Runs (fetchOn M (fetchAt (start L text) text)) (execOn M) s t ∧ t.pc = slot text 36 ∧
      t.mem = store s.mem L.gFdtBlobSize 8 (Fdt.be32 (blobAt s.mem (s.get 0)).bytes 4) ∧
      Keeps [9, 12] s t := by
  obtain ⟨t, hexec, hmem, hkeeps⟩ := exec_recordSize L (s := s)
    (hblob.permits (show 4 + 4 ≤ 8 by decide) (dvd_refl 4) (dvd_refl 4) (by decide))
    (hhosts.permits (show 1 < 3 by decide))
  obtain ⟨hrun, ht⟩ : Runs (fetchOn M (fetchAt (start L text) text)) (execOn M) s t ∧
      t.pc = slot text 31 :=
    runs_line (length_start L text) hhosts.text ⟨_, rfl⟩ rfl hs hexec
  have hskip : execOn M (.b 20) t = some (t.jump (slot text 36)) := by
    rw [execOn_of_plain rfl, exec, ht, slot_add text (show _ = BitVec.ofNat 64 (4 * 36) from rfl)]
  exact ⟨t.jump (slot text 36), hrun.trans (Runs.one (fetch_start hhosts 31 rfl ht) hskip),
    State.jump_pc _ _, hmem, ⟨hkeeps.regs, hkeeps.sp, hkeeps.el⟩⟩

/-- From the test of `x0` to `fdt_ok`. -/
theorem runs_start_validate {s : State} (hs : s.pc = slot text 20)
    (hx0 : s.get 0 ≠ 0 → M.Region (s.get 0) 8 4) :
    ∃ t, Runs (fetchOn M (fetchAt (start L text) text)) (execOn M) s t ∧ t.pc = slot text 36 ∧
      t.mem = recorded L s.mem (s.get 0) ∧ Keeps [9, 10, 11, 12] s t := by
  by_cases hzero : s.get 0 = 0
  · -- no blob
    have hexec : execOn M (.cbz 0 48) s = some (s.jump (slot text 32)) := by
      rw [execOn_of_plain rfl, exec_cbz_of_eq hzero, hs,
        slot_add text (show _ = BitVec.ofNat 64 (4 * 32) from rfl)]
    obtain ⟨t, hrun, ht, hmem, hkeeps⟩ := runs_start_noFdt hhosts (State.jump_pc s (slot text 32))
    refine ⟨t, (Runs.one (fetch_start hhosts 20 rfl hs) hexec).trans hrun, ht, ?_,
      ⟨(hkeeps.mono (by decide)).regs, hkeeps.sp, hkeeps.el⟩⟩
    rw [hmem, recorded, if_neg fun h => h.1 hzero]
    rfl
  have hblob := hx0 hzero
  have hpermits : M.Permits (s.get 0) 4 := by
    have hfirst :=
      hblob.permits (show 0 + 4 ≤ 8 by decide) (dvd_refl 4) (dvd_zero 4) (by decide)
    rwa [BitVec.add_zero] at hfirst
  have hs' : s.next.pc = slot text 21 := by rw [State.next_pc, hs, slot_succ]
  obtain ⟨u, hcheck, hflags, hmem, hkeeps⟩ := exec_checkMagic (s := s.next) hpermits
  obtain ⟨hrun, hu⟩ : Runs (fetchOn M (fetchAt (start L text) text)) (execOn M) s.next u ∧
      u.pc = slot text 26 :=
    runs_line (length_start L text) hhosts.text ⟨_, rfl⟩ rfl hs' hcheck
  have hnonzero : execOn M (.cbz 0 48) s = some s.next :=
    (execOn_of_plain rfl).trans (exec_cbz_of_ne hzero)
  have hreach := (Runs.one (fetch_start hhosts 20 rfl hs) hnonzero).trans hrun
  have hsame : u.get 0 = s.get 0 := hkeeps.regs 0 (by decide)
  have hkeeps' : Keeps [9, 10, 11, 12] s u := ⟨(hkeeps.mono (by decide)).regs, hkeeps.sp, hkeeps.el⟩
  by_cases hmagic : Fdt.be32 (blobAt s.mem (s.get 0)).bytes 0 = Fdt.fdtMagic
  · -- a blob
    have hfalse : holds 1 u.flags = false := hflags.trans (decide_eq_false (not_not.mpr hmagic))
    have hu' : u.next.pc = slot text 27 := by rw [State.next_pc, hu, slot_succ]
    have hexec : execOn M (.bCond 1 24) u = some u.next :=
      (execOn_of_plain rfl).trans (exec_bCond_of_false hfalse)
    obtain ⟨t, hsize, ht, hmem', hkeeps''⟩ :=
      runs_start_recordSize hhosts hu' (by rwa [State.get_next, hsame])
    refine ⟨t, hreach.trans ((Runs.one (fetch_start hhosts 26 rfl hu) hexec).trans hsize), ht, ?_,
      hkeeps'.trans ⟨(hkeeps''.mono (by decide)).regs, hkeeps''.sp, hkeeps''.el⟩⟩
    rw [hmem', State.next_mem, State.get_next, hmem, hsame, recorded, State.next_mem,
      if_pos ⟨hzero, hmagic⟩]
  · -- something else
    have htrue : holds 1 u.flags = true := hflags.trans (decide_eq_true hmagic)
    have hexec : execOn M (.bCond 1 24) u = some (u.jump (slot text 32)) := by
      rw [execOn_of_plain rfl, exec_bCond_of_true htrue, hu,
        slot_add text (show _ = BitVec.ofNat 64 (4 * 32) from rfl)]
    obtain ⟨t, hrun', ht, hmem', hkeeps''⟩ :=
      runs_start_noFdt hhosts (State.jump_pc u (slot text 32))
    refine ⟨t, hreach.trans ((Runs.one (fetch_start hhosts 26 rfl hu) hexec).trans hrun'), ht, ?_,
      hkeeps'.trans ⟨(hkeeps''.mono (by decide)).regs, hkeeps''.sp, hkeeps''.el⟩⟩
    rw [hmem', State.jump_mem, hmem, recorded, State.next_mem, if_neg fun h => hmagic h.2]

/-- The whole of `_start`, up to the first instruction of the kernel. -/
theorem runs_start (hL : L.Linked) {s : State} (hs : s.pc = text)
    (hx0 : s.get 0 ≠ 0 → M.Region (s.get 0) 8 4) :
    ∃ t, Runs (fetchOn M (fetchAt (start L text) text)) (execOn M) s t ∧
      t.pc = L.kernelBootAarch64 ∧ t.sp = L.stackTop ∧
      t.mem = zeroed L (recorded L (captured L s.mem (s.get 0)) (s.get 0))
        (L.bssEnd.toNat - L.edata.toNat) := by
  obtain ⟨u, hcapture, hu, humem, hukeeps⟩ := runs_start_capture hhosts hs
  have hsame : u.get 0 = s.get 0 := hukeeps.regs 0 (by decide)
  obtain ⟨v, hvalidate, hv, hvmem, hvkeeps⟩ :=
    runs_start_validate hhosts hu (by rwa [hsame])
  obtain ⟨w, hbss, hw, hwmem, hwkeeps⟩ :=
    runs_zeroBss (k := 36) (length_start L text) hhosts.text ⟨_, rfl⟩ hhosts.bss hL hv
  -- the stack, and the call
  obtain ⟨t, hexec, htsp, htmem⟩ : ∃ t,
      execAll (execOn M) [.ldrSym 9 L.stackTop, .addImm 31 9 0] w = some t ∧ t.sp = L.stackTop ∧
      t.mem = w.mem := by
    refine ⟨_, execAll_execOn_of_plain rfl, ?_, rfl⟩
    simp [State.getSp_of_ne, State.get_set]
  obtain ⟨hstack, ht⟩ : Runs (fetchOn M (fetchAt (start L text) text)) (execOn M) w t ∧
      t.pc = slot text 44 :=
    runs_line (length_start L text) hhosts.text ⟨_, rfl⟩ rfl hw hexec
  have hcall := runs_call (length_start L text) hhosts.text (k := 44) rfl ht
  refine ⟨_, hcapture.trans (hvalidate.trans (hbss.trans (hstack.trans hcall))),
    State.jump_pc _ _, htsp, ?_⟩
  rw [State.jump_mem, State.set_mem, htmem, hwmem, hvmem, humem, hsame]

end Start

/-! ## What the kernel finds in memory -/

theorem load_dataWord_store (m : Mem 64) {i j : Nat} (v : Nat) (hi : i < 5) (hj : j < 5) :
    load (store m (dataWord L j) 8 v) (dataWord L i) 8 =
      if i = j then v % 2 ^ 64 else load m (dataWord L i) 8 :=
  element_store m L.data v (by omega) (by omega)

section Found

variable {L} (hL : L.Linked)

include hL

theorem load_dataWord_zeroed (m : Mem 64) {i : Nat} (hi : i < 5) :
    load (zeroed L m (L.bssEnd.toNat - L.edata.toNat)) (dataWord L i) 8 =
      load m (dataWord L i) 8 := by
  have hdata := hL.data
  have hbss := hL.bss
  have hend := L.bssEnd.isLt
  have hplace : (dataWord L i).toNat = L.data.toNat + 8 * i := toNat_add_ofNat (by omega)
  have happart : Separate (dataWord L i) 8 L.edata (L.bssEnd.toNat - L.edata.toNat) :=
    separate_of_toNat_le (by omega) (by omega)
  exact load_congr (by decide) fun x hx => fill_of_notMem (happart x hx) _

end Found

/-- Only the words of `.data` are stored to before `.bss` is zeroed. -/
theorem store_dataWord_of_not {m : Mem 64} {i v : Nat} (hi : i < 3) {x : BitVec 64}
    (hx : ¬ InExtent L.data 24 x) : store m (dataWord L i) 8 v x = m x :=
  store_of_not_inExtent fun h => hx (InExtent.of_add h (by omega))

theorem captured_of_not {m : Mem 64} {x0 x : BitVec 64} (hx : ¬ InExtent L.data 24 x) :
    captured L m x0 x = m x := by
  rw [captured, gFdtBlobPhys_eq, gBootX0_eq, store_dataWord_of_not L (by decide) hx,
    store_dataWord_of_not L (by decide) hx]

theorem recorded_of_not {m : Mem 64} {x0 x : BitVec 64} (hx : ¬ InExtent L.data 24 x) :
    recorded L m x0 x = m x := by
  unfold recorded
  rw [gFdtBlobPhys_eq, gFdtBlobSize_eq]
  split_ifs
  · exact store_dataWord_of_not L (by decide) hx
  · rw [store_dataWord_of_not L (by decide) hx, store_dataWord_of_not L (by decide) hx]

/-- The header of a blob that does not overlap these words. -/
theorem be32_captured {m : Mem 64} {x0 : BitVec 64} (happart : Separate x0 8 L.data 24) {off : Nat}
    (hoff : off + 4 ≤ 8) :
    Fdt.be32 (blobAt (captured L m x0) x0).bytes off = Fdt.be32 (blobAt m x0).bytes off :=
  be32_of_eqOn (fun _ hx => captured_of_not L (happart _ hx)) hoff

theorem describes_captured {m : Mem 64} {x0 : BitVec 64} (happart : Separate x0 8 L.data 24) :
    Describes (captured L m x0) x0 ↔ Describes m x0 := by
  have hmagic : Fdt.be32 (blobAt (captured L m x0) x0).bytes 0 = Fdt.be32 (blobAt m x0).bytes 0 :=
    be32_captured L happart (show 0 + 4 ≤ 8 by decide)
  rw [Describes, Describes, hmagic]

theorem load_recorded {m : Mem 64} {x0 : BitVec 64} (happart : Separate x0 8 L.data 24) :
    let m' := recorded L (captured L m x0) x0
    load m' L.gBootX0 8 = x0.toNat ∧
      load m' L.gFdtBlobPhys 8 = (if Describes m x0 then x0.toNat else 0) ∧
      load m' L.gFdtBlobSize 8 =
        (if Describes m x0 then Fdt.be32 (blobAt m x0).bytes 4 else 0) := by
  have hx0 : x0.toNat % 2 ^ 64 = x0.toNat := Nat.mod_eq_of_lt x0.isLt
  have hlt := Fdt.be32_lt (blobAt m x0).bytes 4
  have hword : Fdt.be32 (blobAt (captured L m x0) x0).bytes 4 = Fdt.be32 (blobAt m x0).bytes 4 :=
    be32_captured L happart (show 4 + 4 ≤ 8 by decide)
  have hcaptured : ∀ i < 3, load (captured L m x0) (dataWord L i) 8 =
      if i = 0 ∨ i = 2 then x0.toNat else load m (dataWord L i) 8 := by
    intro i hi
    rw [captured, gFdtBlobPhys_eq, gBootX0_eq, load_dataWord_store L _ _ (by omega) (by decide),
      load_dataWord_store L _ _ (by omega) (by decide), hx0]
    split_ifs <;> first | rfl | omega
  simp only [recorded, describes_captured L happart, gFdtBlobPhys_eq, gFdtBlobSize_eq, gBootX0_eq]
  by_cases hdescribes : Describes m x0
  · simp [hdescribes, load_dataWord_store, hcaptured, hword]
    omega
  · simp [hdescribes, load_dataWord_store, hcaptured]

/-- The bytes of `.bss`. -/
def bss : Set (BitVec 64) := extent L.edata (L.bssEnd.toNat - L.edata.toNat)

theorem zeroed_bss {m : Mem 64} {x : BitVec 64} (hx : x ∈ bss L) :
    zeroed L m (L.bssEnd.toNat - L.edata.toNat) x = 0 :=
  if_pos ⟨Nat.zero_le _, hx⟩

theorem zeroed_of_notMem {m : Mem 64} {x : BitVec 64} (hx : x ∉ bss L) :
    zeroed L m (L.bssEnd.toNat - L.edata.toNat) x = m x := fill_of_notMem hx _

/-- What `_start` leaves for `kernel_boot_aarch64`. -/
structure Started (s t : State) : Prop where
  pc : t.pc = L.kernelBootAarch64
  sp : t.sp = L.stackTop
  bootX0 : load t.mem L.gBootX0 8 = (s.get 0).toNat
  blobPhys : load t.mem L.gFdtBlobPhys 8 =
    if Describes s.mem (s.get 0) then (s.get 0).toNat else 0
  blobSize : load t.mem L.gFdtBlobSize 8 =
    if Describes s.mem (s.get 0) then Fdt.be32 (blobAt s.mem (s.get 0)).bytes 4 else 0
  zero : ∀ x ∈ bss L, t.mem x = 0
  rest : ∀ x, ¬ InExtent L.data 24 x → x ∉ bss L → t.mem x = s.mem x

theorem started_of_mem {L : Symbols} (hL : L.Linked) {s t : State}
    (happart : Separate (s.get 0) 8 L.data 24) (hpc : t.pc = L.kernelBootAarch64)
    (hsp : t.sp = L.stackTop)
    (hmem : t.mem = zeroed L (recorded L (captured L s.mem (s.get 0)) (s.get 0))
      (L.bssEnd.toNat - L.edata.toNat)) : Started L s t := by
  obtain ⟨hx0, hphys, hsize⟩ := load_recorded L (m := s.mem) happart
  refine ⟨hpc, hsp, ?_, ?_, ?_, ?_, ?_⟩
  · rw [hmem, gBootX0_eq, load_dataWord_zeroed hL _ (by decide), ← gBootX0_eq, hx0]
  · rw [hmem, gFdtBlobPhys_eq, load_dataWord_zeroed hL _ (by decide), ← gFdtBlobPhys_eq, hphys]
  · rw [hmem, gFdtBlobSize_eq, load_dataWord_zeroed hL _ (by decide), ← gFdtBlobSize_eq, hsize]
  · intro x hx
    rw [hmem, zeroed_bss L hx]
  · intro x hdata hbss
    rw [hmem, zeroed_of_notMem L hbss, recorded_of_not L hdata, captured_of_not L hdata]

/-- **From `_start` to C.**  On a machine where the code, `.data` and `.bss` are memory and
`x0` is 0 or the aligned address of two words of memory, the kernel starts on its own stack,
with `.bss` zeroed, the raw `x0` recorded, and a blob recorded with its own size exactly if it
has the magic number. -/
theorem start_enters_kernel {M : Machine} {L : Symbols} (hL : L.Linked) {text : BitVec 64}
    (hhosts : Hosts M L text) {s : State} (hs : s.pc = text)
    (hx0 : s.get 0 ≠ 0 → M.Region (s.get 0) 8 4) (happart : Separate (s.get 0) 8 L.data 24) :
    ∃ t, Runs (fetchOn M (fetchAt (start L text) text)) (execOn M) s t ∧ Started L s t := by
  obtain ⟨t, hrun, hpc, hsp, hmem⟩ := runs_start hhosts hL hs hx0
  exact ⟨t, hrun, started_of_mem hL happart hpc hsp hmem⟩

/-- An image that is linked at 0x41000000. -/
def sampleSymbols : Symbols where
  data := 0x41100000
  edata := 0x41105000
  bssEnd := 0x41120000
  stackTop := 0x41104030
  kernelBootAarch64 := 0x41001000
  kernelBootAarch64BootProtocol := 0x41002000

theorem sampleSymbols_linked : sampleSymbols.Linked := ⟨by decide, by decide⟩

/-- The machine at `_start`, with the given bytes at `x0`. -/
def sampleState (blob : List UInt8) : State where
  x := fun r => if r = 0 then 0x48000000 else 0
  sp := 0
  pc := 0x41000000
  flags := ⟨false, false, false, false⟩
  el := .el1
  sctlrEl1 := 0
  sctlrEl2 := 0
  mem := fun a => blob.getD (a.toNat - 0x48000000) 0

/-- A machine with memory between 0x40000000 and 0x80000000 and the MMU off. -/
def sampleMachine : Machine where
  backed a := a.toNat / 0x40000000 == 1
  aligned := true
  coherent := false

theorem sampleMachine_region {a : BitVec 64} {n k : Nat} (hlow : 0x40000000 ≤ a.toNat)
    (hhigh : a.toNat + n ≤ 0x80000000) (halign : a.toNat % k = 0) :
    sampleMachine.Region a n k := by
  refine ⟨fun _ => halign, fun i hi => beq_iff_eq.mpr ?_⟩
  rw [toNat_add_ofNat (by omega)]
  omega

theorem sampleMachine_hosts : Hosts sampleMachine sampleSymbols 0x41000000 :=
  ⟨sampleMachine_region (by decide) (by decide) (by decide),
    sampleMachine_region (by decide) (by decide) (by decide),
    sampleMachine_region (by decide) (by decide) (by decide)⟩

theorem start_enters_kernel_with_blob :
    ∃ t, Runs (fetchOn sampleMachine (fetchAt (start sampleSymbols 0x41000000) 0x41000000))
        (execOn sampleMachine) (sampleState [0xd0, 0x0d, 0xfe, 0xed, 0, 0, 1, 0]) t ∧
      load t.mem sampleSymbols.gFdtBlobPhys 8 = 0x48000000 ∧
      load t.mem sampleSymbols.gFdtBlobSize 8 = 256 := by
  have hdescribes : Describes (sampleState [0xd0, 0x0d, 0xfe, 0xed, 0, 0, 1, 0]).mem
      0x48000000 := by decide
  have hsize : Fdt.be32 (blobAt (sampleState [0xd0, 0x0d, 0xfe, 0xed, 0, 0, 1, 0]).mem
      0x48000000).bytes 4 = 256 := by decide
  have hblob : sampleMachine.Region 0x48000000#64 8 4 :=
    sampleMachine_region (by decide) (by decide) (by decide)
  have happart : Separate 0x48000000#64 8 sampleSymbols.data 24 :=
    (separate_of_toNat_le (by decide) (by decide)).symm
  obtain ⟨t, hrun, ht⟩ := start_enters_kernel sampleSymbols_linked sampleMachine_hosts
    (s := sampleState [0xd0, 0x0d, 0xfe, 0xed, 0, 0, 1, 0]) rfl (fun _ => hblob) happart
  exact ⟨t, hrun, ht.blobPhys.trans (if_pos hdescribes),
    (ht.blobSize.trans (if_pos hdescribes)).trans hsize⟩

/-! ## `boot_protocol_start` -/

section Protocol

variable {L} {text : BitVec 64}

theorem length_bootProtocolStart (L : Symbols) (text : BitVec 64) :
    4 * (bootProtocolStart L text).length < 2 ^ 64 :=
  show 4 * 17 < 2 ^ 64 by decide

theorem runs_bootProtocolStart (hL : L.Linked) {s : State} (hs : s.pc = text) :
    ∃ t, Runs (fetchAt (bootProtocolStart L text) text) exec s t ∧
      t.pc = L.kernelBootAarch64BootProtocol ∧ t.sp = s.sp ∧
      t.mem = zeroed L (store (store (captured L s.mem (s.get 0)) L.gInitEntryPhys 8
        (s.get 1).toNat) L.gInitDescriptionPhys 8 (s.get 2).toNat)
          (L.bssEnd.toNat - L.edata.toNat) := by
  have hpc : s.pc = slot text 0 := by rw [hs, slot, BitVec.add_zero]
  rw [← fetchOn_ideal (fetchAt (bootProtocolStart L text) text), ← execOn_ideal]
  have htext := Machine.ideal_region text (4 * (bootProtocolStart L text).length) 4
  obtain ⟨u, hfirst, humem, hukeeps⟩ : ∃ u, execAll (execOn .ideal) (capture L) s = some u ∧
      u.mem = captured L s.mem (s.get 0) ∧ Keeps [9] s u :=
    exec_save_save (Machine.ideal_permits _ 8) (Machine.ideal_permits _ 8) (by decide) (by decide) s
  obtain ⟨v, hsecond, hvmem, hvkeeps⟩ : ∃ v, execAll (execOn .ideal) (captureInit L) u = some v ∧
      v.mem = store (store u.mem L.gInitEntryPhys 8 (u.get 1).toNat) L.gInitDescriptionPhys 8
        (u.get 2).toNat ∧ Keeps [9] u v :=
    exec_save_save (Machine.ideal_permits _ 8) (Machine.ideal_permits _ 8) (by decide) (by decide) u
  obtain ⟨hcapture, hv⟩ :
      Runs (fetchOn .ideal (fetchAt (bootProtocolStart L text) text)) (execOn .ideal) s v ∧
        v.pc = slot text 8 :=
    runs_line (length_bootProtocolStart L text) htext ⟨_, rfl⟩ rfl hpc
      ((execAll_append hfirst).trans hsecond)
  obtain ⟨w, hbss, hw, hwmem, hwkeeps⟩ :=
    runs_zeroBss (k := 8) (length_bootProtocolStart L text) htext ⟨_, rfl⟩
      (Machine.ideal_region _ _ 1) hL hv
  have hcall := runs_call (length_bootProtocolStart L text) htext (k := 14) rfl hw
  refine ⟨_, hcapture.trans (hbss.trans hcall), State.jump_pc _ _, ?_, ?_⟩
  · rw [State.jump_sp, State.set_sp, hwkeeps.sp, hvkeeps.sp, hukeeps.sp]
  · rw [State.jump_mem, State.set_mem, hwmem, hvmem, humem, hukeeps.regs 1 (by decide),
      hukeeps.regs 2 (by decide)]

end Protocol

/-- What `boot_protocol_start` leaves for `kernel_boot_aarch64_boot_protocol`. -/
structure ProtocolStarted (s t : State) : Prop where
  pc : t.pc = L.kernelBootAarch64BootProtocol
  sp : t.sp = s.sp
  bootX0 : load t.mem L.gBootX0 8 = (s.get 0).toNat
  /-- unlike `_start`, whatever `x0` points to -/
  blobPhys : load t.mem L.gFdtBlobPhys 8 = (s.get 0).toNat
  blobSize : load t.mem L.gFdtBlobSize 8 = load s.mem L.gFdtBlobSize 8
  initEntry : load t.mem L.gInitEntryPhys 8 = (s.get 1).toNat
  initDescription : load t.mem L.gInitDescriptionPhys 8 = (s.get 2).toNat
  zero : ∀ x ∈ bss L, t.mem x = 0
  rest : ∀ x, ¬ InExtent L.data 40 x → x ∉ bss L → t.mem x = s.mem x

/-- **From `boot_protocol_start` to C.**  The three registers are recorded as they are: `x0`
is not checked, and the recorded size stays what it was. -/
theorem bootProtocolStart_enters_kernel {L : Symbols} (hL : L.Linked) {text : BitVec 64}
    {s : State} (hs : s.pc = text) :
    ∃ t, Runs (fetchAt (bootProtocolStart L text) text) exec s t ∧ ProtocolStarted L s t := by
  obtain ⟨t, hrun, hpc, hsp, hmem⟩ := runs_bootProtocolStart hL hs
  have hmod : ∀ r, (s.get r).toNat % 2 ^ 64 = (s.get r).toNat :=
    fun r => Nat.mod_eq_of_lt (s.get r).isLt
  have hload : ∀ i < 5, load t.mem (dataWord L i) 8 =
      if i = 3 then (s.get 2).toNat else if i = 4 then (s.get 1).toNat
      else if i = 0 ∨ i = 2 then (s.get 0).toNat else load s.mem (dataWord L i) 8 := by
    intro i hi
    rw [hmem, load_dataWord_zeroed hL _ hi, captured, gFdtBlobPhys_eq, gBootX0_eq,
      gInitDescriptionPhys_eq, gInitEntryPhys_eq, load_dataWord_store L _ _ hi (by decide),
      load_dataWord_store L _ _ hi (by decide), load_dataWord_store L _ _ hi (by decide),
      load_dataWord_store L _ _ hi (by decide), hmod, hmod, hmod]
    split_ifs <;> first | rfl | omega
  refine ⟨t, hrun, hpc, hsp, ?_, ?_, ?_, ?_, ?_, ?_, ?_⟩
  · rw [gBootX0_eq, hload 2 (by decide)]
    rfl
  · rw [gFdtBlobPhys_eq, hload 0 (by decide)]
    rfl
  · rw [gFdtBlobSize_eq, hload 1 (by decide)]
    rfl
  · rw [gInitEntryPhys_eq, hload 4 (by decide)]
    rfl
  · rw [gInitDescriptionPhys_eq, hload 3 (by decide)]
    rfl
  · intro x hx
    rw [hmem, zeroed_bss L hx]
  · intro x hdata hbss
    have hword : ∀ (m : Mem 64) (i v : Nat), i < 5 → store m (dataWord L i) 8 v x = m x :=
      fun m i v hi => store_of_not_inExtent fun h => hdata (InExtent.of_add h (by omega))
    rw [hmem, zeroed_of_notMem L hbss, captured, gFdtBlobPhys_eq, gBootX0_eq,
      gInitDescriptionPhys_eq, gInitEntryPhys_eq, hword _ _ _ (by decide),
      hword _ _ _ (by decide), hword _ _ _ (by decide), hword _ _ _ (by decide)]

theorem bootProtocolStart_enters_kernel_unchecked :
    ∃ t, Runs (fetchAt (bootProtocolStart sampleSymbols 0x41000000) 0x41000000) exec
        (sampleState []) t ∧ load t.mem sampleSymbols.gFdtBlobPhys 8 = 0x48000000 := by
  obtain ⟨t, hrun, ht⟩ := bootProtocolStart_enters_kernel sampleSymbols_linked
    (s := sampleState []) rfl
  exact ⟨t, hrun, ht.blobPhys⟩

end EntryAarch64
end Boot
end Saski
