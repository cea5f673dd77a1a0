import Saski.Lib.MemoryPatch
import Saski.Tools.StubFile

/-!
# The EFI stub on the machine

The 60 words that `mkstub.py` writes down, run from memory by the A64 machine.

* `program` names the words; `decode_words` compares the two.
* The blocks of the stub: `runs_setup`, the copy loop with its invariant `Copying`, the
  choice of the control register by the exception level, and the jump to the kernel.
* `stub_boots_kernel` puts them together for every kernel and every destination that does
  not overlap the loaded image.
* Memory is mapped to itself, so that switching the MMU off changes no address.
* The stub copies through the data cache and switches it off without cleaning it.  Whether
  the kernel is in memory then is up to the machine: it has to be coherent, unless the cache
  was off before (`cacheOn`).
-/

namespace Saski
namespace Tools
namespace Mkstub

open ByteMemory StoreLog ByteString PeImage A64 CodeRun

/-! ## The code -/

/-- The destination's address in `x11` and `x14`, the kernel's in `x9`, its length in `x10`. -/
def setupCode : List Instr :=
  [.nop, .nop, .nop, .mov 12 1, .movz .x 0 0 0, .movk .x 0 0x4000 16, .adr 9 232, .ldrLit 10 212,
    .ldrLit 11 216, .mov 14 11]

/-- `copy:`, one byte in each iteration. -/
def copyCode : List Instr :=
  [.cbz 10 20, .ldrb 13 9 1, .strb 13 11 1, .subImm 10 10 1, .b (-16)]

/-- Which of the two control registers is the active one. -/
def levelCode : List Instr :=
  [.movz .x 10 0x1005 0, .mrs 9 .currentEl, .lsr 9 9 2, .andImm 9 9 3, .cmpImm 9 2, .bCond 1 20]

/-- The MMU and the caches off, at EL2. -/
def el2Code : List Instr := [.mrs 9 .sctlrEl2, .bic 9 9 10, .msr .sctlrEl2 9, .b 16]

/-- `use_el1:` -/
def el1Code : List Instr := [.mrs 9 .sctlrEl1, .bic 9 9 10, .msr .sctlrEl1 9]

/-- `done_mmu:` -/
def leaveCode : List Instr := [.barrier, .barrier, .barrier, .barrier, .barrier, .br 14]

/-- The instructions of the stub. -/
def program : List Instr :=
  setupCode ++ (copyCode ++ (levelCode ++ (el2Code ++ (el1Code ++ (leaveCode ++
    List.replicate 26 .nop)))))

theorem decode_words : words.map decode = program.map some := by decide +kernel

/-- What the machine has to have for the stub: the loaded image, aligned for the literals,
and the destination. -/
structure Hosts (M : Machine) (kernel : List UInt8) (kernelDst : Nat) (text : BitVec 64) :
    Prop where
  image : M.Region text (256 + kernel.length) 8
  dst : M.Region (BitVec.ofNat 64 kernelDst) kernel.length 1

section Hosts

variable {M : Machine} {kernel : List UInt8} {kernelDst : Nat} {text : BitVec 64}
  (hhosts : Hosts M kernel kernelDst text)

include hhosts

/-- An instruction of the code in memory. -/
theorem fetch_code {m : Mem 64} (hcode : Holds m text (words.flatMap (leBytes 4))) (k : Nat)
    (i : Instr) (s : State) (hi : program[k]? = some i) (hs : At text m k s) :
    fetchOn M fetch s = some i := by
  have hk : k < 60 := (List.getElem?_eq_some_iff.mp hi).1
  have hdecode := congrArg (·[k]?) decode_words
  simp only [List.getElem?_map, hi, Option.map_some, Option.map_eq_some_iff] at hdecode
  obtain ⟨w, hword, hdecode⟩ := hdecode
  have hlt : w < 2 ^ (8 * 4) := by
    have hall : ∀ w ∈ words, w < 2 ^ (8 * 4) := by decide
    exact hall w (List.mem_of_getElem? hword)
  have hload : load m (text + BitVec.ofNat 64 (4 * k)) 4 = w := hcode.load (unpack_words hword hlt)
  have hpermits : M.Permits s.pc 4 := by
    rw [hs.pc]
    exact hhosts.image.permits (by omega) (by decide) (dvd_mul_right 4 k) (by decide)
  rw [fetchOn, if_pos hpermits, fetch, hs.mem, hs.pc, slot, hload, hdecode]

/-- A straight part of the code. -/
theorem runs_part {m : Mem 64} (hcode : Holds m text (words.flatMap (leBytes 4))) {k : Nat}
    {is : List Instr} (his : is <+: program.drop k) (hstraight : ∀ i ∈ is, i.straight = true)
    {s t : State} (hs : At text m k s) (hexec : execAll (execOn M) is s = some t) :
    Runs (fetchOn M fetch) (execOn M) s t ∧ At text m (k + is.length) t :=
  runs_straight (fetch_code hhosts hcode) his hstraight hs hexec

end Hosts

/-! ## The copy -/

section Copy

variable {M : Machine} {kernel image : List UInt8} {kernelDst : Nat} {m : Mem 64}
  {text : BitVec 64} (hhosts : Hosts M kernel kernelDst text)

/-- What only `msr` changes. -/
structure SameSystem (s t : State) : Prop where
  el : t.el = s.el
  sctlrEl1 : t.sctlrEl1 = s.sctlrEl1
  sctlrEl2 : t.sctlrEl2 = s.sctlrEl2

include hhosts in
/-- A literal behind the code. -/
theorem permits_literal {k : Nat} (hk : k < 2) :
    M.Permits (text + BitVec.ofNat 64 (240 + 8 * k)) 8 :=
  hhosts.image.permits (by omega) (dvd_refl 8) (by omega) (by decide)

include hhosts in
theorem runs_setup (himage : stubImage kernel kernelDst = .ok image) (hholds : Holds m text image)
    {s : State} (hs : At text m 0 s) :
    ∃ t, Runs (fetchOn M fetch) (execOn M) s t ∧ At text m 10 t ∧ t.get 0 = 0x40000000 ∧
      t.get 9 = text + 256#64 ∧ t.get 10 = BitVec.ofNat 64 kernel.length ∧
      t.get 11 = BitVec.ofNat 64 kernelDst ∧ t.get 14 = BitVec.ofNat 64 kernelDst ∧
      SameSystem s t := by
  have hcode := holds_code himage hholds
  obtain ⟨hlength, hdst⟩ := load_lits himage hholds
  -- up to the literals
  obtain ⟨u, hbefore, hpc, hmem, hx0, hx9, hsystem⟩ : ∃ u,
      execAll (execOn M) (setupCode.take 7) s = some u ∧ u.pc = text + 28#64 ∧ u.mem = m ∧
      u.get 0 = 0x40000000 ∧ u.get 9 = text + 256#64 ∧ SameSystem s u := by
    refine ⟨_, execAll_execOn_of_plain (by decide), ?_, hs.mem, ?_, ?_, ⟨rfl, rfl, rfl⟩⟩
    · simp [hs.pc, slot, BitVec.add_assoc]
    · simp [State.get_set, cut]
    · simp [State.get_set, hs.pc, slot, BitVec.add_assoc]
  obtain ⟨t, hafter, ht⟩ : ∃ t, execAll (execOn M) (setupCode.drop 7) u = some t ∧
      t.get 0 = 0x40000000 ∧ t.get 9 = text + 256#64 ∧
      t.get 10 = BitVec.ofNat 64 kernel.length ∧ t.get 11 = BitVec.ofNat 64 kernelDst ∧
      t.get 14 = BitVec.ofNat 64 kernelDst ∧ SameSystem s t := by
    let v := (u.set 10 fun u => BitVec.ofNat 64 (load u.mem (u.pc + 212) 8)).next
    have hv : v.pc = text + 32#64 := by
      simp [v, hpc, BitVec.add_assoc]
    have hfirst : execOn M (.ldrLit 10 212) u = some v :=
      execOn_of_permits (permits_literal hhosts (show 0 < 2 by decide))
        (by simp [Instr.accesses, hpc, BitVec.add_assoc]) rfl
    have hsecond : execOn M (.ldrLit 11 216) v = exec (.ldrLit 11 216) v :=
      execOn_of_permits (permits_literal hhosts (show 1 < 2 by decide))
        (by simp [Instr.accesses, hv, BitVec.add_assoc]) rfl
    refine ⟨_, (execAll_cons hfirst).trans ((execAll_cons hsecond).trans
      (execAll_execOn_of_plain rfl)), ?_, ?_, ?_, ?_, ?_,
      ⟨hsystem.el, hsystem.sctlrEl1, hsystem.sctlrEl2⟩⟩
    · simp [v, State.get_set, hx0]
    · simp [v, State.get_set, hx9]
    · simp [v, State.get_set, hpc, hmem, BitVec.add_assoc, hlength]
    · simp [v, State.get_set, hpc, hmem, BitVec.add_assoc, hdst]
    · simp [v, State.get_set, hpc, hmem, BitVec.add_assoc, hdst]
  obtain ⟨hrun, hplace⟩ : Runs (fetchOn M fetch) (execOn M) s t ∧ At text m 10 t :=
    runs_part hhosts hcode (show setupCode <+: program.drop 0 by decide) (by decide) hs
      ((execAll_append hbefore).trans hafter)
  exact ⟨t, hrun, hplace, ht⟩

/-- Memory after `j` bytes of the kernel have been copied. -/
def copied (kernel : List UInt8) (kernelDst : Nat) (m : Mem 64) (j : Nat) : Mem 64 :=
  fill m (BitVec.ofNat 64 kernelDst) 0 j fun i => kernel.getD i 0

/-- The head of the copy loop. -/
structure Copying (kernel : List UInt8) (kernelDst : Nat) (m : Mem 64) (text : BitVec 64)
    (s₀ : State) (j : Nat) (s : State) : Prop where
  place : At text (copied kernel kernelDst m j) 10 s
  src : s.get 9 = text + 256#64 + BitVec.ofNat 64 j
  left : s.get 10 = BitVec.ofNat 64 (kernel.length - j)
  dst : s.get 11 = BitVec.ofNat 64 kernelDst + BitVec.ofNat 64 j
  x0 : s.get 0 = 0x40000000
  x14 : s.get 14 = BitVec.ofNat 64 kernelDst
  system : SameSystem s₀ s

theorem holds_copied (hholds : Holds m text image) (hsize : image.length ≤ 2 ^ 64)
    (happart : Separate (BitVec.ofNat 64 kernelDst) kernel.length text image.length) {j : Nat}
    (hj : j ≤ kernel.length) : Holds (copied kernel kernelDst m j) text image := by
  intro i b hi
  have hlt := (List.getElem?_eq_some_iff.mp hi).1
  rw [copied, fill_of_notMem, hholds i b hi]
  intro hmem
  exact happart _ (extent_mono _ hj hmem) (inExtent_add hsize hlt)

/-- The byte that is copied next. -/
theorem Copying.byte (himage : stubImage kernel kernelDst = .ok image) {s₀ s : State} {j : Nat}
    (hheld : Holds (copied kernel kernelDst m j) text image) (hj : j < kernel.length)
    (hs : Copying kernel kernelDst m text s₀ j s) :
    copied kernel kernelDst m j (s.get 9) = kernel.getD j 0 := by
  rw [hs.src]
  refine holds_kernel himage hheld j _ ?_
  rw [List.getD_eq_getElem?_getD, List.getElem?_eq_getElem hj]
  rfl

/-- The loop goes on while bytes are left. -/
theorem Copying.left_ne_zero {s₀ s : State} {j : Nat} (hj : j < kernel.length)
    (hsize : kernel.length < 2 ^ 64) (hs : Copying kernel kernelDst m text s₀ j s) :
    s.get 10 ≠ 0 := by
  rw [hs.left]
  intro hzero
  have hleft : kernel.length - j = 0 := by
    rw [← Nat.mod_eq_of_lt (show kernel.length - j < 2 ^ 64 by omega), ← BitVec.toNat_ofNat, hzero]
    rfl
  omega

include hhosts in
theorem runs_iteration (himage : stubImage kernel kernelDst = .ok image)
    (hholds : Holds m text image) (hsize : image.length ≤ 2 ^ 64)
    (happart : Separate (BitVec.ofNat 64 kernelDst) kernel.length text image.length) {s₀ : State}
    {j : Nat} (hj : j < kernel.length) {s : State} (hs : Copying kernel kernelDst m text s₀ j s) :
    ∃ t, Runs (fetchOn M fetch) (execOn M) s t ∧ Copying kernel kernelDst m text s₀ (j + 1) t := by
  have hlength := length_image himage
  have hheld := holds_copied hholds hsize happart hj.le
  have hheld' := holds_copied hholds hsize happart (show j + 1 ≤ kernel.length from hj)
  have hcode := holds_code himage hheld
  have hcode' := holds_code himage hheld'
  have hbyte := hs.byte himage hheld hj
  have hne := hs.left_ne_zero hj (by omega)
  -- `cbz`, which does not branch, and the load
  have hcbz : execOn M (.cbz 10 20) s = some s.next :=
    (execOn_of_plain rfl).trans (exec_cbz_of_ne hne)
  have hs₁ : At text (copied kernel kernelDst m j) 11 s.next :=
    ⟨by rw [State.next_pc, hs.place.pc, slot_succ], hs.place.mem⟩
  have hsource : M.Permits (s.next.getSp 9) 1 := by
    rw [State.getSp_of_ne _ (by decide), State.get_next, hs.src, BitVec.add_assoc,
      ← BitVec.ofNat_add]
    exact hhosts.image.permits (by omega) (one_dvd _) (one_dvd _) (one_dvd _)
  let u := ((s.next.set 13 fun t => BitVec.ofNat 64 (t.mem (s.next.getSp 9)).toNat).setSp 9
    fun _ => s.next.getSp 9 + 1).next
  obtain ⟨hload, hs₂⟩ :
      Runs (fetchOn M fetch) (execOn M) s.next u ∧ At text (copied kernel kernelDst m j) 12 u :=
    runs_part hhosts hcode (show [.ldrb 13 9 1] <+: program.drop 11 by decide) (by decide) hs₁
      (execAll_cons (execOn_of_permits hsource rfl rfl))
  -- the store, whose address and byte the invariant knows
  have hdst : u.getSp 11 = BitVec.ofNat 64 kernelDst + BitVec.ofNat 64 j := by
    simp [u, State.getSp_of_ne, State.setSp_of_ne, State.get_set, hs.dst]
  have hvalue : UInt8.ofNat (u.get 13).toNat = kernel.getD j 0 := by
    simp [u, State.getSp_of_ne, State.setSp_of_ne, State.get_set, hs.place.mem, hbyte]
  have hmem : Function.update u.mem (u.getSp 11) (UInt8.ofNat (u.get 13).toNat) =
      copied kernel kernelDst m (j + 1) := by
    rw [hs₂.mem, hdst, hvalue]
    exact fill_succ m _ (Nat.zero_le j) (by omega) _
  let v := ((u.setMem (copied kernel kernelDst m (j + 1))).setSp 11
    fun u => u.getSp 11 + 1).next
  have htarget : M.Permits (u.getSp 11) 1 := by
    rw [hdst]
    exact hhosts.dst.permits (by omega) (one_dvd _) (one_dvd _) (one_dvd _)
  have hstore : execOn M (.strb 13 11 1) u = some v := by
    rw [execOn_of_permits htarget rfl rfl]
    simp only [exec, hmem, v]
  have hs₃ : At text (copied kernel kernelDst m (j + 1)) 13 v :=
    ⟨by rw [← slot_succ, ← hs₂.pc]; rfl, rfl⟩
  -- the count, and back to the head
  let t := (v.setSp 10 fun v => v.getSp 10 - 1).next
  obtain ⟨hcount, hs₄⟩ :
      Runs (fetchOn M fetch) (execOn M) v t ∧ At text (copied kernel kernelDst m (j + 1)) 14 t :=
    runs_part hhosts hcode' (show [.subImm 10 10 1] <+: program.drop 13 by decide) (by decide) hs₃
      (execAll_execOn_of_plain rfl)
  have hback : execOn M (.b (-16)) t = some (t.jump (slot text 10)) := by
    have hpc : t.pc + (-16) = slot text 10 := by
      rw [hs₄.pc]
      simp [slot, BitVec.add_assoc]
    rw [execOn_of_plain rfl, exec, hpc]
  have hnext : ∀ a : BitVec 64, a + BitVec.ofNat 64 j + 1 = a + BitVec.ofNat 64 (j + 1) := by
    intro a
    rw [BitVec.add_assoc, BitVec.ofNat_add]
    rfl
  have hkeep : ∀ r : Reg, r ∉ [9, 10, 11, 13] → t.get r = s.get r := by
    intro r hr
    simp only [List.mem_cons, List.not_mem_nil, or_false, not_or] at hr
    simp [t, v, u, State.setSp_of_ne, State.get_set, hr]
  refine ⟨t.jump (slot text 10), ?_, ⟨rfl, hs₄.mem⟩, ?_, ?_, ?_, ?_, ?_, ?_⟩
  · exact (Runs.one (fetch_code hhosts hcode 10 _ s rfl hs.place) hcbz).trans (hload.trans
      ((Runs.one (fetch_code hhosts hcode 12 _ u rfl hs₂) hstore).trans (hcount.trans
        (Runs.one (fetch_code hhosts hcode' 14 _ t rfl hs₄) hback))))
  · rw [← hnext, ← hs.src]
    rfl
  · have hcounted : (t.jump (slot text 10)).get 10 = s.get 10 - 1 := rfl
    rw [hcounted, hs.left, show kernel.length - j = kernel.length - (j + 1) + 1 by omega,
      BitVec.ofNat_add]
    exact BitVec.add_sub_cancel _ _
  · rw [← hnext, ← hs.dst]
    rfl
  · exact (hkeep 0 (by decide)).trans hs.x0
  · exact (hkeep 14 (by decide)).trans hs.x14
  · exact ⟨hs.system.el, hs.system.sctlrEl1, hs.system.sctlrEl2⟩

include hhosts in
/-- The whole copy: from the setup to `mov x10, #0x1005`. -/
theorem runs_copy (himage : stubImage kernel kernelDst = .ok image) (hholds : Holds m text image)
    (hsize : image.length ≤ 2 ^ 64)
    (happart : Separate (BitVec.ofNat 64 kernelDst) kernel.length text image.length) {s : State}
    (hs : At text m 0 s) :
    ∃ t, Runs (fetchOn M fetch) (execOn M) s t ∧
      At text (copied kernel kernelDst m kernel.length) 15 t ∧ t.get 0 = 0x40000000 ∧
      t.get 14 = BitVec.ofNat 64 kernelDst ∧ SameSystem s t := by
  obtain ⟨u, hsetup, hu, hx0, hsrc, hleft, hdst, hx14, hsystem⟩ :=
    runs_setup hhosts himage hholds hs
  have hstart : Copying kernel kernelDst m text s 0 u := by
    refine ⟨?_, ?_, hleft, ?_, hx0, hx14, hsystem⟩
    · rwa [copied, fill_empty _ _ le_rfl]
    · rw [hsrc, BitVec.add_zero]
    · rw [hdst, BitVec.add_zero]
  obtain ⟨v, hloop, hv⟩ := Runs.loop (Copying kernel kernelDst m text s)
    (fun j hj _ => runs_iteration hhosts himage hholds hsize happart hj) hstart
  have hcode := holds_code himage (holds_copied hholds hsize happart le_rfl)
  have hzero : v.get 10 = 0 := by
    rw [hv.left, Nat.sub_self]
    rfl
  have hcbz : execOn M (.cbz 10 20) v = some (v.jump (slot text 15)) := by
    have hpc : v.pc + 20 = slot text 15 := by
      rw [hv.place.pc]
      simp [slot, BitVec.add_assoc]
    rw [execOn_of_plain rfl, exec_cbz_of_eq hzero, hpc]
  have hlast := Runs.one (fetch_code hhosts hcode 10 _ v rfl hv.place) hcbz
  exact ⟨_, hsetup.trans (hloop.trans hlast), ⟨rfl, hv.place.mem⟩, hv.x0, hv.x14,
    ⟨hv.system.el, hv.system.sctlrEl1, hv.system.sctlrEl2⟩⟩

end Copy

/-! ## The MMU and the jump -/

section Leave

variable {M : Machine} {kernel : List UInt8} {kernelDst : Nat} {m : Mem 64} {text : BitVec 64}
  (hhosts : Hosts M kernel kernelDst text) (hcode : Holds m text (words.flatMap (leBytes 4)))

/-- The data cache is on: bit `C` of the active control register. -/
def cacheOn (s : State) : Bool :=
  (if s.el = .el2 then s.sctlrEl2 else s.sctlrEl1).getLsbD 2

/-- `cmp x9, #2; b.ne use_el1` -/
theorem holds_level (el : El) (hel : el ≠ .el0) :
    holds 1 (subFlags (BitVec.ofNat 64 (el.number * 4) >>> 2 &&& 3) 2) = decide (el ≠ .el2) := by
  cases el <;> first | exact absurd rfl hel | decide

include hhosts hcode

theorem runs_level {s : State}
    (hs : At text m 15 s) (hel : s.el ≠ .el0) :
    ∃ t, Runs (fetchOn M fetch) (execOn M) s t ∧ At text m (if s.el = .el2 then 21 else 25) t ∧
      t.get 10 = 0x1005 ∧ (∀ r : Reg, r ∉ [9, 10] → t.get r = s.get r) ∧ SameSystem s t := by
  -- Everything in front of the branch; the level decides it.
  obtain ⟨u, hexec, hflags, hx10, hkeep, hsystem⟩ : ∃ u,
      execAll (execOn M) levelCode.dropLast s = some u ∧
      u.flags = subFlags (BitVec.ofNat 64 (s.el.number * 4) >>> 2 &&& 3) 2 ∧
      u.get 10 = 0x1005 ∧ (∀ r : Reg, r ∉ [9, 10] → u.get r = s.get r) ∧ SameSystem s u := by
    refine ⟨?u, ?exec, ?_⟩
    case exec =>
      rw [execAll_execOn_of_plain (by decide)]
      simp only [levelCode, List.dropLast, execAll, exec, readSys, Option.bind_some,
        State.next_el, State.set_el, if_neg hel, Option.map_some]
      rfl
    refine ⟨?_, ?_, ?_, ⟨rfl, rfl, rfl⟩⟩
    · simp [State.getSp_of_ne, State.get_set]
    · simp [State.get_set, cut]
    · intro r hr
      simp only [List.mem_cons, List.not_mem_nil, or_false, not_or] at hr
      simp [State.get_set, hr]
  obtain ⟨hrun, hu⟩ : Runs (fetchOn M fetch) (execOn M) s u ∧ At text m 20 u :=
    runs_part hhosts hcode (by decide) (by decide) hs hexec
  have hbranch : execOn M (.bCond 1 20) u =
      some (u.jump (slot text (if s.el = .el2 then 21 else 25))) := by
    rw [execOn_of_plain rfl]
    simp only [exec, hflags, holds_level s.el hel, decide_eq_true_eq, hu.pc]
    by_cases htwo : s.el = .el2 <;> simp [htwo, slot, BitVec.add_assoc]
  exact ⟨_, hrun.trans (Runs.one (fetch_code hhosts hcode 20 _ u rfl hu) hbranch), ⟨rfl, hu.mem⟩,
    hx10, hkeep, ⟨hsystem.el, hsystem.sctlrEl1, hsystem.sctlrEl2⟩⟩

omit hhosts hcode in
/-- A control register without the bits of the mask, before it is written back. -/
theorem exec_masked {r : SysReg} {v : BitVec 64} {s : State} (hread : readSys s r = some v)
    (hmask : s.get 10 = 0x1005#64) :
    ∃ u, execAll (execOn M) [.mrs 9 r, .bic 9 9 10] s = some u ∧
      u.get 9 = v &&& ~~~0x1005#64 ∧ (∀ r : Reg, r ≠ 9 → u.get r = s.get r) ∧
      SameSystem s u := by
  refine ⟨?u, ?exec, ?_⟩
  case exec =>
    rw [execAll_execOn_of_plain rfl]
    simp only [execAll, exec, hread, Option.map_some, Option.bind_some]
    rfl
  refine ⟨?_, fun r hr => ?_, ⟨rfl, rfl, rfl⟩⟩
  · simp [State.get_set, hmask]
  · simp [State.get_set, hr]

/-- The branch of EL2. -/
theorem runs_el2 {s : State} (hs : At text m 21 s) (hel : s.el = .el2)
    (hmask : s.get 10 = 0x1005#64) (hcache : s.sctlrEl2.getLsbD 2 = true → M.coherent = true) :
    ∃ t, Runs (fetchOn M fetch) (execOn M) s t ∧ At text m 28 t ∧
      (∀ r : Reg, r ≠ 9 → t.get r = s.get r) ∧ t.el = s.el ∧ t.sctlrEl1 = s.sctlrEl1 ∧
      t.sctlrEl2 = s.sctlrEl2 &&& ~~~0x1005#64 := by
  have hread : readSys s .sctlrEl2 = some s.sctlrEl2 := if_neg (by simp [hel])
  obtain ⟨u, hmasked, hx9, hkeep, hsystem⟩ := exec_masked (M := M) hread hmask
  have hwrite : execOn M (.msr .sctlrEl2 9) u = some (u.setSctlrEl2 (u.get 9)).next := by
    have hlevel : writeSys u (u.get 9) .sctlrEl2 = some (u.setSctlrEl2 (u.get 9)) :=
      if_neg (by simp [hsystem.el, hel])
    have hoff : Instr.cacheOff (.msr .sctlrEl2 9) u = true → M.coherent = true := fun h =>
      hcache (hsystem.sctlrEl2 ▸ (Bool.and_eq_true_iff.mp h).1)
    rw [execOn_eq (List.forall_mem_nil _) hoff, exec, hlevel, Option.map_some]
  obtain ⟨hrun, ht⟩ := runs_part hhosts hcode
    (show el2Code.take 3 <+: program.drop 21 by decide) (by decide) hs
    ((execAll_append hmasked).trans (execAll_cons hwrite))
  have hskip : execOn M (.b 16) (u.setSctlrEl2 (u.get 9)).next =
      some ((u.setSctlrEl2 (u.get 9)).next.jump (slot text 28)) := by
    rw [execOn_of_plain rfl, exec, ht.pc,
      slot_add text (show _ = BitVec.ofNat 64 (4 * 28) from rfl)]
  exact ⟨_, hrun.trans (Runs.one (fetch_code hhosts hcode 24 _ _ rfl ht) hskip), ⟨rfl, ht.mem⟩,
    hkeep, hsystem.el, hsystem.sctlrEl1, hx9⟩

/-- The branch `use_el1`. -/
theorem runs_el1 {s : State} (hs : At text m 25 s) (hel : s.el ≠ .el0)
    (hmask : s.get 10 = 0x1005#64) (hcache : s.sctlrEl1.getLsbD 2 = true → M.coherent = true) :
    ∃ t, Runs (fetchOn M fetch) (execOn M) s t ∧ At text m 28 t ∧
      (∀ r : Reg, r ≠ 9 → t.get r = s.get r) ∧ t.el = s.el ∧
      t.sctlrEl1 = s.sctlrEl1 &&& ~~~0x1005#64 ∧ t.sctlrEl2 = s.sctlrEl2 := by
  have hread : readSys s .sctlrEl1 = some s.sctlrEl1 := if_neg hel
  obtain ⟨u, hmasked, hx9, hkeep, hsystem⟩ := exec_masked (M := M) hread hmask
  have hwrite : execOn M (.msr .sctlrEl1 9) u = some (u.setSctlrEl1 (u.get 9)).next := by
    have hlevel : writeSys u (u.get 9) .sctlrEl1 = some (u.setSctlrEl1 (u.get 9)) :=
      if_neg (hsystem.el ▸ hel)
    have hoff : Instr.cacheOff (.msr .sctlrEl1 9) u = true → M.coherent = true := fun h =>
      hcache (hsystem.sctlrEl1 ▸ (Bool.and_eq_true_iff.mp h).1)
    rw [execOn_eq (List.forall_mem_nil _) hoff, exec, hlevel, Option.map_some]
  obtain ⟨hrun, ht⟩ := runs_part hhosts hcode
    (show el1Code <+: program.drop 25 by decide) (by decide) hs
    ((execAll_append hmasked).trans (execAll_cons hwrite))
  exact ⟨_, hrun, ht, hkeep, hsystem.el, hx9, hsystem.sctlrEl2⟩

/-- From `mov x10, #0x1005` to `done_mmu`: the MMU and the caches of this level are off. -/
theorem runs_mmuOff {s : State}
    (hs : At text m 15 s) (hel : s.el ≠ .el0) (hcache : cacheOn s = true → M.coherent = true) :
    ∃ t, Runs (fetchOn M fetch) (execOn M) s t ∧ At text m 28 t ∧
      (∀ r : Reg, r ∉ [9, 10] → t.get r = s.get r) ∧ t.el = s.el ∧
      t.sctlrEl1 = (if s.el = .el2 then s.sctlrEl1 else s.sctlrEl1 &&& ~~~0x1005#64) ∧
      t.sctlrEl2 = (if s.el = .el2 then s.sctlrEl2 &&& ~~~0x1005#64 else s.sctlrEl2) := by
  obtain ⟨u, hlevel, hu, hmask, hkeep, hsystem⟩ := runs_level hhosts hcode hs hel
  have hregs : ∀ t : State, (∀ r : Reg, r ≠ 9 → t.get r = u.get r) →
      ∀ r : Reg, r ∉ [9, 10] → t.get r = s.get r := by
    intro t ht r hr
    rw [ht r fun h => hr (h ▸ List.mem_cons_self), hkeep r hr]
  rw [← hsystem.el, ← hsystem.sctlrEl1, ← hsystem.sctlrEl2]
  rw [← hsystem.el] at hu hel
  rw [cacheOn, ← hsystem.el, ← hsystem.sctlrEl1, ← hsystem.sctlrEl2] at hcache
  by_cases htwo : u.el = .el2
  · rw [if_pos htwo] at hu hcache ⊢
    obtain ⟨t, hrun, ht, hothers, hel', hel1, hel2⟩ := runs_el2 hhosts hcode hu htwo hmask hcache
    exact ⟨t, hlevel.trans hrun, ht, hregs t hothers, hel', hel1, by rw [if_pos htwo, hel2]⟩
  · rw [if_neg htwo] at hu hcache ⊢
    obtain ⟨t, hrun, ht, hothers, hel', hel1, hel2⟩ := runs_el1 hhosts hcode hu hel hmask hcache
    exact ⟨t, hlevel.trans hrun, ht, hregs t hothers, hel', hel1, by rw [if_neg htwo, hel2]⟩

/-- `done_mmu`: to the kernel. -/
theorem runs_leave {s : State}
    (hs : At text m 28 s) : Runs (fetchOn M fetch) (execOn M) s (s.jump (s.get 14)) := by
  have hexec : execAll (execOn M) leaveCode.dropLast s = some s.next.next.next.next.next := by
    rw [execAll_execOn_of_plain (by decide)]
    simp only [leaveCode, List.dropLast, execAll, exec, Option.bind_some]
  obtain ⟨hrun, hu⟩ := runs_part hhosts hcode (by decide) (by decide) hs hexec
  have hbr : execOn M (.br 14) s.next.next.next.next.next = some (s.jump (s.get 14)) := by
    rw [execOn_of_plain rfl]
    simp only [exec, State.get_next, State.jump_next]
  exact hrun.trans (Runs.one (fetch_code hhosts hcode 33 (.br 14) _ rfl hu) hbr)

end Leave

/-- **The stub boots the kernel.**  On a machine where the image and the destination are
memory, and which is coherent or has its data cache off: from the entry point of the loaded
file, at EL1 or above, it reaches the destination with the kernel copied there, everything
else in memory as it was, `x0` at the start of RAM and the MMU and the caches of the level
switched off. -/
theorem stub_boots_kernel {M : Machine} {kernel file : List UInt8} {kernelDst : Nat} {pe : Pe}
    (hfile : mkstub kernel kernelDst = .ok file) (hpe : parse file = some pe) {base : BitVec 64}
    {s : State} (hloaded : pe.Loaded file s.mem base)
    (hpc : s.pc = base + BitVec.ofNat 64 pe.entryPoint) (hel : s.el ≠ .el0)
    (hhosts : Hosts M kernel kernelDst s.pc) (hcache : cacheOn s = true → M.coherent = true)
    (happart : Separate (BitVec.ofNat 64 kernelDst) kernel.length s.pc (256 + kernel.length)) :
    ∃ t, Runs (fetchOn M fetch) (execOn M) s t ∧ t.pc = BitVec.ofNat 64 kernelDst ∧
      t.get 0 = 0x40000000 ∧
      t.mem = fill s.mem (BitVec.ofNat 64 kernelDst) 0 kernel.length (kernel.getD · 0) ∧
      Holds t.mem (BitVec.ofNat 64 kernelDst) kernel ∧ t.el = s.el ∧
      t.sctlrEl1 = (if s.el = .el2 then s.sctlrEl1 else s.sctlrEl1 &&& ~~~0x1005#64) ∧
      t.sctlrEl2 = (if s.el = .el2 then s.sctlrEl2 &&& ~~~0x1005#64 else s.sctlrEl2) := by
  obtain ⟨image, hbuilt⟩ := mkstub_eq_ok_iff.mp hfile
  obtain rfl := Option.some.inj (hpe.symm.trans (parse_file hbuilt))
  have hholds : Holds s.mem s.pc image := hpc ▸ holds_of_loaded hbuilt hloaded
  have hlength := length_image hbuilt.stub
  have hsmall := (exists_mkstub_iff.mp ⟨file, hfile⟩).2
  have hsize : image.length ≤ 2 ^ 64 := by omega
  rw [← hlength] at happart
  have hstart : At s.pc s.mem 0 s := ⟨(BitVec.add_zero _).symm, rfl⟩
  obtain ⟨u, hcopy, hu, hx0, hx14, hsystem⟩ :=
    runs_copy hhosts hbuilt.stub hholds hsize happart hstart
  have hcode := holds_code hbuilt.stub (holds_copied hholds hsize happart le_rfl)
  rw [← hsystem.el] at hel
  rw [cacheOn, ← hsystem.el, ← hsystem.sctlrEl1, ← hsystem.sctlrEl2] at hcache
  obtain ⟨v, hmmu, hv, hkeep, hlevel, hel1, hel2⟩ := runs_mmuOff hhosts hcode hu hel hcache
  rw [hsystem.el, hsystem.sctlrEl1] at hel1
  rw [hsystem.el, hsystem.sctlrEl2] at hel2
  refine ⟨_, hcopy.trans (hmmu.trans (runs_leave hhosts hcode hv)), ?_, ?_, hv.mem, ?_,
    hlevel.trans hsystem.el, hel1, hel2⟩
  · exact (hkeep 14 (by decide)).trans hx14
  · exact (hkeep 0 (by decide)).trans hx0
  · intro i b hi
    have hlt := (List.getElem?_eq_some_iff.mp hi).1
    rw [State.jump_mem, hv.mem, copied, fill_add _ _ hlt (by omega), List.getD_eq_getElem?_getD, hi]
    rfl

/-- Coherent memory at the addresses below 2 GiB, and accesses that have to be aligned. -/
def sampleMachine : Machine where
  backed a := a.toNat < 0x80000000
  aligned := true
  coherent := true

theorem sampleMachine_region {a : BitVec 64} {n k : Nat} (hbacked : a.toNat + n ≤ 0x80000000)
    (halign : a.toNat % k = 0) : sampleMachine.Region a n k := by
  refine ⟨fun _ => halign, fun i hi => decide_eq_true ?_⟩
  rw [toNat_add_ofNat (by omega)]
  omega

/-- With the data cache on, as the firmware leaves it. -/
theorem stub_boots_kernel_of_nop :
    ∃ (file : List UInt8) (s t : State), mkstub [0x1F, 0x20, 0x03, 0xD5] 0x40080000 = .ok file ∧
      s.pc = 0x1000 ∧ cacheOn s = true ∧
      Runs (fetchOn sampleMachine fetch) (execOn sampleMachine) s t ∧
      t.pc = 0x40080000 ∧ cacheOn t = false := by
  obtain ⟨file, hfile⟩ : ∃ file, mkstub [0x1F, 0x20, 0x03, 0xD5] 0x40080000 = .ok file :=
    exists_mkstub_iff.mpr (by decide)
  obtain ⟨image, hbuilt⟩ := mkstub_eq_ok_iff.mp hfile
  have hlength : image.length = 260 := length_image hbuilt.stub
  have hraw := length_textRaw image
  -- The file itself, as the headers have equal offsets in the file and in memory.
  let s : State := ⟨fun _ => 0, 0, 0x1000, ⟨false, false, false, false⟩, .el1, 0x1005, 0,
    fun x => file.getD x.toNat 0⟩
  have hloaded : (header image.length (textRaw image).length).Loaded file s.mem 0#64 := by
    intro sec hsec i hi
    obtain rfl := List.mem_singleton.mp hsec
    change i < image.length at hi
    change file.getD (0#64 + BitVec.ofNat 64 (0x1000 + i)).toNat 0 =
      if i < (textRaw image).length then file.getD (0x1000 + i) 0 else 0
    rw [BitVec.zero_add, BitVec.toNat_ofNat, Nat.mod_eq_of_lt (by omega), if_pos (by omega)]
  have hhosts : Hosts sampleMachine [0x1F, 0x20, 0x03, 0xD5] 0x40080000 0x1000 :=
    ⟨sampleMachine_region (by decide) (by decide), sampleMachine_region (by decide) (by decide)⟩
  have happart : Separate 0x40080000#64 4 0x1000#64 260 :=
    (separate_of_toNat_le (by decide) (by decide)).symm
  obtain ⟨t, hrun, hpc, -, -, -, hel, hel1, -⟩ := stub_boots_kernel hfile (parse_file hbuilt)
    hloaded rfl (show El.el1 ≠ El.el0 by decide) hhosts (fun _ => rfl) happart
  have hon : cacheOn s = true := by
    rw [cacheOn, if_neg (show El.el1 ≠ El.el2 by decide)]
    exact (by decide : (0x1005#64).getLsbD 2 = true)
  have hoff : cacheOn t = false := by
    rw [cacheOn, hel, hel1, if_neg (show El.el1 ≠ El.el2 by decide),
      if_neg (show El.el1 ≠ El.el2 by decide)]
    exact (by decide : (0x1005#64 &&& ~~~0x1005#64).getLsbD 2 = false)
  exact ⟨file, s, t, hfile, rfl, hon, hrun, hpc, hoff⟩

end Mkstub
end Tools
end Saski
