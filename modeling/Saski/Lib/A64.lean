import Mathlib
import Saski.Lib.ByteMemory
import Saski.Lib.CodeRun

/-!
# A64 instructions

A part of the 64-bit Arm instruction set that boot code is written in: moves, arithmetic
with immediates, byte and word accesses, branches, the exception level and the two system
control registers.

* Memory is flat.  Caches, barriers and address translation are not part of the state, so
  the instructions that only concern them have no effect here.
* `exec` is the effect of an instruction that does not fault.  On a `Machine` an access may
  be misaligned or have no memory behind it, and a data cache that is switched off may keep
  what memory should have: `execOn` has no result then.
* Register number 31 is the zero register, or the stack pointer where the instruction says
  so.  A write to the zero register goes to a slot that nothing reads.
* `decode` recognises the encodings of these instructions; every other word is `none`.
* An access to a register of a higher exception level is undefined, hence `none`.
-/

namespace A64

open ByteMemory CodeRun

abbrev Reg := Fin 32

instance neZeroRegs : NeZero 32 := ⟨by decide⟩

/-- Exception levels. -/
inductive El where
  | el0
  | el1
  | el2
  | el3
  deriving DecidableEq, Repr

/-- The condition flags. -/
structure Flags where
  n : Bool
  z : Bool
  c : Bool
  v : Bool
  deriving DecidableEq, Repr

structure State where
  x : Reg → BitVec 64
  sp : BitVec 64
  pc : BitVec 64
  flags : Flags
  el : El
  sctlrEl1 : BitVec 64
  sctlrEl2 : BitVec 64
  mem : Mem 64

inductive SysReg where
  | currentEl
  | sctlrEl1
  | sctlrEl2
  deriving DecidableEq, Repr

/-- The two widths of a general register. -/
inductive Width where
  | w
  | x
  deriving DecidableEq, Repr

inductive Instr where
  | nop
  /-- `dsb sy`, `isb`, `ic iallu` -/
  | barrier
  | wfi
  | adr (rd : Reg) (off : BitVec 64)
  /-- `ldr xt, <label>` -/
  | ldrLit (rt : Reg) (off : BitVec 64)
  /-- `ldr xt, =symbol`, from the pool behind the code -/
  | ldrSym (rt : Reg) (address : BitVec 64)
  | movz (wd : Width) (rd : Reg) (imm : BitVec 16) (shift : Nat)
  | movk (wd : Width) (rd : Reg) (imm : BitVec 16) (shift : Nat)
  | mov (rd rm : Reg)
  | addImm (rd rn : Reg) (imm : BitVec 64)
  | subImm (rd rn : Reg) (imm : BitVec 64)
  | cmpImm (rn : Reg) (imm : BitVec 64)
  | cmp (wd : Width) (rn rm : Reg)
  | lsr (rd rn : Reg) (shift : Nat)
  | andImm (rd rn : Reg) (imm : BitVec 64)
  | bic (rd rn rm : Reg)
  /-- `rev wd, wn` -/
  | rev (rd rn : Reg)
  /-- `ldrb wt, [xn], #post` -/
  | ldrb (rt rn : Reg) (post : BitVec 64)
  /-- `strb wt, [xn], #post` -/
  | strb (rt rn : Reg) (post : BitVec 64)
  | ldr (wd : Width) (rt rn : Reg) (off : BitVec 64)
  | str (rt rn : Reg) (off : BitVec 64)
  | cbz (rt : Reg) (off : BitVec 64)
  | b (off : BitVec 64)
  | bCond (cond : Nat) (off : BitVec 64)
  | bl (off : BitVec 64)
  | br (rn : Reg)
  | mrs (rt : Reg) (r : SysReg)
  | msr (r : SysReg) (rt : Reg)
  deriving DecidableEq, Repr

/-! ## Registers -/

namespace State

/-- A register, where 31 is the zero register. -/
def get (s : State) (r : Reg) : BitVec 64 := if r = 31 then 0 else s.x r

/-- A register gets a value that is computed from the state. -/
@[simps -fullyApplied]
def set (s : State) (r : Reg) (v : State → BitVec 64) : State :=
  { s with x := Function.update s.x r (v s) }

/-- A register, where 31 is the stack pointer. -/
def getSp (s : State) (r : Reg) : BitVec 64 := if r = 31 then s.sp else s.x r

@[simps -fullyApplied]
def setSp (s : State) (r : Reg) (v : State → BitVec 64) : State :=
  { s with
    sp := if r = 31 then v s else s.sp
    x := if r = 31 then s.x else Function.update s.x r (v s) }

@[simps -fullyApplied]
def setFlags (s : State) (f : Flags) : State := { s with flags := f }

@[simps -fullyApplied]
def setMem (s : State) (m : Mem 64) : State := { s with mem := m }

@[simps -fullyApplied]
def setSctlrEl1 (s : State) (v : BitVec 64) : State := { s with sctlrEl1 := v }

@[simps -fullyApplied]
def setSctlrEl2 (s : State) (v : BitVec 64) : State := { s with sctlrEl2 := v }

@[simps -fullyApplied]
def jump (s : State) (a : BitVec 64) : State := { s with pc := a }

/-- On to the next instruction. -/
@[simps -fullyApplied]
def next (s : State) : State := { s with pc := s.pc + 4 }

theorem get_set (s : State) (r r' : Reg) (v : State → BitVec 64) :
    (s.set r v).get r' = if r' = r ∧ r ≠ 31 then v s else s.get r' := by
  unfold get set
  by_cases hzero : r' = 31
  · rw [if_pos hzero, if_pos hzero, if_neg fun h => h.2 (h.1 ▸ hzero)]
  by_cases hr : r' = r
  · subst hr
    rw [if_neg hzero, if_pos ⟨rfl, hzero⟩]
    exact Function.update_self _ _ _
  · rw [if_neg hzero, if_neg hzero, if_neg fun h => hr h.1]
    exact Function.update_of_ne hr _ _

section Get

variable (s : State) (r : Reg)

@[simp] theorem get_next : s.next.get r = s.get r := rfl

@[simp] theorem get_jump (a : BitVec 64) : (s.jump a).get r = s.get r := rfl

@[simp] theorem get_setMem (m : Mem 64) : (s.setMem m).get r = s.get r := rfl

@[simp] theorem get_setFlags (f : Flags) : (s.setFlags f).get r = s.get r := rfl

@[simp] theorem get_setSctlrEl1 (v : BitVec 64) : (s.setSctlrEl1 v).get r = s.get r := rfl

@[simp] theorem get_setSctlrEl2 (v : BitVec 64) : (s.setSctlrEl2 v).get r = s.get r := rfl

end Get

@[simp] theorem jump_next (s : State) (a : BitVec 64) : s.next.jump a = s.jump a := rfl

@[simp] theorem get_setSp_sp (s : State) (r : Reg) (v : State → BitVec 64) :
    (s.setSp 31 v).get r = s.get r := rfl

theorem getSp_of_ne (s : State) {r : Reg} (hr : r ≠ 31) : s.getSp r = s.get r := by
  rw [getSp, get, if_neg hr, if_neg hr]

theorem setSp_of_ne (s : State) {r : Reg} (v : State → BitVec 64) (hr : r ≠ 31) :
    s.setSp r v = s.set r v := by
  rw [setSp, set, if_neg hr, if_neg hr]

end State

/-! ## Single instructions -/

/-- The flags of the subtraction `a - b`. -/
def subFlags {w : Nat} (a b : BitVec w) : Flags where
  n := (a - b).msb
  z := a - b == 0
  c := decide (b.toNat ≤ a.toNat)
  v := a.msb != b.msb && (a - b).msb != a.msb

/-- The flags of a comparison of registers of this width. -/
def cmpFlags (wd : Width) (a b : BitVec 64) : Flags :=
  match wd with
  | .w => subFlags (a.setWidth 32) (b.setWidth 32)
  | .x => subFlags a b

/-- `ConditionHolds`. -/
def holds (cond : Nat) (f : Flags) : Bool :=
  let base := match cond / 2 with
    | 0 => f.z
    | 1 => f.c
    | 2 => f.n
    | 3 => f.v
    | 4 => f.c && !f.z
    | 5 => f.n == f.v
    | 6 => f.n == f.v && !f.z
    | _ => true
  if cond % 2 = 1 ∧ cond ≠ 15 then !base else base

/-- `b.ne` after a comparison. -/
theorem holds_ne {w : Nat} (a b : BitVec w) : holds 1 (subFlags a b) = decide (a ≠ b) := by
  have hzero : (a - b == 0#w) = decide (a = b) := by
    rw [Bool.eq_iff_iff, beq_iff_eq, decide_eq_true_eq]
    constructor
    · intro h
      rw [← BitVec.sub_add_cancel a b, h, BitVec.zero_add]
    · rintro rfl
      exact BitVec.sub_self a
  simp [holds, subFlags, hzero]

/-- `b.hs` after a comparison. -/
theorem holds_hs {w : Nat} (a b : BitVec w) :
    holds 2 (subFlags a b) = decide (b.toNat ≤ a.toNat) := by
  simp [holds, subFlags]

/-- The low half of a register, with zeros above. -/
def low (v : BitVec 64) : BitVec 64 := (v.setWidth 32).setWidth 64

/-- The value as a register of this width holds it. -/
def cut : Width → BitVec 64 → BitVec 64
  | .w => low
  | .x => id

/-- The size of a register. -/
def Width.bytes : Width → Nat
  | .w => 4
  | .x => 8

/-- `rev wd, wn`: the four low bytes in the other order. -/
def reverseBytes (v : BitVec 64) : BitVec 64 :=
  BitVec.ofNat 64 (v.toNat % 2 ^ 8 * 2 ^ 24 + v.toNat / 2 ^ 8 % 2 ^ 8 * 2 ^ 16 +
    v.toNat / 2 ^ 16 % 2 ^ 8 * 2 ^ 8 + v.toNat / 2 ^ 24 % 2 ^ 8)

/-- The number of an exception level. -/
def El.number : El → Nat
  | .el0 => 0
  | .el1 => 1
  | .el2 => 2
  | .el3 => 3

/-- The value of a system register, if this level may read it. -/
def readSys (s : State) : SysReg → Option (BitVec 64)
  | .currentEl => if s.el = .el0 then none else some (BitVec.ofNat 64 (s.el.number * 4))
  | .sctlrEl1 => if s.el = .el0 then none else some s.sctlrEl1
  | .sctlrEl2 => if s.el = .el0 ∨ s.el = .el1 then none else some s.sctlrEl2

def writeSys (s : State) (v : BitVec 64) : SysReg → Option State
  | .currentEl => none
  | .sctlrEl1 => if s.el = .el0 then none else some (s.setSctlrEl1 v)
  | .sctlrEl2 => if s.el = .el0 ∨ s.el = .el1 then none else some (s.setSctlrEl2 v)

/-- The effect of an instruction. -/
def exec : Instr → State → Option State
  | .nop, s => some s.next
  | .barrier, s => some s.next
  | .wfi, s => some s.next
  | .adr rd off, s => some (s.set rd fun s => s.pc + off).next
  | .ldrLit rt off, s => some (s.set rt fun s => BitVec.ofNat 64 (load s.mem (s.pc + off) 8)).next
  | .ldrSym rt address, s => some (s.set rt fun _ => address).next
  | .movz wd rd imm shift, s => some (s.set rd fun _ => cut wd (imm.setWidth 64 <<< shift)).next
  | .movk wd rd imm shift, s =>
      some (s.set rd fun s =>
        cut wd (s.get rd &&& ~~~((0xFFFF#64) <<< shift) ||| imm.setWidth 64 <<< shift)).next
  | .mov rd rm, s => some (s.set rd fun s => s.get rm).next
  | .addImm rd rn imm, s => some (s.setSp rd fun s => s.getSp rn + imm).next
  | .subImm rd rn imm, s => some (s.setSp rd fun s => s.getSp rn - imm).next
  | .cmpImm rn imm, s => some (s.setFlags (subFlags (s.getSp rn) imm)).next
  | .cmp wd rn rm, s => some (s.setFlags (cmpFlags wd (s.get rn) (s.get rm))).next
  | .lsr rd rn shift, s => some (s.set rd fun s => s.get rn >>> shift).next
  | .andImm rd rn imm, s => some (s.set rd fun s => s.get rn &&& imm).next
  | .bic rd rn rm, s => some (s.set rd fun s => s.get rn &&& ~~~s.get rm).next
  | .rev rd rn, s => some (s.set rd fun s => reverseBytes (s.get rn)).next
  | .ldrb rt rn post, s =>
      let a := s.getSp rn
      some ((s.set rt fun s => BitVec.ofNat 64 (s.mem a).toNat).setSp rn fun _ => a + post).next
  | .strb rt rn post, s =>
      let mem := Function.update s.mem (s.getSp rn) (UInt8.ofNat (s.get rt).toNat)
      some ((s.setMem mem).setSp rn fun s => s.getSp rn + post).next
  | .ldr wd rt rn off, s =>
      some (s.set rt fun s => BitVec.ofNat 64 (load s.mem (s.getSp rn + off) wd.bytes)).next
  | .str rt rn off, s =>
      some (s.setMem (store s.mem (s.getSp rn + off) 8 (s.get rt).toNat)).next
  | .cbz rt off, s => some (s.jump (if s.get rt = 0 then s.pc + off else s.pc + 4))
  | .b off, s => some (s.jump (s.pc + off))
  | .bCond cond off, s => some (s.jump (if holds cond s.flags then s.pc + off else s.pc + 4))
  | .bl off, s => some ((s.set 30 fun s => s.pc + 4).jump (s.pc + off))
  | .br rn, s => some (s.jump (s.get rn))
  | .mrs rt r, s => (readSys s r).map fun v => (s.set rt fun _ => v).next
  | .msr r rt, s => (writeSys s (s.get rt) r).map State.next

/-! ## Machines -/

/-- What a machine makes of an access to memory. -/
structure Machine where
  /-- There is memory at this address. -/
  backed : BitVec 64 → Bool
  /-- An access that is not aligned faults, as it does while the MMU is off. -/
  aligned : Bool
  /-- What was stored is in memory, also when a data cache has been switched off. -/
  coherent : Bool

/-- An access to `n` bytes does not fault. -/
def Machine.Permits (M : Machine) (a : BitVec 64) (n : Nat) : Prop :=
  (M.aligned = true → a.toNat % n = 0) ∧ ∀ i < n, M.backed (a + BitVec.ofNat 64 i) = true

instance (M : Machine) (a : BitVec 64) (n : Nat) : Decidable (M.Permits a n) :=
  inferInstanceAs (Decidable ((_ → _) ∧ ∀ i < n, _))

/-- The data that an instruction accesses, as address and size. -/
def Instr.accesses : Instr → State → List (BitVec 64 × Nat)
  | .ldrLit _ off, s => [(s.pc + off, 8)]
  | .ldrb _ rn _, s => [(s.getSp rn, 1)]
  | .strb _ rn _, s => [(s.getSp rn, 1)]
  | .ldr wd _ rn off, s => [(s.getSp rn + off, wd.bytes)]
  | .str _ rn off, s => [(s.getSp rn + off, 8)]
  | _, _ => []

/-- The instruction switches a data cache off: the `C` bit of a control register. -/
def Instr.cacheOff : Instr → State → Bool
  | .msr .sctlrEl1 rt, s => s.sctlrEl1.getLsbD 2 && !(s.get rt).getLsbD 2
  | .msr .sctlrEl2 rt, s => s.sctlrEl2.getLsbD 2 && !(s.get rt).getLsbD 2
  | _, _ => false

/-- The effect of an instruction on a machine, unless it faults. -/
def execOn (M : Machine) (i : Instr) (s : State) : Option State :=
  if (∀ a ∈ i.accesses s, M.Permits a.1 a.2) ∧ (i.cacheOff s = true → M.coherent = true) then
    exec i s
  else none

/-- Fetching on a machine. -/
def fetchOn (M : Machine) (fetch : State → Option Instr) (s : State) : Option Instr :=
  if M.Permits s.pc 4 then fetch s else none

section Machine

variable {M : Machine} {i : Instr} {s t : State}

theorem exec_of_execOn (h : execOn M i s = some t) : exec i s = some t :=
  (Option.ite_none_right_eq_some.mp h).2

theorem execOn_eq (haccesses : ∀ a ∈ i.accesses s, M.Permits a.1 a.2)
    (hcache : i.cacheOff s = true → M.coherent = true) : execOn M i s = exec i s :=
  if_pos ⟨haccesses, hcache⟩

/-- A single access. -/
theorem execOn_of_permits {a : BitVec 64} {n : Nat} (h : M.Permits a n)
    (haccesses : i.accesses s = [(a, n)]) (hcache : i.cacheOff s = false) :
    execOn M i s = exec i s := by
  refine execOn_eq ?_ fun hon => absurd (hcache.symm.trans hon) Bool.false_ne_true
  rw [haccesses]
  exact List.forall_mem_singleton.mpr h

/-- Instructions that access no data and no control register. -/
def Instr.plain : Instr → Bool
  | .ldrLit .. | .ldrb .. | .strb .. | .ldr .. | .str .. | .msr .. => false
  | _ => true

theorem execOn_of_plain (hi : i.plain = true) : execOn M i s = exec i s := by
  cases i <;> simp only [Instr.plain, Bool.false_eq_true] at hi
  all_goals exact execOn_eq (List.forall_mem_nil _) Bool.false_ne_true.elim

theorem execAll_execOn_of_plain {is : List Instr} (his : is.all Instr.plain = true) :
    execAll (execOn M) is s = execAll exec is s := by
  induction is generalizing s with
  | nil => rfl
  | cons i is ih =>
      obtain ⟨hi, his⟩ := Bool.and_eq_true_iff.mp his
      rw [execAll, execAll, execOn_of_plain hi]
      exact congrArg _ (funext fun u => ih his)

/-- Memory of `n` bytes at a multiple of `k`. -/
structure Machine.Region (M : Machine) (a : BitVec 64) (n k : Nat) : Prop where
  aligned : M.aligned = true → a.toNat % k = 0
  backed : ∀ i < n, M.backed (a + BitVec.ofNat 64 i) = true

/-- An access inside of such memory. -/
theorem Machine.Region.permits {a : BitVec 64} {n k : Nat} (h : M.Region a n k) {off size : Nat}
    (hfits : off + size ≤ n) (hk : size ∣ k) (hoff : size ∣ off) (hsize : size ∣ 2 ^ 64) :
    M.Permits (a + BitVec.ofNat 64 off) size := by
  constructor
  · intro haligned
    have ha : size ∣ a.toNat := hk.trans (Nat.dvd_of_mod_eq_zero (h.aligned haligned))
    rw [BitVec.toNat_add, BitVec.toNat_ofNat, Nat.add_mod_mod, Nat.mod_mod_of_dvd _ hsize]
    exact Nat.mod_eq_zero_of_dvd (ha.add hoff)
  · intro i hi
    rw [BitVec.add_assoc, ← BitVec.ofNat_add]
    exact h.backed (off + i) (by omega)

/-- Memory everywhere and no faults. -/
def Machine.ideal : Machine := ⟨fun _ => true, false, true⟩

theorem Machine.ideal_region (a : BitVec 64) (n k : Nat) : Machine.ideal.Region a n k :=
  ⟨fun h => absurd h Bool.false_ne_true, fun _ _ => rfl⟩

theorem Machine.ideal_permits (a : BitVec 64) (n : Nat) : Machine.ideal.Permits a n :=
  ⟨fun h => absurd h Bool.false_ne_true, fun _ _ => rfl⟩

theorem execOn_ideal : execOn .ideal = exec := by
  funext i s
  exact execOn_eq (fun a _ => Machine.ideal_permits a.1 a.2) fun _ => rfl

theorem fetchOn_ideal (fetch : State → Option Instr) : fetchOn .ideal fetch = fetch := by
  funext s
  exact if_pos (Machine.ideal_permits s.pc 4)

end Machine

/-! ## Encodings -/

/-- The `n` bits of `w` from bit `lo` on. -/
def bits (w lo n : Nat) : Nat := w / 2 ^ lo % 2 ^ n

/-- An offset of `n` bits, counted in units of four bytes. -/
def wordOffset (w lo n : Nat) : BitVec 64 := (BitVec.ofNat (n + 2) (bits w lo n * 4)).signExtend 64

/-- The system registers by their number in `mrs` and `msr`. -/
def sysReg : Nat → Option SysReg
  | 0x4212 => some .currentEl
  | 0x4080 => some .sctlrEl1
  | 0x6080 => some .sctlrEl2
  | _ => none

/-- Data processing and system instructions. -/
def decodeData (w : Nat) (rd rn rm : Reg) : Option Instr :=
  let wd := if bits w 31 1 = 0 then Width.w else Width.x
  let imm12 := BitVec.ofNat 64 (bits w 10 12 <<< (12 * bits w 22 1))
  if bits w 31 1 = 0 ∧ bits w 24 5 = 0b10000 then
    some (.adr rd ((BitVec.ofNat 21 (bits w 5 19 * 4 + bits w 29 2)).signExtend 64))
  else if bits w 23 8 = 0b10100101 then
    some (.movz wd rd (BitVec.ofNat 16 (bits w 5 16)) (16 * bits w 21 2))
  else if bits w 23 8 = 0b11100101 then
    some (.movk wd rd (BitVec.ofNat 16 (bits w 5 16)) (16 * bits w 21 2))
  else if bits w 21 11 = 0b10101010000 ∧ bits w 10 6 = 0 ∧ rn = 31 then some (.mov rd rm)
  else if bits w 21 11 = 0b10001010001 ∧ bits w 10 6 = 0 then some (.bic rd rn rm)
  else if bits w 23 9 = 0b100100010 then some (.addImm rd rn imm12)
  else if bits w 23 9 = 0b110100010 then some (.subImm rd rn imm12)
  else if bits w 23 9 = 0b111100010 ∧ rd = 31 then some (.cmpImm rn imm12)
  else if bits w 22 10 = 0b1101001101 ∧ bits w 10 6 = 63 then some (.lsr rd rn (bits w 16 6))
  else if bits w 22 10 = 0b1001001001 ∧ bits w 16 6 = 0 ∧ bits w 10 6 ≠ 63 ∧ rd ≠ 31 then
    some (.andImm rd rn (BitVec.ofNat 64 (2 ^ (bits w 10 6 + 1) - 1)))
  else if bits w 20 12 = 0xD53 then (sysReg (bits w 5 15)).map (.mrs rd)
  else if bits w 20 12 = 0xD51 then (sysReg (bits w 5 15)).map (.msr · rd)
  else none

/-- The instruction in a word. -/
def decode (w : Nat) : Option Instr :=
  let rd : Reg := Fin.ofNat 32 w
  let rn : Reg := Fin.ofNat 32 (w / 2 ^ 5)
  let rm : Reg := Fin.ofNat 32 (w / 2 ^ 16)
  let imm9 := (BitVec.ofNat 9 (bits w 12 9)).signExtend 64
  if w = 0xD503201F then some .nop
  else if w = 0xD5033F9F ∨ w = 0xD5033FDF ∨ w = 0xD508751F then some .barrier
  else if bits w 24 8 = 0x58 then some (.ldrLit rd (wordOffset w 5 19))
  else if bits w 21 11 = 0b00111000010 ∧ bits w 10 2 = 0b01 then some (.ldrb rd rn imm9)
  else if bits w 21 11 = 0b00111000000 ∧ bits w 10 2 = 0b01 then some (.strb rd rn imm9)
  else if bits w 24 8 = 0xB4 then some (.cbz rd (wordOffset w 5 19))
  else if bits w 26 6 = 0b000101 then some (.b (wordOffset w 0 26))
  else if bits w 26 6 = 0b100101 then some (.bl (wordOffset w 0 26))
  else if bits w 24 8 = 0x54 ∧ bits w 4 1 = 0 then some (.bCond (bits w 0 4) (wordOffset w 5 19))
  else if bits w 10 22 = 0b1101011000011111000000 ∧ bits w 0 5 = 0 then some (.br rn)
  else decodeData w rd rn rm

/-- The instruction at the program counter. -/
def fetch (s : State) : Option Instr := decode (load s.mem s.pc 4)

/-! ## Straight lines -/

/-- Instructions that go on to the next one and store nothing. -/
def Instr.straight : Instr → Bool
  | .strb .. | .str .. | .cbz .. | .b .. | .bCond .. | .bl .. | .br .. => false
  | _ => true

theorem exec_straight {i : Instr} {s t : State} (hi : i.straight = true)
    (hexec : exec i s = some t) : t.pc = s.pc + 4 ∧ t.mem = s.mem := by
  cases i <;> simp only [Instr.straight, Bool.false_eq_true] at hi
  case mrs rt r =>
    obtain ⟨v, -, rfl⟩ := Option.map_eq_some_iff.mp hexec
    exact ⟨rfl, rfl⟩
  case msr r rt =>
    obtain ⟨u, hu, rfl⟩ := Option.map_eq_some_iff.mp hexec
    cases r <;> simp only [writeSys, Option.ite_none_left_eq_some, Option.some.injEq,
      reduceCtorEq] at hu
    all_goals
      obtain ⟨-, rfl⟩ := hu
      exact ⟨rfl, rfl⟩
  all_goals
    obtain rfl := Option.some.inj hexec
    exact ⟨rfl, rfl⟩

/-- Where instruction `k` of code at `text` stands. -/
def slot (text : BitVec 64) (k : Nat) : BitVec 64 := text + BitVec.ofNat 64 (4 * k)

theorem slot_succ (text : BitVec 64) (k : Nat) : slot text k + 4 = slot text (k + 1) := by
  rw [slot, slot, BitVec.add_assoc, Nat.mul_succ, BitVec.ofNat_add]
  rfl

/-- A branch to instruction `k'`. -/
theorem slot_add (text : BitVec 64) {k k' : Nat} {off : BitVec 64}
    (h : BitVec.ofNat 64 (4 * k) + off = BitVec.ofNat 64 (4 * k')) :
    slot text k + off = slot text k' := by
  rw [slot, slot, BitVec.add_assoc, h]

section Branches

variable {s : State} {off : BitVec 64}

theorem exec_cbz_of_eq {r : Reg} (h : s.get r = 0) :
    exec (.cbz r off) s = some (s.jump (s.pc + off)) := by
  rw [exec, if_pos h]

theorem exec_cbz_of_ne {r : Reg} (h : s.get r ≠ 0) : exec (.cbz r off) s = some s.next := by
  rw [exec, if_neg h]
  rfl

theorem exec_bCond_of_true {c : Nat} (h : holds c s.flags = true) :
    exec (.bCond c off) s = some (s.jump (s.pc + off)) := by
  rw [exec, if_pos h]

theorem exec_bCond_of_false {c : Nat} (h : holds c s.flags = false) :
    exec (.bCond c off) s = some s.next := by
  rw [exec, if_neg (Bool.not_eq_true _ ▸ h)]
  rfl

end Branches

/-- The machine stands at instruction `k`, with this memory. -/
structure At (text : BitVec 64) (m : Mem 64) (k : Nat) (s : State) : Prop where
  pc : s.pc = slot text k
  mem : s.mem = m

/-- A part of the code without branches and stores. -/
theorem runs_straight {M : Machine} {fetch : State → Option Instr} {program : List Instr}
    {text : BitVec 64} {m : Mem 64}
    (hcode : ∀ k i s, program[k]? = some i → At text m k s → fetch s = some i)
    {k : Nat} {is : List Instr} (his : is <+: program.drop k)
    (hstraight : ∀ i ∈ is, i.straight = true)
    {s t : State} (hs : At text m k s) (hexec : execAll (execOn M) is s = some t) :
    Runs fetch (execOn M) s t ∧ At text m (k + is.length) t := by
  refine Runs.block (fun j s => At text m (k + j) s) ?_ ?_ hs hexec
  · intro j i s hi hs
    obtain ⟨rest, hrest⟩ := his
    have hlt := (List.getElem?_eq_some_iff.mp hi).1
    refine hcode (k + j) i s ?_ hs
    rw [← List.getElem?_drop, ← hrest, List.getElem?_append_left hlt, hi]
  · intro j i s t hi hs hexec
    obtain ⟨hpc, hmem⟩ :=
      exec_straight (hstraight i (List.mem_of_getElem? hi)) (exec_of_execOn hexec)
    exact ⟨by rw [hpc, hs.pc, slot_succ, Nat.add_assoc], hmem.trans hs.mem⟩

/-! ## Code outside of the modelled memory -/

/-- Fetching from code that stands at `text` and that nothing overwrites; `none` is a word
that is not code. -/
def fetchAt (program : List (Option Instr)) (text : BitVec 64) (s : State) : Option Instr :=
  let off := (s.pc - text).toNat
  if off % 4 = 0 then program[off / 4]?.join else none

section FetchAt

variable {M : Machine} {program : List (Option Instr)} {text : BitVec 64}
  (hsize : 4 * program.length < 2 ^ 64) (htext : M.Region text (4 * program.length) 4)

include hsize htext

theorem fetchAt_slot {k : Nat} {i : Instr} {s : State} (hi : program[k]? = some (some i))
    (hs : s.pc = slot text k) : fetchOn M (fetchAt program text) s = some i := by
  have hk := (List.getElem?_eq_some_iff.mp hi).1
  have hpermits : M.Permits s.pc 4 := by
    rw [hs]
    exact htext.permits (by omega) (dvd_refl 4) (dvd_mul_right 4 k) (by decide)
  have hoff : (s.pc - text).toNat = 4 * k := by rw [hs, slot, toNat_add_ofNat_sub text (by omega)]
  simp only [fetchOn, if_pos hpermits, fetchAt, hoff, Nat.mul_mod_right,
    Nat.mul_div_cancel_left k (show 0 < 4 by decide), if_true, hi, Option.join_some]

/-- Fetching inside of a part of the code. -/
theorem fetchAt_part {is : List Instr} {k : Nat} (his : is.map some <+: program.drop k) (j : Nat)
    {i : Instr} {s : State} (hi : is[j]? = some i) (hs : s.pc = slot text (k + j)) :
    fetchOn M (fetchAt program text) s = some i := by
  obtain ⟨rest, hrest⟩ := his
  have hlt := (List.getElem?_eq_some_iff.mp hi).1
  refine fetchAt_slot hsize htext ?_ hs
  rw [← List.getElem?_drop, ← hrest, List.getElem?_append_left (by rwa [List.length_map]),
    List.getElem?_map, hi, Option.map_some]

end FetchAt

/-- Instructions that store and go on to the next one. -/
def Instr.stores : Instr → Bool
  | .strb .. | .str .. => true
  | _ => false

theorem exec_falls {i : Instr} {s t : State} (hi : (i.straight || i.stores) = true)
    (hexec : exec i s = some t) : t.pc = s.pc + 4 := by
  rcases (Bool.or_eq_true _ _).mp hi with hstraight | hstores
  · exact (exec_straight hstraight hexec).1
  · cases i <;> simp only [Instr.stores, Bool.false_eq_true] at hstores
    all_goals
      obtain rfl := Option.some.inj hexec
      rfl

/-- A part of the code without branches. -/
theorem runs_line {M : Machine} {program : List (Option Instr)} {text : BitVec 64}
    (hsize : 4 * program.length < 2 ^ 64) (htext : M.Region text (4 * program.length) 4) {k : Nat}
    {is : List Instr} (his : is.map some <+: program.drop k)
    (hfalls : is.all (fun i => i.straight || i.stores) = true) {s t : State}
    (hs : s.pc = slot text k) (hexec : execAll (execOn M) is s = some t) :
    Runs (fetchOn M (fetchAt program text)) (execOn M) s t ∧ t.pc = slot text (k + is.length) := by
  refine Runs.block (fun j s => s.pc = slot text (k + j)) ?_ ?_ hs hexec
  · intro j i s hi hs
    exact fetchAt_part hsize htext his j hi hs
  · intro j i s t hi hs hexec
    rw [exec_falls (List.all_eq_true.mp hfalls i (List.mem_of_getElem? hi)) (exec_of_execOn hexec),
      hs, slot_succ, Nat.add_assoc]

end A64
