import Saski.Lib.CodeRun
import Saski.Lib.X86Paging

/-!
# From 32-bit protected mode into long mode

The part of an x86-64 processor that start-up code needs: general registers, control
registers, the extended feature register, segment registers with the descriptor table, and
memory.  Segments are flat, the code runs at privilege level 0, and the arithmetic flags
are left out: no instruction here reads one.

* `State.physical`: where an access goes.  Without paging an address means itself; with
  paging in long mode every byte is translated by the tables in memory (`X86Paging`).  The
  older kinds of paging are not modelled, so an access under them has no result.
* `Op.effect`: the instructions that go on to the next one.
* `exec`: all instructions.  What the processor answers with an exception has no result.
* `Code`: instructions with their lengths, from one address on.
* `Code.Placed.step`, `Code.Placed.ops`: one instruction, and a straight line of them.
-/

namespace X86

open ByteMemory

inductive Reg where
  | ax
  | bx
  | cx
  | dx
  | sp
  | di
  deriving DecidableEq, Repr

inductive Seg where
  | ds
  | es
  | ss
  | fs
  | gs
  deriving DecidableEq, Repr

inductive Cr where
  | cr0
  | cr3
  | cr4
  deriving DecidableEq, Repr

structure State where
  pc : BitVec 64
  reg : Reg → BitVec 64
  mem : Mem 64
  cr0 : BitVec 64
  cr3 : BitVec 64
  cr4 : BitVec 64
  efer : BitVec 64
  /-- Maskable interrupts are on. -/
  interrupts : Bool
  /-- The direction flag: string instructions go down. -/
  down : Bool
  gdtLimit : Nat
  gdtBase : BitVec 64
  cs : BitVec 16
  /-- The code segment is one of 64-bit code. -/
  csLong : Bool
  seg : Seg → BitVec 16

/-! ## Modes -/

namespace State

variable (s : State)

def paging : Bool := s.cr0.getLsbD 31

/-- Physical address extension, bit 5 of `cr4`. -/
def pae : Bool := s.cr4.getLsbD 5

/-- Long mode is enabled, bit 8 of the extended feature register. -/
def longEnabled : Bool := s.efer.getLsbD 8

/-- Long mode is active. -/
def longActive : Bool := s.paging && s.longEnabled

/-- The processor runs 64-bit code. -/
def wide : Bool := s.longActive && s.csLong

/-- The top table. -/
def pml4 : BitVec 64 := BitVec.ofNat 64 (X86Paging.frame 12 s.cr3.toNat)

/-- Where an access to `n` bytes at `a` goes. -/
def physical (a : BitVec 64) (n : Nat) (write : Bool) : Option (BitVec 64) :=
  if s.paging = false then some a
  else if s.longActive = false ∨ 2 ^ 47 < a.toNat + n then none
  else (X86Paging.translate s.mem s.pml4 a.toNat).bind fun first =>
    if ∀ i < n, ((X86Paging.translate s.mem s.pml4 (a.toNat + i)).any fun p =>
        p.phys == first.phys + i && (!write || p.writable)) = true then
      some (BitVec.ofNat 64 first.phys)
    else none

def read (a : BitVec 64) (n : Nat) : Option Nat :=
  (s.physical a n false).map fun p => load s.mem p n

/-- The memory after a write. -/
def written (a : BitVec 64) (n v : Nat) : Option (Mem 64) :=
  (s.physical a n true).map fun p => store s.mem p n v

def setMem (m : Mem 64) : State := { s with mem := m }

def write (a : BitVec 64) (n v : Nat) : Option State := (s.written a n v).map s.setMem

/-! ## Registers -/

/-- The low half of a register. -/
def get (r : Reg) : BitVec 32 := (s.reg r).setWidth 32

def setReg (r : Reg) (v : BitVec 64) : State := { s with reg := Function.update s.reg r v }

/-- A write to the low half clears the high one. -/
def set (r : Reg) (v : BitVec 32) : State := s.setReg r (v.setWidth 64)

def jump (a : BitVec 64) : State := { s with pc := a }

/-- The address of a memory operand. -/
def operand (base : BitVec 64) (disp : BitVec 32) : BitVec 64 :=
  if s.wide then base + disp.signExtend 64 else (base.setWidth 32 + disp).setWidth 64

/-- A register as a control register takes it. -/
def word (r : Reg) : BitVec 64 := if s.wide then s.reg r else (s.get r).setWidth 64

def getCr : Cr → BitVec 64
  | .cr0 => s.cr0
  | .cr3 => s.cr3
  | .cr4 => s.cr4

/-- Paging needs protected mode; with long mode enabled it needs the physical address
extension and a code segment of 32-bit code.  The extension stays while long mode is on. -/
def setCr (v : BitVec 64) : Cr → Option State
  | .cr0 =>
      if v.getLsbD 31 = true ∧ (v.getLsbD 0 = false ∨
          s.paging = false ∧ s.longEnabled = true ∧ (s.pae = false ∨ s.csLong = true)) then none
      else some { s with cr0 := v }
  | .cr3 => some { s with cr3 := v }
  | .cr4 =>
      if s.longActive = true ∧ v.getLsbD 5 = false then none else some { s with cr4 := v }

/-! ## Segments -/

/-- The descriptor of a selector, and the memory with its accessed bit set.  It must be a
present code or data segment of privilege level 0 that passes the test. -/
def descriptor (sel : BitVec 16) (test : Nat → Bool) : Option (Nat × Mem 64) :=
  let index := sel.toNat / 8
  let a := s.gdtBase + BitVec.ofNat 64 (8 * index)
  if sel.getLsbD 2 = true ∨ index = 0 ∨ s.gdtLimit < 8 * index + 7 then none
  else (s.read a 8).bind fun d =>
    if d.testBit 44 && d.testBit 47 && !d.testBit 45 && !d.testBit 46 && test d then
      if d.testBit 40 then some (d, s.mem)
      else (s.written (a + 5) 1 (d / 2 ^ 40 % 256 ||| 1)).map (d, ·)
    else none

end State

/-- A code segment; one of 64-bit code has no default operand size of 32 bits. -/
def isCode (d : Nat) : Bool := d.testBit 43 && !(d.testBit 53 && d.testBit 54)

/-- A data segment that can be written. -/
def isData (d : Nat) : Bool := !d.testBit 43 && d.testBit 41

/-! ## Instructions -/

/-- The instructions that go on to the next one. -/
inductive Op where
  /-- `movl $imm, %r` -/
  | movImm (rd : Reg) (imm : BitVec 32)
  /-- `movabsq $imm, %r` -/
  | movAbs (rd : Reg) (imm : BitVec 64)
  /-- `movw $imm, %r` -/
  | movImm16 (rd : Reg) (imm : BitVec 16)
  | orImm (rd : Reg) (imm : BitVec 32)
  | addImm (rd : Reg) (imm : BitVec 32)
  | xor (rd rs : Reg)
  /-- `movl %r, disp(%base)` -/
  | store (base : Reg) (disp : BitVec 32) (rs : Reg)
  /-- `movl %r, disp` -/
  | storeAbs (disp : BitVec 32) (rs : Reg)
  /-- `movl $imm, disp(%base)` -/
  | storeImm (base : Reg) (disp imm : BitVec 32)
  | cli
  | movFromCr (rd : Reg) (c : Cr)
  | movToCr (c : Cr) (rs : Reg)
  | rdmsr
  | wrmsr
  | lgdt (disp : BitVec 32)
  | movToSeg (sr : Seg) (rs : Reg)
  deriving DecidableEq, Repr

/-- The number of the extended feature register. -/
def eferNumber : BitVec 32 := 0xC0000080#32

/-- The effect of an instruction on everything but the program counter. -/
def Op.effect : Op → State → Option State
  | .movImm rd imm, s => some (s.set rd imm)
  | .movAbs rd imm, s => some (s.setReg rd imm)
  | .movImm16 rd imm, s => some (s.setReg rd ((s.reg rd).extractLsb' 16 48 ++ imm))
  | .orImm rd imm, s => some (s.set rd (s.get rd ||| imm))
  | .addImm rd imm, s => some (s.set rd (s.get rd + imm))
  | .xor rd rs, s => some (s.set rd (s.get rd ^^^ s.get rs))
  | .store base disp rs, s => s.write (s.operand (s.reg base) disp) 4 (s.get rs).toNat
  | .storeAbs disp rs, s => s.write (s.operand 0 disp) 4 (s.get rs).toNat
  | .storeImm base disp imm, s => s.write (s.operand (s.reg base) disp) 4 imm.toNat
  | .cli, s => some { s with interrupts := false }
  | .movFromCr rd c, s =>
      some (if s.wide then s.setReg rd (s.getCr c) else s.set rd ((s.getCr c).setWidth 32))
  | .movToCr c rs, s => s.setCr (s.word rs) c
  | .rdmsr, s =>
      if s.get .cx = eferNumber then
        some ((s.set .ax (s.efer.setWidth 32)).set .dx (s.efer.extractLsb' 32 32))
      else none
  | .wrmsr, s =>
      let v : BitVec 64 := s.get .dx ++ s.get .ax
      -- Long mode is not switched while paging is on.
      if s.get .cx ≠ eferNumber ∨ (s.paging = true ∧ v.getLsbD 8 ≠ s.longEnabled) then none
      else some { s with efer := v }
  | .lgdt disp, s =>
      if s.wide then none
      else (s.read (s.operand 0 disp) 6).map fun v =>
        { s with gdtLimit := v % 2 ^ 16, gdtBase := BitVec.ofNat 64 (v / 2 ^ 16) }
  | .movToSeg sr rs, s =>
      let sel := (s.reg rs).setWidth 16
      (s.descriptor sel isData).map fun r =>
        { s with mem := r.2, seg := Function.update s.seg sr sel }

inductive Instr where
  | op (o : Op)
  | repStosl
  | call (target : BitVec 64)
  | ret
  | loop (target : BitVec 64)
  | jmp (target : BitVec 64)
  | ljmp (sel : BitVec 16) (target : BitVec 32)
  | hlt
  deriving DecidableEq, Repr

namespace State

variable (s : State)

def push (v : BitVec 64) : Option State :=
  if s.wide then (s.write (s.reg .sp - 8) 8 v.toNat).map (·.setReg .sp (s.reg .sp - 8))
  else (s.write ((s.get .sp - 4).setWidth 64) 4 v.toNat).map (·.set .sp (s.get .sp - 4))

/-- The word on top of the stack, and the state without it. -/
def pop : Option (BitVec 64 × State) :=
  if s.wide then
    (s.read (s.reg .sp) 8).map fun v => (BitVec.ofNat 64 v, s.setReg .sp (s.reg .sp + 8))
  else
    (s.read ((s.get .sp).setWidth 64) 4).map fun v =>
      (BitVec.ofNat 64 v, s.set .sp (s.get .sp + 4))

end State

/-- The effect of an instruction of `n` bytes. -/
def exec : Instr × Nat → State → Option State
  | (.op o, n), s => (o.effect s).map (·.jump (s.pc + BitVec.ofNat 64 n))
  | (.repStosl, n), s =>
      -- One word at a time; the instruction can be resumed.
      if s.wide then none
      else if s.get .cx = 0 then some (s.jump (s.pc + BitVec.ofNat 64 n))
      else (s.write ((s.get .di).setWidth 64) 4 (s.get .ax).toNat).map fun t =>
        (t.set .di (if s.down then s.get .di - 4 else s.get .di + 4)).set .cx (s.get .cx - 1)
  | (.call target, n), s => (s.push (s.pc + BitVec.ofNat 64 n)).map (·.jump target)
  | (.ret, _), s => s.pop.map fun r => r.2.jump r.1
  | (.loop target, n), s =>
      if s.wide then none
      else
        let t := s.set .cx (s.get .cx - 1)
        some (t.jump (if s.get .cx - 1 = 0 then s.pc + BitVec.ofNat 64 n else target))
  | (.jmp target, _), s => some (s.jump target)
  | (.ljmp sel target, _), s =>
      if s.wide then none
      else (s.descriptor sel isCode).map fun r =>
        -- Without long mode the bit for 64-bit code means nothing.
        { s with
          mem := r.2
          cs := sel
          csLong := s.longActive && r.1.testBit 53
          pc := target.setWidth 64 }
  -- Nothing wakes the processor here: the interrupts that could are not modelled.
  | (.hlt, _), s => some s

/-! ## Code -/

/-- Code in memory: its instructions, with the lengths the assembler chose. -/
structure Code where
  text : BitVec 64
  instrs : List Instr
  sizes : List Nat

/-- The start of instruction `k`, where the lengths are these. -/
def place (text : BitVec 64) (sizes : List Nat) (k : Nat) : BitVec 64 :=
  text + BitVec.ofNat 64 (sizes.take k).sum

/-- The instruction that starts at `a`, with its length. -/
def instrAt (a : BitVec 64) : (text : BitVec 64) → List Instr → List Nat → Option (Instr × Nat)
  | text, i :: is, n :: ns =>
      if a = text then some (i, n) else instrAt a (text + BitVec.ofNat 64 n) is ns
  | _, _, _ => none

/-- The instruction at the program counter. -/
def fetch (c : Code) (s : State) : Option (Instr × Nat) :=
  (s.physical s.pc 1 false).bind fun p => instrAt p c.text c.instrs c.sizes

/-- The code lies below 4 GiB. -/
structure Code.Placed (c : Code) : Prop where
  sizes : c.sizes.length = c.instrs.length
  pos : ∀ n ∈ c.sizes, 0 < n
  fits : c.text.toNat + c.sizes.sum ≤ 2 ^ 32

theorem place_succ (text : BitVec 64) {sizes : List Nat} {k n : Nat} (hn : sizes[k]? = some n) :
    place text sizes k + BitVec.ofNat 64 n = place text sizes (k + 1) := by
  rw [place, place, List.take_add_one, hn, List.sum_append, Option.toList_some, List.sum_singleton,
    BitVec.ofNat_add, BitVec.add_assoc]

/-- An instruction starts before the end. -/
theorem sum_take_lt {sizes : List Nat} {k n : Nat} (hpos : ∀ n ∈ sizes, 0 < n)
    (hn : sizes[k]? = some n) : (sizes.take k).sum < sizes.sum := by
  obtain ⟨hk, rfl⟩ := List.getElem?_eq_some_iff.mp hn
  have hsplit := List.sum_take_add_sum_drop sizes k
  rw [List.drop_eq_getElem_cons hk, List.sum_cons] at hsplit
  have := hpos _ (List.getElem_mem hk)
  omega

theorem instrAt_place {is : List Instr} {sizes : List Nat} {text : BitVec 64} {k n : Nat}
    {i : Instr} (hpos : ∀ n ∈ sizes, 0 < n) (hfits : sizes.sum ≤ 2 ^ 64) (hi : is[k]? = some i)
    (hn : sizes[k]? = some n) :
    instrAt (place text sizes k) text is sizes = some (i, n) := by
  induction is generalizing sizes text k with
  | nil => simp at hi
  | cons i' is ih =>
      obtain _ | ⟨n', sizes⟩ := sizes
      · simp at hn
      cases k with
      | zero =>
          rw [List.getElem?_cons_zero, Option.some_inj] at hi hn
          rw [place, List.take_zero, List.sum_nil, instrAt, if_pos (BitVec.add_zero text), hi, hn]
      | succ k =>
          have hlt := sum_take_lt hpos hn
          have hpos' := hpos n' List.mem_cons_self
          rw [List.take_succ_cons, List.sum_cons] at hlt
          rw [List.sum_cons] at hfits hlt
          rw [List.getElem?_cons_succ] at hi hn
          have hplace : place text (n' :: sizes) (k + 1) =
              place (text + BitVec.ofNat 64 n') sizes k := by
            rw [place, place, List.take_succ_cons, List.sum_cons, BitVec.ofNat_add,
              BitVec.add_assoc]
          -- The instructions before it take at least one byte, and less than all addresses.
          have hne : place text (n' :: sizes) (k + 1) ≠ text := by
            intro heq
            have hzero : BitVec.ofNat 64 (n' + (sizes.take k).sum) = 0#64 := by
              rwa [place, List.take_succ_cons, List.sum_cons, BitVec.add_right_eq_self] at heq
            have := congrArg BitVec.toNat hzero
            rw [BitVec.toNat_ofNat, Nat.mod_eq_of_lt (by omega)] at this
            simp at this
            omega
          rw [instrAt, if_neg hne, hplace]
          exact ih (fun n hn => hpos n (List.mem_cons_of_mem _ hn)) (by omega) hi hn

/-- Every address below 4 GiB means itself. -/
def Plain (s : State) : Prop :=
  ∀ a n w, 0 < n → a.toNat + n ≤ 2 ^ 32 → s.physical a n w = some a

theorem plain_of_unpaged {s : State} (h : s.paging = false) : Plain s := by
  intro a n w _ _
  rw [State.physical, if_pos h]

theorem plain_of_identity {s : State} (hactive : s.longActive = true)
    (hmap : ∀ v < 2 ^ 32, X86Paging.translate s.mem s.pml4 v = some ⟨v, true⟩) : Plain s := by
  intro a n w hn ha
  have hpaging : s.paging = true := (Bool.and_eq_true_iff.mp hactive).1
  have hall : ∀ i < n, ((X86Paging.translate s.mem s.pml4 (a.toNat + i)).any fun p =>
      p.phys == a.toNat + i && (!w || p.writable)) = true := by
    intro i hi
    rw [hmap _ (by omega), Option.any_some, beq_self_eq_true, Bool.or_true, Bool.and_true]
  rw [State.physical, if_neg (by simp [hpaging]),
    if_neg (by rintro (h | h) <;> [simp [hactive] at h; omega]), hmap _ (by omega),
    Option.bind_some, if_pos hall, BitVec.ofNat_toNat, BitVec.setWidth_eq]

section Plain

variable {s : State} {a : BitVec 64} {n : Nat} (hs : Plain s) (hn : 0 < n)
  (ha : a.toNat + n ≤ 2 ^ 32)

include hs hn ha

theorem Plain.read : s.read a n = some (load s.mem a n) := by
  rw [State.read, hs a n false hn ha, Option.map_some]

theorem Plain.write (v : Nat) : s.write a n v = some (s.setMem (store s.mem a n v)) := by
  rw [State.write, State.written, hs a n true hn ha, Option.map_some, Option.map_some]

end Plain

/-! ## 32-bit code without paging -/

/-- A store into a set leaves the bytes outside of it alone. -/
theorem eqOn_store {m m' : Mem 64} {s : Set (BitVec 64)} (h : Set.EqOn m' m sᶜ) {a : BitVec 64}
    {n : Nat} (ha : extent a n ⊆ s) (v : Nat) : Set.EqOn (store m' a n v) m sᶜ := by
  intro x hx
  rw [store_of_not_inExtent fun hmem => hx (ha hmem), h hx]

@[simp] theorem State.get_set (s : State) (r r' : Reg) (v : BitVec 32) :
    (s.set r v).get r' = if r' = r then v else s.get r' := by
  change (Function.update s.reg r (v.setWidth 64) r').setWidth 32 = _
  by_cases hr : r' = r
  · rw [if_pos hr, hr, Function.update_self, BitVec.setWidth_setWidth_of_le v (by decide),
      BitVec.setWidth_eq]
  · rw [if_neg hr, Function.update_of_ne hr, get]

/-- All but the program counter, the general registers and the memory. -/
def State.control (s : State) : State := { s with pc := 0, reg := fun _ => 0, mem := fun _ => 0 }

theorem State.paging_of_control {s t : State} (h : t.control = s.control) :
    t.paging = s.paging := by
  have hpaging : t.control.paging = s.control.paging := congrArg paging h
  exact hpaging

section Fields

variable (s : State)

@[simp] theorem State.get_setMem (m : Mem 64) (r : Reg) : (s.setMem m).get r = s.get r := rfl

@[simp] theorem State.get_jump (a : BitVec 64) (r : Reg) : (s.jump a).get r = s.get r := rfl

@[simp] theorem State.paging_setMem (m : Mem 64) : (s.setMem m).paging = s.paging := rfl

end Fields

/-- The address of a 32-bit pointer and an offset behind it. -/
theorem setWidth_add_ofNat {a : BitVec 32} {n : Nat} (h : a.toNat + n < 2 ^ 32) :
    (a + BitVec.ofNat 32 n).setWidth 64 = a.setWidth 64 + BitVec.ofNat 64 n := by
  have ha : (a.setWidth 64).toNat = a.toNat := BitVec.toNat_setWidth_of_le (by decide)
  apply BitVec.eq_of_toNat_eq
  rw [toNat_add_ofNat (by omega), ha, BitVec.toNat_setWidth_of_le (by decide), toNat_add_ofNat h]

section Unpaged

variable {s : State} (hs : s.paging = false)

include hs

theorem State.wide_of_unpaged : s.wide = false := by
  rw [wide, longActive, hs, Bool.false_and, Bool.false_and]

theorem State.write_of_unpaged (a : BitVec 64) (n v : Nat) :
    s.write a n v = some (s.setMem (store s.mem a n v)) := by
  rw [write, written, physical, if_pos hs, Option.map_some, Option.map_some]

theorem effect_store (base : Reg) (disp : BitVec 32) (rs : Reg) :
    (Op.store base disp rs).effect s =
      some (s.setMem (store s.mem ((s.get base + disp).setWidth 64) 4 (s.get rs).toNat)) := by
  rw [Op.effect, State.operand, s.wide_of_unpaged hs, s.write_of_unpaged hs]
  rfl

theorem effect_storeImm (base : Reg) (disp imm : BitVec 32) :
    (Op.storeImm base disp imm).effect s =
      some (s.setMem (store s.mem ((s.get base + disp).setWidth 64) 4 imm.toNat)) := by
  rw [Op.effect, State.operand, s.wide_of_unpaged hs, s.write_of_unpaged hs]
  rfl

theorem effect_storeAbs (disp : BitVec 32) (rs : Reg) :
    (Op.storeAbs disp rs).effect s =
      some (s.setMem (store s.mem (disp.setWidth 64) 4 (s.get rs).toNat)) := by
  have hoperand : s.operand 0 disp = disp.setWidth 64 := by
    rw [State.operand, s.wide_of_unpaged hs, if_neg (by decide)]
    exact congrArg _ (BitVec.zero_add disp)
  rw [Op.effect, hoperand, s.write_of_unpaged hs]

end Unpaged

/-! ## Straight lines -/

section Jump

variable (s : State) (a : BitVec 64)

theorem State.write_jump (b : BitVec 64) (n v : Nat) :
    (s.jump a).write b n v = (s.write b n v).map (·.jump a) := by
  rw [write, write, Option.map_map]
  rfl

theorem State.setCr_jump (v : BitVec 64) (c : Cr) :
    (s.jump a).setCr v c = (s.setCr v c).map (·.jump a) := by
  cases c <;> simp only [setCr, apply_ite (Option.map _), Option.map_none, Option.map_some]
    <;> rfl

/-- No such instruction looks at the program counter. -/
theorem Op.effect_jump (o : Op) : o.effect (s.jump a) = (o.effect s).map (·.jump a) := by
  cases o
  case store => exact s.write_jump a _ _ _
  case storeAbs => exact s.write_jump a _ _ _
  case storeImm => exact s.write_jump a _ _ _
  case movToCr => exact s.setCr_jump a _ _
  case movToSeg =>
    rw [effect, effect, Option.map_map]
    rfl
  case lgdt =>
    rw [effect, effect, apply_ite (Option.map _), Option.map_map]
    rfl
  case rdmsr =>
    rw [effect, effect, apply_ite (Option.map _)]
    rfl
  case wrmsr =>
    rw [effect, effect, apply_ite (Option.map _)]
    rfl
  case movFromCr =>
    rw [effect, effect, Option.map_some, apply_ite (State.jump · a)]
    rfl
  all_goals rfl

/-- The instruction that can switch paging. -/
def Op.loadsCr0 : Op → Bool
  | .movToCr .cr0 _ => true
  | _ => false

theorem Op.cr0_of_effect {o : Op} {s t : State} (ho : o.loadsCr0 = false)
    (h : o.effect s = some t) : t.cr0 = s.cr0 := by
  have hwrite : ∀ {a n v} {t : State}, s.write a n v = some t → t.cr0 = s.cr0 := by
    intro a n v t h
    obtain ⟨m, -, rfl⟩ := Option.map_eq_some_iff.mp h
    rfl
  cases o
  case store => exact hwrite h
  case storeAbs => exact hwrite h
  case storeImm => exact hwrite h
  case movToCr c rs =>
    cases c
    case cr0 => exact absurd ho Bool.noConfusion
    case cr3 =>
      obtain rfl := Option.some.inj h
      rfl
    case cr4 =>
      obtain ⟨-, h⟩ := Option.ite_none_left_eq_some.mp h
      obtain rfl := Option.some.inj h
      rfl
  case movFromCr rd c =>
    obtain rfl := Option.some.inj h
    split_ifs <;> rfl
  case rdmsr =>
    obtain ⟨-, h⟩ := Option.ite_none_right_eq_some.mp h
    obtain rfl := Option.some.inj h
    rfl
  case wrmsr =>
    obtain ⟨-, h⟩ := Option.ite_none_left_eq_some.mp h
    obtain rfl := Option.some.inj h
    rfl
  case lgdt =>
    obtain ⟨-, h⟩ := Option.ite_none_left_eq_some.mp h
    obtain ⟨v, -, rfl⟩ := Option.map_eq_some_iff.mp h
    rfl
  case movToSeg =>
    obtain ⟨r, -, rfl⟩ := Option.map_eq_some_iff.mp h
    rfl
  all_goals
    obtain rfl := Option.some.inj h
    rfl

theorem effects_jump {ops : List Op} {s t : State} (h : CodeRun.execAll Op.effect ops s = some t) :
    CodeRun.execAll Op.effect ops (s.jump a) = some (t.jump a) := by
  induction ops generalizing s with
  | nil =>
      obtain rfl := Option.some.inj h
      rfl
  | cons o ops ih =>
      obtain ⟨u, hu, hrest⟩ := Option.bind_eq_some_iff.mp h
      rw [CodeRun.execAll, Op.effect_jump, hu, Option.map_some, Option.bind_some, ih hrest]

end Jump

section Runs

variable {c : Code} (hc : c.Placed)

include hc

/-- Where instruction `k` starts. -/
theorem Code.Placed.toNat_place_lt {k : Nat} {i : Instr} (hi : c.instrs[k]? = some i) :
    (place c.text c.sizes k).toNat + 1 ≤ 2 ^ 32 := by
  obtain ⟨hk, -⟩ := List.getElem?_eq_some_iff.mp hi
  have hlt := sum_take_lt hc.pos (List.getElem?_eq_getElem (hc.sizes ▸ hk))
  have := hc.fits
  rw [place, toNat_add_ofNat (by omega)]
  omega

/-- One instruction. -/
theorem Code.Placed.step {s t : State} {k : Nat} {i : Instr} (hs : Plain s)
    (hpc : s.pc = place c.text c.sizes k) (hi : c.instrs[k]? = some i)
    (hexec : ∀ n, s.pc + BitVec.ofNat 64 n = place c.text c.sizes (k + 1) →
      exec (i, n) s = some t) :
    CodeRun.Runs (fetch c) exec s t := by
  obtain ⟨hk, -⟩ := List.getElem?_eq_some_iff.mp hi
  have hn := List.getElem?_eq_getElem (hc.sizes ▸ hk)
  apply CodeRun.Runs.one _ (hexec _ (hpc ▸ place_succ c.text hn))
  have := hc.fits
  rw [fetch, hs _ 1 false Nat.one_pos (hpc ▸ hc.toNat_place_lt hi), Option.bind_some, hpc]
  exact instrAt_place hc.pos (by omega) hi hn

/-- **A straight line of instructions**, as long as a property of the states lets every
address below 4 GiB mean itself. -/
theorem Code.Placed.ops {ops : List Op} {s t : State} {k : Nat} (P : State → Prop)
    (hplain : ∀ s, P s → Plain s) (hjump : ∀ s a, P s → P (s.jump a))
    (hkeep : ∀ o ∈ ops, ∀ s t, P s → o.effect s = some t → P t)
    (hops : (c.instrs.drop k).take ops.length = ops.map .op) (hs : P s)
    (hpc : s.pc = place c.text c.sizes k)
    (heffect : CodeRun.execAll Op.effect ops s = some t) :
    CodeRun.Runs (fetch c) exec s (t.jump (place c.text c.sizes (k + ops.length))) ∧ P t := by
  induction ops generalizing s t k with
  | nil =>
      obtain rfl := Option.some.inj heffect
      rw [List.length_nil, Nat.add_zero, ← hpc]
      exact ⟨.refl s, hs⟩
  | cons o ops ih =>
      obtain ⟨u, hu, hrest⟩ := Option.bind_eq_some_iff.mp heffect
      have hu' : P u := hkeep o List.mem_cons_self s u hs hu
      have hdrop : c.instrs.drop k = .op o :: c.instrs.drop (k + 1) := by
        have htail : (c.instrs.drop k).tail = c.instrs.drop (k + 1) := List.tail_drop
        cases hd : c.instrs.drop k with
        | nil => simp [hd] at hops
        | cons i is =>
            rw [hd, List.length_cons, List.take_succ_cons, List.map_cons, List.cons.injEq] at hops
            rw [hops.1, ← htail, hd, List.tail_cons]
      have hstep : CodeRun.Runs (fetch c) exec s (u.jump (place c.text c.sizes (k + 1))) := by
        apply hc.step (hplain s hs) hpc (i := .op o)
        · rw [← List.head?_drop, hdrop, List.head?_cons]
        · intro n hn
          rw [exec, hu, Option.map_some, hn]
      obtain ⟨hrun, ht⟩ := ih (k := k + 1) (fun o ho => hkeep o (List.mem_cons_of_mem _ ho))
        (by simpa [hdrop] using hops) (hjump u _ hu') rfl (effects_jump _ hrest)
      refine ⟨hstep.trans ?_, ?_⟩
      · rw [List.length_cons, Nat.add_comm ops.length 1, ← Nat.add_assoc]
        exact hrun
      · have hback := hjump _ t.pc ht
        exact hback

/-- Without paging, as long as no instruction loads `cr0`. -/
theorem Code.Placed.opsUnpaged {ops : List Op} {s t : State} {k : Nat} (hs : s.paging = false)
    (hcr0 : (ops.any Op.loadsCr0) = false)
    (hops : (c.instrs.drop k).take ops.length = ops.map .op)
    (hpc : s.pc = place c.text c.sizes k)
    (heffect : CodeRun.execAll Op.effect ops s = some t) :
    CodeRun.Runs (fetch c) exec s (t.jump (place c.text c.sizes (k + ops.length))) := by
  refine (hc.ops (·.paging = false) (fun _ => plain_of_unpaged) (fun _ _ h => h) ?_ hops hs hpc
    heffect).1
  intro o ho s t hs heffect
  rw [State.paging, Op.cr0_of_effect (by simpa using List.any_eq_false.mp hcr0 o ho) heffect]
  exact hs

variable {s : State} {k : Nat} (hs : s.paging = false) (hpc : s.pc = place c.text c.sizes k)

include hs hpc

theorem Code.Placed.call {target : BitVec 64} (hi : c.instrs[k]? = some (.call target)) :
    CodeRun.Runs (fetch c) exec s (((s.setMem (store s.mem ((s.get .sp - 4).setWidth 64) 4
      (place c.text c.sizes (k + 1)).toNat)).set .sp (s.get .sp - 4)).jump target) := by
  apply hc.step (plain_of_unpaged hs) hpc hi
  intro n hn
  rw [exec, State.push, s.wide_of_unpaged hs, if_neg (by decide), s.write_of_unpaged hs, hn]
  rfl

theorem Code.Placed.ret (hi : c.instrs[k]? = some .ret) :
    CodeRun.Runs (fetch c) exec s ((s.set .sp (s.get .sp + 4)).jump
      (BitVec.ofNat 64 (load s.mem ((s.get .sp).setWidth 64) 4))) := by
  apply hc.step (plain_of_unpaged hs) hpc hi
  intro n _
  rw [exec, State.pop, s.wide_of_unpaged hs, if_neg (by decide), State.read, State.physical,
    if_pos hs]
  rfl

theorem Code.Placed.loop {target : BitVec 64} (hi : c.instrs[k]? = some (.loop target)) :
    CodeRun.Runs (fetch c) exec s ((s.set .cx (s.get .cx - 1)).jump
      (if s.get .cx - 1 = 0 then place c.text c.sizes (k + 1) else target)) := by
  apply hc.step (plain_of_unpaged hs) hpc hi
  intro n hn
  rw [exec, s.wide_of_unpaged hs, if_neg (by decide), hn]

/-- `rep stosl` is done. -/
theorem Code.Placed.repStosl_of_zero (hi : c.instrs[k]? = some .repStosl)
    (hcx : s.get .cx = 0) :
    CodeRun.Runs (fetch c) exec s (s.jump (place c.text c.sizes (k + 1))) := by
  apply hc.step (plain_of_unpaged hs) hpc hi
  intro n hn
  rw [exec, s.wide_of_unpaged hs, if_neg (by decide), if_pos hcx, hn]

/-- One word. -/
theorem Code.Placed.repStosl_of_ne (hi : c.instrs[k]? = some .repStosl) (hcx : s.get .cx ≠ 0)
    (hup : s.down = false) :
    CodeRun.Runs (fetch c) exec s (((s.setMem (store s.mem ((s.get .di).setWidth 64) 4
      (s.get .ax).toNat)).set .di (s.get .di + 4)).set .cx (s.get .cx - 1)) := by
  apply hc.step (plain_of_unpaged hs) hpc hi
  intro n _
  rw [exec, s.wide_of_unpaged hs, if_neg (by decide), if_neg hcx, s.write_of_unpaged hs, hup]
  rfl

end Runs

/-- A descriptor that can be loaded. -/
theorem State.descriptor_eq {s : State} (hs : Plain s) {sel : BitVec 16} {test : Nat → Bool}
    {a : BitVec 64} {d : Nat} (htable : sel.getLsbD 2 = false) (hindex : 0 < sel.toNat / 8)
    (hlimit : 8 * (sel.toNat / 8) + 7 ≤ s.gdtLimit)
    (ha : s.gdtBase + BitVec.ofNat 64 (8 * (sel.toNat / 8)) = a) (hlow : a.toNat + 8 ≤ 2 ^ 32)
    (hd : load s.mem a 8 = d)
    (htest : (d.testBit 44 && d.testBit 47 && !d.testBit 45 && !d.testBit 46 && test d) = true) :
    s.descriptor sel test =
      some (d, if d.testBit 40 then s.mem else store s.mem (a + 5) 1 (d / 2 ^ 40 % 256 ||| 1)) := by
  have hbyte : (a + 5).toNat = a.toNat + 5 := toNat_add_ofNat (i := 5) (by omega)
  have hwrite : ∀ v, s.written (a + 5) 1 v = some (store s.mem (a + 5) 1 v) := by
    intro v
    rw [written, hs _ 1 true Nat.one_pos (by omega), Option.map_some]
  have hguard : ¬ (sel.getLsbD 2 = true ∨ sel.toNat / 8 = 0 ∨
      s.gdtLimit < 8 * (sel.toNat / 8) + 7) := by
    rw [htable]
    simp only [Bool.false_eq_true, false_or]
    omega
  simp only [descriptor, ha]
  rw [if_neg hguard, hs.read (by decide) hlow, hd, Option.bind_some, if_pos htest]
  split_ifs
  · rfl
  · rw [hwrite, Option.map_some]

end X86
