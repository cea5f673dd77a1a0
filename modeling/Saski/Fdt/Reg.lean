import Saski.Fdt.Cells

/-!
# `reg` entries and their translation (`lib/fdt.c`)

`fdt_reg_to_cpu_addr` decodes an entry of a node's `reg` and takes its address through
the `ranges` of the nodes from there up to the children of the root.
`fdt_memory_ranges` decodes all entries of the memory nodes.

* Cell counts are 32-bit numbers as the tree has them, and the sizes that are computed
  from them are 32-bit numbers too.
* An entry's place is a pointer: it does not wrap, also where it is far behind the
  value.
* The log keeps the reads that go through `rd_cells` apart, each with the value that it
  is meant for.
-/

namespace Saski
namespace Fdt

open Capnp Logged Prog

/-- The bytes that the functions of this module read. -/
inductive RegAccess where
  /-- by one of the walks -/
  | walk (a : Access)
  /-- through `rd_cells`, from the property value of `len` bytes at `value` -/
  | cells (value : Int) (len : Nat) (i : Int)
  deriving DecidableEq, Repr

/-- A call of one of the walks. -/
def walk {α : Type} (p : Prog Access α) : Prog RegAccess α := p.relabel .walk

/-- `"reg"`. -/
def regName : CString where
  chars := [114, 101, 103]
  noNul := by decide

/-- `"ranges"`. -/
def rangesName : CString where
  chars := [114, 97, 110, 103, 101, 115]
  noNul := by decide

/-! ## Cells -/

/-- The value of `rd_be64`. -/
def be64 (bytes : Int → UInt8) (p : Int) : Nat := be32 bytes p <<< 32 ||| be32 bytes (p + 4)

/-- The value of `rd_cells`: one cell, or two for every other count. -/
def cellValue (bytes : Int → UInt8) (p : Int) (cells : Nat) : Nat :=
  if cells = 1 then be32 bytes p else be64 bytes p

/-- How many bytes `rd_cells` reads. -/
def cellWidth (cells : Nat) : Nat := if cells = 1 then 4 else 8

theorem cellWidth_le {cells : Nat} (h : cells ≠ 0) : cellWidth cells ≤ cells * 4 := by
  unfold cellWidth
  split <;> omega

/-- `rd_cells` at `p`, for the value of `len` bytes at `value`. -/
def rdCells (bytes : Int → UInt8) (value : Int) (len : Nat) (p : Int) (cells : Nat) :
    Logged RegAccess Nat :=
  withLog (cellValue bytes p cells)
    ((List.range (cellWidth cells)).map fun i : Nat => .cells value len (p + i))

/-- `fdt_range_t`. -/
structure Range where
  base : Nat
  size : Nat
  deriving DecidableEq, Repr

/-- The size of an entry of `reg`. -/
def regSize (ac sc : Nat) : Nat := (ac + sc) * 4 % 2 ^ 32

/-- An entry of the `reg` value at `reg`. -/
def rdEntry (bytes : Int → UInt8) (reg : Int) (len ac sc i : Nat) : Logged RegAccess Range := do
  let e := reg + i * regSize ac sc
  let base ← rdCells bytes reg len e ac
  let size ← if sc = 0 then pure 0 else rdCells bytes reg len (e + (ac * 4 % 2 ^ 32 : Nat)) sc
  pure ⟨base, size⟩

/-! ## Windows -/

/-- The cells of the three fields of a `ranges` entry. -/
structure RangeCells where
  ownAc : Nat
  ra : Nat
  rs : Nat
  deriving DecidableEq, Repr

/-- `rentry`. -/
def RangeCells.rentry (k : RangeCells) : Nat := (k.ownAc + k.ra + k.rs) * 4 % 2 ^ 32

/-- A `ranges` entry. -/
structure Window where
  cbase : Nat
  pbase : Nat
  rsize : Nat
  deriving DecidableEq, Repr

/-- The address is in the window. -/
def Window.Contains (w : Window) (base : Nat) : Prop :=
  w.cbase ≤ base ∧ base < (w.cbase + w.rsize) % 2 ^ 64

instance (w : Window) (base : Nat) : Decidable (w.Contains base) :=
  inferInstanceAs (Decidable (_ ∧ _))

/-- Where the window takes an address. -/
def Window.map (w : Window) (base : Nat) : Nat := (w.pbase + (base - w.cbase)) % 2 ^ 64

/-- The `i`-th entry of the `ranges` value at `ranges`. -/
def rdWindow (bytes : Int → UInt8) (ranges : Int) (rlen : Nat) (k : RangeCells) (i : Nat) :
    Logged RegAccess Window := do
  let e := ranges + i * k.rentry
  let cbase ← rdCells bytes ranges rlen e k.ownAc
  let pbase ← rdCells bytes ranges rlen (e + (k.ownAc * 4 % 2 ^ 32 : Nat)) k.ra
  let rsize ← rdCells bytes ranges rlen (e + ((k.ownAc + k.ra) * 4 % 2 ^ 32 : Nat)) k.rs
  pure ⟨cbase, pbase, rsize⟩

/-- The loop over the windows of a bus: where the first one that contains the address
takes it. -/
def windowBody (bytes : Int → UInt8) (ranges : Int) (rlen : Nat) (k : RangeCells) (base i : Nat) :
    Prog RegAccess (Nat ⊕ Option Nat) :=
  if i < rlen / k.rentry then do
    let w ← rdWindow bytes ranges rlen k i
    if w.Contains base then pure (.inr (some (w.map base))) else pure (.inl (i + 1))
  else pure (.inr none)

/-- The cells of the entries in the `ranges` of the node at `cur`.  The default is 2 for
each of them, and 0 is taken for 2. -/
def rangeCells (blob : Buffer) (cur : Int) : Prog Access (Option RangeCells) := do
  match ← fdtParentCells blob cur with
  | none => pure none
  | some (busAc, _) => do
      let ownAc ← ownCells blob cur addressCellsName
      let ownSc ← ownCells blob cur sizeCellsName
      let ownAc := ownAc.getD 2
      let ownSc := ownSc.getD 2
      pure (some
        { ownAc := if ownAc = 0 then 2 else ownAc
          ra := if busAc = 0 then 2 else busAc
          rs := if ownSc = 0 then 2 else ownSc })

/-- The loop of `fdt_reg_to_cpu_addr`: from the node upwards, with the address so far. -/
def mapBody (blob : Buffer) : Int × Nat → Prog RegAccess (Int × Nat ⊕ Option Nat)
  | (cur, base) => do
      let parent ← walk (fdtParentOffset blob cur)
      if parent < 0 then pure (.inr (some base))
      else do
        match ← walk (fdtGetprop blob cur (some rangesName)) with
        | none => pure (.inl (parent, base))
        | some (ranges, rlen) =>
            if rlen = 0 then pure (.inl (parent, base))
            else do
              match ← walk (rangeCells blob cur) with
              | none => pure (.inr none)
              | some k =>
                  if k.rentry = 0 then pure (.inr none)
                  else do
                    match ← loop (windowBody blob.bytes ranges rlen k base) 0 with
                    | none => pure (.inr none)
                    | some base =>
                        if parent = 0 then pure (.inr (some base)) else pure (.inl (parent, base))

/-- The tests on the `index`-th entry of a `reg` value, before anything of it is read. -/
def EntryExists (len ac sc index : Nat) : Prop :=
  ac ≠ 0 ∧ regSize ac sc ≠ 0 ∧ (index + 1) % 2 ^ 32 * regSize ac sc ≤ len

instance (len ac sc index : Nat) : Decidable (EntryExists len ac sc index) :=
  inferInstanceAs (Decidable (_ ∧ _ ∧ _))

/-- `fdt_reg_to_cpu_addr`: `*out`, where the function returns 1. -/
def fdtRegToCpuAddr (blob : Buffer) (nodeOffset : Int) (index : Nat) :
    Prog RegAccess (Option Range) := do
  match ← walk (lift (ctxInit blob)) with
  | none => pure none
  | some _ => do
      match ← walk (fdtParentCells blob nodeOffset) with
      | none => pure none
      | some (ac, sc) => do
          match ← walk (fdtGetprop blob nodeOffset (some regName)) with
          | none => pure none
          | some (reg, len) =>
              if ¬ EntryExists len ac sc index then pure none
              else do
                let r ← rdEntry blob.bytes reg len ac sc index
                match ← loop (mapBody blob) (nodeOffset, r.base) with
                | none => pure none
                | some base => pure (some ⟨base, r.size⟩)

/-! ## Memory nodes -/

/-- `"memory"`. -/
def memoryName : List UInt8 := [109, 101, 109, 111, 114, 121]

/-- `'@'`. -/
def atSign : UInt8 := 0x40

/-- The test of a node's name, which is at `n`. -/
def isMemoryName (c : Ctx) (n : Int) (namelen : Nat) : Logged Access Bool :=
  if namelen < 6 then pure false
  else do
    if ← nameEq c n memoryName then
      if namelen = 6 then pure true
      else do
        let x ← rdByte .struct c.base (n + 6)
        pure (x == atSign)
    else pure false

/-- The caller's array, and how many ranges have been written to it. -/
structure RangeList where
  count : Nat
  out : Nat → Range

/-- `out[count] = r; count++`. -/
def RangeList.push (o : RangeList) (r : Range) : RangeList where
  count := o.count + 1
  out := Function.update o.out o.count r

/-- The loop over the entries of a memory node. -/
def memoryEntryBody (bytes : Int → UInt8) (reg : Int) (len ac sc max : Nat) :
    Nat × RangeList → Prog RegAccess (Nat × RangeList ⊕ RangeList)
  | (i, o) =>
      if i < len / regSize ac sc ∧ o.count < max then do
        let r ← rdEntry bytes reg len ac sc i
        pure (.inl (i + 1, o.push r))
      else pure (.inr o)

/-- What the loop of `fdt_memory_ranges` does with one child of the root. -/
def memoryNode (blob : Buffer) (c : Ctx) (max : Nat) (ch : Int) (o : RangeList) :
    Prog RegAccess RangeList := do
  match ← walk (nodeName c (ch + 4)) with
  | none => pure o
  | some namelen => do
      if ← walk (lift (isMemoryName c (ch + 4) namelen)) then do
        match ← walk (fdtParentCells blob ch) with
        | none => pure o
        | some (ac, sc) => do
            match ← walk (fdtGetprop blob ch (some regName)) with
            | none => pure o
            | some (reg, len) =>
                if ac = 0 ∨ regSize ac sc = 0 then pure o
                else loop (memoryEntryBody blob.bytes reg len ac sc max) (0, o)
      else pure o

/-- The loop of `fdt_memory_ranges`. -/
def memoryBody (blob : Buffer) (c : Ctx) (root : Int) (max : Nat) :
    Int × RangeList → Prog RegAccess (Int × RangeList ⊕ RangeList)
  | (ch, o) =>
      if ch = fdtErrNode then pure (.inr o)
      else do
        let o ← memoryNode blob c max ch o
        let next ← walk (fdtNextSibling blob root ch)
        pure (.inl (next, o))

/-- `fdt_memory_ranges`: the number of ranges, and the array `out` afterwards. -/
def fdtMemoryRanges (blob : Buffer) (out : Nat → Range) (max : Nat) :
    Prog RegAccess RangeList := do
  match ← walk (lift (ctxInit blob)) with
  | none => pure ⟨0, out⟩
  | some c =>
      if ¬ ok c c.s 4 then pure ⟨0, out⟩
      else do
        let token ← walk (lift (rdBe32 .struct c.base c.s))
        if token ≠ fdtBeginNode then pure ⟨0, out⟩
        else do
          let root := offOf c.s
          let first ← walk (fdtFirstChild blob root)
          loop (memoryBody blob c root max) (first, ⟨0, out⟩)

end Fdt
end Saski
