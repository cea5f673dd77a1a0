import Saski.Fdt.RegExact

/-!
# `fdt_memory_ranges`

On a well-formed blob with ordinary cell counts at the root, the function writes the
entries of the memory nodes one after the other until the array is full
(`fdtMemoryRanges_exact`).

* `RangeList.Holds` says what an array holds after some ranges have been written;
* a node adds its entries (`WellFormed.returns_memoryNode`), and the loop does so for the
  children of the root in their order.
-/

namespace Saski
namespace Fdt

open Capnp Logged Prog

/-! ## The memory of the tree -/

/-- `memory`, or `memory@` and a unit address. -/
def IsMemory (name : List UInt8) : Prop :=
  name = memoryName ∨ memoryName ++ [atSign] <+: name

instance (name : List UInt8) : Decidable (IsMemory name) := inferInstanceAs (Decidable (_ ∨ _))

/-- The whole entries of a `reg` value. -/
def regEntriesOf (ac sc : Nat) (l : List UInt8) : List Range :=
  (List.range' 0 (l.length / ((ac + sc) * 4))).filterMap (regEntryOf ac sc l)

/-- The cells of the root for its children. -/
def DeviceTree.rootCells (t : DeviceTree) (p : Int) (name : CString) : Nat :=
  ((t.rootEntry p).cells name).getD 2

/-- The ranges that one child of the root declares. -/
def DeviceTree.nodeMemory (t : DeviceTree) (p : Int) (x : Entry) : List Range :=
  if IsMemory x.name.chars then
    ((x.value regName).map (regEntriesOf (t.rootCells p addressCellsName)
      (t.rootCells p sizeCellsName))).getD []
  else []

/-- The declared memory, in the order of the tree. -/
def DeviceTree.memory (t : DeviceTree) (p : Int) : List Range :=
  (t.rootEntry p).children.flatMap (t.nodeMemory p)

/-! ## Writing ranges -/

/-- The array after the ranges `rs` have been written to it, from its start on. -/
structure RangeList.Holds (o : RangeList) (out : Nat → Range) (rs : List Range) : Prop where
  count : o.count = rs.length
  written : ∀ i r, rs[i]? = some r → o.out i = r
  rest : ∀ i, rs.length ≤ i → o.out i = out i

theorem RangeList.holds_nil (out : Nat → Range) : (⟨0, out⟩ : RangeList).Holds out [] where
  count := rfl
  written := by simp
  rest _ _ := rfl

theorem RangeList.push_out (o : RangeList) (r : Range) (i : Nat) :
    (o.push r).out i = if i = o.count then r else o.out i := Function.update_apply _ _ _ _

theorem RangeList.Holds.push {o : RangeList} {out : Nat → Range} {rs : List Range}
    (h : o.Holds out rs) (r : Range) : (o.push r).Holds out (rs ++ [r]) where
  count := by simp [RangeList.push, h.count]
  written i r' hi := by
    rw [RangeList.push_out, h.count]
    by_cases hlast : i = rs.length
    · rw [if_pos hlast]
      simpa [hlast] using hi
    · have hlt : i < rs.length := by
        have := (List.getElem?_eq_some_iff.mp hi).1
        rw [List.length_append, List.length_singleton] at this
        omega
      rw [List.getElem?_append_left hlt] at hi
      rw [if_neg hlast]
      exact h.written i r' hi
  rest i hi := by
    rw [List.length_append, List.length_singleton] at hi
    rw [RangeList.push_out, h.count, if_neg (by omega)]
    exact h.rest i (by omega)

/-- `r` is written if there is room. -/
def RangeList.offer (max : Nat) (o : RangeList) (r : Range) : RangeList :=
  if o.count < max then o.push r else o

/-- As many ranges are written as there is room for. -/
theorem RangeList.Holds.foldl_offer {out : Nat → Range} {max : Nat} (rs : List Range) :
    ∀ {o : RangeList} {old : List Range}, o.Holds out (old.take max) →
      (rs.foldl (RangeList.offer max) o).Holds out ((old ++ rs).take max) := by
  induction rs with
  | nil =>
      intro o old h
      simpa using h
  | cons r rs ih =>
      intro o old h
      have hoffer : (o.offer max r).Holds out ((old ++ [r]).take max) := by
        unfold RangeList.offer
        have hcount := h.count
        rw [List.length_take] at hcount
        by_cases hroom : o.count < max
        · rw [if_pos hroom, List.take_of_length_le (by simp; omega)]
          rw [List.take_of_length_le (by omega)] at h
          exact h.push r
        · rwa [if_neg hroom, List.take_append_of_le_length (by omega)]
      simpa using ih hoffer

/-- A full array stays as it is. -/
theorem RangeList.foldl_offer_full {max : Nat} {o : RangeList} (hfull : ¬ o.count < max)
    (rs : List Range) : rs.foldl (RangeList.offer max) o = o := by
  induction rs with
  | nil => rfl
  | cons r rs ih => rw [List.foldl_cons, RangeList.offer, if_neg hfull, ih]

/-! ## One node -/

theorem isMemory_iff {name : List UInt8} :
    IsMemory name ↔ name.take 6 = memoryName ∧ (name.length = 6 ∨ name[6]? = some atSign) := by
  constructor
  · rintro (rfl | ⟨rest, rfl⟩)
    · exact ⟨rfl, Or.inl rfl⟩
    · exact ⟨rfl, Or.inr rfl⟩
  · rintro ⟨htake, hlen | hat⟩
    · exact Or.inl (by rwa [List.take_of_length_le (by omega)] at htake)
    · obtain ⟨hlt, hget⟩ := List.getElem?_eq_some_iff.mp hat
      right
      rw [← htake, ← hget, List.take_append_getElem]
      exact List.take_prefix 7 name

/-- The test of the name. -/
theorem value_isMemoryName {c : Ctx} {n : Int} {name : List UInt8} (hat : BytesAt c n name) :
    (isMemoryName c n name.length).value = decide (IsMemory name) := by
  unfold isMemoryName
  rw [Bool.eq_iff_iff, decide_eq_true_iff, isMemory_iff]
  by_cases hshort : name.length < 6
  · have hne : name.take 6 ≠ memoryName := fun heq => by
      have hlen := congrArg List.length heq
      rw [List.length_take] at hlen
      exact absurd hlen (by simp [memoryName]; omega)
    simp [hshort, hne]
  have hstart : BytesAt c n (name.take 6) := by
    apply BytesAt.left
    rwa [List.take_append_drop]
  have htest := value_nameEq (l := memoryName) hstart (by simp [memoryName]; omega)
  rw [if_neg hshort, value_bind, htest]
  by_cases heq : name.take 6 = memoryName
  case neg => simp [heq]
  by_cases hlen : name.length = 6
  · simp [heq, hlen]
  · have hbyte := hat.2.2 6 (by omega)
    rw [Nat.cast_ofNat] at hbyte
    simp [heq, hlen, hbyte]

/-- The entries of a `reg` value with ordinary cell counts, from the `i`-th on. -/
theorem returns_memoryEntryLoop {c : Ctx} {v : Int} {l : List UInt8} (hat : BytesAt c v l)
    {ac sc : Nat} (hac : ac = 1 ∨ ac = 2) (hsc : sc = 0 ∨ sc = 1 ∨ sc = 2) (max : Nat)
    (n : Nat) : ∀ (i : Nat) (o : RangeList), i + n = l.length / ((ac + sc) * 4) →
      (loop (memoryEntryBody c.base v l.length ac sc max) (i, o)).Returns
        (((List.range' i n).filterMap (regEntryOf ac sc l)).foldl (RangeList.offer max) o) := by
  have hsize : regSize ac sc = (ac + sc) * 4 := Nat.mod_eq_of_lt (by omega)
  induction n with
  | zero =>
      intro i o hend
      have hbody := returns_memoryEntryBody c.base v l.length ac sc max i o
      rw [hsize, if_neg (by omega)] at hbody
      exact returns_loop_of_done hbody
  | succ n ih =>
      intro i o hend
      have hbody := returns_memoryEntryBody c.base v l.length ac sc max i o
      have hfits : (i + 1) * ((ac + sc) * 4) ≤ l.length :=
        (Nat.mul_le_mul_right _ (by omega)).trans (Nat.div_mul_le_self l.length _)
      have hentry : regEntryOf ac sc l i = some (entryAt c.base v ac sc i) := by
        rw [regEntryOf, if_pos hfits, entryAt_of_bytesAt hat hac hsc hfits]
      rw [List.range'_succ, List.filterMap_cons_some hentry, List.foldl_cons, RangeList.offer]
      by_cases hroom : o.count < max
      · rw [hsize, if_pos ⟨by omega, hroom⟩] at hbody
        rw [if_pos hroom]
        exact returns_loop_of_step hbody (ih (i + 1) _ (by omega))
      · rw [if_neg fun hboth => hroom hboth.2] at hbody
        rw [if_neg hroom, RangeList.foldl_offer_full hroom]
        exact returns_loop_of_done hbody

/-- A child of the root takes its counts from the root. -/
theorem DeviceTree.inherited_of_root {t : DeviceTree} {p : Int} {x : Entry}
    (hx : x ∈ (t.rootEntry p).children) (name : CString) :
    t.inherited p x name = t.rootCells p name := by
  rw [inherited, ancestors_child List.mem_cons_self hx, ancestors_root, findSome?_cons_or]
  simp [rootCells]

theorem DeviceTree.candidates_root (t : DeviceTree) (p : Int) :
    (t.rootEntry p).candidates = (t.rootEntry p).children :=
  if_pos (Nat.zero_lt_succ 15)

/-- What is asked of the root: one or two address cells, and at most two size cells. -/
structure DeviceTree.PlainRoot (t : DeviceTree) (p : Int) : Prop where
  ac : t.rootCells p addressCellsName = 1 ∨ t.rootCells p addressCellsName = 2
  sc : t.rootCells p sizeCellsName = 0 ∨ t.rootCells p sizeCellsName = 1 ∨
    t.rootCells p sizeCellsName = 2

namespace WellFormed

variable {blob : Buffer} {t : DeviceTree} (h : WellFormed blob t)
  (hplain : t.PlainRoot (ctxOf blob).s)

include h hplain

theorem returns_memoryNode {x : Entry} (hx : x ∈ (t.rootEntry (ctxOf blob).s).children)
    (max : Nat) (o : RangeList) :
    (memoryNode blob (ctxOf blob) max x.off o).Returns
      ((t.nodeMemory (ctxOf blob).s x).foldl (RangeList.offer max) o) := by
  have hmem := DeviceTree.mem_entries_of_mem_children List.mem_cons_self hx
  have hdepth : x.depth ≤ fdtMaxDepth := by
    rw [depth_of_mem_children hx]
    exact Nat.le_add_left 1 15
  obtain ⟨hname, hchars⟩ := h.name_at hmem
  have hlen := returns_nodeName (ctxOf blob) (x.off + 4)
  rw [hname] at hlen
  have htest := (returns_lift (isMemoryName (ctxOf blob) (x.off + 4) x.name.chars.length) _).mpr
    (value_isMemoryName hchars)
  have hcells := h.returns_fdtParentCells hmem hdepth
  rw [DeviceTree.inherited_of_root hx, DeviceTree.inherited_of_root hx] at hcells
  obtain ⟨hac, hsc⟩ := hplain
  unfold memoryNode DeviceTree.nodeMemory
  rw [returns_walk_of hlen]
  simp only
  rw [returns_walk_of htest]
  by_cases hmemory : IsMemory x.name.chars
  case neg => simp [hmemory]
  simp only [hmemory, decide_true, if_true]
  rw [returns_walk_of hcells]
  simp only
  rw [returns_walk_of (h.returns_getprop hmem regName), x.value_eq_located]
  generalize t.rootCells (ctxOf blob).s addressCellsName = ac at hac
  generalize t.rootCells (ctxOf blob).s sizeCellsName = sc at hsc
  have hsize : regSize ac sc = (ac + sc) * 4 := Nat.mod_eq_of_lt (by omega)
  cases hfind : x.located regName with
  | none => simp
  | some y =>
      obtain ⟨v, l⟩ := y
      simp only [Option.map_some, Option.getD_some]
      rw [if_neg (by omega)]
      have hat := h.bytesAt_located hmem regName hfind
      exact returns_memoryEntryLoop hat hac hsc max _ 0 o (Nat.zero_add _)

/-- The loop over the children of the root. -/
theorem returns_memoryLoop (max : Nat) (ys : List Entry) :
    ∀ xs (o : RangeList), (t.rootEntry (ctxOf blob).s).children = xs ++ ys →
      (loop (memoryBody blob (ctxOf blob) (t.rootEntry (ctxOf blob).s).off max)
          ((ys.head?.map Entry.off).getD fdtErrNode, o)).Returns
        ((ys.flatMap (t.nodeMemory (ctxOf blob).s)).foldl (RangeList.offer max) o) := by
  induction ys with
  | nil =>
      intro xs o _
      apply returns_loop_of_done
      simp [memoryBody]
  | cons x ys ih =>
      intro xs o hsplit
      have hroot : t.rootEntry (ctxOf blob).s ∈ t.entries (ctxOf blob).s := List.mem_cons_self
      have hx : x ∈ (t.rootEntry (ctxOf blob).s).children := by simp [hsplit]
      have hmem := DeviceTree.mem_entries_of_mem_children hroot hx
      have hne : x.off ≠ fdtErrNode := h.ne_errNode ((h.nodeOf hmem).header.left.ok le_rfl)
      have hcandidates := (t.candidates_root (ctxOf blob).s).trans hsplit
      have hnext := h.returns_nextCandidate hroot hcandidates
      have hbody : (memoryBody blob (ctxOf blob) (t.rootEntry (ctxOf blob).s).off max
          (x.off, o)).Returns (.inl ((ys.head?.map Entry.off).getD fdtErrNode,
            (t.nodeMemory (ctxOf blob).s x).foldl (RangeList.offer max) o)) := by
        rw [memoryBody, if_neg hne, returns_bind_of (h.returns_memoryNode hplain hx max o),
          returns_walk_of hnext]
        simp
      rw [List.flatMap_cons, List.foldl_append]
      exact returns_loop_of_step hbody (ih (xs ++ [x]) _ (by simp [hsplit]))

theorem returns_fdtMemoryRanges (out : Nat → Range) (max : Nat) :
    (fdtMemoryRanges blob out max).Returns
      ((t.memory (ctxOf blob).s).foldl (RangeList.offer max) ⟨0, out⟩) := by
  have hroot : t.rootEntry (ctxOf blob).s ∈ t.entries (ctxOf blob).s := List.mem_cons_self
  have hheader := (h.nodeOf hroot).header.left
  have hok : ok (ctxOf blob) (ctxOf blob).s 4 := hheader.ok le_rfl
  have htoken : be32 (ctxOf blob).base (ctxOf blob).s = fdtBeginNode := hheader.be32 (by decide)
  have hctx : (lift (ctxInit blob)).Returns (some (ctxOf blob)) :=
    (returns_lift _ _).mpr ((value_ctxInit blob _).mpr h.toHeader)
  have hword : (lift (rdBe32 .struct (ctxOf blob).base (ctxOf blob).s)).Returns fdtBeginNode :=
    (returns_lift _ _).mpr ((value_rdBe32 _ _ _).trans htoken)
  have hfirst := h.returns_firstCandidate hroot
  rw [t.candidates_root, show (t.rootEntry (ctxOf blob).s).off = (ctxOf blob).s from rfl] at hfirst
  unfold fdtMemoryRanges
  rw [returns_walk_of hctx]
  simp only [hok, not_true_eq_false, if_false, h.offOf_token hok]
  rw [returns_walk_of hword]
  simp only [ne_eq, not_true_eq_false, if_false]
  rw [returns_walk_of hfirst]
  exact h.returns_memoryLoop hplain max _ [] _ rfl

end WellFormed

/-- **The memory of the tree is what `fdt_memory_ranges` reports**, as far as the array
has room. -/
theorem fdtMemoryRanges_exact {blob : Buffer} {t : DeviceTree} (h : WellFormed blob t)
    (hplain : t.PlainRoot (ctxOf blob).s) (out : Nat → Range) (max : Nat) :
    ∃ o, (fdtMemoryRanges blob out max).Returns o ∧
      o.Holds out ((t.memory (ctxOf blob).s).take max) ∧ ∀ i, max ≤ i → o.out i = out i := by
  have hstart : (⟨0, out⟩ : RangeList).Holds out (([] : List Range).take max) := by
    rw [List.take_nil]
    exact RangeList.holds_nil out
  have hholds := RangeList.Holds.foldl_offer (t.memory (ctxOf blob).s) hstart
  rw [List.nil_append] at hholds
  have hrest : ∀ i, max ≤ i →
      ((t.memory (ctxOf blob).s).foldl (RangeList.offer max) ⟨0, out⟩).out i = out i := by
    intro i hi
    exact hholds.rest i (by rw [List.length_take]; omega)
  exact ⟨_, h.returns_fdtMemoryRanges hplain out max, hholds, hrest⟩

theorem noNul_memory : (0 : UInt8) ∉ memoryName := by decide

theorem noNul_memoryAt : (0 : UInt8) ∉ memoryName ++ [atSign, 48] := by decide

theorem noNul_memoryX : (0 : UInt8) ∉ memoryName ++ [45, 120] := by decide

/-- Two memory nodes, the first with one cell too many in its `reg`, and a node
`memory-x` between them. -/
def memoryTree : DeviceTree where
  name := ⟨[], noNul_nil⟩
  props := [addressCells 1, sizeCells 1]
  kids :=
    .cons 0 ⟨_, noNul_memoryAt⟩ [regProperty [0x40000000, 0x1000, 7]] .nil 0
      (.cons 0 ⟨_, noNul_memoryX⟩ [regProperty [0x1000, 0x10]] .nil 0
        (.cons 1 ⟨_, noNul_memory⟩ [regProperty [0x80000000, 0x2000]] .nil 0 .nil))
  close := 0
  after := 0

theorem wellFormed_memoryTree :
    WellFormed (blobOf memoryTree.structBlock regStrings) memoryTree :=
  wellFormed_blobOf memoryTree regStrings (by decide +kernel) (by decide +kernel)

/-- With room for three, two ranges are written and the third element stays. -/
theorem memoryTree_memoryRanges :
    WellFormed (blobOf memoryTree.structBlock regStrings) memoryTree ∧
      ∃ o, (fdtMemoryRanges (blobOf memoryTree.structBlock regStrings) (fun _ => ⟨5, 5⟩) 3).Returns
          o ∧
        o.count = 2 ∧ o.out 0 = ⟨0x40000000, 0x1000⟩ ∧ o.out 1 = ⟨0x80000000, 0x2000⟩ ∧
        o.out 2 = ⟨5, 5⟩ := by
  have hs : (ctxOf (blobOf memoryTree.structBlock regStrings)).s = 40 := by decide +kernel
  have hcells : memoryTree.rootCells 40 addressCellsName = 1 ∧
      memoryTree.rootCells 40 sizeCellsName = 1 := by decide +kernel
  have hmemory : memoryTree.memory 40 = [⟨0x40000000, 0x1000⟩, ⟨0x80000000, 0x2000⟩] := by
    decide +kernel
  have hplain : memoryTree.PlainRoot 40 := ⟨Or.inl hcells.1, Or.inr (Or.inl hcells.2)⟩
  rw [← hs] at hplain
  obtain ⟨o, hreturns, hholds, -⟩ :=
    fdtMemoryRanges_exact wellFormed_memoryTree hplain (fun _ => ⟨5, 5⟩) 3
  rw [hs, hmemory] at hholds
  exact ⟨wellFormed_memoryTree, o, hreturns, hholds.count, hholds.written 0 _ rfl,
    hholds.written 1 _ rfl, hholds.rest 2 le_rfl⟩

end Fdt
end Saski
