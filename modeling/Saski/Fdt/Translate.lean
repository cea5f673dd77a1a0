import Saski.Fdt.Reg

/-!
# What `fdt_reg_to_cpu_addr` computes

On a well-formed blob the address of a `reg` entry goes through the windows of the node
itself and of the nodes around it, up to the children of the root
(`WellFormed.returns_fdtRegToCpuAddr`).  Windows and entries are here as the bytes decode
with the code's 32-bit arithmetic, whatever the cell counts are.
-/

namespace Saski
namespace Fdt

open Capnp Logged Prog

/-! ## Entries and windows -/

/-- What is decoded as the `i`-th entry of the `reg` value at `reg`. -/
def entryAt (bytes : Int → UInt8) (reg : Int) (ac sc i : Nat) : Range where
  base := cellValue bytes (reg + i * regSize ac sc) ac
  size := if sc = 0 then 0
    else cellValue bytes (reg + i * regSize ac sc + (ac * 4 % 2 ^ 32 : Nat)) sc

theorem value_rdEntry (bytes : Int → UInt8) (reg : Int) (len ac sc i : Nat) :
    (rdEntry bytes reg len ac sc i).value = entryAt bytes reg ac sc i := by
  unfold rdEntry entryAt
  by_cases hsc : sc = 0
  · simp [rdCells, hsc]
  · simp [rdCells, hsc]

/-- One iteration over the entries of a memory node. -/
theorem returns_memoryEntryBody (bytes : Int → UInt8) (reg : Int) (len ac sc max i : Nat)
    (o : RangeList) :
    (memoryEntryBody bytes reg len ac sc max (i, o)).Returns
      (if i < len / regSize ac sc ∧ o.count < max then
        .inl (i + 1, o.push (entryAt bytes reg ac sc i))
      else .inr o) := by
  rw [memoryEntryBody]
  by_cases hgo : i < len / regSize ac sc ∧ o.count < max
  · rw [if_pos hgo, if_pos hgo, returns_liftM_bind, value_rdEntry, returns_pure]
  · rw [if_neg hgo, if_neg hgo, returns_pure]

/-- What is decoded as the `i`-th entry of the `ranges` value at `ranges`. -/
def windowAt (bytes : Int → UInt8) (ranges : Int) (k : RangeCells) (i : Nat) : Window where
  cbase := cellValue bytes (ranges + i * k.rentry) k.ownAc
  pbase := cellValue bytes (ranges + i * k.rentry + (k.ownAc * 4 % 2 ^ 32 : Nat)) k.ra
  rsize := cellValue bytes (ranges + i * k.rentry + ((k.ownAc + k.ra) * 4 % 2 ^ 32 : Nat)) k.rs

theorem value_rdWindow (bytes : Int → UInt8) (ranges : Int) (rlen : Nat) (k : RangeCells)
    (i : Nat) : (rdWindow bytes ranges rlen k i).value = windowAt bytes ranges k i := rfl

/-- The windows of a `ranges` value of `rlen` bytes. -/
def windowsAt (bytes : Int → UInt8) (ranges : Int) (rlen : Nat) (k : RangeCells) : List Window :=
  (List.range' 0 (rlen / k.rentry)).map (windowAt bytes ranges k)

/-- Where the first window that contains an address takes it. -/
def throughWindows (ws : List Window) (base : Nat) : Option Nat :=
  (ws.find? fun w => w.Contains base).map fun w => w.map base

/-- Through one bus after the other. -/
def throughBuses (buses : List (List Window)) (base : Nat) : Option Nat :=
  buses.foldlM (fun a ws => throughWindows ws a) base

@[simp] theorem throughBuses_nil (base : Nat) : throughBuses [] base = some base := rfl

theorem throughBuses_cons (ws : List Window) (buses : List (List Window)) (base : Nat) :
    throughBuses (ws :: buses) base = (throughWindows ws base).bind (throughBuses buses) := rfl

theorem returns_walk_of {α β : Type} {p : Prog Access α} {a : α} (hp : p.Returns a)
    (k : α → Prog RegAccess β) (b : β) : (walk p >>= k).Returns b ↔ (k a).Returns b :=
  returns_bind_of (show (walk p).Returns a from hp) k b

/-- The loop over the windows. -/
theorem returns_windowLoop (bytes : Int → UInt8) (ranges : Int) (rlen : Nat) (k : RangeCells)
    (base : Nat) :
    (loop (windowBody bytes ranges rlen k base) 0).Returns
      (throughWindows (windowsAt bytes ranges rlen k) base) := by
  unfold windowsAt
  suffices hfrom : ∀ n i, i + n = rlen / k.rentry →
      (loop (windowBody bytes ranges rlen k base) i).Returns
        (throughWindows ((List.range' i n).map (windowAt bytes ranges k)) base) from
    hfrom _ 0 (Nat.zero_add _)
  intro n
  induction n with
  | zero =>
      intro i hi
      apply returns_loop_of_done
      simp [windowBody, ← hi, throughWindows]
  | succ n ih =>
      intro i hi
      have hbody : ∀ next, (windowBody bytes ranges rlen k base i).Returns next ↔
          (if (windowAt bytes ranges k i).Contains base then
            .inr (some ((windowAt bytes ranges k i).map base)) else .inl (i + 1)) = next := by
        intro next
        unfold windowBody
        rw [if_pos (by omega), returns_liftM_bind, value_rdWindow]
        split
        · rw [returns_pure]
        · rw [returns_pure]
      rw [List.range'_succ, List.map_cons]
      by_cases hin : (windowAt bytes ranges k i).Contains base
      · apply returns_loop_of_done
        rw [hbody, if_pos hin, throughWindows, List.find?_cons_of_pos (by simpa using hin)]
        rfl
      · have hrest := ih (i + 1) (by omega)
        rw [throughWindows, List.find?_cons_of_neg (by simpa using hin)]
        exact returns_loop_of_step ((hbody _).mpr (if_neg hin)) hrest

/-! ## The nodes on the way up -/

/-- The default for a count of 0. -/
def orTwo (cells : Nat) : Nat := if cells = 0 then 2 else cells

/-- The cells of the entries in a node's `ranges`. -/
def DeviceTree.rangeCells (t : DeviceTree) (p : Int) (e : Entry) : RangeCells where
  ownAc := orTwo ((e.cells addressCellsName).getD 2)
  ra := orTwo (t.inherited p e addressCellsName)
  rs := orTwo ((e.cells sizeCellsName).getD 2)

/-- The windows of a node, if it has a non-empty `ranges`. -/
def DeviceTree.windows (t : DeviceTree) (blob : Buffer) (p : Int) (e : Entry) :
    Option (List Window) :=
  match e.located rangesName with
  | none => none
  | some (v, l) =>
      if l.length = 0 then none else some (windowsAt blob.bytes v l.length (t.rangeCells p e))

/-- The nodes that an address goes through: the node itself and those around it, without
the root.  Below the depth that `fdt_parent_offset` can count to there are none. -/
def DeviceTree.buses (t : DeviceTree) (p : Int) (e : Entry) : List Entry :=
  if e.depth ≤ fdtMaxDepth then (e :: t.ancestors p e).dropLast else []

/-- The counts that size a node's `reg`, as `fdt_parent_cells` gives them. -/
def DeviceTree.regCells (t : DeviceTree) (p : Int) (e : Entry) (name : CString) : Nat :=
  if e.depth ≤ fdtMaxDepth then t.inherited p e name else 2

/-- The `index`-th entry of a node's `reg`, if the tests let it be read. -/
def DeviceTree.regEntry (t : DeviceTree) (blob : Buffer) (p : Int) (e : Entry) (index : Nat) :
    Option Range :=
  match e.located regName with
  | none => none
  | some (v, l) =>
      let ac := t.regCells p e addressCellsName
      let sc := t.regCells p e sizeCellsName
      if EntryExists l.length ac sc index then some (entryAt blob.bytes v ac sc index) else none

namespace WellFormed

variable {blob : Buffer} {t : DeviceTree} (h : WellFormed blob t)

include h

theorem off_ne_zero {e : Entry} (he : e ∈ t.entries (ctxOf blob).s) : e.off ≠ 0 := by
  have hheader := (h.nodeOf he).header
  have hfour := h.four_le hheader.1 (by rw [hheader.left.be32 (by decide)]; decide)
  omega

theorem returns_rangeCells {e : Entry} (he : e ∈ t.entries (ctxOf blob).s)
    (hdepth : e.depth ≤ fdtMaxDepth) :
    (rangeCells blob e.off).Returns (some (t.rangeCells (ctxOf blob).s e)) := by
  unfold rangeCells
  rw [returns_bind_of (h.returns_fdtParentCells he hdepth)]
  simp only
  rw [returns_bind_of (h.returns_ownCells he _), returns_bind_of (h.returns_ownCells he _),
    returns_pure]
  rfl

theorem returns_mapBody_root (base : Nat) :
    (mapBody blob ((t.rootEntry (ctxOf blob).s).off, base)).Returns (.inr (some base)) := by
  rw [mapBody, returns_walk_of h.parentOf_root, if_pos (by decide), returns_pure]

/-- One level up. -/
theorem returns_mapBody_child {e x : Entry} (he : e ∈ t.entries (ctxOf blob).s)
    (hx : x ∈ e.children) (hdepth : x.depth ≤ fdtMaxDepth) (base : Nat) :
    (mapBody blob (x.off, base)).Returns
      (match t.windows blob (ctxOf blob).s x with
      | none => .inl (e.off, base)
      | some ws =>
          match throughWindows ws base with
          | none => .inr none
          | some base => .inl (e.off, base)) := by
  have hmem := DeviceTree.mem_entries_of_mem_children he hx
  have hparent := h.parentOf_child he hx hdepth
  have hnonneg := h.off_nonneg he
  have hzero := h.off_ne_zero he
  have hranges := h.returns_getprop hmem rangesName
  rw [mapBody, returns_walk_of hparent, if_neg (by omega), returns_walk_of hranges]
  unfold DeviceTree.windows
  cases hfind : x.located rangesName with
  | none => simp
  | some r =>
      obtain ⟨v, l⟩ := r
      simp only [Option.map_some]
      by_cases hempty : l.length = 0
      · simp [hempty]
      · rw [if_neg hempty, if_neg hempty, returns_walk_of (h.returns_rangeCells hmem hdepth)]
        have hloop := returns_windowLoop blob.bytes v l.length (t.rangeCells (ctxOf blob).s x) base
        simp only
        by_cases hrentry : (t.rangeCells (ctxOf blob).s x).rentry = 0
        · -- No entry has size 0, and there are no windows.
          have hnone : windowsAt blob.bytes v l.length (t.rangeCells (ctxOf blob).s x) = [] := by
            simp [windowsAt, hrentry]
          simp [hrentry, hnone, throughWindows]
        · rw [if_neg hrentry, returns_bind_of hloop]
          cases throughWindows (windowsAt blob.bytes v l.length (t.rangeCells (ctxOf blob).s x))
              base with
          | none => simp
          | some base => simp [hzero]

/-- The whole way up. -/
theorem returns_mapLoop {e : Entry} (he : e ∈ t.entries (ctxOf blob).s) :
    e.depth ≤ fdtMaxDepth → ∀ base, (loop (mapBody blob) (e.off, base)).Returns
      (throughBuses ((e :: t.ancestors (ctxOf blob).s e).dropLast.filterMap
        (t.windows blob (ctxOf blob).s)) base) := by
  induction e, he using DeviceTree.entry_induction with
  | root =>
      intro _ base
      exact returns_loop_of_done (h.returns_mapBody_root base)
  | child e he x hx ih =>
      intro hdepth base
      have hlt := depth_of_mem_children hx
      have hbody := h.returns_mapBody_child he hx hdepth base
      rw [DeviceTree.ancestors_child he hx, List.dropLast_cons_cons]
      cases hwindows : t.windows blob (ctxOf blob).s x with
      | none =>
          rw [hwindows] at hbody
          rw [List.filterMap_cons_none hwindows]
          exact returns_loop_of_step hbody (ih (by omega) base)
      | some ws =>
          rw [hwindows] at hbody
          rw [List.filterMap_cons_some hwindows, throughBuses_cons]
          cases hthrough : throughWindows ws base with
          | none =>
              simp only [hthrough] at hbody
              exact returns_loop_of_done hbody
          | some base' =>
              simp only [hthrough] at hbody
              exact returns_loop_of_step hbody (ih (by omega) base')

/-- A node that is too deep has no parent for the walks. -/
theorem parentOf_deep {e : Entry} (he : e ∈ t.entries (ctxOf blob).s)
    (hdeep : ¬ e.depth ≤ fdtMaxDepth) : (fdtParentOffset blob e.off).Returns fdtErrNode := by
  have hparent := returns_fdtParentOffset h.toSmallBlob e.off
  rwa [h.parentOf_entry he, if_neg hdeep] at hparent

theorem returns_regCells {e : Entry} (he : e ∈ t.entries (ctxOf blob).s) :
    (fdtParentCells blob e.off).Returns
      (some (t.regCells (ctxOf blob).s e addressCellsName,
        t.regCells (ctxOf blob).s e sizeCellsName)) := by
  unfold DeviceTree.regCells
  by_cases hdepth : e.depth ≤ fdtMaxDepth
  · rw [if_pos hdepth, if_pos hdepth]
    exact h.returns_fdtParentCells he hdepth
  · rw [if_neg hdepth, if_neg hdepth]
    have hloop : (loop (cellsBody blob) (fdtErrNode, none, none)).Returns (2, 2) := by
      apply returns_loop_of_done
      simp [cellsBody, fdtErrNode]
    unfold fdtParentCells
    simp only [returns_ctxInit h.toSmallBlob]
    rw [returns_bind_of (h.parentOf_deep he hdepth), returns_bind_of hloop, returns_pure]

theorem returns_translation {e : Entry} (he : e ∈ t.entries (ctxOf blob).s) (base : Nat) :
    (loop (mapBody blob) (e.off, base)).Returns
      (throughBuses ((t.buses (ctxOf blob).s e).filterMap (t.windows blob (ctxOf blob).s))
        base) := by
  unfold DeviceTree.buses
  by_cases hdepth : e.depth ≤ fdtMaxDepth
  · rw [if_pos hdepth]
    exact h.returns_mapLoop he hdepth base
  · rw [if_neg hdepth]
    apply returns_loop_of_done
    rw [mapBody, returns_walk_of (h.parentOf_deep he hdepth), if_pos (by decide), returns_pure]
    rfl

/-- **What `fdt_reg_to_cpu_addr` computes**, for every node and every index. -/
theorem returns_fdtRegToCpuAddr {e : Entry} (he : e ∈ t.entries (ctxOf blob).s) (index : Nat) :
    (fdtRegToCpuAddr blob e.off index).Returns
      ((t.regEntry blob (ctxOf blob).s e index).bind fun r =>
        (throughBuses ((t.buses (ctxOf blob).s e).filterMap (t.windows blob (ctxOf blob).s))
          r.base).map fun base => ⟨base, r.size⟩) := by
  have hctx : (lift (ctxInit blob)).Returns (some (ctxOf blob)) :=
    (returns_lift _ _).mpr ((value_ctxInit blob _).mpr h.toHeader)
  unfold fdtRegToCpuAddr
  rw [returns_walk_of hctx]
  simp only
  rw [returns_walk_of (h.returns_regCells he)]
  simp only
  rw [returns_walk_of (h.returns_getprop he regName)]
  unfold DeviceTree.regEntry
  cases e.located regName with
  | none => simp
  | some x =>
      obtain ⟨v, l⟩ := x
      simp only [Option.map_some]
      by_cases hexists : EntryExists l.length (t.regCells (ctxOf blob).s e addressCellsName)
          (t.regCells (ctxOf blob).s e sizeCellsName) index
      · rw [if_neg (not_not.mpr hexists), if_pos hexists, returns_liftM_bind, value_rdEntry,
          Option.bind_some, returns_bind_of (h.returns_translation he _)]
        cases throughBuses _ _ with
        | none => simp
        | some base => simp
      · rw [if_pos hexists, if_neg hexists, returns_pure, Option.bind_none]

end WellFormed

end Fdt
end Saski
