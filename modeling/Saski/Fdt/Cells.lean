import Saski.Fdt.Paths
import Saski.Fdt.TreeProps

/-!
# Cell counts and their inheritance (`lib/fdt.c`)

The `reg` entries of a node are sized by `#address-cells` and `#size-cells`, which
`fdt_parent_cells` looks for from the parent upwards, each count on its own.  On a
well-formed blob it finds the nearest declaration of each, or the default 2
(`fdtParentCells_exact`).  `fdt_cell_counts` converts the two numbers to `int`.
-/

namespace Saski
namespace Fdt

open Capnp Logged Prog Nesting

/-- `"#address-cells"`. -/
def addressCellsName : CString where
  chars := [35, 97, 100, 100, 114, 101, 115, 115, 45, 99, 101, 108, 108, 115]
  noNul := by decide

/-- `"#size-cells"`. -/
def sizeCellsName : CString where
  chars := [35, 115, 105, 122, 101, 45, 99, 101, 108, 108, 115]
  noNul := by decide

/-! ## The functions -/

/-- `own_cells`: `*out`, where the function returns 0. -/
def ownCells (blob : Buffer) (nodeOff : Int) (name : CString) : Prog Access (Option Nat) := do
  match ← fdtGetprop blob nodeOff (some name) with
  | none => pure none
  | some (v, len) =>
      if len < 4 then pure none
      else do
        let x ← rdBe32 .value blob.bytes v
        pure (some x)

/-- One of the two counts in the loop of `fdt_parent_cells`: it is looked for until it
is found. -/
def findCells (blob : Buffer) (cur : Int) (name : CString) (found : Option Nat) :
    Prog Access (Option Nat) :=
  match found with
  | some v => pure (some v)
  | none => ownCells blob cur name

/-- The loop of `fdt_parent_cells`, with the counts found so far.  A count that is not
found is 2. -/
def cellsBody (blob : Buffer) :
    Int × Option Nat × Option Nat → Prog Access (Int × Option Nat × Option Nat ⊕ Nat × Nat)
  | (cur, ac, sc) =>
      if cur < 0 then pure (.inr (ac.getD 2, sc.getD 2))
      else do
        let ac ← findCells blob cur addressCellsName ac
        let sc ← findCells blob cur sizeCellsName sc
        if ac.isSome ∧ sc.isSome then pure (.inr (ac.getD 2, sc.getD 2))
        else do
          let parent ← fdtParentOffset blob cur
          pure (.inl (parent, ac, sc))

/-- `fdt_parent_cells`: the two counts, where the function returns 1. -/
def fdtParentCells (blob : Buffer) (nodeOffset : Int) : Prog Access (Option (Nat × Nat)) := do
  match ← ctxInit blob with
  | none => pure none
  | some _ => do
      let cur ← fdtParentOffset blob nodeOffset
      let cells ← loop (cellsBody blob) (cur, none, none)
      pure (some cells)

/-- The conversion of a 32-bit number to `int`. -/
def toInt (v : Nat) : Int := Int.bmod v (2 ^ 32)

/-- `fdt_cell_counts`. -/
def fdtCellCounts (blob : Buffer) (nodeOffset : Int) : Prog Access (Option (Int × Int)) := do
  match ← fdtParentCells blob nodeOffset with
  | none => pure none
  | some (ac, sc) => pure (some (toInt ac, toInt sc))

/-! ## Numbers in a value -/

/-- The number that bytes stand for, the most significant first. -/
def bigEndian (l : List UInt8) : Nat := l.foldl (fun n b => 256 * n + b.toNat) 0

/-- The number of `cells` 32-bit words from a place in a value on. -/
def cellsAt (l : List UInt8) (off cells : Nat) : Nat := bigEndian ((l.drop off).take (4 * cells))

/-- Bytes of a value, read back. -/
theorem BytesAt.take_eq {c : Ctx} {p : Int} {l : List UInt8} (h : BytesAt c p l) {off n : Nat}
    (hfits : off + n ≤ l.length) :
    (l.drop off).take n = (List.range n).map fun i : Nat => c.base (p + off + i) := by
  apply List.ext_getElem?
  intro i
  by_cases hi : i < n
  · rw [List.getElem?_take_of_lt hi, List.getElem?_drop, h.2.2 _ (by omega), List.getElem?_map,
      List.getElem?_range hi, Option.map_some, Nat.cast_add, Int.add_assoc]
  · rw [List.getElem?_eq_none (by simp; omega), List.getElem?_eq_none (by simp; omega)]

theorem be32_of_bytesAt {c : Ctx} {p : Int} {l : List UInt8} (h : BytesAt c p l) (off : Nat)
    (hfits : off + 4 ≤ l.length) : be32 c.base (p + off) = cellsAt l off 1 := by
  rw [cellsAt, h.take_eq hfits, be32_eq]
  simp only [bigEndian, List.range_succ, List.range_zero, List.nil_append, List.cons_append,
    List.map_cons, List.map_nil, List.foldl_cons, List.foldl_nil, Nat.cast_zero, Nat.cast_one,
    Nat.cast_ofNat, Int.add_zero]
  omega

/-! ## Declarations and ancestors -/

/-- The count that a node declares: the first property of the name, if it has four bytes. -/
def Entry.cells (e : Entry) (name : CString) : Option Nat :=
  (e.value name).bind fun l => if 4 ≤ l.length then some (cellsAt l 0 1) else none

/-- The node at an offset. -/
def DeviceTree.nodeAt (t : DeviceTree) (p n : Int) : Option Entry :=
  (t.entries p).find? fun e => e.off = n

/-- The proper ancestors of a node, the nearest first. -/
def DeviceTree.ancestors (t : DeviceTree) (p : Int) (e : Entry) : List Entry :=
  e.above.filterMap (t.nodeAt p)

/-- The count that the nearest ancestor declares, or 2. -/
def DeviceTree.inherited (t : DeviceTree) (p : Int) (e : Entry) (name : CString) : Nat :=
  ((t.ancestors p e).findSome? fun a => a.cells name).getD 2

theorem findSome?_cons_or {α β : Type} (f : α → Option β) (a : α) (as : List α) :
    (a :: as).findSome? f = (f a).or (as.findSome? f) := by
  rw [List.findSome?_cons]
  cases f a with
  | none => rfl
  | some b => rfl

namespace DeviceTree

variable {t : DeviceTree} {p : Int}

theorem nodeAt_off {e : Entry} (he : e ∈ t.entries p) : t.nodeAt p e.off = some e := by
  cases hfind : t.nodeAt p e.off with
  | none => exact absurd (List.find?_eq_none.mp hfind e he) (by simp)
  | some x =>
      have hoff : x.off = e.off := by simpa using List.find?_some hfind
      rw [off_inj (List.mem_of_find?_eq_some hfind) he hoff]

@[simp] theorem ancestors_root : t.ancestors p (t.rootEntry p) = [] := rfl

theorem ancestors_child {e x : Entry} (he : e ∈ t.entries p) (hx : x ∈ e.children) :
    t.ancestors p x = e :: t.ancestors p e := by
  rw [ancestors, (above_of_mem_tops hx).1, List.filterMap_cons_some (nodeAt_off he)]
  rfl

/-- Induction from the root downwards. -/
@[elab_as_elim]
theorem entry_induction {motive : (e : Entry) → e ∈ t.entries p → Prop}
    (root : motive (t.rootEntry p) List.mem_cons_self)
    (child : ∀ e he x hx, motive e he → motive x (mem_entries_of_mem_children he hx))
    (e : Entry) (he : e ∈ t.entries p) : motive e he := by
  induction hdepth : e.depth generalizing e with
  | zero =>
      rcases eq_root_or_mem_children he with rfl | ⟨parent, hparent, hchild⟩
      · exact root
      · have := depth_of_mem_children hchild
        omega
  | succ n ih =>
      rcases eq_root_or_mem_children he with rfl | ⟨parent, hparent, hchild⟩
      · exact root
      · have := depth_of_mem_children hchild
        exact child parent hparent e hchild (ih parent hparent (by omega))

end DeviceTree

/-! ## The walk upwards -/

namespace WellFormed

variable {blob : Buffer} {t : DeviceTree} (h : WellFormed blob t)

include h

theorem returns_ownCells {e : Entry} (he : e ∈ t.entries (ctxOf blob).s) (name : CString) :
    (ownCells blob e.off name).Returns (e.cells name) := by
  have hvalue := h.returns_getprop he name
  unfold ownCells Entry.cells
  rw [returns_bind_of hvalue, Entry.value_eq_located]
  cases hfind : e.located name with
  | none => simp
  | some x =>
      obtain ⟨v, l⟩ := x
      have hat := h.bytesAt_located he name hfind
      by_cases hlen : l.length < 4
      · simp [hlen]
      · have hword := be32_of_bytesAt hat 0 (by omega)
        rw [Nat.cast_zero, Int.add_zero] at hword
        simp only [Option.map_some, hlen, if_false, returns_rdBe32, returns_pure,
          Option.bind_some]
        rw [if_pos (by omega)]
        exact congrArg some hword

theorem returns_findCells {e : Entry} (he : e ∈ t.entries (ctxOf blob).s) (name : CString)
    (found : Option Nat) : (findCells blob e.off name found).Returns (found.or (e.cells name)) := by
  cases found with
  | none => simpa [findCells] using h.returns_ownCells he name
  | some v => simp [findCells]

/-- The parent of a child, where the walk finds it. -/
theorem parentOf_child {e x : Entry} (he : e ∈ t.entries (ctxOf blob).s) (hx : x ∈ e.children)
    (hdepth : x.depth ≤ fdtMaxDepth) : (fdtParentOffset blob x.off).Returns e.off := by
  have hparent := returns_fdtParentOffset h.toSmallBlob x.off
  rw [h.parentOf_entry (DeviceTree.mem_entries_of_mem_children he hx), if_pos hdepth,
    (above_of_mem_tops hx).1] at hparent
  exact hparent

theorem parentOf_root :
    (fdtParentOffset blob (t.rootEntry (ctxOf blob).s).off).Returns fdtErrNode := by
  have hparent := returns_fdtParentOffset h.toSmallBlob (t.rootEntry (ctxOf blob).s).off
  rw [h.parentOf_entry List.mem_cons_self] at hparent
  exact hparent

/-- The loop from the parent of a node on: the counts found so far come first. -/
theorem returns_cellsLoop {e : Entry} (he : e ∈ t.entries (ctxOf blob).s) :
    e.depth ≤ fdtMaxDepth → ∀ {parent : Int}, (fdtParentOffset blob e.off).Returns parent →
      ∀ ac sc : Option Nat, (loop (cellsBody blob) (parent, ac, sc)).Returns
        ((ac.or ((t.ancestors (ctxOf blob).s e).findSome? (·.cells addressCellsName))).getD 2,
          (sc.or ((t.ancestors (ctxOf blob).s e).findSome? (·.cells sizeCellsName))).getD 2) := by
  induction e, he using DeviceTree.entry_induction with
  | root =>
      intro _ parent hparent ac sc
      obtain rfl := h.parentOf_root.unique hparent
      apply returns_loop_of_done
      simp [cellsBody, fdtErrNode]
  | child e he x hx ih =>
      intro hdepth parent hparent ac sc
      obtain rfl := (h.parentOf_child he hx hdepth).unique hparent
      have hnonneg := h.off_nonneg he
      have hlt := depth_of_mem_children hx
      have hup := returns_fdtParentOffset h.toSmallBlob e.off
      have hbody : ∀ next, (cellsBody blob (e.off, ac, sc)).Returns next ↔
          (if (ac.or (e.cells addressCellsName)).isSome ∧
              (sc.or (e.cells sizeCellsName)).isSome then
            .inr ((ac.or (e.cells addressCellsName)).getD 2, (sc.or (e.cells sizeCellsName)).getD 2)
          else .inl (parentOf (ctxOf blob) e.off, ac.or (e.cells addressCellsName),
            sc.or (e.cells sizeCellsName))) = next := by
        intro next
        rw [cellsBody, if_neg (by omega), returns_bind_of (h.returns_findCells he _ ac),
          returns_bind_of (h.returns_findCells he _ sc)]
        split
        · simp
        · rw [returns_bind_of hup, returns_pure]
      rw [DeviceTree.ancestors_child he hx, findSome?_cons_or, findSome?_cons_or, ← Option.or_assoc,
        ← Option.or_assoc]
      by_cases hboth : (ac.or (e.cells addressCellsName)).isSome ∧
          (sc.or (e.cells sizeCellsName)).isSome
      · -- Both counts are known, whatever the ancestors further up declare.
        apply returns_loop_of_done
        rw [hbody, if_pos hboth, Option.or_of_isSome hboth.1, Option.or_of_isSome hboth.2]
      · have hrest := ih (by omega) hup (ac.or (e.cells addressCellsName))
          (sc.or (e.cells sizeCellsName))
        exact returns_loop_of_step ((hbody _).mpr (if_neg hboth)) hrest


/-- **Cell counts come from the nearest declaration**, each on its own. -/
theorem returns_fdtParentCells {e : Entry} (he : e ∈ t.entries (ctxOf blob).s)
    (hdepth : e.depth ≤ fdtMaxDepth) :
    (fdtParentCells blob e.off).Returns
      (some (t.inherited (ctxOf blob).s e addressCellsName,
        t.inherited (ctxOf blob).s e sizeCellsName)) := by
  have hparent := returns_fdtParentOffset h.toSmallBlob e.off
  have hloop := h.returns_cellsLoop he hdepth hparent none none
  unfold fdtParentCells
  simp only [returns_ctxInit h.toSmallBlob]
  rw [returns_bind_of hparent, returns_bind_of hloop, returns_pure]
  rfl

theorem returns_fdtCellCounts {e : Entry} (he : e ∈ t.entries (ctxOf blob).s)
    (hdepth : e.depth ≤ fdtMaxDepth) :
    (fdtCellCounts blob e.off).Returns
      (some (toInt (t.inherited (ctxOf blob).s e addressCellsName),
        toInt (t.inherited (ctxOf blob).s e sizeCellsName))) := by
  unfold fdtCellCounts
  rw [returns_bind_of (h.returns_fdtParentCells he hdepth)]
  simp

end WellFormed

/-- **Cell counts come from the nearest ancestor that declares them**, each on its own;
`fdt_cell_counts` converts them to `int`. -/
theorem fdtParentCells_exact {blob : Buffer} {t : DeviceTree} (h : WellFormed blob t) {e : Entry}
    (he : e ∈ t.entries (ctxOf blob).s) (hdepth : 1 ≤ e.depth ∧ e.depth ≤ 16) :
    (fdtParentCells blob e.off).Returns
        (some (t.inherited (ctxOf blob).s e addressCellsName,
          t.inherited (ctxOf blob).s e sizeCellsName)) ∧
      (fdtCellCounts blob e.off).Returns
        (some (toInt (t.inherited (ctxOf blob).s e addressCellsName),
          toInt (t.inherited (ctxOf blob).s e sizeCellsName))) :=
  ⟨h.returns_fdtParentCells he hdepth.2, h.returns_fdtCellCounts he hdepth.2⟩

/-- A strings block with the names that the sample trees use. -/
def cellStrings : List UInt8 :=
  addressCellsName.chars ++ [0] ++ sizeCellsName.chars ++ [0]

/-- `#address-cells = <v>`. -/
def addressCells (v : Nat) : Property where
  gap := 0
  name := addressCellsName
  nameOff := 0
  value := wordBytes v

/-- `#size-cells = <v>`. -/
def sizeCells (v : Nat) : Property where
  gap := 0
  name := sizeCellsName
  nameOff := 15
  value := wordBytes v

/-- A root that declares both counts, `a` in it that declares one of them again, and a
node inside `a`. -/
def cellsTree : DeviceTree where
  name := ⟨[], noNul_nil⟩
  props := [addressCells 1, sizeCells 1]
  kids := .cons 0 ⟨[97], noNul_a⟩ [sizeCells 2] (.cons 0 ⟨[98], noNul_b⟩ [] .nil 0 .nil) 0 .nil
  close := 0
  after := 0

theorem wellFormed_cellsTree : WellFormed (blobOf cellsTree.structBlock cellStrings) cellsTree :=
  wellFormed_blobOf cellsTree cellStrings (by decide) (by decide)

/-- The node inside `a` takes one count from the root and the other from `a`. -/
theorem cellsTree_parentCells :
    WellFormed (blobOf cellsTree.structBlock cellStrings) cellsTree ∧
      (fdtParentCells (blobOf cellsTree.structBlock cellStrings) 104).Returns (some (1, 2)) := by
  have hs : (ctxOf (blobOf cellsTree.structBlock cellStrings)).s = 40 := by decide +kernel
  obtain ⟨e, he, hoff, hdepth, haddress, hsize⟩ : ∃ e ∈ cellsTree.entries 40, e.off = 104 ∧
      (1 ≤ e.depth ∧ e.depth ≤ 16) ∧ cellsTree.inherited 40 e addressCellsName = 1 ∧
      cellsTree.inherited 40 e sizeCellsName = 2 := by decide +kernel
  rw [← hs] at he
  have hcells := (fdtParentCells_exact wellFormed_cellsTree he hdepth).1
  rw [hs, hoff, haddress, hsize] at hcells
  exact ⟨wellFormed_cellsTree, hcells⟩

/-- A root with `#address-cells = <0x80000000>`, and a node in it. -/
def wideTree : DeviceTree where
  name := ⟨[], noNul_nil⟩
  props := [addressCells 0x80000000]
  kids := .cons 0 ⟨[97], noNul_a⟩ [] .nil 0 .nil
  close := 0
  after := 0

theorem wellFormed_wideTree : WellFormed (blobOf wideTree.structBlock cellStrings) wideTree :=
  wellFormed_blobOf wideTree cellStrings (by decide) (by decide)

/-- The declared count comes out of `fdt_cell_counts` as a negative number. -/
theorem wideTree_cellCounts_negative :
    WellFormed (blobOf wideTree.structBlock cellStrings) wideTree ∧
      ∃ e ∈ wideTree.entries 40, e.off = 64 ∧ e.depth = 1 ∧
        wideTree.inherited 40 e addressCellsName = 0x80000000 ∧
        (fdtCellCounts (blobOf wideTree.structBlock cellStrings) 64).Returns
          (some (-0x80000000, 2)) := by
  have hs : (ctxOf (blobOf wideTree.structBlock cellStrings)).s = 40 := by decide +kernel
  obtain ⟨e, he, hoff, hdepth, haddress, hsize⟩ : ∃ e ∈ wideTree.entries 40, e.off = 64 ∧
      e.depth = 1 ∧ wideTree.inherited 40 e addressCellsName = 0x80000000 ∧
      wideTree.inherited 40 e sizeCellsName = 2 := by decide +kernel
  refine ⟨wellFormed_wideTree, e, he, hoff, hdepth, haddress, ?_⟩
  rw [← hs] at he
  have hcells := wellFormed_wideTree.returns_fdtCellCounts he (by rw [hdepth]; decide)
  rw [hs, hoff, haddress, hsize] at hcells
  exact hcells

end Fdt
end Saski
