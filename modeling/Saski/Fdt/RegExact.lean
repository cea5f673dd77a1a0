import Saski.Fdt.Translate

/-!
# `reg` translation on trees with ordinary cell counts

With one or two cells for each field, no size wraps and every field lies inside its
value.  Then the entries and windows that the code decodes are those of the tree, and
`fdt_reg_to_cpu_addr` composes the windows of the enclosing buses
(`fdtRegToCpuAddr_exact`).
-/

namespace Saski
namespace Fdt

open Capnp Logged Prog

/-! ## Entries and windows of the tree -/

/-- The `index`-th whole entry of a `reg` value. -/
def regEntryOf (ac sc : Nat) (l : List UInt8) (index : Nat) : Option Range :=
  if (index + 1) * ((ac + sc) * 4) ≤ l.length then
    some
      { base := cellsAt l (index * ((ac + sc) * 4)) ac
        size := cellsAt l (index * ((ac + sc) * 4) + ac * 4) sc }
  else none

/-- The `i`-th entry of a `ranges` value. -/
def windowOf (k : RangeCells) (l : List UInt8) (i : Nat) : Window where
  cbase := cellsAt l (i * ((k.ownAc + k.ra + k.rs) * 4)) k.ownAc
  pbase := cellsAt l (i * ((k.ownAc + k.ra + k.rs) * 4) + k.ownAc * 4) k.ra
  rsize := cellsAt l (i * ((k.ownAc + k.ra + k.rs) * 4) + (k.ownAc + k.ra) * 4) k.rs

/-- The whole entries of a `ranges` value. -/
def windowsOf (k : RangeCells) (l : List UInt8) : List Window :=
  (List.range' 0 (l.length / ((k.ownAc + k.ra + k.rs) * 4))).map (windowOf k l)

/-- Where the first window that holds the address takes it. -/
def translate (ws : List Window) (a : Nat) : Option Nat :=
  (ws.find? fun w => w.cbase ≤ a ∧ a < w.cbase + w.rsize).map fun w =>
    (w.pbase + (a - w.cbase)) % 2 ^ 64

/-- The cells that size the `ranges` of a bus: its own counts, and the address cells that
it has in its parent. -/
def DeviceTree.busCells (t : DeviceTree) (p : Int) (b : Entry) : RangeCells where
  ownAc := (b.cells addressCellsName).getD 2
  ra := t.inherited p b addressCellsName
  rs := (b.cells sizeCellsName).getD 2

/-- Through one bus: an absent or empty `ranges` leaves the address as it is. -/
def DeviceTree.throughBus (t : DeviceTree) (p : Int) (a : Nat) (b : Entry) : Option Nat :=
  match b.value rangesName with
  | none => some a
  | some [] => some a
  | some l => translate (windowsOf (t.busCells p b) l) a

/-- What is asked of a bus with a non-empty `ranges`. -/
structure DeviceTree.PlainBus (t : DeviceTree) (p : Int) (b : Entry) (l : List UInt8) : Prop where
  ownAc : b.cells addressCellsName = some 1 ∨ b.cells addressCellsName = some 2
  ownSc : b.cells sizeCellsName = some 1 ∨ b.cells sizeCellsName = some 2
  parentAc : t.inherited p b addressCellsName = 1 ∨ t.inherited p b addressCellsName = 2
  windows : ∀ w ∈ windowsOf (t.busCells p b) l, w.cbase + w.rsize < 2 ^ 64

/-! ## Reading them -/

section Read

variable {c : Ctx} {v : Int} {l : List UInt8} (hat : BytesAt c v l)

include hat

theorem be64_of_bytesAt (off : Nat) (hfits : off + 8 ≤ l.length) :
    be64 c.base (v + off) = cellsAt l off 2 := by
  have hlow := be32_lt c.base (v + off + 4)
  rw [be64, Nat.shiftLeft_eq, Nat.mul_comm, ← Nat.two_pow_add_eq_or_of_lt hlow, cellsAt,
    hat.take_eq hfits, be32_eq, be32_eq]
  simp only [bigEndian, List.range_succ, List.range_zero, List.nil_append, List.cons_append,
    List.map_cons, List.map_nil, List.foldl_cons, List.foldl_nil, Nat.cast_zero, Nat.cast_one,
    Nat.cast_ofNat, Int.add_zero, Int.add_assoc, Int.reduceAdd]
  omega

/-- One or two cells inside a value. -/
theorem cellValue_of_bytesAt {cells : Nat} (hcells : cells = 1 ∨ cells = 2) (off : Nat)
    (hfits : off + cells * 4 ≤ l.length) :
    cellValue c.base (v + off) cells = cellsAt l off cells := by
  unfold cellValue
  rcases hcells with rfl | rfl
  · rw [if_pos rfl]
    exact be32_of_bytesAt hat off (by omega)
  · rw [if_neg (by decide)]
    exact be64_of_bytesAt hat off (by omega)

theorem entryAt_of_bytesAt {ac sc : Nat} (hac : ac = 1 ∨ ac = 2) (hsc : sc = 0 ∨ sc = 1 ∨ sc = 2)
    {index : Nat} (hfits : (index + 1) * ((ac + sc) * 4) ≤ l.length) :
    entryAt c.base v ac sc index =
      { base := cellsAt l (index * ((ac + sc) * 4)) ac
        size := cellsAt l (index * ((ac + sc) * 4) + ac * 4) sc } := by
  have hsize : regSize ac sc = (ac + sc) * 4 := Nat.mod_eq_of_lt (by omega)
  have hmod : ac * 4 % 2 ^ 32 = ac * 4 := Nat.mod_eq_of_lt (by omega)
  rw [Nat.add_mul, Nat.one_mul] at hfits
  have hbase := cellValue_of_bytesAt hat hac (index * ((ac + sc) * 4)) (by omega)
  unfold entryAt
  rw [hsize, hmod]
  push_cast at hbase ⊢
  rw [hbase]
  by_cases hzero : sc = 0
  · simp [hzero, cellsAt, bigEndian]
  · have hlength := cellValue_of_bytesAt hat (hsc.resolve_left hzero)
      (index * ((ac + sc) * 4) + ac * 4) (by omega)
    rw [if_neg hzero, ← hlength]
    push_cast
    rw [Int.add_assoc]

/-- The three counts are one or two. -/
def RangeCells.Plain (k : RangeCells) : Prop :=
  (k.ownAc = 1 ∨ k.ownAc = 2) ∧ (k.ra = 1 ∨ k.ra = 2) ∧ (k.rs = 1 ∨ k.rs = 2)

theorem windowAt_of_bytesAt {k : RangeCells} (hplain : k.Plain) {i : Nat}
    (hi : i < l.length / ((k.ownAc + k.ra + k.rs) * 4)) :
    windowAt c.base v k i = windowOf k l i := by
  obtain ⟨hown, hra, hrs⟩ := hplain
  have hsize : k.rentry = (k.ownAc + k.ra + k.rs) * 4 := Nat.mod_eq_of_lt (by omega)
  have hmod : k.ownAc * 4 % 2 ^ 32 = k.ownAc * 4 := Nat.mod_eq_of_lt (by omega)
  have hmod' : (k.ownAc + k.ra) * 4 % 2 ^ 32 = (k.ownAc + k.ra) * 4 := Nat.mod_eq_of_lt (by omega)
  have hfits : (i + 1) * ((k.ownAc + k.ra + k.rs) * 4) ≤ l.length :=
    (Nat.mul_le_mul_right _ hi).trans (Nat.div_mul_le_self _ _)
  rw [Nat.add_mul, Nat.one_mul] at hfits
  have hcbase := cellValue_of_bytesAt hat hown (i * ((k.ownAc + k.ra + k.rs) * 4)) (by omega)
  have hpbase := cellValue_of_bytesAt hat hra
    (i * ((k.ownAc + k.ra + k.rs) * 4) + k.ownAc * 4) (by omega)
  have hrsize := cellValue_of_bytesAt hat hrs
    (i * ((k.ownAc + k.ra + k.rs) * 4) + (k.ownAc + k.ra) * 4) (by omega)
  unfold windowAt windowOf
  rw [hsize, hmod, hmod', ← hcbase, ← hpbase, ← hrsize]
  push_cast
  simp only [Int.add_assoc]

theorem windowsAt_of_bytesAt {k : RangeCells} (hplain : k.Plain) :
    windowsAt c.base v l.length k = windowsOf k l := by
  obtain ⟨hown, hra, hrs⟩ := hplain
  have hsize : k.rentry = (k.ownAc + k.ra + k.rs) * 4 := Nat.mod_eq_of_lt (by omega)
  unfold windowsAt windowsOf
  rw [hsize]
  apply List.map_congr_left
  intro i hi
  rw [List.mem_range'_1] at hi
  exact windowAt_of_bytesAt hat ⟨hown, hra, hrs⟩ (by omega)

end Read

/-- Where no window wraps, the code's test is membership. -/
theorem throughWindows_eq_translate {ws : List Window}
    (hws : ∀ w ∈ ws, w.cbase + w.rsize < 2 ^ 64) (a : Nat) :
    throughWindows ws a = translate ws a := by
  unfold throughWindows translate
  have hfind : ws.find? (fun w => w.Contains a) =
      ws.find? fun w => w.cbase ≤ a ∧ a < w.cbase + w.rsize := by
    apply List.find?_congr
    intro w hw
    simp only [Window.Contains, Nat.mod_eq_of_lt (hws w hw)]
  rw [hfind]
  rfl

/-! ## Whole translations -/

theorem DeviceTree.mem_entries_of_mem_ancestors {t : DeviceTree} {p : Int} {e a : Entry}
    (ha : a ∈ t.ancestors p e) : a ∈ t.entries p := by
  obtain ⟨n, -, hn⟩ := List.mem_filterMap.mp ha
  exact List.mem_of_find?_eq_some hn

theorem DeviceTree.PlainBus.rangeCells {t : DeviceTree} {p : Int} {b : Entry} {l : List UInt8}
    (h : t.PlainBus p b l) : t.rangeCells p b = t.busCells p b ∧ (t.busCells p b).Plain := by
  obtain ⟨hown, hsize, hparent, -⟩ := h
  unfold DeviceTree.rangeCells DeviceTree.busCells orTwo RangeCells.Plain
  rcases hown with hown | hown <;> rcases hsize with hsize | hsize <;>
    rcases hparent with hparent | hparent <;> simp [hown, hsize, hparent]

namespace WellFormed

variable {blob : Buffer} {t : DeviceTree} (h : WellFormed blob t)

include h

/-- One bus, in the tree and in the code. -/
theorem through_windows {b : Entry} (hb : b ∈ t.entries (ctxOf blob).s)
    (hplain : ∀ l, b.value rangesName = some l → l ≠ [] → t.PlainBus (ctxOf blob).s b l) (a : Nat) :
    t.throughBus (ctxOf blob).s a b =
      match t.windows blob (ctxOf blob).s b with
      | none => some a
      | some ws => throughWindows ws a := by
  have hvalue := b.value_eq_located rangesName
  unfold DeviceTree.throughBus DeviceTree.windows
  cases hfind : b.located rangesName with
  | none =>
      rw [hfind] at hvalue
      rw [hvalue]
      rfl
  | some x =>
      obtain ⟨v, l⟩ := x
      rw [hfind] at hvalue
      have hat := h.bytesAt_located hb rangesName hfind
      cases l with
      | nil =>
          rw [hvalue]
          rfl
      | cons y ys =>
          have hbus := hplain (y :: ys) hvalue (by simp)
          obtain ⟨hcells, hk⟩ := hbus.rangeCells
          have hsame : translate (windowsOf (t.busCells (ctxOf blob).s b) (y :: ys)) a =
              throughWindows (windowsAt blob.bytes v (y :: ys).length
                (t.busCells (ctxOf blob).s b)) a := by
            rw [← throughWindows_eq_translate hbus.windows, ← windowsAt_of_bytesAt hat hk]
            rfl
          rw [hvalue, hcells]
          exact hsame

theorem throughBuses_eq {bs : List Entry} (hbs : ∀ b ∈ bs, b ∈ t.entries (ctxOf blob).s)
    (hplain : ∀ b ∈ bs, ∀ l, b.value rangesName = some l → l ≠ [] →
      t.PlainBus (ctxOf blob).s b l) (a : Nat) :
    throughBuses (bs.filterMap (t.windows blob (ctxOf blob).s)) a =
      bs.foldlM (t.throughBus (ctxOf blob).s) a := by
  induction bs generalizing a with
  | nil => rfl
  | cons b bs ih =>
      simp only [List.mem_cons, forall_eq_or_imp] at hbs hplain
      have hone := h.through_windows hbs.1 hplain.1 a
      rw [List.foldlM_cons]
      cases hwindows : t.windows blob (ctxOf blob).s b with
      | none =>
          rw [hwindows] at hone
          rw [hone, List.filterMap_cons_none hwindows, ih hbs.2 hplain.2]
          rfl
      | some ws =>
          simp only [hwindows] at hone
          rw [hone, List.filterMap_cons_some hwindows, throughBuses_cons]
          cases throughWindows ws a with
          | none => rfl
          | some a' => exact ih hbs.2 hplain.2 a'

/-- An entry of `reg`, in the tree and in the code. -/
theorem regEntry_eq {e : Entry} (he : e ∈ t.entries (ctxOf blob).s) (hdepth : e.depth ≤ 16)
    (hac : t.inherited (ctxOf blob).s e addressCellsName = 1 ∨
      t.inherited (ctxOf blob).s e addressCellsName = 2)
    (hsc : t.inherited (ctxOf blob).s e sizeCellsName = 0 ∨
      t.inherited (ctxOf blob).s e sizeCellsName = 1 ∨
      t.inherited (ctxOf blob).s e sizeCellsName = 2) {index : Nat} (hindex : index < 2 ^ 32 - 1) :
    t.regEntry blob (ctxOf blob).s e index =
      (e.value regName).bind fun l =>
        regEntryOf (t.inherited (ctxOf blob).s e addressCellsName)
          (t.inherited (ctxOf blob).s e sizeCellsName) l index := by
  have hregAc : t.regCells (ctxOf blob).s e addressCellsName =
      t.inherited (ctxOf blob).s e addressCellsName := if_pos hdepth
  have hregSc : t.regCells (ctxOf blob).s e sizeCellsName =
      t.inherited (ctxOf blob).s e sizeCellsName := if_pos hdepth
  unfold DeviceTree.regEntry
  rw [hregAc, hregSc, e.value_eq_located regName]
  generalize t.inherited (ctxOf blob).s e addressCellsName = ac at hac
  generalize t.inherited (ctxOf blob).s e sizeCellsName = sc at hsc
  have hsize : regSize ac sc = (ac + sc) * 4 := Nat.mod_eq_of_lt (by omega)
  cases hfind : e.located regName with
  | none => rfl
  | some x =>
      obtain ⟨v, l⟩ := x
      have hexists : EntryExists l.length ac sc index ↔
          (index + 1) * ((ac + sc) * 4) ≤ l.length := by
        unfold EntryExists
        rw [hsize, Nat.mod_eq_of_lt (show index + 1 < 2 ^ 32 by omega)]
        constructor
        · exact fun hall => hall.2.2
        · exact fun hfits => ⟨by omega, by omega, hfits⟩
      simp only [Option.map_some, Option.bind_some, regEntryOf, hexists]
      by_cases hfits : (index + 1) * ((ac + sc) * 4) ≤ l.length
      · rw [if_pos hfits, if_pos hfits]
        exact congrArg some
          (entryAt_of_bytesAt (h.bytesAt_located he regName hfind) hac hsc hfits)
      · rw [if_neg hfits, if_neg hfits]

end WellFormed

theorem DeviceTree.ancestors_ne_nil {t : DeviceTree} {p : Int} {e : Entry} (he : e ∈ t.entries p)
    (hdepth : 1 ≤ e.depth) : t.ancestors p e ≠ [] := by
  rcases DeviceTree.eq_root_or_mem_children he with rfl | ⟨parent, hparent, hchild⟩
  · exact absurd hdepth (by simp [Entry.depth, DeviceTree.rootEntry])
  · simp [DeviceTree.ancestors_child hparent hchild]

/-- **`reg` translation composes the windows of the enclosing buses**, from the node's
parent up to the child of the root. -/
theorem fdtRegToCpuAddr_exact {blob : Buffer} {t : DeviceTree} (h : WellFormed blob t) {e : Entry}
    (he : e ∈ t.entries (ctxOf blob).s) (hdepth : 1 ≤ e.depth ∧ e.depth ≤ 16)
    (hranges : e.value rangesName = none)
    (hac : t.inherited (ctxOf blob).s e addressCellsName = 1 ∨
      t.inherited (ctxOf blob).s e addressCellsName = 2)
    (hsc : t.inherited (ctxOf blob).s e sizeCellsName = 0 ∨
      t.inherited (ctxOf blob).s e sizeCellsName = 1 ∨
      t.inherited (ctxOf blob).s e sizeCellsName = 2)
    (hbuses : ∀ b ∈ (t.ancestors (ctxOf blob).s e).dropLast, ∀ l, b.value rangesName = some l →
      l ≠ [] → t.PlainBus (ctxOf blob).s b l) {index : Nat} (hindex : index < 2 ^ 32 - 1) :
    (fdtRegToCpuAddr blob e.off index).Returns
      (((e.value regName).bind fun l =>
        regEntryOf (t.inherited (ctxOf blob).s e addressCellsName)
          (t.inherited (ctxOf blob).s e sizeCellsName) l index).bind fun r =>
        ((t.ancestors (ctxOf blob).s e).dropLast.foldlM (t.throughBus (ctxOf blob).s) r.base).map
          fun a => ⟨a, r.size⟩) := by
  have hreturns := h.returns_fdtRegToCpuAddr he index
  rw [h.regEntry_eq he hdepth.2 hac hsc hindex] at hreturns
  -- The node itself has no windows, and its ancestors end with the root.
  have hown : t.windows blob (ctxOf blob).s e = none := by
    rw [e.value_eq_located, Option.map_eq_none_iff] at hranges
    simp [DeviceTree.windows, hranges]
  have hmem : ∀ b ∈ (t.ancestors (ctxOf blob).s e).dropLast, b ∈ t.entries (ctxOf blob).s :=
    fun b hb => DeviceTree.mem_entries_of_mem_ancestors (List.mem_of_mem_dropLast hb)
  have hbusList : t.buses (ctxOf blob).s e = e :: (t.ancestors (ctxOf blob).s e).dropLast := by
    rw [DeviceTree.buses, if_pos (show e.depth ≤ fdtMaxDepth from hdepth.2),
      List.dropLast_cons_of_ne_nil (DeviceTree.ancestors_ne_nil he hdepth.1)]
  rw [hbusList, List.filterMap_cons_none hown] at hreturns
  simpa only [h.throughBuses_eq hmem hbuses] using hreturns

/-- A strings block with all names that the sample trees use. -/
def regStrings : List UInt8 :=
  cellStrings ++ regName.chars ++ [0] ++ rangesName.chars ++ [0]

/-- `reg`, with the given cells. -/
def regProperty (cells : List Nat) : Property where
  gap := 0
  name := regName
  nameOff := 27
  value := cells.flatMap wordBytes

/-- `ranges`, with the given cells. -/
def rangesProperty (cells : List Nat) : Property where
  gap := 0
  name := rangesName
  nameOff := 31
  value := cells.flatMap wordBytes

/-- A bus `a` that the root maps at 0x80001000, with a device `b` on it. -/
def busTree : DeviceTree where
  name := ⟨[], noNul_nil⟩
  props := []
  kids := .cons 0 ⟨[97], noNul_a⟩
    [addressCells 1, sizeCells 1, rangesProperty [0x1000, 0, 0x80001000, 0x1000]]
    (.cons 0 ⟨[98], noNul_b⟩ [regProperty [0x1100, 0x10]] .nil 0 .nil) 0 .nil
  close := 0
  after := 0

theorem wellFormed_busTree : WellFormed (blobOf busTree.structBlock regStrings) busTree :=
  wellFormed_blobOf busTree regStrings (by decide) (by decide)

/-- The device is found at 0x80001100. -/
theorem busTree_regToCpuAddr :
    WellFormed (blobOf busTree.structBlock regStrings) busTree ∧
      (fdtRegToCpuAddr (blobOf busTree.structBlock regStrings) 116 0).Returns
        (some ⟨0x80001100, 0x10⟩) := by
  have hs : (ctxOf (blobOf busTree.structBlock regStrings)).s = 40 := by decide +kernel
  obtain ⟨e, he, hoff, hdepth, hranges, hac, hsc, hbuses, hresult⟩ : ∃ e ∈ busTree.entries 40,
      e.off = 116 ∧ (1 ≤ e.depth ∧ e.depth ≤ 16) ∧ e.value rangesName = none ∧
      (busTree.inherited 40 e addressCellsName = 1 ∨
        busTree.inherited 40 e addressCellsName = 2) ∧
      (busTree.inherited 40 e sizeCellsName = 0 ∨ busTree.inherited 40 e sizeCellsName = 1 ∨
        busTree.inherited 40 e sizeCellsName = 2) ∧
      (∀ b ∈ (busTree.ancestors 40 e).dropLast,
        (b.cells addressCellsName = some 1 ∧ b.cells sizeCellsName = some 1 ∧
          busTree.inherited 40 b addressCellsName = 2) ∧
          ∀ l ∈ b.value rangesName, ∀ w ∈ windowsOf (busTree.busCells 40 b) l,
            w.cbase + w.rsize < 2 ^ 64) ∧
      (((e.value regName).bind fun l => regEntryOf (busTree.inherited 40 e addressCellsName)
        (busTree.inherited 40 e sizeCellsName) l 0).bind fun r =>
          ((busTree.ancestors 40 e).dropLast.foldlM (busTree.throughBus 40) r.base).map
            fun a => (⟨a, r.size⟩ : Range)) = some ⟨0x80001100, 0x10⟩ := by
    decide +kernel
  have hplain : ∀ b ∈ (busTree.ancestors 40 e).dropLast, ∀ l, b.value rangesName = some l →
      l ≠ [] → busTree.PlainBus 40 b l := by
    intro b hb l hl _
    obtain ⟨⟨hown, hsize, hparent⟩, hwindows⟩ := hbuses b hb
    exact ⟨Or.inl hown, Or.inl hsize, Or.inr hparent, hwindows l hl⟩
  rw [← hs] at he hac hsc hplain
  have hreg := fdtRegToCpuAddr_exact wellFormed_busTree he hdepth hranges hac hsc hplain
    (show 0 < 2 ^ 32 - 1 by decide)
  rw [hs, hoff, hresult] at hreg
  exact ⟨wellFormed_busTree, hreg⟩

end Fdt
end Saski
