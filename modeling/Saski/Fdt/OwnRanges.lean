import Saski.Fdt.RegExact

/-!
# The node's own `ranges`

The loop of `fdt_reg_to_cpu_addr` starts at the node itself and not at its parent, so a
node's own windows, which are for the addresses of its children, are applied to its own
`reg` as well.

* Two trees that differ only in the `ranges` of a node have the declared base and size and the
  windows of the enclosing buses in common (`SameButRanges.regEntry_eq`,
  `SameButRanges.enclosing_eq`).
* So the results for the node are the same exactly if its own windows take the declared base
  to the same address in both, or the enclosing buses make up for the difference
  (`ownRanges_irrelevant_iff`).
-/

namespace Saski
namespace Fdt

open Capnp Logged Prog

/-- The nodes around two nodes have the same properties. -/
def SameAround (t₁ t₂ : DeviceTree) (p₁ p₂ : Int) (e₁ e₂ : Entry) : Prop :=
  List.Forall₂ (fun a b => ∀ name : CString, a.value name = b.value name)
    (t₁.ancestors p₁ e₁) (t₂.ancestors p₂ e₂)

/-- Two nodes at the same place of two trees: the nodes around them have the same
properties, and so have they themselves, except for `ranges`. -/
structure SameButRanges (t₁ t₂ : DeviceTree) (p₁ p₂ : Int) (e₁ e₂ : Entry) : Prop where
  depth : e₁.depth = e₂.depth
  own : ∀ name : CString, name.chars ≠ rangesName.chars → e₁.value name = e₂.value name
  around : SameAround t₁ t₂ p₁ p₂ e₁ e₂

/-- Through the node's own windows, which the first turn of the loop looks at. -/
def DeviceTree.throughOwn (t : DeviceTree) (blob : Buffer) (p : Int) (e : Entry) (a : Nat) :
    Option Nat :=
  if 1 ≤ e.depth ∧ e.depth ≤ fdtMaxDepth then
    match t.windows blob p e with
    | none => some a
    | some ws => throughWindows ws a
  else some a

/-- The windows of the enclosing buses, the nearest first. -/
def DeviceTree.enclosing (t : DeviceTree) (blob : Buffer) (p : Int) (e : Entry) :
    List (List Window) :=
  if e.depth ≤ fdtMaxDepth then (t.ancestors p e).dropLast.filterMap (t.windows blob p) else []

/-- Where an address of the node's `reg` ends up. -/
def DeviceTree.cpuAddress (t : DeviceTree) (blob : Buffer) (p : Int) (e : Entry) (a : Nat) :
    Option Nat :=
  (t.throughOwn blob p e a).bind (throughBuses (t.enclosing blob p e))

theorem DeviceTree.depth_eq_zero {t : DeviceTree} {p : Int} {e : Entry} (he : e ∈ t.entries p)
    (hdepth : ¬ 1 ≤ e.depth) : e = t.rootEntry p := by
  rcases DeviceTree.eq_root_or_mem_children he with hroot | ⟨parent, -, hchild⟩
  · exact hroot
  · have := depth_of_mem_children hchild
    omega

theorem DeviceTree.throughBuses_buses {t : DeviceTree} {blob : Buffer} {p : Int} {e : Entry}
    (he : e ∈ t.entries p) (a : Nat) :
    throughBuses ((t.buses p e).filterMap (t.windows blob p)) a = t.cpuAddress blob p e a := by
  unfold DeviceTree.buses DeviceTree.cpuAddress DeviceTree.throughOwn DeviceTree.enclosing
  by_cases hdeep : e.depth ≤ fdtMaxDepth
  case neg => simp [hdeep]
  by_cases hroot : 1 ≤ e.depth
  · rw [if_pos hdeep, if_pos ⟨hroot, hdeep⟩, if_pos hdeep,
      List.dropLast_cons_of_ne_nil (DeviceTree.ancestors_ne_nil he hroot)]
    cases hwindows : t.windows blob p e with
    | none => rw [List.filterMap_cons_none hwindows, Option.bind_some]
    | some ws => rw [List.filterMap_cons_some hwindows, throughBuses_cons]
  · obtain rfl := DeviceTree.depth_eq_zero he hroot
    rw [if_pos hdeep, if_neg fun hboth => hroot hboth.1, if_pos hdeep]
    rfl

theorem WellFormed.returns_cpuAddress {blob : Buffer} {t : DeviceTree} (h : WellFormed blob t)
    {e : Entry} (he : e ∈ t.entries (ctxOf blob).s) (index : Nat) :
    (fdtRegToCpuAddr blob e.off index).Returns
      ((t.regEntry blob (ctxOf blob).s e index).bind fun r =>
        (t.cpuAddress blob (ctxOf blob).s e r.base).map fun base => ⟨base, r.size⟩) := by
  simpa only [DeviceTree.throughBuses_buses he] using h.returns_fdtRegToCpuAddr he index

/-! ## What two trees have in common -/

/-- No size of an entry wraps in 32 bits: not in the node's `reg`, and not in the `ranges` of
the enclosing buses. -/
structure DeviceTree.NoWrap (t : DeviceTree) (p : Int) (e : Entry) : Prop where
  reg : t.regCells p e addressCellsName + t.regCells p e sizeCellsName < 2 ^ 30
  buses : ∀ b ∈ (t.ancestors p e).dropLast,
    (t.rangeCells p b).ownAc + (t.rangeCells p b).ra + (t.rangeCells p b).rs < 2 ^ 30

theorem orTwo_ne_zero (cells : Nat) : orTwo cells ≠ 0 := by
  unfold orTwo
  split_ifs with hzero
  · decide
  · exact hzero

section SameValue

variable {c₁ c₂ : Ctx} {v₁ v₂ : Int} {l : List UInt8} (hat₁ : BytesAt c₁ v₁ l)
  (hat₂ : BytesAt c₂ v₂ l)

include hat₁ hat₂

/-- Cells inside a value are the same wherever the value is. -/
theorem cellValue_congr (cells off : Nat) (hfits : off + cellWidth cells ≤ l.length) :
    cellValue c₁.base (v₁ + off) cells = cellValue c₂.base (v₂ + off) cells := by
  unfold cellWidth at hfits
  unfold cellValue
  by_cases hone : cells = 1
  · rw [if_pos hone] at hfits ⊢
    rw [if_pos hone, be32_of_bytesAt hat₁ off hfits, be32_of_bytesAt hat₂ off hfits]
  · rw [if_neg hone] at hfits ⊢
    rw [if_neg hone, be64_of_bytesAt hat₁ off hfits, be64_of_bytesAt hat₂ off hfits]

theorem entryAt_congr {ac sc index : Nat} (hcells : ac + sc < 2 ^ 30) (hindex : index < 2 ^ 32 - 1)
    (hexists : EntryExists l.length ac sc index) :
    entryAt c₁.base v₁ ac sc index = entryAt c₂.base v₂ ac sc index := by
  obtain ⟨hac, -, hfits⟩ := hexists
  have hsize : regSize ac sc = (ac + sc) * 4 := Nat.mod_eq_of_lt (by omega)
  have hmod : ac * 4 % 2 ^ 32 = ac * 4 := Nat.mod_eq_of_lt (by omega)
  rw [Nat.mod_eq_of_lt (show index + 1 < 2 ^ 32 by omega), hsize, Nat.add_mul, Nat.one_mul] at hfits
  have hacWidth := cellWidth_le hac
  have hbase := cellValue_congr hat₁ hat₂ ac (index * ((ac + sc) * 4)) (by omega)
  unfold entryAt
  rw [hsize, hmod]
  push_cast at hbase ⊢
  rw [hbase]
  by_cases hzero : sc = 0
  · simp [hzero]
  · have hscWidth := cellWidth_le hzero
    have hlength := cellValue_congr hat₁ hat₂ sc (index * ((ac + sc) * 4) + ac * 4)
      (by omega)
    push_cast at hlength
    rw [if_neg hzero, if_neg hzero, Int.add_assoc, Int.add_assoc, hlength]

theorem windowsAt_congr {k : RangeCells} (hown : k.ownAc ≠ 0) (hra : k.ra ≠ 0) (hrs : k.rs ≠ 0)
    (hcells : k.ownAc + k.ra + k.rs < 2 ^ 30) :
    windowsAt c₁.base v₁ l.length k = windowsAt c₂.base v₂ l.length k := by
  have hsize : k.rentry = (k.ownAc + k.ra + k.rs) * 4 := Nat.mod_eq_of_lt (by omega)
  have hmod : k.ownAc * 4 % 2 ^ 32 = k.ownAc * 4 := Nat.mod_eq_of_lt (by omega)
  have hmod' : (k.ownAc + k.ra) * 4 % 2 ^ 32 = (k.ownAc + k.ra) * 4 := Nat.mod_eq_of_lt (by omega)
  have hownWidth := cellWidth_le hown
  have hraWidth := cellWidth_le hra
  have hrsWidth := cellWidth_le hrs
  unfold windowsAt
  apply List.map_congr_left
  intro i hi
  rw [List.mem_range'_1, hsize] at hi
  have hfits : (i + 1) * ((k.ownAc + k.ra + k.rs) * 4) ≤ l.length :=
    (Nat.mul_le_mul_right _ (show i + 1 ≤ _ by omega)).trans (Nat.div_mul_le_self _ _)
  rw [Nat.add_mul, Nat.one_mul] at hfits
  have hcbase := cellValue_congr hat₁ hat₂ k.ownAc
    (i * ((k.ownAc + k.ra + k.rs) * 4)) (by omega)
  have hpbase := cellValue_congr hat₁ hat₂ k.ra
    (i * ((k.ownAc + k.ra + k.rs) * 4) + k.ownAc * 4) (by omega)
  have hrsize := cellValue_congr hat₁ hat₂ k.rs
    (i * ((k.ownAc + k.ra + k.rs) * 4) + (k.ownAc + k.ra) * 4) (by omega)
  unfold windowAt
  rw [hsize, hmod, hmod']
  push_cast at hcbase hpbase hrsize ⊢
  simp only [Int.add_assoc] at hcbase hpbase hrsize ⊢
  rw [hcbase, hpbase, hrsize]

end SameValue

theorem SameAround.inherited {t₁ t₂ : DeviceTree} {p₁ p₂ : Int} {e₁ e₂ : Entry}
    (h : SameAround t₁ t₂ p₁ p₂ e₁ e₂) (name : CString) :
    t₁.inherited p₁ e₁ name = t₂.inherited p₂ e₂ name := by
  unfold SameAround at h
  unfold DeviceTree.inherited
  generalize t₁.ancestors p₁ e₁ = as at h
  generalize t₂.ancestors p₂ e₂ = bs at h
  induction h with
  | nil => rfl
  | @cons a b as bs hab _ ih =>
      have hcells : a.cells name = b.cells name := by rw [Entry.cells, Entry.cells, hab]
      rw [List.findSome?_cons, List.findSome?_cons, hcells]
      cases b.cells name with
      | none => exact ih
      | some v => rfl

section Common

variable {blob₁ blob₂ : Buffer} {t₁ t₂ : DeviceTree} (h₁ : WellFormed blob₁ t₁)
  (h₂ : WellFormed blob₂ t₂)

include h₁ h₂

/-- Buses with the same properties have the same windows. -/
theorem windows_congr {b₁ b₂ : Entry} (hb₁ : b₁ ∈ t₁.entries (ctxOf blob₁).s)
    (hb₂ : b₂ ∈ t₂.entries (ctxOf blob₂).s)
    (hvalue : ∀ name : CString, b₁.value name = b₂.value name)
    (haround : SameAround t₁ t₂ (ctxOf blob₁).s (ctxOf blob₂).s b₁ b₂)
    (hcells : (t₁.rangeCells (ctxOf blob₁).s b₁).ownAc + (t₁.rangeCells (ctxOf blob₁).s b₁).ra +
      (t₁.rangeCells (ctxOf blob₁).s b₁).rs < 2 ^ 30) :
    t₁.windows blob₁ (ctxOf blob₁).s b₁ = t₂.windows blob₂ (ctxOf blob₂).s b₂ := by
  have hrange : t₁.rangeCells (ctxOf blob₁).s b₁ = t₂.rangeCells (ctxOf blob₂).s b₂ := by
    unfold DeviceTree.rangeCells Entry.cells
    rw [haround.inherited, hvalue, hvalue]
  have hranges := hvalue rangesName
  rw [Entry.value_eq_located, Entry.value_eq_located] at hranges
  unfold DeviceTree.windows
  cases hfind₁ : b₁.located rangesName with
  | none =>
      cases hfind₂ : b₂.located rangesName with
      | none => rfl
      | some y => simp [hfind₁, hfind₂] at hranges
  | some x =>
      cases hfind₂ : b₂.located rangesName with
      | none => simp [hfind₁, hfind₂] at hranges
      | some y =>
          obtain ⟨v₁, l⟩ := x
          obtain ⟨v₂, l'⟩ := y
          obtain rfl : l = l' := by simpa [hfind₁, hfind₂] using hranges
          have hsame := windowsAt_congr (h₁.bytesAt_located hb₁ rangesName hfind₁)
            (h₂.bytesAt_located hb₂ rangesName hfind₂) (orTwo_ne_zero _) (orTwo_ne_zero _)
            (orTwo_ne_zero _) hcells
          simp only
          rw [← hrange]
          exact if_congr Iff.rfl rfl (congrArg some hsame)

/-- **The windows of the enclosing buses are common** to two trees that differ inside a node
only. -/
theorem windows_ancestors_congr {e₁ : Entry} (he₁ : e₁ ∈ t₁.entries (ctxOf blob₁).s) :
    ∀ {e₂ : Entry}, e₂ ∈ t₂.entries (ctxOf blob₂).s →
      SameAround t₁ t₂ (ctxOf blob₁).s (ctxOf blob₂).s e₁ e₂ →
      (∀ b ∈ (t₁.ancestors (ctxOf blob₁).s e₁).dropLast,
        (t₁.rangeCells (ctxOf blob₁).s b).ownAc + (t₁.rangeCells (ctxOf blob₁).s b).ra +
          (t₁.rangeCells (ctxOf blob₁).s b).rs < 2 ^ 30) →
      (t₁.ancestors (ctxOf blob₁).s e₁).dropLast.filterMap (t₁.windows blob₁ (ctxOf blob₁).s) =
        (t₂.ancestors (ctxOf blob₂).s e₂).dropLast.filterMap
          (t₂.windows blob₂ (ctxOf blob₂).s) := by
  -- Induction on the way up from the node in the first tree; the second one has the same way.
  induction e₁, he₁ using DeviceTree.entry_induction with
  | root =>
      intro e₂ _ haround _
      rw [SameAround, DeviceTree.ancestors_root, List.forall₂_nil_left_iff] at haround
      rw [DeviceTree.ancestors_root, haround, List.dropLast_nil, List.filterMap_nil,
        List.filterMap_nil]
  | child b₁ hb₁ x₁ hx₁ ih =>
      intro e₂ he₂ haround hcells
      rcases DeviceTree.eq_root_or_mem_children he₂ with rfl | ⟨b₂, hb₂, hx₂⟩
      · rw [SameAround, DeviceTree.ancestors_child hb₁ hx₁, DeviceTree.ancestors_root] at haround
        exact absurd haround (by simp)
      rw [SameAround, DeviceTree.ancestors_child hb₁ hx₁, DeviceTree.ancestors_child hb₂ hx₂,
        List.forall₂_cons] at haround
      obtain ⟨hvalue, hrest⟩ := haround
      rw [DeviceTree.ancestors_child hb₁ hx₁] at hcells ⊢
      rw [DeviceTree.ancestors_child hb₂ hx₂]
      by_cases hroot : t₁.ancestors (ctxOf blob₁).s b₁ = []
      · -- The parent is the root, which is left out.
        rw [hroot, List.forall₂_nil_left_iff] at hrest
        rw [hroot, hrest, List.dropLast_singleton, List.dropLast_singleton, List.filterMap_nil,
          List.filterMap_nil]
      have hroot₂ : t₂.ancestors (ctxOf blob₂).s b₂ ≠ [] := by
        intro hnil
        rw [hnil, List.forall₂_nil_right_iff] at hrest
        exact hroot hrest
      rw [List.dropLast_cons_of_ne_nil hroot, List.forall_mem_cons] at hcells
      rw [List.dropLast_cons_of_ne_nil hroot, List.dropLast_cons_of_ne_nil hroot₂,
        List.filterMap_cons, List.filterMap_cons,
        windows_congr h₁ h₂ hb₁ hb₂ hvalue hrest hcells.1, ih hb₂ hrest hcells.2]

variable {e₁ e₂ : Entry} (he₁ : e₁ ∈ t₁.entries (ctxOf blob₁).s)
  (he₂ : e₂ ∈ t₂.entries (ctxOf blob₂).s)
  (hsame : SameButRanges t₁ t₂ (ctxOf blob₁).s (ctxOf blob₂).s e₁ e₂)
  (hnowrap : t₁.NoWrap (ctxOf blob₁).s e₁)

include he₁ he₂ hsame hnowrap

theorem SameButRanges.enclosing_eq :
    t₁.enclosing blob₁ (ctxOf blob₁).s e₁ = t₂.enclosing blob₂ (ctxOf blob₂).s e₂ := by
  unfold DeviceTree.enclosing
  rw [hsame.depth]
  exact if_congr Iff.rfl
    (windows_ancestors_congr h₁ h₂ he₁ he₂ hsame.around hnowrap.buses) rfl

/-- The declared base and size are common as well. -/
theorem SameButRanges.regEntry_eq {index : Nat} (hindex : index < 2 ^ 32 - 1) :
    t₁.regEntry blob₁ (ctxOf blob₁).s e₁ index = t₂.regEntry blob₂ (ctxOf blob₂).s e₂ index := by
  have hcells : ∀ name, t₁.regCells (ctxOf blob₁).s e₁ name =
      t₂.regCells (ctxOf blob₂).s e₂ name := by
    intro name
    unfold DeviceTree.regCells
    rw [hsame.around.inherited, hsame.depth]
  have hvalue := hsame.own regName (by decide)
  rw [Entry.value_eq_located, Entry.value_eq_located] at hvalue
  unfold DeviceTree.regEntry
  rw [← hcells, ← hcells]
  cases hfind₁ : e₁.located regName with
  | none =>
      cases hfind₂ : e₂.located regName with
      | none => rfl
      | some y => simp [hfind₁, hfind₂] at hvalue
  | some x =>
      cases hfind₂ : e₂.located regName with
      | none => simp [hfind₁, hfind₂] at hvalue
      | some y =>
          obtain ⟨v₁, l⟩ := x
          obtain ⟨v₂, l'⟩ := y
          obtain rfl : l = l' := by simpa [hfind₁, hfind₂] using hvalue
          simp only
          split_ifs with hexists
          · exact congrArg some (entryAt_congr (h₁.bytesAt_located he₁ regName hfind₁)
              (h₂.bytesAt_located he₂ regName hfind₂) hnowrap.reg hindex hexists)
          · rfl

end Common

/-- The properties of the bridge, with its `ranges` last. -/
def bridgeProps (ranges : List Property) : List Property :=
  addressCells 1 :: sizeCells 1 :: regProperty [0x4000, 0x10] :: ranges

/-- A root with a bridge. -/
def bridgeTree (ranges : List Property) : DeviceTree where
  name := ⟨[], noNul_nil⟩
  props := [addressCells 1, sizeCells 1]
  kids := .cons 0 ⟨[97], noNul_a⟩ (bridgeProps ranges) .nil 0 .nil
  close := 0
  after := 0

/-- Where the bridge is, in a block that starts at 40. -/
def bridgeStart : Int := kidsOff 0 ⟨[], noNul_nil⟩ [addressCells 1, sizeCells 1] 40

/-- The bridge. -/
def bridgeEntry (ranges : List Property) : Entry where
  off := nodeOff 0 bridgeStart
  above := [40]
  name := ⟨[97], noNul_a⟩
  way := [[97]]
  props := bridgeProps ranges
  inner := .nil
  innerOff := kidsOff 0 ⟨[97], noNul_a⟩ (bridgeProps ranges) bridgeStart

theorem bridgeEntry_mem (ranges : List Property) :
    bridgeEntry ranges ∈ ((bridgeTree ranges).rootEntry 40).children := List.mem_cons_self

theorem bridgeEntry_off (ranges : List Property) : (bridgeEntry ranges).off = 80 :=
  show nodeOff 0 bridgeStart = 80 by decide +kernel

theorem sameButRanges_bridge (ranges : List Property)
    (hranges : ∀ a ∈ ranges, a.name.chars = rangesName.chars) :
    SameButRanges (bridgeTree []) (bridgeTree ranges) 40 40 (bridgeEntry []) (bridgeEntry ranges)
    where
  depth := rfl
  own := by
    intro name hname
    have hnone : ranges.find? (fun a => a.name.chars = name.chars) = none := by
      apply List.find?_eq_none.mpr
      intro a ha
      rw [hranges a ha]
      simpa using Ne.symm hname
    have hprops : (bridgeEntry ranges).props = (bridgeEntry []).props ++ ranges := rfl
    unfold Entry.value Entry.property
    rw [hprops, List.find?_append, hnone, Option.or_none]
  around := by
    rw [SameAround, DeviceTree.ancestors_child List.mem_cons_self (bridgeEntry_mem []),
      DeviceTree.ancestors_child List.mem_cons_self (bridgeEntry_mem ranges)]
    exact List.Forall₂.cons (fun _ => rfl) List.Forall₂.nil

/-- The bridge's `ranges` for the devices on it. -/
def bridgeRanges : Property := rangesProperty [0x1000, 0x80001000, 0x1000]

/-- A `ranges` that maps the bridge's own registers where they are. -/
def identityRanges : Property := rangesProperty [0x4000, 0x4000, 0x1000]

theorem wellFormed_bridge :
    WellFormed (blobOf (bridgeTree []).structBlock regStrings) (bridgeTree []) :=
  wellFormed_blobOf (bridgeTree []) regStrings (by decide +kernel)
    (by decide +kernel)

theorem wellFormed_bridgeRanges :
    WellFormed (blobOf (bridgeTree [bridgeRanges]).structBlock regStrings)
      (bridgeTree [bridgeRanges]) :=
  wellFormed_blobOf (bridgeTree [bridgeRanges]) regStrings (by decide +kernel)
    (by decide +kernel)

theorem wellFormed_identityRanges :
    WellFormed (blobOf (bridgeTree [identityRanges]).structBlock regStrings)
      (bridgeTree [identityRanges]) :=
  wellFormed_blobOf (bridgeTree [identityRanges]) regStrings (by decide +kernel)
    (by decide +kernel)

end Fdt
end Saski
