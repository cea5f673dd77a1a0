import Saski.Fdt.Memory

/-!
# Reads through `rd_cells`

The sizes of entries and the places of their fields are computed from the cell counts of
the tree in 32 bits, and so is `index + 1`; `rd_cells` reads eight bytes for every count
other than 1.  While nothing wraps, all fields of an entry lie inside the value.

`cell_reads_iff` says when `fdt_reg_to_cpu_addr` and `fdt_memory_ranges` stay inside the
values that they decode: `index + 1` does not wrap, and for each entry and each window
that comes to be looked at, either its size does not wrap, or the fields end inside the
value although it does.
-/

namespace Saski
namespace Fdt

open Capnp Logged Prog

/-- A byte that is read through `rd_cells` lies in the value that it is read from. -/
def InValue : RegAccess → Prop
  | .walk _ => True
  | .cells value len i => value ≤ i ∧ i < value + len

/-! ## Fields -/

/-- The fields of the `i`-th entry end inside the value. -/
def EntryFits (len ac sc i : Nat) : Prop :=
  i * regSize ac sc + cellWidth ac ≤ len ∧
    (sc ≠ 0 → i * regSize ac sc + ac * 4 % 2 ^ 32 + cellWidth sc ≤ len)

/-- The size of an entry does not wrap, or the fields end inside the value all the same. -/
def EntryInside (len ac sc i : Nat) : Prop := (ac + sc) * 4 < 2 ^ 32 ∨ EntryFits len ac sc i

/-- The fields of the `i`-th window end inside the value. -/
def WindowFits (rlen : Nat) (k : RangeCells) (i : Nat) : Prop :=
  i * k.rentry + cellWidth k.ownAc ≤ rlen ∧
    i * k.rentry + k.ownAc * 4 % 2 ^ 32 + cellWidth k.ra ≤ rlen ∧
    i * k.rentry + (k.ownAc + k.ra) * 4 % 2 ^ 32 + cellWidth k.rs ≤ rlen

/-- The size of a window does not wrap, or the fields end inside the value all the same. -/
def WindowInside (rlen : Nat) (k : RangeCells) (i : Nat) : Prop :=
  (k.ownAc + k.ra + k.rs) * 4 < 2 ^ 32 ∨ WindowFits rlen k i

theorem cellWidth_pos (cells : Nat) : 4 ≤ cellWidth cells := by
  unfold cellWidth
  split <;> omega

/-- Inside a whole entry, the fields are where the counts put them. -/
theorem entryInside_iff {len ac sc i : Nat} (hac : ac ≠ 0)
    (hwhole : (i + 1) * regSize ac sc ≤ len) :
    EntryInside len ac sc i ↔ EntryFits len ac sc i := by
  refine ⟨fun hinside => hinside.elim (fun hsmall => ?_) id, Or.inr⟩
  have hsize : regSize ac sc = (ac + sc) * 4 := Nat.mod_eq_of_lt hsmall
  have hmod : ac * 4 % 2 ^ 32 = ac * 4 := Nat.mod_eq_of_lt (by omega)
  have hbase := cellWidth_le hac
  rw [Nat.add_mul, Nat.one_mul, hsize] at hwhole
  unfold EntryFits
  rw [hsize, hmod]
  refine ⟨by omega, fun hsc => ?_⟩
  have hlength := cellWidth_le hsc
  omega

/-- The three counts are not 0. -/
structure RangeCells.Counted (k : RangeCells) : Prop where
  ownAc : k.ownAc ≠ 0
  ra : k.ra ≠ 0
  rs : k.rs ≠ 0

theorem windowInside_iff {rlen : Nat} {k : RangeCells} {i : Nat} (hk : k.Counted)
    (hwhole : (i + 1) * k.rentry ≤ rlen) : WindowInside rlen k i ↔ WindowFits rlen k i := by
  refine ⟨fun hinside => hinside.elim (fun hsmall => ?_) id, Or.inr⟩
  have hsize : k.rentry = (k.ownAc + k.ra + k.rs) * 4 := Nat.mod_eq_of_lt hsmall
  have hown : k.ownAc * 4 % 2 ^ 32 = k.ownAc * 4 := Nat.mod_eq_of_lt (by omega)
  have hboth : (k.ownAc + k.ra) * 4 % 2 ^ 32 = (k.ownAc + k.ra) * 4 := Nat.mod_eq_of_lt (by omega)
  have hcbase := cellWidth_le hk.ownAc
  have hpbase := cellWidth_le hk.ra
  have hrsize := cellWidth_le hk.rs
  rw [Nat.add_mul, Nat.one_mul, hsize] at hwhole
  unfold WindowFits
  rw [hsize, hown, hboth]
  exact ⟨by omega, by omega, by omega⟩

theorem whole_of_lt_div {i len size : Nat} (hi : i < len / size) : (i + 1) * size ≤ len :=
  (Nat.mul_le_mul_right _ hi).trans (Nat.div_mul_le_self _ _)

/-! ## What is read -/

theorem logs_rdCells_iff (bytes : Int → UInt8) (value : Int) (len off cells : Nat) :
    Logs InValue (rdCells bytes value len (value + off) cells) ↔ off + cellWidth cells ≤ len := by
  have hpos := cellWidth_pos cells
  constructor
  · intro hall
    have hlast := hall (.cells value len (value + off + ((cellWidth cells - 1 : Nat) : Int)))
      (List.mem_map.mpr ⟨cellWidth cells - 1, List.mem_range.mpr (by omega), rfl⟩)
    have := hlast.2
    omega
  · intro hfits
    refine logs_withLog _ fun e he => ?_
    obtain ⟨i, hi, rfl⟩ := List.mem_map.mp he
    have hlt := List.mem_range.mp hi
    exact ⟨by omega, by omega⟩

theorem logs_rdEntry_iff (bytes : Int → UInt8) (reg : Int) (len ac sc i : Nat) :
    Logs InValue (rdEntry bytes reg len ac sc i) ↔ EntryFits len ac sc i := by
  unfold rdEntry EntryFits
  rw [← Nat.cast_mul]
  by_cases hsc : sc = 0
  · simp only [logs_bind_iff, logs_rdCells_iff, logs_pure, hsc, if_true, ne_eq,
      not_true_eq_false, false_implies, and_true]
  · simp only [logs_bind_iff, logs_rdCells_iff, logs_pure, hsc, if_false, Int.add_assoc,
      ← Nat.cast_add, ne_eq, not_false_eq_true, forall_const, and_true]

theorem logs_rdWindow_iff (bytes : Int → UInt8) (ranges : Int) (rlen : Nat) (k : RangeCells)
    (i : Nat) : Logs InValue (rdWindow bytes ranges rlen k i) ↔ WindowFits rlen k i := by
  unfold rdWindow WindowFits
  rw [← Nat.cast_mul]
  simp only [logs_bind_iff, logs_rdCells_iff, Int.add_assoc, ← Nat.cast_add, logs_pure, and_true]

section Walks

variable {α β : Type}

/-- The walks do not matter here. -/
theorem reads_walk_bind {p : Prog Access α} {k : α → Prog RegAccess β} :
    Reads InValue (walk p >>= k) ↔ ∀ a, p.Returns a → Reads InValue (k a) := by
  rw [reads_bind_iff]
  refine and_iff_right fun e he => ?_
  obtain ⟨d, -, rfl⟩ := (performs_relabel _ _ _).mp he
  trivial

/-- Where nothing is read without a result. -/
theorem reads_walk_option {p : Prog Access (Option α)} {k : Option α → Prog RegAccess β}
    (hnone : Reads InValue (k none)) :
    Reads InValue (walk p >>= k) ↔ ∀ a, p.Returns (some a) → Reads InValue (k (some a)) := by
  rw [reads_walk_bind]
  refine ⟨fun hall a => hall (some a), fun hall r hr => ?_⟩
  cases r with
  | none => exact hnone
  | some a => exact hall a hr

end Walks

/-! ## The windows of one node -/

/-- The `i`-th window is looked at: no earlier one contains the address. -/
def LooksAt (bytes : Int → UInt8) (ranges : Int) (rlen : Nat) (k : RangeCells) (base i : Nat) :
    Prop :=
  i < rlen / k.rentry ∧ ∀ j < i, ¬ (windowAt bytes ranges k j).Contains base

theorem reads_windowLoop_iff (bytes : Int → UInt8) (ranges : Int) (rlen : Nat) {k : RangeCells}
    (hk : k.Counted) (base : Nat) :
    Reads InValue (loop (windowBody bytes ranges rlen k base) 0) ↔
      ∀ i, LooksAt bytes ranges rlen k base i → WindowInside rlen k i := by
  have hstep : ∀ i i', Step (windowBody bytes ranges rlen k base) i i' ↔
      i < rlen / k.rentry ∧ ¬ (windowAt bytes ranges k i).Contains base ∧ i' = i + 1 := by
    intro i i'
    unfold Step windowBody
    by_cases hi : i < rlen / k.rentry
    · rw [if_pos hi, returns_liftM_bind, value_rdWindow]
      by_cases hin : (windowAt bytes ranges k i).Contains base
      · simp [hin]
      · simp [hin, hi, eq_comm]
    · simp [hi]
  have hreach : ∀ i, Relation.ReflTransGen (Step (windowBody bytes ranges rlen k base)) 0 i ↔
      ∀ j < i, j < rlen / k.rentry ∧ ¬ (windowAt bytes ranges k j).Contains base := by
    intro i
    constructor
    · intro h
      induction h with
      | refl => simp
      | tail _ hlast ih =>
          obtain ⟨hlt, hout, rfl⟩ := (hstep _ _).mp hlast
          intro j hj
          rcases Nat.lt_succ_iff_lt_or_eq.mp hj with hj | rfl
          · exact ih j hj
          · exact ⟨hlt, hout⟩
    · intro h
      induction i with
      | zero => exact .refl
      | succ i ih =>
          obtain ⟨hlt, hout⟩ := h i (by omega)
          exact (ih fun j hj => h j (by omega)).tail ((hstep _ _).mpr ⟨hlt, hout, rfl⟩)
  rw [reads_loop_iff]
  constructor
  · rintro hall i ⟨hi, hout⟩
    have hbody := hall i ((hreach i).mpr fun j hj => ⟨by omega, hout j hj⟩)
    unfold windowBody at hbody
    rw [if_pos hi, reads_liftM_bind_iff, logs_rdWindow_iff] at hbody
    exact Or.inr hbody.1
  · intro hall i hi
    unfold windowBody
    refine reads_ite (fun hlt => reads_liftM_bind ?_ ?_) fun _ => reads_pure _ _
    · have hlook : LooksAt bytes ranges rlen k base i :=
        ⟨hlt, fun j hj => ((hreach i).mp hi j hj).2⟩
      exact (logs_rdWindow_iff _ _ _ _ _).mpr
        ((windowInside_iff hk (whole_of_lt_div hlt)).mp (hall i hlook))
    · exact reads_unless fun _ => reads_pure _ _

/-! ## The way up -/

theorem counted_of_rangeCells {blob : Buffer} {cur : Int} {k : RangeCells}
    (h : (rangeCells blob cur).Returns (some k)) : k.Counted := by
  unfold rangeCells at h
  obtain ⟨cells, -, h⟩ := (returns_bind _ _ _).mp h
  cases cells with
  | none => simp at h
  | some cells =>
      obtain ⟨ownAc, -, h⟩ := (returns_bind _ _ _).mp h
      obtain ⟨ownSc, -, h⟩ := (returns_bind _ _ _).mp h
      simp only [returns_pure, Option.some.injEq] at h
      subst h
      constructor <;> (dsimp only; split <;> omega)

/-- One level up, with the address so far: there are no windows, or the first that contains
the address takes it on. -/
inductive Climbs (blob : Buffer) : Int × Nat → Int × Nat → Prop
  | absent {cur parent : Int} {base : Nat} (hparent : (fdtParentOffset blob cur).Returns parent)
      (hup : 0 ≤ parent) (hranges : (fdtGetprop blob cur (some rangesName)).Returns none) :
      Climbs blob (cur, base) (parent, base)
  | empty {cur parent v : Int} {base : Nat} (hparent : (fdtParentOffset blob cur).Returns parent)
      (hup : 0 ≤ parent) (hranges : (fdtGetprop blob cur (some rangesName)).Returns (some (v, 0))) :
      Climbs blob (cur, base) (parent, base)
  | window {cur parent v : Int} {base base' rlen : Nat} {k : RangeCells}
      (hparent : (fdtParentOffset blob cur).Returns parent) (hup : 0 < parent)
      (hranges : (fdtGetprop blob cur (some rangesName)).Returns (some (v, rlen)))
      (hcells : (rangeCells blob cur).Returns (some k))
      (hthrough : throughWindows (windowsAt blob.bytes v rlen k) base = some base') :
      Climbs blob (cur, base) (parent, base')

theorem Climbs.parent {blob : Buffer} {s s' : Int × Nat} (h : Climbs blob s s') :
    (fdtParentOffset blob s.1).Returns s'.1 ∧ 0 ≤ s'.1 := by
  cases h with
  | absent hparent hup _ => exact ⟨hparent, hup⟩
  | empty hparent hup _ => exact ⟨hparent, hup⟩
  | window hparent hup _ _ _ => exact ⟨hparent, hup.le⟩

/-- All windows of the node at `cur` that are looked at for `base` are inside its `ranges`. -/
def RangesInside (blob : Buffer) (cur : Int) (base : Nat) : Prop :=
  ∀ (parent v : Int) (rlen i : Nat) (k : RangeCells), (fdtParentOffset blob cur).Returns parent →
    0 ≤ parent → (fdtGetprop blob cur (some rangesName)).Returns (some (v, rlen)) →
    (rangeCells blob cur).Returns (some k) → LooksAt blob.bytes v rlen k base i →
    WindowInside rlen k i

theorem throughWindows_none_of_empty (bytes : Int → UInt8) (ranges : Int) {rlen : Nat}
    {k : RangeCells} (h : rlen / k.rentry = 0) (base : Nat) :
    throughWindows (windowsAt bytes ranges rlen k) base = none := by
  simp [windowsAt, throughWindows, h]

theorem climbs_of_step {blob : Buffer} {cur : Int} {base : Nat} {s : Int × Nat}
    (hstep : Step (mapBody blob) (cur, base) s) : Climbs blob (cur, base) s := by
  unfold Step at hstep
  rw [mapBody] at hstep
  obtain ⟨parent, hparent, hstep⟩ := (returns_bind _ _ _).mp hstep
  by_cases hup : parent < 0
  · simp [hup] at hstep
  rw [if_neg hup] at hstep
  obtain ⟨r, hranges, hstep⟩ := (returns_bind _ _ _).mp hstep
  cases r with
  | none =>
      obtain rfl := Sum.inl.inj ((returns_pure _ _).mp hstep)
      exact .absent hparent (by omega) hranges
  | some value =>
      obtain ⟨v, rlen⟩ := value
      by_cases hempty : rlen = 0
      · subst hempty
        obtain rfl := Sum.inl.inj ((returns_pure _ _).mp hstep)
        exact .empty hparent (by omega) hranges
      simp only [if_neg hempty] at hstep
      obtain ⟨cells, hcells, hstep⟩ := (returns_bind _ _ _).mp hstep
      cases cells with
      | none => simp at hstep
      | some k =>
          by_cases hrentry : k.rentry = 0
          · simp [hrentry] at hstep
          simp only [if_neg hrentry] at hstep
          rw [returns_bind_of (returns_windowLoop blob.bytes v rlen k base)] at hstep
          cases hthrough : throughWindows (windowsAt blob.bytes v rlen k) base with
          | none => simp [hthrough] at hstep
          | some base' =>
              by_cases hroot : parent = 0
              · simp [hthrough, hroot] at hstep
              simp only [hthrough, if_neg hroot] at hstep
              obtain rfl := Sum.inl.inj ((returns_pure _ _).mp hstep)
              exact .window hparent (by omega) hranges hcells hthrough

theorem step_of_climbs {blob : Buffer} {s s' : Int × Nat} (hclimb : Climbs blob s s') :
    Step (mapBody blob) s s' := by
  unfold Step
  cases hclimb with
  | absent hparent hup hranges =>
      rw [mapBody, returns_walk_of hparent, if_neg (by omega), returns_walk_of hranges]
      simp
  | empty hparent hup hranges =>
      rw [mapBody, returns_walk_of hparent, if_neg (by omega), returns_walk_of hranges]
      simp
  | @window cur parent v base base' rlen k hparent hup hranges hcells hthrough =>
      have hsome : rlen / k.rentry ≠ 0 := fun hzero => by
        simp [throughWindows_none_of_empty _ _ hzero] at hthrough
      have hrlen : rlen ≠ 0 := fun hzero => hsome (by simp [hzero])
      have hrentry : k.rentry ≠ 0 := fun hzero => hsome (by simp [hzero])
      rw [mapBody, returns_walk_of hparent, if_neg (by omega), returns_walk_of hranges]
      simp only [if_neg hrlen]
      rw [returns_walk_of hcells]
      simp only [if_neg hrentry]
      rw [returns_bind_of (returns_windowLoop blob.bytes v rlen k base), hthrough]
      simp [hup.ne']

theorem step_mapBody (blob : Buffer) : Step (mapBody blob) = Climbs blob := by
  ext s s'
  exact ⟨climbs_of_step, step_of_climbs⟩

theorem reads_mapBody_iff (blob : Buffer) (cur : Int) (base : Nat) :
    Reads InValue (mapBody blob (cur, base)) ↔ RangesInside blob cur base := by
  unfold RangesInside
  rw [mapBody, reads_walk_bind]
  constructor
  · intro hall parent v rlen i k hparent hup hranges hcells hlook
    have hsome : rlen / k.rentry ≠ 0 := by have := hlook.1; omega
    have hrlen : rlen ≠ 0 := fun hzero => hsome (by simp [hzero])
    have hrentry : k.rentry ≠ 0 := fun hzero => hsome (by simp [hzero])
    have hreads := hall parent hparent
    rw [if_neg (by omega), reads_walk_bind] at hreads
    have hreads := hreads _ hranges
    simp only [if_neg hrlen] at hreads
    have hreads := reads_walk_bind.mp hreads _ hcells
    simp only [if_neg hrentry] at hreads
    have hloop := (reads_bind_iff.mp hreads).1
    exact (reads_windowLoop_iff _ _ _ (counted_of_rangeCells hcells) base).mp hloop i hlook
  · intro hall parent hparent
    apply reads_unless
    intro hup
    rw [reads_walk_option (by exact reads_pure _ _)]
    rintro ⟨v, rlen⟩ hranges
    apply reads_unless
    intro _
    rw [reads_walk_option (by exact reads_pure _ _)]
    intro k hcells
    refine reads_unless fun _ => reads_bind ?_ fun r _ => ?_
    · exact (reads_windowLoop_iff _ _ _ (counted_of_rangeCells hcells) base).mpr fun i hlook =>
        hall parent v rlen i k hparent (by omega) hranges hcells hlook
    · cases r with
      | none => exact reads_pure _ _
      | some base' => exact reads_unless fun _ => reads_pure _ _

/-! ## `fdt_reg_to_cpu_addr` -/

/-- What keeps the translation of the `index`-th entry of the node at `n` inside the values. -/
structure RegInside (blob : Buffer) (n : Int) (index : Nat) (reg : Int) (len ac sc : Nat) :
    Prop where
  next : index + 1 < 2 ^ 32
  entry : EntryInside len ac sc index
  windows : ∀ cur base, Relation.ReflTransGen (Climbs blob)
    (n, (entryAt blob.bytes reg ac sc index).base) (cur, base) → RangesInside blob cur base

theorem length_lt_of_getprop {blob : Buffer} {c : Ctx} (h : Header blob c) {n v : Int} {len : Nat}
    {name : CString} (hreturns : (fdtGetprop blob n (some name)).Returns (some (v, len))) :
    len < 2 ^ 32 := by
  obtain ⟨r, hr, hvalue⟩ := returns_fdtGetprop h n name
  obtain ⟨hv, -, -, hfits⟩ := hvalue v len (hr.unique hreturns)
  have hsend := h.send_lt
  omega

theorem reads_fdtRegToCpuAddr_iff {blob : Buffer} {c : Ctx} (h : Header blob c) (n : Int)
    {index : Nat} (hindex : index < 2 ^ 32) :
    Reads InValue (fdtRegToCpuAddr blob n index) ↔
      ∀ reg len ac sc, (fdtParentCells blob n).Returns (some (ac, sc)) →
        (fdtGetprop blob n (some regName)).Returns (some (reg, len)) →
        EntryExists len ac sc index → RegInside blob n index reg len ac sc := by
  have hctx : (lift (ctxInit blob)).Returns (some c) :=
    (returns_lift _ _).mpr ((value_ctxInit blob c).mpr h)
  have hloop : ∀ base, Reads InValue (loop (mapBody blob) (n, base)) ↔
      ∀ cur base', Relation.ReflTransGen (Climbs blob) (n, base) (cur, base') →
        RangesInside blob cur base' := by
    intro base
    rw [reads_loop_iff, step_mapBody]
    simp only [Prod.forall, reads_mapBody_iff]
  unfold fdtRegToCpuAddr
  constructor
  · intro hreads reg len ac sc hcells hreg hexists
    have hreads := reads_walk_bind.mp hreads _ hctx
    have hreads := reads_walk_bind.mp hreads _ hcells
    have hreads := reads_walk_bind.mp hreads _ hreg
    simp only [if_neg (not_not.mpr hexists)] at hreads
    obtain ⟨hentry, hrest⟩ := reads_liftM_bind_iff.mp hreads
    have hfits := (logs_rdEntry_iff _ _ _ _ _ _).mp hentry
    rw [value_rdEntry] at hrest
    refine ⟨?_, Or.inr hfits, (hloop _).mp (reads_bind_iff.mp hrest).1⟩
    -- The entry of the last index would be behind every value.
    by_contra hlast
    have hlen := length_lt_of_getprop h hreg
    have hfar : index * 1 ≤ index * regSize ac sc :=
      Nat.mul_le_mul_left _ (Nat.one_le_iff_ne_zero.mpr hexists.2.1)
    have hwidth := cellWidth_pos ac
    have hend := hfits.1
    omega
  · intro hall
    rw [reads_walk_option (by exact reads_pure _ _)]
    intro c' _
    rw [reads_walk_option (by exact reads_pure _ _)]
    rintro ⟨ac, sc⟩ hcells
    rw [reads_walk_option (by exact reads_pure _ _)]
    rintro ⟨reg, len⟩ hreg
    apply reads_unless
    intro hnot
    have hexists := not_not.mp hnot
    obtain ⟨hnext, hentry, hwindows⟩ := hall reg len ac sc hcells hreg hexists
    obtain ⟨hac, -, hwhole⟩ := hexists
    rw [Nat.mod_eq_of_lt hnext] at hwhole
    rw [reads_liftM_bind_iff, logs_rdEntry_iff, value_rdEntry]
    refine ⟨(entryInside_iff hac hwhole).mp hentry, reads_bind ((hloop _).mpr hwindows) ?_⟩
    intro r _
    cases r with
    | none => exact reads_pure _ _
    | some base => exact reads_pure _ _

/-! ## `fdt_memory_ranges` -/

/-- The node at `ch` is a memory node whose `reg` is decoded. -/
structure MemoryReg (blob : Buffer) (c : Ctx) (ch reg : Int) (len ac sc : Nat) : Prop where
  name : ∃ namelen, nameLen c (ch + 4) = some namelen ∧
    (isMemoryName c (ch + 4) namelen).value = true
  cells : (fdtParentCells blob ch).Returns (some (ac, sc))
  value : (fdtGetprop blob ch (some regName)).Returns (some (reg, len))
  ac_ne : ac ≠ 0
  size_ne : regSize ac sc ≠ 0

/-- The node at `ch` is passed over. -/
inductive PassedOver (blob : Buffer) (c : Ctx) (ch : Int) : Prop
  | name (h : ∀ namelen, nameLen c (ch + 4) = some namelen →
      (isMemoryName c (ch + 4) namelen).value = false)
  | cells (hcells : (fdtParentCells blob ch).Returns none)
  | value (cells : Nat × Nat) (hcells : (fdtParentCells blob ch).Returns (some cells))
      (hreg : (fdtGetprop blob ch (some regName)).Returns none)
  | size (ac sc : Nat) (value : Int × Nat)
      (hcells : (fdtParentCells blob ch).Returns (some (ac, sc)))
      (hreg : (fdtGetprop blob ch (some regName)).Returns (some value))
      (hsize : ac = 0 ∨ regSize ac sc = 0)

/-- The loop over the children of the root, with the number of ranges written so far. -/
inductive MemoryStep (blob : Buffer) (c : Ctx) (root : Int) (max : Nat) :
    Int × Nat → Int × Nat → Prop
  | pass {ch next : Int} {count : Nat} (hch : ch ≠ fdtErrNode) (hpass : PassedOver blob c ch)
      (hnext : (fdtNextSibling blob root ch).Returns next) :
      MemoryStep blob c root max (ch, count) (next, count)
  | write {ch next reg : Int} {count len ac sc : Nat} (hch : ch ≠ fdtErrNode)
      (hreg : MemoryReg blob c ch reg len ac sc)
      (hnext : (fdtNextSibling blob root ch).Returns next) :
      MemoryStep blob c root max (ch, count) (next, count + min (len / regSize ac sc) (max - count))

theorem MemoryStep.next {blob : Buffer} {c : Ctx} {root : Int} {max : Nat} {s s' : Int × Nat}
    (h : MemoryStep blob c root max s s') :
    s.1 ≠ fdtErrNode ∧ (fdtNextSibling blob root s.1).Returns s'.1 := by
  cases h with
  | pass hch _ hnext => exact ⟨hch, hnext⟩
  | write hch _ hnext => exact ⟨hch, hnext⟩

/-- What keeps the scan for memory inside the values. -/
def MemoryInside (blob : Buffer) (c : Ctx) (max : Nat) : Prop :=
  ok c c.s 4 → be32 c.base c.s = fdtBeginNode →
    ∀ first ch reg : Int, ∀ count len ac sc i : Nat,
      (fdtFirstChild blob (offOf c.s)).Returns first →
      Relation.ReflTransGen (MemoryStep blob c (offOf c.s) max) (first, 0) (ch, count) →
      ch ≠ fdtErrNode → MemoryReg blob c ch reg len ac sc → i < len / regSize ac sc →
      count + i < max → EntryInside len ac sc i

/-- The entries of one node: as many as there are, and as there is room for. -/
theorem reads_memoryEntryLoop_iff (bytes : Int → UInt8) (reg : Int) (len : Nat) {ac sc : Nat}
    (hac : ac ≠ 0) (max : Nat) (o : RangeList) :
    Reads InValue (loop (memoryEntryBody bytes reg len ac sc max) (0, o)) ↔
      ∀ i, i < len / regSize ac sc → o.count + i < max → EntryInside len ac sc i := by
  suffices hfrom : ∀ n i o, i + n = len / regSize ac sc →
      (Reads InValue (loop (memoryEntryBody bytes reg len ac sc max) (i, o)) ↔
        ∀ j < n, o.count + j < max → EntryInside len ac sc (i + j)) by
    simpa using hfrom _ 0 o (Nat.zero_add _)
  intro n
  induction n with
  | zero =>
      intro i o hend
      have hbody := returns_memoryEntryBody bytes reg len ac sc max i o
      rw [if_neg (by omega)] at hbody
      rw [reads_loop_of_done hbody, memoryEntryBody, if_neg (by omega)]
      exact iff_of_true (reads_pure _ _) (by simp)
  | succ n ih =>
      intro i o hend
      have hbody := returns_memoryEntryBody bytes reg len ac sc max i o
      by_cases hroom : o.count < max
      · have hgo : i < len / regSize ac sc ∧ o.count < max := ⟨by omega, hroom⟩
        have hinside := entryInside_iff hac (whole_of_lt_div hgo.1)
        rw [if_pos hgo] at hbody
        rw [reads_loop_of_step hbody, ih (i + 1) _ (by omega), memoryEntryBody, if_pos hgo,
          reads_liftM_bind_iff, logs_rdEntry_iff, ← hinside]
        constructor
        · rintro ⟨⟨hfirst, -⟩, hrest⟩ j hj hmax
          cases j with
          | zero => exact hfirst
          | succ j =>
              rw [show i + (j + 1) = i + 1 + j by omega]
              exact hrest j (by omega) (by rw [RangeList.push]; dsimp only; omega)
        · intro hall
          refine ⟨⟨hall 0 (by omega) hroom, reads_pure _ _⟩, fun j hj hmax => ?_⟩
          rw [RangeList.push] at hmax
          rw [show i + 1 + j = i + (j + 1) by omega]
          exact hall (j + 1) (by omega) (by dsimp only at hmax; omega)
      · have hstop : ¬ (i < len / regSize ac sc ∧ o.count < max) := fun hboth => hroom hboth.2
        rw [if_neg hstop] at hbody
        rw [reads_loop_of_done hbody, memoryEntryBody, if_neg hstop]
        exact iff_of_true (reads_pure _ _) fun j _ hmax => absurd hmax (by omega)

/-- The number of ranges after one node. -/
theorem returns_memoryEntryLoop_count (bytes : Int → UInt8) (reg : Int) (len ac sc max : Nat)
    (o : RangeList) :
    ∃ o', (loop (memoryEntryBody bytes reg len ac sc max) (0, o)).Returns o' ∧
      o'.count = o.count + min (len / regSize ac sc) (max - o.count) := by
  suffices hfrom : ∀ n i o, i + n = len / regSize ac sc →
      ∃ o', (loop (memoryEntryBody bytes reg len ac sc max) (i, o)).Returns o' ∧
        o'.count = o.count + min n (max - o.count) from hfrom _ 0 o (Nat.zero_add _)
  intro n
  induction n with
  | zero =>
      intro i o hend
      have hbody := returns_memoryEntryBody bytes reg len ac sc max i o
      rw [if_neg (by omega)] at hbody
      exact ⟨o, returns_loop_of_done hbody, by simp⟩
  | succ n ih =>
      intro i o hend
      have hbody := returns_memoryEntryBody bytes reg len ac sc max i o
      by_cases hroom : o.count < max
      · rw [if_pos ⟨by omega, hroom⟩] at hbody
        obtain ⟨o', ho', hcount⟩ := ih (i + 1) (o.push (entryAt bytes reg ac sc i)) (by omega)
        refine ⟨o', returns_loop_of_step hbody ho', ?_⟩
        rw [hcount, RangeList.push]
        dsimp only
        omega
      · rw [if_neg fun hboth => hroom hboth.2] at hbody
        exact ⟨o, returns_loop_of_done hbody, by omega⟩

/-- What is read of one child of the root. -/
theorem reads_memoryNode_iff (blob : Buffer) (c : Ctx) (max : Nat) (ch : Int) (o : RangeList) :
    Reads InValue (memoryNode blob c max ch o) ↔
      ∀ reg len ac sc, MemoryReg blob c ch reg len ac sc → ∀ i, i < len / regSize ac sc →
        o.count + i < max → EntryInside len ac sc i := by
  have hname := returns_nodeName c (ch + 4)
  unfold memoryNode
  constructor
  · rintro hreads reg len ac sc ⟨⟨namelen, hlen, htest⟩, hcells, hvalue, hac, hsize⟩
    rw [hlen] at hname
    have hreads := reads_walk_bind.mp hreads _ hname
    have hreads := reads_walk_bind.mp hreads true ((returns_lift _ _).mpr htest)
    have hreads := reads_walk_bind.mp hreads _ hcells
    have hreads := reads_walk_bind.mp hreads _ hvalue
    simp only [if_neg (not_or.mpr ⟨hac, hsize⟩)] at hreads
    exact (reads_memoryEntryLoop_iff _ _ _ hac _ _).mp hreads
  · intro hall
    rw [reads_walk_option (by exact reads_pure _ _)]
    intro namelen hlen
    rw [reads_walk_bind]
    intro test htest
    refine reads_ite (fun htrue => ?_) fun _ => reads_pure _ _
    rw [reads_walk_option (by exact reads_pure _ _)]
    rintro ⟨ac, sc⟩ hcells
    rw [reads_walk_option (by exact reads_pure _ _)]
    rintro ⟨reg, len⟩ hvalue
    apply reads_unless
    intro hsizes
    obtain ⟨hac, hsize⟩ := not_or.mp hsizes
    have hmemory : MemoryReg blob c ch reg len ac sc :=
      ⟨⟨namelen, hname.unique hlen, ((returns_lift _ _).mp htest).trans htrue⟩, hcells, hvalue, hac,
        hsize⟩
    exact (reads_memoryEntryLoop_iff _ _ _ hac _ _).mpr (hall reg len ac sc hmemory)

/-- What one child of the root adds. -/
theorem count_of_memoryNode {blob : Buffer} {c : Ctx} {max : Nat} {ch : Int} {o o' : RangeList}
    (h : (memoryNode blob c max ch o).Returns o') :
    (PassedOver blob c ch ∧ o'.count = o.count) ∨
      ∃ reg len ac sc, MemoryReg blob c ch reg len ac sc ∧
        o'.count = o.count + min (len / regSize ac sc) (max - o.count) := by
  unfold memoryNode at h
  rw [returns_walk_of (returns_nodeName c (ch + 4))] at h
  cases hlen : nameLen c (ch + 4) with
  | none =>
      simp only [hlen, returns_pure] at h
      exact Or.inl ⟨.name (by simp [hlen]), by rw [h]⟩
  | some namelen =>
      simp only [hlen] at h
      obtain ⟨test, htest, h⟩ := (returns_bind _ _ _).mp h
      have hvalue : (isMemoryName c (ch + 4) namelen).value = test := (returns_lift _ _).mp htest
      by_cases htrue : test = true
      case neg =>
        rw [if_neg htrue, returns_pure] at h
        refine Or.inl ⟨.name fun n hn => ?_, by rw [h]⟩
        obtain rfl := Option.some.inj (hlen.symm.trans hn)
        simpa [hvalue] using htrue
      rw [if_pos htrue] at h
      obtain ⟨cells, hcells, h⟩ := (returns_bind _ _ _).mp h
      cases cells with
      | none =>
          simp only [returns_pure] at h
          exact Or.inl ⟨.cells hcells, by rw [h]⟩
      | some cells =>
          obtain ⟨ac, sc⟩ := cells
          obtain ⟨value, hreg, h⟩ := (returns_bind _ _ _).mp h
          cases value with
          | none =>
              simp only [returns_pure] at h
              exact Or.inl ⟨.value _ hcells hreg, by rw [h]⟩
          | some value =>
              obtain ⟨reg, len⟩ := value
              by_cases hsizes : ac = 0 ∨ regSize ac sc = 0
              · simp only [if_pos hsizes, returns_pure] at h
                exact Or.inl ⟨.size ac sc _ hcells hreg hsizes, by rw [h]⟩
              simp only [if_neg hsizes] at h
              obtain ⟨hac, hsize⟩ := not_or.mp hsizes
              obtain ⟨o'', ho'', hcount⟩ :=
                returns_memoryEntryLoop_count blob.bytes reg len ac sc max o
              obtain rfl := ho''.unique h
              exact Or.inr ⟨reg, len, ac, sc,
                ⟨⟨namelen, hlen, hvalue.trans htrue⟩, hcells, hreg, hac, hsize⟩, hcount⟩

theorem returns_memoryNode_of_passedOver {blob : Buffer} {c : Ctx} {ch : Int}
    (h : PassedOver blob c ch) (max : Nat) (o : RangeList) :
    (memoryNode blob c max ch o).Returns o := by
  unfold memoryNode
  rw [returns_walk_of (returns_nodeName c (ch + 4))]
  cases hlen : nameLen c (ch + 4) with
  | none => simp
  | some namelen =>
      simp only
      rw [returns_walk_of (returns_lift_value _)]
      by_cases htest : (isMemoryName c (ch + 4) namelen).value = true
      case neg => simp [htest]
      rw [if_pos htest]
      cases h with
      | name hother => exact absurd (hother namelen hlen) (by simp [htest])
      | cells hcells =>
          rw [returns_walk_of hcells]
          simp
      | value cells hcells hreg =>
          rw [returns_walk_of hcells]
          simp only
          rw [returns_walk_of hreg]
          simp
      | size ac sc value hcells hreg hsizes =>
          rw [returns_walk_of hcells]
          simp only
          rw [returns_walk_of hreg]
          simp [hsizes]

theorem returns_memoryNode_of_memoryReg {blob : Buffer} {c : Ctx} {ch reg : Int} {len ac sc : Nat}
    (h : MemoryReg blob c ch reg len ac sc) (max : Nat) (o : RangeList) :
    ∃ o', (memoryNode blob c max ch o).Returns o' ∧
      o'.count = o.count + min (len / regSize ac sc) (max - o.count) := by
  obtain ⟨⟨namelen, hlen, htest⟩, hcells, hreg, hac, hsize⟩ := h
  obtain ⟨o', ho', hcount⟩ := returns_memoryEntryLoop_count blob.bytes reg len ac sc max o
  have hname := returns_nodeName c (ch + 4)
  rw [hlen] at hname
  have hlift : (lift (isMemoryName c (ch + 4) namelen)).Returns true := (returns_lift _ _).mpr htest
  refine ⟨o', ?_, hcount⟩
  unfold memoryNode
  rw [returns_walk_of hname]
  simp only
  rw [returns_walk_of hlift, if_pos rfl, returns_walk_of hcells]
  simp only
  rw [returns_walk_of hreg]
  simp only [if_neg (not_or.mpr ⟨hac, hsize⟩)]
  exact ho'

section Scan

variable {blob : Buffer} {c : Ctx} {root : Int} {max : Nat}

/-- What matters of a state: the child, and the number of ranges. -/
def counted (s : Int × RangeList) : Int × Nat := (s.1, s.2.count)

theorem step_memoryBody_iff {ch next : Int} {o o' : RangeList} :
    Step (memoryBody blob c root max) (ch, o) (next, o') ↔
      ch ≠ fdtErrNode ∧ (memoryNode blob c max ch o).Returns o' ∧
        (fdtNextSibling blob root ch).Returns next := by
  unfold Step
  rw [memoryBody]
  by_cases hch : ch = fdtErrNode
  · simp [hch]
  · rw [if_neg hch, returns_bind]
    constructor
    · rintro ⟨o'', ho'', hrest⟩
      obtain ⟨next', hnext, hpair⟩ := (returns_bind _ _ _).mp hrest
      obtain ⟨rfl, rfl⟩ := Prod.mk.inj (Sum.inl.inj ((returns_pure _ _).mp hpair))
      exact ⟨hch, ho'', hnext⟩
    · rintro ⟨-, ho', hnext⟩
      refine ⟨o', ho', ?_⟩
      rw [returns_walk_of hnext, returns_pure]

theorem memoryStep_of_step {s s' : Int × RangeList}
    (h : Step (memoryBody blob c root max) s s') :
    MemoryStep blob c root max (counted s) (counted s') := by
  obtain ⟨ch, o⟩ := s
  obtain ⟨next, o'⟩ := s'
  obtain ⟨hch, hnode, hnext⟩ := step_memoryBody_iff.mp h
  unfold counted
  rcases count_of_memoryNode hnode with ⟨hpass, hcount⟩ | ⟨reg, len, ac, sc, hreg, hcount⟩
  · rw [hcount]
    exact .pass hch hpass hnext
  · rw [hcount]
    exact .write hch hreg hnext

theorem exists_step_of_memoryStep {s : Int × RangeList} {t : Int × Nat}
    (h : MemoryStep blob c root max (counted s) t) :
    ∃ s', counted s' = t ∧ Step (memoryBody blob c root max) s s' := by
  obtain ⟨ch, o⟩ := s
  unfold counted at h
  cases h with
  | @pass _ next _ hch hpass hnext =>
      exact ⟨(next, o), rfl,
        step_memoryBody_iff.mpr ⟨hch, returns_memoryNode_of_passedOver hpass max o, hnext⟩⟩
  | @write _ next _ _ _ _ _ hch hreg hnext =>
      obtain ⟨o', ho', hcount⟩ := returns_memoryNode_of_memoryReg hreg max o
      exact ⟨(next, o'), by rw [counted, hcount], step_memoryBody_iff.mpr ⟨hch, ho', hnext⟩⟩

theorem exists_run_of_memorySteps {s : Int × RangeList} {t : Int × Nat}
    (h : Relation.ReflTransGen (MemoryStep blob c root max) (counted s) t) :
    ∃ s', counted s' = t ∧ Relation.ReflTransGen (Step (memoryBody blob c root max)) s s' := by
  induction h with
  | refl => exact ⟨s, rfl, .refl⟩
  | tail _ hlast ih =>
      obtain ⟨s', rfl, hrun⟩ := ih
      obtain ⟨s'', heq, hstep⟩ := exists_step_of_memoryStep hlast
      exact ⟨s'', heq, hrun.tail hstep⟩

theorem reads_memoryBody_iff {ch : Int} {o : RangeList} :
    Reads InValue (memoryBody blob c root max (ch, o)) ↔
      (ch ≠ fdtErrNode → ∀ reg len ac sc, MemoryReg blob c ch reg len ac sc →
        ∀ i, i < len / regSize ac sc → o.count + i < max → EntryInside len ac sc i) := by
  rw [memoryBody]
  by_cases hch : ch = fdtErrNode
  · simp [hch, reads_pure]
  · rw [if_neg hch, reads_bind_iff, reads_memoryNode_iff]
    constructor
    · exact fun hboth _ => hboth.1
    · intro hall
      exact ⟨hall hch, fun o' _ => reads_walk_bind.mpr fun _ _ => reads_pure _ _⟩

theorem reads_fdtMemoryRanges_iff (h : Header blob c) (out : Nat → Range) (max : Nat) :
    Reads InValue (fdtMemoryRanges blob out max) ↔ MemoryInside blob c max := by
  have hctx : (lift (ctxInit blob)).Returns (some c) :=
    (returns_lift _ _).mpr ((value_ctxInit blob c).mpr h)
  have hword : (lift (rdBe32 .struct c.base c.s)).Returns (be32 c.base c.s) :=
    returns_lift_value _
  unfold fdtMemoryRanges MemoryInside
  constructor
  · intro hreads hok hbegin first ch reg count len ac sc i hfirst hreach hch hreg hi hmax
    have hreads := reads_walk_bind.mp hreads _ hctx
    simp only [if_neg (not_not.mpr hok)] at hreads
    have hreads := reads_walk_bind.mp hreads _ hword
    rw [if_neg (not_not.mpr hbegin)] at hreads
    have hreads := reads_loop_iff.mp (reads_walk_bind.mp hreads _ hfirst)
    obtain ⟨⟨ch', o⟩, heq, hrun⟩ :=
      exists_run_of_memorySteps (s := (first, (⟨0, out⟩ : RangeList))) hreach
    obtain ⟨rfl, rfl⟩ := Prod.mk.inj heq
    exact reads_memoryBody_iff.mp (hreads _ hrun) hch reg len ac sc hreg i hi hmax
  · intro hall
    rw [reads_walk_bind]
    intro r hr
    obtain rfl := hctx.unique hr
    apply reads_unless
    intro hok
    rw [reads_walk_bind]
    intro token htoken
    obtain rfl := hword.unique htoken
    apply reads_unless
    intro hbegin
    rw [reads_walk_bind]
    intro first hfirst
    rw [reads_loop_iff]
    rintro ⟨ch, o⟩ hrun
    have hreach := hrun.lift counted fun _ _ => memoryStep_of_step
    exact reads_memoryBody_iff.mpr fun hch reg len ac sc hreg i hi hmax =>
      hall (not_not.mp hok) (not_not.mp hbegin) first ch reg o.count len ac sc i hfirst hreach hch
        hreg hi hmax

end Scan

/-- **Cells are read inside their value** exactly if no size wraps in a way that matters. -/
theorem cell_reads_iff (blob : Buffer) (size : Nat) (hvalid : (fdtValid blob size).value = true) :
    (∀ (n : Int) (index : Nat), index < 2 ^ 32 →
      (Reads InValue (fdtRegToCpuAddr blob n index) ↔
        ∀ reg len ac sc, (fdtParentCells blob n).Returns (some (ac, sc)) →
          (fdtGetprop blob n (some regName)).Returns (some (reg, len)) →
          EntryExists len ac sc index → RegInside blob n index reg len ac sc)) ∧
      ∀ (out : Nat → Range) (max : Nat),
        Reads InValue (fdtMemoryRanges blob out max) ↔ MemoryInside blob (ctxOf blob) max := by
  have h := header_of_fdtValid hvalid
  exact ⟨fun n index hindex => reads_fdtRegToCpuAddr_iff h n hindex,
    fun out max => reads_fdtMemoryRanges_iff h out max⟩

/-- From a child of the root, the way up has one step. -/
theorem climbs_from_child {blob : Buffer} {n root : Int} {base : Nat} {s : Int × Nat}
    (hparent : (fdtParentOffset blob n).Returns root)
    (hroot : (fdtParentOffset blob root).Returns fdtErrNode)
    (hreach : Relation.ReflTransGen (Climbs blob) (n, base) s) : s.1 = n ∨ s.1 = root := by
  induction hreach with
  | refl => exact Or.inl rfl
  | tail _ hlast ih =>
      obtain ⟨hup, hnonneg⟩ := hlast.parent
      rcases ih with heq | heq
      · rw [heq] at hup
        exact Or.inr (hup.unique hparent)
      · rw [heq] at hup
        rw [hup.unique hroot] at hnonneg
        exact absurd hnonneg (by decide)

/-- From the last child of the root, the scan has one step. -/
theorem memorySteps_from_last {blob : Buffer} {c : Ctx} {root ch : Int} {max count : Nat}
    {s : Int × Nat} (hnext : (fdtNextSibling blob root ch).Returns fdtErrNode)
    (hreach : Relation.ReflTransGen (MemoryStep blob c root max) (ch, count) s) :
    s.1 = ch ∨ s.1 = fdtErrNode := by
  induction hreach with
  | refl => exact Or.inl rfl
  | tail _ hlast ih =>
      obtain ⟨hch, hsibling⟩ := hlast.next
      rw [ih.resolve_right hch] at hsibling
      exact Or.inr (hsibling.unique hnext)

/-- One memory node, under a root with the given counts. -/
def ramTree (ac sc : Nat) (cells : List Nat) : DeviceTree where
  name := ⟨[], noNul_nil⟩
  props := [addressCells ac, sizeCells sc]
  kids := .cons 0 ⟨_, noNul_memory⟩ [regProperty cells] .nil 0 .nil
  close := 0
  after := 0

/-- The blob of such a tree. -/
def ramBlob (ac sc : Nat) (cells : List Nat) : Buffer :=
  blobOf (ramTree ac sc cells).structBlock regStrings

/-- With one cell for each field, everything stays inside. -/
theorem ramBlob_reads_inside :
    (fdtValid (ramBlob 1 1 [0x4000, 0x10]) 162).value = true ∧
      Reads InValue (fdtRegToCpuAddr (ramBlob 1 1 [0x4000, 0x10]) 80 0) ∧
      Reads InValue (fdtMemoryRanges (ramBlob 1 1 [0x4000, 0x10]) (fun _ => ⟨0, 0⟩) 4) := by
  have hvalid : (fdtValid (ramBlob 1 1 [0x4000, 0x10]) 162).value = true := by decide +kernel
  have hcells : (fdtParentCells (ramBlob 1 1 [0x4000, 0x10]) 80).Returns (some (1, 1)) :=
    ⟨12, by decide +kernel⟩
  have hranges : (fdtGetprop (ramBlob 1 1 [0x4000, 0x10]) 80 (some rangesName)).Returns none :=
    ⟨12, by decide +kernel⟩
  have hparent : (fdtParentOffset (ramBlob 1 1 [0x4000, 0x10]) 80).Returns 40 :=
    ⟨12, by decide +kernel⟩
  have hroot : (fdtParentOffset (ramBlob 1 1 [0x4000, 0x10]) 40).Returns fdtErrNode :=
    ⟨12, by decide +kernel⟩
  have hfirst : (fdtFirstChild (ramBlob 1 1 [0x4000, 0x10]) 40).Returns 80 :=
    ⟨12, by decide +kernel⟩
  have hnext : (fdtNextSibling (ramBlob 1 1 [0x4000, 0x10]) 40 80).Returns fdtErrNode :=
    ⟨12, by decide +kernel⟩
  have hs : offOf (ctxOf (ramBlob 1 1 [0x4000, 0x10])).s = 40 := by decide +kernel
  obtain ⟨hreg, hmemory⟩ := cell_reads_iff (ramBlob 1 1 [0x4000, 0x10]) 162 hvalid
  refine ⟨hvalid, (hreg 80 0 (by decide)).mpr ?_, (hmemory _ 4).mpr ?_⟩
  · intro reg len ac sc hac _ _
    obtain ⟨rfl, rfl⟩ := Prod.mk.inj (Option.some.inj (hcells.unique hac))
    refine ⟨by decide, Or.inl (by decide), fun cur base hreach => ?_⟩
    rcases climbs_from_child hparent hroot hreach with heq | heq
    · obtain rfl : cur = 80 := heq
      intro parent v rlen i k _ _ hsome
      exact absurd (hranges.unique hsome) (by simp)
    · obtain rfl : cur = 40 := heq
      intro parent v rlen i k hup hnonneg
      obtain rfl := hroot.unique hup
      exact absurd hnonneg (by decide)
  · intro _ _ first ch reg count len ac sc i hfirst' hreach hch hram _ _
    rw [hs] at hfirst' hreach
    obtain rfl := hfirst.unique hfirst'
    obtain rfl : ch = 80 := (memorySteps_from_last hnext hreach).resolve_right hch
    obtain ⟨rfl, rfl⟩ := Prod.mk.inj (Option.some.inj (hcells.unique hram.cells))
    exact Or.inl (by decide)

/-- The last index is not refused, and neither is a count that makes the entries of a value
smaller than their field. -/
theorem ramBlob_reads_outside :
    ((fdtValid (ramBlob 1 1 [0x4000, 0x10]) 162).value = true ∧
      (fdtRegToCpuAddr (ramBlob 1 1 [0x4000, 0x10]) 80 (2 ^ 32 - 1)).Performs
        (.cells 104 8 (104 + (2 ^ 32 - 1) * 8)) ∧
      ¬ InValue (.cells 104 8 (104 + (2 ^ 32 - 1) * 8))) ∧
    (fdtValid (ramBlob 0x40000001 0 [0x4000]) 158).value = true ∧
      (fdtMemoryRanges (ramBlob 0x40000001 0 [0x4000]) (fun _ => ⟨0, 0⟩) 4).Performs
        (.cells 104 4 (104 + 4)) ∧
      ¬ InValue (.cells 104 4 (104 + 4)) := by
  refine ⟨⟨by decide +kernel, ⟨12, by decide +kernel⟩, ?_⟩, by decide +kernel,
    ⟨12, by decide +kernel⟩, ?_⟩
  · rintro ⟨-, hlt⟩
    exact absurd hlt (by decide)
  · rintro ⟨-, hlt⟩
    exact absurd hlt (by decide)

end Fdt
end Saski
