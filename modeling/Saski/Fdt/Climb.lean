import Saski.Fdt.CellReads
import Saski.Fdt.ReadSafety

/-!
# Every way up ends (`lib/fdt.c`)

`fdt_parent_cells` and `fdt_reg_to_cpu_addr` go from a node to its parent until there is
none.  Nothing is assumed of the structure block here, only that the offsets fit an `int`.

* `fdt_parent_offset` keeps the offsets of the nodes it has passed, and returns one of
  them (`passed_of_step`, `slot_of_returns`).  So the parent is in front of the node.
* The loops go to smaller offsets, and what they do on the way returns.
-/

namespace Saski
namespace Fdt

open Capnp Logged Prog Relation

/-- The walk of `fdt_parent_offset` at its start: nothing has been stored yet. -/
def ParentWalk.start (c : Ctx) : ParentWalk := ⟨c.s, -1, fun _ => none⟩

/-- The walk to `n` comes to a state in which `p` is stored for the node around. -/
def StoredByWalk (c : Ctx) (n p : Int) : Prop :=
  ∃ w, ReflTransGen (Step (parentBody c n)) (.start c) w ∧ w.stack w.depth = some p

/-- What is stored are offsets in the block, in front of the place the walk has come to. -/
def Passed (c : Ctx) (w : ParentWalk) : Prop :=
  ∀ i v, w.stack i = some v → c.s ≤ v ∧ v < w.p

section Parent

variable {blob : Buffer} {c : Ctx} {n : Int} {w w' : ParentWalk}

theorem passed_start (c : Ctx) : Passed c (.start c) := by
  intro i v h
  simp [ParentWalk.start] at h

theorem Passed.forward {q depth : Int} (hw : Passed c w) (hq : w.p ≤ q) :
    Passed c ⟨q, depth, w.stack⟩ := by
  intro i v hv
  obtain ⟨hs, hlt⟩ := hw i v hv
  exact ⟨hs, hlt.trans_le hq⟩

theorem passed_of_step (h : SmallBlob blob c) (hstep : Step (parentBody c n) w w')
    (hw : Passed c w) : Passed c w' := by
  have heq := (returns_parentBody h.toHeader fun width htoken =>
    ne_of_step_parentBody hstep htoken).unique hstep
  cases htoken : tokenAt c w.p with
  | node width =>
      have hwidth := four_le_node htoken
      have hok := ok_of_tokenAt (show tokenAt c w.p ≠ .stop by simp [htoken])
      rw [htoken, h.offOf_token hok] at heq
      obtain rfl := Sum.inl.inj heq
      intro i v hv
      by_cases hstore : w.depth + 1 < fdtMaxDepth ∧ i = w.depth + 1
      · obtain rfl : w.p = v := by simpa [hstore.1, hstore.2] using hv
        exact ⟨hok.1, by simp only; omega⟩
      · have hold : w.stack i = some v := by
          by_cases hcap : w.depth + 1 < fdtMaxDepth
          · have hi : i ≠ w.depth + 1 := fun hi => hstore ⟨hcap, hi⟩
            simpa [hcap, hi] using hv
          · simpa [hcap] using hv
        obtain ⟨hs, hlt⟩ := hw i v hold
        exact ⟨hs, by simp only; omega⟩
  | close =>
      simp only [htoken] at heq
      split at heq
      case isTrue => exact absurd heq (by simp)
      case isFalse =>
        obtain rfl := Sum.inl.inj heq
        exact hw.forward (by omega)
  | prop width =>
      have hwidth := four_le_prop htoken
      rw [htoken] at heq
      obtain rfl := Sum.inl.inj heq
      exact hw.forward (by omega)
  | nop =>
      rw [htoken] at heq
      obtain rfl := Sum.inl.inj heq
      exact hw.forward (by omega)
  | cutNode => simp [htoken] at heq
  | stop => simp [htoken] at heq

/-- A slot that was not stored is never read. -/
theorem stored_of_returns_slot {stack : Int → Option Int} {i v : Int}
    (h : (slot stack i).Returns v) : stack i = some v := by
  unfold slot at h
  cases hslot : stack i with
  | none => simp [hslot] at h
  | some x =>
      rw [hslot] at h
      exact congrArg some ((returns_pure _ _).mp h)

/-- The walk ends without a parent, or at the node asked for with the offset that is stored
for the node around it. -/
theorem slot_of_returns (h : SmallBlob blob c) {v : Int}
    (hr : (parentBody c n w).Returns (.inr v)) :
    v = fdtErrNode ∨ (w.p = n ∧ w.stack w.depth = some v) := by
  by_cases htarget : (∃ width, tokenAt c w.p = .node width) ∧ offOf w.p = n
  · obtain ⟨⟨width, htoken⟩, hn⟩ := htarget
    obtain ⟨hok, hbegin, k, hname, -⟩ := tokenAt_eq_node_iff.mp htoken
    rw [h.offOf_token hok] at hn
    subst hn
    unfold parentBody at hr
    simp only [hok, not_true_eq_false, if_false, returns_rdBe32, hbegin, if_true,
      h.offOf_token hok] at hr
    rw [returns_bind_of (returns_nodeName c (w.p + 4)), hname] at hr
    simp only at hr
    split at hr
    case isTrue => exact Or.inl (Sum.inr.inj ((returns_pure _ _).mp hr)).symm
    case isFalse =>
      obtain ⟨a, hslot, ha⟩ := (returns_bind _ _ _).mp hr
      obtain rfl := Sum.inr.inj ((returns_pure _ _).mp ha)
      have hread := stored_of_returns_slot hslot
      -- The slot of the parent is not the one that has just been written.
      rw [show w.depth + 1 - 1 = w.depth by omega] at hread
      refine Or.inr ⟨rfl, ?_⟩
      split at hread
      case isTrue => rwa [Function.update_of_ne (by omega)] at hread
      case isFalse => exact hread
  · have heq := (returns_parentBody h.toHeader (n := n) (w := w) fun width htoken hn =>
      htarget ⟨⟨width, htoken⟩, hn⟩).unique hr
    left
    cases htoken : tokenAt c w.p with
    | node width => simp [htoken] at heq
    | close =>
        simp only [htoken] at heq
        split at heq
        case isTrue => exact (Sum.inr.inj heq).symm
        case isFalse => exact absurd heq (by simp)
    | prop width => simp [htoken] at heq
    | nop => simp [htoken] at heq
    | cutNode =>
        rw [htoken] at heq
        exact (Sum.inr.inj heq).symm
    | stop =>
        rw [htoken] at heq
        exact (Sum.inr.inj heq).symm

end Parent

/-- `fdt_parent_offset` returns, and a parent that it finds is in front of the node and was
stored by the walk. -/
theorem exists_parent {blob : Buffer} {c : Ctx} (h : SmallBlob blob c) (n : Int) :
    ∃ p, (fdtParentOffset blob n).Returns p ∧
      (p = fdtErrNode ∨ (0 ≤ p ∧ p < n ∧ StoredByWalk c n p)) := by
  have hr := returns_fdtParentOffset h n
  refine ⟨_, hr, ?_⟩
  unfold fdtParentOffset at hr
  rw [returns_ctxInit h] at hr
  obtain ⟨w, ⟨hreach, hw⟩, hdone⟩ := exists_of_returns_loop
    (fun w => ReflTransGen (Step (parentBody c n)) (.start c) w ∧ Passed c w)
    ⟨.refl, passed_start c⟩ (fun w w' hw hstep => ⟨hw.1.tail hstep, passed_of_step h hstep hw.2⟩)
    hr
  rcases slot_of_returns h hdone with herr | ⟨rfl, hslot⟩
  · exact Or.inl herr
  · obtain ⟨hs, hlt⟩ := hw _ _ hslot
    exact Or.inr ⟨h.s_nonneg.trans hs, hlt, w, hreach, hslot⟩

/-! ## The loops -/

section Loops

variable {blob : Buffer} {c : Ctx}

theorem exists_ownCells (h : Header blob c) (n : Int) (name : CString) :
    ∃ r, (ownCells blob n name).Returns r := by
  obtain ⟨value, hvalue, -⟩ := returns_fdtGetprop h n name
  unfold ownCells
  simp only [returns_bind_of hvalue]
  cases value with
  | none => exact ⟨none, (returns_pure _ _).mpr rfl⟩
  | some value =>
      by_cases hlen : value.2 < 4
      · exact ⟨none, by simp [hlen]⟩
      · exact ⟨some (be32 blob.bytes value.1), by simp [hlen]⟩

theorem exists_findCells (h : Header blob c) (n : Int) (name : CString) (found : Option Nat) :
    ∃ r, (findCells blob n name found).Returns r := by
  cases found with
  | none => exact exists_ownCells h n name
  | some v => exact ⟨some v, (returns_pure _ _).mpr rfl⟩

variable (h : SmallBlob blob c)

include h

/-- The loop of `fdt_parent_cells` ends, wherever it starts. -/
theorem exists_cellsLoop (cur : Int) (ac sc : Option Nat) :
    ∃ r, (loop (cellsBody blob) (cur, ac, sc)).Returns r := by
  apply exists_returns_loop (fun _ => True) (fun s => (s.1 + 1).toNat) _ trivial
  rintro ⟨cur, ac, sc⟩ -
  by_cases hcur : cur < 0
  · exact Or.inl ⟨_, by rw [cellsBody, if_pos hcur, returns_pure]⟩
  obtain ⟨ac', hac⟩ := exists_findCells h.toHeader cur addressCellsName ac
  obtain ⟨sc', hsc⟩ := exists_findCells h.toHeader cur sizeCellsName sc
  obtain ⟨parent, hparent, hup⟩ := exists_parent h cur
  by_cases hboth : ac'.isSome ∧ sc'.isSome
  · refine Or.inl ⟨(ac'.getD 2, sc'.getD 2), ?_⟩
    rw [cellsBody, if_neg hcur, returns_bind_of hac, returns_bind_of hsc, if_pos hboth,
      returns_pure]
  · refine Or.inr ⟨(parent, ac', sc'), ?_, trivial, ?_⟩
    · unfold Step
      rw [cellsBody, if_neg hcur, returns_bind_of hac, returns_bind_of hsc, if_neg hboth,
        returns_bind_of hparent, returns_pure]
    · -- The parent is in front of the node, or there is none.
      change (parent + 1).toNat < (cur + 1).toNat
      rcases hup with rfl | ⟨hnonneg, hlt, -⟩
      · rw [fdtErrNode]
        omega
      · omega

theorem exists_fdtParentCells (n : Int) : ∃ r, (fdtParentCells blob n).Returns r := by
  obtain ⟨parent, hparent, -⟩ := exists_parent h n
  obtain ⟨cells, hcells⟩ := exists_cellsLoop h parent none none
  refine ⟨some cells, ?_⟩
  unfold fdtParentCells
  rw [returns_ctxInit h]
  simp only
  rw [returns_bind_of hparent, returns_bind_of hcells, returns_pure]

theorem exists_rangeCells (n : Int) : ∃ r, (rangeCells blob n).Returns r := by
  obtain ⟨cells, hcells⟩ := exists_fdtParentCells h n
  obtain ⟨ac, hac⟩ := exists_ownCells h.toHeader n addressCellsName
  obtain ⟨sc, hsc⟩ := exists_ownCells h.toHeader n sizeCellsName
  unfold rangeCells
  simp only [returns_bind_of hcells]
  cases cells with
  | none => exact ⟨none, (returns_pure _ _).mpr rfl⟩
  | some cells =>
      simp only [returns_bind_of hac, returns_bind_of hsc]
      exact ⟨_, (returns_pure _ _).mpr rfl⟩

/-- An iteration of the loop of `fdt_reg_to_cpu_addr` ends it, or climbs. -/
theorem exists_mapBody (s : Int × Nat) :
    (∃ r, (mapBody blob s).Returns (.inr r)) ∨ ∃ s', Climbs blob s s' := by
  obtain ⟨next, hnext⟩ : ∃ next, (mapBody blob s).Returns next := by
    obtain ⟨cur, base⟩ := s
    obtain ⟨parent, hparent, -⟩ := exists_parent h cur
    obtain ⟨value, hvalue, -⟩ := returns_fdtGetprop h.toHeader cur rangesName
    obtain ⟨cells, hcells⟩ := exists_rangeCells h cur
    simp only [mapBody, returns_walk_of hparent]
    by_cases htop : parent < 0
    · simp only [if_pos htop, returns_pure, exists_eq']
    simp only [if_neg htop, returns_walk_of hvalue]
    cases value with
    | none => exact ⟨_, (returns_pure _ _).mpr rfl⟩
    | some value =>
        by_cases hempty : value.2 = 0
        · simp only [if_pos hempty, returns_pure, exists_eq']
        simp only [if_neg hempty, returns_walk_of hcells]
        cases cells with
        | none => exact ⟨_, (returns_pure _ _).mpr rfl⟩
        | some k =>
            by_cases hrentry : k.rentry = 0
            · simp only [if_pos hrentry, returns_pure, exists_eq']
            simp only [if_neg hrentry, returns_bind_of (returns_windowLoop _ _ _ _ _)]
            cases throughWindows (windowsAt blob.bytes value.1 value.2 k) base with
            | none => exact ⟨_, (returns_pure _ _).mpr rfl⟩
            | some base' =>
                by_cases hroot : parent = 0
                · simp only [if_pos hroot, returns_pure, exists_eq']
                · simp only [if_neg hroot, returns_pure, exists_eq']
  cases next with
  | inl s' => exact Or.inr ⟨s', climbs_of_step hnext⟩
  | inr r => exact Or.inl ⟨r, hnext⟩

/-- The loop of `fdt_reg_to_cpu_addr` ends, wherever it starts. -/
theorem exists_mapLoop (s : Int × Nat) : ∃ r, (loop (mapBody blob) s).Returns r := by
  apply exists_returns_loop (fun _ => True) (fun s => s.1.toNat) _ trivial
  rintro s -
  rcases exists_mapBody h s with hdone | ⟨s', hclimb⟩
  · exact Or.inl hdone
  · obtain ⟨hparent, hnonneg⟩ := hclimb.parent
    obtain ⟨p, hp, hup⟩ := exists_parent h s.1
    obtain rfl := hp.unique hparent
    refine Or.inr ⟨s', step_of_climbs hclimb, trivial, ?_⟩
    rcases hup with herr | ⟨-, hlt, -⟩
    · rw [fdtErrNode] at herr
      omega
    · omega

theorem exists_fdtRegToCpuAddr (n : Int) (index : Nat) :
    ∃ r, (fdtRegToCpuAddr blob n index).Returns r := by
  have hctx : (lift (ctxInit blob)).Returns (some c) := by
    rw [← (value_ctxInit blob c).mpr h.toHeader]
    exact returns_lift_value _
  obtain ⟨cells, hcells⟩ := exists_fdtParentCells h n
  obtain ⟨value, hvalue, -⟩ := returns_fdtGetprop h.toHeader n regName
  unfold fdtRegToCpuAddr
  simp only [returns_walk_of hctx, returns_walk_of hcells]
  cases cells with
  | none => exact ⟨_, (returns_pure _ _).mpr rfl⟩
  | some cells =>
      simp only [returns_walk_of hvalue]
      cases value with
      | none => exact ⟨_, (returns_pure _ _).mpr rfl⟩
      | some value =>
          by_cases hentry : EntryExists value.2 cells.1 cells.2 index
          · simp only [hentry, not_true_eq_false, if_false, returns_liftM_bind]
            obtain ⟨r, hr⟩ := exists_mapLoop h
              (n, (rdEntry blob.bytes value.1 value.2 cells.1 cells.2 index).value.base)
            simp only [returns_bind_of hr]
            cases r with
            | none => exact ⟨_, (returns_pure _ _).mpr rfl⟩
            | some base => exact ⟨_, (returns_pure _ _).mpr rfl⟩
          · simp only [hentry, not_false_eq_true, if_true, returns_pure, exists_eq']

end Loops

/-- **Every way up ends**, on every blob that `fdt_valid` accepts and whose offsets are node
offsets. -/
theorem climbs_end (blob : Buffer) (size : Nat) (hvalid : (fdtValid blob size).value = true)
    (hsmall : be32 blob.bytes 4 < 2 ^ 31) (n : Int) :
    (∃ p, (fdtParentOffset blob n).Returns p ∧
      (p = fdtErrNode ∨ (0 ≤ p ∧ p < n ∧ StoredByWalk (ctxOf blob) n p))) ∧
    (∃ r, (fdtParentCells blob n).Returns r) ∧
    ∀ index, ∃ r, (fdtRegToCpuAddr blob n index).Returns r := by
  have h := smallBlob_of_fdtValid hvalid hsmall
  exact ⟨exists_parent h n, exists_fdtParentCells h n, exists_fdtRegToCpuAddr h n⟩

/-- A block that ends inside its second node. -/
def unclosedBlob : Buffer :=
  blobOf (wordBytes fdtBeginNode ++ [0, 0, 0, 0] ++ wordBytes fdtBeginNode ++ [97, 0, 0, 0]) []

/-- The way up from the second node. -/
theorem unclosedBlob_climbs :
    (fdtValid unclosedBlob 56).value = true ∧
    (∃ p, (fdtParentOffset unclosedBlob 48).Returns p ∧
      (p = fdtErrNode ∨ (0 ≤ p ∧ p < 48 ∧ StoredByWalk (ctxOf unclosedBlob) 48 p))) ∧
    ∃ r, (fdtRegToCpuAddr unclosedBlob 48 0).Returns r := by
  have hvalid : (fdtValid unclosedBlob 56).value = true := by decide +kernel
  obtain ⟨hparent, -, hreg⟩ := climbs_end unclosedBlob 56 hvalid (by decide +kernel) 48
  exact ⟨hvalid, hparent, hreg 0⟩

end Fdt
end Saski
