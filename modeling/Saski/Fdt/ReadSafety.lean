import Saski.Fdt.Property
import Saski.Fdt.Iterator

/-!
# Reads of the structure block

Every walk tests that the four bytes of a token are there before it reads them.  The
header of a property is another eight bytes, and here the walks differ: `skip_node`
tests all of it, `fdt_first_child` and `fdt_parent_offset` read the length without a
test, and `fdt_getprop` tests four bytes too few for the name offset.

So a walk leaves the structure block exactly if it can come to a property whose header
the end of the block cuts off.  `HeadersWhole` says that none can, and
`struct_reads_in_block_iff` that this is what safety of all walks comes to.
-/

namespace Saski
namespace Fdt

open Capnp Logged Prog

/-- A byte read for a token, a name or a property header lies in the structure block,
and in the buffer. -/
def InBlock (blob : Buffer) (size : Nat) : Access → Prop
  | .struct i => (ctxOf blob).s ≤ i ∧ i < (ctxOf blob).send ∧ 0 ≤ i ∧ i < size
  | _ => True

/-- The values of a C `int`. -/
def IsInt (n : Int) : Prop := -2 ^ 31 ≤ n ∧ n < 2 ^ 31

/-! ## Where the walks come to -/

/-- One token of the walk from the root, with the number of open nodes.  It ends where
the root closes. -/
inductive Advances (c : Ctx) : Int × Nat → Int × Nat → Prop
  | node {p : Int} {d w : Nat} (h : tokenAt c p = .node w) : Advances c (p, d) (p + w, d + 1)
  | close {p : Int} {d : Nat} (h : tokenAt c p = .close) : Advances c (p, d + 2) (p + 4, d + 1)
  | prop {p : Int} {d w : Nat} (h : tokenAt c p = .prop w) : Advances c (p, d) (p + w, d)
  | nop {p : Int} {d : Nat} (h : tokenAt c p = .nop) : Advances c (p, d) (p + 4, d)

/-- One property or NOP. -/
inductive Passes (c : Ctx) : Int → Int → Prop
  | prop {p : Int} {w : Nat} (h : tokenAt c p = .prop w) : Passes c p (p + w)
  | nop {p : Int} (h : tokenAt c p = .nop) : Passes c p (p + 4)

/-- One NOP, or one property whose name offset lies in the strings block. -/
inductive PassesNamed (c : Ctx) : Int → Int → Prop
  | prop {p pn : Int} {w : Nat} (h : tokenAt c p = .prop w)
      (hname : strAt c (be32 c.base (p + 8)) = some pn) : PassesNamed c p (p + w)
  | nop {p : Int} (h : tokenAt c p = .nop) : PassesNamed c p (p + 4)

/-- A property token with at least `lo` and less than `hi` bytes of the block left. -/
def CutProperty (c : Ctx) (lo hi : Nat) (p : Int) : Prop :=
  ok c p lo ∧ be32 c.base p = fdtProp ∧ ¬ ok c p hi

/-- No walk comes to a property whose header is cut off where the walk does not look. -/
structure HeadersWhole (c : Ctx) : Prop where
  parent : ∀ p d, Relation.ReflTransGen (Advances c) (c.s, 0) (p, d) → ¬ CutProperty c 4 8 p
  firstChild : ∀ n w p, IsInt n → tokenAt c n = .node w →
    Relation.ReflTransGen (Passes c) (n + w) p → ¬ CutProperty c 4 8 p
  getprop : ∀ n w p, IsInt n → tokenAt c n = .node w →
    Relation.ReflTransGen (PassesNamed c) (n + w) p → ¬ CutProperty c 8 12 p

/-! ## The walks that test everything -/

section Safe

variable {blob : Buffer} {c : Ctx} {size : Nat}

/-- `ctx_init` reads the header only. -/
theorem logs_ctxInit {P : Access → Prop} (hP : ∀ i, P (.header i)) : Logs P (ctxInit blob) := by
  have logs_header : ∀ p, Logs P (rdBe32 .header blob.bytes p) := fun p => by
    apply logs_withLog
    simp [hP]
  unfold ctxInit
  apply logs_unless
  intro _
  refine logs_bind (logs_header 0) (logs_unless fun _ => ?_)
  refine logs_bind (logs_header 4) (logs_bind (logs_header 8) (logs_bind (logs_header 12)
    (logs_bind (logs_header 32) (logs_bind (logs_header 36) ?_))))
  apply logs_unless
  intro _
  exact logs_unless fun _ => logs_pure _ _

variable (h : Header blob c) (hsize : be32 blob.bytes 4 ≤ size)

include h hsize

theorem inBlock_of_ok {p : Int} {n : Nat} (hok : ok c p n) {i : Int} (hp : p ≤ i) (hi : i < p + n) :
    InBlock blob size (.struct i) := by
  have hs := h.s_nonneg
  have hle := h.struct_le
  obtain ⟨hstart, -, hend⟩ := hok
  unfold InBlock
  rw [← h.eq_ctxOf]
  omega

/-- A word of the block, and what follows. -/
theorem reads_word {β : Type} {p : Int} (hok : ok c p 4) {k : Nat → Prog Access β}
    (hk : Reads (InBlock blob size) (k (be32 c.base p))) :
    Reads (InBlock blob size)
      ((liftM (rdBe32 .struct c.base p) : Prog Access Nat) >>= k) := by
  refine reads_liftM_bind (logs_withLog _ ?_) hk
  intro e he
  simp only [List.mem_cons, List.not_mem_nil, or_false] at he
  rcases he with rfl | rfl | rfl | rfl
  · exact inBlock_of_ok h hsize hok (by omega) (by omega)
  · exact inBlock_of_ok h hsize hok (by omega) (by omega)
  · exact inBlock_of_ok h hsize hok (by omega) (by omega)
  · exact inBlock_of_ok h hsize hok (by omega) (by omega)

theorem reads_nodeName (p : Int) : Reads (InBlock blob size) (nodeName c p) := by
  unfold nodeName
  refine reads_bind ?_ fun n _ => reads_unless fun _ => reads_pure _ _
  refine reads_loop (fun _ => True) trivial (fun n _ => ?_) fun _ _ _ _ => trivial
  unfold nameBody
  refine reads_ite (fun hok => ?_) fun _ => reads_pure _ _
  refine reads_liftM_bind (logs_withLog _ ?_)
    (reads_unless fun _ => reads_pure _ _)
  intro e he
  obtain rfl := List.mem_singleton.mp he
  exact inBlock_of_ok h hsize hok le_rfl (by omega)

theorem reads_skipBody (s : Int × Int) : Reads (InBlock blob size) (skipBody c s) := by
  obtain ⟨p, d⟩ := s
  unfold skipBody
  apply reads_unless
  intro hok
  refine reads_word h hsize (not_not.mp hok) ?_
  refine reads_ite (fun _ => ?_) fun _ => ?_
  · refine reads_bind (reads_nodeName h hsize _) fun r _ => ?_
    cases r with
    | none => exact reads_pure _ _
    | some n => exact reads_pure _ _
  refine reads_ite (fun _ => ?_) fun _ => ?_
  · exact reads_unless fun _ => reads_pure _ _
  refine reads_ite (fun _ => ?_) fun _ => ?_
  · apply reads_unless
    intro hheader
    obtain ⟨hstart, hend, hfits⟩ := not_not.mp hheader
    refine reads_word h hsize ⟨hstart, hend, by omega⟩ ?_
    exact reads_unless fun _ => reads_pure _ _
  exact reads_unless fun _ => reads_pure _ _

theorem reads_skipNode (n : Int) : Reads (InBlock blob size) (skipNode c n) :=
  reads_loop (fun _ => True) trivial (fun s _ => reads_skipBody h hsize s) fun _ _ _ _ => trivial

theorem reads_afterName (n : Int) : Reads (InBlock blob size) (afterName c n) := by
  unfold afterName
  apply reads_unless
  intro hok
  refine reads_word h hsize (not_not.mp hok) ?_
  apply reads_unless
  intro _
  refine reads_bind (reads_nodeName h hsize _) fun r _ => ?_
  cases r with
  | none => exact reads_pure _ _
  | some n => exact reads_pure _ _

theorem reads_siblingLoop (p : Int) : Reads (InBlock blob size) (loop (siblingBody c) p) := by
  refine reads_loop (fun _ => True) trivial (fun p _ => ?_) fun _ _ _ _ => trivial
  unfold siblingBody
  apply reads_unless
  intro hok
  refine reads_word h hsize (not_not.mp hok) ?_
  apply reads_unless
  intro _
  apply reads_unless
  intro _
  exact reads_unless fun _ => reads_pure _ _

end Safe

/-! ## The steps of the other walks -/

theorem node_of_afterName {c : Ctx} {n p : Int} (h : (afterName c n).Returns (some p)) :
    ∃ w : Nat, tokenAt c n = .node w ∧ p = n + w := by
  have heq := (returns_afterName c n).unique h
  cases htoken : tokenAt c n with
  | node w =>
      rw [htoken] at heq
      exact ⟨w, rfl, (Option.some.inj heq).symm⟩
  | cutNode => simp [htoken] at heq
  | close => simp [htoken] at heq
  | prop w => simp [htoken] at heq
  | nop => simp [htoken] at heq
  | stop => simp [htoken] at heq

section Steps

variable {blob : Buffer} {c : Ctx} (h : Header blob c)

include h

theorem passes_of_step {p q : Int} (hstep : Step (firstChildBody c) p q) : Passes c p q := by
  have heq := (returns_firstChildBody h p).unique hstep
  cases htoken : tokenAt c p with
  | prop w =>
      rw [htoken] at heq
      obtain rfl := Sum.inl.inj heq
      exact Passes.prop htoken
  | nop =>
      rw [htoken] at heq
      obtain rfl := Sum.inl.inj heq
      exact Passes.nop htoken
  | node w => simp [htoken] at heq
  | cutNode => simp [htoken] at heq
  | close => simp [htoken] at heq
  | stop => simp [htoken] at heq

theorem step_of_passes {p q : Int} (hpass : Passes c p q) : Step (firstChildBody c) p q := by
  have hbody := returns_firstChildBody h p
  cases hpass with
  | prop htoken =>
      rw [htoken] at hbody
      exact hbody
  | nop htoken =>
      rw [htoken] at hbody
      exact hbody

theorem passesNamed_of_step {name : CString} {p q : Int} (hstep : Step (getpropBody c name) p q) :
    PassesNamed c p q := by
  have heq := (returns_getpropBody h name p).unique hstep
  cases htoken : tokenAt c p with
  | prop w =>
      simp only [htoken] at heq
      cases hname : strAt c (be32 c.base (p + 8)) with
      | none => simp [hname] at heq
      | some pn =>
          simp only [hname] at heq
          split at heq
          · exact absurd heq (by simp)
          · obtain rfl := Sum.inl.inj heq
            exact PassesNamed.prop htoken hname
  | nop =>
      rw [htoken] at heq
      obtain rfl := Sum.inl.inj heq
      exact PassesNamed.nop htoken
  | node w => simp [htoken] at heq
  | cutNode => simp [htoken] at heq
  | close => simp [htoken] at heq
  | stop => simp [htoken] at heq

omit h in
/-- At the node asked for, the walk of `fdt_parent_offset` ends. -/
theorem ne_of_step_parentBody {n : Int} {w w' : ParentWalk} (hstep : Step (parentBody c n) w w')
    {width : Nat} (htoken : tokenAt c w.p = .node width) : offOf w.p ≠ n := by
  intro hn
  obtain ⟨hok, hbegin, k, hname, -⟩ := tokenAt_eq_node_iff.mp htoken
  unfold Step parentBody at hstep
  simp only [hok, not_true_eq_false, if_false, returns_rdBe32, hbegin, if_true, hn] at hstep
  rw [returns_bind_of (returns_nodeName c (w.p + 4)), hname] at hstep
  simp only at hstep
  split at hstep
  · exact absurd ((returns_pure _ _).mp hstep) (by simp)
  · obtain ⟨a, -, ha⟩ := (returns_bind _ _ _).mp hstep
    exact absurd ((returns_pure _ _).mp ha) (by simp)

theorem advances_of_step {n : Int} {w w' : ParentWalk} (hstep : Step (parentBody c n) w w')
    {d : Nat} (hd : w.depth = d - 1) :
    ∃ d' : Nat, w'.depth = d' - 1 ∧ Advances c (w.p, d) (w'.p, d') := by
  have heq := (returns_parentBody h fun width htoken =>
    ne_of_step_parentBody hstep htoken).unique hstep
  cases htoken : tokenAt c w.p with
  | node width =>
      rw [htoken] at heq
      obtain rfl := Sum.inl.inj heq
      exact ⟨d + 1, by simp only [hd]; omega, Advances.node htoken⟩
  | close =>
      simp only [htoken] at heq
      split at heq
      case isTrue => exact absurd heq (by simp)
      case isFalse hopen =>
        obtain rfl := Sum.inl.inj heq
        obtain ⟨d, rfl⟩ : ∃ k, d = k + 2 := ⟨d - 2, by omega⟩
        exact ⟨d + 1, by simp only [hd]; omega, Advances.close htoken⟩
  | prop width =>
      rw [htoken] at heq
      obtain rfl := Sum.inl.inj heq
      exact ⟨d, hd, Advances.prop htoken⟩
  | nop =>
      rw [htoken] at heq
      obtain rfl := Sum.inl.inj heq
      exact ⟨d, hd, Advances.nop htoken⟩
  | cutNode => simp [htoken] at heq
  | stop => simp [htoken] at heq

/-- The walk that looks for no node makes every step. -/
theorem step_of_advances {w : ParentWalk} {d d' : Nat} {q : Int}
    (hadvance : Advances c (w.p, d) (q, d')) (hd : w.depth = d - 1) :
    ∃ w', Step (parentBody c fdtErrNode) w w' ∧ w'.p = q ∧ w'.depth = d' - 1 := by
  -- No offset is converted to `FDT_ERR_NODE`.
  have hne : ∀ width, tokenAt c w.p = .node width → offOf w.p ≠ fdtErrNode := by
    intro width htoken
    obtain ⟨hstart, -, hfits⟩ := (tokenAt_eq_node_iff.mp htoken).1
    have hs := h.s_nonneg
    have hsend := h.send_lt
    unfold offOf fdtErrNode
    rw [Int.bmod_def]
    split <;> omega
  have hbody := returns_parentBody h hne
  cases hadvance with
  | node htoken =>
      rw [htoken] at hbody
      exact ⟨_, hbody, rfl, by simp only [hd]; omega⟩
  | close htoken =>
      simp only [htoken] at hbody
      rw [if_neg (by omega)] at hbody
      exact ⟨_, hbody, rfl, by simp only [hd]; omega⟩
  | prop htoken =>
      rw [htoken] at hbody
      exact ⟨_, hbody, rfl, hd⟩
  | nop htoken =>
      rw [htoken] at hbody
      exact ⟨_, hbody, rfl, hd⟩

end Steps

/-! ## Whole headers are enough -/

section Whole

variable {blob : Buffer} {c : Ctx} {size : Nat} (h : Header blob c)
  (hsize : be32 blob.bytes 4 ≤ size) (hwhole : HeadersWhole c)

/-- The tests that a walk does make leave room for the word at `p + lo`. -/
theorem ok_of_not_cut {p : Int} {lo : Nat} (hok : ok c p lo) (hprop : be32 c.base p = fdtProp)
    (hcut : ¬ CutProperty c lo (lo + 4) p) : ok c (p + lo) 4 := by
  have hfits : ok c p (lo + 4) := by
    by_contra hnot
    exact hcut ⟨hok, hprop, hnot⟩
  obtain ⟨hstart, hend, hle⟩ := hfits
  push_cast at hle
  exact ⟨by omega, by omega, by omega⟩

theorem reads_slot (stack : Int → Option Int) (i : Int) :
    Reads (InBlock blob size) (slot stack i) := by
  intro e he
  unfold slot at he
  split at he
  · exact absurd he (not_performs_pure _ _)
  · exact absurd he (not_performs_stuck _)

include h hsize

theorem reads_parentBody (hwhole : HeadersWhole c) {n : Int} {w : ParentWalk} {d : Nat}
    (hreach : Relation.ReflTransGen (Advances c) (c.s, 0) (w.p, d)) :
    Reads (InBlock blob size) (parentBody c n w) := by
  unfold parentBody
  apply reads_unless
  intro hok
  rw [not_not] at hok
  refine reads_word h hsize hok ?_
  refine reads_ite (fun _ => ?_) fun _ => ?_
  · refine reads_bind (reads_nodeName h hsize _) fun r _ => ?_
    cases r with
    | none => exact reads_pure _ _
    | some k =>
        refine reads_ite (fun _ => ?_) fun _ => reads_pure _ _
        apply reads_unless
        intro _
        exact reads_bind (reads_slot _ _) fun _ _ => reads_pure _ _
  refine reads_ite (fun _ => ?_) fun _ => ?_
  · exact reads_unless fun _ => reads_pure _ _
  refine reads_ite (fun hprop => ?_) fun _ => ?_
  · refine reads_word h hsize (ok_of_not_cut hok hprop (hwhole.parent w.p d hreach)) ?_
    exact reads_unless fun _ => reads_pure _ _
  exact reads_unless fun _ => reads_pure _ _

theorem reads_firstChildBody {p : Int} (hcut : ¬ CutProperty c 4 8 p) :
    Reads (InBlock blob size) (firstChildBody c p) := by
  unfold firstChildBody
  apply reads_unless
  intro hok
  rw [not_not] at hok
  refine reads_word h hsize hok ?_
  apply reads_unless
  intro _
  apply reads_unless
  intro _
  refine reads_ite (fun hprop => ?_) fun _ => ?_
  · refine reads_word h hsize (ok_of_not_cut hok hprop hcut) ?_
    exact reads_unless fun _ => reads_pure _ _
  exact reads_unless fun _ => reads_pure _ _

omit h hsize in
theorem logs_strEq (bytes : Int → UInt8) (a : Int) (l : List UInt8) :
    Logs (InBlock blob size) (strEq .strings bytes a l) := by
  induction l generalizing a with
  | nil => exact logs_bind (logs_withLog _ (by simp [InBlock])) (logs_pure _ _)
  | cons y ys ih =>
      refine logs_bind (logs_withLog _ (by simp [InBlock])) ?_
      exact logs_ite (fun _ => ih (a + 1)) fun _ => logs_pure _ _

theorem reads_getpropBody {name : CString} {p : Int} (hcut : ¬ CutProperty c 8 12 p) :
    Reads (InBlock blob size) (getpropBody c name p) := by
  unfold getpropBody
  apply reads_unless
  intro hok
  rw [not_not] at hok
  refine reads_word h hsize hok ?_
  apply reads_unless
  intro _
  apply reads_unless
  intro _
  apply reads_unless
  intro hheader
  rw [not_or, not_not, not_not] at hheader
  obtain ⟨hprop, hheader⟩ := hheader
  have hlen : ok c (p + 4) 4 := by
    obtain ⟨hstart, hend, hle⟩ := hheader
    exact ⟨by omega, by omega, by omega⟩
  refine reads_word h hsize hlen ?_
  refine reads_word h hsize (ok_of_not_cut hheader hprop hcut) ?_
  apply reads_unless
  intro _
  cases strAt c (be32 c.base (p + 8)) with
  | none => exact reads_pure _ _
  | some pn =>
      refine reads_liftM_bind (logs_strEq _ _ _) ?_
      exact reads_unless fun _ => reads_pure _ _

omit hsize in
/-- A function that makes its context from the blob. -/
theorem reads_ctxInit {β : Type} {k : Option Ctx → Prog Access β}
    (hk : Reads (InBlock blob size) (k (some c))) :
    Reads (InBlock blob size) ((liftM (ctxInit blob) : Prog Access (Option Ctx)) >>= k) := by
  refine reads_liftM_bind (logs_ctxInit fun _ => trivial) ?_
  rw [(value_ctxInit blob c).mpr h]
  exact hk

include hwhole

theorem reads_fdtParentOffset (n : Int) : Reads (InBlock blob size) (fdtParentOffset blob n) := by
  unfold fdtParentOffset
  refine reads_ctxInit h ?_
  refine reads_loop (fun w => ∃ d : Nat, w.depth = d - 1 ∧
    Relation.ReflTransGen (Advances c) (c.s, 0) (w.p, d)) ⟨0, by simp, .refl⟩ ?_ ?_
  · rintro w ⟨d, -, hreach⟩
    exact reads_parentBody h hsize hwhole hreach
  · rintro w w' ⟨d, hd, hreach⟩ hstep
    obtain ⟨d', hd', hadvance⟩ := advances_of_step h hstep hd
    exact ⟨d', hd', hreach.tail hadvance⟩

theorem reads_fdtNextSibling (parent n : Int) :
    Reads (InBlock blob size) (fdtNextSibling blob parent n) := by
  unfold fdtNextSibling
  refine reads_ctxInit h ?_
  refine reads_bind (reads_fdtParentOffset h hsize hwhole n) fun r _ => ?_
  apply reads_unless
  intro _
  refine reads_bind (reads_skipNode h hsize n) fun e _ => ?_
  exact reads_unless fun _ => reads_siblingLoop h hsize e

theorem reads_fdtFirstChild {n : Int} (hn : IsInt n) :
    Reads (InBlock blob size) (fdtFirstChild blob n) := by
  unfold fdtFirstChild
  refine reads_ctxInit h ?_
  refine reads_bind (reads_afterName h hsize n) fun r hr => ?_
  cases r with
  | none => exact reads_pure _ _
  | some p =>
      obtain ⟨w, htoken, rfl⟩ := node_of_afterName hr
      refine reads_loop (Relation.ReflTransGen (Passes c) (n + w)) .refl ?_ ?_
      · intro p hreach
        exact reads_firstChildBody h hsize (hwhole.firstChild n w p hn htoken hreach)
      · intro p q hreach hstep
        exact hreach.tail (passes_of_step h hstep)

theorem reads_fdtGetprop {n : Int} (hn : IsInt n) (name : Option CString) :
    Reads (InBlock blob size) (fdtGetprop blob n name) := by
  cases name with
  | none => exact reads_pure _ _
  | some name =>
      unfold fdtGetprop
      refine reads_ctxInit h ?_
      refine reads_bind (reads_afterName h hsize n) fun r hr => ?_
      cases r with
      | none => exact reads_pure _ _
      | some p =>
          obtain ⟨w, htoken, rfl⟩ := node_of_afterName hr
          refine reads_loop (Relation.ReflTransGen (PassesNamed c) (n + w)) .refl ?_ ?_
          · intro p hreach
            exact reads_getpropBody h hsize (hwhole.getprop n w p hn htoken hreach)
          · intro p q hreach hstep
            exact hreach.tail (passesNamed_of_step h hstep)

end Whole

/-! ### Paths -/

theorem isInt_errNode : IsInt fdtErrNode := by
  unfold IsInt fdtErrNode
  omega

theorem isInt_offOf (p : Int) : IsInt (offOf p) := by
  unfold IsInt offOf
  have hle := Int.le_bmod (x := p) (m := 2 ^ 32) (by decide)
  have hlt := Int.bmod_lt (x := p) (m := 2 ^ 32) (by decide)
  omega

section Paths

variable {blob : Buffer} {c : Ctx} {size : Nat} (h : Header blob c)

include h

theorem isInt_of_firstChild {n r : Int} (hr : (fdtFirstChild blob n).Returns r) : IsInt r := by
  unfold fdtFirstChild at hr
  rw [returns_liftM_bind, (value_ctxInit blob c).mpr h] at hr
  obtain ⟨p, -, hr⟩ := (returns_bind _ _ _).mp hr
  cases p with
  | none =>
      obtain rfl := (returns_pure _ _).mp hr
      exact isInt_errNode
  | some p =>
      obtain ⟨q, -, hq⟩ :=
        exists_of_returns_loop (fun _ => True) trivial (fun _ _ _ _ => trivial) hr
      have heq := (returns_firstChildBody h q).unique hq
      cases htoken : tokenAt c q with
      | node w => exact Sum.inr.inj (htoken ▸ heq) ▸ isInt_offOf q
      | cutNode => exact Sum.inr.inj (htoken ▸ heq) ▸ isInt_offOf q
      | close => exact Sum.inr.inj (htoken ▸ heq) ▸ isInt_errNode
      | stop => exact Sum.inr.inj (htoken ▸ heq) ▸ isInt_errNode
      | prop w => simp [htoken] at heq
      | nop => simp [htoken] at heq

theorem isInt_of_nextSibling {parent n r : Int} (hr : (fdtNextSibling blob parent n).Returns r) :
    IsInt r := by
  unfold fdtNextSibling at hr
  rw [returns_liftM_bind, (value_ctxInit blob c).mpr h] at hr
  obtain ⟨p, -, hr⟩ := (returns_bind _ _ _).mp hr
  split at hr
  · obtain rfl := (returns_pure _ _).mp hr
    exact isInt_errNode
  obtain ⟨e, -, hr⟩ := (returns_bind _ _ _).mp hr
  split at hr
  · obtain rfl := (returns_pure _ _).mp hr
    exact isInt_errNode
  obtain ⟨q, -, hq⟩ := exists_of_returns_loop (fun _ => True) trivial (fun _ _ _ _ => trivial) hr
  have heq := (returns_siblingBody c q).unique hq
  cases htoken : tokenAt c q with
  | node w => exact Sum.inr.inj (htoken ▸ heq) ▸ isInt_offOf q
  | cutNode => exact Sum.inr.inj (htoken ▸ heq) ▸ isInt_offOf q
  | close => exact Sum.inr.inj (htoken ▸ heq) ▸ isInt_errNode
  | stop => exact Sum.inr.inj (htoken ▸ heq) ▸ isInt_errNode
  | prop w => exact Sum.inr.inj (htoken ▸ heq) ▸ isInt_errNode
  | nop => simp [htoken] at heq

variable (hsize : be32 blob.bytes 4 ≤ size)

include hsize

/-- The comparison of names stays inside the name. -/
theorem logs_nameEq {p : Int} {component : List UInt8} (hs : c.s ≤ p)
    (hfits : p + component.length ≤ c.send) :
    Logs (InBlock blob size) (nameEq c p component) := by
  induction component generalizing p with
  | nil => exact logs_pure _ _
  | cons y ys ih =>
      rw [List.length_cons] at hfits
      push_cast at hfits
      refine logs_bind (logs_withLog _ ?_) (logs_ite (fun _ => ih (by omega) (by omega))
        fun _ => logs_pure _ _)
      intro e he
      obtain rfl := List.mem_singleton.mp he
      have hok : ok c p 1 := ⟨hs, by omega, by omega⟩
      exact inBlock_of_ok h hsize hok le_rfl (by omega)

variable (hwhole : HeadersWhole c)

include hwhole

theorem reads_componentBody {cur ch : Int} {component : List UInt8} :
    Reads (InBlock blob size) (componentBody blob c cur component ch) := by
  unfold componentBody
  apply reads_unless
  intro _
  refine reads_bind (reads_nodeName h hsize _) fun r hr => ?_
  have hnext : Reads (InBlock blob size) (do
      let next ← fdtNextSibling blob cur ch
      pure (.inl next) : Prog Access (Int ⊕ Int)) :=
    reads_bind (reads_fdtNextSibling h hsize hwhole cur ch) fun _ _ => reads_pure _ _
  cases r with
  | none => exact reads_pure _ _
  | some n =>
      refine reads_ite (fun hlen => ?_) fun _ => hnext
      obtain ⟨hs, hlt, -⟩ := nameLen_eq_some_iff.mp ((returns_nodeName c (ch + 4)).unique hr)
      refine reads_liftM_bind (logs_nameEq h hsize hs (by omega)) ?_
      exact reads_unless fun _ => hnext

omit hsize hwhole in
theorem isInt_of_componentLoop {cur first r : Int} {component : List UInt8} (hfirst : IsInt first)
    (hr : (loop (componentBody blob c cur component) first).Returns r) : IsInt r := by
  have hbody : ∀ {ch : Int} {next : Int ⊕ Int}, IsInt ch →
      (componentBody blob c cur component ch).Returns next → next.elim IsInt IsInt := by
    intro ch next hch hnext
    unfold componentBody at hnext
    split at hnext
    · obtain rfl := (returns_pure _ _).mp hnext
      exact isInt_errNode
    obtain ⟨n, -, hnext⟩ := (returns_bind _ _ _).mp hnext
    have hsibling : ∀ {next : Int ⊕ Int}, (do
        let s ← fdtNextSibling blob cur ch
        pure (.inl s) : Prog Access (Int ⊕ Int)).Returns next → next.elim IsInt IsInt := by
      intro next hnext
      obtain ⟨s, hs, hnext⟩ := (returns_bind _ _ _).mp hnext
      obtain rfl := (returns_pure _ _).mp hnext
      exact isInt_of_nextSibling h hs
    cases n with
    | none =>
        obtain rfl := (returns_pure _ _).mp hnext
        exact isInt_errNode
    | some n =>
        simp only at hnext
        split at hnext
        · rw [returns_liftM_bind] at hnext
          split at hnext
          · obtain rfl := (returns_pure _ _).mp hnext
            exact hch
          · exact hsibling hnext
        · exact hsibling hnext
  obtain ⟨ch, hch, hdone⟩ := exists_of_returns_loop IsInt hfirst
    (fun ch ch' hch hstep => hbody hch hstep) hr
  exact hbody hch hdone

theorem reads_fdtPathOffset (path : Option CString) :
    Reads (InBlock blob size) (fdtPathOffset blob path) := by
  unfold fdtPathOffset
  refine reads_ctxInit h ?_
  cases path with
  | none => exact reads_pure _ _
  | some path =>
      apply reads_unless
      intro _
      apply reads_unless
      intro hok
      refine reads_word h hsize (not_not.mp hok) ?_
      apply reads_unless
      intro _
      apply reads_unless
      intro _
      refine reads_loop (fun s => IsInt s.1) (isInt_offOf _) ?_ ?_
      · rintro ⟨cur, p⟩ hcur
        unfold pathBody
        apply reads_unless
        intro _
        refine reads_bind (reads_fdtFirstChild h hsize hwhole hcur) fun first _ => ?_
        refine reads_bind (reads_loop (fun _ => True) trivial
          (fun _ _ => reads_componentBody h hsize hwhole) fun _ _ _ _ => trivial) fun found _ => ?_
        exact reads_unless fun _ => reads_pure _ _
      · rintro ⟨cur, p⟩ ⟨cur', p'⟩ - hstep
        rw [Step, pathBody] at hstep
        split at hstep
        · exact absurd ((returns_pure _ _).mp hstep) (by simp)
        obtain ⟨first, hfirst, hstep⟩ := (returns_bind _ _ _).mp hstep
        obtain ⟨found, hfound, hstep⟩ := (returns_bind _ _ _).mp hstep
        split at hstep
        · exact absurd ((returns_pure _ _).mp hstep) (by simp)
        · obtain ⟨rfl, -⟩ := Prod.mk.inj (Sum.inl.inj ((returns_pure _ _).mp hstep))
          exact isInt_of_componentLoop h (isInt_of_firstChild h hfirst) hfound

end Paths

/-! ## A header that is cut off is read -/

theorem performs_word {β : Type} (bytes : Int → UInt8) (p : Int) (k : Nat → Prog Access β)
    (e : Access) :
    ((liftM (rdBe32 .struct bytes p) : Prog Access Nat) >>= k).Performs e ↔
      e ∈ [Access.struct p, .struct (p + 1), .struct (p + 2), .struct (p + 3)] ∨
        (k (be32 bytes p)).Performs e :=
  performs_liftM_bind _ k e

theorem performs_parentBody {c : Ctx} {n : Int} {w : ParentWalk} (hok : ok c w.p 4)
    (hprop : be32 c.base w.p = fdtProp) :
    (parentBody c n w).Performs (.struct (w.p + 4 + 3)) := by
  unfold parentBody
  simp only [hok, not_true_eq_false, if_false]
  rw [performs_word]
  right
  rw [if_neg (by rw [hprop]; decide), if_neg (by rw [hprop]; decide), if_pos hprop, performs_word]
  left
  simp

theorem performs_firstChildBody {c : Ctx} {p : Int} (hok : ok c p 4)
    (hprop : be32 c.base p = fdtProp) : (firstChildBody c p).Performs (.struct (p + 4 + 3)) := by
  unfold firstChildBody
  simp only [hok, not_true_eq_false, if_false]
  rw [performs_word]
  right
  rw [if_neg (by rw [hprop]; decide), if_neg (by rw [hprop]; decide), if_pos hprop, performs_word]
  left
  simp

theorem performs_getpropBody {c : Ctx} {name : CString} {p : Int} (hok : ok c p 8)
    (hprop : be32 c.base p = fdtProp) : (getpropBody c name p).Performs (.struct (p + 8 + 3)) := by
  have hword : ok c p 4 := ⟨hok.1, hok.2.1, by have := hok.2.2; omega⟩
  unfold getpropBody
  simp only [hword, not_true_eq_false, if_false]
  rw [performs_word]
  right
  rw [if_neg (by rw [hprop]; decide), if_neg (by rw [hprop]; decide), if_neg (by simp [hprop, hok]),
    performs_word]
  right
  rw [performs_word]
  left
  simp

/-- The name of `k` times the same character. -/
def repeated (k : Nat) : CString where
  chars := List.replicate k 1
  noNul := by simp [List.mem_replicate]

/-- A place in the strings block holds at most one of these names. -/
theorem exists_unequal (bytes : Int → UInt8) (a : Int) :
    ∃ m, ∀ k, m ≤ k → (strEq .strings bytes a (repeated k).chars).value = false := by
  by_cases hsome : ∃ k, (strEq .strings bytes a (repeated k).chars).value = true
  · obtain ⟨k, hk⟩ := hsome
    have hend := ((value_strEq .strings bytes (repeated k).noNul a).mp hk).2
    rw [repeated, List.length_replicate] at hend
    refine ⟨k + 1, fun j hj => ?_⟩
    by_contra hne
    -- Where the name of length `k` ends, a longer one has a character.
    have hall := ((value_strEq .strings bytes (repeated j).noNul a).mp (by simpa using hne)).1
    have hone := hall k (by simp only [repeated, List.length_replicate]; omega)
    rw [hend] at hone
    simp only [repeated, List.getElem?_replicate] at hone
    rw [if_pos (by omega)] at hone
    exact absurd (Option.some.inj hone) (by decide)
  · exact ⟨0, fun k _ => by simpa using fun hk => hsome ⟨k, hk⟩⟩

/-- `fdt_getprop` with a name that none of the properties on the way has. -/
theorem exists_getprop_run {blob : Buffer} {c : Ctx} (h : Header blob c) {p q : Int}
    (hreach : Relation.ReflTransGen (PassesNamed c) p q) :
    ∃ m, ∀ k, m ≤ k → Relation.ReflTransGen (Step (getpropBody c (repeated k))) p q := by
  induction hreach with
  | refl => exact ⟨0, fun _ _ => .refl⟩
  | @tail q q' _ hpass ih =>
      obtain ⟨m, hm⟩ := ih
      cases hpass with
      | @prop pn w htoken hname =>
          obtain ⟨m', hm'⟩ := exists_unequal c.base pn
          refine ⟨max m m', fun k hk => (hm k (by omega)).tail ?_⟩
          have hbody := returns_getpropBody h (repeated k) q
          simp only [htoken, hname] at hbody
          rwa [if_neg (by simp [hm' k (by omega)])] at hbody
      | nop htoken =>
          refine ⟨m, fun k hk => (hm k hk).tail ?_⟩
          have hbody := returns_getpropBody h (repeated k) q
          rw [htoken] at hbody
          exact hbody

section Cut

variable {blob : Buffer} {c : Ctx} {size : Nat} (h : Header blob c)

include h

theorem not_inBlock_of_cut {p : Int} {lo : Nat} (hcut : CutProperty c lo (lo + 4) p) :
    ¬ InBlock blob size (.struct (p + lo + 3)) := by
  obtain ⟨⟨hstart, hend, hle⟩, -, hnot⟩ := hcut
  unfold InBlock
  rw [← h.eq_ctxOf]
  rintro ⟨-, hlt, -⟩
  exact hnot ⟨hstart, hend, by push_cast; omega⟩

theorem exists_parent_run {p : Int} {d : Nat}
    (hreach : Relation.ReflTransGen (Advances c) (c.s, 0) (p, d)) :
    ∃ w, Relation.ReflTransGen (Step (parentBody c fdtErrNode)) ⟨c.s, -1, fun _ => none⟩ w ∧
      w.p = p ∧ w.depth = d - 1 := by
  generalize hend : (p, d) = e at hreach
  induction hreach generalizing p d with
  | refl =>
      obtain ⟨rfl, rfl⟩ := Prod.mk.inj hend
      exact ⟨_, .refl, rfl, rfl⟩
  | @tail e e' _ hadvance ih =>
      obtain ⟨q, d₀⟩ := e
      obtain ⟨w, hrun, rfl, hdepth⟩ := ih rfl
      subst hend
      obtain ⟨w', hstep, hp, hd⟩ := step_of_advances h hadvance hdepth
      exact ⟨w', hrun.tail hstep, hp, hd⟩

theorem performs_fdtParentOffset {p : Int} {d : Nat}
    (hreach : Relation.ReflTransGen (Advances c) (c.s, 0) (p, d)) (hcut : CutProperty c 4 8 p) :
    (fdtParentOffset blob fdtErrNode).Performs (.struct (p + 4 + 3)) := by
  obtain ⟨w, hrun, rfl, -⟩ := exists_parent_run h hreach
  unfold fdtParentOffset
  rw [performs_liftM_bind, (value_ctxInit blob c).mpr h]
  exact Or.inr (performs_loop_of_reach hrun (performs_parentBody hcut.1 hcut.2.1))

theorem performs_fdtFirstChild {n p : Int} {w : Nat} (htoken : tokenAt c n = .node w)
    (hreach : Relation.ReflTransGen (Passes c) (n + w) p) (hcut : CutProperty c 4 8 p) :
    (fdtFirstChild blob n).Performs (.struct (p + 4 + 3)) := by
  have hrun : Relation.ReflTransGen (Step (firstChildBody c)) (n + w) p :=
    Relation.ReflTransGen.mono (fun _ _ => step_of_passes h) _ _ hreach
  have hafter := returns_afterName c n
  rw [htoken] at hafter
  unfold fdtFirstChild
  rw [performs_liftM_bind, (value_ctxInit blob c).mpr h]
  refine Or.inr ((performs_bind_of hafter _ _).mpr (Or.inr ?_))
  exact performs_loop_of_reach hrun (performs_firstChildBody hcut.1 hcut.2.1)

theorem performs_fdtGetprop {n p : Int} {w : Nat} (htoken : tokenAt c n = .node w)
    (hreach : Relation.ReflTransGen (PassesNamed c) (n + w) p) (hcut : CutProperty c 8 12 p) :
    ∃ name, (fdtGetprop blob n (some name)).Performs (.struct (p + 8 + 3)) := by
  obtain ⟨m, hm⟩ := exists_getprop_run h hreach
  have hafter := returns_afterName c n
  rw [htoken] at hafter
  refine ⟨repeated m, ?_⟩
  unfold fdtGetprop
  simp only
  rw [performs_liftM_bind, (value_ctxInit blob c).mpr h]
  refine Or.inr ((performs_bind_of hafter _ _).mpr (Or.inr ?_))
  exact performs_loop_of_reach (hm m le_rfl) (performs_getpropBody hcut.1 hcut.2.1)

end Cut

/-- **Reads of the structure block.**  All walks stay inside it, for all arguments,
exactly if no walk comes to a property whose header is cut off. -/
theorem struct_reads_in_block_iff (blob : Buffer) (size : Nat)
    (hvalid : (fdtValid blob size).value = true) :
    ((∀ n, IsInt n → Reads (InBlock blob size) (fdtFirstChild blob n)) ∧
      (∀ parent n, IsInt parent → IsInt n →
        Reads (InBlock blob size) (fdtNextSibling blob parent n)) ∧
      (∀ n, IsInt n → Reads (InBlock blob size) (fdtParentOffset blob n)) ∧
      (∀ n name, IsInt n → Reads (InBlock blob size) (fdtGetprop blob n name)) ∧
      ∀ path, Reads (InBlock blob size) (fdtPathOffset blob path)) ↔
    HeadersWhole (ctxOf blob) := by
  have h := header_of_fdtValid hvalid
  have hsize := ((value_fdtValid blob size).mp hvalid).2.1
  constructor
  · rintro ⟨hfirst, -, hparent, hgetprop, -⟩
    refine ⟨fun p d hreach hcut => ?_, fun n w p hn htoken hreach hcut => ?_,
      fun n w p hn htoken hreach hcut => ?_⟩
    · exact not_inBlock_of_cut h hcut
        (hparent fdtErrNode isInt_errNode _ (performs_fdtParentOffset h hreach hcut))
    · exact not_inBlock_of_cut h hcut
        (hfirst n hn _ (performs_fdtFirstChild h htoken hreach hcut))
    · obtain ⟨name, hname⟩ := performs_fdtGetprop h htoken hreach hcut
      exact not_inBlock_of_cut h hcut (hgetprop n (some name) hn _ hname)
  · intro hwhole
    exact ⟨fun n hn => reads_fdtFirstChild h hsize hwhole hn,
      fun parent n _ _ => reads_fdtNextSibling h hsize hwhole parent n,
      fun n _ => reads_fdtParentOffset h hsize hwhole n,
      fun n name hn => reads_fdtGetprop h hsize hwhole hn name,
      fun path => reads_fdtPathOffset h hsize hwhole path⟩

/-- In a blob without properties, no header can be cut off. -/
theorem twoChildren_reads_in_block :
    (fdtValid twoChildren 80).value = true ∧ HeadersWhole (ctxOf twoChildren) ∧
      Reads (InBlock twoChildren 80) (fdtFirstChild twoChildren 40) := by
  have hvalid : (fdtValid twoChildren 80).value = true := by decide +kernel
  have hnone : ∀ i : Fin 37, be32 (ctxOf twoChildren).base (40 + i) ≠ fdtProp := by decide +kernel
  have hcut : ∀ lo hi p, 4 ≤ lo → ¬ CutProperty (ctxOf twoChildren) lo hi p := by
    rintro lo hi p hlo ⟨⟨hstart, hend, hfits⟩, hprop, -⟩
    have hs : (ctxOf twoChildren).s = 40 := by decide +kernel
    have hsend : (ctxOf twoChildren).send = 80 := by decide +kernel
    apply hnone ⟨(p - 40).toNat, by omega⟩
    rw [show (40 : Int) + ((p - 40).toNat : Nat) = p by omega]
    exact hprop
  have hwhole : HeadersWhole (ctxOf twoChildren) :=
    ⟨fun p _ _ => hcut 4 8 p le_rfl, fun _ _ p _ _ _ => hcut 4 8 p le_rfl,
      fun _ _ p _ _ _ => hcut 8 12 p (by omega)⟩
  have hreads := ((struct_reads_in_block_iff twoChildren 80 hvalid).mpr hwhole).1
  exact ⟨hvalid, hwhole, hreads 40 (by unfold IsInt; omega)⟩

/-- A root whose first property is cut off behind its token. -/
def cutHeader : Buffer :=
  blobOf (wordBytes fdtBeginNode ++ [0, 0, 0, 0] ++ wordBytes fdtProp) []

/-- `fdt_first_child` reads the property's length behind the end of the blob. -/
theorem cutHeader_read_past_end :
    (fdtValid cutHeader 52).value = true ∧ IsInt 40 ∧
      (fdtFirstChild cutHeader 40).Performs (.struct 52) ∧
      ¬ InBlock cutHeader 52 (.struct 52) := by
  refine ⟨by decide +kernel, by unfold IsInt; omega, ⟨3, by decide +kernel⟩, ?_⟩
  rintro ⟨-, -, -, hlt⟩
  exact absurd hlt (by decide)

end Fdt
end Saski
