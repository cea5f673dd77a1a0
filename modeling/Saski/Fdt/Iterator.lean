import Saski.Fdt.Stream

/-!
# Iterating over the children of a node

`fdt_first_child` and `fdt_next_sibling` read the structure block from the node on,
`fdt_parent_offset` from its start.  On every blob, however malformed, they agree:
what the iterator returns lies directly inside the parent, it lies further on in
the block each time, and the iteration ends.

The walks of the iterator stop at the token of a node and leave its name alone,
while `fdt_parent_offset` gives up at a node whose name does not end inside the
block.  Such a node is returned by the iterator and has no parent.  It is the last
thing in the stream, and the callers that look at names test for it.
-/

namespace Saski
namespace Fdt

open Capnp Logged Prog Nesting

/-- The iteration `for (ch = fdt_first_child(n); ch != FDT_ERR_NODE; ch =
fdt_next_sibling(n, ch))`, with the children seen so far. -/
def eachBody (blob : Buffer) (n : Int) :
    Int × List Int → Prog Access (Int × List Int ⊕ List Int)
  | (ch, seen) =>
      if ch = fdtErrNode then pure (.inr seen)
      else do
        let next ← fdtNextSibling blob n ch
        pure (.inl (next, seen ++ [ch]))

/-- All children that the iterator returns. -/
def eachChild (blob : Buffer) (n : Int) : Prog Access (List Int) := do
  let first ← fdtFirstChild blob n
  loop (eachBody blob n) (first, [])

/-- The name of the node at `n` ends inside the structure block. -/
def NameTerminated (blob : Buffer) (n : Int) : Prop :=
  ∃ k : Nat, n + 4 + k < be32 blob.bytes 8 + be32 blob.bytes 36 ∧ blob.bytes (n + 4 + k) = 0

theorem nameLen_eq_none_iff {c : Ctx} {p : Int} (hp : c.s ≤ p) :
    nameLen c p = none ↔ ∀ k : Nat, p + k < c.send → c.base (p + k) ≠ 0 := by
  unfold nameLen
  rw [if_pos hp, List.find?_range_eq_none]
  constructor
  · intro h k hk hzero
    simpa [hzero] using h k (by omega)
  · intro h k hk
    simpa using h k (by omega)

/-- Of the nodes in the stream, those with a terminated name open a bracket. -/
theorem nameTerminated_iff {blob : Buffer} {c : Ctx} (h : Header blob c) {n : Int} {m : Mark Int}
    (hopens : OpensAt c n m) : NameTerminated blob n ↔ m = .opening n := by
  have hend : NameTerminated blob n ↔ ∃ k : Nat, n + 4 + k < c.send ∧ c.base (n + 4 + k) = 0 := by
    unfold NameTerminated
    rw [h.send, h.s, h.base]
  rw [hend]
  rcases hopens with ⟨rfl, w, htoken⟩ | ⟨rfl, htoken⟩
  · obtain ⟨-, -, k, hname, -⟩ := tokenAt_eq_node_iff.mp htoken
    obtain ⟨-, hlt, hzero, -⟩ := nameLen_eq_some_iff.mp hname
    exact iff_of_true ⟨k, hlt, hzero⟩ rfl
  · have hok := ok_of_tokenAt (show tokenAt c n ≠ .stop by simp [htoken])
    have hnone : nameLen c (n + 4) = none := by
      cases hname : nameLen c (n + 4) with
      | none => rfl
      | some k =>
          unfold tokenAt at htoken
          split_ifs at htoken
          rw [hname] at htoken
          exact absurd htoken (by simp)
    have hstart := hok.1
    rw [nameLen_eq_none_iff (by omega)] at hnone
    refine iff_of_false ?_ (by simp)
    rintro ⟨k, hlt, hzero⟩
    exact hnone k hlt hzero

section Children

variable {blob : Buffer} {c : Ctx}

theorem opensAt_of_marks {n : Int} {m : Mark Int} {r : List (Mark Int)} (hn : marks c n = m :: r)
    (hm : m.label? = some n) : OpensAt c n m :=
  (mem_marks (show m ∈ marks c n by simp [hn]) hm).2

theorem label_eq {n a : Int} {m : Mark Int} {r : List (Mark Int)} (hn : marks c n = m :: r)
    (hm : m.label? = some a) : a = n := by
  obtain ⟨-, hempty⟩ | ⟨m', q, hcons, -, -, hlabel⟩ := marks_cases c n
  · exact absurd (hempty.symm.trans hn) (by simp)
  · obtain ⟨rfl, -⟩ := List.cons.inj (hcons.symm.trans hn)
    exact (hlabel a hm).1

theorem ok_of_opensAt {n : Int} {m : Mark Int} (h : OpensAt c n m) : ok c n 4 := by
  rcases h with ⟨-, w, htoken⟩ | ⟨-, htoken⟩
  · exact ok_of_tokenAt (by simp [htoken])
  · exact ok_of_tokenAt (by simp [htoken])

/-- Offsets of nodes are never `FDT_ERR_NODE`. -/
theorem Header.ne_errNode (h : Header blob c) {n : Int} (hok : ok c n 4) : n ≠ fdtErrNode := by
  have hs := h.s_nonneg
  have hle := hok.1
  unfold fdtErrNode
  omega

/-- The parent of a bracket that the walk from the start arrives at. -/
theorem parentOf_of_reaches {n : Int} {st r : List _} (hn : (stream c).Reaches c.s st n)
    (hopen : marks c n = .opening n :: r) :
    parentOf c n = if st.length ≤ fdtMaxDepth then st.head?.getD fdtErrNode else fdtErrNode := by
  unfold parentOf
  rw [← stream_marks, hn.parentIn hopen]
  split
  · rfl
  · rfl

theorem parentOf_of_broken {n : Int} {st r : List _} (hn : (stream c).Reaches c.s st n)
    (hbroken : marks c n = .broken n :: r) : parentOf c n = fdtErrNode := by
  unfold parentOf
  rw [← stream_marks, hn.parentIn_broken hbroken]
  rfl

variable (h : SmallBlob blob c)

include h

theorem returns_fdtFirstChild_children (n : Int) :
    (fdtFirstChild blob n).Returns ((children (marks c n)).head?.getD fdtErrNode) := by
  rw [head?_children]
  exact returns_fdtFirstChild h n

/-- The iterator goes through the children in order, as long as the parent is not too
deep for `fdt_parent_offset` to find it. -/
theorem returns_fdtNextSibling_children {n x : Int} {st r xs ys : List _}
    (hn : (stream c).Reaches c.s st n) (hopen : marks c n = .opening n :: r)
    (hcap : st.length < fdtMaxDepth) (hsplit : children (marks c n) = xs ++ x :: ys) :
    (fdtNextSibling blob n x).Returns (ys.head?.getD fdtErrNode) := by
  have hok := ok_of_opensAt (opensAt_of_marks hopen rfl)
  have hnext := returns_fdtNextSibling h (h.ne_errNode hok) x
  have hys : ys.head? = nextSibling (marks c x) :=
    Stream.head?_after_children (S := stream c) hsplit
  have hmem : x ∈ children (marks c n) := by simp [hsplit]
  obtain ⟨hx, m, rest, hmarks, hm⟩ := hn.child hopen hmem
  rw [hys]
  rcases opensAt_of_marks hmarks hm with ⟨rfl, -⟩ | ⟨rfl, -⟩
  · have hparent : parentOf c x = n := by
      rw [parentOf_of_reaches hx hmarks, if_pos (by simpa using hcap)]
      rfl
    rw [if_pos hparent] at hnext
    exact hnext
  · -- A node without an end of its name has no parent, and nothing comes after it.
    have hparent : parentOf c x ≠ n := by
      rw [parentOf_of_broken hx hmarks]
      exact (h.ne_errNode hok).symm
    rw [if_neg hparent] at hnext
    rw [show marks c x = .broken x :: rest from hmarks]
    exact hnext

/-- From one of the children on, the iteration sees the rest of them. -/
theorem returns_eachLoop {n : Int} {st r : List _} (hn : (stream c).Reaches c.s st n)
    (hopen : marks c n = .opening n :: r) (hcap : st.length < fdtMaxDepth) (ys : List Int) :
    ∀ xs, children (marks c n) = xs ++ ys →
      (loop (eachBody blob n) (ys.head?.getD fdtErrNode, xs)).Returns (xs ++ ys) := by
  induction ys with
  | nil =>
      intro xs _
      apply returns_loop_of_done
      simp [eachBody]
  | cons x ys ih =>
      intro xs hsplit
      have hx := hn.child hopen (show x ∈ children (marks c n) by simp [hsplit])
      obtain ⟨-, m, rest, hmarks, hm⟩ := hx
      have hne := h.ne_errNode (ok_of_opensAt (opensAt_of_marks hmarks hm))
      have hbody : (eachBody blob n (x, xs)).Returns
          (.inl (ys.head?.getD fdtErrNode, xs ++ [x])) := by
        rw [eachBody, if_neg hne,
          returns_bind_of (returns_fdtNextSibling_children h hn hopen hcap hsplit)]
        simp
      have hrest := ih (xs ++ [x]) (by simp [hsplit])
      rw [List.append_assoc, List.singleton_append] at hrest
      exact returns_loop_of_step hbody hrest

/-- The iterator sees exactly the children of a node that is not too deep. -/
theorem returns_eachChild {n : Int} {st r : List _} (hn : (stream c).Reaches c.s st n)
    (hopen : marks c n = .opening n :: r) (hcap : st.length < fdtMaxDepth) :
    (eachChild blob n).Returns (children (marks c n)) := by
  unfold eachChild
  rw [returns_bind_of (returns_fdtFirstChild_children h n)]
  exact returns_eachLoop h hn hopen hcap (children (marks c n)) [] rfl

/-- A step of the iterator, on any blob. -/
theorem nextSibling_spec {parent prev s : Int} (hparent : 0 ≤ parent)
    (hs : (fdtNextSibling blob parent prev).Returns s) (hne : s ≠ fdtErrNode) :
    prev < s ∧ ok c s 4 ∧ (NameTerminated blob s → parentOf c s = parent) ∧
      (¬ NameTerminated blob s → parentOf c s = fdtErrNode) := by
  have herr : parent ≠ fdtErrNode := by
    unfold fdtErrNode
    omega
  have heq := (returns_fdtNextSibling h herr prev).unique hs
  by_cases hprev : parentOf c prev = parent
  · rw [if_pos hprev] at heq
    obtain ⟨st, r, hreach, hopen, hcap⟩ := reaches_of_parentOf hprev herr
    cases hnext : nextSibling (marks c prev) with
    | none =>
        rw [hnext] at heq
        exact absurd heq.symm hne
    | some s' =>
        rw [hnext] at heq
        obtain rfl : s' = s := heq
        obtain ⟨hs', m, rest, hmarks, hm⟩ := hreach.nextSibling (by simp) hnext
        have hopens := opensAt_of_marks hmarks hm
        refine ⟨Stream.lt_of_nextSibling (S := stream c) hopen hnext, ok_of_opensAt hopens, ?_, ?_⟩
        · intro hname
          obtain rfl := (nameTerminated_iff h.toHeader hopens).mp hname
          rw [parentOf_of_reaches hs' hmarks, if_pos (by simpa using hcap)]
          rfl
        · intro hname
          rcases hopens with ⟨rfl, -⟩ | ⟨rfl, -⟩
          · have hopens := opensAt_of_marks hmarks hm
            exact absurd ((nameTerminated_iff h.toHeader hopens).mpr rfl) hname
          · exact parentOf_of_broken hs' hmarks
  · rw [if_neg hprev] at heq
    exact absurd heq.symm hne

/-- The first child of a node that the walk from the start arrives at. -/
theorem firstChild_spec {n ch : Int} {st : List Int} (hn : (stream c).Reaches c.s st n)
    (hch : (fdtFirstChild blob n).Returns ch) (hne : ch ≠ fdtErrNode) :
    n < ch ∧ ok c ch 4 ∧ (parentOf c ch = n ∨ parentOf c ch = fdtErrNode) := by
  have heq := (returns_fdtFirstChild h n).unique hch
  cases hfirst : firstChild (marks c n) with
  | none =>
      rw [hfirst] at heq
      exact absurd heq.symm hne
  | some x =>
      rw [hfirst] at heq
      obtain rfl : x = ch := heq
      -- Only a node with a terminated name has children.
      obtain ⟨a, r, hopen⟩ := exists_of_firstChild hfirst
      obtain rfl := label_eq hopen rfl
      obtain ⟨hx, m, rest, hmarks, hm⟩ := hn.firstChild hopen hfirst
      have hopens := opensAt_of_marks hmarks hm
      refine ⟨Stream.lt_of_firstChild (S := stream c) hopen hfirst, ok_of_opensAt hopens, ?_⟩
      rcases hopens with ⟨rfl, -⟩ | ⟨rfl, -⟩
      · rw [parentOf_of_reaches hx hmarks]
        split
        · exact Or.inl rfl
        · exact Or.inr rfl
      · exact Or.inr (parentOf_of_broken hx hmarks)

/-- Every child lies further on in the block, so the iteration ends. -/
theorem eachChild_ends (n : Int) : ∃ l, (eachChild blob n).Returns l := by
  have hfirst := returns_fdtFirstChild h n
  cases hchild : firstChild (marks c n) with
  | none =>
      rw [hchild] at hfirst
      refine ⟨[], ?_⟩
      unfold eachChild
      rw [returns_bind_of hfirst]
      apply returns_loop_of_done
      simp [eachBody]
  | some ch =>
      rw [hchild] at hfirst
      obtain ⟨a, r, hopen⟩ := exists_of_firstChild hchild
      obtain rfl := label_eq hopen rfl
      have hs := h.s_nonneg
      have hok := ok_of_opensAt (opensAt_of_marks hopen rfl)
      have hstart := hok.1
      suffices hends : ∃ l, (loop (eachBody blob a) (ch, [])).Returns l by
        obtain ⟨l, hl⟩ := hends
        exact ⟨l, by unfold eachChild; rw [returns_bind_of hfirst]; exact hl⟩
      -- The distance to the end of the block goes down, to zero when there is no child.
      apply exists_returns_loop (fun w => w.1 = fdtErrNode ∨ ok c w.1 4)
        (fun w => if w.1 = fdtErrNode then 0 else (c.send - w.1).toNat)
      · rintro ⟨x, seen⟩ hx
        by_cases hne : x = fdtErrNode
        · exact Or.inl ⟨seen, by simp [eachBody, hne]⟩
        · obtain ⟨next, hnext⟩ : ∃ s, (fdtNextSibling blob a x).Returns s :=
            ⟨_, returns_fdtNextSibling h (h.ne_errNode hok) x⟩
          refine Or.inr ⟨(next, seen ++ [x]), ?_, ?_, ?_⟩
          · change (eachBody blob a (x, seen)).Returns (.inl (next, seen ++ [x]))
            rw [eachBody, if_neg hne, returns_bind_of hnext]
            simp
          · by_cases hend : next = fdtErrNode
            · exact Or.inl hend
            · exact Or.inr (nextSibling_spec h (by omega) hnext hend).2.1
          · have hfits := (hx.resolve_left hne).2.2
            simp only [hne, if_false]
            by_cases hend : next = fdtErrNode
            · simp only [hend, if_true]
              omega
            · have hlt := (nextSibling_spec h (by omega) hnext hend).1
              simp only [hend, if_false]
              omega
      · have hroot : (stream c).Reaches a [] a := Stream.reaches_root a
        obtain ⟨-, m, rest, hmarks, hm⟩ := hroot.firstChild hopen hchild
        exact Or.inr (ok_of_opensAt (opensAt_of_marks hmarks hm))

end Children

/-- **The iterator stays under its parent, on every blob.**  A sibling that it returns
has the same parent, unless its name does not end inside the structure block and
`fdt_parent_offset` gives up there. -/
theorem child_iterator_sound (blob : Buffer) (size : Nat)
    (hvalid : (fdtValid blob size).value = true) (hsmall : be32 blob.bytes 4 < 2 ^ 31) :
    (∀ parent prev s : Int, 0 ≤ parent → (fdtNextSibling blob parent prev).Returns s →
      s ≠ fdtErrNode →
        prev < s ∧ (NameTerminated blob s → (fdtParentOffset blob s).Returns parent) ∧
          (¬ NameTerminated blob s → (fdtParentOffset blob s).Returns fdtErrNode)) ∧
    (∀ n ch : Int, (n = be32 blob.bytes 8 ∨ ∃ p, 0 ≤ p ∧ (fdtParentOffset blob n).Returns p) →
      (fdtFirstChild blob n).Returns ch → ch ≠ fdtErrNode →
        n < ch ∧ ((fdtParentOffset blob ch).Returns n ∨
          (fdtParentOffset blob ch).Returns fdtErrNode)) ∧
    ∀ n : Int, ∃ l, (eachChild blob n).Returns l := by
  have h := smallBlob_of_fdtValid hvalid hsmall
  generalize ctxOf blob = c at h
  refine ⟨?_, ?_, eachChild_ends h⟩
  · intro parent prev s hparent hs hne
    obtain ⟨hlt, -, hyes, hno⟩ := nextSibling_spec h hparent hs hne
    have hparentOf := returns_fdtParentOffset h s
    refine ⟨hlt, fun hname => ?_, fun hname => ?_⟩
    · rwa [hyes hname] at hparentOf
    · rwa [hno hname] at hparentOf
  · intro n ch hn hch hne
    obtain ⟨st, hreach⟩ : ∃ st, (stream c).Reaches c.s st n := by
      rcases hn with hroot | ⟨p, hp, hreturns⟩
      · exact ⟨[], by rw [hroot, ← h.s]; exact Stream.reaches_root c.s⟩
      · have heq := (returns_fdtParentOffset h n).unique hreturns
        obtain ⟨st, -, hreach, -⟩ := reaches_of_parentOf heq (by unfold fdtErrNode; omega)
        exact ⟨_, hreach⟩
    obtain ⟨hlt, -, hparent⟩ := firstChild_spec h hreach hch hne
    have hparentOf := returns_fdtParentOffset h ch
    refine ⟨hlt, hparent.imp (fun heq => ?_) fun heq => ?_⟩
    · rwa [heq] at hparentOf
    · rwa [heq] at hparentOf

/-- A root with the children `a` and `b`. -/
def twoChildren : Buffer :=
  blobOf
    (wordBytes fdtBeginNode ++ [0, 0, 0, 0] ++
      wordBytes fdtBeginNode ++ [97, 0, 0, 0] ++ wordBytes fdtEndNode ++
      wordBytes fdtBeginNode ++ [98, 0, 0, 0] ++ wordBytes fdtEndNode ++
      wordBytes fdtEndNode ++ wordBytes fdtEnd) []

theorem twoChildren_iterator_sound :
    (fdtNextSibling twoChildren 40 48).Returns 60 ∧ (48 : Int) < 60 ∧
      (fdtParentOffset twoChildren 60).Returns 40 := by
  have hnext : (fdtNextSibling twoChildren 40 48).Returns 60 := ⟨20, by decide +kernel⟩
  have hname : NameTerminated twoChildren 60 := ⟨1, by decide +kernel⟩
  obtain ⟨hsibling, -, -⟩ :=
    child_iterator_sound twoChildren 80 (by decide +kernel) (by decide +kernel)
  obtain ⟨hlt, hparent, -⟩ := hsibling 40 48 60 (by decide) hnext (by decide)
  exact ⟨hnext, hlt, hparent hname⟩

/-- A root with the child `a`, and then a node whose name runs into the end of the
structure block. -/
def cutSibling : Buffer :=
  blobOf
    (wordBytes fdtBeginNode ++ [0, 0, 0, 0] ++
      wordBytes fdtBeginNode ++ [97, 0, 0, 0] ++ wordBytes fdtEndNode ++
      wordBytes fdtBeginNode ++ [98, 98, 98, 98]) []

/-- The iterator returns the second node, but `fdt_parent_offset` does not find it. -/
theorem cutSibling_without_parent :
    (fdtValid cutSibling 68).value = true ∧ be32 cutSibling.bytes 4 < 2 ^ 31 ∧
      (fdtNextSibling cutSibling 40 48).Returns 60 ∧ (60 : Int) ≠ fdtErrNode ∧
      ¬ (fdtParentOffset cutSibling 60).Returns 40 := by
  have hnone : (fdtParentOffset cutSibling 60).Returns fdtErrNode := ⟨20, by decide +kernel⟩
  refine ⟨by decide +kernel, by decide +kernel, ⟨20, by decide +kernel⟩, by decide, ?_⟩
  intro hparent
  exact absurd (hnone.unique hparent) (by decide)

end Fdt
end Saski
