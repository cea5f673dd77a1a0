import Saski.Fdt.Iterator
import Saski.Fdt.Property
import Saski.Lib.Preorder

/-!
# The search by `compatible`

`fdt_node_by_compatible_offset` keeps the path to the current node in an array of 16
offsets.  One iteration tests the node and goes on to the next path in document order,
with one exception: from a node in the last slot that has children it goes back to the
node's parent and starts again from there.  It then comes to the same node again.

So the search ends exactly if it finds a match before it comes to such a node
(`fdtNodeByCompatibleOffset_returns_iff`).
-/

namespace Saski
namespace Fdt

open Capnp Logged Prog Nesting Preorder

/-- The nodes directly below the one at `n`, as the iterator lists them. -/
def childrenOf (c : Ctx) (n : Int) : List Int := children (marks c n)

/-- The node after the one at `x`. -/
def nextOf (c : Ctx) (_parent x : Int) : Option Int := nextSibling (marks c x)

theorem nextOf_eq (c : Ctx) (p x : Int) (xs ys : List Int) (h : childrenOf c p = xs ++ x :: ys) :
    nextOf c p x = ys.head? :=
  (Stream.head?_after_children (S := stream c) h).symm

/-- The node at the end of a path, with the path around it. -/
theorem reaches_of_isPath {c : Ctx} {path : List Int} (hpath : IsPath (childrenOf c) c.s path) :
    ∃ n st, path = n :: st ∧ (stream c).Reaches c.s st n := by
  induction hpath with
  | root => exact ⟨c.s, [], rfl, Stream.reaches_root c.s⟩
  | @child n k path _ hk ih =>
      obtain ⟨n', st, hpath, hreach⟩ := ih
      obtain ⟨rfl, rfl⟩ := List.cons.inj hpath
      obtain ⟨a, r, hopen⟩ := exists_of_children (List.ne_nil_of_mem hk)
      obtain rfl := label_eq hopen rfl
      exact ⟨k, a :: path, rfl, (hreach.child hopen hk).1⟩

/-- A node with a child below it on the path has a name that ends, and the path
around it is shorter. -/
theorem opening_of_child {c : Ctx} {n k : Int} (hk : k ∈ childrenOf c n) :
    ∃ r, marks c n = .opening n :: r := by
  obtain ⟨a, r, hopen⟩ := exists_of_children (List.ne_nil_of_mem hk)
  obtain rfl := label_eq hopen rfl
  exact ⟨r, hopen⟩

section Loops

variable {blob : Buffer} {c : Ctx} (h : SmallBlob blob c)

include h

theorem SmallBlob.child_ne_err {n k : Int} (hk : k ∈ childrenOf c n) : k ≠ fdtErrNode := by
  obtain ⟨r, hopen⟩ := opening_of_child hk
  have hroot : (stream c).Reaches n [] n := Stream.reaches_root n
  obtain ⟨-, m, rest, hmarks, hm⟩ := hroot.child hopen hk
  exact h.ne_errNode (ok_of_opensAt (opensAt_of_marks hmarks hm))

/-- The iterator on the nodes of a path that fits the array. -/
theorem returns_next_of_isPath {n x : Int} {st xs ys : List Int}
    (hpath : IsPath (childrenOf c) c.s (n :: st)) (hcap : st.length < fdtMaxDepth)
    (hsplit : childrenOf c n = xs ++ x :: ys) :
    (fdtNextSibling blob n x).Returns (ys.head?.getD fdtErrNode) := by
  obtain ⟨n', st', hcons, hreach⟩ := reaches_of_isPath hpath
  obtain ⟨rfl, rfl⟩ := List.cons.inj hcons
  obtain ⟨r, hopen⟩ := opening_of_child (show x ∈ childrenOf c n by simp [hsplit])
  exact returns_fdtNextSibling_children h hreach hopen hcap hsplit

/-- The loop over the siblings of a child that is too deep ends. -/
theorem returns_passLoop {n : Int} {st : List Int}
    (hpath : IsPath (childrenOf c) c.s (n :: st)) (hcap : st.length < fdtMaxDepth)
    (ys : List Int) : ∀ xs, childrenOf c n = xs ++ ys →
      (loop (passBody blob n) (ys.head?.getD fdtErrNode)).Returns () := by
  induction ys with
  | nil =>
      intro xs _
      apply returns_loop_of_done
      simp [passBody]
  | cons x ys ih =>
      intro xs hsplit
      have hne := h.child_ne_err (show x ∈ childrenOf c n by simp [hsplit])
      have hbody : (passBody blob n x).Returns (.inl (ys.head?.getD fdtErrNode)) := by
        unfold passBody
        rw [if_neg hne, returns_bind_of (returns_next_of_isPath h hpath hcap hsplit)]
        simp
      exact returns_loop_of_step hbody (ih (xs ++ [x]) (by simp [hsplit]))

/-- The climb ends at the path that `climb` gives. -/
theorem returns_climbLoop {path : List Int} (hpath : IsPath (childrenOf c) c.s path)
    (hcap : path.length ≤ fdtMaxDepth) {w : Search} (hw : Holds path w.depth w.stack) :
    match climb (nextOf c) path with
    | none => (loop (climbBody blob) w).Returns none
    | some path' => ∃ w', (loop (climbBody blob) w).Returns (some w') ∧
        Holds path' w'.depth w'.stack := by
  induction hpath generalizing w with
  | root =>
      apply returns_loop_of_done
      have hdepth : w.depth = 0 := by
        rw [hw.depth_eq]
        rfl
      simp [climbBody, hdepth]
  | @child p x path hp hx ih =>
      simp only [List.length_cons] at hcap
      obtain ⟨xs, ys, hsplit⟩ := List.append_of_mem hx
      have hdepth : w.depth ≠ 0 := by
        rw [hw.depth_eq]
        simp only [List.length_cons]
        omega
      have hparent := returns_slot (hw.pop.top (by omega))
      have hnode := returns_slot (hw.top (by simp only [List.length_cons]; omega))
      have hsib := returns_next_of_isPath h hp (by omega) hsplit
      have hbody : ∀ next, (climbBody blob w).Returns next ↔
          (if ys.head?.getD fdtErrNode ≠ fdtErrNode then
            pure (.inr (some ⟨w.depth,
              Function.update w.stack w.depth (some (ys.head?.getD fdtErrNode))⟩))
          else pure (.inl ⟨w.depth - 1, w.stack⟩) :
            Prog Access (Search ⊕ Option Search)).Returns next := by
        intro next
        unfold climbBody
        rw [if_neg hdepth, returns_bind_of hparent, returns_bind_of hnode, returns_bind_of hsib]
      rw [climb, nextOf_eq c p x xs ys hsplit]
      cases ys with
      | nil =>
          have hstep : (climbBody blob w).Returns (.inl ⟨w.depth - 1, w.stack⟩) :=
            (hbody _).mpr (by simp)
          have hrest := ih (by simp only [List.length_cons]; omega)
            (w := ⟨w.depth - 1, w.stack⟩) hw.pop
          simp only [List.head?_nil]
          cases hclimb : climb (nextOf c) (p :: path) with
          | none =>
              rw [hclimb] at hrest
              exact returns_loop_of_step hstep hrest
          | some path' =>
              rw [hclimb] at hrest
              obtain ⟨w', hw', hholds⟩ := hrest
              exact ⟨w', returns_loop_of_step hstep hw', hholds⟩
      | cons y ys =>
          have hne := h.child_ne_err (show y ∈ childrenOf c p by simp [hsplit])
          refine ⟨⟨w.depth, Function.update w.stack w.depth (some y)⟩,
            returns_loop_of_done ((hbody _).mpr (by simp [hne])), ?_⟩
          have hpush := hw.pop.push y
          have hlt : w.depth - 1 + 1 < fdtMaxDepth := by
            rw [hw.depth_eq]
            simp only [List.length_cons]
            omega
          rw [if_pos hlt, show w.depth - 1 + 1 = w.depth by omega] at hpush
          exact hpush

/-! ## One iteration -/

variable {compatible : CString} {n : Int} {st : List Int} {w : Search}

omit h in
theorem returns_searchBody_of_match (hw : Holds (n :: st) w.depth w.stack)
    (hcap : st.length < fdtMaxDepth) (hmatch : (isCompatible blob c compatible n).Returns true) :
    (searchBody blob c compatible w).Returns (.inr n) := by
  unfold searchBody
  rw [returns_bind_of (returns_slot (hw.top hcap)), returns_bind_of hmatch]
  simp

theorem returns_searchBody_iff (hw : Holds (n :: st) w.depth w.stack)
    (hcap : st.length < fdtMaxDepth) (hmatch : (isCompatible blob c compatible n).Returns false)
    (next : Search ⊕ Int) :
    (searchBody blob c compatible w).Returns next ↔
      (searchOn blob w n ((childrenOf c n).head?.getD fdtErrNode)).Returns next := by
  unfold searchBody
  rw [returns_bind_of (returns_slot (hw.top hcap)), returns_bind_of hmatch, if_neg (by simp),
    returns_bind_of (returns_fdtFirstChild_children h n)]
  rfl

/-- From a node in the last slot that has children, the search goes back to the
node's parent. -/
theorem step_searchBody_atLimit (hpath : IsPath (childrenOf c) c.s (n :: st))
    (hlimit : AtLimit (childrenOf c) fdtMaxDepth (n :: st)) (hw : Holds (n :: st) w.depth w.stack)
    (hmatch : (isCompatible blob c compatible n).Returns false) :
    Step (searchBody blob c compatible) w ⟨w.depth - 1, w.stack⟩ := by
  obtain ⟨hlen, n', st', hcons, hkids⟩ := hlimit
  obtain ⟨rfl, rfl⟩ := List.cons.inj hcons
  obtain ⟨k, ks, hkids⟩ := List.exists_cons_of_ne_nil hkids
  rw [List.length_cons] at hlen
  have hcap : st.length < fdtMaxDepth := by omega
  have hne := h.child_ne_err (show k ∈ childrenOf c n by simp [hkids])
  have hsplit : childrenOf c n = [] ++ k :: ks := hkids
  have hsib := returns_next_of_isPath h hpath hcap hsplit
  have hpass := returns_passLoop h hpath hcap ks [k] hkids
  have hdepth : w.depth = 15 := by
    rw [hw.depth_eq, List.length_cons, hlen]
    rfl
  apply (returns_searchBody_iff h hw hcap hmatch _).mpr
  unfold searchOn
  rw [hkids, List.head?_cons, Option.getD_some, if_pos hne, if_pos (by rw [hdepth]; decide),
    returns_bind_of hsib, returns_bind_of hpass, if_neg (by rw [hdepth]; decide)]
  simp

/-- From any other node that does not match, the search goes on in document order. -/
theorem searchBody_advance (hpath : IsPath (childrenOf c) c.s (n :: st))
    (hcap : st.length < fdtMaxDepth) (hlimit : ¬ AtLimit (childrenOf c) fdtMaxDepth (n :: st))
    (hw : Holds (n :: st) w.depth w.stack)
    (hmatch : (isCompatible blob c compatible n).Returns false) :
    match advance (childrenOf c) (nextOf c) (n :: st) with
    | none => (searchBody blob c compatible w).Returns (.inr fdtErrNode)
    | some path' => ∃ w', Step (searchBody blob c compatible) w w' ∧
        Holds path' w'.depth w'.stack := by
  have hbody := returns_searchBody_iff h hw hcap hmatch
  unfold searchOn at hbody
  cases hkids : childrenOf c n with
  | cons k ks =>
      rw [advance_of_cons hkids]
      have hne := h.child_ne_err (show k ∈ childrenOf c n by simp [hkids])
      have hlt : w.depth + 1 < fdtMaxDepth := by
        have hlen : st.length + 1 ≠ fdtMaxDepth := fun hlen =>
          hlimit ⟨hlen, n, st, rfl, by simp [hkids]⟩
        rw [hw.depth_eq, List.length_cons]
        omega
      have hpush := hw.push k
      rw [if_pos hlt] at hpush
      refine ⟨⟨w.depth + 1, Function.update w.stack (w.depth + 1) (some k)⟩, ?_, hpush⟩
      refine (hbody _).mpr ?_
      rw [hkids, List.head?_cons, Option.getD_some, if_pos hne, if_neg (by omega)]
      simp
  | nil =>
      rw [advance_of_nil hkids]
      have hclimb := returns_climbLoop h hpath (by simpa using hcap) hw
      cases hnext : climb (nextOf c) (n :: st) with
      | none =>
          rw [hnext] at hclimb
          refine (hbody _).mpr ?_
          rw [hkids, List.head?_nil, Option.getD_none, if_neg (by simp), returns_bind_of hclimb]
          simp
      | some path' =>
          rw [hnext] at hclimb
          obtain ⟨w', hw', hholds⟩ := hclimb
          refine ⟨w', (hbody _).mpr ?_, hholds⟩
          rw [hkids, List.head?_nil, Option.getD_none, if_neg (by simp), returns_bind_of hw']
          simp

end Loops

/-! ## The whole search -/

/-- The paths that fit the array, in document order. -/
def documentOrder (c : Ctx) : List (List Int) := preorder (childrenOf c) (fdtMaxDepth - 1) c.s []

/-- The node at the end of the path does not match. -/
def Unmatched (blob : Buffer) (c : Ctx) (compatible : CString) (path : List Int) : Prop :=
  ∀ n, path.head? = some n → ¬ (isCompatible blob c compatible n).Returns true

/-- In document order, a node at depth 15 that has a child comes before every node
that matches. -/
def Overrun (blob : Buffer) (c : Ctx) (compatible : CString) : Prop :=
  ∃ xs path ys, documentOrder c = xs ++ path :: ys ∧
    AtLimit (childrenOf c) fdtMaxDepth path ∧ ∀ p ∈ xs ++ [path], Unmatched blob c compatible p

/-- There is a node at `n`. -/
def IsNode (c : Ctx) (n : Int) : Prop := ok c n 4 ∧ be32 c.base n = fdtBeginNode

theorem isNode_of_opensAt {c : Ctx} {n : Int} {m : Mark Int} (h : OpensAt c n m) : IsNode c n := by
  refine ⟨ok_of_opensAt h, ?_⟩
  rcases tokenAt_cases c n with ⟨-, heq⟩ | ⟨-, ⟨hbegin, -⟩ | ⟨-, heq⟩ | ⟨-, ⟨-, heq⟩ | ⟨-, heq⟩⟩ |
    ⟨-, heq⟩ | ⟨-, heq⟩⟩
  case inr.inl => exact hbegin
  all_goals
    rcases h with ⟨-, w, htoken⟩ | ⟨-, htoken⟩
    · exact absurd (heq.symm.trans htoken) (by simp)
    · exact absurd (heq.symm.trans htoken) (by simp)

theorem isNode_of_isPath {c : Ctx} (hroot : IsNode c c.s) {n : Int} {st : List Int}
    (hpath : IsPath (childrenOf c) c.s (n :: st)) : IsNode c n := by
  cases hpath with
  | root => exact hroot
  | child hparent hk =>
      obtain ⟨a, st', hcons, hreach⟩ := reaches_of_isPath hparent
      obtain ⟨rfl, rfl⟩ := List.cons.inj hcons
      obtain ⟨r, hopen⟩ := opening_of_child hk
      obtain ⟨-, m, rest, hmarks, hm⟩ := hreach.child hopen hk
      exact isNode_of_opensAt (opensAt_of_marks hmarks hm)

theorem head?_documentOrder (c : Ctx) : (documentOrder c).head? = some [c.s] := head?_preorder _ _ _

theorem isPath_of_documentOrder {c : Ctx} {xs ys : List (List Int)} {path : List Int}
    (hsplit : documentOrder c = xs ++ path :: ys) :
    IsPath (childrenOf c) c.s path ∧ path.length ≤ fdtMaxDepth :=
  isPath_of_mem_preorder IsPath.root (show path ∈ documentOrder c by simp [hsplit])

section Whole

variable {blob : Buffer} {c : Ctx} (h : SmallBlob blob c) (compatible : CString)

include h

theorem returns_false_of_unmatched {n : Int} {st : List Int}
    (hn : Unmatched blob c compatible (n :: st)) :
    (isCompatible blob c compatible n).Returns false := by
  obtain ⟨b, hb⟩ := returns_isCompatible h.toHeader compatible n
  cases b with
  | false => exact hb
  | true => exact absurd hb (hn n rfl)

/-- One iteration at a place in document order: on to the next place. -/
theorem search_next {xs ys : List (List Int)} {path : List Int} {w : Search}
    (hsplit : documentOrder c = xs ++ path :: ys) (hw : Holds path w.depth w.stack)
    (hlimit : ¬ AtLimit (childrenOf c) fdtMaxDepth path)
    (hun : Unmatched blob c compatible path) :
    match ys.head? with
    | none => (searchBody blob c compatible w).Returns (.inr fdtErrNode)
    | some path' => ∃ w', Step (searchBody blob c compatible) w w' ∧
        Holds path' w'.depth w'.stack := by
  obtain ⟨hpath, hlen⟩ := isPath_of_documentOrder hsplit
  obtain ⟨n, st, rfl, -⟩ := reaches_of_isPath hpath
  have hadvance := searchBody_advance h hpath (by simpa using hlen) hlimit hw
    (returns_false_of_unmatched h compatible hun)
  rw [advance_preorder (nextOf_eq c) hsplit hlimit] at hadvance
  simpa [climb] using hadvance

omit h in
theorem search_found (hroot : IsNode c c.s) {xs ys : List (List Int)} {path : List Int}
    {w : Search} (hsplit : documentOrder c = xs ++ path :: ys) (hw : Holds path w.depth w.stack)
    (hmatch : ¬ Unmatched blob c compatible path) :
    ∃ r, (loop (searchBody blob c compatible) w).Returns r ∧ (r = fdtErrNode ∨ IsNode c r) := by
  obtain ⟨hpath, hlen⟩ := isPath_of_documentOrder hsplit
  obtain ⟨n, st, rfl, -⟩ := reaches_of_isPath hpath
  unfold Unmatched at hmatch
  push Not at hmatch
  obtain ⟨n', hn', hmatch⟩ := hmatch
  obtain rfl := Option.some.inj hn'
  have hbody := returns_searchBody_of_match hw (by simpa using hlen) hmatch
  exact ⟨n, returns_loop_of_done hbody, Or.inr (isNode_of_isPath hroot hpath)⟩

/-- From any place in document order with no match before it, the search ends unless
it comes to a node that is too deep. -/
theorem search_ends (hroot : IsNode c c.s) (hover : ¬ Overrun blob c compatible)
    (ys : List (List Int)) : ∀ {xs : List (List Int)} {path : List Int} {w : Search},
      documentOrder c = xs ++ path :: ys → Holds path w.depth w.stack →
      (∀ p ∈ xs, Unmatched blob c compatible p) →
        ∃ r, (loop (searchBody blob c compatible) w).Returns r ∧
          (r = fdtErrNode ∨ IsNode c r) := by
  induction ys with
  | nil =>
      intro xs path w hsplit hw hbefore
      by_cases hun : Unmatched blob c compatible path
      · have hlimit : ¬ AtLimit (childrenOf c) fdtMaxDepth path := fun hlimit =>
          hover ⟨xs, path, [], hsplit, hlimit, by simpa [or_imp, forall_and] using ⟨hbefore, hun⟩⟩
        exact ⟨_, returns_loop_of_done (search_next h compatible hsplit hw hlimit hun), Or.inl rfl⟩
      · exact search_found compatible hroot hsplit hw hun
  | cons next ys ih =>
      intro xs path w hsplit hw hbefore
      by_cases hun : Unmatched blob c compatible path
      · have hall : ∀ p ∈ xs ++ [path], Unmatched blob c compatible p := by
          simpa [or_imp, forall_and] using ⟨hbefore, hun⟩
        have hlimit : ¬ AtLimit (childrenOf c) fdtMaxDepth path := fun hlimit =>
          hover ⟨xs, path, next :: ys, hsplit, hlimit, hall⟩
        obtain ⟨w', hstep, hw'⟩ := search_next h compatible hsplit hw hlimit hun
        obtain ⟨r, hr, hnode⟩ := ih (show documentOrder c = (xs ++ [path]) ++ next :: ys by
          simp [hsplit]) hw' hall
        exact ⟨r, returns_loop_of_step hstep hr, hnode⟩
      · exact search_found compatible hroot hsplit hw hun

/-- **Divergence.**  With a node that is too deep before every match, the search comes
back to that node for ever. -/
theorem search_diverges {xs ys : List (List Int)} {path : List Int}
    (hsplit : documentOrder c = xs ++ path :: ys)
    (hlimit : AtLimit (childrenOf c) fdtMaxDepth path)
    (hun : ∀ p ∈ xs ++ [path], Unmatched blob c compatible p) {w : Search}
    (hw : Holds [c.s] w.depth w.stack) (r : Int) :
    ¬ (loop (searchBody blob c compatible) w).Returns r := by
  -- The invariant: the search is at one of the places up to the node that is too deep.
  apply not_returns_of_invariant fun w => ∃ front here back,
    xs ++ [path] = front ++ here :: back ∧ Holds here w.depth w.stack
  · have hhead := head?_documentOrder c
    cases xs with
    | nil =>
        rw [hsplit] at hhead
        obtain rfl : path = [c.s] := Option.some.inj hhead
        exact ⟨[], [c.s], [], rfl, hw⟩
    | cons x xs =>
        rw [hsplit] at hhead
        obtain rfl : x = [c.s] := Option.some.inj hhead
        exact ⟨[], [c.s], xs ++ [path], rfl, hw⟩
  · rintro w ⟨front, here, back, hplace, hw⟩
    have hat : documentOrder c = front ++ here :: (back ++ ys) := by
      rw [hsplit, List.append_cons, hplace]
      simp
    have hunmatched : Unmatched blob c compatible here := hun here (by simp [hplace])
    by_cases hdeep : AtLimit (childrenOf c) fdtMaxDepth here
    · -- Back to the parent, which is one of the places before.
      obtain ⟨hpath, -⟩ := isPath_of_documentOrder hat
      obtain ⟨n, st, rfl, -⟩ := reaches_of_isPath hpath
      refine ⟨_, step_searchBody_atLimit h hpath hdeep hw
        (returns_false_of_unmatched h compatible hunmatched), ?_⟩
      have hmem : st ∈ front := by
        rcases parent_mem_before hat with rfl | hmem
        · exact absurd hdeep.1 (by simp [fdtMaxDepth])
        · exact hmem
      obtain ⟨f₁, f₂, rfl⟩ := List.append_of_mem hmem
      exact ⟨f₁, st, f₂ ++ (n :: st) :: back, by simp [hplace], hw.pop⟩
    · -- On to the next place: the last one is too deep, so there is one.
      cases back with
      | nil =>
          obtain ⟨-, hlast⟩ := List.append_inj' hplace rfl
          obtain ⟨rfl, -⟩ := List.cons.inj hlast
          exact absurd hlimit hdeep
      | cons next back =>
          obtain ⟨w', hstep, hw'⟩ := search_next h compatible hat hw hdeep hunmatched
          exact ⟨w', hstep, front ++ [here], next, back, by simp [hplace], hw'⟩

end Whole

/-- The loop starts with the root in the first slot. -/
theorem returns_fdtNodeByCompatibleOffset {blob : Buffer} {c : Ctx} (h : SmallBlob blob c)
    (hroot : IsNode c c.s) (compatible : CString) (r : Int) :
    (fdtNodeByCompatibleOffset blob (some compatible)).Returns r ↔
      (loop (searchBody blob c compatible)
        ⟨0, Function.update (fun _ => none) 0 (some c.s)⟩).Returns r := by
  unfold fdtNodeByCompatibleOffset
  simp only [returns_ctxInit h, hroot.1, hroot.2, not_true_eq_false, if_false, returns_rdBe32,
    ne_eq, h.offOf_token hroot.1]

theorem Holds.root (n : Int) : Holds [n] 0 (Function.update (fun _ => none) 0 (some n)) :=
  Holds.nil.push n

/-- Without a node at the start of the block there is nothing to descend into. -/
theorem isNode_of_overrun {blob : Buffer} {c : Ctx} {compatible : CString}
    (hover : Overrun blob c compatible) : IsNode c c.s := by
  by_contra hroot
  have hnone : childrenOf c c.s = [] := by
    by_contra hne
    obtain ⟨a, r, hopen⟩ := exists_of_children hne
    obtain rfl := label_eq hopen rfl
    exact hroot (isNode_of_opensAt (opensAt_of_marks hopen rfl))
  have honly : documentOrder c = [[c.s]] := by
    unfold documentOrder
    rw [show fdtMaxDepth - 1 = 14 + 1 from rfl, preorder, hnone]
    rfl
  obtain ⟨xs, path, ys, hsplit, hlimit, -⟩ := hover
  have hmem : path ∈ documentOrder c := by simp [hsplit]
  rw [honly] at hmem
  obtain rfl := List.mem_singleton.mp hmem
  exact absurd hlimit.1 (by simp [fdtMaxDepth])

theorem not_returns_of_overrun {blob : Buffer} {c : Ctx} (h : SmallBlob blob c)
    {compatible : CString} (hover : Overrun blob c compatible) (r : Int) :
    ¬ (fdtNodeByCompatibleOffset blob (some compatible)).Returns r := by
  rw [returns_fdtNodeByCompatibleOffset h (isNode_of_overrun hover)]
  obtain ⟨xs, path, ys, hsplit, hlimit, hun⟩ := hover
  exact search_diverges h compatible hsplit hlimit hun (w := ⟨0, _⟩) (Holds.root c.s) r

/-- **The search ends exactly if no node that is too deep comes before every match.** -/
theorem fdtNodeByCompatibleOffset_returns_iff (blob : Buffer) (size : Nat)
    (hvalid : (fdtValid blob size).value = true) (hsmall : be32 blob.bytes 4 < 2 ^ 31)
    (compatible : CString) :
    (∃ r, (fdtNodeByCompatibleOffset blob (some compatible)).Returns r ∧
      (r = fdtErrNode ∨ IsNode (ctxOf blob) r)) ↔ ¬ Overrun blob (ctxOf blob) compatible := by
  have h := smallBlob_of_fdtValid hvalid hsmall
  generalize ctxOf blob = c at h ⊢
  constructor
  · rintro ⟨r, hr, -⟩ hover
    exact not_returns_of_overrun h hover r hr
  · intro hover
    by_cases hroot : IsNode c c.s
    · obtain ⟨ys, hfirst⟩ : ∃ ys, documentOrder c = [] ++ [c.s] :: ys :=
        List.head?_eq_some_iff.mp (head?_documentOrder c)
      simp only [returns_fdtNodeByCompatibleOffset h hroot]
      exact search_ends h compatible hroot hover ys (w := ⟨0, _⟩) hfirst (Holds.root c.s) (by simp)
    · refine ⟨fdtErrNode, ?_, Or.inl rfl⟩
      unfold fdtNodeByCompatibleOffset
      simp only [returns_ctxInit h]
      by_cases hok : ok c c.s 4
      · have hne : be32 c.base c.s ≠ fdtBeginNode := fun hbegin => hroot ⟨hok, hbegin⟩
        simp [hok, hne]
      · simp [hok]

/-- `"a"`. -/
def sampleName : CString where
  chars := [97]
  noNul := by decide

/-- A root with two children has no node at depth 15. -/
theorem twoChildren_search_ends :
    ∃ r, (fdtNodeByCompatibleOffset twoChildren (some sampleName)).Returns r := by
  have hover : ¬ Overrun twoChildren (ctxOf twoChildren) sampleName := by
    rintro ⟨xs, path, ys, hsplit, hlimit, -⟩
    have hshort : ∀ p ∈ documentOrder (ctxOf twoChildren), p.length < 16 := by decide +kernel
    have hlt := hshort path (by simp [hsplit])
    rw [hlimit.1] at hlt
    exact absurd hlt (by decide)
  obtain ⟨r, hr, -⟩ := (fdtNodeByCompatibleOffset_returns_iff twoChildren 80 (by decide +kernel)
    (by decide +kernel) sampleName).mpr hover
  exact ⟨r, hr⟩

/-- Seventeen nodes, each the only child of the one before, without properties. -/
def nestedNodes : Buffer :=
  blobOf
    ((List.replicate 17 (wordBytes fdtBeginNode ++ [0, 0, 0, 0])).flatten ++
      (List.replicate 17 (wordBytes fdtEndNode)).flatten ++ wordBytes fdtEnd) []

/-- The search for a string that no node has does not end. -/
theorem nestedNodes_search_diverges :
    (fdtValid nestedNodes 248).value = true ∧ be32 nestedNodes.bytes 4 < 2 ^ 31 ∧
      ∀ r, ¬ (fdtNodeByCompatibleOffset nestedNodes (some sampleName)).Returns r := by
  have hvalid : (fdtValid nestedNodes 248).value = true := by decide +kernel
  have hsmall : be32 nestedNodes.bytes 4 < 2 ^ 31 := by decide +kernel
  refine ⟨hvalid, hsmall, ?_⟩
  have h := smallBlob_of_fdtValid hvalid hsmall
  have hlast : (documentOrder (ctxOf nestedNodes)).getLast? =
      some [160, 152, 144, 136, 128, 120, 112, 104, 96, 88, 80, 72, 64, 56, 48, 40] := by
    decide +kernel
  obtain ⟨xs, hdoc⟩ := List.getLast?_eq_some_iff.mp hlast
  have hchild : childrenOf (ctxOf nestedNodes) 160 ≠ [] := by decide +kernel
  -- No node has a property, so none matches.
  have hnone : ∀ p ∈ documentOrder (ctxOf nestedNodes), ∀ n ∈ p.head?,
      ((isCompatible nestedNodes (ctxOf nestedNodes) sampleName n).run 5).value = some false := by
    decide +kernel
  refine not_returns_of_overrun h ⟨xs, _, [], hdoc, ⟨rfl, 160, _, rfl, hchild⟩, ?_⟩
  intro p hp n hn hmatch
  rw [← hdoc] at hp
  have hfalse : (isCompatible nestedNodes (ctxOf nestedNodes) sampleName n).Returns false :=
    ⟨5, hnone p hp n hn⟩
  exact absurd (hfalse.unique hmatch) (by decide)

end Fdt
end Saski
