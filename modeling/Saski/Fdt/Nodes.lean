import Saski.Fdt.Tree

/-!
# The nodes of a tree

Each node of a device tree has an entry: its offset, the nodes around it, its name, its
properties and its children.  On a well-formed blob the walks find exactly these
(`WellFormed.nodeOf`): the reading of the structure block arrives at the node with the
nodes around it open, its name stands behind its `BEGIN_NODE` and its properties behind
the name, and its brackets are its children.  The results about `fdt_parent_offset`
and about the two ways to go through the children follow.
-/

namespace Saski
namespace Fdt

open Capnp Logged Prog Nesting

/-! ## The children of a node -/

theorem mem_entries_of_mem_tops {f : Nodes} {p : Int} {above : List Int}
    {way : List (List UInt8)} {e : Entry} (he : e ∈ f.tops p above way) :
    e ∈ f.entries p above way := by
  induction f generalizing p with
  | nil => exact he
  | cons gap name props kids close rest _ ihrest =>
      rw [Nodes.tops, List.mem_cons] at he
      rw [Nodes.entries, List.mem_cons, List.mem_append]
      exact he.imp id fun hrest => Or.inr (ihrest hrest)

theorem above_of_mem_tops {f : Nodes} {p : Int} {above : List Int} {way : List (List UInt8)}
    {e : Entry} (he : e ∈ f.tops p above way) : e.above = above ∧ e.way = e.name.chars :: way := by
  induction f generalizing p with
  | nil => exact absurd he List.not_mem_nil
  | cons gap name props kids close rest _ ihrest =>
      rcases List.mem_cons.mp he with rfl | hrest
      · exact ⟨rfl, rfl⟩
      · exact ihrest hrest

/-- The children of a node are nodes. -/
theorem Nodes.mem_entries_of_mem_children {f : Nodes} {p : Int} {above : List Int}
    {way : List (List UInt8)} {e x : Entry} (he : e ∈ f.entries p above way)
    (hx : x ∈ e.children) : x ∈ f.entries p above way := by
  induction f generalizing p above way with
  | nil => exact absurd he List.not_mem_nil
  | cons gap name props kids close rest ihkids ihrest =>
      rw [Nodes.entries, List.mem_cons, List.mem_append] at he ⊢
      rcases he with rfl | hin | hbehind
      · exact Or.inr (Or.inl (mem_entries_of_mem_tops hx))
      · exact Or.inr (Or.inl (ihkids hin))
      · exact Or.inr (Or.inr (ihrest hbehind))

/-- A node is one of those on top, or the child of a node. -/
theorem Nodes.mem_tops_or_children {f : Nodes} {p : Int} {above : List Int}
    {way : List (List UInt8)} {x : Entry} (hx : x ∈ f.entries p above way) :
    x ∈ f.tops p above way ∨ ∃ e ∈ f.entries p above way, x ∈ e.children := by
  induction f generalizing p above way with
  | nil => exact absurd hx List.not_mem_nil
  | cons gap name props kids close rest ihkids ihrest =>
      simp only [Nodes.entries, Nodes.tops, List.mem_cons, List.mem_append] at hx ⊢
      rcases hx with rfl | hin | hbehind
      · exact Or.inl (Or.inl rfl)
      · rcases ihkids hin with htop | ⟨e, he, hchild⟩
        · exact Or.inr ⟨_, Or.inl rfl, htop⟩
        · exact Or.inr ⟨e, Or.inr (Or.inl he), hchild⟩
      · rcases ihrest hbehind with htop | ⟨e, he, hchild⟩
        · exact Or.inl (Or.inr htop)
        · exact Or.inr ⟨e, Or.inr (Or.inr he), hchild⟩

namespace DeviceTree

variable {t : DeviceTree} {p : Int}

theorem mem_entries_of_mem_children {e x : Entry} (he : e ∈ t.entries p) (hx : x ∈ e.children) :
    x ∈ t.entries p := by
  rcases List.mem_cons.mp he with rfl | hbelow
  · exact List.mem_cons_of_mem _ (mem_entries_of_mem_tops hx)
  · exact List.mem_cons_of_mem _ (Nodes.mem_entries_of_mem_children hbelow hx)

/-- Every node but the root is the child of a node. -/
theorem eq_root_or_mem_children {x : Entry} (hx : x ∈ t.entries p) :
    x = t.rootEntry p ∨ ∃ e ∈ t.entries p, x ∈ e.children := by
  rcases List.mem_cons.mp hx with rfl | hbelow
  · exact Or.inl rfl
  · rcases Nodes.mem_tops_or_children hbelow with htop | ⟨e, he, hchild⟩
    · exact Or.inr ⟨t.rootEntry p, List.mem_cons_self, htop⟩
    · exact Or.inr ⟨e, List.mem_cons_of_mem _ he, hchild⟩

end DeviceTree

/-! ## Brackets -/

theorem balanced_properties (props : List Property) : Balanced (props.flatMap Property.marks) := by
  induction props with
  | nil => exact Balanced.nil
  | cons a props ih =>
      rw [List.flatMap_cons, Property.marks, List.append_assoc]
      exact (Balanced.content ih).gaps a.gap

/-- The inside of a node. -/
theorem balanced_node (props : List Property) {kids : List (Mark Int)} (hkids : Balanced kids)
    (close : Nat) :
    Balanced (props.flatMap Property.marks ++ (kids ++ List.replicate close .gap)) := by
  have hclose : Balanced (List.replicate close (Mark.gap : Mark Int)) := by
    simpa using Balanced.nil.gaps close
  exact (balanced_properties props).append (hkids.append hclose)

theorem Nodes.marks_cons (gap : Nat) (name : CString) (props : List Property) (kids : Nodes)
    (close : Nat) (rest : Nodes) (p : Int) :
    (Nodes.cons gap name props kids close rest).marks p =
      List.replicate gap .gap ++ .opening (nodeOff gap p) ::
        ((props.flatMap Property.marks ++
          (kids.marks (kidsOff gap name props p) ++ List.replicate close .gap)) ++
            .closing :: rest.marks (restOff gap name props kids close p)) := by
  simp [Nodes.marks]

theorem Nodes.balanced (f : Nodes) (p : Int) : Balanced (f.marks p) := by
  induction f generalizing p with
  | nil => exact Balanced.nil
  | cons gap name props kids close rest ihkids ihrest =>
      rw [Nodes.marks_cons]
      exact (Balanced.bracket _ (balanced_node props (ihkids _) close) (ihrest _)).gaps gap

theorem siblings_nodes (f : Nodes) (p : Int) (above : List Int) (way : List (List UInt8))
    (l : List (Mark Int)) :
    siblings 0 (f.marks p ++ l) = (f.tops p above way).map Entry.off ++ siblings 0 l := by
  induction f generalizing p with
  | nil => rfl
  | cons gap name props kids close rest _ ihrest =>
      have hinside := balanced_node props (kids.balanced (kidsOff gap name props p)) close
      rw [Nodes.marks_cons, List.append_assoc, siblings_gaps, List.cons_append, List.append_assoc,
        List.cons_append, siblings_bracket _ hinside, ihrest]
      rfl

theorem inside_properties (props : List Property) (l : List (Mark Int)) :
    inside (props.flatMap Property.marks ++ l) = inside l := by
  induction props with
  | nil => rfl
  | cons a props ih =>
      rw [List.flatMap_cons, Property.marks, List.append_assoc, List.append_assoc, inside_gaps]
      exact ih

/-- The brackets inside a node are its children. -/
theorem inside_nodes (f : Nodes) (p : Int) (above : List Int) (way : List (List UInt8))
    (close : Nat) (l : List (Mark Int)) :
    inside (f.marks p ++ (List.replicate close .gap ++ .closing :: l)) =
      (f.tops p above way).map Entry.off := by
  have hend : siblings 0 (List.replicate close .gap ++ .closing :: l) = ([] : List Int) := by
    rw [siblings_gaps]
    rfl
  have hall := siblings_nodes f p above way (List.replicate close .gap ++ .closing :: l)
  rw [hend, List.append_nil] at hall
  cases f with
  | nil =>
      rw [Nodes.marks, List.nil_append, inside_gaps]
      rfl
  | cons gap name props kids close' rest =>
      rw [Nodes.marks_cons, List.append_assoc] at hall ⊢
      rw [siblings_gaps] at hall
      rw [inside_gaps]
      exact hall

/-! ## Entries -/

/-- The walks find the node. -/
structure NodeOf (c : Ctx) (e : Entry) : Prop where
  header : BytesAt c e.off (nodeHeader e.name)
  props_at : BytesAt c (e.off + (nodeHeader e.name).length) (e.props.flatMap Property.bytes)
  inner_eq : e.innerOff =
    e.off + (nodeHeader e.name).length + (e.props.flatMap Property.bytes).length
  /-- The properties end where the first child or the end of the node comes. -/
  inner_at : ∃ k, BytesAt c e.innerOff (nops k) ∧
    (tokenAt c (e.innerOff + (nops k).length) = .close ∨
      ∃ w, tokenAt c (e.innerOff + (nops k).length) = .node w)
  reaches : (stream c).Reaches c.s e.above e.off
  children : children (marks c e.off) = e.children.map Entry.off

section Entries

variable {blob : Buffer} {c : Ctx} (h : Header blob c)

include h

theorem NodeOf.marks_eq {e : Entry} (hnode : NodeOf c e) :
    ∃ r, marks c e.off = .opening e.off :: r :=
  ⟨_, marks_of_node (tokenAt_node h hnode.header)⟩

variable {gap : Nat} {name : CString} {props : List Property} {kids : Nodes} {close : Nat}
  {rest : Nodes} {p : Int} (hnode : NodeAt c gap name props kids close rest p)

include hnode

/-- The marks of a node, up to the nodes behind it. -/
theorem NodeAt.marks_eq :
    marks c (nodeOff gap p) = .opening (nodeOff gap p) :: (props.flatMap Property.marks ++
      marks c (kidsOff gap name props p)) ∧
    marks c (kidsOff gap name props p) = kids.marks (kidsOff gap name props p) ++
      (List.replicate close .gap ++ .closing :: marks c (restOff gap name props kids close p)) := by
  constructor
  · rw [marks_of_node (tokenAt_node h hnode.header_at), marks_properties h hnode.props_at, kidsOff]
  · rw [marks_nodes h hnode.kids_at, marks_nops hnode.close_at, marks_end hnode]

theorem NodeAt.children (above : List Int) (way : List (List UInt8)) :
    Nesting.children (marks c (nodeOff gap p)) =
      (kids.tops (kidsOff gap name props p) above way).map Entry.off := by
  obtain ⟨hopen, hkids⟩ := hnode.marks_eq h
  rw [hopen, Nesting.children, inside_properties, hkids, inside_nodes]

/-- Behind the properties of a node, and behind NOPs, there is a node or the end. -/
theorem NodeAt.inner_at :
    ∃ k, BytesAt c (kidsOff gap name props p) (nops k) ∧
      (tokenAt c (kidsOff gap name props p + (nops k).length) = .close ∨
        ∃ w, tokenAt c (kidsOff gap name props p + (nops k).length) = .node w) := by
  cases kids with
  | nil =>
      have hclose := hnode.close_at
      have hend := hnode.end_at
      simp only [Nodes.bytes, List.length_nil, Nat.cast_zero, Int.add_zero] at hclose hend
      exact ⟨close, hclose, Or.inl (tokenAt_close hend)⟩
  | cons gap' name' props' kids' close' rest' =>
      have hfirst := hnode.kids_at.node
      exact ⟨gap', hfirst.gap_at, Or.inr ⟨_, tokenAt_node h hfirst.header_at⟩⟩

variable {above : List Int}

omit h in
/-- The reading arrives at the node, … -/
theorem NodeAt.reaches_node (hp : (stream c).Reaches c.s above p) :
    (stream c).Reaches c.s above (nodeOff gap p) :=
  hp.read (marks_nops hnode.gap_at) (enclosing_gaps above gap)

/-- … then, inside the node, at its children, … -/
theorem NodeAt.reaches_kids (hp : (stream c).Reaches c.s above p) :
    (stream c).Reaches c.s (nodeOff gap p :: above) (kidsOff gap name props p) := by
  have hinside : enclosing above (.opening (nodeOff gap p) :: props.flatMap Property.marks) =
      some (nodeOff gap p :: above) := by
    rw [enclosing_cons]
    exact (balanced_properties props).neutral _ (by simp)
  apply (hnode.reaches_node hp).read _ hinside
  exact (hnode.marks_eq h).1

/-- … and then, outside it again, at the nodes behind it. -/
theorem NodeAt.reaches_rest (hp : (stream c).Reaches c.s above p) (habove : above ≠ []) :
    (stream c).Reaches c.s above (restOff gap name props kids close p) := by
  have hbracket := Balanced.bracket (nodeOff gap p)
    (balanced_node props (kids.balanced (kidsOff gap name props p)) close) Balanced.nil
  apply (hnode.reaches_node hp).read _ (hbracket.neutral above habove)
  obtain ⟨hopen, hkids⟩ := hnode.marks_eq h
  rw [stream_marks, hopen, hkids]
  simp

theorem NodeAt.nodeOf (hp : (stream c).Reaches c.s above p) (way : List (List UInt8)) :
    NodeOf c { off := nodeOff gap p, above := above, name := name, way := way, props := props,
               inner := kids, innerOff := kidsOff gap name props p } where
  header := hnode.header_at
  props_at := hnode.props_at
  inner_eq := rfl
  inner_at := hnode.inner_at h
  reaches := hnode.reaches_node hp
  children := hnode.children h _ _

omit hnode in
/-- The walks find all nodes of a list that is inside another node. -/
theorem nodeOf_entries {f : Nodes} {p : Int} {above : List Int} {way : List (List UInt8)}
    (hbytes : BytesAt c p f.bytes) (hp : (stream c).Reaches c.s above p) (habove : above ≠ [])
    {e : Entry} (he : e ∈ f.entries p above way) : NodeOf c e := by
  induction f generalizing p above way with
  | nil => exact absurd he List.not_mem_nil
  | cons gap name props kids close rest ihkids ihrest =>
      have hnode := hbytes.node
      rw [Nodes.entries, List.mem_cons, List.mem_append] at he
      rcases he with rfl | hin | hbehind
      · exact hnode.nodeOf h hp _
      · exact ihkids hnode.kids_at (hnode.reaches_kids h hp) (by simp) hin
      · exact ihrest hnode.rest_at (hnode.reaches_rest h hp habove) habove hbehind

end Entries

theorem opening_notMem_properties (props : List Property) (n : Int) :
    Mark.opening n ∉ props.flatMap Property.marks := by
  simp [Property.marks, List.mem_flatMap]

/-- Every bracket belongs to a node. -/
theorem exists_entry_of_mem_marks {f : Nodes} {p n : Int} (above : List Int)
    (way : List (List UInt8)) (hn : .opening n ∈ f.marks p) :
    ∃ e ∈ f.entries p above way, e.off = n := by
  induction f generalizing p above way with
  | nil => exact absurd hn List.not_mem_nil
  | cons gap name props kids close rest ihkids ihrest =>
      simp only [Nodes.marks, List.mem_append, List.mem_cons, List.mem_replicate,
        opening_notMem_properties, reduceCtorEq, and_false, false_or, Mark.opening.injEq] at hn
      rcases hn with rfl | hin | hbehind
      · exact ⟨_, List.mem_cons_self, rfl⟩
      · obtain ⟨e, he, hoff⟩ := ihkids (nodeOff gap p :: above) (name.chars :: way) hin
        exact ⟨e, List.mem_cons_of_mem _ (List.mem_append_left _ he), hoff⟩
      · obtain ⟨e, he, hoff⟩ := ihrest above way hbehind
        exact ⟨e, List.mem_cons_of_mem _ (List.mem_append_right _ he), hoff⟩

namespace WellFormed

variable {blob : Buffer} {t : DeviceTree} (h : WellFormed blob t)

include h

theorem node_root :
    NodeAt (ctxOf blob) 0 t.name t.props t.kids t.close .nil (ctxOf blob).s :=
  h.block.left.node

/-- **The walks find the nodes of the tree.** -/
theorem nodeOf {e : Entry} (he : e ∈ t.entries (ctxOf blob).s) : NodeOf (ctxOf blob) e := by
  have hroot := h.node_root
  have hstart : (stream (ctxOf blob)).Reaches (ctxOf blob).s [] (ctxOf blob).s :=
    Stream.reaches_root _
  have hoff : nodeOff 0 (ctxOf blob).s = (ctxOf blob).s := by simp [nodeOff, nops]
  rcases List.mem_cons.mp he with rfl | hbelow
  · have hnode := hroot.nodeOf h.toHeader hstart []
    rwa [hoff] at hnode
  · have hkids := hroot.reaches_kids h.toHeader hstart
    rw [hoff] at hkids
    exact nodeOf_entries h.toHeader hroot.kids_at hkids (by simp) hbelow

/-- The walks find no other nodes. -/
theorem exists_entry {n : Int} (hn : .opening n ∈ marks (ctxOf blob) (ctxOf blob).s) :
    ∃ e ∈ t.entries (ctxOf blob).s, e.off = n := by
  rw [marks_tree h.toHeader h.block] at hn
  simp only [DeviceTree.root, Nodes.marks, List.mem_append, List.mem_cons, List.mem_replicate,
    opening_notMem_properties, reduceCtorEq, and_false, false_or, or_false, List.not_mem_nil,
    Mark.opening.injEq] at hn
  rcases hn with rfl | hbelow
  · exact ⟨_, List.mem_cons_self, by simp [nodeOff, nops, DeviceTree.rootEntry]⟩
  · obtain ⟨e, he, hoff⟩ := exists_entry_of_mem_marks [(ctxOf blob).s] [] hbelow
    exact ⟨e, List.mem_cons_of_mem _ he, hoff⟩

/-! ## Parents -/

theorem parentOf_entry {e : Entry} (he : e ∈ t.entries (ctxOf blob).s) :
    parentOf (ctxOf blob) e.off =
      if e.depth ≤ fdtMaxDepth then e.above.head?.getD fdtErrNode else fdtErrNode := by
  have hnode := h.nodeOf he
  obtain ⟨r, hopen⟩ := hnode.marks_eq h.toHeader
  exact parentOf_of_reaches hnode.reaches hopen

theorem parentOf_of_notMem {off : Int} (hoff : ∀ e ∈ t.entries (ctxOf blob).s, e.off ≠ off) :
    parentOf (ctxOf blob) off = fdtErrNode := by
  by_contra hne
  obtain ⟨st, r, hreaches, hopen, -⟩ := reaches_of_parentOf rfl hne
  obtain ⟨pre, hpre, -⟩ := hreaches
  rw [stream_marks, hopen] at hpre
  obtain ⟨e, he, heq⟩ := h.exists_entry (n := off) (by simp [hpre])
  exact hoff e he heq

theorem off_nonneg {e : Entry} (he : e ∈ t.entries (ctxOf blob).s) : 0 ≤ e.off := by
  have hs := h.s_nonneg
  have hle := (h.nodeOf he).header.1
  omega

end WellFormed

/-- **`fdt_parent_offset` is exact on well-formed blobs.** -/
theorem fdtParentOffset_exact {blob : Buffer} {t : DeviceTree} (h : WellFormed blob t)
    (off : Int) :
    ∃ r, (fdtParentOffset blob off).Returns r ∧
      (∀ p, r = p ∧ 0 ≤ p ↔
        ∃ e ∈ t.entries (ctxOf blob).s, e.off = off ∧ 1 ≤ e.depth ∧ e.depth ≤ fdtMaxDepth ∧
          ∃ parent ∈ t.entries (ctxOf blob).s, e ∈ parent.children ∧ parent.off = p) ∧
      (off = (t.rootEntry (ctxOf blob).s).off → r = fdtErrNode) ∧
      (∀ e ∈ t.entries (ctxOf blob).s, e.off = off → fdtMaxDepth < e.depth → r = fdtErrNode) ∧
      ((∀ e ∈ t.entries (ctxOf blob).s, e.off ≠ off) → r = fdtErrNode) := by
  refine ⟨parentOf (ctxOf blob) off, returns_fdtParentOffset h.toSmallBlob off, fun p => ?_, ?_,
    ?_, h.parentOf_of_notMem⟩
  · constructor
    · rintro ⟨rfl, hp⟩
      have hne : parentOf (ctxOf blob) off ≠ fdtErrNode := by
        unfold fdtErrNode
        omega
      -- The offset is that of a node, and the node is neither too deep nor the root.
      by_cases hnode : ∃ e ∈ t.entries (ctxOf blob).s, e.off = off
      · obtain ⟨e, he, rfl⟩ := hnode
        rw [h.parentOf_entry he] at hne ⊢
        split at hne
        case isFalse => exact absurd rfl hne
        case isTrue hdepth =>
          rw [if_pos hdepth]
          rcases DeviceTree.eq_root_or_mem_children he with rfl | ⟨parent, hparent, hchild⟩
          · exact absurd rfl hne
          · obtain ⟨habove, -⟩ := above_of_mem_tops hchild
            refine ⟨e, he, rfl, ?_, hdepth, parent, hparent, hchild, ?_⟩
            · simp [Entry.depth, habove]
            · simp [habove]
      · exact absurd (h.parentOf_of_notMem fun e he heq => hnode ⟨e, he, heq⟩) hne
    · rintro ⟨e, he, rfl, -, hdepth, parent, hparent, hchild, rfl⟩
      obtain ⟨habove, -⟩ := above_of_mem_tops hchild
      rw [h.parentOf_entry he, if_pos hdepth, habove]
      exact ⟨rfl, h.off_nonneg hparent⟩
  · rintro rfl
    rw [h.parentOf_entry List.mem_cons_self]
    rfl
  · rintro e he rfl hdeep
    rw [h.parentOf_entry he, if_neg (by omega)]

theorem noNul_nil : (0 : UInt8) ∉ [] := by decide

theorem noNul_a : (0 : UInt8) ∉ [97] := by decide

/-- A root with a property and the children `a` and `c`; `b@1` is inside `a`. -/
def sampleTree : DeviceTree where
  name := ⟨[], noNul_nil⟩
  props := [{ gap := 0, name := ⟨[112], by decide⟩, nameOff := 0, value := [1, 2, 3] }]
  kids := .cons 1 ⟨[97], noNul_a⟩ [] (.cons 0 ⟨[98, 64, 49], by decide⟩ [] .nil 0 .nil) 0
    (.cons 2 ⟨[99], by decide⟩ [] .nil 1 .nil)
  close := 0
  after := 1

theorem wellFormed_sampleTree : WellFormed (blobOf sampleTree.structBlock [112, 0]) sampleTree :=
  wellFormed_blobOf sampleTree [112, 0] (by decide) (by decide)

theorem sampleTree_parentOffset :
    WellFormed (blobOf sampleTree.structBlock [112, 0]) sampleTree ∧
      (fdtParentOffset (blobOf sampleTree.structBlock [112, 0]) 76).Returns 68 := by
  have hs : (ctxOf (blobOf sampleTree.structBlock [112, 0])).s = 40 := by decide +kernel
  obtain ⟨r, hr, hiff, -⟩ := fdtParentOffset_exact wellFormed_sampleTree 76
  rw [hs] at hiff
  -- `b@1` is the only child of `a`, which is the first child of the root.
  have hfound : r = 68 ∧ 0 ≤ (68 : Int) := (hiff 68).mpr
    ⟨_, List.mem_cons_of_mem _ (List.mem_cons_of_mem _ List.mem_cons_self), by decide +kernel,
      by decide +kernel, by decide +kernel, _, List.mem_cons_of_mem _ List.mem_cons_self,
      List.mem_cons_self, by decide +kernel⟩
  rw [hfound.1] at hr
  exact ⟨wellFormed_sampleTree, hr⟩

/-! ## Going through the children -/

/-- Calls of `fdt_next_child` until it returns 0, with the values returned so far. -/
def cursorBody (blob : Buffer) (n : Int) :
    List Int × Int → Prog Access (List Int × Int ⊕ List Int × Int)
  | (seen, cursor) => do
      let (ch, cursor) ← fdtNextChild blob n cursor
      if ch = 0 then pure (.inr (seen, cursor)) else pure (.inl (seen ++ [ch], cursor))

/-- All children that the cursor goes through from 0 on, and the cursor afterwards. -/
def eachNextChild (blob : Buffer) (n : Int) : Prog Access (List Int × Int) :=
  loop (cursorBody blob n) ([], 0)

theorem be32_of_opensAt {c : Ctx} {n : Int} {m : Mark Int} (h : OpensAt c n m) :
    be32 c.base n = fdtBeginNode := by
  rcases h with ⟨-, w, htoken⟩ | ⟨-, htoken⟩
  · exact (tokenAt_eq_node_iff.mp htoken).2.1
  · by_contra hne
    unfold tokenAt at htoken
    split_ifs at htoken

section Cursor

variable {blob : Buffer} {c : Ctx} (h : SmallBlob blob c) {n : Int} {st r : List _}
  (hn : (stream c).Reaches c.s st n) (hopen : marks c n = .opening n :: r)

include h hn hopen

/-- The offsets of children are neither 0, where the cursor starts, nor the error. -/
theorem child_ne {x : Int} (hx : x ∈ children (marks c n)) : x ≠ 0 ∧ x ≠ fdtErrNode := by
  obtain ⟨-, m, rest, hmarks, hm⟩ := hn.child hopen hx
  have hopens := opensAt_of_marks hmarks hm
  have hok := ok_of_opensAt hopens
  have hfour := h.four_le hok.1 (by rw [be32_of_opensAt hopens]; decide)
  exact ⟨by omega, h.ne_errNode hok⟩

variable (hcap : st.length < fdtMaxDepth)

include hcap

/-- The cursor is on the last child seen, and `fdt_next_child` moves it to the next. -/
theorem returns_fdtNextChild {xs ys : List Int} (hsplit : children (marks c n) = xs ++ ys) :
    (fdtNextChild blob n (xs.getLast?.getD 0)).Returns (ys.head?.getD 0, ys.head?.getD 0) := by
  have hmove : ∀ ch, ch = ys.head?.getD fdtErrNode →
      (if ch = fdtErrNode then pure (0, 0) else pure (ch, ch) : Prog Access (Int × Int)).Returns
        (ys.head?.getD 0, ys.head?.getD 0) := by
    rintro ch rfl
    cases ys with
    | nil => simp
    | cons y ys =>
        have hne := (child_ne h hn hopen (show y ∈ children (marks c n) by simp [hsplit])).2
        simp [hne]
  unfold fdtNextChild
  cases xs using List.reverseRecOn with
  | nil =>
      rw [show (([] : List Int).getLast?.getD 0) = 0 from rfl, if_pos rfl,
        returns_bind_of (returns_fdtFirstChild_children h n)]
      exact hmove _ (by rw [hsplit]; rfl)
  | append_singleton xs x =>
      have hzero := (child_ne h hn hopen (show x ∈ children (marks c n) by simp [hsplit])).1
      rw [List.append_assoc, List.singleton_append] at hsplit
      rw [List.getLast?_concat, Option.getD_some, if_neg hzero,
        returns_bind_of (returns_fdtNextSibling_children h hn hopen hcap hsplit)]
      exact hmove _ rfl

theorem returns_cursorLoop (ys : List Int) :
    ∀ xs, children (marks c n) = xs ++ ys →
      (loop (cursorBody blob n) (xs, xs.getLast?.getD 0)).Returns (xs ++ ys, 0) := by
  induction ys with
  | nil =>
      intro xs hsplit
      apply returns_loop_of_done
      rw [cursorBody, returns_bind_of (returns_fdtNextChild h hn hopen hcap hsplit)]
      simp
  | cons y ys ih =>
      intro xs hsplit
      have hzero := (child_ne h hn hopen (show y ∈ children (marks c n) by simp [hsplit])).1
      have hbody : (cursorBody blob n (xs, xs.getLast?.getD 0)).Returns (.inl (xs ++ [y], y)) := by
        rw [cursorBody, returns_bind_of (returns_fdtNextChild h hn hopen hcap hsplit)]
        simp [hzero]
      have hrest := ih (xs ++ [y]) (by simp [hsplit])
      rw [List.getLast?_concat, List.append_assoc] at hrest
      exact returns_loop_of_step hbody hrest

theorem returns_eachNextChild :
    (eachNextChild blob n).Returns (children (marks c n), 0) :=
  returns_cursorLoop h hn hopen hcap (children (marks c n)) [] rfl

end Cursor

theorem nodeOff_lt_restOff (gap : Nat) (name : CString) (props : List Property) (kids : Nodes)
    (close : Nat) (p : Int) : nodeOff gap p < restOff gap name props kids close p := by
  unfold restOff kidsOff
  omega

/-- Nodes that follow one another have increasing offsets. -/
theorem tops_sorted (f : Nodes) (p : Int) (above : List Int) (way : List (List UInt8)) :
    (∀ e ∈ f.tops p above way, p ≤ e.off) ∧
      ((f.tops p above way).map Entry.off).Pairwise (· < ·) := by
  induction f generalizing p with
  | nil => simp [Nodes.tops]
  | cons gap name props kids close rest _ ihrest =>
      obtain ⟨hle, hsorted⟩ := ihrest (restOff gap name props kids close p)
      have hlt := nodeOff_lt_restOff gap name props kids close p
      have hp : p ≤ nodeOff gap p := by
        unfold nodeOff
        omega
      simp only [Nodes.tops, List.mem_cons, forall_eq_or_imp, List.map_cons, List.pairwise_cons,
        List.mem_map, forall_exists_index, and_imp, forall_apply_eq_imp_iff₂]
      refine ⟨⟨hp, fun e he => ?_⟩, fun e he => ?_, hsorted⟩
      · have := hle e he
        omega
      · have := hle e he
        omega

/-- **Child enumeration is complete, ordered and free of duplicates**, with the cursor
and with the iterator. -/
theorem child_enumeration {blob : Buffer} {t : DeviceTree} (h : WellFormed blob t) {e : Entry}
    (he : e ∈ t.entries (ctxOf blob).s) (hdepth : e.depth ≤ 15) :
    (eachNextChild blob e.off).Returns (e.children.map Entry.off, 0) ∧
      (eachChild blob e.off).Returns (e.children.map Entry.off) ∧
      (e.children.map Entry.off).Pairwise (· < ·) := by
  have hnode := h.nodeOf he
  obtain ⟨r, hopen⟩ := hnode.marks_eq h.toHeader
  have hcap : e.above.length < fdtMaxDepth := Nat.lt_succ_of_le hdepth
  rw [← hnode.children]
  refine ⟨returns_eachNextChild h.toSmallBlob hnode.reaches hopen hcap,
    returns_eachChild h.toSmallBlob hnode.reaches hopen hcap, ?_⟩
  rw [hnode.children]
  exact (tops_sorted _ _ _ _).2

theorem sampleTree_enumeration :
    WellFormed (blobOf sampleTree.structBlock [112, 0]) sampleTree ∧
      (eachNextChild (blobOf sampleTree.structBlock [112, 0]) 40).Returns ([68, 100], 0) := by
  have hs : (ctxOf (blobOf sampleTree.structBlock [112, 0])).s = 40 := by decide +kernel
  have henum := child_enumeration wellFormed_sampleTree List.mem_cons_self (by decide)
  rw [hs] at henum
  have hkids : (sampleTree.rootEntry 40).children.map Entry.off = [68, 100] := by decide +kernel
  rw [hkids] at henum
  exact ⟨wellFormed_sampleTree, henum.1⟩

end Fdt
end Saski
