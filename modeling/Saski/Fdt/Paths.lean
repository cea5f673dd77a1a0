import Mathlib.Data.List.TakeWhile
import Saski.Fdt.Nodes

/-!
# Paths

`fdt_path_offset` follows the components of a path from the root.  `Entry.child` is one
component: the first of the node's children with that name, among those that the
iterator sees.  Below the depth that `fdt_parent_offset` can count to, the iterator
ends after the first child, so a path goes on only through first children there
(`FirstBelow`).
-/

namespace Saski
namespace Fdt

open Capnp Logged Prog Nesting

/-! ## Components -/

/-- The non-empty components of a path. -/
def components (path : List UInt8) : List (List UInt8) :=
  (path.splitOnP (· = slash)).filter (· ≠ [])

theorem components_cons_slash (l : List UInt8) : components (slash :: l) = components l := by
  simp [components, List.splitOnP_cons_eq_if_modifyHead]

theorem components_dropWhile_slash (l : List UInt8) :
    components (l.dropWhile (· = slash)) = components l := by
  induction l with
  | nil => rfl
  | cons x l ih =>
      by_cases hx : x = slash
      · rw [List.dropWhile_cons_of_pos (by simpa using hx), ih, hx, components_cons_slash]
      · rw [List.dropWhile_cons_of_neg (by simpa using hx)]

theorem components_of_slashes {l : List UInt8} (h : ∀ x ∈ l, x = slash) : components l = [] := by
  rw [← components_dropWhile_slash, List.dropWhile_eq_nil_iff.mpr (by simpa using h)]
  rfl

/-- The first component ends at the first separator. -/
theorem components_of_head {x : UInt8} {l : List UInt8} (hx : x ≠ slash) :
    components (x :: l) = (x :: l).takeWhile (· ≠ slash) ::
      components ((x :: l).dropWhile (· ≠ slash)) := by
  have hsplit := List.takeWhile_append_dropWhile (p := (· ≠ slash)) (l := x :: l)
  have hnone : ∀ y ∈ (x :: l).takeWhile (· ≠ slash), ¬ (decide (y = slash)) = true := by
    intro y hy
    simpa using List.mem_takeWhile_imp hy
  have hne : (x :: l).takeWhile (· ≠ slash) ≠ [] := by simp [hx]
  generalize (x :: l).takeWhile (· ≠ slash) = first at hsplit hnone hne
  cases hrest : (x :: l).dropWhile (· ≠ slash) with
  | nil =>
      rw [hrest, List.append_nil] at hsplit
      rw [← hsplit, components, List.splitOnP_eq_singleton (by simpa using hnone)]
      simp [hne, components]
  | cons y rest =>
      have hy : y = slash := by
        have hhead := List.head_dropWhile_not (· ≠ slash) (hrest ▸ List.cons_ne_nil y rest)
        simp only [hrest, List.head_cons] at hhead
        simpa using hhead
      rw [hrest] at hsplit
      rw [← hsplit, components, List.splitOnP_append_cons _ _ (by simpa using hy), hy,
        components_cons_slash, List.splitOnP_eq_singleton (by simpa using hnone)]
      simp [hne, components]

theorem head?_dropWhile_slash (l : List UInt8) :
    (l.dropWhile (· = slash)).head? ≠ some slash := by
  intro hhead
  have hnot := List.head?_dropWhile_not (· = slash) l
  rw [hhead] at hnot
  simp at hnot

/-- Behind the first component there is less of the path. -/
theorem length_rest_lt {x : UInt8} (hx : x ≠ slash) (l : List UInt8) :
    (((x :: l).dropWhile (· ≠ slash)).dropWhile (· = slash)).length < (x :: l).length := by
  rw [List.dropWhile_cons_of_pos (by simpa using hx), List.length_cons]
  have h1 := List.length_dropWhile_le (· = slash) (l.dropWhile (· ≠ slash))
  have h2 := List.length_dropWhile_le (· ≠ slash) l
  omega

/-! ## Names -/

def Nodes.names : Nodes → List (List UInt8)
  | .nil => []
  | .cons _ name _ _ _ rest => name.chars :: rest.names

/-- The names of siblings are distinct, and all names are non-empty and without a
separator. -/
def Nodes.WellNamed : Nodes → Prop
  | .nil => True
  | .cons _ name _ kids _ rest =>
      name.chars ≠ [] ∧ slash ∉ name.chars ∧ name.chars ∉ rest.names ∧ kids.WellNamed ∧
        rest.WellNamed

theorem Nodes.map_name_tops (f : Nodes) (p : Int) (above : List Int) (way : List (List UInt8)) :
    (f.tops p above way).map (·.name.chars) = f.names := by
  induction f generalizing p with
  | nil => rfl
  | cons gap name props kids close rest _ ihrest =>
      rw [Nodes.tops, List.map_cons, ihrest]
      rfl

theorem Nodes.WellNamed.nodup {f : Nodes} (h : f.WellNamed) : f.names.Nodup := by
  induction f with
  | nil => exact List.nodup_nil
  | cons gap name props kids close rest _ ihrest =>
      obtain ⟨-, -, hnotMem, -, hrest⟩ := h
      exact List.nodup_cons.mpr ⟨hnotMem, ihrest hrest⟩

theorem Nodes.WellNamed.inner {f : Nodes} (h : f.WellNamed) {p : Int} {above : List Int}
    {way : List (List UInt8)} {e : Entry} (he : e ∈ f.entries p above way) :
    e.inner.WellNamed := by
  induction f generalizing p above way with
  | nil => exact absurd he List.not_mem_nil
  | cons gap name props kids close rest ihkids ihrest =>
      obtain ⟨-, -, -, hkids, hrest⟩ := h
      rw [Nodes.entries, List.mem_cons, List.mem_append] at he
      rcases he with rfl | hin | hbehind
      · exact hkids
      · exact ihkids hkids hin
      · exact ihrest hrest hbehind

theorem DeviceTree.inner_wellNamed {t : DeviceTree} (h : t.kids.WellNamed) {p : Int} {e : Entry}
    (he : e ∈ t.entries p) : e.inner.WellNamed := by
  rcases List.mem_cons.mp he with rfl | hbelow
  · exact h
  · exact h.inner hbelow

/-! ## Following a path in the tree -/

/-- The children that the iterator sees. -/
def Entry.candidates (e : Entry) : List Entry :=
  if e.depth < fdtMaxDepth then e.children else e.children.take 1

/-- One component of a path. -/
def Entry.child (e : Entry) (name : List UInt8) : Option Entry :=
  e.candidates.find? (·.name.chars = name)

def Entry.lookup (e : Entry) (names : List (List UInt8)) : Option Entry :=
  names.foldlM Entry.child e

/-- Every node on the way to `e` that is deeper than the iterator can go is the first
child of its parent. -/
def DeviceTree.FirstBelow (t : DeviceTree) (p : Int) (e : Entry) : Prop :=
  ∀ a ∈ t.entries p, a.off ∈ e.off :: e.above → fdtMaxDepth < a.depth →
    ∃ b ∈ t.entries p, b.children.head? = some a

theorem depth_of_mem_children {e x : Entry} (hx : x ∈ e.children) : x.depth = e.depth + 1 := by
  obtain ⟨habove, -⟩ := above_of_mem_tops hx
  simp [Entry.depth, habove]

theorem mem_candidates_iff {e x : Entry} :
    x ∈ e.candidates ↔
      x ∈ e.children ∧ (fdtMaxDepth < x.depth → e.children.head? = some x) := by
  unfold Entry.candidates
  by_cases hdepth : e.depth < fdtMaxDepth
  · rw [if_pos hdepth]
    refine ⟨fun hx => ⟨hx, fun hdeep => ?_⟩, And.left⟩
    have := depth_of_mem_children hx
    omega
  · rw [if_neg hdepth]
    constructor
    · intro hx
      cases hkids : e.children with
      | nil => simp [hkids] at hx
      | cons y ys =>
          obtain rfl : x = y := by simpa [hkids] using hx
          exact ⟨List.mem_cons_self, fun _ => rfl⟩
    · rintro ⟨hx, hfirst⟩
      have hhead := hfirst (by have := depth_of_mem_children hx; omega)
      obtain ⟨ys, hkids⟩ := List.head?_eq_some_iff.mp hhead
      simp [hkids]

/-- With distinct names, a component leads to the one child that has it as its name. -/
theorem child_eq_some_iff {e : Entry} (h : e.inner.WellNamed) {name : List UInt8} {x : Entry} :
    e.child name = some x ↔
      x ∈ e.children ∧ x.name.chars = name ∧
        (fdtMaxDepth < x.depth → e.children.head? = some x) := by
  have hnodup : (e.children.map (·.name.chars)).Nodup := by
    rw [Entry.children, Nodes.map_name_tops]
    exact h.nodup
  constructor
  · intro hfind
    have hname := List.find?_some hfind
    obtain ⟨hx, hfirst⟩ := mem_candidates_iff.mp (List.mem_of_find?_eq_some hfind)
    exact ⟨hx, by simpa using hname, hfirst⟩
  · rintro ⟨hx, rfl, hfirst⟩
    have hmem := mem_candidates_iff.mpr ⟨hx, hfirst⟩
    cases hfind : e.child x.name.chars with
    | none =>
        have hnone := List.find?_eq_none.mp hfind x hmem
        simp at hnone
    | some y =>
        have hname : y.name.chars = x.name.chars := by simpa using List.find?_some hfind
        obtain ⟨hy, -⟩ := mem_candidates_iff.mp (List.mem_of_find?_eq_some hfind)
        rw [List.inj_on_of_nodup_map hnodup hy hx hname]

/-! ## Offsets tell nodes apart -/

theorem nodeOff_lt_kidsOff (gap : Nat) (name : CString) (props : List Property) (p : Int) :
    nodeOff gap p < kidsOff gap name props p := by
  simp only [kidsOff, nodeHeader, List.length_append, length_wordBytes]
  omega

/-- The nodes stand in document order, inside the bytes of their list. -/
theorem entries_sorted (f : Nodes) (p : Int) (above : List Int) (way : List (List UInt8)) :
    (∀ e ∈ f.entries p above way, p ≤ e.off ∧ e.off < p + f.bytes.length) ∧
      (f.entries p above way).Pairwise (·.off < ·.off) := by
  induction f generalizing p above way with
  | nil => simp [Nodes.entries]
  | cons gap name props kids close rest ihkids ihrest =>
      obtain ⟨hkids, hsortedKids⟩ := ihkids (kidsOff gap name props p) (nodeOff gap p :: above)
        (name.chars :: way)
      obtain ⟨hrest, hsortedRest⟩ := ihrest (restOff gap name props kids close p) above way
      have hend := restOff_add_length gap name props kids close rest p
      have hnode : p ≤ nodeOff gap p := by
        unfold nodeOff
        omega
      have hinside := nodeOff_lt_kidsOff gap name props p
      have hbehind : kidsOff gap name props p + kids.bytes.length ≤
          restOff gap name props kids close p := by
        unfold restOff
        omega
      simp only [Nodes.entries, List.mem_cons, List.mem_append, List.pairwise_cons,
        List.pairwise_append]
      refine ⟨?_, ?_, hsortedKids, hsortedRest, fun a ha b hb => ?_⟩
      · rintro e (rfl | hin | hbeh)
        · exact ⟨hnode, by simp only; omega⟩
        · have := hkids e hin
          omega
        · have := hrest e hbeh
          omega
      · rintro e (hin | hbeh)
        · have := hkids e hin
          omega
        · have := hrest e hbeh
          omega
      · have h1 := hkids a ha
        have h2 := hrest b hb
        omega

theorem DeviceTree.off_inj {t : DeviceTree} {p : Int} {a b : Entry} (ha : a ∈ t.entries p)
    (hb : b ∈ t.entries p) (hoff : a.off = b.off) : a = b := by
  obtain ⟨hkids, hsorted⟩ := entries_sorted t.kids (kidsOff 0 t.name t.props p) [p] []
  have hroot : ∀ e ∈ t.kids.entries (kidsOff 0 t.name t.props p) [p] [], p < e.off := by
    intro e he
    have hlt := nodeOff_lt_kidsOff 0 t.name t.props p
    have hle := (hkids e he).1
    simp only [nodeOff, nops, List.replicate_zero, List.flatten_nil, List.length_nil] at hlt
    omega
  have hall : (t.entries p).Pairwise (·.off < ·.off) := List.pairwise_cons.mpr ⟨hroot, hsorted⟩
  have hnodup : ((t.entries p).map Entry.off).Nodup :=
    (List.pairwise_map.mpr hall).imp ne_of_lt
  exact List.inj_on_of_nodup_map hnodup ha hb hoff

/-! ## The nodes that a path names -/

section Lookup

variable {t : DeviceTree} {p : Int} (h : t.kids.WellNamed)

theorem FirstBelow.root : t.FirstBelow p (t.rootEntry p) := by
  intro a ha hoff hdeep
  have hroot : t.rootEntry p ∈ t.entries p := List.mem_cons_self
  obtain rfl := DeviceTree.off_inj ha hroot (by simpa [DeviceTree.rootEntry] using hoff)
  exact absurd hdeep (by simp [Entry.depth, DeviceTree.rootEntry])

theorem firstBelow_child {e x : Entry} (he : e ∈ t.entries p) (hx : x ∈ e.children) :
    t.FirstBelow p x ↔
      t.FirstBelow p e ∧ (fdtMaxDepth < x.depth → e.children.head? = some x) := by
  obtain ⟨habove, -⟩ := above_of_mem_tops hx
  have hmem := DeviceTree.mem_entries_of_mem_children he hx
  constructor
  · intro hfirst
    refine ⟨fun a ha hoff => hfirst a ha ?_, fun hdeep => ?_⟩
    · rw [habove]
      exact List.mem_cons_of_mem _ hoff
    · obtain ⟨b, hb, hhead⟩ := hfirst x hmem List.mem_cons_self hdeep
      -- A node has only one parent.
      obtain ⟨habove', -⟩ := above_of_mem_tops (List.mem_of_head? hhead)
      have hoff : b.off = e.off := (List.cons.inj (habove'.symm.trans habove)).1
      rwa [DeviceTree.off_inj hb he hoff] at hhead
  · rintro ⟨hfirst, hhead⟩ a ha hoff hdeep
    rcases List.mem_cons.mp hoff with hself | hup
    · obtain rfl := DeviceTree.off_inj ha hmem hself
      exact ⟨e, he, hhead hdeep⟩
    · rw [habove] at hup
      exact hfirst a ha hup hdeep

include h

/-- **A sequence of names leads to the node that it names**, if the iterator can get
there. -/
theorem lookup_eq_some_iff {names : List (List UInt8)} {x : Entry} :
    (t.rootEntry p).lookup names = some x ↔
      x ∈ t.entries p ∧ x.way.reverse = names ∧ t.FirstBelow p x := by
  induction names using List.reverseRecOn generalizing x with
  | nil =>
      constructor
      · intro hx
        obtain rfl := Option.some.inj hx
        exact ⟨List.mem_cons_self, rfl, FirstBelow.root⟩
      · rintro ⟨hx, hway, -⟩
        rcases DeviceTree.eq_root_or_mem_children hx with rfl | ⟨e, -, hchild⟩
        · rfl
        · obtain ⟨-, hcons⟩ := above_of_mem_tops hchild
          exact absurd hway (by simp [hcons])
  | append_singleton names name ih =>
      have hstep : (t.rootEntry p).lookup (names ++ [name]) =
          (t.rootEntry p).lookup names >>= fun e => e.child name := by
        simp [Entry.lookup]
      rw [hstep, Option.bind_eq_bind, Option.bind_eq_some_iff]
      constructor
      · rintro ⟨e, hlookup, hchild⟩
        obtain ⟨he, rfl, hfirst⟩ := ih.mp hlookup
        obtain ⟨hx, rfl, hhead⟩ :=
          (child_eq_some_iff (DeviceTree.inner_wellNamed h he)).mp hchild
        obtain ⟨-, hway⟩ := above_of_mem_tops hx
        refine ⟨DeviceTree.mem_entries_of_mem_children he hx, ?_, ?_⟩
        · rw [hway, List.reverse_cons]
        · exact (firstBelow_child he hx).mpr ⟨hfirst, hhead⟩
      · rintro ⟨hx, hway, hfirst⟩
        rcases DeviceTree.eq_root_or_mem_children hx with rfl | ⟨e, he, hchild⟩
        · exact absurd hway (by simp [DeviceTree.rootEntry])
        · obtain ⟨-, hcons⟩ := above_of_mem_tops hchild
          rw [hcons, List.reverse_cons] at hway
          obtain ⟨hbefore, hlast⟩ := List.append_inj' hway rfl
          obtain ⟨hfirst, hhead⟩ := (firstBelow_child he hchild).mp hfirst
          refine ⟨e, ih.mpr ⟨he, hbefore, hfirst⟩, ?_⟩
          apply (child_eq_some_iff (DeviceTree.inner_wellNamed h he)).mpr
          exact ⟨hchild, (List.cons.inj hlast).1, hhead⟩

/-- The path is absolute, and its components are the names on the way to the node. -/
def PathNames (path : CString) (e : Entry) : Prop :=
  path.chars.head? = some slash ∧ components path.chars = e.way.reverse

/-- The node at the end of a path. -/
def DeviceTree.resolve (t : DeviceTree) (p : Int) (path : CString) : Option Entry :=
  if path.chars.head? = some slash then (t.rootEntry p).lookup (components path.chars) else none

theorem resolve_eq_some_iff {path : CString} {x : Entry} :
    t.resolve p path = some x ↔ x ∈ t.entries p ∧ PathNames path x ∧ t.FirstBelow p x := by
  unfold DeviceTree.resolve PathNames
  by_cases habs : path.chars.head? = some slash
  · rw [if_pos habs, lookup_eq_some_iff h, eq_comm (a := x.way.reverse)]
    simp [habs]
  · simp [habs]

end Lookup

/-! ## The walk -/

/-- The comparison with a name of the same length. -/
theorem value_nameEq {c : Ctx} {n : Int} {name l : List UInt8} (hbytes : BytesAt c n name)
    (hlen : name.length = l.length) : (nameEq c n l).value = decide (name = l) := by
  induction l generalizing n name with
  | nil =>
      obtain rfl := List.length_eq_zero_iff.mp hlen
      rfl
  | cons y ys ih =>
      obtain ⟨z, zs, rfl⟩ := List.exists_cons_of_length_eq_add_one hlen
      have hz : z = c.base n := by simpa using hbytes.2.2 0 (by simp)
      have hrest := ih (BytesAt.right (l := [z]) hbytes) (by simpa using hlen)
      rw [List.length_singleton, Nat.cast_one] at hrest
      unfold nameEq
      simp -implicitDefEqProofs only [value_bind, value_rdByte]
      by_cases heq : c.base n = y
      · rw [if_pos heq, hrest, hz, heq]
        simp
      · rw [if_neg heq, hz]
        simp [heq]

namespace WellFormed

variable {blob : Buffer} {t : DeviceTree} (h : WellFormed blob t)

include h

/-- The name of a node, in the block. -/
theorem name_at {x : Entry} (hx : x ∈ t.entries (ctxOf blob).s) :
    nameLen (ctxOf blob) (x.off + 4) = some x.name.chars.length ∧
      BytesAt (ctxOf blob) (x.off + 4) x.name.chars := by
  have hpadded := (h.nodeOf hx).header.right
  rw [length_wordBytes, Nat.cast_ofNat] at hpadded
  exact ⟨nameLen_of_bytesAt hpadded, hpadded.left.left⟩

/-- One child is compared with the component. -/
theorem returns_componentBody {x : Entry} (hx : x ∈ t.entries (ctxOf blob).s) {cur next : Int}
    (component : List UInt8) (hnext : (fdtNextSibling blob cur x.off).Returns next) :
    (componentBody blob (ctxOf blob) cur component x.off).Returns
      (if x.name.chars = component then .inr x.off else .inl next) := by
  have hne : x.off ≠ fdtErrNode := h.ne_errNode ((h.nodeOf hx).header.left.ok le_rfl)
  obtain ⟨hname, hchars⟩ := h.name_at hx
  unfold componentBody
  rw [if_neg hne, returns_bind_of (returns_nodeName _ _), hname]
  simp only
  by_cases hlen : x.name.chars.length = component.length
  · rw [if_pos hlen, returns_liftM_bind, value_nameEq hchars hlen]
    by_cases heq : x.name.chars = component
    · simp [heq]
    · simp only [heq, decide_false, Bool.false_eq_true, if_false]
      rw [returns_bind_of hnext]
      simp
  · have heq : x.name.chars ≠ component := fun heq => hlen (congrArg List.length heq)
    rw [if_neg hlen, if_neg heq, returns_bind_of hnext]
    simp

/-- The iterator goes through the candidates. -/
theorem returns_nextCandidate {e x : Entry} (he : e ∈ t.entries (ctxOf blob).s)
    {xs ys : List Entry} (hsplit : e.candidates = xs ++ x :: ys) :
    (fdtNextSibling blob e.off x.off).Returns ((ys.head?.map Entry.off).getD fdtErrNode) := by
  have hnode := h.nodeOf he
  obtain ⟨r, hopen⟩ := hnode.marks_eq h.toHeader
  rw [← List.head?_map]
  unfold Entry.candidates at hsplit
  by_cases hdepth : e.depth < fdtMaxDepth
  · rw [if_pos hdepth] at hsplit
    apply returns_fdtNextSibling_children h.toSmallBlob hnode.reaches hopen hdepth
    rw [hnode.children, hsplit, List.map_append, List.map_cons]
  · rw [if_neg hdepth] at hsplit
    have hx : x ∈ e.children := List.mem_of_mem_take (by rw [hsplit]; simp)
    have hys : ys = [] := by
      have hlen := congrArg List.length hsplit
      simp only [List.length_take, List.length_append, List.length_cons] at hlen
      exact List.length_eq_zero_iff.mp (by omega)
    have hparent : parentOf (ctxOf blob) x.off = fdtErrNode := by
      have hdeep := depth_of_mem_children hx
      rw [h.parentOf_entry (DeviceTree.mem_entries_of_mem_children he hx), if_neg (by omega)]
    -- Only the first child is seen: `fdt_parent_offset` does not find its parent.
    have hne := h.ne_errNode (hnode.header.left.ok le_rfl)
    have hnext := returns_fdtNextSibling h.toSmallBlob hne x.off
    rw [hparent, if_neg hne.symm] at hnext
    rw [hys]
    exact hnext

theorem returns_firstCandidate {e : Entry} (he : e ∈ t.entries (ctxOf blob).s) :
    (fdtFirstChild blob e.off).Returns ((e.candidates.head?.map Entry.off).getD fdtErrNode) := by
  have hfirst := returns_fdtFirstChild_children h.toSmallBlob e.off
  rw [(h.nodeOf he).children, List.head?_map] at hfirst
  have hhead : e.candidates.head? = e.children.head? := by
    unfold Entry.candidates
    split
    · rfl
    · cases e.children <;> rfl
  rwa [hhead]

theorem returns_componentLoop {e : Entry} (he : e ∈ t.entries (ctxOf blob).s)
    (component : List UInt8) (ys : List Entry) :
    ∀ xs, e.candidates = xs ++ ys →
      (loop (componentBody blob (ctxOf blob) e.off component)
          ((ys.head?.map Entry.off).getD fdtErrNode)).Returns
        (((ys.find? (·.name.chars = component)).map Entry.off).getD fdtErrNode) := by
  induction ys with
  | nil =>
      intro xs _
      apply returns_loop_of_done
      simp [componentBody]
  | cons x ys ih =>
      intro xs hsplit
      have hx : x ∈ t.entries (ctxOf blob).s := by
        apply DeviceTree.mem_entries_of_mem_children he
        exact (mem_candidates_iff.mp (by simp [hsplit])).1
      have hbody := h.returns_componentBody hx component (h.returns_nextCandidate he hsplit)
      rw [List.find?_cons]
      by_cases heq : x.name.chars = component
      · rw [if_pos heq] at hbody
        simpa [heq] using returns_loop_of_done hbody
      · rw [if_neg heq] at hbody
        simpa [heq] using returns_loop_of_step hbody (ih (xs ++ [x]) (by simp [hsplit]))

/-- One component of the path. -/
theorem returns_component {β : Type} {e : Entry} (he : e ∈ t.entries (ctxOf blob).s)
    (component : List UInt8) (k : Int → Prog Access β) (b : β) :
    (do
      let first ← fdtFirstChild blob e.off
      let found ← loop (componentBody blob (ctxOf blob) e.off component) first
      k found).Returns b ↔
      (k (((e.child component).map Entry.off).getD fdtErrNode)).Returns b := by
  rw [returns_bind_of (h.returns_firstCandidate he),
    returns_bind_of (h.returns_componentLoop he component e.candidates [] rfl)]
  rfl

/-- The components are followed one after the other. -/
theorem returns_pathLoop {e : Entry} (he : e ∈ t.entries (ctxOf blob).s) (path : List UInt8)
    (hpath : path.head? ≠ some slash) :
    (loop (pathBody blob (ctxOf blob)) (e.off, path)).Returns
      (((e.lookup (components path)).map Entry.off).getD fdtErrNode) := by
  induction hn : path.length using Nat.strong_induction_on generalizing e path with
  | h n ih =>
      cases path with
      | nil =>
          apply returns_loop_of_done
          simp [pathBody, components, Entry.lookup]
      | cons x l =>
          have hx : x ≠ slash := by simpa using hpath
          have hlen := length_rest_lt hx l
          have hhead := head?_dropWhile_slash ((x :: l).dropWhile (· ≠ slash))
          rw [components_of_head hx, ← components_dropWhile_slash]
          generalize hrest : ((x :: l).dropWhile (· ≠ slash)).dropWhile (· = slash) = rest
            at hlen hhead ⊢
          cases hchild : e.child ((x :: l).takeWhile (· ≠ slash)) with
          | none =>
              have hbody : (pathBody blob (ctxOf blob) (e.off, x :: l)).Returns
                  (.inr fdtErrNode) := by
                rw [pathBody, if_neg (by simp), h.returns_component he, hchild]
                simp
              rw [Entry.lookup, List.foldlM_cons, hchild]
              exact returns_loop_of_done hbody
          | some y =>
              have hy : y ∈ t.entries (ctxOf blob).s :=
                DeviceTree.mem_entries_of_mem_children he
                  (mem_candidates_iff.mp (List.mem_of_find?_eq_some hchild)).1
              have hne := h.ne_errNode ((h.nodeOf hy).header.left.ok le_rfl)
              have hbody : (pathBody blob (ctxOf blob) (e.off, x :: l)).Returns
                  (.inl (y.off, rest)) := by
                rw [pathBody, if_neg (by simp), h.returns_component he, hchild]
                simp [hne, ← hrest]
              have hloop := ih rest.length (by omega) hy rest hhead rfl
              rw [Entry.lookup, List.foldlM_cons, hchild]
              exact returns_loop_of_step hbody hloop

/-- `fdt_path_offset` follows the components of an absolute path from the root. -/
theorem returns_fdtPathOffset (path : CString) :
    (fdtPathOffset blob (some path)).Returns
      (((t.resolve (ctxOf blob).s path).map Entry.off).getD fdtErrNode) := by
  have hroot : t.rootEntry (ctxOf blob).s ∈ t.entries (ctxOf blob).s := List.mem_cons_self
  have hheader := (h.nodeOf hroot).header.left
  have hok : ok (ctxOf blob) (ctxOf blob).s 4 := hheader.ok le_rfl
  have htoken : be32 (ctxOf blob).base (ctxOf blob).s = fdtBeginNode := hheader.be32 (by decide)
  unfold fdtPathOffset DeviceTree.resolve
  rw [returns_ctxInit h.toSmallBlob]
  by_cases habs : path.chars.head? = some slash
  · have hloop := h.returns_pathLoop hroot (path.chars.dropWhile (· = slash))
      (head?_dropWhile_slash path.chars)
    rw [components_dropWhile_slash] at hloop
    simp only [habs, not_true_eq_false, if_false, if_true, hok, htoken, returns_rdBe32, ne_eq,
      h.offOf_token hok]
    split
    case isTrue hempty =>
      -- Only separators: there is nothing to follow.
      have hnone : components path.chars = [] := by
        rw [← components_dropWhile_slash, hempty]
        rfl
      rw [hnone, returns_pure]
      rfl
    case isFalse => exact hloop
  · simp [habs]

end WellFormed

/-- **`fdt_path_offset` resolves exactly the paths of the tree** that the iterator can
follow. -/
theorem fdtPathOffset_exact {blob : Buffer} {t : DeviceTree} (h : WellFormed blob t)
    (hnames : t.kids.WellNamed) (path : CString) :
    ∃ r, (fdtPathOffset blob (some path)).Returns r ∧
      (∀ e ∈ t.entries (ctxOf blob).s,
        r = e.off ↔ PathNames path e ∧ t.FirstBelow (ctxOf blob).s e) ∧
      ((∀ e ∈ t.entries (ctxOf blob).s,
        ¬ (PathNames path e ∧ t.FirstBelow (ctxOf blob).s e)) → r = fdtErrNode) ∧
      (path.chars ≠ [] → (∀ x ∈ path.chars, x = slash) →
        r = (t.rootEntry (ctxOf blob).s).off) := by
  refine ⟨_, h.returns_fdtPathOffset path, fun e he => ?_, fun hnone => ?_, fun hne hall => ?_⟩
  · have hiff : t.resolve (ctxOf blob).s path = some e ↔
        PathNames path e ∧ t.FirstBelow (ctxOf blob).s e := by
      simp [resolve_eq_some_iff hnames, he]
    rw [← hiff]
    cases hfound : t.resolve (ctxOf blob).s path with
    | none =>
        have hoff := h.ne_errNode ((h.nodeOf he).header.left.ok le_rfl)
        simp [hoff.symm]
    | some x =>
        have hx := ((resolve_eq_some_iff hnames).mp hfound).1
        rw [Option.map_some, Option.getD_some, Option.some.injEq]
        exact ⟨DeviceTree.off_inj hx he, congrArg Entry.off⟩
  · cases hfound : t.resolve (ctxOf blob).s path with
    | none => rfl
    | some x =>
        obtain ⟨hx, hgood⟩ := (resolve_eq_some_iff hnames).mp hfound
        exact absurd hgood (hnone x hx)
  · have hhead : path.chars.head? = some slash := by
      obtain ⟨x, l, hcons⟩ := List.exists_cons_of_ne_nil hne
      rw [hcons, List.head?_cons, hall x (by simp [hcons])]
    rw [DeviceTree.resolve, if_pos hhead, components_of_slashes hall]
    rfl

theorem wellNamed_sampleTree : sampleTree.kids.WellNamed := by
  simp [sampleTree, Nodes.WellNamed, Nodes.names, slash]

/-- The path `/a//b@1/`. -/
def samplePath : CString where
  chars := [0x2f, 97, 0x2f, 0x2f, 98, 64, 49, 0x2f]
  noNul := by decide

theorem sampleTree_pathOffset :
    WellFormed (blobOf sampleTree.structBlock [112, 0]) sampleTree ∧
      sampleTree.kids.WellNamed ∧
      (fdtPathOffset (blobOf sampleTree.structBlock [112, 0]) (some samplePath)).Returns 76 := by
  have hs : (ctxOf (blobOf sampleTree.structBlock [112, 0])).s = 40 := by decide +kernel
  obtain ⟨r, hr, hiff, -⟩ :=
    fdtPathOffset_exact wellFormed_sampleTree wellNamed_sampleTree samplePath
  rw [hs] at hiff
  have hshallow : ∀ e ∈ sampleTree.entries 40, e.depth ≤ fdtMaxDepth := by decide +kernel
  have hfound := (hiff _ (List.mem_cons_of_mem _ (List.mem_cons_of_mem _ List.mem_cons_self))).mpr
    ⟨⟨rfl, by decide +kernel⟩, fun a ha _ hdeep => absurd hdeep (by have := hshallow a ha; omega)⟩
  rw [hfound] at hr
  exact ⟨wellFormed_sampleTree, wellNamed_sampleTree, hr⟩

/-! ## Too deep -/

/-- `n` nodes named `a`, each inside the one before. -/
def chain : Nat → Nodes
  | 0 => .nil
  | n + 1 => .cons 0 ⟨[97], by decide⟩ [] (chain n) 0 .nil

def chainTree (n : Nat) : DeviceTree where
  name := ⟨[], noNul_nil⟩
  props := []
  kids := chain n
  close := 0
  after := 0

/-- The path `/a/a/…` of `n` components. -/
def chainPath (n : Nat) : CString where
  chars := (List.replicate n [0x2f, 97]).flatten
  noNul := by
    induction n with
    | zero => simp
    | succ n _ => simp [List.replicate_succ]

theorem wellNamed_chain (n : Nat) : (chain n).WellNamed := by
  induction n with
  | zero => trivial
  | succ n ih => exact ⟨by simp, by simp [slash], by simp [Nodes.names], ih, trivial⟩

theorem Nodes.way_length {f : Nodes} {p : Int} {above : List Int} {way : List (List UInt8)}
    (hlen : above.length = way.length + 1) {e : Entry} (he : e ∈ f.entries p above way) :
    e.way.length = e.depth := by
  induction f generalizing p above way with
  | nil => exact absurd he List.not_mem_nil
  | cons gap name props kids close rest ihkids ihrest =>
      rw [Nodes.entries, List.mem_cons, List.mem_append] at he
      rcases he with rfl | hin | hbehind
      · simp [Entry.depth, hlen]
      · exact ihkids (by simp [hlen]) hin
      · exact ihrest hlen hbehind

/-- There are as many names on the way as the node is deep. -/
theorem DeviceTree.way_length {t : DeviceTree} {p : Int} {e : Entry} (he : e ∈ t.entries p) :
    e.way.length = e.depth := by
  rcases List.mem_cons.mp he with rfl | hbelow
  · rfl
  · exact Nodes.way_length rfl hbelow

/-- A path to a node of depth 17 is resolved, where the node is a first child. -/
theorem chainTree_deep_path :
    WellFormed (blobOf (chainTree 17).structBlock []) (chainTree 17) ∧
      (chainTree 17).kids.WellNamed ∧
      (∀ e ∈ (chainTree 17).entries 40, e.depth ≤ 16 → ¬ PathNames (chainPath 17) e) ∧
      (fdtPathOffset (blobOf (chainTree 17).structBlock []) (some (chainPath 17))).Returns 176 ∧
      (176 : Int) ≠ fdtErrNode := by
  have hformed : WellFormed (blobOf (chainTree 17).structBlock []) (chainTree 17) :=
    wellFormed_blobOf (chainTree 17) [] (by decide +kernel) (by decide +kernel)
  refine ⟨hformed, wellNamed_chain 17, fun e he hdepth hpath => ?_, ⟨60, by decide +kernel⟩,
    by decide⟩
  have hlen := congrArg List.length hpath.2
  rw [List.length_reverse, DeviceTree.way_length he] at hlen
  have hcount : (components (chainPath 17).chars).length = 17 := by decide +kernel
  omega

end Fdt
end Saski
