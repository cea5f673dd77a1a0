import Saski.Fdt.Iterator

/-!
# Device trees and their flattening

A device tree as the format describes it, and the bytes of its structure block: each
node is its `BEGIN_NODE`, its padded name, its properties, its children and its
`END_NODE`, with any number of NOPs between these items; `FDT_END` comes last.  A blob
is well formed if its structure block is the flattening of a tree and its strings
block holds the names of the properties.

`marks_tree` connects the two: on a well-formed blob the token stream that the walks
see is the tree's own sequence of brackets.
-/

namespace Saski
namespace Fdt

open Capnp Logged Prog Nesting

/-- A property, with the number of NOPs in front of it and the place of its name in
the strings block. -/
structure Property where
  gap : Nat
  name : CString
  nameOff : Nat
  value : List UInt8

/-- Nodes that follow one another: the first one with the NOPs in front of it, its own
contents and the NOPs in front of its end, and then the others. -/
inductive Nodes where
  | nil
  | cons (gap : Nat) (name : CString) (props : List Property) (kids : Nodes) (close : Nat)
      (rest : Nodes)

/-- A device tree: its root, and the NOPs behind it. -/
structure DeviceTree where
  name : CString
  props : List Property
  kids : Nodes
  close : Nat
  after : Nat

def DeviceTree.root (t : DeviceTree) : Nodes := .cons 0 t.name t.props t.kids t.close .nil

/-! ## Bytes -/

def nops (k : Nat) : List UInt8 := (List.replicate k (wordBytes fdtNop)).flatten

/-- Zeros up to the next multiple of four. -/
def padded (l : List UInt8) : List UInt8 :=
  l ++ List.replicate ((l.length + 3) / 4 * 4 - l.length) 0

/-- A property without the NOPs in front of it. -/
def Property.header (a : Property) : List UInt8 :=
  wordBytes fdtProp ++ (wordBytes a.value.length ++ (wordBytes a.nameOff ++ padded a.value))

def Property.bytes (a : Property) : List UInt8 := nops a.gap ++ a.header

/-- The start of a node. -/
def nodeHeader (name : CString) : List UInt8 :=
  wordBytes fdtBeginNode ++ padded (name.chars ++ [0])

def Nodes.bytes : Nodes → List UInt8
  | .nil => []
  | .cons gap name props kids close rest =>
      nops gap ++ (nodeHeader name ++ (props.flatMap Property.bytes ++ (kids.bytes ++
        (nops close ++ (wordBytes fdtEndNode ++ rest.bytes)))))

/-- The structure block. -/
def DeviceTree.structBlock (t : DeviceTree) : List UInt8 :=
  t.root.bytes ++ (nops t.after ++ wordBytes fdtEnd)

/-- All properties, for the strings block. -/
def Nodes.properties : Nodes → List Property
  | .nil => []
  | .cons _ _ props kids _ rest => props ++ kids.properties ++ rest.properties

/-- The bytes stand at `p` in the structure block. -/
def BytesAt (c : Ctx) (p : Int) (l : List UInt8) : Prop :=
  c.s ≤ p ∧ p + l.length ≤ c.send ∧ ∀ i < l.length, l[i]? = some (c.base (p + i))

/-- A well-formed blob of a tree. -/
structure WellFormed (blob : Buffer) (t : DeviceTree) : Prop extends
    SmallBlob blob (ctxOf blob) where
  block : BytesAt (ctxOf blob) (ctxOf blob).s t.structBlock
  block_end : (ctxOf blob).send = (ctxOf blob).s + t.structBlock.length
  names : ∀ a ∈ t.root.properties,
    (ctxOf blob).str + a.nameOff + a.name.chars.length < (ctxOf blob).strend ∧
      (∀ i < a.name.chars.length,
        a.name.chars[i]? = some (blob.bytes ((ctxOf blob).str + a.nameOff + i))) ∧
      blob.bytes ((ctxOf blob).str + a.nameOff + a.name.chars.length) = 0

/-! ## Offsets -/

/-- Where the first node of a list is, where its children start, and where the nodes
behind it start. -/
def nodeOff (gap : Nat) (p : Int) : Int := p + (nops gap).length

def kidsOff (gap : Nat) (name : CString) (props : List Property) (p : Int) : Int :=
  nodeOff gap p + (nodeHeader name).length + (props.flatMap Property.bytes).length

def restOff (gap : Nat) (name : CString) (props : List Property) (kids : Nodes) (close : Nat)
    (p : Int) : Int :=
  kidsOff gap name props p + kids.bytes.length + (nops close).length + 4

/-- A node of a tree: its offset, those of the nodes around it, innermost first, its
name, the names on the way to it from the root, innermost first and without the root's,
its properties, and the nodes inside it with the place where they start. -/
structure Entry where
  off : Int
  above : List Int
  name : CString
  way : List (List UInt8)
  props : List Property
  inner : Nodes
  innerOff : Int

/-- Depth of a node; the root has depth 0. -/
def Entry.depth (e : Entry) : Nat := e.above.length

/-- The nodes of a list, without those below them.  `way` leads to the node that they
are in. -/
def Nodes.tops : Nodes → (p : Int) → (above : List Int) → (way : List (List UInt8)) → List Entry
  | .nil, _, _, _ => []
  | .cons gap name props kids close rest, p, above, way =>
      { off := nodeOff gap p
        above := above
        name := name
        way := name.chars :: way
        props := props
        inner := kids
        innerOff := kidsOff gap name props p } ::
        rest.tops (restOff gap name props kids close p) above way

/-- The children of a node. -/
def Entry.children (e : Entry) : List Entry := e.inner.tops e.innerOff (e.off :: e.above) e.way

/-- The nodes of a list and all nodes below them, in document order. -/
def Nodes.entries : Nodes → (p : Int) → (above : List Int) → (way : List (List UInt8)) → List Entry
  | .nil, _, _, _ => []
  | .cons gap name props kids close rest, p, above, way =>
      { off := nodeOff gap p
        above := above
        name := name
        way := name.chars :: way
        props := props
        inner := kids
        innerOff := kidsOff gap name props p } ::
        (kids.entries (kidsOff gap name props p) (nodeOff gap p :: above) (name.chars :: way) ++
          rest.entries (restOff gap name props kids close p) above way)

/-- The root of a tree whose structure block starts at `p`. -/
def DeviceTree.rootEntry (t : DeviceTree) (p : Int) : Entry where
  off := p
  above := []
  name := t.name
  way := []
  props := t.props
  inner := t.kids
  innerOff := kidsOff 0 t.name t.props p

/-- All nodes of the tree. -/
def DeviceTree.entries (t : DeviceTree) (p : Int) : List Entry :=
  t.rootEntry p :: t.kids.entries (kidsOff 0 t.name t.props p) [p] []

/-! ## Marks -/

def Property.marks (a : Property) : List (Mark Int) := List.replicate a.gap .gap ++ [.content]

def Nodes.marks : Nodes → (p : Int) → List (Mark Int)
  | .nil, _ => []
  | .cons gap name props kids close rest, p =>
      List.replicate gap .gap ++ (.opening (nodeOff gap p) :: (props.flatMap Property.marks ++
        (kids.marks (kidsOff gap name props p) ++ (List.replicate close .gap ++
          (.closing :: rest.marks (restOff gap name props kids close p))))))

/-! ## Reading the bytes back -/

theorem length_wordBytes (v : Nat) : (wordBytes v).length = 4 := rfl

theorem length_padded (l : List UInt8) : (padded l).length = (l.length + 3) / 4 * 4 := by
  simp only [padded, List.length_append, List.length_replicate]
  omega

section Bytes

variable {c : Ctx}

theorem bytesAt_append {p : Int} {l r : List UInt8} :
    BytesAt c p (l ++ r) ↔ BytesAt c p l ∧ BytesAt c (p + l.length) r := by
  unfold BytesAt
  rw [List.length_append]
  constructor
  · rintro ⟨hs, hend, hall⟩
    push_cast at hend
    refine ⟨⟨hs, by omega, fun i hi => ?_⟩, by omega, by omega, fun i hi => ?_⟩
    · have hat := hall i (by omega)
      rwa [List.getElem?_append_left hi] at hat
    · have hat := hall (l.length + i) (by omega)
      rw [List.getElem?_append_right (by omega), Nat.add_sub_cancel_left] at hat
      rw [hat, Nat.cast_add, Int.add_assoc]
  · rintro ⟨⟨hs, -, hl⟩, -, hend, hr⟩
    push_cast
    refine ⟨hs, by omega, fun i hi => ?_⟩
    by_cases hlt : i < l.length
    · rw [List.getElem?_append_left hlt]
      exact hl i hlt
    · rw [List.getElem?_append_right (by omega), hr (i - l.length) (by omega)]
      congr 2
      omega

theorem BytesAt.left {p : Int} {l r : List UInt8} (h : BytesAt c p (l ++ r)) : BytesAt c p l :=
  (bytesAt_append.mp h).1

theorem BytesAt.right {p : Int} {l r : List UInt8} (h : BytesAt c p (l ++ r)) :
    BytesAt c (p + l.length) r :=
  (bytesAt_append.mp h).2

theorem BytesAt.ok {p : Int} {l : List UInt8} (h : BytesAt c p l) {n : Nat} (hn : n ≤ l.length) :
    ok c p n := by
  obtain ⟨hs, hend, -⟩ := h
  exact ⟨hs, by omega, by omega⟩

theorem BytesAt.be32 {p : Int} {v : Nat} (h : BytesAt c p (wordBytes v)) (hv : v < 2 ^ 32) :
    be32 c.base p = v := by
  obtain ⟨-, -, hall⟩ := h
  rw [length_wordBytes] at hall
  have h0 := hall 0 (by decide)
  have h1 := hall 1 (by decide)
  have h2 := hall 2 (by decide)
  have h3 := hall 3 (by decide)
  simp only [wordBytes, List.getElem?_cons_zero, List.getElem?_cons_succ, Option.some.injEq,
    Nat.cast_zero, Nat.cast_one, Nat.cast_ofNat, Int.add_zero] at h0 h1 h2 h3
  rw [be32_eq, ← h0, ← h1, ← h2, ← h3]
  simp only [UInt8.toNat_ofNat', Nat.shiftRight_eq_div_pow]
  omega

theorem tokenAt_nop {p : Int} (h : BytesAt c p (wordBytes fdtNop)) : tokenAt c p = .nop := by
  have hok := h.ok (show 4 ≤ _ from le_rfl)
  have htoken := h.be32 (by decide)
  simp [tokenAt, hok, htoken, fdtNop, fdtProp, fdtEndNode, fdtBeginNode]

theorem tokenAt_close {p : Int} (h : BytesAt c p (wordBytes fdtEndNode)) :
    tokenAt c p = .close := by
  have hok := h.ok (show 4 ≤ _ from le_rfl)
  have htoken := h.be32 (by decide)
  simp [tokenAt, hok, htoken, fdtEndNode, fdtBeginNode]

theorem tokenAt_end {p : Int} (h : BytesAt c p (wordBytes fdtEnd)) : tokenAt c p = .stop := by
  have htoken := h.be32 (by decide)
  simp [tokenAt, htoken, fdtEnd, fdtNop, fdtProp, fdtEndNode, fdtBeginNode]

/-- The name of a node is read back. -/
theorem nameLen_of_bytesAt {p : Int} {name : CString}
    (h : BytesAt c p (padded (name.chars ++ [0]))) : nameLen c p = some name.chars.length := by
  obtain ⟨hs, hend, hall⟩ := h.left
  rw [List.length_append, List.length_singleton] at hend hall
  push_cast at hend
  rw [nameLen_eq_some_iff]
  refine ⟨hs, by omega, ?_, fun i hi => ?_⟩
  · have hat := hall name.chars.length (by omega)
    rw [List.getElem?_append_right le_rfl, Nat.sub_self] at hat
    exact (Option.some.inj hat).symm
  · have hat := hall i (by omega)
    rw [List.getElem?_append_left hi] at hat
    intro hzero
    rw [hzero] at hat
    exact name.noNul (List.mem_of_getElem? hat)

variable {blob : Buffer} (h : Header blob c)

include h

theorem tokenAt_node {p : Int} {name : CString} (hbytes : BytesAt c p (nodeHeader name)) :
    tokenAt c p = .node (nodeHeader name).length := by
  have hs := h.s_nonneg
  have hsend := h.send_lt
  have hname := nameLen_of_bytesAt hbytes.right
  have hlt := (nameLen_eq_some_iff.mp hname).2.1
  have hstart := hbytes.1
  rw [length_wordBytes, Nat.cast_ofNat] at hname hlt
  refine tokenAt_eq_node_iff.mpr ⟨hbytes.left.ok le_rfl, hbytes.left.be32 (by decide), _, hname, ?_⟩
  rw [align4_eq (by omega), nodeHeader, List.length_append, length_padded, length_wordBytes,
    List.length_append, List.length_singleton]

theorem tokenAt_prop {p : Int} {a : Property} (hbytes : BytesAt c p a.header) :
    tokenAt c p = .prop a.header.length := by
  have hs := h.s_nonneg
  have hsend := h.send_lt
  have hlen := length_padded a.value
  have hstart := hbytes.1
  have hend := hbytes.2.1
  have htotal : a.header.length = 12 + (padded a.value).length := by
    simp only [Property.header, List.length_append, length_wordBytes]
    omega
  rw [htotal] at hend ⊢
  push_cast at hend
  have hvalue : be32 c.base (p + 4) = a.value.length := by
    apply BytesAt.be32 _ (by omega)
    exact hbytes.right.left
  refine tokenAt_eq_prop_iff.mpr ⟨hbytes.left.ok le_rfl, hbytes.left.be32 (by decide), ?_, ?_⟩
  · rw [hvalue]
    exact ⟨by omega, by omega, by omega⟩
  · rw [hvalue, align4_eq (by omega), hlen]

/-! ## Reading the tree back -/

omit h in
theorem marks_nops {p : Int} {k : Nat} (hbytes : BytesAt c p (nops k)) :
    marks c p = List.replicate k .gap ++ marks c (p + (nops k).length) := by
  induction k generalizing p with
  | zero => simp [nops]
  | succ k ih =>
      have hsplit : nops (k + 1) = wordBytes fdtNop ++ nops k := rfl
      rw [hsplit] at hbytes ⊢
      have hrest := ih hbytes.right
      rw [length_wordBytes, Nat.cast_ofNat] at hrest
      rw [marks_eq, tokenAt_nop hbytes.left]
      simp only [List.replicate_succ, List.cons_append, hrest, List.length_append,
        length_wordBytes, Nat.cast_add, Nat.cast_ofNat, Int.add_assoc]

theorem marks_property {p : Int} {a : Property} (hbytes : BytesAt c p a.bytes) :
    marks c p = a.marks ++ marks c (p + a.bytes.length) := by
  rw [marks_nops hbytes.left, marks_eq c (p + _), tokenAt_prop h hbytes.right]
  simp only [Property.marks, Property.bytes, List.length_append, Nat.cast_add, Int.add_assoc,
    List.append_assoc, List.singleton_append]

theorem marks_properties {p : Int} {props : List Property}
    (hbytes : BytesAt c p (props.flatMap Property.bytes)) :
    marks c p = props.flatMap Property.marks ++
      marks c (p + (props.flatMap Property.bytes).length) := by
  induction props generalizing p with
  | nil => simp
  | cons a props ih =>
      rw [List.flatMap_cons] at hbytes ⊢
      rw [marks_property h hbytes.left, ih hbytes.right]
      simp only [List.flatMap_cons, List.length_append, Nat.cast_add, Int.add_assoc,
        List.append_assoc]

/-- Where the parts of the first node of a list stand. -/
structure NodeAt (c : Ctx) (gap : Nat) (name : CString) (props : List Property) (kids : Nodes)
    (close : Nat) (rest : Nodes) (p : Int) : Prop where
  gap_at : BytesAt c p (nops gap)
  header_at : BytesAt c (nodeOff gap p) (nodeHeader name)
  props_at : BytesAt c (nodeOff gap p + (nodeHeader name).length) (props.flatMap Property.bytes)
  kids_at : BytesAt c (kidsOff gap name props p) kids.bytes
  close_at : BytesAt c (kidsOff gap name props p + kids.bytes.length) (nops close)
  end_at : BytesAt c (kidsOff gap name props p + kids.bytes.length + (nops close).length)
    (wordBytes fdtEndNode)
  rest_at : BytesAt c (restOff gap name props kids close p) rest.bytes

omit h in
theorem BytesAt.node {gap : Nat} {name : CString} {props : List Property} {kids : Nodes}
    {close : Nat} {rest : Nodes} {p : Int}
    (hbytes : BytesAt c p (Nodes.cons gap name props kids close rest).bytes) :
    NodeAt c gap name props kids close rest p where
  gap_at := hbytes.left
  header_at := hbytes.right.left
  props_at := hbytes.right.right.left
  kids_at := hbytes.right.right.right.left
  close_at := hbytes.right.right.right.right.left
  end_at := hbytes.right.right.right.right.right.left
  rest_at := hbytes.right.right.right.right.right.right

omit h in
theorem restOff_add_length (gap : Nat) (name : CString) (props : List Property) (kids : Nodes)
    (close : Nat) (rest : Nodes) (p : Int) :
    restOff gap name props kids close p + rest.bytes.length =
      p + (Nodes.cons gap name props kids close rest).bytes.length := by
  simp only [restOff, kidsOff, nodeOff, Nodes.bytes, List.length_append, length_wordBytes]
  push_cast
  omega

omit h in
theorem marks_end {gap : Nat} {name : CString} {props : List Property} {kids : Nodes}
    {close : Nat} {rest : Nodes} {p : Int} (hnode : NodeAt c gap name props kids close rest p) :
    marks c (kidsOff gap name props p + kids.bytes.length + (nops close).length) =
      .closing :: marks c (restOff gap name props kids close p) := by
  rw [marks_eq, tokenAt_close hnode.end_at]
  rfl

theorem marks_nodes {p : Int} {f : Nodes} (hbytes : BytesAt c p f.bytes) :
    marks c p = f.marks p ++ marks c (p + f.bytes.length) := by
  induction f generalizing p with
  | nil => simp [Nodes.marks, Nodes.bytes]
  | cons gap name props kids close rest ihkids ihrest =>
      have hnode := hbytes.node
      rw [marks_nops hnode.gap_at, ← nodeOff, marks_of_node (tokenAt_node h hnode.header_at),
        marks_properties h hnode.props_at, ← kidsOff, ihkids hnode.kids_at,
        marks_nops hnode.close_at, marks_end hnode, ihrest hnode.rest_at, restOff_add_length]
      simp only [Nodes.marks, List.append_assoc, List.cons_append]

/-- **The walks see the tree.** -/
theorem marks_tree {t : DeviceTree} (hblock : BytesAt c c.s t.structBlock) :
    marks c c.s = t.root.marks c.s ++ List.replicate t.after .gap := by
  rw [marks_nodes h hblock.left, marks_nops hblock.right.left, marks_eq c (_ + _ + _),
    tokenAt_end hblock.right.right]
  simp

end Bytes

/-! ## Every tree has a blob -/

/-- The bytes of a list, in a block that is the whole list. -/
theorem bytesAt_ofList {c : Ctx} {l : List UInt8} (hbase : c.base = (Buffer.ofList l).bytes)
    (hs : c.s = 0) (hsend : c.send = l.length) : BytesAt c 0 l := by
  refine ⟨hs.le, by rw [hsend, Int.zero_add], fun i hi => ?_⟩
  simp [hbase, Buffer.ofList, List.getD_eq_getElem?_getD, List.getElem?_eq_getElem hi]

/-- What `blobOf` writes: the words of the header that are read, and the two blocks. -/
structure Layout (blob : Buffer) (structBlock strings : List UInt8) : Prop where
  notNull : blob.isNull = false
  magic : be32 blob.bytes 0 = fdtMagic
  total : be32 blob.bytes 4 = 40 + structBlock.length + strings.length
  struct_off : be32 blob.bytes 8 = 40
  strings_off : be32 blob.bytes 12 = 40 + structBlock.length
  strings_size : be32 blob.bytes 32 = strings.length
  struct_size : be32 blob.bytes 36 = structBlock.length
  struct_at : ∀ i < structBlock.length, structBlock[i]? = some (blob.bytes (40 + i))
  strings_at : ∀ i < strings.length,
    strings[i]? = some (blob.bytes (40 + structBlock.length + i))

theorem layout_blobOf {structBlock strings : List UInt8}
    (hsize : 40 + structBlock.length + strings.length < 2 ^ 31) :
    Layout (blobOf structBlock strings) structBlock strings := by
  have hall : BytesAt
      { base := (blobOf structBlock strings).bytes, s := 0
        send := 40 + structBlock.length + strings.length, str := 0, strend := 0 } 0
      (wordBytes fdtMagic ++ wordBytes (40 + structBlock.length + strings.length) ++
        wordBytes 40 ++ wordBytes (40 + structBlock.length) ++ wordBytes 0 ++ wordBytes 17 ++
        wordBytes 16 ++ wordBytes 0 ++ wordBytes strings.length ++ wordBytes structBlock.length ++
        structBlock ++ strings) := by
    apply bytesAt_ofList rfl rfl
    simp only [List.length_append, length_wordBytes]
    omega
  have hstruct := hall.left.right.2.2
  have hstrings := hall.right.2.2
  have h36 := hall.left.left.right.be32 (by omega)
  have h32 := hall.left.left.left.right.be32 (by omega)
  have h12 := hall.left.left.left.left.left.left.left.left.right.be32 (by omega)
  have h8 := hall.left.left.left.left.left.left.left.left.left.right.be32 (by omega)
  have h4 := hall.left.left.left.left.left.left.left.left.left.left.right.be32 (by omega)
  have h0 := hall.left.left.left.left.left.left.left.left.left.left.left.be32 (by decide)
  simp only [List.length_append, length_wordBytes, Nat.cast_add, Nat.cast_ofNat, Int.zero_add,
    Int.reduceAdd] at hstruct hstrings h36 h32 h12 h8 h4 h0
  exact ⟨rfl, h0, h4, h8, h12, h32, h36, hstruct, hstrings⟩

/-- A name and its terminator, at their place in the strings block. -/
theorem Layout.name_at {blob : Buffer} {structBlock strings : List UInt8}
    (h : Layout blob structBlock strings) {off : Nat} {name : CString}
    (hname : name.chars ++ [0] <+: strings.drop off) :
    off + name.chars.length < strings.length ∧
      (∀ i < name.chars.length,
        name.chars[i]? = some (blob.bytes (40 + structBlock.length + off + i))) ∧
      blob.bytes (40 + structBlock.length + off + name.chars.length) = 0 := by
  obtain ⟨tail, htail⟩ := hname
  have hlen : off + (name.chars.length + 1) ≤ strings.length := by
    have hlength := congrArg List.length htail
    simp only [List.length_append, List.length_singleton, List.length_drop] at hlength
    omega
  have hat : ∀ i < name.chars.length + 1,
      (name.chars ++ [0])[i]? = some (blob.bytes (40 + structBlock.length + off + i)) := by
    intro i hi
    have hbyte := h.strings_at (off + i) (by omega)
    rw [← List.getElem?_drop, ← htail, List.getElem?_append_left (by simpa using hi)] at hbyte
    rw [hbyte, Nat.cast_add, Int.add_assoc (40 + _)]
  refine ⟨by omega, fun i hi => ?_, ?_⟩
  · rw [← hat i (by omega), List.getElem?_append_left hi]
  · have hnul := hat name.chars.length (by omega)
    rw [List.getElem?_append_right le_rfl, Nat.sub_self] at hnul
    exact (Option.some.inj hnul).symm

/-- **A tree that is small enough has a well-formed blob**, with any strings block that
holds the names of its properties. -/
theorem wellFormed_blobOf (t : DeviceTree) (strings : List UInt8)
    (hsize : 40 + t.structBlock.length + strings.length < 2 ^ 31)
    (hnames : ∀ a ∈ t.root.properties, a.name.chars ++ [0] <+: strings.drop a.nameOff) :
    WellFormed (blobOf t.structBlock strings) t := by
  have hlayout := layout_blobOf hsize
  generalize blobOf t.structBlock strings = blob at hlayout ⊢
  have hs : (ctxOf blob).s = 40 := by simp [ctxOf, hlayout.struct_off]
  have hsend : (ctxOf blob).send = 40 + t.structBlock.length := by
    simp [ctxOf, hlayout.struct_off, hlayout.struct_size]
  have hstr : (ctxOf blob).str = 40 + t.structBlock.length := by
    simp [ctxOf, hlayout.strings_off]
  have hstrend : (ctxOf blob).strend = 40 + t.structBlock.length + strings.length := by
    simp [ctxOf, hlayout.strings_off, hlayout.strings_size]
  refine
    { notNull := hlayout.notNull
      magic := hlayout.magic
      base := rfl
      s := rfl
      send := rfl
      str := rfl
      strend := rfl
      struct_le := ?_
      strings_le := ?_
      small := ?_
      block := ⟨le_rfl, ?_, ?_⟩
      block_end := ?_
      names := ?_ }
  · rw [hsend, hlayout.total]
    omega
  · rw [hstrend, hlayout.total]
    omega
  · rw [hlayout.total]
    exact hsize
  · rw [hs, hsend]
  · rw [hs]
    exact hlayout.struct_at
  · rw [hs, hsend]
  · intro a ha
    obtain ⟨hlen, hchars, hnul⟩ := hlayout.name_at (hnames a ha)
    rw [hstr, hstrend]
    exact ⟨by omega, hchars, hnul⟩

end Fdt
end Saski
