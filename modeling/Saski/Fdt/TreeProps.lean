import Saski.Fdt.Nodes
import Saski.Fdt.Property

/-!
# The properties of a node

`fdt_getprop` goes through the properties of a node and compares their names, which it
finds through offsets into the strings block.  On a well-formed blob it finds the first
property of the given name, and no property of another node (`fdtGetprop_exact`).
-/

namespace Saski
namespace Fdt

open Capnp Logged Prog Nesting

/-- The first property of the given name that the node has. -/
def Entry.property (e : Entry) (name : CString) : Option Property :=
  e.props.find? fun a => a.name.chars = name.chars

/-- The value of the first property of the given name. -/
def Entry.value (e : Entry) (name : CString) : Option (List UInt8) :=
  (e.property name).map Property.value

/-- Where the value of a property is that stands behind the properties `before`. -/
def Entry.valueOff (e : Entry) (before : List Property) (a : Property) : Int :=
  e.off + (nodeHeader e.name).length + (before.flatMap Property.bytes).length +
    (nops a.gap).length + 12

/-- The value of the first property of the given name, with the place where it is. -/
def Entry.located (e : Entry) (name : CString) : Option (Int × List UInt8) :=
  (e.property name).map fun a =>
    (e.valueOff (e.props.takeWhile fun b => b.name.chars ≠ name.chars) a, a.value)

/-! ## Names in the strings block -/

/-- The name of the property stands in the strings block. -/
def Property.Named (c : Ctx) (a : Property) : Prop :=
  c.str + a.nameOff + a.name.chars.length < c.strend ∧
    (∀ i < a.name.chars.length, a.name.chars[i]? = some (c.base (c.str + a.nameOff + i))) ∧
    c.base (c.str + a.nameOff + a.name.chars.length) = 0

/-- Two strings without NUL that stand at one place, each with its terminator. -/
theorem chars_eq_of_terminated {bytes : Int → UInt8} {p : Int} {l r : List UInt8} (hl : 0 ∉ l)
    (hr : 0 ∉ r) (hlat : ∀ i < l.length, l[i]? = some (bytes (p + i)))
    (hlend : bytes (p + l.length) = 0) (hrat : ∀ i < r.length, r[i]? = some (bytes (p + i)))
    (hrend : bytes (p + r.length) = 0) : l = r := by
  have hlength : l.length = r.length := by
    rcases Nat.lt_trichotomy l.length r.length with hlt | heq | hgt
    · have hat := hrat _ hlt
      rw [hlend] at hat
      exact absurd (List.mem_of_getElem? hat) hr
    · exact heq
    · have hat := hlat _ hgt
      rw [hrend] at hat
      exact absurd (List.mem_of_getElem? hat) hl
  apply List.ext_getElem?
  intro i
  by_cases hi : i < l.length
  · rw [hlat i hi, hrat i (by omega)]
  · rw [List.getElem?_eq_none (by omega), List.getElem?_eq_none (by omega)]

theorem Property.Named.strEq_iff {c : Ctx} {a : Property} (h : a.Named c) (name : CString) :
    (strEq .strings c.base (c.str + a.nameOff) name.chars).value = true ↔
      a.name.chars = name.chars := by
  obtain ⟨-, hat, hend⟩ := h
  rw [value_strEq .strings c.base name.noNul]
  constructor
  · rintro ⟨hat', hend'⟩
    exact chars_eq_of_terminated a.name.noNul name.noNul hat hend hat' hend'
  · intro heq
    rw [← heq]
    exact ⟨hat, hend⟩

/-! ## Reading the properties -/

section Scan

variable {blob : Buffer} {c : Ctx} (h : Header blob c)

include h

/-- NOPs are passed over. -/
theorem returns_getpropLoop_nops (name : CString) {p : Int} {k : Nat}
    (hbytes : BytesAt c p (nops k)) (r : Option (Int × Nat))
    (hr : (loop (getpropBody c name) (p + (nops k).length)).Returns r) :
    (loop (getpropBody c name) p).Returns r := by
  induction k generalizing p with
  | zero => simpa [nops] using hr
  | succ k ih =>
      have hsplit : nops (k + 1) = wordBytes fdtNop ++ nops k := rfl
      rw [hsplit] at hbytes hr
      have hbody := returns_getpropBody h name p
      rw [tokenAt_nop hbytes.left] at hbody
      apply returns_loop_of_step hbody
      apply ih hbytes.right
      rw [length_wordBytes]
      rw [List.length_append, length_wordBytes] at hr
      convert hr using 2
      push_cast
      omega

/-- The header of a property, read back. -/
theorem returns_getpropBody_property (name : CString) {p : Int} {a : Property}
    (hbytes : BytesAt c p a.header) (hnamed : a.Named c) :
    (getpropBody c name p).Returns
      (if a.name.chars = name.chars then .inr (some (p + 12, a.value.length))
      else .inl (p + a.header.length)) := by
  have hbody := returns_getpropBody h name p
  have hs := h.s_nonneg
  have hstr := h.str
  have hsend := h.send_lt
  have hstrend := h.strings_le
  have htotal := be32_lt blob.bytes 4
  have hnameOff := hnamed.1
  have hlength : be32 c.base (p + 4) = a.value.length := by
    have hend := hbytes.2.1
    have hstart := hbytes.1
    simp only [Property.header, padded, List.length_append, length_wordBytes] at hend
    exact hbytes.right.left.be32 (by omega)
  have hoff : be32 c.base (p + 8) = a.nameOff := by
    have hword := hbytes.right.right.left.be32 (by omega)
    rw [length_wordBytes, length_wordBytes] at hword
    rwa [show p + 8 = p + (4 : Nat) + (4 : Nat) by omega]
  have hstrAt : strAt c a.nameOff = some (c.str + a.nameOff) := by
    unfold strAt
    rw [if_neg (by omega)]
  simp only [tokenAt_prop h hbytes, hlength, hoff, hstrAt] at hbody
  by_cases heq : a.name.chars = name.chars
  · rw [if_pos ((hnamed.strEq_iff name).mpr heq)] at hbody
    rwa [if_pos heq]
  · rw [if_neg fun hsame => heq ((hnamed.strEq_iff name).mp hsame)] at hbody
    rwa [if_neg heq]

/-- A property of another name is passed over. -/
theorem returns_getpropLoop_other (name : CString) {p : Int} {a : Property}
    (hbytes : BytesAt c p a.bytes) (hnamed : a.Named c) (hne : a.name.chars ≠ name.chars)
    {r : Option (Int × Nat)}
    (hr : (loop (getpropBody c name) (p + a.bytes.length)).Returns r) :
    (loop (getpropBody c name) p).Returns r := by
  apply returns_getpropLoop_nops h name hbytes.left
  have hbody := returns_getpropBody_property h name hbytes.right hnamed
  rw [if_neg hne] at hbody
  apply returns_loop_of_step hbody
  rw [Property.bytes, List.length_append] at hr
  convert hr using 2
  push_cast
  omega

/-- So are any number of them. -/
theorem returns_getpropLoop_others (name : CString) {p : Int} {props : List Property}
    (hbytes : BytesAt c p (props.flatMap Property.bytes)) (hnamed : ∀ a ∈ props, a.Named c)
    (hne : ∀ a ∈ props, a.name.chars ≠ name.chars) {r : Option (Int × Nat)}
    (hr : (loop (getpropBody c name) (p + (props.flatMap Property.bytes).length)).Returns r) :
    (loop (getpropBody c name) p).Returns r := by
  induction props generalizing p with
  | nil => simpa using hr
  | cons a props ih =>
      rw [List.flatMap_cons] at hbytes hr
      simp only [List.mem_cons, forall_eq_or_imp] at hnamed hne
      apply returns_getpropLoop_other h name hbytes.left hnamed.1 hne.1
      apply ih hbytes.right hnamed.2 hne.2
      rw [List.length_append] at hr
      convert hr using 2
      push_cast
      omega

/-- A property of that name ends the scan with its value. -/
theorem returns_getpropLoop_found (name : CString) {p : Int} {a : Property}
    (hbytes : BytesAt c p a.bytes) (hnamed : a.Named c) (heq : a.name.chars = name.chars) :
    (loop (getpropBody c name) p).Returns
      (some (p + (nops a.gap).length + 12, a.value.length)) := by
  apply returns_getpropLoop_nops h name hbytes.left
  have hbody := returns_getpropBody_property h name hbytes.right hnamed
  rw [if_pos heq] at hbody
  exact returns_loop_of_done hbody

/-- The scan starts behind the name of the node. -/
theorem returns_fdtGetprop_of_node {p : Int} {name : CString} {nodeName : CString}
    (hnode : BytesAt c p (nodeHeader nodeName)) {r : Option (Int × Nat)}
    (hr : (loop (getpropBody c name) (p + (nodeHeader nodeName).length)).Returns r) :
    (fdtGetprop blob p (some name)).Returns r := by
  unfold fdtGetprop
  simp only
  simp only [returns_liftM_bind, (value_ctxInit blob c).mpr h]
  rw [returns_bind_of (returns_afterName c p), tokenAt_node h hnode]
  exact hr

/-- Behind the properties the scan ends without one. -/
theorem returns_getpropLoop_end (name : CString) {p : Int}
    (hend : tokenAt c p = .close ∨ ∃ w, tokenAt c p = .node w) :
    (loop (getpropBody c name) p).Returns none := by
  have hbody := returns_getpropBody h name p
  rcases hend with htoken | ⟨w, htoken⟩
  · rw [htoken] at hbody
    exact returns_loop_of_done hbody
  · rw [htoken] at hbody
    exact returns_loop_of_done hbody

end Scan

/-! ## The properties of the tree -/

theorem Nodes.mem_properties {f : Nodes} {p : Int} {above : List Int} {way : List (List UInt8)}
    {e : Entry} (he : e ∈ f.entries p above way) {a : Property} (ha : a ∈ e.props) :
    a ∈ f.properties := by
  induction f generalizing p above way with
  | nil => exact absurd he List.not_mem_nil
  | cons gap name props kids close rest ihkids ihrest =>
      rw [Nodes.entries, List.mem_cons, List.mem_append] at he
      rw [Nodes.properties, List.mem_append, List.mem_append]
      rcases he with rfl | hin | hbehind
      · exact Or.inl (Or.inl ha)
      · exact Or.inl (Or.inr (ihkids hin))
      · exact Or.inr (ihrest hbehind)

theorem DeviceTree.mem_properties {t : DeviceTree} {p : Int} {e : Entry} (he : e ∈ t.entries p)
    {a : Property} (ha : a ∈ e.props) : a ∈ t.root.properties := by
  rw [DeviceTree.root, Nodes.properties, List.mem_append, List.mem_append]
  rcases List.mem_cons.mp he with rfl | hbelow
  · exact Or.inl (Or.inl ha)
  · exact Or.inl (Or.inr (Nodes.mem_properties hbelow ha))

theorem Entry.property_eq_none_iff {e : Entry} {name : CString} :
    e.property name = none ↔ ∀ a ∈ e.props, a.name.chars ≠ name.chars := by
  simp [Entry.property]

theorem Entry.property_eq_some_iff {e : Entry} {name : CString} {a : Property} :
    e.property name = some a ↔
      a.name.chars = name.chars ∧ ∃ before after, e.props = before ++ a :: after ∧
        ∀ b ∈ before, b.name.chars ≠ name.chars := by
  simp [Entry.property, List.find?_eq_some_iff_append]

theorem takeWhile_before {props before after : List Property} {a : Property} {name : CString}
    (hprops : props = before ++ a :: after) (heq : a.name.chars = name.chars)
    (hbefore : ∀ b ∈ before, b.name.chars ≠ name.chars) :
    props.takeWhile (fun b => b.name.chars ≠ name.chars) = before := by
  rw [hprops, List.takeWhile_append_of_pos (by simpa using hbefore),
    List.takeWhile_cons_of_neg (by simpa using heq), List.append_nil]

/-- Where there is a value, `located` gives it. -/
theorem Entry.value_eq_located (e : Entry) (name : CString) :
    e.value name = (e.located name).map Prod.snd := by
  unfold Entry.value Entry.located
  rw [Option.map_map]
  rfl

namespace WellFormed

variable {blob : Buffer} {t : DeviceTree} (h : WellFormed blob t) {e : Entry}
  (he : e ∈ t.entries (ctxOf blob).s) (name : CString)

include h he

theorem named {a : Property} (ha : a ∈ e.props) : a.Named (ctxOf blob) :=
  h.names a (DeviceTree.mem_properties he ha)

theorem returns_getprop_none (hnone : e.property name = none) :
    (fdtGetprop blob e.off (some name)).Returns none := by
  have hnode := h.nodeOf he
  obtain ⟨k, hnops, hend⟩ := hnode.inner_at
  apply returns_fdtGetprop_of_node h.toHeader hnode.header
  apply returns_getpropLoop_others h.toHeader name hnode.props_at (fun a => h.named he)
    (Entry.property_eq_none_iff.mp hnone)
  rw [← hnode.inner_eq]
  apply returns_getpropLoop_nops h.toHeader name hnops
  exact returns_getpropLoop_end h.toHeader name hend

/-- The first property of the name, with the place of its value. -/
theorem returns_getprop_some {before after : List Property} {a : Property}
    (hprops : e.props = before ++ a :: after) (heq : a.name.chars = name.chars)
    (hbefore : ∀ b ∈ before, b.name.chars ≠ name.chars) :
    (fdtGetprop blob e.off (some name)).Returns (some (e.valueOff before a, a.value.length)) ∧
      BytesAt (ctxOf blob) (e.valueOff before a) a.value := by
  have hnode := h.nodeOf he
  have hat := hnode.props_at
  rw [hprops, List.flatMap_append, List.flatMap_cons] at hat
  constructor
  · apply returns_fdtGetprop_of_node h.toHeader hnode.header
    apply returns_getpropLoop_others h.toHeader name hat.left
    · exact fun b hb => h.named he (by simp [hprops, hb])
    · exact hbefore
    · exact returns_getpropLoop_found h.toHeader name hat.right.left
        (h.named he (by simp [hprops])) heq
  · have hvalue := hat.right.left.right.right.right.right.left
    simp only [length_wordBytes] at hvalue
    convert hvalue using 1
    unfold Entry.valueOff
    omega

/-- `fdt_getprop` on a node of the tree. -/
theorem returns_getprop :
    (fdtGetprop blob e.off (some name)).Returns
      ((e.located name).map fun x => (x.1, x.2.length)) := by
  unfold Entry.located
  cases hfind : e.property name with
  | none => exact h.returns_getprop_none he name hfind
  | some a =>
      obtain ⟨heq, before, after, hprops, hbefore⟩ := Entry.property_eq_some_iff.mp hfind
      rw [takeWhile_before hprops heq hbefore]
      exact (h.returns_getprop_some he name hprops heq hbefore).1

theorem bytesAt_located {v : Int} {l : List UInt8} (hfind : e.located name = some (v, l)) :
    BytesAt (ctxOf blob) v l := by
  obtain ⟨a, ha, heq⟩ := Option.map_eq_some_iff.mp hfind
  obtain ⟨rfl, rfl⟩ := Prod.mk.inj heq
  obtain ⟨heq, before, after, hprops, hbefore⟩ := Entry.property_eq_some_iff.mp ha
  rw [takeWhile_before hprops heq hbefore]
  exact (h.returns_getprop_some he name hprops heq hbefore).2

end WellFormed

/-- **`fdt_getprop` agrees with the tree.**  It finds a property of the node exactly if
the node has one of that name, and then the value of the first. -/
theorem fdtGetprop_exact {blob : Buffer} {t : DeviceTree} (h : WellFormed blob t) {e : Entry}
    (he : e ∈ t.entries (ctxOf blob).s) (name : CString) :
    ∃ r, (fdtGetprop blob e.off (some name)).Returns r ∧
      (r.isSome = true ↔ ∃ a ∈ e.props, a.name.chars = name.chars) ∧
      ∀ before a after, e.props = before ++ a :: after → a.name.chars = name.chars →
        (∀ b ∈ before, b.name.chars ≠ name.chars) →
          r = some (e.valueOff before a, a.value.length) ∧
            BytesAt (ctxOf blob) (e.valueOff before a) a.value := by
  cases hfind : e.property name with
  | none =>
      have hne := Entry.property_eq_none_iff.mp hfind
      refine ⟨none, h.returns_getprop_none he name hfind, ?_, ?_⟩
      · refine iff_of_false (by simp) ?_
        rintro ⟨a, ha, heq⟩
        exact hne a ha heq
      · intro before a after hprops heq _
        exact absurd heq (hne a (by simp [hprops]))
  | some a =>
      obtain ⟨heq, before, after, hprops, hbefore⟩ := Entry.property_eq_some_iff.mp hfind
      obtain ⟨hr, -⟩ := h.returns_getprop_some he name hprops heq hbefore
      refine ⟨_, hr, ?_, ?_⟩
      · exact iff_of_true rfl ⟨a, by simp [hprops], heq⟩
      · intro before' a' after' hprops' heq' hbefore'
        obtain ⟨hr', hvalue'⟩ := h.returns_getprop_some he name hprops' heq' hbefore'
        exact ⟨hr.unique hr', hvalue'⟩

theorem noNul_b : (0 : UInt8) ∉ [98] := by decide

theorem noNul_ab : (0 : UInt8) ∉ [97, 98] := by decide

/-- `ab`, with a NOP in front of it. -/
def propertyAb : Property where
  gap := 1
  name := ⟨[97, 98], noNul_ab⟩
  nameOff := 0
  value := [1, 2, 3]

/-- `b`, whose name is the end of the other one's. -/
def propertyB : Property where
  gap := 0
  name := ⟨[98], noNul_b⟩
  nameOff := 1
  value := []

/-- A root with these two properties. -/
def suffixTree : DeviceTree where
  name := ⟨[], noNul_nil⟩
  props := [propertyAb, propertyB]
  kids := .nil
  close := 0
  after := 0

theorem wellFormed_suffixTree :
    WellFormed (blobOf suffixTree.structBlock [97, 98, 0]) suffixTree :=
  wellFormed_blobOf suffixTree [97, 98, 0] (by decide) (by decide)

/-- The flag `b` is found behind `ab`. -/
theorem suffixTree_getprop :
    WellFormed (blobOf suffixTree.structBlock [97, 98, 0]) suffixTree ∧
      (fdtGetprop (blobOf suffixTree.structBlock [97, 98, 0]) 40 (some propertyB.name)).Returns
        (some (80, 0)) := by
  have hs : (ctxOf (blobOf suffixTree.structBlock [97, 98, 0])).s = 40 := by decide +kernel
  obtain ⟨r, hr, -, hfirst⟩ :=
    fdtGetprop_exact wellFormed_suffixTree List.mem_cons_self propertyB.name
  obtain ⟨rfl, -⟩ := hfirst [propertyAb] propertyB [] rfl rfl (by simp [propertyAb, propertyB])
  rw [hs] at hr
  have hoff : (suffixTree.rootEntry 40).valueOff [propertyAb] propertyB = 80 := by decide +kernel
  rw [hoff] at hr
  exact ⟨wellFormed_suffixTree, hr⟩

end Fdt
end Saski
