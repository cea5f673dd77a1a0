import Saski.Fdt.Search
import Saski.Fdt.TreeProps

/-!
# The search by `compatible` on a tree

On a well-formed blob whose nodes all fit the array of the search, the paths that it
goes through are the nodes of the tree in document order (`documentOrder_eq`), and the
test of a node is membership in its list of strings.  So the search finds the first
such node (`fdtNodeByCompatibleOffset_exact`).
-/

namespace Saski
namespace Fdt

open Capnp Logged Prog Nesting Preorder

/-! ## String lists -/

/-- The complete entries of a string list: those that a NUL ends. -/
def stringEntries (l : List UInt8) : List (List UInt8) := (l.splitOnP (· = 0)).dropLast

theorem stringEntries_of_noNul {s : List UInt8} (hs : 0 ∉ s) : stringEntries s = [] := by
  have hsingle : s.splitOnP (· = 0) = [s] :=
    List.splitOnP_eq_singleton fun x hx => decide_eq_false fun hzero => hs (hzero ▸ hx)
  rw [stringEntries, hsingle]
  rfl

theorem stringEntries_cons {s : List UInt8} (hs : 0 ∉ s) (rest : List UInt8) :
    stringEntries (s ++ 0 :: rest) = s :: stringEntries rest := by
  have hsingle : s.splitOnP (· = 0) = [s] :=
    List.splitOnP_eq_singleton fun x hx => decide_eq_false fun hzero => hs (hzero ▸ hx)
  rw [stringEntries, List.splitOnP_append_cons _ _ (by simp), hsingle, List.singleton_append,
    List.dropLast_cons_of_ne_nil (List.splitOnP_ne_nil _ _)]
  rfl

section List

variable {base : Int → UInt8} {list : Int} {value : List UInt8}
  (hat : ∀ i < value.length, value[i]? = some (base (list + i)))

include hat

/-- The end of the entry at `i`: the first NUL behind it, or the end of the list. -/
theorem returns_entryLoop_string (pre s tail : List UInt8) (hvalue : value = pre ++ (s ++ tail))
    (hs : 0 ∉ s) (htail : ∀ y ∈ tail.head?, y = 0) :
    (loop (entryBody base list value.length pre.length) 0).Returns s.length := by
  have hlength : value.length = pre.length + (s.length + tail.length) := by simp [hvalue]
  suffices hfrom : ∀ k j, j + k = s.length →
      (loop (entryBody base list value.length pre.length) j).Returns s.length from
    hfrom s.length 0 (Nat.zero_add _)
  intro k
  induction k with
  | zero =>
      rintro j rfl
      apply returns_loop_of_done
      have hbody := returns_entryBody base list value.length pre.length s.length
      rw [if_neg] at hbody
      · exact hbody
      · rintro ⟨hlt, hne⟩
        have hbyte := hat _ hlt
        rw [hvalue, List.getElem?_append_right (by omega), Nat.add_sub_cancel_left,
          List.getElem?_append_right le_rfl, Nat.sub_self, ← List.head?_eq_getElem?] at hbyte
        have hzero := htail _ hbyte
        push_cast at hzero
        exact hne (by rwa [Int.add_assoc])
  | succ k ih =>
      intro j hj
      apply returns_loop_of_step _ (ih (j + 1) (by omega))
      have hbody := returns_entryBody base list value.length pre.length j
      rw [if_pos] at hbody
      · exact hbody
      · refine ⟨by omega, fun hzero => hs ?_⟩
        have hbyte := hat (pre.length + j) (by omega)
        rw [hvalue, List.getElem?_append_right (by omega), Nat.add_sub_cancel_left,
          List.getElem?_append_left (by omega), Nat.cast_add, ← Int.add_assoc, hzero] at hbyte
        exact List.mem_of_getElem? hbyte

/-- The comparison of a complete entry. -/
theorem strEq_entry_iff {pre s rest : List UInt8} (hvalue : value = pre ++ (s ++ 0 :: rest))
    (hs : 0 ∉ s) (want : CString) :
    (strEq .value base (list + pre.length) want.chars).value = true ↔ want.chars = s := by
  have hlength : value.length = pre.length + (s.length + (rest.length + 1)) := by simp [hvalue]
  have hentry : ∀ i < s.length, s[i]? = some (base (list + pre.length + i)) := by
    intro i hi
    have hbyte := hat (pre.length + i) (by omega)
    rw [hvalue, List.getElem?_append_right (by omega), Nat.add_sub_cancel_left,
      List.getElem?_append_left hi, Nat.cast_add, ← Int.add_assoc] at hbyte
    exact hbyte
  have hend : base (list + pre.length + s.length) = 0 := by
    have hbyte := hat (pre.length + s.length) (by omega)
    rw [hvalue, List.getElem?_append_right (by omega), Nat.add_sub_cancel_left,
      List.getElem?_append_right le_rfl, Nat.sub_self, Nat.cast_add, ← Int.add_assoc] at hbyte
    exact (Option.some.inj hbyte).symm
  rw [value_strEq .value base want.noNul]
  constructor
  · rintro ⟨hwant, hwantEnd⟩
    exact chars_eq_of_terminated want.noNul hs hwant hwantEnd hentry hend
  · intro heq
    rw [heq]
    exact ⟨hentry, hend⟩

/-- One iteration of `compatible_match`, at a complete entry. -/
theorem returns_compatibleBody_entry (hsize : value.length + 1 < 2 ^ 32) (want : CString)
    {pre s rest : List UInt8} (hvalue : value = pre ++ (s ++ 0 :: rest)) (hs : 0 ∉ s) :
    (compatibleBody base list value.length want pre.length).Returns
      (if want.chars = s then .inr true else .inl (pre.length + (s.length + 1))) := by
  have hlength : value.length = pre.length + (s.length + (rest.length + 1)) := by simp [hvalue]
  have hentry := returns_entryLoop_string hat pre s (0 :: rest) hvalue hs (by simp)
  unfold compatibleBody
  rw [if_pos (by omega), returns_bind_of hentry, if_pos (by omega), returns_liftM_bind,
    Nat.mod_eq_of_lt (by omega)]
  by_cases heq : want.chars = s
  · rw [if_pos ((strEq_entry_iff hat hvalue hs want).mpr heq), if_pos heq, returns_pure]
  · rw [if_neg fun hsame => heq ((strEq_entry_iff hat hvalue hs want).mp hsame), if_neg heq,
      returns_pure]

/-- Without a NUL there is no complete entry, and the loop ends behind the list. -/
theorem returns_compatibleLoop_noNul (hsize : value.length + 1 < 2 ^ 32) (want : CString)
    {pre rest : List UInt8} (hvalue : value = pre ++ rest) (hnul : 0 ∉ rest) :
    (loop (compatibleBody base list value.length want) pre.length).Returns false := by
  have hlength : value.length = pre.length + rest.length := by simp [hvalue]
  by_cases hempty : rest = []
  · apply returns_loop_of_done
    simp [compatibleBody, hvalue, hempty]
  · have hpos := List.length_pos_of_ne_nil hempty
    have hentry := returns_entryLoop_string hat pre rest [] (by simpa using hvalue) hnul (by simp)
    have hstep : (compatibleBody base list value.length want pre.length).Returns
        (.inl (value.length + 1)) := by
      unfold compatibleBody
      rw [if_pos (by omega), returns_bind_of hentry, if_neg (by omega), returns_pure,
        Nat.mod_eq_of_lt (by omega), hlength]
      simp [Nat.add_assoc]
    apply returns_loop_of_step hstep
    apply returns_loop_of_done
    simp [compatibleBody]

/-- From the start of an entry on, `compatible_match` looks at the rest of the list. -/
theorem returns_compatibleLoop (hsize : value.length + 1 < 2 ^ 32) (want : CString) (n : Nat) :
    ∀ pre rest : List UInt8, rest.length ≤ n → value = pre ++ rest →
      (loop (compatibleBody base list value.length want) pre.length).Returns
        (decide (want.chars ∈ stringEntries rest)) := by
  induction n with
  | zero =>
      intro pre rest hrest hvalue
      obtain rfl := List.eq_nil_of_length_eq_zero (Nat.le_zero.mp hrest)
      exact returns_compatibleLoop_noNul hat hsize want hvalue List.not_mem_nil
  | succ n ih =>
      intro pre rest hrest hvalue
      by_cases hnul : 0 ∈ rest
      case neg =>
        rw [stringEntries_of_noNul hnul]
        exact returns_compatibleLoop_noNul hat hsize want hvalue hnul
      case pos =>
        obtain ⟨s, rest, rfl, hs⟩ := List.eq_append_cons_of_mem hnul
        have hbody := returns_compatibleBody_entry hat hsize want hvalue hs
        rw [stringEntries_cons hs]
        by_cases heq : want.chars = s
        · rw [if_pos heq] at hbody
          simpa [heq] using returns_loop_of_done hbody
        · rw [if_neg heq] at hbody
          have hnext := ih (pre ++ (s ++ [0])) rest
            (by simp only [List.length_append, List.length_cons] at hrest; omega)
            (by simp [hvalue])
          rw [List.length_append, List.length_append, List.length_singleton] at hnext
          simpa [heq] using returns_loop_of_step hbody hnext

/-- **`compatible_match` looks at every complete entry.** -/
theorem returns_compatibleMatch_entries (hsize : value.length + 1 < 2 ^ 32) (want : CString) :
    (compatibleMatch base list value.length want).Returns
      (decide (want.chars ∈ stringEntries value)) :=
  returns_compatibleLoop hat hsize want value.length [] value le_rfl rfl

end List

/-- The strings of the node's `compatible`. -/
def Entry.compatibles (e : Entry) : List (List UInt8) :=
  ((e.value compatibleName).map stringEntries).getD []

/-- The path from the root to the node, as the search keeps it. -/
def Entry.path (e : Entry) : List Int := e.off :: e.above

/-! ## Document order -/

theorem Nodes.length_above_le {f : Nodes} {p : Int} {above : List Int} {way : List (List UInt8)}
    {e : Entry} (he : e ∈ f.entries p above way) : above.length ≤ e.depth := by
  induction f generalizing p above way with
  | nil => exact absurd he List.not_mem_nil
  | cons gap name props kids close rest ihkids ihrest =>
      rw [Nodes.entries, List.mem_cons, List.mem_append] at he
      rcases he with rfl | hin | hbehind
      · exact le_rfl
      · have hle := ihkids hin
        rw [List.length_cons] at hle
        omega
      · exact ihrest hbehind

/-- The nodes of a list, by the levels below each of those on top. -/
theorem Nodes.preorder_eq {c : Ctx} (levels : Nat) (f : Nodes) {p : Int} {above : List Int}
    {way : List (List UInt8)} (hnodes : ∀ e ∈ f.entries p above way, NodeOf c e)
    (hdepth : ∀ e ∈ f.entries p above way, e.depth ≤ above.length + levels) :
    (f.tops p above way).flatMap (fun e => preorder (childrenOf c) levels e.off e.above) =
      (f.entries p above way).map Entry.path := by
  induction f generalizing p above way levels with
  | nil => rfl
  | cons gap name props kids close rest ihkids ihrest =>
      simp only [Nodes.entries, List.mem_cons, List.mem_append, or_imp, forall_and] at hnodes hdepth
      obtain ⟨hnode, hkids, hrest⟩ := hnodes
      obtain ⟨-, hdeepKids, hdeepRest⟩ := hdepth
      rw [Nodes.tops, List.flatMap_cons, ihrest levels hrest hdeepRest, Nodes.entries,
        List.map_cons, List.map_append, ← List.cons_append]
      congr 1
      cases levels with
      | zero =>
          -- There is no room for nodes below this one.
          have hnone : kids.entries (kidsOff gap name props p) (nodeOff gap p :: above)
              (name.chars :: way) = [] := by
            apply List.eq_nil_iff_forall_not_mem.mpr
            intro x hx
            have hle := Nodes.length_above_le hx
            have hlt := hdeepKids x hx
            rw [List.length_cons] at hle
            omega
          rw [hnone]
          rfl
      | succ levels =>
          have hchildren : childrenOf c (nodeOff gap p) = _ := (hnode _ rfl).children
          have hbelow := ihkids levels hkids fun x hx => by
            have := hdeepKids x hx
            rw [List.length_cons]
            omega
          rw [preorder, hchildren, List.flatMap_map, ← hbelow]
          congr 1
          apply List.flatMap_congr
          intro x hx
          rw [(above_of_mem_tops hx).1]

namespace WellFormed

variable {blob : Buffer} {t : DeviceTree} (h : WellFormed blob t)

include h

/-- **The search goes through the nodes of the tree in document order**, if they all
fit its array. -/
theorem documentOrder_eq (hdepth : ∀ e ∈ t.entries (ctxOf blob).s, e.depth ≤ 15) :
    documentOrder (ctxOf blob) = (t.entries (ctxOf blob).s).map Entry.path := by
  have hroot := h.nodeOf (e := t.rootEntry (ctxOf blob).s) List.mem_cons_self
  have hchildren : childrenOf (ctxOf blob) (ctxOf blob).s = _ := hroot.children
  have hbelow := Nodes.preorder_eq (c := ctxOf blob) 14 t.kids
    (fun e he => h.nodeOf (List.mem_cons_of_mem _ he))
    (fun e he => hdepth e (List.mem_cons_of_mem _ he))
  rw [DeviceTree.entries, List.map_cons, ← hbelow, documentOrder,
    show fdtMaxDepth - 1 = 14 + 1 from rfl, preorder, hchildren, List.flatMap_map]
  congr 1
  apply List.flatMap_congr
  intro x hx
  rw [(above_of_mem_tops hx).1]
  rfl

/-- The test of a node is membership in its list. -/
theorem returns_isCompatible_entry {e : Entry} (he : e ∈ t.entries (ctxOf blob).s)
    (want : CString) :
    (isCompatible blob (ctxOf blob) want e.off).Returns
      (decide (want.chars ∈ e.compatibles)) := by
  have hvalue := h.returns_getprop he compatibleName
  unfold isCompatible Entry.compatibles
  rw [returns_bind_of hvalue, Entry.value_eq_located]
  cases hfind : e.located compatibleName with
  | none => simp
  | some x =>
      have hat := h.bytesAt_located he compatibleName hfind
      have hs := h.s_nonneg
      have hsend := h.send_lt
      have hstart := hat.1
      have hend := hat.2.1
      have hsmall := h.small
      have hle := h.struct_le
      exact returns_compatibleMatch_entries hat.2.2 (by omega) want

theorem not_atLimit (hdepth : ∀ e ∈ t.entries (ctxOf blob).s, e.depth ≤ 15) {e : Entry}
    (he : e ∈ t.entries (ctxOf blob).s) :
    ¬ AtLimit (childrenOf (ctxOf blob)) fdtMaxDepth e.path := by
  rintro ⟨hlength, n, rest, hpath, hkids⟩
  obtain ⟨rfl, rfl⟩ := List.cons.inj hpath
  have hchildren : childrenOf (ctxOf blob) e.off = _ := (h.nodeOf he).children
  rw [hchildren, ne_eq, List.map_eq_nil_iff] at hkids
  obtain ⟨x, xs, hfirst⟩ := List.exists_cons_of_ne_nil hkids
  have hx : x ∈ e.children := by simp [hfirst]
  have hdeep := hdepth x (DeviceTree.mem_entries_of_mem_children he hx)
  rw [Entry.depth, (above_of_mem_tops hx).1, List.length_cons] at hdeep
  rw [Entry.path, List.length_cons, fdtMaxDepth] at hlength
  omega

/-- One iteration of the search, at a node of the tree. -/
theorem searchBody_entry (hdepth : ∀ e ∈ t.entries (ctxOf blob).s, e.depth ≤ 15)
    (want : CString) {before after : List Entry} {e : Entry} {w : Search}
    (hsplit : t.entries (ctxOf blob).s = before ++ e :: after)
    (hw : Holds e.path w.depth w.stack) :
    if want.chars ∈ e.compatibles then
      (searchBody blob (ctxOf blob) want w).Returns (.inr e.off)
    else
      match after.head? with
      | none => (searchBody blob (ctxOf blob) want w).Returns (.inr fdtErrNode)
      | some x => ∃ w', Step (searchBody blob (ctxOf blob) want) w w' ∧
          Holds x.path w'.depth w'.stack := by
  have he : e ∈ t.entries (ctxOf blob).s := by simp [hsplit]
  have htest := h.returns_isCompatible_entry he want
  split
  case isTrue hmatch =>
    rw [decide_eq_true hmatch] at htest
    exact returns_searchBody_of_match hw (Nat.lt_succ_of_le (hdepth e he)) htest
  case isFalse hmatch =>
    rw [decide_eq_false hmatch] at htest
    have hdoc : documentOrder (ctxOf blob) =
        before.map Entry.path ++ e.path :: after.map Entry.path := by
      rw [h.documentOrder_eq hdepth, hsplit]
      simp
    have hun : Unmatched blob (ctxOf blob) want e.path := by
      intro n hn htrue
      obtain rfl := Option.some.inj hn
      exact Bool.false_ne_true (htest.unique htrue)
    have hnext := search_next h.toSmallBlob want hdoc hw (h.not_atLimit hdepth he) hun
    cases after with
    | nil => exact hnext
    | cons x after => exact hnext

/-- From a node on, the search returns the first node that matches. -/
theorem returns_searchLoop (hdepth : ∀ e ∈ t.entries (ctxOf blob).s, e.depth ≤ 15)
    (want : CString) (after : List Entry) : ∀ (before : List Entry) {e : Entry} {w : Search},
      t.entries (ctxOf blob).s = before ++ e :: after → Holds e.path w.depth w.stack →
        (loop (searchBody blob (ctxOf blob) want) w).Returns
          (((e :: after).find? fun x => want.chars ∈ x.compatibles).elim fdtErrNode Entry.off) := by
  induction after with
  | nil =>
      intro before e w hsplit hw
      have hbody := h.searchBody_entry hdepth want hsplit hw
      by_cases hmatch : want.chars ∈ e.compatibles
      · rw [if_pos hmatch] at hbody
        rw [List.find?_cons_of_pos (by simpa using hmatch)]
        exact returns_loop_of_done hbody
      · rw [if_neg hmatch] at hbody
        rw [List.find?_cons_of_neg (by simpa using hmatch)]
        exact returns_loop_of_done hbody
  | cons x after ih =>
      intro before e w hsplit hw
      have hbody := h.searchBody_entry hdepth want hsplit hw
      by_cases hmatch : want.chars ∈ e.compatibles
      · rw [if_pos hmatch] at hbody
        rw [List.find?_cons_of_pos (by simpa using hmatch)]
        exact returns_loop_of_done hbody
      · rw [if_neg hmatch] at hbody
        obtain ⟨w', hstep, hw'⟩ := hbody
        rw [List.find?_cons_of_neg (by simpa using hmatch)]
        exact returns_loop_of_step hstep (ih (before ++ [e]) (by simp [hsplit]) hw')

end WellFormed

/-- **The search by `compatible` is the search in document order over full lists.** -/
theorem fdtNodeByCompatibleOffset_exact {blob : Buffer} {t : DeviceTree} (h : WellFormed blob t)
    (hdepth : ∀ e ∈ t.entries (ctxOf blob).s, e.depth ≤ 15) (want : CString) :
    ∃ r, (fdtNodeByCompatibleOffset blob (some want)).Returns r ∧
      (∀ before e after, t.entries (ctxOf blob).s = before ++ e :: after →
        want.chars ∈ e.compatibles → (∀ x ∈ before, want.chars ∉ x.compatibles) → r = e.off) ∧
      (r = fdtErrNode ↔ ∀ e ∈ t.entries (ctxOf blob).s, want.chars ∉ e.compatibles) := by
  have hroot := (h.nodeOf (e := t.rootEntry (ctxOf blob).s) List.mem_cons_self).header
  have hbegin : IsNode (ctxOf blob) (ctxOf blob).s :=
    ⟨hroot.left.ok le_rfl, hroot.left.be32 (by decide)⟩
  have hloop := h.returns_searchLoop hdepth want _ [] rfl
    (w := ⟨0, _⟩) (Holds.root (ctxOf blob).s)
  have hsearch := (returns_fdtNodeByCompatibleOffset h.toSmallBlob hbegin want _).mpr hloop
  refine ⟨_, hsearch, ?_, ?_⟩
  · intro before e after hsplit hmatch hbefore
    have hfind : (t.entries (ctxOf blob).s).find? (fun x => want.chars ∈ x.compatibles) =
        some e :=
      List.find?_eq_some_iff_append.mpr
        ⟨by simpa using hmatch, before, after, hsplit, by simpa using hbefore⟩
    exact congrArg (fun o : Option Entry => o.elim fdtErrNode Entry.off) hfind
  · cases hfind : (t.entries (ctxOf blob).s).find? (fun x => want.chars ∈ x.compatibles) with
    | none =>
        have hnone := List.find?_eq_none.mp hfind
        refine iff_of_true ?_ (by simpa using hnone)
        exact congrArg (fun o : Option Entry => o.elim fdtErrNode Entry.off) hfind
    | some e =>
        have hmem := List.mem_of_find?_eq_some hfind
        have hmatch : want.chars ∈ e.compatibles := by simpa using List.find?_some hfind
        refine iff_of_false ?_ fun hnone => hnone e hmem hmatch
        have hoff := h.off_nonneg hmem
        have heq := congrArg (fun o : Option Entry => o.elim fdtErrNode Entry.off) hfind
        intro herr
        have hneg : e.off = fdtErrNode := heq.symm.trans herr
        rw [hneg] at hoff
        exact absurd hoff (by decide)

/-- A root, and below it a node whose `compatible` is the list of `x` and `ab`. -/
def compatibleTree : DeviceTree where
  name := ⟨[], noNul_nil⟩
  props := []
  kids := .cons 0 ⟨[97], noNul_a⟩
    [{ gap := 0, name := compatibleName, nameOff := 0, value := [120, 0, 97, 98, 0] }] .nil 0 .nil
  close := 0
  after := 0

theorem wellFormed_compatibleTree :
    WellFormed (blobOf compatibleTree.structBlock (compatibleName.chars ++ [0])) compatibleTree :=
  wellFormed_blobOf compatibleTree (compatibleName.chars ++ [0]) (by decide) (by decide)

/-- The second entry of the list is found. -/
theorem compatibleTree_search :
    WellFormed (blobOf compatibleTree.structBlock (compatibleName.chars ++ [0])) compatibleTree ∧
      (fdtNodeByCompatibleOffset (blobOf compatibleTree.structBlock (compatibleName.chars ++ [0]))
        (some propertyAb.name)).Returns 48 := by
  have hs : (ctxOf (blobOf compatibleTree.structBlock (compatibleName.chars ++ [0]))).s = 40 := by
    decide +kernel
  have hdepth : ∀ e ∈ compatibleTree.entries 40, e.depth ≤ 15 := by decide +kernel
  obtain ⟨r, hr, hfirst, -⟩ := fdtNodeByCompatibleOffset_exact wellFormed_compatibleTree
    (by rwa [hs]) propertyAb.name
  rw [hs] at hfirst
  obtain rfl := hfirst [compatibleTree.rootEntry 40] _ [] rfl (by decide +kernel)
    (by decide +kernel)
  exact ⟨wellFormed_compatibleTree, hr⟩

end Fdt
end Saski
