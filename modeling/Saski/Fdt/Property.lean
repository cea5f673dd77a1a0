import Saski.Fdt.Stream

/-!
# Properties of a node and the test for `compatible`

The loops of `fdt_getprop` and `compatible_match` end on every blob, and what they
give is a value that lies inside the structure block.
-/

namespace Saski
namespace Fdt

open Capnp Logged Prog Nesting

/-! ## Comparing with a C string -/

theorem value_strEq_cons (part : Int → Access) (bytes : Int → UInt8) (a : Int) {y : UInt8}
    (hy : y ≠ 0) (ys : List UInt8) :
    (strEq part bytes a (y :: ys)).value =
      if bytes a = y then (strEq part bytes (a + 1) ys).value else false := by
  unfold strEq
  simp -implicitDefEqProofs only [value_bind, value_rdByte]
  by_cases heq : bytes a = y
  · rw [if_pos ⟨by rwa [heq], heq⟩, if_pos heq]
    cases ys with
    | nil => rfl
    | cons z zs => rfl
  · rw [if_neg fun hboth => heq hboth.2, if_neg heq]
    simpa using heq

/-- `str_eq` compares all characters and the terminator. -/
theorem value_strEq (part : Int → Access) (bytes : Int → UInt8) {l : List UInt8} (hl : 0 ∉ l)
    (a : Int) :
    (strEq part bytes a l).value = true ↔
      (∀ i < l.length, l[i]? = some (bytes (a + i))) ∧ bytes (a + l.length) = 0 := by
  induction l generalizing a with
  | nil => simp [strEq]
  | cons y ys ih =>
      obtain ⟨hy, hys⟩ := not_or.mp (List.mem_cons.not.mp hl)
      have hshift : ∀ i : Nat, a + ((i + 1 : Nat) : Int) = a + 1 + i := fun i => by omega
      rw [value_strEq_cons part bytes a (Ne.symm hy), List.length_cons, hshift]
      by_cases heq : bytes a = y
      · rw [if_pos heq, ih hys (a + 1)]
        refine and_congr_left fun _ => ⟨fun hall i hi => ?_, fun hall i hi => ?_⟩
        · cases i with
          | zero => simp [heq]
          | succ i =>
              rw [hshift, List.getElem?_cons_succ]
              exact hall i (by omega)
        · have hnext := hall (i + 1) (by omega)
          rwa [hshift, List.getElem?_cons_succ] at hnext
      · rw [if_neg heq]
        refine iff_of_false (by simp) ?_
        rintro ⟨hall, -⟩
        have hfirst := hall 0 (by omega)
        simp only [List.getElem?_cons_zero, Option.some.injEq] at hfirst
        exact heq (by simpa using hfirst.symm)

section Getprop

variable {blob : Buffer} {c : Ctx} (h : Header blob c)

include h

/-- One iteration of `fdt_getprop`. -/
theorem returns_getpropBody (name : CString) (p : Int) :
    (getpropBody c name p).Returns
      (match tokenAt c p with
      | .prop w =>
          match strAt c (be32 c.base (p + 8)) with
          | none => .inr none
          | some pn =>
              if (strEq .strings c.base pn name.chars).value then
                .inr (some (p + 12, be32 c.base (p + 4)))
              else .inl (p + w)
      | .nop => .inl (p + 4)
      | _ => .inr none) := by
  unfold getpropBody
  rcases tokenAt_cases c p with ⟨hok, heq⟩ | ⟨hok, hrest⟩
  · simp [hok, heq]
  simp only [hok, not_true_eq_false, if_false, returns_rdBe32]
  rcases hrest with ⟨htoken, hname⟩ | ⟨htoken, heq⟩ | ⟨htoken, hprop⟩ | ⟨htoken, heq⟩ |
    ⟨⟨h1, h2, h3, h4⟩, heq⟩
  · rcases hname with ⟨-, heq⟩ | ⟨n, -, heq⟩ <;> simp [heq, htoken]
  · simp [htoken, heq]
  · have htests : ¬ (be32 c.base p = fdtBeginNode ∨ be32 c.base p = fdtEndNode) ∧
        ¬ be32 c.base p = fdtNop := by
      rw [htoken]
      decide
    rw [if_neg htests.1, if_neg htests.2]
    rcases hprop with ⟨hlen, heq⟩ | ⟨hlen, heq⟩
    · have hheader : ok c p 8 := ⟨hok.1, hok.2.1, by have := hlen.2.1; omega⟩
      have hwidth := (h.prop_width hok htoken hlen).1
      rw [if_neg (by simp [htoken, hheader]), returns_rdBe32, returns_rdBe32, heq,
        if_neg (by simpa using hlen), hwidth]
      cases strAt c (be32 c.base (p + 8)) with
      | none => simp
      | some pn =>
          simp only
          rw [returns_liftM_bind]
          by_cases hname : (strEq .strings c.base pn name.chars).value = true
          · simp [hname]
          · simp [hname]
    · by_cases hheader : ok c p 8 <;> simp [htoken, hheader, hlen, heq]
  · simp [htoken, heq, fdtNop, fdtEndNode, fdtBeginNode]
  · simp [h1, h2, h3, h4, heq]

/-- `fdt_getprop` ends, and a value that it returns lies inside the block. -/
theorem returns_getpropLoop (name : CString) (p : Int) :
    ∃ r, (loop (getpropBody c name) p).Returns r ∧
      ∀ v len, r = some (v, len) → 16 ≤ v ∧ ok c v len := by
  induction p using walk_induction c with
  | step p ih =>
      have hbody := returns_getpropBody h name p
      cases htoken : tokenAt c p with
      | nop =>
          rw [htoken] at hbody
          obtain ⟨r, hr, hvalue⟩ := ih (p + 4) (ok_of_tokenAt (by simp [htoken])) le_rfl
          exact ⟨r, returns_loop_of_step hbody hr, hvalue⟩
      | prop w =>
          have hw := four_le_prop htoken
          have hok := ok_of_tokenAt (show tokenAt c p ≠ .stop by simp [htoken])
          obtain ⟨r, hr, hvalue⟩ := ih (p + w) hok (by omega)
          simp only [htoken] at hbody
          cases hpn : strAt c (be32 c.base (p + 8)) with
          | none =>
              rw [hpn] at hbody
              exact ⟨none, returns_loop_of_done hbody, by simp⟩
          | some pn =>
              simp only [hpn] at hbody
              split at hbody
              · refine ⟨_, returns_loop_of_done hbody, ?_⟩
                rintro v len heq
                obtain ⟨rfl, rfl⟩ := Prod.mk.inj (Option.some.inj heq)
                obtain ⟨-, hprop, hfits, -⟩ := tokenAt_eq_prop_iff.mp htoken
                have hfour := h.four_le hok.1 (by rw [hprop]; decide)
                exact ⟨by omega, hfits⟩
              · exact ⟨r, returns_loop_of_step hbody hr, hvalue⟩
      | node w =>
          rw [htoken] at hbody
          exact ⟨none, returns_loop_of_done hbody, by simp⟩
      | cutNode =>
          rw [htoken] at hbody
          exact ⟨none, returns_loop_of_done hbody, by simp⟩
      | close =>
          rw [htoken] at hbody
          exact ⟨none, returns_loop_of_done hbody, by simp⟩
      | stop =>
          rw [htoken] at hbody
          exact ⟨none, returns_loop_of_done hbody, by simp⟩

theorem returns_fdtGetprop (n : Int) (name : CString) :
    ∃ r, (fdtGetprop blob n (some name)).Returns r ∧
      ∀ v len, r = some (v, len) → 16 ≤ v ∧ ok c v len := by
  unfold fdtGetprop
  simp only
  simp only [returns_liftM_bind, (value_ctxInit blob c).mpr h]
  simp only [returns_bind_of (returns_afterName c n)]
  cases htoken : tokenAt c n with
  | node w => exact returns_getpropLoop h name (n + w)
  | cutNode => exact ⟨none, by simp, by simp⟩
  | close => exact ⟨none, by simp, by simp⟩
  | prop w => exact ⟨none, by simp, by simp⟩
  | nop => exact ⟨none, by simp, by simp⟩
  | stop => exact ⟨none, by simp, by simp⟩

end Getprop

/-! ## `compatible_match` -/

theorem returns_entryBody (base : Int → UInt8) (list : Int) (len i j : Nat) :
    (entryBody base list len i j).Returns
      (if i + j < len ∧ base (list + i + j) ≠ 0 then .inl (j + 1) else .inr j) := by
  unfold entryBody
  by_cases hlt : i + j < len
  · rw [if_pos hlt, returns_rdByte]
    by_cases hzero : base (list + i + j) = 0
    · simp [hzero]
    · simp [hlt, hzero]
  · simp [hlt]

/-- An entry ends inside the list, or with it. -/
theorem returns_entryLoop (base : Int → UInt8) (list : Int) {len i : Nat} (hi : i < len) :
    ∃ j, (loop (entryBody base list len i) 0).Returns j ∧ i + j ≤ len := by
  obtain ⟨j, hj⟩ : ∃ j, (loop (entryBody base list len i) 0).Returns j := by
    apply exists_returns_loop (fun _ => True) (fun j : Nat => len - (i + j)) _ trivial
    intro j _
    by_cases hgo : i + j < len ∧ base (list + i + j) ≠ 0
    · refine Or.inr ⟨j + 1, ?_, trivial, by omega⟩
      simpa [Step, hgo] using returns_entryBody base list len i j
    · exact Or.inl ⟨j, by simpa [hgo] using returns_entryBody base list len i j⟩
  refine ⟨j, hj, ?_⟩
  have hstep : ∀ k k', i + k ≤ len → Step (entryBody base list len i) k k' → i + k' ≤ len := by
    intro k k' _ hk
    have heq := (returns_entryBody base list len i k).unique hk
    split at heq
    case isTrue hgo =>
      obtain rfl := Sum.inl.inj heq
      omega
    case isFalse => exact absurd heq (by simp)
  obtain ⟨k, hk, hdone⟩ := exists_of_returns_loop (fun k => i + k ≤ len) (by omega) hstep hj
  have heq := (returns_entryBody base list len i k).unique hdone
  split at heq
  case isTrue => exact absurd heq (by simp)
  case isFalse =>
    obtain rfl := Sum.inr.inj heq
    exact hk

/-- `compatible_match` ends: no entry reaches the end of the 32-bit numbers. -/
theorem returns_compatibleMatch (base : Int → UInt8) (list : Int) {len : Nat}
    (hlen : len + 1 < 2 ^ 32) (want : CString) :
    ∃ b, (compatibleMatch base list len want).Returns b := by
  apply exists_returns_loop (fun _ => True) (fun i : Nat => len - i) _ trivial
  intro i _
  by_cases hi : i < len
  · obtain ⟨j, hj, hle⟩ := returns_entryLoop base list hi
    have hmod : (i + (j + 1)) % 2 ^ 32 = i + (j + 1) := Nat.mod_eq_of_lt (by omega)
    unfold Step compatibleBody
    simp only [hi, if_true, returns_bind_of hj, hmod]
    by_cases hinside : i + j < len
    · simp only [hinside, if_true, returns_liftM_bind]
      by_cases hmatch : (strEq .value base (list + i) want.chars).value = true
      · exact Or.inl ⟨true, by simp [hmatch]⟩
      · exact Or.inr ⟨i + (j + 1), by simp [hmatch], trivial, by omega⟩
    · exact Or.inr ⟨i + (j + 1), by simp [hinside], trivial, by omega⟩
  · exact Or.inl ⟨false, by simp [compatibleBody, hi]⟩

/-- The test of a candidate ends. -/
theorem returns_isCompatible {blob : Buffer} {c : Ctx} (h : Header blob c) (compatible : CString)
    (n : Int) : ∃ b, (isCompatible blob c compatible n).Returns b := by
  unfold isCompatible
  obtain ⟨r, hr, hvalue⟩ := returns_fdtGetprop h n compatibleName
  simp only [returns_bind_of hr]
  cases r with
  | none => exact ⟨false, by simp⟩
  | some value =>
      obtain ⟨v, len⟩ := value
      obtain ⟨hv, -, -, hfits⟩ := hvalue v len rfl
      have hsend := h.send_lt
      exact returns_compatibleMatch c.base v (by omega) compatible

end Fdt
end Saski
