import Mathlib.Tactic

/-!
# Setting, clearing and testing one bit of a word

A flag register is changed and tested one bit at a time, through the word
`1 <<< k`.  The lemmas say when such a change does nothing and when one change
undoes another.
-/

namespace SingleBit

variable {w : Nat} {x : BitVec w} {k : Nat}

theorem getLsbD_bit {i : Nat} (hi : i < w) : (1#w <<< k).getLsbD i = decide (i = k) := by
  rw [BitVec.getLsbD_shiftLeft, BitVec.getLsbD_one]
  by_cases hik : i = k
  · subst hik
    simp [hi]
    omega
  · simp only [hi, hik]
    rcases Nat.lt_or_ge i k with hlt | hge
    · simp [hlt]
    · have hne : i - k ≠ 0 := by omega
      simp [hne]

/-- Testing a bit. -/
theorem and_bit_eq_zero_iff (x : BitVec w) (hk : k < w) :
    x &&& (1#w <<< k) = 0 ↔ x.getLsbD k = false := by
  constructor
  · intro hzero
    have hbit : (x &&& (1#w <<< k)).getLsbD k = false := by
      rw [hzero]
      exact BitVec.getLsbD_zero
    rw [BitVec.getLsbD_and, getLsbD_bit hk] at hbit
    simpa using hbit
  · intro hbit
    apply BitVec.eq_of_getLsbD_eq
    intro i hi
    rw [BitVec.getLsbD_and, getLsbD_bit hi,
      show (0 : BitVec w).getLsbD i = false from BitVec.getLsbD_zero]
    by_cases hik : i = k
    · subst hik
      simp [hbit]
    · simp [hik]

/-- Setting a bit that is set changes nothing. -/
theorem or_bit_of_set (h : x.getLsbD k = true) : x ||| (1#w <<< k) = x := by
  apply BitVec.eq_of_getLsbD_eq
  intro i hi
  rw [BitVec.getLsbD_or, getLsbD_bit hi]
  by_cases hik : i = k
  · rw [hik, h]
    rfl
  · simp [hik]

/-- Clearing a bit that is clear changes nothing. -/
theorem and_not_bit_of_clear (h : x.getLsbD k = false) : x &&& ~~~(1#w <<< k) = x := by
  apply BitVec.eq_of_getLsbD_eq
  intro i hi
  rw [BitVec.getLsbD_and, BitVec.getLsbD_not, getLsbD_bit hi]
  by_cases hik : i = k
  · rw [hik, h]
    rfl
  · simp [hik, hi]

/-- Clearing undoes setting a bit that was clear. -/
theorem and_not_bit_or_bit (h : x.getLsbD k = false) :
    (x ||| (1#w <<< k)) &&& ~~~(1#w <<< k) = x := by
  apply BitVec.eq_of_getLsbD_eq
  intro i hi
  rw [BitVec.getLsbD_and, BitVec.getLsbD_or, BitVec.getLsbD_not, getLsbD_bit hi]
  by_cases hik : i = k
  · rw [hik, h]
    simp
  · simp [hik, hi]

/-- Setting undoes clearing a bit that was set. -/
theorem or_bit_and_not_bit (h : x.getLsbD k = true) :
    (x &&& ~~~(1#w <<< k)) ||| (1#w <<< k) = x := by
  apply BitVec.eq_of_getLsbD_eq
  intro i hi
  rw [BitVec.getLsbD_or, BitVec.getLsbD_and, BitVec.getLsbD_not, getLsbD_bit hi]
  by_cases hik : i = k
  · rw [hik, h]
    simp
  · simp [hik, hi]

end SingleBit
