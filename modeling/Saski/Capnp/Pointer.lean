import Mathlib.Tactic

/-!
# Decoding one pointer word (`kernel/capnp.h`)

A Cap'n Proto pointer is one 64-bit little-endian word whose two low bits are
a tag.  `capnpDecodePtr` follows `capnp_decode_ptr` field by field, including
the fields it leaves at zero for the tags that do not use them.  Words are
natural numbers below `2 ^ 64`; the shifts and masks are the source's own, and
the lemmas at the end restate them as quotients and remainders.
-/

namespace Saski
namespace Capnp

/-- `capnp_ptr_tag_t`. -/
inductive CapnpPtrTag where
  | null
  | struct
  | list
  | far
  | capability
  deriving DecidableEq, Repr

/-- `capnp_ptr_t`: one record for all pointer kinds. -/
structure CapnpPtr where
  tag : CapnpPtrTag
  offsetWords : Int := 0
  dataWords : Nat := 0
  ptrWords : Nat := 0
  elementSize : Nat := 0
  elementCount : Nat := 0
  farDouble : Nat := 0
  farSegmentId : Nat := 0
  capIndex : Nat := 0
  deriving DecidableEq, Repr

/-- The signed 30-bit offset of a struct or list pointer.  Setting the two top
bits of the 32-bit field subtracts `2 ^ 30` from its low 30 bits. -/
def decodeOffset (word : Nat) : Int :=
  let raw := (word >>> 2) &&& 0x3FFFFFFF
  if raw &&& 0x20000000 ≠ 0 then (raw : Int) - 2 ^ 30 else raw

/-- `capnp_decode_ptr`. -/
def capnpDecodePtr (word : Nat) : CapnpPtr :=
  if word = 0 then { tag := .null }
  else
    match word &&& 0x3 with
    | 0 =>
        { tag := .struct
          offsetWords := decodeOffset word
          dataWords := (word >>> 32) &&& 0xFFFF
          ptrWords := (word >>> 48) &&& 0xFFFF }
    | 1 =>
        { tag := .list
          offsetWords := decodeOffset word
          elementSize := (word >>> 32) &&& 0x7
          elementCount := (word >>> 35) &&& 0x1FFFFFFF }
    | 2 =>
        { tag := .far
          farDouble := (word >>> 2) &&& 0x1
          offsetWords := ((word >>> 3) &&& 0x1FFFFFFF : Nat)
          farSegmentId := (word >>> 32) &&& 0xFFFFFFFF }
    | _ =>
        { tag := .capability
          capIndex := (word >>> 32) &&& 0xFFFFFFFF }

/-! ## Arithmetic form -/

/-- Masking with `2 ^ k - 1` after a shift selects `k` bits. -/
theorem shiftRight_and_mask (word s k : Nat) :
    (word >>> s) &&& (2 ^ k - 1) = word / 2 ^ s % 2 ^ k := by
  rw [Nat.and_two_pow_sub_one_eq_mod, Nat.shiftRight_eq_div_pow]

/-- Masking with a single bit tests that bit. -/
theorem and_two_pow_ne_zero_iff (raw k : Nat) :
    raw &&& 2 ^ k ≠ 0 ↔ raw.testBit k = true := by
  constructor
  · intro hne
    obtain ⟨i, hi⟩ := Nat.exists_testBit_of_ne_zero hne
    rw [Nat.testBit_and, Nat.testBit_two_pow, Bool.and_eq_true, decide_eq_true_eq] at hi
    rw [hi.2]
    exact hi.1
  · intro hbit hzero
    have hand : (raw &&& 2 ^ k).testBit k = true := by
      rw [Nat.testBit_and, hbit, Nat.testBit_two_pow_self]
      rfl
    rw [hzero, Nat.zero_testBit] at hand
    exact Bool.false_ne_true hand

theorem and_bit29_ne_zero_iff {raw : Nat} (h : raw < 2 ^ 30) :
    raw &&& 0x20000000 ≠ 0 ↔ 2 ^ 29 ≤ raw := by
  rw [show (0x20000000 : Nat) = 2 ^ 29 by norm_num, and_two_pow_ne_zero_iff,
    Nat.testBit_eq_decide_div_mod_eq, decide_eq_true_eq]
  omega

/-- The offset field as a two's-complement number of 30 bits. -/
theorem decodeOffset_eq (word : Nat) :
    decodeOffset word =
      if 2 ^ 29 ≤ word / 4 % 2 ^ 30 then (word / 4 % 2 ^ 30 : Int) - 2 ^ 30
      else (word / 4 % 2 ^ 30 : Int) := by
  have hraw : (word >>> 2) &&& 0x3FFFFFFF = word / 4 % 2 ^ 30 :=
    shiftRight_and_mask word 2 30
  have hlt : word / 4 % 2 ^ 30 < 2 ^ 30 := Nat.mod_lt _ (by norm_num)
  unfold decodeOffset
  simp only [hraw, and_bit29_ne_zero_iff hlt]
  push_cast
  rfl

/-- The fields of a word whose tag bits say "struct pointer". -/
theorem capnpDecodePtr_struct {word : Nat} (hne : word ≠ 0) (htag : word % 4 = 0) :
    capnpDecodePtr word =
      { tag := .struct
        offsetWords := decodeOffset word
        dataWords := word / 2 ^ 32 % 2 ^ 16
        ptrWords := word / 2 ^ 48 % 2 ^ 16 } := by
  have h3 : word &&& 0x3 = 0 := by
    rw [show (0x3 : Nat) = 2 ^ 2 - 1 by norm_num, Nat.and_two_pow_sub_one_eq_mod]
    exact htag
  unfold capnpDecodePtr
  rw [if_neg hne, h3]
  simp only [show (0xFFFF : Nat) = 2 ^ 16 - 1 by norm_num, shiftRight_and_mask]

/-- The fields of a word whose tag bits say "list pointer". -/
theorem capnpDecodePtr_list {word : Nat} (htag : word % 4 = 1) :
    capnpDecodePtr word =
      { tag := .list
        offsetWords := decodeOffset word
        elementSize := word / 2 ^ 32 % 2 ^ 3
        elementCount := word / 2 ^ 35 % 2 ^ 29 } := by
  have hne : word ≠ 0 := by
    rintro rfl
    exact absurd htag (by decide)
  have h3 : word &&& 0x3 = 1 := by
    rw [show (0x3 : Nat) = 2 ^ 2 - 1 by norm_num, Nat.and_two_pow_sub_one_eq_mod]
    exact htag
  unfold capnpDecodePtr
  rw [if_neg hne, h3]
  simp only [show (0x7 : Nat) = 2 ^ 3 - 1 by norm_num,
    show (0x1FFFFFFF : Nat) = 2 ^ 29 - 1 by norm_num, shiftRight_and_mask]

theorem decodeOffset_eq_zero_iff (word : Nat) : decodeOffset word = 0 ↔ word / 4 % 2 ^ 30 = 0 := by
  have hlt : word / 4 % 2 ^ 30 < 2 ^ 30 := Nat.mod_lt _ (by norm_num)
  rw [decodeOffset_eq]
  split <;> omega

end Capnp
end Saski
