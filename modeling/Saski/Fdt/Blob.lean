import Saski.Capnp.Validate
import Saski.Lib.Prog

/-!
# Device tree blobs (`lib/fdt.c`)

The header of a blob, the context that every walk starts from, and the few
helpers below the walks.

* A pointer into the blob is its offset from the blob's first byte, as an integer:
  the walks also form pointers in front of the structure block and behind it.
* A length or an offset read from the blob is a 32-bit number; `align4` wraps.
* A node offset is an `int`.  `off_of` converts a pointer to one, which turns an
  offset of 2^31 or more into a negative number.

The log records every byte read, by the part of the blob it is read for.
-/

namespace Saski
namespace Fdt

open Capnp Logged

/-- The bytes that the functions of this file read. -/
inductive Access where
  /-- of the header -/
  | header (i : Int)
  /-- of tokens, node names and property headers -/
  | struct (i : Int)
  /-- of property names -/
  | strings (i : Int)
  /-- of property values -/
  | value (i : Int)
  deriving DecidableEq, Repr

def fdtMagic : Nat := 0xd00dfeed

def fdtBeginNode : Nat := 1

def fdtEndNode : Nat := 2

def fdtProp : Nat := 3

def fdtNop : Nat := 4

def fdtEnd : Nat := 9

/-- `FDT_MAX_DEPTH`. -/
def fdtMaxDepth : Nat := 16

/-- `FDT_ERR_NODE`. -/
def fdtErrNode : Int := -1

/-- The value of `rd_be32`. -/
def be32 (bytes : Int → UInt8) (p : Int) : Nat :=
  ((bytes p).toNat <<< 24) ||| ((bytes (p + 1)).toNat <<< 16) |||
    ((bytes (p + 2)).toNat <<< 8) ||| (bytes (p + 3)).toNat

/-- `rd_be32`. -/
def rdBe32 (part : Int → Access) (bytes : Int → UInt8) (p : Int) : Logged Access Nat :=
  withLog (be32 bytes p) [part p, part (p + 1), part (p + 2), part (p + 3)]

/-- One byte, `*p`. -/
def rdByte (part : Int → Access) (bytes : Int → UInt8) (p : Int) : Logged Access UInt8 :=
  withLog (bytes p) [part p]

/-- `ctx_t`: the blob, and where its structure and strings blocks begin and end. -/
@[ext] structure Ctx where
  base : Int → UInt8
  s : Int
  send : Int
  str : Int
  strend : Int

/-- The bounds test: `n` bytes from `p` lie inside the structure block. -/
def ok (c : Ctx) (p : Int) (n : Nat) : Prop := c.s ≤ p ∧ p ≤ c.send ∧ (n : Int) ≤ c.send - p

instance (c : Ctx) (p : Int) (n : Nat) : Decidable (ok c p n) :=
  inferInstanceAs (Decidable (c.s ≤ p ∧ p ≤ c.send ∧ (n : Int) ≤ c.send - p))

/-- `ctx_init`. -/
def ctxInit (blob : Buffer) : Logged Access (Option Ctx) :=
  if blob.isNull then pure none
  else do
    let b := blob.bytes
    if (← rdBe32 .header b 0) ≠ fdtMagic then pure none
    else do
      let totalsize ← rdBe32 .header b 4
      let offStruct ← rdBe32 .header b 8
      let offStrings ← rdBe32 .header b 12
      let sizeStrings ← rdBe32 .header b 32
      let sizeStruct ← rdBe32 .header b 36
      if totalsize < offStruct ∨ totalsize - offStruct < sizeStruct then pure none
      else if totalsize < offStrings ∨ totalsize - offStrings < sizeStrings then pure none
      else
        pure (some
          { base := b
            s := offStruct
            send := offStruct + sizeStruct
            str := offStrings
            strend := offStrings + sizeStrings })

/-- `fdt_valid`. -/
def fdtValid (blob : Buffer) (blobSize : Nat) : Logged Access Bool :=
  if blob.isNull ∨ blobSize < 40 then pure false
  else do
    if (← rdBe32 .header blob.bytes 0) ≠ fdtMagic then pure false
    else do
      let totalsize ← rdBe32 .header blob.bytes 4
      if blobSize < totalsize then pure false
      else return (← ctxInit blob).isSome

/-- `align4`. -/
def align4 (v : Nat) : Nat := (v + 3) % 2 ^ 32 &&& (2 ^ 32 - 1 - 3)

/-- `off_of`. -/
def offOf (p : Int) : Int := Int.bmod p (2 ^ 32)

/-! ## Blobs with given blocks -/

/-- The four bytes of a 32-bit number, as a blob holds it. -/
def wordBytes (v : Nat) : List UInt8 :=
  [UInt8.ofNat (v >>> 24), UInt8.ofNat (v >>> 16), UInt8.ofNat (v >>> 8), UInt8.ofNat v]

/-- A blob with the structure block right behind the header, and then the strings. -/
def blobOf (structBlock strings : List UInt8) : Buffer :=
  Buffer.ofList
    (wordBytes fdtMagic ++ wordBytes (40 + structBlock.length + strings.length) ++ wordBytes 40 ++
      wordBytes (40 + structBlock.length) ++ wordBytes 0 ++ wordBytes 17 ++ wordBytes 16 ++
      wordBytes 0 ++ wordBytes strings.length ++ wordBytes structBlock.length ++
      structBlock ++ strings)

/-! ## Values -/

theorem be32_lt (bytes : Int → UInt8) (p : Int) : be32 bytes p < 2 ^ 32 := by
  have hbyte : ∀ x : UInt8, ∀ k ≤ 24, x.toNat <<< k < 2 ^ 32 := by
    intro x k hk
    have hx := x.toNat_lt
    calc x.toNat <<< k = x.toNat * 2 ^ k := Nat.shiftLeft_eq _ _
      _ < 2 ^ 8 * 2 ^ k := Nat.mul_lt_mul_of_pos_right (by omega) (Nat.two_pow_pos k)
      _ = 2 ^ (8 + k) := (Nat.pow_add 2 8 k).symm
      _ ≤ 2 ^ 32 := Nat.pow_le_pow_right (by omega) (by omega)
  unfold be32
  refine Nat.or_lt_two_pow (Nat.or_lt_two_pow (Nat.or_lt_two_pow ?_ ?_) ?_) ?_
  · exact hbyte _ 24 le_rfl
  · exact hbyte _ 16 (by omega)
  · exact hbyte _ 8 (by omega)
  · have hx := (bytes (p + 3)).toNat_lt
    omega

/-- Rounding up to a multiple of four, where that does not wrap. -/
theorem align4_eq {v : Nat} (h : v + 3 < 2 ^ 32) : align4 v = (v + 3) / 4 * 4 := by
  unfold align4
  rw [Nat.mod_eq_of_lt h]
  have hmask : (2 ^ 32 - 1 - 3 : Nat) = (2 ^ 30 - 1) <<< 2 := by decide
  apply Nat.eq_of_testBit_eq
  intro i
  rw [show (v + 3) / 4 * 4 = ((v + 3) >>> 2) <<< 2 by
    rw [Nat.shiftLeft_eq, Nat.shiftRight_eq_div_pow]]
  rw [hmask, Nat.testBit_and, Nat.testBit_shiftLeft, Nat.testBit_shiftLeft, Nat.testBit_shiftRight,
    Nat.testBit_two_pow_sub_one]
  by_cases hlow : 2 ≤ i
  · rw [show 2 + (i - 2) = i by omega]
    by_cases hhigh : i - 2 < 30
    · simp [hlow, hhigh]
    · have hzero : (v + 3).testBit i = false := by
        apply Nat.testBit_lt_two_pow
        calc v + 3 < 2 ^ 32 := h
          _ ≤ 2 ^ i := Nat.pow_le_pow_right (by omega) (by omega)
      simp [hhigh, hzero]
  · simp [hlow]

/-- Offsets below 2^31 are node offsets as they are. -/
theorem offOf_eq {p : Int} (h0 : 0 ≤ p) (h : p < 2 ^ 31) : offOf p = p := by
  unfold offOf
  rw [Int.bmod_eq_of_le] <;> omega

@[simp] theorem value_rdBe32 (part : Int → Access) (bytes : Int → UInt8) (p : Int) :
    (rdBe32 part bytes p).value = be32 bytes p := rfl

@[simp] theorem value_rdByte (part : Int → Access) (bytes : Int → UInt8) (p : Int) :
    (rdByte part bytes p).value = bytes p := rfl

/-! ## The header -/

/-- What `ctx_init` accepts. -/
structure Header (blob : Buffer) (c : Ctx) : Prop where
  notNull : blob.isNull = false
  magic : be32 blob.bytes 0 = fdtMagic
  base : c.base = blob.bytes
  s : c.s = be32 blob.bytes 8
  send : c.send = c.s + be32 blob.bytes 36
  str : c.str = be32 blob.bytes 12
  strend : c.strend = c.str + be32 blob.bytes 32
  struct_le : c.send ≤ be32 blob.bytes 4
  strings_le : c.strend ≤ be32 blob.bytes 4

theorem value_ctxInit (blob : Buffer) (c : Ctx) :
    (ctxInit blob).value = some c ↔ Header blob c := by
  unfold ctxInit
  by_cases hnull : blob.isNull = true
  · rw [if_pos hnull]
    simp only [value_pure, reduceCtorEq, false_iff]
    intro h
    rw [h.notNull] at hnull
    exact Bool.false_ne_true hnull
  · rw [if_neg hnull]
    simp -implicitDefEqProofs only [value_bind, value_rdBe32]
    by_cases hmagic : be32 blob.bytes 0 = fdtMagic
    · simp -implicitDefEqProofs only [hmagic, ne_eq, not_true_eq_false, if_false, value_bind,
        value_rdBe32]
      by_cases hstruct : be32 blob.bytes 4 < be32 blob.bytes 8 ∨
          be32 blob.bytes 4 - be32 blob.bytes 8 < be32 blob.bytes 36
      · rw [if_pos hstruct]
        simp only [value_pure, reduceCtorEq, false_iff]
        intro h
        have hle := h.struct_le
        rw [h.send, h.s] at hle
        omega
      · rw [if_neg hstruct]
        by_cases hstrings : be32 blob.bytes 4 < be32 blob.bytes 12 ∨
            be32 blob.bytes 4 - be32 blob.bytes 12 < be32 blob.bytes 32
        · rw [if_pos hstrings]
          simp only [value_pure, reduceCtorEq, false_iff]
          intro h
          have hle := h.strings_le
          rw [h.strend, h.str] at hle
          omega
        · rw [if_neg hstrings]
          simp only [value_pure, Option.some.injEq]
          constructor
          · rintro rfl
            exact
              { notNull := by simpa using hnull
                magic := hmagic
                base := rfl
                s := rfl
                send := rfl
                str := rfl
                strend := rfl
                struct_le := by simp only; omega
                strings_le := by simp only; omega }
          · intro h
            apply Ctx.ext
            · exact h.base.symm
            · exact h.s.symm
            · rw [h.send, h.s]
            · exact h.str.symm
            · rw [h.strend, h.str]
    · simp only [hmagic, ne_eq, not_false_eq_true, if_true, value_pure, reduceCtorEq, false_iff]
      intro h
      exact hmagic h.magic

/-- The context that the header of a blob describes. -/
def ctxOf (blob : Buffer) : Ctx where
  base := blob.bytes
  s := be32 blob.bytes 8
  send := be32 blob.bytes 8 + be32 blob.bytes 36
  str := be32 blob.bytes 12
  strend := be32 blob.bytes 12 + be32 blob.bytes 32

theorem Header.eq_ctxOf {blob : Buffer} {c : Ctx} (h : Header blob c) : c = ctxOf blob := by
  ext
  · rw [h.base]
    rfl
  · exact h.s
  · rw [h.send, h.s]
    rfl
  · exact h.str
  · rw [h.strend, h.str]
    rfl

/-- What `fdt_valid` accepts: a context can be made, and the blob fits the size. -/
theorem value_fdtValid (blob : Buffer) (size : Nat) :
    (fdtValid blob size).value = true ↔
      40 ≤ size ∧ be32 blob.bytes 4 ≤ size ∧ ∃ c, Header blob c := by
  simp only [← value_ctxInit, ← Option.isSome_iff_exists]
  unfold fdtValid
  by_cases hearly : blob.isNull = true ∨ size < 40
  · rw [if_pos hearly]
    simp only [value_pure, Bool.false_eq_true, false_iff]
    rintro ⟨hsize, -, hctx⟩
    rcases hearly with hnull | hlt
    · rw [ctxInit, if_pos hnull] at hctx
      exact absurd hctx (by simp)
    · omega
  · rw [if_neg hearly]
    simp -implicitDefEqProofs only [value_bind, value_rdBe32]
    by_cases hmagic : be32 blob.bytes 0 = fdtMagic
    · simp -implicitDefEqProofs only [hmagic, ne_eq, not_true_eq_false, if_false, value_bind,
        value_rdBe32]
      by_cases htotal : size < be32 blob.bytes 4
      · rw [if_pos htotal]
        simp only [value_pure, Bool.false_eq_true, false_iff]
        rintro ⟨-, hle, -⟩
        omega
      · rw [if_neg htotal]
        simp only [value_bind, value_pure]
        constructor
        · exact fun hctx => ⟨by omega, by omega, hctx⟩
        · exact fun h => h.2.2
    · simp only [hmagic, ne_eq, not_false_eq_true, if_true, value_pure, Bool.false_eq_true,
        false_iff]
      rintro ⟨-, -, hctx⟩
      obtain ⟨c, hc⟩ := Option.isSome_iff_exists.mp hctx
      exact hmagic ((value_ctxInit blob c).mp hc).magic

/-- The context of a blob that `fdt_valid` accepts. -/
theorem header_of_fdtValid {blob : Buffer} {size : Nat} (h : (fdtValid blob size).value = true) :
    Header blob (ctxOf blob) := by
  obtain ⟨-, -, c, hc⟩ := (value_fdtValid blob size).mp h
  rwa [hc.eq_ctxOf] at hc

/-! ## The documented check

`fdt.h` lets a caller that does not know the size of the blob pass 0.
-/

/-- What `fdt.h` says that `fdt_valid` accepts: the magic number, the declared size within
the given one if that is known, and both blocks inside the declared size. -/
structure Documented (blob : Buffer) (blobSize : Nat) : Prop where
  magic : be32 blob.bytes 0 = fdtMagic
  totalsize_le : blobSize ≠ 0 → be32 blob.bytes 4 ≤ blobSize
  struct_le : be32 blob.bytes 8 + be32 blob.bytes 36 ≤ be32 blob.bytes 4
  strings_le : be32 blob.bytes 12 + be32 blob.bytes 32 ≤ be32 blob.bytes 4

/-- The header checks of both are the same. -/
theorem documented_iff_header {blob : Buffer} (hblob : blob.isNull = false) (blobSize : Nat) :
    Documented blob blobSize ↔
      (blobSize ≠ 0 → be32 blob.bytes 4 ≤ blobSize) ∧ ∃ c, Header blob c := by
  constructor
  · intro h
    have hstruct := h.struct_le
    have hstrings := h.strings_le
    refine ⟨h.totalsize_le, ctxOf blob, ?_⟩
    exact
      { notNull := hblob
        magic := h.magic
        base := rfl
        s := rfl
        send := rfl
        str := rfl
        strend := rfl
        struct_le := by simp only [ctxOf]; omega
        strings_le := by simp only [ctxOf]; omega }
  · rintro ⟨htotal, c, hc⟩
    have hstruct := hc.struct_le
    have hstrings := hc.strings_le
    rw [hc.send, hc.s] at hstruct
    rw [hc.strend, hc.str] at hstrings
    exact ⟨hc.magic, htotal, by omega, by omega⟩

/-- A size of 40 or more decides as documented; a smaller one is always refused. -/
theorem value_fdtValid_iff_documented {blob : Buffer} (hblob : blob.isNull = false)
    (blobSize : Nat) :
    (fdtValid blob blobSize).value = true ↔ 40 ≤ blobSize ∧ Documented blob blobSize := by
  rw [value_fdtValid, documented_iff_header hblob]
  constructor
  · rintro ⟨hsize, htotal, hheader⟩
    exact ⟨hsize, fun _ => htotal, hheader⟩
  · rintro ⟨hsize, htotal, hheader⟩
    exact ⟨hsize, htotal (by omega), hheader⟩

/-- `fdt_valid` decides the documented check unless the size is below 40 and the check
would succeed; 0 for an unknown size is such a size. -/
theorem fdtValid_documented_iff (blob : Buffer) (blobSize : Nat) (hblob : blob.isNull = false) :
    ((fdtValid blob blobSize).value = true ↔ Documented blob blobSize) ↔
      40 ≤ blobSize ∨ ¬ Documented blob blobSize := by
  rw [value_fdtValid_iff_documented hblob]
  tauto

/-- The smallest tree: an end token and nothing else. -/
def emptyTree : Buffer := blobOf (wordBytes fdtEnd) []

theorem documented_emptyTree : Documented emptyTree 0 where
  magic := by decide
  totalsize_le := fun h => absurd rfl h
  struct_le := by decide
  strings_le := by decide

/-- With its own size it is decided as documented. -/
theorem emptyTree_of_size :
    ((fdtValid emptyTree 44).value = true ↔ Documented emptyTree 44) :=
  (fdtValid_documented_iff emptyTree 44 rfl).mpr (Or.inl (by decide))

/-- With an unknown size the same blob is refused. -/
theorem emptyTree_of_unknown_size :
    ¬ ∀ (blob : Buffer) (blobSize : Nat), blob.isNull = false →
      ((fdtValid blob blobSize).value = true ↔ Documented blob blobSize) := by
  intro h
  have hvalid := (h emptyTree 0 rfl).mpr documented_emptyTree
  exact absurd ((value_fdtValid emptyTree 0).mp hvalid).1 (by decide)

end Fdt
end Saski
