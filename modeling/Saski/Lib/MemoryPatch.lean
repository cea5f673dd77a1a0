import Mathlib
import Saski.Lib.ByteMemory

/-!
# Overwriting parts of a memory

A program that copies blocks into place leaves a memory that is best described by the
blocks: `fill` replaces the bytes of one range, and `patch` those of several, one after
the other.  A copying loop is an iteration of `fill_succ`; for blocks that share no
address the order does not matter, and every byte is the byte of its block
(`patch_of_mem`) or the byte it was (`patch_of_forall_notMem`).
-/

namespace ByteMemory

variable {w : Nat}

/-- The memory with bytes `lo, ..., hi - 1` from `a` on replaced. -/
def fill (m : Mem w) (a : BitVec w) (lo hi : Nat) (byte : Nat → UInt8) : Mem w :=
  fun x => if lo ≤ (x - a).toNat ∧ (x - a).toNat < hi then byte (x - a).toNat else m x

theorem fill_empty (m : Mem w) (a : BitVec w) {lo hi : Nat} (h : hi ≤ lo) (byte : Nat → UInt8) :
    fill m a lo hi byte = m := by
  ext x
  unfold fill
  rw [if_neg (by omega)]

/-- The address whose distance from `a` is known. -/
theorem eq_add_ofNat_iff (a x : BitVec w) {b : Nat} (hb : b < 2 ^ w) :
    x = a + BitVec.ofNat w b ↔ (x - a).toNat = b := by
  constructor
  · rintro rfl
    exact toNat_add_ofNat_sub a hb
  · intro h
    rw [← h, add_ofNat_toNat_sub]

/-- One more byte. -/
theorem fill_succ (m : Mem w) (a : BitVec w) {lo b : Nat} (hlo : lo ≤ b) (hb : b < 2 ^ w)
    (byte : Nat → UInt8) :
    Function.update (fill m a lo b byte) (a + BitVec.ofNat w b) (byte b) =
      fill m a lo (b + 1) byte := by
  ext x
  by_cases hx : x = a + BitVec.ofNat w b
  · have hdist := (eq_add_ofNat_iff a x hb).mp hx
    rw [← hx, Function.update_self, fill, if_pos (by omega), hdist]
  · have hdist : (x - a).toNat ≠ b := fun h => hx ((eq_add_ofNat_iff a x hb).mpr h)
    have hrange : (lo ≤ (x - a).toNat ∧ (x - a).toNat < b) ↔
        lo ≤ (x - a).toNat ∧ (x - a).toNat < b + 1 := by omega
    rw [Function.update_of_ne hx]
    simp only [fill, hrange]

/-- One more byte, in front. -/
theorem fill_pred (m : Mem w) (a : BitVec w) {b hi : Nat} (hb : b < hi) (hhi : hi ≤ 2 ^ w)
    (byte : Nat → UInt8) :
    Function.update (fill m a (b + 1) hi byte) (a + BitVec.ofNat w b) (byte b) =
      fill m a b hi byte := by
  ext x
  by_cases hx : x = a + BitVec.ofNat w b
  · have hdist := (eq_add_ofNat_iff a x (by omega)).mp hx
    rw [← hx, Function.update_self, fill, if_pos (by omega), hdist]
  · have hdist : (x - a).toNat ≠ b := fun h => hx ((eq_add_ofNat_iff a x (by omega)).mpr h)
    have hrange : (b + 1 ≤ (x - a).toNat ∧ (x - a).toNat < hi) ↔
        b ≤ (x - a).toNat ∧ (x - a).toNat < hi := by omega
    rw [Function.update_of_ne hx]
    simp only [fill, hrange]

/-- One range behind the other. -/
theorem fill_fill (m : Mem w) (a : BitVec w) {lo mid hi : Nat} (hlo : lo ≤ mid) (hhi : mid ≤ hi)
    (byte : Nat → UInt8) :
    fill (fill m a lo mid byte) a mid hi byte = fill m a lo hi byte := by
  ext x
  unfold fill
  split_ifs <;> first | rfl | omega

theorem fill_of_notMem {m : Mem w} {a x : BitVec w} {lo hi : Nat} (h : x ∉ extent a hi)
    (byte : Nat → UInt8) : fill m a lo hi byte x = m x := by
  have hdist : ¬ (x - a).toNat < hi := h
  rw [fill, if_neg fun hin => hdist hin.2]

theorem fill_add (m : Mem w) (a : BitVec w) {hi b : Nat} (hb : b < hi) (hw : hi ≤ 2 ^ w)
    (byte : Nat → UInt8) : fill m a 0 hi byte (a + BitVec.ofNat w b) = byte b := by
  rw [fill, toNat_add_ofNat_sub a (by omega), if_pos ⟨Nat.zero_le b, hb⟩]

/-- A fill outside of a set leaves the bytes in it alone. -/
theorem eqOn_fill {m m' : Mem w} {s : Set (BitVec w)} (h : Set.EqOn m' m s) {a : BitVec w}
    {hi : Nat} (hapart : Disjoint s (extent a hi)) (lo : Nat) (byte : Nat → UInt8) :
    Set.EqOn (fill m' a lo hi byte) m s := by
  intro x hx
  rw [fill_of_notMem (Set.disjoint_left.mp hapart hx), h hx]

/-! ## Several blocks -/

/-- A block of bytes and its place. -/
structure Patch (w : Nat) where
  start : BitVec w
  size : Nat
  byte : Nat → UInt8

/-- The addresses of a block. -/
def Patch.extent (p : Patch w) : Set (BitVec w) := ByteMemory.extent p.start p.size

/-- The memory with the blocks in place, the later ones over the earlier ones. -/
def patch (m : Mem w) (ps : List (Patch w)) : Mem w :=
  ps.foldl (fun m p => fill m p.start 0 p.size p.byte) m

theorem patch_cons (m : Mem w) (p : Patch w) (ps : List (Patch w)) :
    patch m (p :: ps) = patch (fill m p.start 0 p.size p.byte) ps := rfl

theorem patch_append (m : Mem w) (ps qs : List (Patch w)) :
    patch m (ps ++ qs) = patch (patch m ps) qs := List.foldl_append

theorem patch_of_forall_notMem {m : Mem w} {ps : List (Patch w)} {x : BitVec w}
    (h : ∀ p ∈ ps, x ∉ p.extent) : patch m ps x = m x := by
  induction ps generalizing m with
  | nil => rfl
  | cons p ps ih =>
      rw [patch_cons, ih fun q hq => h q (List.mem_cons_of_mem _ hq)]
      exact fill_of_notMem (h p List.mem_cons_self) p.byte

theorem eqOn_patch {m : Mem w} {ps : List (Patch w)} {s : Set (BitVec w)}
    (h : ∀ p ∈ ps, Disjoint s p.extent) : Set.EqOn (patch m ps) m s :=
  fun _ hx => patch_of_forall_notMem fun p hp => Set.disjoint_left.mp (h p hp) hx

/-- **Every byte of a block is in place**, if the blocks share no address. -/
theorem patch_of_mem {m : Mem w} {ps : List (Patch w)}
    (hapart : ps.Pairwise fun p q => Disjoint p.extent q.extent) {p : Patch w} (hp : p ∈ ps)
    (hsize : p.size ≤ 2 ^ w) {b : Nat} (hb : b < p.size) :
    patch m ps (p.start + BitVec.ofNat w b) = p.byte b := by
  induction ps generalizing m with
  | nil => exact absurd hp List.not_mem_nil
  | cons q ps ih =>
      rw [List.pairwise_cons] at hapart
      rw [patch_cons]
      rcases List.mem_cons.mp hp with rfl | hp
      · -- The later blocks miss this one.
        have hmem : p.start + BitVec.ofNat w b ∈ p.extent := inExtent_add hsize hb
        rw [patch_of_forall_notMem fun q hq => Set.disjoint_left.mp (hapart.1 q hq) hmem]
        exact fill_add m p.start hb hsize p.byte
      · exact ih hapart.2 hp

end ByteMemory
