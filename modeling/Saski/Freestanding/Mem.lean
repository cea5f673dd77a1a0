import Saski.Lib.MemoryPatch
import Saski.Lib.Prog

/-!
# Copying memory (`lib/freestanding_mem.c`)

`memmove` chooses its direction by comparing the two pointers: upwards if the destination
starts below the source, downwards otherwise.  Each loop reads a source byte from the
memory that it has already written to.

The memory after some iterations is the first one with a range of destination bytes
filled in, from the left end or from the right end (`fill`).  A source byte that is still
to be read is not in that range, whatever the overlap, and so it is the byte of the first
memory.  `memmove_correct` follows for every position of the two ranges.
-/

namespace Saski
namespace Freestanding

open ByteMemory Logged Prog

/-- The variables of a copying loop. -/
structure CopyLoop where
  i : Nat
  mem : Mem 64

/-- `d[k] = s[k]`, with the address that is written. -/
def copyByte (d s : BitVec 64) (k : Nat) (m : Mem 64) : Logged (BitVec 64) (Mem 64) :=
  withLog (Function.update m (d + BitVec.ofNat 64 k) (m (s + BitVec.ofNat 64 k)))
    [d + BitVec.ofNat 64 k]

@[simp] theorem value_copyByte (d s : BitVec 64) (k : Nat) (m : Mem 64) :
    (copyByte d s k m).value =
      Function.update m (d + BitVec.ofNat 64 k) (m (s + BitVec.ofNat 64 k)) := rfl

/-- `for (; i < count; i++) d[i] = s[i];` -/
def upBody (d s : BitVec 64) (count : Nat) (l : CopyLoop) :
    Prog (BitVec 64) (CopyLoop ⊕ Mem 64) :=
  if l.i < count then do
    let mem ← copyByte d s l.i l.mem
    pure (.inl ⟨l.i + 1, mem⟩)
  else pure (.inr l.mem)

/-- `for (; i > 0; i--) d[i - 1] = s[i - 1];` -/
def downBody (d s : BitVec 64) (l : CopyLoop) : Prog (BitVec 64) (CopyLoop ⊕ Mem 64) :=
  if 0 < l.i then do
    let mem ← copyByte d s (l.i - 1) l.mem
    pure (.inl ⟨l.i - 1, mem⟩)
  else pure (.inr l.mem)

/-- `memmove`: the memory it leaves, and the pointer it returns. -/
def memmove (m : Mem 64) (dst src : BitVec 64) (count : Nat) :
    Prog (BitVec 64) (Mem 64 × BitVec 64) :=
  if dst < src then do
    let m ← loop (upBody dst src count) ⟨0, m⟩
    pure (m, dst)
  else do
    let m ← loop (downBody dst src) ⟨count, m⟩
    pure (m, dst)

/-! ## The two directions -/

section Directions

variable {m : Mem 64} {dst src : BitVec 64} {count i : Nat}

/-- Upwards, the bytes written so far lie below every byte still to be read. -/
theorem fill_unread_up (hsrc : src.toNat + count ≤ 2 ^ 64) (hlt : dst.toNat < src.toNat)
    (hi : i < count) (byte : Nat → UInt8) :
    fill m dst 0 i byte (src + BitVec.ofNat 64 i) = m (src + BitVec.ofNat 64 i) := by
  apply fill_of_notMem
  rw [mem_extent_iff (by omega), toNat_add_ofNat (by omega)]
  omega

/-- Downwards, they lie above it. -/
theorem fill_unread_down (hdst : dst.toNat + count ≤ 2 ^ 64) (hle : src.toNat ≤ dst.toNat)
    (hi : i < count) (byte : Nat → UInt8) :
    fill m dst (i + 1) count byte (src + BitVec.ofNat 64 i) = m (src + BitVec.ofNat 64 i) := by
  have hread : (src + BitVec.ofNat 64 i).toNat = src.toNat + i := toNat_add_ofNat (by omega)
  unfold fill
  rw [if_neg]
  rintro ⟨hlow, hhigh⟩
  have hin := (mem_extent_iff hdst).mp (show src + BitVec.ofNat 64 i ∈ extent dst count from hhigh)
  -- The byte is at least as far into the source as it is into the destination.
  have hdist : (src + BitVec.ofNat 64 i - dst).toNat = src.toNat + i - dst.toNat := by
    rw [BitVec.toNat_sub_of_le (BitVec.le_def.mpr hin.1), hread]
  omega

theorem returns_up (hdst : dst.toNat + count ≤ 2 ^ 64) (hsrc : src.toNat + count ≤ 2 ^ 64)
    (hlt : dst.toNat < src.toNat) (hi : i ≤ count) :
    (loop (upBody dst src count)
        ⟨i, fill m dst 0 i fun b => m (src + BitVec.ofNat 64 b)⟩).Returns
      (fill m dst 0 count fun b => m (src + BitVec.ofNat 64 b)) := by
  induction hleft : count - i generalizing i with
  | zero =>
      obtain rfl : i = count := by omega
      apply returns_loop_of_done
      rw [upBody, if_neg (Nat.lt_irrefl i)]
      exact (returns_pure _ _).mpr rfl
  | succ n ih =>
      have hmore : i < count := by omega
      apply returns_loop_of_step _ (ih hmore (by omega))
      rw [upBody, if_pos hmore, returns_liftM_bind, returns_pure, value_copyByte]
      dsimp only
      rw [fill_unread_up hsrc hlt hmore, fill_succ m dst (Nat.zero_le i) (by omega)]

theorem returns_down (hdst : dst.toNat + count ≤ 2 ^ 64) (hle : src.toNat ≤ dst.toNat)
    (hi : i ≤ count) :
    (loop (downBody dst src)
        ⟨i, fill m dst i count fun b => m (src + BitVec.ofNat 64 b)⟩).Returns
      (fill m dst 0 count fun b => m (src + BitVec.ofNat 64 b)) := by
  induction i with
  | zero =>
      apply returns_loop_of_done
      rw [downBody, if_neg (Nat.lt_irrefl 0)]
      exact (returns_pure _ _).mpr rfl
  | succ i ih =>
      apply returns_loop_of_step _ (ih (by omega))
      rw [downBody, if_pos (Nat.succ_pos i), returns_liftM_bind, returns_pure, value_copyByte]
      dsimp only
      rw [Nat.add_sub_cancel, fill_unread_down hdst hle hi, fill_pred m dst hi (by omega)]

end Directions

/-- Either way, the destination is filled with the bytes that the source had. -/
theorem returns_memmove (m : Mem 64) {dst src : BitVec 64} {count : Nat}
    (hdst : dst.toNat + count ≤ 2 ^ 64) (hsrc : src.toNat + count ≤ 2 ^ 64) :
    (memmove m dst src count).Returns
      (fill m dst 0 count (fun b => m (src + BitVec.ofNat 64 b)), dst) := by
  unfold memmove
  by_cases hlt : dst < src
  · have hup := returns_up (m := m) hdst hsrc (BitVec.lt_def.mp hlt) (Nat.zero_le count)
    rw [fill_empty m dst le_rfl] at hup
    rw [if_pos hlt, returns_bind_of hup, returns_pure]
  · have hdown := returns_down (m := m) hdst (Nat.not_lt.mp fun h => hlt (BitVec.lt_def.mpr h))
      (Nat.le_refl count)
    rw [fill_empty m dst le_rfl] at hdown
    rw [if_neg hlt, returns_bind_of hdown, returns_pure]

/-- **`memmove` is correct for every overlap.**  For ranges that do not wrap, in any
position to each other, the destination gets the bytes that the source had before, and
every other byte stays. -/
theorem memmove_correct (m : Mem 64) (dst src : BitVec 64) (count : Nat)
    (hdst : dst.toNat + count ≤ 2 ^ 64) (hsrc : src.toNat + count ≤ 2 ^ 64) :
    ∃ m', (memmove m dst src count).Returns (m', dst) ∧
      (∀ i < count, m' (dst + BitVec.ofNat 64 i) = m (src + BitVec.ofNat 64 i)) ∧
      ∀ x : BitVec 64, ¬ (dst.toNat ≤ x.toNat ∧ x.toNat < dst.toNat + count) → m' x = m x := by
  refine ⟨_, returns_memmove m hdst hsrc, ?_, ?_⟩
  · intro i hi
    exact fill_add m dst hi (by omega) _
  · intro x hx
    exact fill_of_notMem (fun hin => hx ((mem_extent_iff hdst).mp hin)) _

/-- A memory whose byte at an address is its low byte. -/
def countingMem : Mem 64 := fun a => UInt8.ofNat a.toNat

/-- Five bytes moved up by two, over their own end. -/
theorem countingMem_moved_up :
    ∃ m', (memmove countingMem 0x1002 0x1000 5).Returns (m', 0x1002) ∧
      m' 0x1002 = 0 ∧ m' 0x1004 = 2 ∧ m' 0x1006 = 4 ∧ m' 0x1001 = 1 ∧ m' 0x1007 = 7 := by
  obtain ⟨m', hr, hbytes, hrest⟩ :=
    memmove_correct countingMem 0x1002 0x1000 5 (by decide) (by decide)
  exact ⟨m', hr, hbytes 0 (by decide), hbytes 2 (by decide), hbytes 4 (by decide),
    hrest 0x1001 (by decide), hrest 0x1007 (by decide)⟩

end Freestanding
end Saski
