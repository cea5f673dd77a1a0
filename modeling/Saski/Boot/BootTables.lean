import Saski.Lib.X86Paging

/-!
# The identity map of the x86-64 kernel (`kernel/boot.S`)

`boot.S` reserves six tables one behind the other: the top table, the table of gigabytes and
four tables of 2 MiB pages.  It fills them with 32-bit stores, so their contents are said
twice: as the 3072 entries (`entry`), and as the halves of these entries (`half`) that the
stores write.  `translate_of_built` says what the tables translate: the first 4 GiB to
themselves, writable, and nothing else.
-/

namespace Saski
namespace Boot
namespace EntryX86

open ByteMemory X86Paging

/-- Entry `i` of the tables that start at `t`. -/
def entry (t i : Nat) : Nat :=
  if i = 0 then t + 0x1000 + 0x3
  else if i < 512 then 0
  else if i < 516 then t + 0x2000 + (i - 512) * 0x1000 + 0x3
  else if i < 1024 then 0
  else (i - 1024) * 0x200000 + 0x83

/-- Their halves: all entries fit into the low one. -/
def half (t j : Nat) : Nat := if j % 2 = 0 then entry t (j / 2) else 0

/-- The first `n` halves of the tables are in place. -/
def Built (m : Mem 64) (tables : BitVec 64) (n : Nat) : Prop :=
  ∀ j < n, element m tables 4 j = half tables.toNat j

section Entry

variable {t i : Nat}

theorem entry_of_top (hlow : 0 < i) (hhigh : i < 512) : entry t i = 0 := by
  rw [entry, if_neg (by omega), if_pos hhigh]

theorem entry_of_gigabyte (hlow : 512 ≤ i) (hhigh : i < 516) :
    entry t i = t + 0x2000 + (i - 512) * 0x1000 + 0x3 := by
  rw [entry, if_neg (by omega), if_neg (by omega), if_pos hhigh]

theorem entry_of_absent (hlow : 516 ≤ i) (hhigh : i < 1024) : entry t i = 0 := by
  rw [entry, if_neg (by omega), if_neg (by omega), if_neg (by omega), if_pos hhigh]

theorem entry_of_page (hlow : 1024 ≤ i) : entry t i = (i - 1024) * 0x200000 + 0x83 := by
  rw [entry, if_neg (by omega), if_neg (by omega), if_neg (by omega), if_neg (by omega)]

theorem entry_lt (ht : t + 0x6000 ≤ 2 ^ 32) (hi : i < 3072) : entry t i < 2 ^ 32 := by
  unfold entry
  split_ifs <;> omega

theorem half_lt {j : Nat} (ht : t + 0x6000 ≤ 2 ^ 32) (hj : j < 6144) : half t j < 2 ^ 32 := by
  rw [half]
  split_ifs
  · exact entry_lt ht (by omega)
  · decide

end Entry

section Built

variable {m : Mem 64} {tables : BitVec 64}

/-- The next half. -/
theorem Built.store {n : Nat} (h : Built m tables n) (htables : tables.toNat + 0x6000 ≤ 2 ^ 32)
    (hn : n < 6144) :
    Built (store m (tables + BitVec.ofNat 64 (4 * n)) 4 (half tables.toNat n)) tables (n + 1) := by
  intro j hj
  rw [element_store m tables _ (by omega) (by omega)]
  by_cases hlast : j = n
  · rw [if_pos hlast, hlast, Nat.mod_eq_of_lt (half_lt htables hn)]
  · rw [if_neg hlast, h j (by omega)]

theorem Built.of_eqOn {m' : Mem 64} {n : Nat} (h : Built m tables n) (hn : n ≤ 6144)
    (heq : Set.EqOn m' m (extent tables 0x6000)) : Built m' tables n := by
  intro j hj
  rw [← h j hj]
  exact load_of_eqOn heq (by decide) (extent_add_subset tables _ (by omega))

/-- An entry is in place if its two halves are. -/
theorem Built.element {i : Nat} (h : Built m tables 6144) (hi : i < 3072) :
    element m tables 8 i = entry tables.toNat i := by
  have hlow : ByteMemory.element m tables 4 (2 * i) = entry tables.toNat i := by
    rw [h _ (by omega), half, if_pos (by omega), Nat.mul_div_cancel_left i (by decide)]
  have hhigh : ByteMemory.element m tables 4 (2 * i + 1) = 0 := by
    rw [h _ (by omega), half, if_neg (by omega)]
  have hsplit : ByteMemory.element m tables 8 i = ByteMemory.element m tables 4 (2 * i) +
      ByteMemory.element m tables 4 (2 * i + 1) * 2 ^ 32 := by
    rw [ByteMemory.element, ByteMemory.element, ByteMemory.element,
      show 4 * (2 * i) = 8 * i by ring, show 4 * (2 * i + 1) = 8 * i + 4 by ring,
      load_add m _ 4 4, BitVec.ofNat_add, BitVec.add_assoc]
  rw [hsplit, hlow, hhigh, Nat.zero_mul, Nat.add_zero]

variable (hbuilt : Built m tables 6144) (halign : tables.toNat % 2 ^ 12 = 0)
  (hlow : tables.toNat + 0x6000 ≤ 2 ^ 32)

include hbuilt

/-- The entry for an address in table `t`. -/
theorem entryFor_built {t : Nat} (ht : t < 6) (k v : Nat) :
    entryFor m k (tables.toNat + 0x1000 * t) v =
      entry tables.toNat (512 * t + v / 2 ^ (12 + 9 * k) % 512) := by
  have hindex := Nat.mod_lt (v / 2 ^ (12 + 9 * k)) (show 0 < 512 by decide)
  have htable : BitVec.ofNat 64 (tables.toNat + 0x1000 * t) =
      tables + BitVec.ofNat 64 (8 * (512 * t)) := by
    rw [BitVec.ofNat_add, BitVec.ofNat_toNat, BitVec.setWidth_eq, ← Nat.mul_assoc]
  rw [entryFor, htable, element_add, hbuilt.element (by omega)]

include halign hlow

/-- **The identity map**: the tables translate the first 4 GiB to themselves, and nothing
else. -/
theorem translate_of_built {v : Nat} (hv : v < 2 ^ 48) :
    X86Paging.translate m tables v = if v < 2 ^ 32 then some ⟨v, true⟩ else none := by
  by_cases hhalf : 2 ^ 39 ≤ v
  · rw [X86Paging.translate, if_neg (by omega)]
    apply walk_of_absent
    rw [show tables.toNat = tables.toNat + 0x1000 * 0 by omega,
      entryFor_built hbuilt (by decide), entry_of_top (by omega) (by omega)]
    rfl
  have htop : X86Paging.translate m tables v = walk m v 3 (tables.toNat + 0x1000 * 1) true := by
    rw [X86Paging.translate]
    apply walk_of_tableEntry _ (by decide) (by omega) (by omega)
    rw [show tables.toNat = tables.toNat + 0x1000 * 0 by omega,
      entryFor_built hbuilt (by decide), entry, if_pos (by omega)]
  by_cases hbelow : v < 2 ^ 32
  · have hgigabyte : X86Paging.translate m tables v =
        walk m v 2 (tables.toNat + 0x1000 * (2 + v / 2 ^ 30)) true := by
      rw [htop]
      apply walk_of_tableEntry _ (by decide) (by omega) (by omega)
      rw [entryFor_built hbuilt (by decide), entry_of_gigabyte (by omega) (by omega)]
      omega
    have hpage : entryFor m 1 (tables.toNat + 0x1000 * (2 + v / 2 ^ 30)) v =
        v / 2 ^ 21 * 0x200000 + 0x83 := by
      rw [entryFor_built hbuilt (by omega), entry_of_page (by omega)]
      omega
    have hphys : v / 2 ^ 21 * 0x200000 + v % 2 ^ (12 + 9 * 1) = v := by omega
    rw [hgigabyte, walk_of_pageEntry hpage (by decide) (by omega) (by omega), hphys,
      if_pos hbelow]
  · rw [htop, if_neg hbelow]
    apply walk_of_absent
    rw [entryFor_built hbuilt (by decide), entry_of_absent (by omega) (by omega)]
    rfl

end Built

end EntryX86
end Boot
end Saski
