import Saski.Lib.ByteMemory

/-!
# Four-level page tables of x86-64

A virtual address of 48 bits is translated through four levels of tables with 512 entries
of eight bytes.  Level `k` takes nine bits of the address from bit `12 + 9 * k` on as an
index.  The entry found there

* translates nothing if its present bit is clear,
* ends the walk as a page of `2 ^ (12 + 9 * k)` bytes, on the last level, and on the two
  levels above it if its page-size bit is set,
* gives the next table otherwise.

A page is writable if the writable bit is set on every level.  Access rights of user mode
and the execute-disable bit are not part of a translation here.
-/

namespace X86Paging

open ByteMemory

/-- The present bit of an entry. -/
def present (e : Nat) : Bool := e.testBit 0

/-- The writable bit. -/
def writable (e : Nat) : Bool := e.testBit 1

/-- The page-size bit. -/
def huge (e : Nat) : Bool := e.testBit 7

/-- The address in an entry: its bits from `shift` to 51. -/
def frame (shift e : Nat) : Nat := e % 2 ^ 52 / 2 ^ shift * 2 ^ shift

/-- What a virtual address is translated to. -/
structure Mapping where
  phys : Nat
  writable : Bool
  deriving DecidableEq, Repr

/-- The entry for the address `v` in a table of level `k`. -/
def entryFor (m : Mem 64) (k table v : Nat) : Nat :=
  element m (BitVec.ofNat 64 table) 8 (v / 2 ^ (12 + 9 * k) % 512)

/-- The walk through the remaining levels, with the access right so far. -/
def walk (m : Mem 64) (v : Nat) : (levels table : Nat) → (w : Bool) → Option Mapping
  | 0, _, _ => none
  | k + 1, table, w =>
      let e := entryFor m k table v
      if present e = false then none
      else if k = 0 ∨ (k ≤ 2 ∧ huge e = true) then
        some ⟨frame (12 + 9 * k) e + v % 2 ^ (12 + 9 * k), w && writable e⟩
      else walk m v k (frame 12 e) (w && writable e)

/-- The translation of the address `v` by the tables whose top is at `pml4`. -/
def translate (m : Mem 64) (pml4 : BitVec 64) (v : Nat) : Option Mapping :=
  walk m v 4 pml4.toNat true

/-! ## One level -/

section Levels

variable {m : Mem 64} {v k table : Nat} {w : Bool}

theorem walk_of_absent (h : present (entryFor m k table v) = false) :
    walk m v (k + 1) table w = none := by
  rw [walk, if_pos h]

theorem walk_of_table (hpresent : present (entryFor m k table v) = true)
    (hnext : ¬ (k = 0 ∨ (k ≤ 2 ∧ huge (entryFor m k table v) = true))) :
    walk m v (k + 1) table w =
      walk m v k (frame 12 (entryFor m k table v)) (w && writable (entryFor m k table v)) := by
  rw [walk, if_neg (by simp [hpresent]), if_neg hnext]

theorem walk_of_page (hpresent : present (entryFor m k table v) = true)
    (hpage : k = 0 ∨ (k ≤ 2 ∧ huge (entryFor m k table v) = true)) :
    walk m v (k + 1) table w =
      some ⟨frame (12 + 9 * k) (entryFor m k table v) + v % 2 ^ (12 + 9 * k),
        w && writable (entryFor m k table v)⟩ := by
  rw [walk, if_neg (by simp [hpresent]), if_pos hpage]

end Levels

/-! ## Entries with flags -/

section Entries

variable {a flags shift : Nat}

/-- An aligned address leaves the low bits to the flags. -/
theorem testBit_add_flags (ha : a % 2 ^ 12 = 0) {i : Nat} (hi : i < 12) :
    (a + flags).testBit i = flags.testBit i := by
  have hlow : (a + flags) % 2 ^ 12 = flags % 2 ^ 12 := by omega
  have hmod : ∀ x : Nat, (x % 2 ^ 12).testBit i = x.testBit i := by
    intro x
    rw [Nat.testBit_mod_two_pow, decide_eq_true hi, Bool.true_and]
  rw [← hmod (a + flags), hlow, hmod]

theorem frame_add_flags (hshift : 12 ≤ shift) (ha : a % 2 ^ shift = 0) (hlow : a < 2 ^ 52)
    (hflags : flags < 2 ^ 12) (hfits : shift ≤ 52) : frame shift (a + flags) = a := by
  obtain ⟨q, rfl⟩ := Nat.dvd_of_mod_eq_zero ha
  have hpow : 2 ^ 12 ≤ 2 ^ shift := Nat.pow_le_pow_right (by decide) hshift
  -- Below 2^52 there is room for the flags, since both are multiples of the page size.
  have hroom : 2 ^ shift * q + flags < 2 ^ 52 := by
    obtain ⟨r, hr⟩ := Nat.pow_dvd_pow 2 hfits
    rw [hr] at hlow ⊢
    have hq : q < r := Nat.lt_of_mul_lt_mul_left hlow
    calc 2 ^ shift * q + flags < 2 ^ shift * q + 2 ^ shift := by omega
      _ = 2 ^ shift * (q + 1) := by ring
      _ ≤ 2 ^ shift * r := Nat.mul_le_mul_left _ hq
  have hdiv : (2 ^ shift * q + flags) / 2 ^ shift = q := by
    rw [Nat.mul_add_div (Nat.two_pow_pos shift), Nat.div_eq_of_lt (by omega), Nat.add_zero]
  rw [frame, Nat.mod_eq_of_lt hroom, hdiv, Nat.mul_comm]

variable {m : Mem 64} {v k table : Nat} {w : Bool}

/-- An entry with the present and the writable bit leads to the next table. -/
theorem walk_of_tableEntry (he : entryFor m k table v = a + 0x3) (hk : k ≠ 0)
    (ha : a % 2 ^ 12 = 0) (hlow : a < 2 ^ 52) : walk m v (k + 1) table w = walk m v k a w := by
  have hpresent : present (a + 0x3) = true := testBit_add_flags ha (by decide)
  have hwritable : writable (a + 0x3) = true := testBit_add_flags ha (by decide)
  have hhuge : huge (a + 0x3) = false := testBit_add_flags ha (by decide)
  rw [walk_of_table (he ▸ hpresent) (by simp [he, hk, hhuge]), he, hwritable, Bool.and_true,
    frame_add_flags le_rfl ha hlow (by decide) (by decide)]

/-- With the page-size bit as well, it is a page. -/
theorem walk_of_pageEntry (he : entryFor m k table v = a + 0x83) (hk : k ≤ 2)
    (ha : a % 2 ^ (12 + 9 * k) = 0) (hlow : a < 2 ^ 52) :
    walk m v (k + 1) table w = some ⟨a + v % 2 ^ (12 + 9 * k), w⟩ := by
  have halign : a % 2 ^ 12 = 0 := by
    have hdvd : 2 ^ 12 ∣ 2 ^ (12 + 9 * k) := Nat.pow_dvd_pow 2 (Nat.le_add_right _ _)
    exact Nat.mod_eq_zero_of_dvd (hdvd.trans (Nat.dvd_of_mod_eq_zero ha))
  have hpresent : present (a + 0x83) = true := testBit_add_flags halign (by decide)
  have hwritable : writable (a + 0x83) = true := testBit_add_flags halign (by decide)
  have hhuge : huge (a + 0x83) = true := testBit_add_flags halign (by decide)
  rw [walk_of_page (he ▸ hpresent) (Or.inr ⟨hk, he ▸ hhuge⟩), he, hwritable, Bool.and_true,
    frame_add_flags (Nat.le_add_right _ _) ha hlow (by decide) (by omega)]

end Entries

end X86Paging
