import Saski.Boot.ApRegion
import Saski.Lib.X86Paging

/-!
# The identity map of an additional core (`kernel/kernel.c`)

`build_ap_page_tables` fills four tables that lie one behind the other: the top table, the
table of gigabytes, and two tables of 2 MiB pages for the first and the fourth gigabyte.
The proof has two halves that meet in `tableWord`, the 2048 words of the four tables:

* `returns_buildApPageTables`: the function leaves these words, whatever the memory held
  before;
* `translate_tableWord`: tables with these words translate the two gigabytes to themselves
  and nothing else.
-/

namespace Saski
namespace Boot

open ByteMemory Logged Prog X86Paging

/-- Word `j` of the four tables at `tables`. -/
def tableWord (tables : Addr) (j : Nat) : BitVec 64 :=
  if j = 0 then tables + BitVec.ofNat 64 0x1000 ||| ptePresent ||| pteWritable
  else if j = 512 then tables + BitVec.ofNat 64 0x2000 ||| ptePresent ||| pteWritable
  else if j = 515 then tables + BitVec.ofNat 64 0x3000 ||| ptePresent ||| pteWritable
  else if j < 1024 then 0
  else if j < 1536 then
    BitVec.ofNat 64 ((j - 1024) * 0x200000) ||| ptePresent ||| pteWritable ||| pteHuge
  else
    BitVec.ofNat 64 (0xC0000000 + (j - 1536) * 0x200000) ||| ptePresent ||| pteWritable |||
      pteHuge

section TableWord

variable {tables : Addr} {j : Nat}

/-- The top table and the table of gigabytes have three entries. -/
theorem tableWord_of_absent (hzero : j ≠ 0) (hfirst : j ≠ 512) (hfourth : j ≠ 515)
    (hj : j < 1024) : tableWord tables j = 0 := by
  rw [tableWord, if_neg hzero, if_neg hfirst, if_neg hfourth, if_pos hj]

theorem tableWord_of_first (hlow : 1024 ≤ j) (hhigh : j < 1536) :
    tableWord tables j =
      BitVec.ofNat 64 ((j - 1024) * 0x200000) ||| ptePresent ||| pteWritable ||| pteHuge := by
  rw [tableWord, if_neg (by omega), if_neg (by omega), if_neg (by omega), if_neg (by omega),
    if_pos hhigh]

theorem tableWord_of_fourth (hlow : 1536 ≤ j) :
    tableWord tables j =
      BitVec.ofNat 64 (0xC0000000 + (j - 1536) * 0x200000) ||| ptePresent ||| pteWritable |||
        pteHuge := by
  rw [tableWord, if_neg (by omega), if_neg (by omega), if_neg (by omega), if_neg (by omega),
    if_neg (by omega)]

end TableWord

/-! ## The words the function leaves -/

section Words

variable (tables : Addr)

/-- `table[i] = v`, where the table starts `k` words behind the first one. -/
theorem element_storeEntry (m : Mem 64) {k i j : Nat} (v : BitVec 64) (hi : k + i < 2048)
    (hj : j < 2048) :
    element (storeEntry m (tables + BitVec.ofNat 64 (8 * k)) i v).value tables 8 j =
      if j = k + i then v.toNat else element m tables 8 j := by
  change element (store m (tables + BitVec.ofNat 64 (8 * k) + BitVec.ofNat 64 (8 * i)) 8 v.toNat)
    tables 8 j = _
  rw [BitVec.add_assoc, ← BitVec.ofNat_add, ← Nat.mul_add,
    element_store m tables v.toNat (by omega) (by omega), Nat.mod_eq_of_lt v.isLt]

/-- A loop over two tables sets the entries from `i` on. -/
theorem returns_tablesLoop {k l : Nat} (first second : Nat → BitVec 64) (hkl : k + 512 ≤ l)
    (hl : l + 512 ≤ 2048) {i : Nat} (hi : i ≤ 512) (mem : Mem 64) :
    ∃ mem', (loop (tablesBody (tables + BitVec.ofNat 64 (8 * k))
        (tables + BitVec.ofNat 64 (8 * l)) first second) ⟨i, mem⟩).Returns mem' ∧
      ∀ j < 2048, element mem' tables 8 j =
        if k + i ≤ j ∧ j < k + 512 then (first (j - k)).toNat
        else if l + i ≤ j ∧ j < l + 512 then (second (j - l)).toNat
        else element mem tables 8 j := by
  induction hleft : 512 - i generalizing i mem with
  | zero =>
      obtain rfl : i = 512 := by omega
      refine ⟨mem, returns_loop_of_done ?_, fun j _ => ?_⟩
      · rw [tablesBody, if_neg (Nat.lt_irrefl 512)]
        exact (returns_pure _ _).mpr rfl
      · rw [if_neg (by omega), if_neg (by omega)]
  | succ n ih =>
      have hmore : i < 512 := by omega
      obtain ⟨mem', hr, hwords⟩ := ih (i := i + 1) hmore
        (storeEntry (storeEntry mem (tables + BitVec.ofNat 64 (8 * k)) i (first i)).value
          (tables + BitVec.ofNat 64 (8 * l)) i (second i)).value (by omega)
      refine ⟨mem', returns_loop_of_step ?_ hr, fun j hj => ?_⟩
      · rw [tablesBody, if_pos hmore, returns_liftM_bind, returns_liftM_bind]
        exact (returns_pure _ _).mpr rfl
      · rw [hwords j hj, element_storeEntry tables _ _ (by omega) hj,
          element_storeEntry tables _ _ (by omega) hj]
        by_cases hfirst : j = k + i
        · rw [if_neg (by omega), if_neg (by omega), if_neg (by omega), if_pos hfirst,
            if_pos (by omega), hfirst, Nat.add_sub_cancel_left]
        by_cases hsecond : j = l + i
        · rw [if_neg (by omega), if_neg (by omega), if_pos hsecond, if_neg (by omega),
            if_pos (by omega), hsecond, Nat.add_sub_cancel_left]
        · have hlow : (k + (i + 1) ≤ j ∧ j < k + 512) ↔ k + i ≤ j ∧ j < k + 512 := by omega
          have hhigh : (l + (i + 1) ≤ j ∧ j < l + 512) ↔ l + i ≤ j ∧ j < l + 512 := by omega
          rw [if_neg hsecond, if_neg hfirst]
          simp only [hlow, hhigh]

end Words

/-- The function leaves the words of the four tables. -/
theorem returns_buildApPageTables (m : Mem 64) (regionBase : Addr) :
    ∃ m', (buildApPageTables m regionBase).Returns
        (m', regionBase + BitVec.ofNat 64 corePgtableOffset) ∧
      ∀ j < 2048, element m' (regionBase + BitVec.ofNat 64 corePgtableOffset) 8 j =
        (tableWord (regionBase + BitVec.ofNat 64 corePgtableOffset) j).toNat := by
  generalize htables : regionBase + BitVec.ofNat 64 corePgtableOffset = tables
  -- The four tables start at words 0, 512, 1024 and 1536.
  obtain ⟨cleared, hcleared, hzero⟩ := returns_tablesLoop tables (k := 0) (l := 512)
    (fun _ => 0) (fun _ => 0) (by decide) (by decide) (i := 0) (by decide) m
  let m₁ := (storeEntry cleared (tables + BitVec.ofNat 64 (8 * 0)) 0 (tableWord tables 0)).value
  let m₂ := (storeEntry m₁ (tables + BitVec.ofNat 64 (8 * 512)) 0 (tableWord tables 512)).value
  let m₃ := (storeEntry m₂ (tables + BitVec.ofNat 64 (8 * 512)) 3 (tableWord tables 515)).value
  have hm₃ : ∀ j < 1024, element m₃ tables 8 j = (tableWord tables j).toNat := by
    intro j hj
    rw [element_storeEntry tables m₂ _ (by decide) (by omega),
      element_storeEntry tables m₁ _ (by decide) (by omega),
      element_storeEntry tables cleared _ (by decide) (by omega), hzero j (by omega)]
    by_cases hfourth : j = 512 + 3
    · rw [if_pos hfourth, hfourth]
    by_cases hfirst : j = 512 + 0
    · rw [if_neg hfourth, if_pos hfirst, hfirst]
    by_cases htop : j = 0 + 0
    · rw [if_neg hfourth, if_neg hfirst, if_pos htop, htop]
    · -- Everything else of the two tables was cleared.
      rw [if_neg hfourth, if_neg hfirst, if_neg htop, tableWord_of_absent htop hfirst hfourth hj]
      split_ifs <;> first | rfl | omega
  obtain ⟨m', hm', hwords⟩ := returns_tablesLoop tables (k := 1024) (l := 1536)
    (fun i => BitVec.ofNat 64 (i * 0x200000) ||| ptePresent ||| pteWritable ||| pteHuge)
    (fun i => BitVec.ofNat 64 (0xC0000000 + i * 0x200000) ||| ptePresent ||| pteWritable |||
      pteHuge) (by decide) (by decide) (i := 0) (by decide) m₃
  refine ⟨m', ?_, ?_⟩
  · rw [buildApPageTables, htables]
    apply (returns_bind_of hcleared _ _).mpr
    apply (returns_liftM_bind _ _ _).mpr
    apply (returns_liftM_bind _ _ _).mpr
    apply (returns_liftM_bind _ _ _).mpr
    apply (returns_bind_of hm' _ _).mpr
    apply (returns_pure _ _).mpr
    exact congrArg (Prod.mk m') (BitVec.add_zero tables)
  · intro j hj
    rw [hwords j hj]
    by_cases hlow : j < 1024
    · rw [if_neg (by omega), if_neg (by omega), hm₃ j hlow]
    by_cases hfirst : j < 1536
    · rw [if_pos (by omega), tableWord_of_first (by omega) hfirst]
    · rw [if_neg (by omega), if_pos (by omega), tableWord_of_fourth (by omega)]

/-! ## What the words translate -/

section Translate

variable {m : Mem 64} {tables : Addr}

theorem toNat_or_flags {a flags : BitVec 64} (ha : a.toNat % 2 ^ 12 = 0)
    (hflags : flags.toNat < 2 ^ 12) : (a ||| flags).toNat = a.toNat + flags.toNat := by
  obtain ⟨q, hq⟩ := Nat.dvd_of_mod_eq_zero ha
  rw [BitVec.toNat_or, hq, Nat.two_pow_add_eq_or_of_lt hflags]

/-- An entry for a table. -/
theorem toNat_tableEntry {a : Addr} (ha : a.toNat % 2 ^ 12 = 0) :
    (a ||| ptePresent ||| pteWritable).toNat = a.toNat + 0x3 := by
  rw [BitVec.or_assoc, toNat_or_flags ha (by decide)]
  rfl

/-- An entry for a page of 2 MiB. -/
theorem toNat_pageEntry {n : Nat} (hn : n % 2 ^ 12 = 0) (hlt : n < 2 ^ 64) :
    (BitVec.ofNat 64 n ||| ptePresent ||| pteWritable ||| pteHuge).toNat = n + 0x83 := by
  have htoNat : (BitVec.ofNat 64 n).toNat = n := by
    rw [BitVec.toNat_ofNat, Nat.mod_eq_of_lt hlt]
  rw [BitVec.or_assoc, BitVec.or_assoc, toNat_or_flags (htoNat.symm ▸ hn) (by decide), htoNat]
  rfl

/-- The start of the table `t`. -/
def tableAt (tables : Addr) (t : Nat) : Addr := tables + BitVec.ofNat 64 (8 * (512 * t))

variable (hwords : ∀ j < 2048, element m tables 8 j = (tableWord tables j).toNat)

include hwords

/-- The entry for an address in one of the four tables. -/
theorem entryFor_table {t : Nat} (ht : t < 4) (k v : Nat) :
    entryFor m k (tableAt tables t).toNat v =
      (tableWord tables (512 * t + v / 2 ^ (12 + 9 * k) % 512)).toNat := by
  have hindex := Nat.mod_lt (v / 2 ^ (12 + 9 * k)) (show 0 < 512 by decide)
  rw [entryFor, BitVec.ofNat_toNat, BitVec.setWidth_eq, tableAt, element_add, hwords _ (by omega)]

/-- In one of the first two tables, past their three entries. -/
theorem walk_absent {k v s : Nat} {w : Bool} (hs : s < 2)
    (htop : 512 * s + v / 2 ^ (12 + 9 * k) % 512 ≠ 0)
    (hfirst : 512 * s + v / 2 ^ (12 + 9 * k) % 512 ≠ 512)
    (hfourth : 512 * s + v / 2 ^ (12 + 9 * k) % 512 ≠ 515) :
    walk m v (k + 1) (tableAt tables s).toNat w = none := by
  apply walk_of_absent
  rw [entryFor_table hwords (by omega), tableWord_of_absent htop hfirst hfourth (by omega)]
  rfl

/-- Through a table of 2 MiB pages that start at `base`. -/
theorem walk_pages {t v : Nat} {w : Bool} (base : Nat) (ht : t < 4)
    (hpages : ∀ i < 512, tableWord tables (512 * t + i) =
      BitVec.ofNat 64 (base + i * 0x200000) ||| ptePresent ||| pteWritable ||| pteHuge)
    (hbase : base % 2 ^ 30 = 0) (hlow : base < 2 ^ 32) (hv : base ≤ v ∧ v < base + 2 ^ 30) :
    walk m v 2 (tableAt tables t).toNat w = some ⟨v, w⟩ := by
  have hindex := Nat.mod_lt (v / 2 ^ 21) (show 0 < 512 by decide)
  have hentry : entryFor m 1 (tableAt tables t).toNat v =
      base + v / 2 ^ 21 % 512 * 0x200000 + 0x83 := by
    rw [entryFor_table hwords ht]
    change (tableWord tables (512 * t + v / 2 ^ 21 % 512)).toNat = _
    rw [hpages _ hindex, toNat_pageEntry (by omega) (by omega)]
  have hphys : base + v / 2 ^ 21 % 512 * 0x200000 + v % 2 ^ (12 + 9 * 1) = v := by omega
  rw [walk_of_pageEntry hentry (by decide) (by omega) (by omega), hphys]

variable (halign : tables.toNat % 2 ^ 12 = 0) (hlow : tables.toNat + 0x4000 ≤ 2 ^ 52)

include halign hlow

/-- Into the table `t`, through the entry of an address in the table `s`. -/
theorem walk_into {k v s t : Nat} {w : Bool} (hs : s < 4) (ht : t < 4) (hk : k ≠ 0)
    (hentry : tableWord tables (512 * s + v / 2 ^ (12 + 9 * k) % 512) =
      tableAt tables t ||| ptePresent ||| pteWritable) :
    walk m v (k + 1) (tableAt tables s).toNat w = walk m v k (tableAt tables t).toNat w := by
  have htable : (tableAt tables t).toNat = tables.toNat + 8 * (512 * t) :=
    toNat_add_ofNat (by omega)
  apply walk_of_tableEntry _ hk (by omega) (by omega)
  rw [entryFor_table hwords hs, hentry, toNat_tableEntry (by omega)]

/-- **The identity map**: tables with these words translate the first and the fourth
gigabyte to themselves, and nothing else. -/
theorem translate_tableWord {v : Nat} (hv : v < 2 ^ 48) :
    X86Paging.translate m tables v =
      if v < 2 ^ 30 ∨ (3 * 2 ^ 30 ≤ v ∧ v < 2 ^ 32) then some ⟨v, true⟩ else none := by
  have htop : X86Paging.translate m tables v =
      walk m v 4 (tableAt tables 0).toNat true := by
    rw [X86Paging.translate, show tableAt tables 0 = tables from BitVec.add_zero tables]
  by_cases hhalf : 2 ^ 39 ≤ v
  · rw [htop, if_neg (by omega)]
    exact walk_absent hwords (by decide) (by omega) (by omega) (by omega)
  have hgigabyte : X86Paging.translate m tables v =
      walk m v 3 (tableAt tables 1).toNat true := by
    have hindex : 512 * 0 + v / 2 ^ (12 + 9 * 3) % 512 = 0 := by omega
    rw [htop]
    exact walk_into hwords halign hlow (by decide) (by decide) (by decide) (by rw [hindex]; rfl)
  by_cases hfirst : v < 2 ^ 30
  · have hindex : 512 * 1 + v / 2 ^ (12 + 9 * 2) % 512 = 512 := by omega
    rw [hgigabyte, walk_into (t := 2) hwords halign hlow (by decide) (by decide) (by decide)
      (by rw [hindex]; rfl), if_pos (Or.inl hfirst)]
    apply walk_pages hwords 0 (by decide) _ rfl (by decide) (by omega)
    intro i hi
    rw [tableWord_of_first (by omega) (by omega), Nat.zero_add, Nat.add_sub_cancel_left]
  by_cases hfourth : 3 * 2 ^ 30 ≤ v ∧ v < 2 ^ 32
  · have hindex : 512 * 1 + v / 2 ^ (12 + 9 * 2) % 512 = 515 := by omega
    rw [hgigabyte, walk_into (t := 3) hwords halign hlow (by decide) (by decide) (by decide)
      (by rw [hindex]; rfl), if_pos (Or.inr hfourth)]
    apply walk_pages hwords 0xC0000000 (by decide) _ rfl (by decide) (by omega)
    intro i hi
    rw [tableWord_of_fourth (by omega), Nat.add_sub_cancel_left]
  · rw [hgigabyte, if_neg (by omega)]
    exact walk_absent hwords (by decide) (by omega) (by omega) (by omega)

end Translate

/-- `build_ap_page_tables` builds the identity map of the first and the fourth gigabyte,
writable, and writes nothing outside its four tables. -/
theorem buildApPageTables_identity (m : Mem 64) (regionBase : Addr)
    (halign : regionBase.toNat % 2 ^ 12 = 0) (hlow : regionBase.toNat < 2 ^ 40) :
    ∃ m' pml4, (buildApPageTables m regionBase).Returns (m', pml4) ∧
      (∀ v < 2 ^ 48, X86Paging.translate m' pml4 v =
        if v < 2 ^ 30 ∨ (3 * 2 ^ 30 ≤ v ∧ v < 2 ^ 32) then some ⟨v, true⟩ else none) ∧
      Reads (· ∈ pageTables regionBase) (buildApPageTables m regionBase) ∧
      ∀ x ∉ pageTables regionBase, m' x = m x := by
  obtain ⟨m', hr, hwords⟩ := returns_buildApPageTables m regionBase
  obtain ⟨r, hr', heq⟩ := (ensures_buildApPageTables m regionBase).result
  obtain rfl := hr.unique hr'
  have htables : (regionBase + BitVec.ofNat 64 corePgtableOffset).toNat =
      regionBase.toNat + 0x3A0000 := toNat_add_ofNat (by rw [corePgtableOffset]; omega)
  refine ⟨m', _, hr, fun v hv => ?_, (ensures_buildApPageTables m regionBase).events, ?_⟩
  · exact translate_tableWord hwords (by omega) (by omega) hv
  · intro x hx
    exact heq hx

/-- The tables of the first additional core. -/
theorem regionOf_one_identity :
    ∃ m' pml4, (buildApPageTables (fun _ => 0xFF) (regionOf .x86_64 1)).Returns (m', pml4) ∧
      X86Paging.translate m' pml4 0xFEE00000 = some ⟨0xFEE00000, true⟩ ∧
      X86Paging.translate m' pml4 0x40000000 = none := by
  obtain ⟨m', pml4, hr, htranslate, -, -⟩ := buildApPageTables_identity (fun _ => 0xFF)
    (regionOf .x86_64 1) (by decide) (by decide)
  exact ⟨m', pml4, hr, htranslate _ (by decide), htranslate _ (by decide)⟩

end Boot
end Saski
