import Saski.Lib.StoreLog

/-!
# Byte strings with little-endian numbers

A file format with fixed fields is read by `unpack`, which fails at the end of the string,
and written by `leBytes`.  A number only depends on its own bytes (`unpack_congr`), hence
it is the same number in a part of the string and in a longer string.  `Holds` places a
string in a memory; what was unpacked from the string is then loaded from memory.
-/

namespace ByteString

open ByteMemory StoreLog

/-- The number in the `n` bytes at `off`, unless the string ends before. -/
def unpack (data : List UInt8) (off n : Nat) : Option Nat :=
  if off + n ≤ data.length then some (littleEndian (fun i => data.getD (off + i) 0) n) else none

variable {data data' : List UInt8} {off off' n v : Nat}

theorem unpack_eq_some_iff :
    unpack data off n = some v ↔
      off + n ≤ data.length ∧ littleEndian (fun i => data.getD (off + i) 0) n = v := by
  unfold unpack
  split_ifs with h
  · simp [h]
  · simp [h]

theorem exists_unpack (h : off + n ≤ data.length) : ∃ v, unpack data off n = some v :=
  ⟨_, unpack_eq_some_iff.mpr ⟨h, rfl⟩⟩

/-- A number is read from its own bytes. -/
theorem unpack_congr (hn : 0 < n) (h : ∀ i < n, data[off + i]? = data'[off' + i]?) :
    unpack data off n = unpack data' off' n := by
  -- The last byte exists in both strings or in neither.
  have hlast := h (n - 1) (by omega)
  have hlength : off + n ≤ data.length ↔ off' + n ≤ data'.length := by
    have hbound : ∀ (l : List UInt8) (a : Nat), a + n ≤ l.length ↔ l[a + (n - 1)]? ≠ none := by
      intro l a
      rw [ne_eq, List.getElem?_eq_none_iff]
      omega
    rw [hbound, hbound, hlast]
  have hvalue : littleEndian (fun i => data.getD (off + i) 0) n =
      littleEndian (fun i => data'.getD (off' + i) 0) n := by
    apply littleEndian_congr
    intro i hi
    rw [List.getD_eq_getElem?_getD, List.getD_eq_getElem?_getD, h i hi]
  unfold unpack
  rw [hvalue]
  simp only [hlength]

theorem unpack_drop (hn : 0 < n) (k : Nat) :
    unpack (data.drop k) off n = unpack data (k + off) n := by
  apply unpack_congr hn
  intro i _
  rw [List.getElem?_drop, Nat.add_assoc]

theorem unpack_take (hn : 0 < n) {k : Nat} (h : off + n ≤ k) :
    unpack (data.take k) off n = unpack data off n := by
  apply unpack_congr hn
  intro i hi
  rw [List.getElem?_take_of_lt (by omega)]

theorem unpack_append (hn : 0 < n) (h : off + n ≤ data.length) :
    unpack (data ++ data') off n = unpack data off n := by
  apply unpack_congr hn
  intro i hi
  rw [List.getElem?_append_left (by omega)]

/-- A number that was packed is unpacked. -/
theorem unpack_words {words : List Nat} {i : Nat} (hi : words[i]? = some v)
    (hv : v < 2 ^ (8 * n)) : unpack (words.flatMap (leBytes n)) (n * i) n = some v := by
  obtain ⟨hlt, -⟩ := List.getElem?_eq_some_iff.mp hi
  have hbytes : ∀ k < n, (leBytes n v)[k]? =
      some ((words.flatMap (leBytes n)).getD (n * i + k) 0) := by
    intro k hk
    have hin : k < (leBytes n v).length := by rwa [length_leBytes]
    rw [List.getD_eq_getElem?_getD, getElem?_flatMap_leBytes hi hk, List.getElem?_eq_getElem hin]
    rfl
  rw [unpack_eq_some_iff, length_flatMap_leBytes, littleEndian_leBytes hbytes,
    Nat.mod_eq_of_lt hv]
  refine ⟨?_, rfl⟩
  calc n * i + n = n * (i + 1) := (Nat.mul_succ n i).symm
    _ ≤ n * words.length := Nat.mul_le_mul_left n hlt

/-! ## Fields of several sizes -/

/-- Fields `(size, value)`, one behind the other. -/
def packFields (fs : List (Nat × Nat)) : List UInt8 := fs.flatMap fun f => leBytes f.1 f.2

/-- Where the fields end. -/
def fieldsSize (fs : List (Nat × Nat)) : Nat := (fs.map Prod.fst).sum

theorem length_packFields (fs : List (Nat × Nat)) : (packFields fs).length = fieldsSize fs := by
  simp [packFields, fieldsSize, List.length_flatMap]

/-- A field that was packed is unpacked, whatever comes behind. -/
theorem unpack_packFields {fs : List (Nat × Nat)} {j : Nat} (hj : fs[j]? = some (n, v))
    (hn : 0 < n) (hv : v < 2 ^ (8 * n)) (rest : List UInt8) :
    unpack (packFields fs ++ rest) (fieldsSize (fs.take j)) n = some v := by
  have hlt := (List.getElem?_eq_some_iff.mp hj).1
  have hsplit : fs = fs.take j ++ (n, v) :: fs.drop (j + 1) := by
    rw [← (List.getElem?_eq_some_iff.mp hj).2, List.cons_getElem_drop_succ, List.take_append_drop]
  have hfield : packFields fs ++ rest = packFields (fs.take j) ++
      ([v].flatMap (leBytes n) ++ (packFields (fs.drop (j + 1)) ++ rest)) := by
    conv_lhs => rw [hsplit]
    simp [packFields, List.append_assoc]
  have hskip : unpack ((packFields fs ++ rest).drop (packFields (fs.take j)).length) 0 n =
      unpack (packFields fs ++ rest) (packFields (fs.take j)).length n := unpack_drop hn _
  rw [← length_packFields, ← hskip, hfield, List.drop_left,
    unpack_append hn (by rw [length_flatMap_leBytes]; simp)]
  exact unpack_words (i := 0) rfl hv

/-! ## Strings in memory -/

/-- The string stands in memory from `a` on. -/
def Holds {w : Nat} (m : Mem w) (a : BitVec w) (data : List UInt8) : Prop :=
  ∀ i b, data[i]? = some b → m (a + BitVec.ofNat w i) = b

theorem Holds.left {w : Nat} {m : Mem w} {a : BitVec w} (h : Holds m a (data ++ data')) :
    Holds m a data := by
  intro i b hi
  exact h i b (by rw [List.getElem?_append_left (List.getElem?_eq_some_iff.mp hi).1, hi])

theorem Holds.right {w : Nat} {m : Mem w} {a : BitVec w} (h : Holds m a (data ++ data')) :
    Holds m (a + BitVec.ofNat w data.length) data' := by
  intro i b hi
  rw [BitVec.add_assoc, ← BitVec.ofNat_add]
  apply h
  rw [List.getElem?_append_right (Nat.le_add_right _ _), Nat.add_sub_cancel_left, hi]

theorem Holds.load {w : Nat} {m : Mem w} {a : BitVec w} (h : Holds m a data)
    (hv : unpack data off n = some v) : load m (a + BitVec.ofNat w off) n = v := by
  obtain ⟨hlen, rfl⟩ := unpack_eq_some_iff.mp hv
  apply littleEndian_congr
  intro i hi
  have hget : data[off + i]? = some (data.getD (off + i) 0) := by
    rw [List.getD_eq_getElem?_getD, List.getElem?_eq_getElem (by omega)]
    rfl
  rw [BitVec.add_assoc, ← BitVec.ofNat_add]
  exact h _ _ hget

/-! ## Programs that may fail -/

section Except

variable {ε α β : Type}

theorem bind_eq_ok_iff {x : Except ε α} {f : α → Except ε β} {b : β} :
    (x >>= f) = .ok b ↔ ∃ a, x = .ok a ∧ f a = .ok b := by
  cases x with
  | error e => simp [bind, Except.bind]
  | ok a => simp [bind, Except.bind]

theorem pure_eq_ok_iff {a b : α} : (pure a : Except ε α) = .ok b ↔ a = b := by
  simp [pure, Except.pure]

end Except

end ByteString
