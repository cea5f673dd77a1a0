import Saski.Lib.ByteMemory

/-!
# Programs that write a buffer

A program that only writes is described by the list of its byte stores, in order.
`apply` is the memory after them.  Stores to consecutive places, as a serialiser makes
them, leave exactly the bytes it produced (`apply_consecutive`), and words written one
after the other are read back as words (`littleEndian_words`).
-/

namespace StoreLog

open ByteMemory

/-- One byte store. -/
structure Store where
  index : Int
  byte : UInt8
  deriving DecidableEq, Repr

/-- The memory after the stores. -/
def apply (m : Int → UInt8) (log : List Store) : Int → UInt8 :=
  log.foldl (fun m s => Function.update m s.index s.byte) m

theorem apply_append (m : Int → UInt8) (log log' : List Store) :
    apply m (log ++ log') = apply (apply m log) log' :=
  List.foldl_append

/-- Stores of the bytes one after the other, from `p` on. -/
def consecutive (p : Int) : List UInt8 → List Store
  | [] => []
  | b :: l => ⟨p, b⟩ :: consecutive (p + 1) l

theorem consecutive_append (p : Int) (l r : List UInt8) :
    consecutive p (l ++ r) = consecutive p l ++ consecutive (p + l.length) r := by
  induction l generalizing p with
  | nil => simp [consecutive]
  | cons b l ih =>
      rw [List.cons_append, consecutive, ih, consecutive, List.cons_append, List.length_cons]
      push_cast
      rw [Int.add_assoc, Int.add_comm 1]

theorem index_of_mem_consecutive {p : Int} {l : List UInt8} {s : Store}
    (hs : s ∈ consecutive p l) : p ≤ s.index ∧ s.index < p + l.length := by
  induction l generalizing p with
  | nil => exact absurd hs List.not_mem_nil
  | cons b l ih =>
      rw [List.length_cons]
      rcases List.mem_cons.mp hs with rfl | hs
      · exact ⟨le_rfl, by push_cast; omega⟩
      · have := ih hs
        push_cast
        omega

/-- A store elsewhere does not change a byte. -/
theorem apply_of_ne {m : Int → UInt8} {log : List Store} {i : Int}
    (h : ∀ s ∈ log, s.index ≠ i) : apply m log i = m i := by
  induction log generalizing m with
  | nil => rfl
  | cons s log ih =>
      have hrest := ih (m := Function.update m s.index s.byte) fun t ht =>
        h t (List.mem_cons_of_mem _ ht)
      rw [apply, List.foldl_cons]
      refine hrest.trans ?_
      rw [Function.update_of_ne (h s List.mem_cons_self).symm]

/-- The bytes stored are the bytes there. -/
theorem apply_consecutive (m : Int → UInt8) (p : Int) {l : List UInt8} {k : Nat} {b : UInt8}
    (hk : l[k]? = some b) : apply m (consecutive p l) (p + k) = b := by
  induction l generalizing m p k with
  | nil => simp at hk
  | cons x l ih =>
      rw [consecutive, apply, List.foldl_cons, ← apply]
      cases k with
      | zero =>
          rw [apply_of_ne, Nat.cast_zero, Int.add_zero, Function.update_self]
          · simpa using hk
          · intro s hs
            have := index_of_mem_consecutive hs
            push_cast
            omega
      | succ k =>
          have hrest := ih (Function.update m p x) (p + 1) (by simpa using hk)
          rw [Int.add_assoc] at hrest
          push_cast
          rwa [Int.add_comm (k : Int)]

/-! ## Words -/

/-- The low `n` bytes of a number, least significant first. -/
def leBytes (n v : Nat) : List UInt8 := (List.range n).map (byteOf v)

@[simp] theorem length_leBytes (n v : Nat) : (leBytes n v).length = n := by
  simp [leBytes]

/-- Where the bytes of a number stand, the number is read back. -/
theorem littleEndian_leBytes {byte : Nat → UInt8} {n v : Nat}
    (h : ∀ k < n, (leBytes n v)[k]? = some (byte k)) : littleEndian byte n = v % 2 ^ (8 * n) := by
  rw [← littleEndian_byteOf]
  apply littleEndian_congr
  intro k hk
  have hbyte := h k hk
  rw [leBytes, List.getElem?_map, List.getElem?_range hk] at hbyte
  exact (Option.some.inj hbyte).symm

theorem length_flatMap_leBytes (n : Nat) (words : List Nat) :
    (words.flatMap (leBytes n)).length = n * words.length := by
  simp [List.length_flatMap, Nat.mul_comm]

/-- Byte `k` of word `i` in a list of words of `n` bytes. -/
theorem getElem?_flatMap_leBytes {n : Nat} {words : List Nat} {i v : Nat} (hi : words[i]? = some v)
    {k : Nat} (hk : k < n) : (words.flatMap (leBytes n))[n * i + k]? = (leBytes n v)[k]? := by
  induction words generalizing i with
  | nil => simp at hi
  | cons w words ih =>
      rw [List.flatMap_cons]
      cases i with
      | zero =>
          obtain rfl : w = v := by simpa using hi
          rw [Nat.mul_zero, Nat.zero_add, List.getElem?_append_left (by simpa using hk)]
      | succ i =>
          rw [List.getElem?_append_right (by rw [length_leBytes, Nat.mul_succ]; omega),
            length_leBytes, ← ih (by simpa using hi)]
          congr 1
          rw [Nat.mul_succ]
          omega

/-- **Words that were stored one after the other are read back.** -/
theorem littleEndian_words (m : Int → UInt8) (p : Int) {n : Nat} {words : List Nat} {i v : Nat}
    (hi : words[i]? = some v) :
    littleEndian (fun k => apply m (consecutive p (words.flatMap (leBytes n))) (p + n * i + k)) n =
      v % 2 ^ (8 * n) := by
  apply littleEndian_leBytes
  intro k hk
  have hbyte := getElem?_flatMap_leBytes hi hk
  have hsome : (leBytes n v)[k]? = some (byteOf v k) := by
    rw [leBytes, List.getElem?_map, List.getElem?_range hk]
    rfl
  rw [hsome] at hbyte
  have hat := apply_consecutive m p hbyte
  rw [hsome, Int.add_assoc]
  push_cast at hat
  rw [hat]

end StoreLog
