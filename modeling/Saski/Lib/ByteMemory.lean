import Mathlib.Tactic

/-!
# Little-endian numbers and flat byte memory

Two layers used by every program that keeps its data in raw bytes.

* `littleEndian byte n` is the number held by `byte 0, ..., byte (n - 1)`,
  assembled with the shifts and ors a C loop uses; `byteOf v i` is byte `i` of
  the number `v`.
* `Mem w` is a memory addressed by `w`-bit words.  `load` and `store` move
  `n`-byte little-endian numbers, and addresses wrap around as machine
  addresses do.  `InExtent a n x` says that `x` is one of the `n` addresses
  from `a`, and `Separate` that two such extents share no address.

A proof about a program with raw pointers needs two facts about a `store`:
what a `load` of the same extent returns afterwards, and that a `load` of a
separate extent is unaffected.
-/

namespace ByteMemory

/-! ## Little-endian numbers -/

/-- `for (i = 0; i < n; i++) w |= byte(i) << (8 * i);` -/
def littleEndian (byte : Nat → UInt8) : Nat → Nat
  | 0 => 0
  | n + 1 => littleEndian byte n ||| ((byte n).toNat <<< (8 * n))

/-- Byte `i` of the number `v`. -/
def byteOf (v i : Nat) : UInt8 := UInt8.ofNat (v / 2 ^ (8 * i))

theorem littleEndian_congr {byte byte' : Nat → UInt8} {n : Nat}
    (h : ∀ i < n, byte i = byte' i) : littleEndian byte n = littleEndian byte' n := by
  induction n with
  | zero => rfl
  | succ n ih =>
      rw [littleEndian, littleEndian, ih fun i hi => h i (by omega), h n (by omega)]

/-- The bytes are digits: they are ored into disjoint bit ranges.  The bound is
carried along because it is what makes the ranges disjoint. -/
theorem littleEndian_lt_and_succ (byte : Nat → UInt8) (n : Nat) :
    littleEndian byte n < 2 ^ (8 * n) ∧
      littleEndian byte (n + 1) = littleEndian byte n + (byte n).toNat * 2 ^ (8 * n) := by
  have hsucc : ∀ k, littleEndian byte k < 2 ^ (8 * k) →
      littleEndian byte (k + 1) = littleEndian byte k + (byte k).toNat * 2 ^ (8 * k) := by
    intro k hk
    rw [littleEndian, Nat.shiftLeft_eq, Nat.mul_comm (byte k).toNat, Nat.or_comm,
      ← Nat.two_pow_add_eq_or_of_lt hk, Nat.add_comm]
  have hlt : ∀ k, littleEndian byte k < 2 ^ (8 * k) := by
    intro k
    induction k with
    | zero => simp [littleEndian]
    | succ k ih =>
        have hbyte : (byte k).toNat ≤ 255 := by
          have := (byte k).toNat_lt
          omega
        calc littleEndian byte (k + 1)
            = littleEndian byte k + (byte k).toNat * 2 ^ (8 * k) := hsucc k ih
          _ < 2 ^ (8 * k) + 255 * 2 ^ (8 * k) :=
              Nat.add_lt_add_of_lt_of_le ih (Nat.mul_le_mul_right _ hbyte)
          _ = 2 ^ (8 * (k + 1)) := by rw [Nat.mul_add, Nat.pow_add]; ring
  exact ⟨hlt n, hsucc n (hlt n)⟩

theorem littleEndian_lt (byte : Nat → UInt8) (n : Nat) :
    littleEndian byte n < 2 ^ (8 * n) :=
  (littleEndian_lt_and_succ byte n).1

theorem littleEndian_succ (byte : Nat → UInt8) (n : Nat) :
    littleEndian byte (n + 1) = littleEndian byte n + (byte n).toNat * 2 ^ (8 * n) :=
  (littleEndian_lt_and_succ byte n).2

theorem toNat_byteOf (v i : Nat) : (byteOf v i).toNat = v / 2 ^ (8 * i) % 2 ^ 8 := by
  simp [byteOf]

/-- The bytes of `v` reassemble to `v`, cut to the width that was kept. -/
theorem littleEndian_byteOf (v n : Nat) : littleEndian (byteOf v) n = v % 2 ^ (8 * n) := by
  induction n with
  | zero => simp [littleEndian, Nat.mod_one]
  | succ n ih =>
      rw [littleEndian_succ, ih, toNat_byteOf, Nat.mul_add, Nat.pow_add, Nat.mod_mul]
      ring

/-- A number determines the bytes it was assembled from. -/
theorem littleEndian_inj {byte byte' : Nat → UInt8} {n : Nat}
    (h : littleEndian byte n = littleEndian byte' n) : ∀ i < n, byte i = byte' i := by
  induction n with
  | zero =>
      intro i hi
      omega
  | succ n ih =>
      rw [littleEndian_succ, littleEndian_succ] at h
      have hlow : littleEndian byte n = littleEndian byte' n := by
        have hmod := congrArg (· % 2 ^ (8 * n)) h
        simpa [Nat.add_mul_mod_self_right, Nat.mod_eq_of_lt (littleEndian_lt _ n)] using hmod
      have hhigh : (byte n).toNat = (byte' n).toNat := by
        rw [hlow] at h
        exact Nat.eq_of_mul_eq_mul_right (Nat.two_pow_pos _) (Nat.add_left_cancel h)
      intro i hi
      rcases Nat.lt_succ_iff_lt_or_eq.mp hi with hlt | rfl
      · exact ih hlow i hlt
      · exact UInt8.toNat_inj.mp hhigh

/-! ## Memory -/

/-- A byte memory with `w`-bit addresses. -/
abbrev Mem (w : Nat) := BitVec w → UInt8

variable {w : Nat}

/-- The address `x` is one of the `n` addresses from `a`, with wrap-around. -/
def InExtent (a : BitVec w) (n : Nat) (x : BitVec w) : Prop := (x - a).toNat < n

instance (a : BitVec w) (n : Nat) (x : BitVec w) : Decidable (InExtent a n x) :=
  inferInstanceAs (Decidable ((x - a).toNat < n))

/-- The `n` addresses from `a`. -/
def extent (a : BitVec w) (n : Nat) : Set (BitVec w) := {x | InExtent a n x}

/-- The extents of `n` bytes from `a` and of `k` bytes from `b` share no address. -/
def Separate (a : BitVec w) (n : Nat) (b : BitVec w) (k : Nat) : Prop :=
  ∀ x, InExtent a n x → ¬ InExtent b k x

/-- Read `n` bytes from `a` as one number. -/
def load (m : Mem w) (a : BitVec w) (n : Nat) : Nat :=
  littleEndian (fun i => m (a + BitVec.ofNat w i)) n

/-- Write the low `n` bytes of `v` from `a` on. -/
def store (m : Mem w) (a : BitVec w) (n v : Nat) : Mem w :=
  fun x => if InExtent a n x then byteOf v (x - a).toNat else m x

theorem load_lt (m : Mem w) (a : BitVec w) (n : Nat) : load m a n < 2 ^ (8 * n) :=
  littleEndian_lt _ n

/-- A number splits into the numbers in its low and its high bytes. -/
theorem load_add (m : Mem w) (a : BitVec w) (n k : Nat) :
    load m a (n + k) = load m a n + load m (a + BitVec.ofNat w n) k * 2 ^ (8 * n) := by
  induction k with
  | zero => simp [load, littleEndian]
  | succ k ih =>
      have hstep : ∀ (b : BitVec w) (j : Nat), load m b (j + 1) =
          load m b j + (m (b + BitVec.ofNat w j)).toNat * 2 ^ (8 * j) :=
        fun b j => littleEndian_succ _ j
      rw [← Nat.add_assoc, hstep, hstep, ih, BitVec.add_assoc, ← BitVec.ofNat_add, Nat.mul_add,
        Nat.pow_add]
      ring

theorem Separate.symm {a b : BitVec w} {n k : Nat} (h : Separate a n b k) :
    Separate b k a n :=
  fun x hb ha => h x ha hb

theorem toNat_add_ofNat {a : BitVec w} {i : Nat} (h : a.toNat + i < 2 ^ w) :
    (a + BitVec.ofNat w i).toNat = a.toNat + i := by
  have hi : (BitVec.ofNat w i).toNat = i := by
    rw [BitVec.toNat_ofNat, Nat.mod_eq_of_lt (by omega)]
  rw [BitVec.toNat_add_of_lt (by omega), hi]

theorem toNat_add_ofNat_sub (a : BitVec w) {i : Nat} (hi : i < 2 ^ w) :
    (a + BitVec.ofNat w i - a).toNat = i := by
  rw [BitVec.add_comm, BitVec.add_sub_cancel, BitVec.toNat_ofNat, Nat.mod_eq_of_lt hi]

/-- Every address is at its distance from another. -/
theorem add_ofNat_toNat_sub (a x : BitVec w) : a + BitVec.ofNat w (x - a).toNat = x := by
  rw [BitVec.ofNat_toNat, BitVec.setWidth_eq, BitVec.add_comm, BitVec.sub_add_cancel]

theorem inExtent_add {a : BitVec w} {n i : Nat} (hn : n ≤ 2 ^ w) (hi : i < n) :
    InExtent a n (a + BitVec.ofNat w i) := by
  unfold InExtent
  rw [toNat_add_ofNat_sub a (by omega)]
  exact hi

/-- An extent at an offset inside a larger one is part of it. -/
theorem InExtent.of_add {a x : BitVec w} {off k n : Nat}
    (h : InExtent (a + BitVec.ofNat w off) k x) (hfit : off + k ≤ n) :
    InExtent a n x := by
  unfold InExtent at h ⊢
  have hsplit : x - a = x - (a + BitVec.ofNat w off) + BitVec.ofNat w off := by
    rw [← BitVec.sub_sub, BitVec.sub_add_cancel]
  have hoff : off % 2 ^ w ≤ off := Nat.mod_le _ _
  rw [hsplit, BitVec.toNat_add, BitVec.toNat_ofNat]
  calc ((x - (a + BitVec.ofNat w off)).toNat + off % 2 ^ w) % 2 ^ w
      ≤ (x - (a + BitVec.ofNat w off)).toNat + off % 2 ^ w := Nat.mod_le _ _
    _ < n := by omega

/-- Two parts of one extent are separate when one ends before the other starts. -/
theorem separate_of_le {a : BitVec w} {off₁ len₁ off₂ len₂ : Nat}
    (hle : off₁ + len₁ ≤ off₂) (hfit : off₂ + len₂ ≤ 2 ^ w) :
    Separate (a + BitVec.ofNat w off₁) len₁ (a + BitVec.ofNat w off₂) len₂ := by
  intro x h₁ h₂
  unfold InExtent at h₁ h₂
  have hx : ∀ off, x - (a + BitVec.ofNat w off) = x - a - BitVec.ofNat w off := by
    intro off
    rw [BitVec.sub_sub]
  have hlt := (x - a).isLt
  rw [hx, BitVec.toNat_sub, BitVec.toNat_ofNat] at h₁ h₂
  rcases Nat.eq_zero_or_pos len₂ with hzero | hpos
  · omega
  · rw [Nat.mod_eq_of_lt (show off₁ < 2 ^ w by omega)] at h₁
    rw [Nat.mod_eq_of_lt (show off₂ < 2 ^ w by omega)] at h₂
    -- Both differences are known up to one wrap of the address space.
    have hwrap : ∀ off ≤ (x - a).toNat, off < 2 ^ w →
        (2 ^ w - off + (x - a).toNat) % 2 ^ w = (x - a).toNat - off := by
      intro off hle hoff
      rw [show 2 ^ w - off + (x - a).toNat = (x - a).toNat - off + 2 ^ w by omega,
        Nat.add_mod_right, Nat.mod_eq_of_lt (by omega)]
    have hnowrap : ∀ off, (x - a).toNat < off → off < 2 ^ w →
        (2 ^ w - off + (x - a).toNat) % 2 ^ w = 2 ^ w - off + (x - a).toNat := by
      intro off hgt hoff
      exact Nat.mod_eq_of_lt (by omega)
    rcases Nat.lt_or_ge (x - a).toNat off₂ with hx₂ | hx₂
    · rw [hnowrap off₂ hx₂ (by omega)] at h₂
      omega
    · rw [hwrap off₁ (by omega) (by omega)] at h₁
      omega

/-- Two extents are separate when one ends before the other starts. -/
theorem separate_of_toNat_le {a b : BitVec w} {n k : Nat} (hle : a.toNat + n ≤ b.toNat)
    (hfit : b.toNat + k ≤ 2 ^ w) : Separate a n b k := by
  have hbase : ∀ c : BitVec w, 0#w + BitVec.ofNat w c.toNat = c := by
    intro c
    rw [BitVec.zero_add, BitVec.ofNat_toNat, BitVec.setWidth_eq]
  rw [← hbase a, ← hbase b]
  exact separate_of_le hle hfit

/-! ## Loads after stores -/

theorem store_of_not_inExtent {m : Mem w} {a x : BitVec w} {n v : Nat}
    (h : ¬ InExtent a n x) : store m a n v x = m x :=
  if_neg h

/-- A store over a store to the same bytes. -/
theorem store_store (m : Mem w) (a : BitVec w) (n u v : Nat) :
    store (store m a n u) a n v = store m a n v := by
  ext x
  unfold store
  split <;> rfl

theorem store_congr {m m' : Mem w} {x : BitVec w} (h : m x = m' x) (a : BitVec w) (n v : Nat) :
    store m a n v x = store m' a n v x := by
  unfold store
  rw [h]

/-- A store into an object, at the object's byte `i`. -/
theorem store_add (m : Mem w) (a : BitVec w) {off n i : Nat} (v : Nat) (hfit : off + n ≤ 2 ^ w)
    (hi : i < 2 ^ w) :
    store m (a + BitVec.ofNat w off) n v (a + BitVec.ofNat w i) =
      if off ≤ i ∧ i < off + n then byteOf v (i - off) else m (a + BitVec.ofNat w i) := by
  by_cases hbelow : i < off
  · have hsep : Separate (a + BitVec.ofNat w i) 1 (a + BitVec.ofNat w off) n :=
      separate_of_le (by omega) hfit
    have hself : InExtent (a + BitVec.ofNat w i) 1 (a + BitVec.ofNat w i) := by
      unfold InExtent
      rw [BitVec.sub_self]
      exact Nat.zero_lt_one
    rw [if_neg (by omega), store_of_not_inExtent (hsep _ hself)]
  · have hsum : a + BitVec.ofNat w i = a + BitVec.ofNat w off + BitVec.ofNat w (i - off) := by
      rw [BitVec.add_assoc, ← BitVec.ofNat_add, Nat.add_sub_cancel' (by omega)]
    have hdist : (a + BitVec.ofNat w i - (a + BitVec.ofNat w off)).toNat = i - off := by
      rw [hsum]
      exact toNat_add_ofNat_sub _ (by omega)
    have hin : InExtent (a + BitVec.ofNat w off) n (a + BitVec.ofNat w i) ↔
        off ≤ i ∧ i < off + n := by
      unfold InExtent
      rw [hdist]
      omega
    unfold store
    rw [hdist]
    exact if_congr hin rfl rfl

theorem load_congr {m m' : Mem w} {a : BitVec w} {n : Nat} (hn : n ≤ 2 ^ w)
    (h : ∀ x, InExtent a n x → m x = m' x) : load m a n = load m' a n :=
  littleEndian_congr fun _ hi => h _ (inExtent_add hn hi)

theorem load_store_same (m : Mem w) (a : BitVec w) {n : Nat} (v : Nat) (hn : n ≤ 2 ^ w) :
    load (store m a n v) a n = v % 2 ^ (8 * n) := by
  rw [← littleEndian_byteOf]
  refine littleEndian_congr fun i hi => ?_
  unfold store
  rw [if_pos (inExtent_add hn hi), toNat_add_ofNat_sub a (by omega)]

/-- Storing the number that is already there changes nothing. -/
theorem store_eq_self {m : Mem w} {a : BitVec w} {n v : Nat}
    (h : load m a n = v % 2 ^ (8 * n)) : store m a n v = m := by
  have hbytes : ∀ i < n, m (a + BitVec.ofNat w i) = byteOf v i :=
    littleEndian_inj (h.trans (littleEndian_byteOf v n).symm)
  ext x
  unfold store
  split
  case isTrue hx =>
    rw [← hbytes _ hx, add_ofNat_toNat_sub]
  case isFalse => rfl

theorem load_store_separate {m : Mem w} {a b : BitVec w} {n k v : Nat} (hn : n ≤ 2 ^ w)
    (h : Separate a n b k) : load (store m b k v) a n = load m a n :=
  load_congr hn fun x hx => store_of_not_inExtent (h x hx)

/-! ## Memories that agree on some bytes -/

theorem extent_mono (a : BitVec w) {k n : Nat} (h : k ≤ n) : extent a k ⊆ extent a n :=
  fun _ hx => Nat.lt_of_lt_of_le hx h

theorem extent_add_subset (a : BitVec w) (off : Nat) {k n : Nat} (hfit : off + k ≤ n) :
    extent (a + BitVec.ofNat w off) k ⊆ extent a n :=
  fun _ hx => InExtent.of_add hx hfit

/-- An extent that does not wrap is an interval. -/
theorem mem_extent_iff {a x : BitVec w} {n : Nat} (hfit : a.toNat + n ≤ 2 ^ w) :
    x ∈ extent a n ↔ a.toNat ≤ x.toNat ∧ x.toNat < a.toNat + n := by
  change (x - a).toNat < n ↔ _
  have hx := x.isLt
  rw [BitVec.toNat_sub]
  rcases Nat.lt_or_ge x.toNat a.toNat with hlt | hle
  · rw [Nat.mod_eq_of_lt (by omega)]
    omega
  · rw [show 2 ^ w - a.toNat + x.toNat = x.toNat - a.toNat + 2 ^ w by omega, Nat.add_mod_right,
      Nat.mod_eq_of_lt (by omega)]
    omega

/-- A number is read from its own bytes. -/
theorem load_of_eqOn {m m' : Mem w} {s : Set (BitVec w)} (h : Set.EqOn m' m s) {a : BitVec w}
    {n : Nat} (hn : n ≤ 2 ^ w) (ha : extent a n ⊆ s) : load m' a n = load m a n :=
  load_congr hn fun _ hx => h (ha hx)

/-- A store outside of a set leaves the bytes in it alone. -/
theorem eqOn_update {m m' : Mem w} {s : Set (BitVec w)} (h : Set.EqOn m' m s) {a : BitVec w}
    (ha : a ∉ s) (v : UInt8) : Set.EqOn (Function.update m' a v) m s := by
  intro x hx
  have hne : x ≠ a := ne_of_mem_of_not_mem hx ha
  rw [Function.update_of_ne hne, h hx]

/-! ## Equal contents -/

/-- The `n` bytes from `a` in `m` are the `n` bytes from `b` in `m'`. -/
def SameBytes (m : Mem w) (a : BitVec w) (m' : Mem w) (b : BitVec w) (n : Nat) : Prop :=
  ∀ i < n, m (a + BitVec.ofNat w i) = m' (b + BitVec.ofNat w i)

theorem sameBytes_of_agree {m m' : Mem w} {a : BitVec w} {n : Nat} (hn : n ≤ 2 ^ w)
    (h : ∀ x, InExtent a n x → m x = m' x) : SameBytes m a m' a n :=
  fun _ hi => h _ (inExtent_add hn hi)

/-- A part of equal contents is equal. -/
theorem SameBytes.of_add {m m' : Mem w} {a b : BitVec w} {n off k : Nat}
    (h : SameBytes m a m' b n) (hfit : off + k ≤ n) :
    SameBytes m (a + BitVec.ofNat w off) m' (b + BitVec.ofNat w off) k := by
  intro i hi
  have hbyte := h (off + i) (by omega)
  rw [BitVec.ofNat_add, ← BitVec.add_assoc, ← BitVec.add_assoc] at hbyte
  exact hbyte

/-- Equal contents have equal members. -/
theorem SameBytes.load_add {m m' : Mem w} {a b : BitVec w} {n : Nat}
    (h : SameBytes m a m' b n) (off k : Nat) (hfit : off + k ≤ n) :
    load m (a + BitVec.ofNat w off) k = load m' (b + BitVec.ofNat w off) k :=
  littleEndian_congr (h.of_add hfit)

/-! ## Arrays -/

/-- Element `i` of the array of `n`-byte numbers at `a`. -/
def element (m : Mem w) (a : BitVec w) (n i : Nat) : Nat := load m (a + BitVec.ofNat w (n * i)) n

/-- A store into an array changes one element. -/
theorem element_store (m : Mem w) (a : BitVec w) {n i j : Nat} (v : Nat)
    (hi : n * (i + 1) ≤ 2 ^ w) (hj : n * (j + 1) ≤ 2 ^ w) :
    element (store m (a + BitVec.ofNat w (n * j)) n v) a n i =
      if i = j then v % 2 ^ (8 * n) else element m a n i := by
  rw [Nat.mul_succ] at hi hj
  unfold element
  by_cases hij : i = j
  · rw [if_pos hij, hij, load_store_same m _ v (by omega)]
  · rw [if_neg hij, load_store_separate (by omega)]
    rcases Nat.lt_or_gt_of_ne hij with hlt | hgt
    · have hle := Nat.mul_le_mul_left n hlt
      exact separate_of_le hle hj
    · have hle := Nat.mul_le_mul_left n hgt
      exact (separate_of_le hle hi).symm

/-- A part of an array is an array. -/
theorem element_add (m : Mem w) (a : BitVec w) (n k i : Nat) :
    element m (a + BitVec.ofNat w (n * k)) n i = element m a n (k + i) := by
  rw [element, element, BitVec.add_assoc, ← BitVec.ofNat_add, ← Nat.mul_add]

/-! ## Several stores into one object -/

/-- Store the members of an object at `a`, given as offset, size and value. -/
def storeMembers (m : Mem w) (a : BitVec w) (ws : List (Nat × Nat × Nat)) : Mem w :=
  ws.foldl (fun m member => store m (a + BitVec.ofNat w member.1) member.2.1 member.2.2) m

theorem storeMembers_cons (m : Mem w) (a : BitVec w) (member : Nat × Nat × Nat)
    (ws : List (Nat × Nat × Nat)) :
    storeMembers m a (member :: ws) =
      storeMembers (store m (a + BitVec.ofNat w member.1) member.2.1 member.2.2) a ws := rfl

/-- Storing members changes no byte outside the object. -/
theorem storeMembers_of_not_inExtent {a x : BitVec w} {n : Nat} (ws : List (Nat × Nat × Nat))
    (hfit : ∀ member ∈ ws, member.1 + member.2.1 ≤ n) (hx : ¬ InExtent a n x) (m : Mem w) :
    storeMembers m a ws x = m x := by
  induction ws generalizing m with
  | nil => rfl
  | cons member ws ih =>
      rw [storeMembers_cons, ih fun other hother => hfit other (List.mem_cons_of_mem _ hother)]
      apply store_of_not_inExtent
      intro hin
      exact hx (hin.of_add (hfit member List.mem_cons_self))

theorem storeMembers_congr {m m' : Mem w} {x : BitVec w} (h : m x = m' x) (a : BitVec w)
    (ws : List (Nat × Nat × Nat)) : storeMembers m a ws x = storeMembers m' a ws x := by
  induction ws generalizing m m' with
  | nil => exact h
  | cons member ws ih =>
      rw [storeMembers_cons, storeMembers_cons]
      exact ih (store_congr h _ _ _)

/-- Storing members leaves a load alone that overlaps none of them. -/
theorem load_storeMembers_separate {a b : BitVec w} {n : Nat} (ws : List (Nat × Nat × Nat))
    (hn : n ≤ 2 ^ w)
    (h : ∀ member ∈ ws, Separate b n (a + BitVec.ofNat w member.1) member.2.1) (m : Mem w) :
    load (storeMembers m a ws) b n = load m b n := by
  induction ws generalizing m with
  | nil => rfl
  | cons member ws ih =>
      rw [storeMembers_cons, ih fun other hother => h other (List.mem_cons_of_mem _ hother)]
      exact load_store_separate hn (h member List.mem_cons_self)

/-- Each member can be loaded back when no two members overlap. -/
theorem load_storeMembers {a : BitVec w} (ws : List (Nat × Nat × Nat))
    (hfit : ∀ member ∈ ws, member.1 + member.2.1 ≤ 2 ^ w)
    (hapart : ws.Pairwise fun p q => p.1 + p.2.1 ≤ q.1 ∨ q.1 + q.2.1 ≤ p.1)
    {member : Nat × Nat × Nat} (hmember : member ∈ ws) (m : Mem w) :
    load (storeMembers m a ws) (a + BitVec.ofNat w member.1) member.2.1 =
      member.2.2 % 2 ^ (8 * member.2.1) := by
  induction ws generalizing m with
  | nil => exact absurd hmember List.not_mem_nil
  | cons first ws ih =>
      rw [List.pairwise_cons] at hapart
      have hrest : ∀ other ∈ ws, other.1 + other.2.1 ≤ 2 ^ w :=
        fun other hother => hfit other (List.mem_cons_of_mem _ hother)
      rw [storeMembers_cons]
      by_cases hin : member ∈ ws
      · exact ih hrest hapart.2 hin _
      · -- The member is the first one, and the later stores miss it.
        obtain rfl : member = first := (List.mem_cons.mp hmember).resolve_right hin
        have hself := hfit member List.mem_cons_self
        rw [load_storeMembers_separate ws (by omega)]
        · exact load_store_same m _ _ (by omega)
        · intro other hother
          rcases hapart.1 other hother with hle | hle
          · exact separate_of_le hle (hrest other hother)
          · exact (separate_of_le hle hself).symm

end ByteMemory
