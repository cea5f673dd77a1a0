import Saski.Fdt.Walk
import Saski.Lib.Nesting

/-!
# The token stream of the structure block

The walks of `lib/fdt.c` are written one by one, with the cursor on the token in
some and behind it in others.  All of them step over the same tokens: `tokenAt` says
which token stands at a position and how wide it is, and each walk's iteration is a
function of it (`returns_skipBody` and the lemmas after it).

`marks` is the stream of all tokens from a position on, as brackets: a node opens
one, `END_NODE` closes it, properties are contents and NOPs are gaps.  A node whose
name does not end inside the block is the last thing any walk can see of a stream.
-/

namespace Saski
namespace Fdt

open Capnp Logged Prog Nesting

/-! ## Numbers -/

theorem be32_eq (bytes : Int → UInt8) (p : Int) :
    be32 bytes p = (bytes p).toNat * 2 ^ 24 + (bytes (p + 1)).toNat * 2 ^ 16 +
      (bytes (p + 2)).toNat * 2 ^ 8 + (bytes (p + 3)).toNat := by
  have h0 := (bytes p).toNat_lt
  have h1 := (bytes (p + 1)).toNat_lt
  have h2 := (bytes (p + 2)).toNat_lt
  have h3 := (bytes (p + 3)).toNat_lt
  unfold be32
  -- Each byte goes into bits that the sum of the ones before it leaves clear.
  have step : ∀ a b k : Nat, b < 2 ^ k → a <<< k ||| b = a * 2 ^ k + b := by
    intro a b k hb
    rw [Nat.shiftLeft_eq, Nat.mul_comm, Nat.two_pow_add_eq_or_of_lt hb]
  rw [Nat.or_assoc, Nat.or_assoc, step _ _ 8 (by omega), step _ _ 16 (by omega),
    step _ _ 24 (by omega)]
  omega

section Header

variable {blob : Buffer} {c : Ctx} (h : Header blob c)

include h

theorem Header.s_nonneg : 0 ≤ c.s := by
  rw [h.s]
  omega

theorem Header.send_lt : c.send < 2 ^ 32 := by
  have hle := h.struct_le
  have hlt := be32_lt blob.bytes 4
  omega

/-- No token starts in the magic number, whose bytes are not zero. -/
theorem Header.four_le {p : Int} (hp : c.s ≤ p) (htoken : be32 c.base p < 2 ^ 24) : 4 ≤ p := by
  have hs := h.s_nonneg
  have hmagic := h.magic
  rw [be32_eq] at hmagic
  rw [h.base, be32_eq] at htoken
  have h0 := (blob.bytes 0).toNat_lt
  have h1 := (blob.bytes (0 + 1)).toNat_lt
  have h2 := (blob.bytes (0 + 2)).toNat_lt
  have h3 := (blob.bytes (0 + 3)).toNat_lt
  unfold fdtMagic at hmagic
  by_contra hlt
  obtain rfl | rfl | rfl | rfl : p = 0 ∨ p = 0 + 1 ∨ p = 0 + 2 ∨ p = 0 + 3 := by omega
  all_goals omega

end Header

@[simp] theorem returns_rdBe32 {β : Type} (part : Int → Access) (bytes : Int → UInt8) (p : Int)
    (k : Nat → Prog Access β) (b : β) :
    ((liftM (rdBe32 part bytes p) : Prog Access Nat) >>= k).Returns b ↔
      (k (be32 bytes p)).Returns b :=
  returns_liftM_bind _ k b

@[simp] theorem returns_rdByte {β : Type} (part : Int → Access) (bytes : Int → UInt8) (p : Int)
    (k : UInt8 → Prog Access β) (b : β) :
    ((liftM (rdByte part bytes p) : Prog Access UInt8) >>= k).Returns b ↔
      (k (bytes p)).Returns b :=
  returns_liftM_bind _ k b

/-! ## Names -/

/-- The number of characters before the first NUL at or after `p`, if there is one in
the block. -/
def nameLen (c : Ctx) (p : Int) : Option Nat :=
  if c.s ≤ p then (List.range (c.send - p).toNat).find? fun n => c.base (p + n) = 0 else none

theorem nameLen_eq_some_iff {c : Ctx} {p : Int} {n : Nat} :
    nameLen c p = some n ↔
      c.s ≤ p ∧ p + n < c.send ∧ c.base (p + n) = 0 ∧ ∀ i < n, c.base (p + i) ≠ 0 := by
  unfold nameLen
  by_cases hs : c.s ≤ p
  · rw [if_pos hs, List.find?_range_eq_some]
    simp only [decide_eq_true_eq, List.mem_range, Bool.not_eq_true', decide_eq_false_iff_not]
    constructor
    · rintro ⟨hzero, hlt, hbefore⟩
      exact ⟨hs, by omega, hzero, hbefore⟩
    · rintro ⟨-, hlt, hzero, hbefore⟩
      exact ⟨hzero, by omega, hbefore⟩
  · simp [hs]

/-- What `node_name` has established after `n` characters. -/
def NameScan (c : Ctx) (p : Int) (n : Nat) : Prop := ∀ i < n, ok c (p + i) 1 ∧ c.base (p + i) ≠ 0

theorem returns_nameBody (c : Ctx) (p : Int) (n : Nat) :
    (nameBody c p n).Returns
      (if ok c (p + n) 1 ∧ c.base (p + n) ≠ 0 then .inl (n + 1) else .inr n) := by
  unfold nameBody
  by_cases hok : ok c (p + n) 1
  · rw [if_pos hok, returns_rdByte]
    by_cases hzero : c.base (p + n) = 0
    · simp [hzero]
    · simp [hok, hzero]
  · simp [hok]

theorem step_nameBody {c : Ctx} {p : Int} {n n' : Nat} (h : Step (nameBody c p) n n') :
    ok c (p + n) 1 ∧ c.base (p + n) ≠ 0 ∧ n' = n + 1 := by
  have heq := (returns_nameBody c p n).unique h
  split at heq
  case isTrue hgo => exact ⟨hgo.1, hgo.2, (Sum.inl.inj heq).symm⟩
  case isFalse => exact absurd heq (by simp)

theorem NameScan.step {c : Ctx} {p : Int} {n n' : Nat} (hn : NameScan c p n)
    (h : Step (nameBody c p) n n') : NameScan c p n' := by
  obtain ⟨hok, hne, rfl⟩ := step_nameBody h
  intro i hi
  rcases Nat.lt_succ_iff_lt_or_eq.mp hi with hlt | rfl
  · exact hn i hlt
  · exact ⟨hok, hne⟩

theorem returns_nameLoop (c : Ctx) (p : Int) :
    ∃ n, (loop (nameBody c p) 0).Returns n ∧ NameScan c p n ∧
      ¬ (ok c (p + n) 1 ∧ c.base (p + n) ≠ 0) := by
  obtain ⟨r, hr⟩ : ∃ r, (loop (nameBody c p) 0).Returns r := by
    apply exists_returns_loop (fun _ => True) (fun n : Nat => (c.send - (p + n)).toNat) _ trivial
    intro n _
    by_cases hgo : ok c (p + n) 1 ∧ c.base (p + n) ≠ 0
    · refine Or.inr ⟨n + 1, ?_, trivial, ?_⟩
      · simpa [Step, hgo] using returns_nameBody c p n
      · obtain ⟨⟨-, -, hle⟩, -⟩ := hgo
        push_cast
        omega
    · exact Or.inl ⟨n, by simpa [hgo] using returns_nameBody c p n⟩
  obtain ⟨n, hscan, hn⟩ := exists_of_returns_loop (NameScan c p) (by simp [NameScan])
    (fun _ _ => NameScan.step) hr
  have heq := (returns_nameBody c p n).unique hn
  split at heq
  case isTrue => exact absurd heq (by simp)
  case isFalse hstop =>
    obtain rfl := Sum.inr.inj heq
    exact ⟨n, hr, hscan, hstop⟩

theorem returns_nodeName (c : Ctx) (p : Int) : (nodeName c p).Returns (nameLen c p) := by
  obtain ⟨n, hn, hscan, hstop⟩ := returns_nameLoop c p
  unfold nodeName
  rw [returns_bind_of hn]
  by_cases hok : ok c (p + n) 1
  · rw [if_pos hok, returns_pure, eq_comm, nameLen_eq_some_iff]
    have hs : c.s ≤ p := by
      cases n with
      | zero => simpa using hok.1
      | succ n => simpa using (hscan 0 (by omega)).1.1
    have hle := hok.2.2
    refine ⟨hs, by omega, ?_, fun i hi => (hscan i hi).2⟩
    by_contra hne
    exact hstop ⟨hok, hne⟩
  · rw [if_neg hok, returns_pure, eq_comm, Option.eq_none_iff_forall_ne_some]
    intro k hk
    obtain ⟨hs, hlt, hzero, hbefore⟩ := nameLen_eq_some_iff.mp hk
    -- The scan stops at the terminator, which is in bounds.
    rcases Nat.lt_trichotomy n k with hlt' | rfl | hgt
    · exact hok ⟨by omega, by omega, by omega⟩
    · exact hok ⟨by omega, by omega, by omega⟩
    · exact (hscan k hgt).2 hzero

/-! ## Tokens -/

/-- What stands at a position, and how far the next token is.  `stop` is everything
that ends all walks: the end of the block, a property that does not fit, `FDT_END`,
any other number. -/
inductive Token where
  | node (width : Nat)
  | cutNode
  | close
  | prop (width : Nat)
  | nop
  | stop
  deriving DecidableEq, Repr

def tokenAt (c : Ctx) (p : Int) : Token :=
  if ¬ ok c p 4 then .stop
  else if be32 c.base p = fdtBeginNode then
    match nameLen c (p + 4) with
    | none => .cutNode
    | some n => .node (4 + align4 (n + 1))
  else if be32 c.base p = fdtEndNode then .close
  else if be32 c.base p = fdtProp then
    if ok c (p + 12) (be32 c.base (p + 4)) then .prop (12 + align4 (be32 c.base (p + 4))) else .stop
  else if be32 c.base p = fdtNop then .nop
  else .stop

/-- Induction along the block: each token takes at least four bytes of it. -/
theorem walk_induction (c : Ctx) {motive : Int → Prop}
    (step : ∀ p, (∀ q, ok c p 4 → p + 4 ≤ q → motive q) → motive p) (p : Int) : motive p := by
  induction hm : (c.send - p).toNat using Nat.strong_induction_on generalizing p with
  | h m ih =>
      apply step
      rintro q ⟨-, -, hle⟩ hq
      exact ih (c.send - q).toNat (by omega) q rfl

/-- The cases of `tokenAt`, in the order in which every walk tests them. -/
theorem tokenAt_cases (c : Ctx) (p : Int) :
    (¬ ok c p 4 ∧ tokenAt c p = .stop) ∨
    (ok c p 4 ∧
      ((be32 c.base p = fdtBeginNode ∧
        ((nameLen c (p + 4) = none ∧ tokenAt c p = .cutNode) ∨
          ∃ n, nameLen c (p + 4) = some n ∧ tokenAt c p = .node (4 + align4 (n + 1)))) ∨
      (be32 c.base p = fdtEndNode ∧ tokenAt c p = .close) ∨
      (be32 c.base p = fdtProp ∧
        ((ok c (p + 12) (be32 c.base (p + 4)) ∧
            tokenAt c p = .prop (12 + align4 (be32 c.base (p + 4)))) ∨
          (¬ ok c (p + 12) (be32 c.base (p + 4)) ∧ tokenAt c p = .stop))) ∨
      (be32 c.base p = fdtNop ∧ tokenAt c p = .nop) ∨
      ((be32 c.base p ≠ fdtBeginNode ∧ be32 c.base p ≠ fdtEndNode ∧ be32 c.base p ≠ fdtProp ∧
        be32 c.base p ≠ fdtNop) ∧ tokenAt c p = .stop))) := by
  unfold tokenAt
  by_cases hok : ok c p 4
  · refine Or.inr ⟨hok, ?_⟩
    by_cases hbegin : be32 c.base p = fdtBeginNode
    · cases hname : nameLen c (p + 4) <;> simp [hok, hbegin]
    by_cases hend : be32 c.base p = fdtEndNode
    · simp [hok, hend, fdtEndNode, fdtBeginNode]
    by_cases hprop : be32 c.base p = fdtProp
    · by_cases hfits : ok c (p + 12) (be32 c.base (p + 4)) <;>
        simp [hok, hprop, hfits, fdtProp, fdtEndNode, fdtBeginNode]
    by_cases hnop : be32 c.base p = fdtNop
    · simp [hok, hnop, fdtNop, fdtProp, fdtEndNode, fdtBeginNode]
    · simp [hok, hbegin, hend, hprop, hnop]
  · simp [hok]

theorem tokenAt_eq_node_iff {c : Ctx} {p : Int} {w : Nat} :
    tokenAt c p = .node w ↔
      ok c p 4 ∧ be32 c.base p = fdtBeginNode ∧
        ∃ n, nameLen c (p + 4) = some n ∧ w = 4 + align4 (n + 1) := by
  constructor
  · intro h
    unfold tokenAt at h
    split_ifs at h with hok hbegin
    refine ⟨by simpa using hok, hbegin, ?_⟩
    split at h
    case h_1 => exact absurd h (by simp)
    case h_2 n hname => exact ⟨n, hname, (Token.node.inj h).symm⟩
  · rintro ⟨hok, hbegin, n, hname, rfl⟩
    simp [tokenAt, hok, hbegin, hname]

theorem tokenAt_eq_prop_iff {c : Ctx} {p : Int} {w : Nat} :
    tokenAt c p = .prop w ↔
      ok c p 4 ∧ be32 c.base p = fdtProp ∧ ok c (p + 12) (be32 c.base (p + 4)) ∧
        w = 12 + align4 (be32 c.base (p + 4)) := by
  constructor
  · intro h
    unfold tokenAt at h
    split_ifs at h with hok hbegin hend hprop hfits
    · split at h
      · exact absurd h (by simp)
      · exact absurd h (by simp)
    · exact ⟨by simpa using hok, hprop, hfits, (Token.prop.inj h).symm⟩
  · rintro ⟨hok, hprop, hfits, rfl⟩
    simp [tokenAt, hok, hprop, hfits, fdtProp, fdtEndNode, fdtBeginNode]

theorem ok_of_tokenAt {c : Ctx} {p : Int} (h : tokenAt c p ≠ .stop) : ok c p 4 := by
  by_contra hok
  exact h (by simp [tokenAt, hok])

/-- Nothing wraps in the step over a property that fits. -/
theorem Header.prop_width {blob : Buffer} {c : Ctx} (h : Header blob c) {p : Int} (hok : ok c p 4)
    (htoken : be32 c.base p = fdtProp) {len : Nat} (hlen : ok c (p + 12) len) :
    (12 + align4 len) % 2 ^ 32 = 12 + align4 len ∧
      (8 + align4 len) % 2 ^ 32 = 8 + align4 len := by
  have hsend := h.send_lt
  have hfour := h.four_le hok.1 (by rw [htoken]; decide)
  have hle := hlen.2.2
  rw [align4_eq (by omega)]
  omega

theorem returns_slot {stack : Int → Option Int} {i v : Int} (h : stack i = some v) :
    (slot stack i).Returns v := by
  simp [slot, h]

section Bodies

variable {blob : Buffer} {c : Ctx}

/-- One iteration of `skip_node`. -/
theorem returns_skipBody (h : Header blob c) (p d : Int) :
    (skipBody c (p, d)).Returns
      (match tokenAt c p with
      | .node w => .inl (p + w, d + 1)
      | .close => if d - 1 ≤ 0 then .inr (offOf (p + 4)) else .inl (p + 4, d - 1)
      | .prop w => .inl (p + w, d)
      | .nop => .inl (p + 4, d)
      | _ => .inr (-1)) := by
  unfold skipBody
  rcases tokenAt_cases c p with ⟨hok, heq⟩ | ⟨hok, hrest⟩
  · simp [hok, heq]
  simp only [hok, not_true_eq_false, if_false, returns_rdBe32]
  rcases hrest with ⟨htoken, hname⟩ | ⟨htoken, heq⟩ | ⟨htoken, hprop⟩ | ⟨htoken, heq⟩ |
    ⟨⟨h1, h2, h3, h4⟩, heq⟩
  · rw [if_pos htoken, returns_bind_of (returns_nodeName c (p + 4))]
    rcases hname with ⟨hname, heq⟩ | ⟨n, hname, heq⟩
    · simp [heq, hname]
    · simp [heq, hname, Int.add_assoc]
  · by_cases hd : d - 1 ≤ 0 <;> simp [htoken, heq, hd, fdtEndNode, fdtBeginNode]
  · rcases hprop with ⟨hlen, heq⟩ | ⟨hlen, heq⟩
    · have hheader : ok c (p + 4) 8 := ⟨by have := hok.1; omega, by have := hok.2; omega, by
        have := hlen.2.1
        omega⟩
      have hwidth := (h.prop_width hok htoken hlen).2
      rw [show p + 12 = p + 4 + 8 by omega] at hlen
      simp [htoken, heq, hheader, hlen, fdtProp, fdtEndNode, fdtBeginNode]
      omega
    · rw [show p + 12 = p + 4 + 8 by omega] at hlen
      by_cases hheader : ok c (p + 4) 8 <;>
        simp [htoken, heq, hheader, hlen, fdtProp, fdtEndNode, fdtBeginNode]
  · simp [htoken, heq, fdtNop, fdtProp, fdtEndNode, fdtBeginNode]
  · simp [h1, h2, h3, h4, heq]

/-- `after_name` succeeds at a node whose name ends inside the block. -/
theorem returns_afterName (c : Ctx) (p : Int) :
    (afterName c p).Returns
      (match tokenAt c p with
      | .node w => some (p + w)
      | _ => none) := by
  unfold afterName
  rcases tokenAt_cases c p with ⟨hok, heq⟩ | ⟨hok, hrest⟩
  · simp [hok, heq]
  simp only [hok, not_true_eq_false, if_false, returns_rdBe32]
  rcases hrest with ⟨htoken, hname⟩ | ⟨htoken, heq⟩ | ⟨htoken, hprop⟩ | ⟨htoken, heq⟩ |
    ⟨⟨hne, -⟩, heq⟩
  · rw [if_neg (by simp [htoken]), returns_bind_of (returns_nodeName c (p + 4))]
    rcases hname with ⟨hname, heq⟩ | ⟨n, hname, heq⟩
    · simp [heq, hname]
    · simp [heq, hname, Int.add_assoc]
  · simp [htoken, heq, fdtEndNode, fdtBeginNode]
  · rcases hprop with ⟨-, heq⟩ | ⟨-, heq⟩ <;> simp [htoken, heq, fdtProp, fdtBeginNode]
  · simp [htoken, heq, fdtNop, fdtBeginNode]
  · simp [hne, heq]

/-- One iteration of `fdt_first_child`. -/
theorem returns_firstChildBody (h : Header blob c) (p : Int) :
    (firstChildBody c p).Returns
      (match tokenAt c p with
      | .node _ => .inr (offOf p)
      | .cutNode => .inr (offOf p)
      | .prop w => .inl (p + w)
      | .nop => .inl (p + 4)
      | _ => .inr fdtErrNode) := by
  unfold firstChildBody
  rcases tokenAt_cases c p with ⟨hok, heq⟩ | ⟨hok, hrest⟩
  · simp [hok, heq]
  simp only [hok, not_true_eq_false, if_false, returns_rdBe32]
  rcases hrest with ⟨htoken, hname⟩ | ⟨htoken, heq⟩ | ⟨htoken, hprop⟩ | ⟨htoken, heq⟩ |
    ⟨⟨h1, h2, h3, h4⟩, heq⟩
  · rcases hname with ⟨-, heq⟩ | ⟨n, -, heq⟩ <;> simp [heq, htoken]
  · simp [htoken, heq, fdtEndNode, fdtBeginNode]
  · rcases hprop with ⟨hlen, heq⟩ | ⟨hlen, heq⟩
    · have hwidth := (h.prop_width hok htoken hlen).1
      simp [htoken, heq, hlen, fdtProp, fdtEndNode, fdtBeginNode]
      omega
    · simp [htoken, heq, hlen, fdtProp, fdtEndNode, fdtBeginNode]
  · simp [htoken, heq, fdtNop, fdtProp, fdtEndNode, fdtBeginNode]
  · simp [h1, h2, h3, h4, heq]

/-- One iteration of the last loop of `fdt_next_sibling`. -/
theorem returns_siblingBody (c : Ctx) (p : Int) :
    (siblingBody c p).Returns
      (match tokenAt c p with
      | .node _ => .inr (offOf p)
      | .cutNode => .inr (offOf p)
      | .nop => .inl (p + 4)
      | _ => .inr fdtErrNode) := by
  unfold siblingBody
  rcases tokenAt_cases c p with ⟨hok, heq⟩ | ⟨hok, hrest⟩
  · simp [hok, heq]
  simp only [hok, not_true_eq_false, if_false, returns_rdBe32]
  rcases hrest with ⟨htoken, hname⟩ | ⟨htoken, heq⟩ | ⟨htoken, hprop⟩ | ⟨htoken, heq⟩ |
    ⟨⟨h1, h2, -, h4⟩, heq⟩
  · rcases hname with ⟨-, heq⟩ | ⟨n, -, heq⟩ <;> simp [heq, htoken]
  · simp [htoken, heq, fdtEndNode, fdtBeginNode]
  · rcases hprop with ⟨-, heq⟩ | ⟨-, heq⟩ <;>
      simp [htoken, heq, fdtProp, fdtNop, fdtEndNode, fdtBeginNode]
  · simp [htoken, heq, fdtNop, fdtEndNode, fdtBeginNode]
  · simp [h1, h2, h4, heq]

/-- One iteration of `fdt_parent_offset` that is not at the node asked for. -/
theorem returns_parentBody (h : Header blob c) {n : Int} {w : ParentWalk}
    (hne : ∀ width, tokenAt c w.p = .node width → offOf w.p ≠ n) :
    (parentBody c n w).Returns
      (match tokenAt c w.p with
      | .node width =>
          .inl ⟨w.p + width, w.depth + 1,
            if w.depth + 1 < fdtMaxDepth then
              Function.update w.stack (w.depth + 1) (some (offOf w.p))
            else w.stack⟩
      | .close =>
          if w.depth - 1 < 0 then .inr fdtErrNode else .inl ⟨w.p + 4, w.depth - 1, w.stack⟩
      | .prop width => .inl ⟨w.p + width, w.depth, w.stack⟩
      | .nop => .inl ⟨w.p + 4, w.depth, w.stack⟩
      | _ => .inr fdtErrNode) := by
  unfold parentBody
  rcases tokenAt_cases c w.p with ⟨hok, heq⟩ | ⟨hok, hrest⟩
  · simp [hok, heq]
  simp only [hok, not_true_eq_false, if_false, returns_rdBe32]
  rcases hrest with ⟨htoken, hname⟩ | ⟨htoken, heq⟩ | ⟨htoken, hprop⟩ | ⟨htoken, heq⟩ |
    ⟨⟨h1, h2, h3, h4⟩, heq⟩
  · rw [if_pos htoken, returns_bind_of (returns_nodeName c (w.p + 4))]
    rcases hname with ⟨hname, heq⟩ | ⟨k, hname, heq⟩
    · simp [heq, hname]
    · simp [heq, hname, hne _ heq, Int.add_assoc]
  · by_cases hd : w.depth - 1 < 0 <;> simp [htoken, heq, hd, fdtEndNode, fdtBeginNode]
  · rcases hprop with ⟨hlen, heq⟩ | ⟨hlen, heq⟩
    · have hwidth := (h.prop_width hok htoken hlen).2
      rw [show w.p + 12 = w.p + 4 + 8 by omega] at hlen
      simp [htoken, heq, hlen, fdtProp, fdtEndNode, fdtBeginNode]
      omega
    · rw [show w.p + 12 = w.p + 4 + 8 by omega] at hlen
      simp [htoken, heq, hlen, fdtProp, fdtEndNode, fdtBeginNode]
  · simp [htoken, heq, fdtNop, fdtProp, fdtEndNode, fdtBeginNode]
  · simp [h1, h2, h3, h4, heq]

/-- The iteration of `fdt_parent_offset` that is at the node asked for. -/
theorem returns_parentBody_of_eq {n : Int} {w : ParentWalk} {width : Nat}
    (htoken : tokenAt c w.p = .node width) (hn : offOf w.p = n) {r : Int}
    (hr : if w.depth < 0 ∨ fdtMaxDepth ≤ w.depth then r = fdtErrNode
      else w.stack w.depth = some r) :
    (parentBody c n w).Returns (.inr r) := by
  obtain ⟨hok, hbegin, k, hname, -⟩ := tokenAt_eq_node_iff.mp htoken
  unfold parentBody
  simp only [hok, not_true_eq_false, if_false, returns_rdBe32, hbegin, if_true]
  rw [returns_bind_of (returns_nodeName c (w.p + 4)), hname]
  simp only [hn, if_true]
  by_cases hcap : w.depth < 0 ∨ fdtMaxDepth ≤ w.depth
  · rw [if_pos hcap] at hr
    rw [if_pos (by omega), hr]
    simp
  · rw [if_neg hcap] at hr
    -- The slot of the parent is not the one that has just been written.
    have hslot : (if w.depth + 1 < fdtMaxDepth then
        Function.update w.stack (w.depth + 1) (some n) else w.stack) (w.depth + 1 - 1) =
          some r := by
      rw [show w.depth + 1 - 1 = w.depth by omega]
      split
      · rw [Function.update_of_ne (by omega)]
        exact hr
      · exact hr
    rw [if_neg (by omega), returns_bind_of (returns_slot hslot)]
    simp

end Bodies

end Fdt
end Saski
