import Saski.Fdt.Tokens

/-!
# What the walks return

`marks` reads the structure block from any position as a stream of brackets, and
each walk of `lib/fdt.c` returns what the reader of that name in `Nesting` finds in
this stream:

* `returns_fdtFirstChild`: the first bracket inside the node,
* `returns_fdtParentOffset`: the bracket around the node, up to the depth cap,
* `returns_fdtNextSibling`: the bracket after the node, if the parent is right.

They hold for every blob whose total size is below 2^31, however malformed, and they
include that the walks end.
-/

namespace Saski
namespace Fdt

open Capnp Logged Prog Nesting

/-- The tokens from `p` on, as long as there are any. -/
def marksFrom (c : Ctx) : (fuel : Nat) → (p : Int) → List (Mark Int)
  | 0, _ => []
  | fuel + 1, p =>
      match tokenAt c p with
      | .node w => .opening p :: marksFrom c fuel (p + w)
      | .cutNode => [.broken p]
      | .close => .closing :: marksFrom c fuel (p + 4)
      | .prop w => .content :: marksFrom c fuel (p + w)
      | .nop => .gap :: marksFrom c fuel (p + 4)
      | .stop => []

/-- The stream from `p` on. -/
def marks (c : Ctx) (p : Int) : List (Mark Int) := marksFrom c (c.send - p).toNat p

theorem four_le_node {c : Ctx} {p : Int} {w : Nat} (h : tokenAt c p = .node w) : 4 ≤ w := by
  obtain ⟨-, -, n, -, rfl⟩ := tokenAt_eq_node_iff.mp h
  omega

theorem four_le_prop {c : Ctx} {p : Int} {w : Nat} (h : tokenAt c p = .prop w) : 4 ≤ w := by
  obtain ⟨-, -, -, rfl⟩ := tokenAt_eq_prop_iff.mp h
  omega

theorem marksFrom_eq {c : Ctx} {p : Int} {f g : Nat} (hf : (c.send - p).toNat ≤ f)
    (hg : (c.send - p).toNat ≤ g) : marksFrom c f p = marksFrom c g p := by
  induction f generalizing g p with
  | zero =>
      have hstop : tokenAt c p = .stop := by
        by_contra hne
        obtain ⟨-, -, hle⟩ := ok_of_tokenAt hne
        omega
      cases g with
      | zero => rfl
      | succ g => simp [marksFrom, hstop]
  | succ f ih =>
      cases g with
      | zero =>
          have hstop : tokenAt c p = .stop := by
            by_contra hne
            obtain ⟨-, -, hle⟩ := ok_of_tokenAt hne
            omega
          simp [marksFrom, hstop]
      | succ g =>
          unfold marksFrom
          cases htoken : tokenAt c p with
          | node w =>
              have hw := four_le_node htoken
              simp only
              rw [ih (g := g) (by omega) (by omega)]
          | cutNode => rfl
          | close =>
              simp only
              rw [ih (g := g) (by omega) (by omega)]
          | prop w =>
              have hw := four_le_prop htoken
              simp only
              rw [ih (g := g) (by omega) (by omega)]
          | nop =>
              simp only
              rw [ih (g := g) (by omega) (by omega)]
          | stop => rfl

/-- One token of the stream. -/
theorem marks_eq (c : Ctx) (p : Int) :
    marks c p =
      match tokenAt c p with
      | .node w => .opening p :: marks c (p + w)
      | .cutNode => [.broken p]
      | .close => .closing :: marks c (p + 4)
      | .prop w => .content :: marks c (p + w)
      | .nop => .gap :: marks c (p + 4)
      | .stop => [] := by
  have hfuel : marks c p = marksFrom c ((c.send - p).toNat + 1) p :=
    marksFrom_eq le_rfl (by omega)
  rw [hfuel]
  unfold marksFrom marks
  cases htoken : tokenAt c p with
  | node w =>
      have hw := four_le_node htoken
      simp only
      rw [marksFrom_eq le_rfl (show (c.send - (p + w)).toNat ≤ (c.send - p).toNat by omega)]
  | cutNode => rfl
  | close =>
      simp only
      rw [marksFrom_eq le_rfl (show (c.send - (p + 4)).toNat ≤ (c.send - p).toNat by omega)]
  | prop w =>
      have hw := four_le_prop htoken
      simp only
      rw [marksFrom_eq le_rfl (show (c.send - (p + w)).toNat ≤ (c.send - p).toNat by omega)]
  | nop =>
      simp only
      rw [marksFrom_eq le_rfl (show (c.send - (p + 4)).toNat ≤ (c.send - p).toNat by omega)]
  | stop => rfl

theorem marks_of_node {c : Ctx} {p : Int} {w : Nat} (h : tokenAt c p = .node w) :
    marks c p = .opening p :: marks c (p + w) := by
  rw [marks_eq, h]

theorem node_of_marks {c : Ctx} {p : Int} {r : List (Mark Int)}
    (h : marks c p = .opening p :: r) : ∃ w, tokenAt c p = .node w ∧ r = marks c (p + w) := by
  rw [marks_eq] at h
  cases htoken : tokenAt c p with
  | node w =>
      rw [htoken] at h
      exact ⟨w, rfl, (List.cons.inj h).2.symm⟩
  | cutNode => simp [htoken] at h
  | close => simp [htoken] at h
  | prop w => simp [htoken] at h
  | nop => simp [htoken] at h
  | stop => simp [htoken] at h

/-- Where a node is, the stream opens a bracket with its offset. -/
def OpensAt (c : Ctx) (p : Int) (m : Mark Int) : Prop :=
  (m = .opening p ∧ ∃ w, tokenAt c p = .node w) ∨ (m = .broken p ∧ tokenAt c p = .cutNode)

/-- A stream is empty, or one mark and the stream from a later position. -/
theorem marks_cases (c : Ctx) (p : Int) :
    (tokenAt c p = .stop ∧ marks c p = []) ∨
      ∃ m q, marks c p = m :: marks c q ∧ ok c p 4 ∧ p + 4 ≤ q ∧
        ∀ b, m.label? = some b → b = p ∧ OpensAt c p m := by
  by_cases hstop : tokenAt c p = .stop
  · exact Or.inl ⟨hstop, by rw [marks_eq, hstop]⟩
  have hok := ok_of_tokenAt hstop
  rw [marks_eq]
  right
  cases htoken : tokenAt c p with
  | node w =>
      have hw := four_le_node htoken
      refine ⟨.opening p, p + w, rfl, hok, by omega, fun b hb => ?_⟩
      exact ⟨(Option.some.inj hb).symm, Or.inl ⟨rfl, w, htoken⟩⟩
  | cutNode =>
      -- Nothing follows, as if from the end of the block.
      have hend : marks c (c.send + 4) = [] := by
        have hnot : ¬ ok c (c.send + 4) 4 := fun hok => by
          have := hok.2.1
          omega
        rw [marks_eq, show tokenAt c (c.send + 4) = .stop by simp [tokenAt, hnot]]
      have hle := hok.2.1
      refine ⟨.broken p, c.send + 4, by rw [hend], hok, by omega, fun b hb => ?_⟩
      exact ⟨(Option.some.inj hb).symm, Or.inr ⟨rfl, htoken⟩⟩
  | close =>
      exact ⟨.closing, p + 4, rfl, hok, le_rfl, fun b hb => absurd hb (by simp [Mark.label?])⟩
  | prop w =>
      have hw := four_le_prop htoken
      exact ⟨.content, p + w, rfl, hok, by omega, fun b hb => absurd hb (by simp [Mark.label?])⟩
  | nop => exact ⟨.gap, p + 4, rfl, hok, le_rfl, fun b hb => absurd hb (by simp [Mark.label?])⟩
  | stop => exact absurd htoken hstop

/-- A bracket opens where a node is, at or behind the start of the stream. -/
theorem mem_marks {c : Ctx} {p b : Int} {m : Mark Int} (hm : m ∈ marks c p)
    (hb : m.label? = some b) : p ≤ b ∧ OpensAt c b m := by
  induction p using walk_induction c with
  | step p ih =>
      obtain ⟨-, hempty⟩ | ⟨m', q, hcons, hok, hq, hlabel⟩ := marks_cases c p
      · rw [hempty] at hm
        exact absurd hm List.not_mem_nil
      · rw [hcons] at hm
        rcases List.mem_cons.mp hm with rfl | hm
        · obtain ⟨rfl, hopens⟩ := hlabel b hb
          exact ⟨le_rfl, hopens⟩
        · have hrest := ih q hok hq hm
          exact ⟨by omega, hrest.2⟩

/-- The structure block as a stream of brackets, labelled with the offsets of the
nodes. -/
def stream (c : Ctx) : Stream Int where
  marks := marks c
  at_label := by
    intro p a pre r m hsplit ha
    induction p using walk_induction c generalizing pre with
    | step p ih =>
        obtain ⟨-, hempty⟩ | ⟨m', q, hcons, hok, hq, hlabel⟩ := marks_cases c p
        · exact absurd (hempty.symm.trans hsplit) (by simp)
        · cases pre with
          | nil =>
              obtain ⟨rfl, -⟩ := List.cons.inj (hcons.symm.trans hsplit)
              obtain ⟨rfl, -⟩ := hlabel a ha
              exact hsplit
          | cons x pre =>
              obtain ⟨-, hrest⟩ := List.cons.inj (hcons.symm.trans hsplit)
              exact ih q hok hq hrest
  label_lt := by
    intro a b r m n hsplit ha hn hb
    obtain ⟨-, hempty⟩ | ⟨m', q, hcons, -, hq, -⟩ := marks_cases c a
    · exact absurd (hempty.symm.trans hsplit) (by simp)
    · obtain ⟨-, rfl⟩ := List.cons.inj (hcons.symm.trans hsplit)
      have hle := (mem_marks hn hb).1
      omega

@[simp] theorem stream_marks (c : Ctx) : (stream c).marks = marks c := rfl

/-! ## Results of the walks -/

/-- A blob that `ctx_init` accepts and whose offsets are all node offsets. -/
structure SmallBlob (blob : Buffer) (c : Ctx) : Prop extends Header blob c where
  small : be32 blob.bytes 4 < 2 ^ 31

theorem smallBlob_of_fdtValid {blob : Buffer} {size : Nat} (h : (fdtValid blob size).value = true)
    (hsmall : be32 blob.bytes 4 < 2 ^ 31) : SmallBlob blob (ctxOf blob) :=
  ⟨header_of_fdtValid h, hsmall⟩

section Walks

variable {blob : Buffer} {c : Ctx} (h : SmallBlob blob c)

include h

theorem SmallBlob.offOf_eq {p : Int} (hp : c.s ≤ p) (hle : p ≤ c.send) : offOf p = p := by
  have hs := h.s_nonneg
  have hstruct := h.struct_le
  have hsmall := h.small
  exact Fdt.offOf_eq (by omega) (by omega)

theorem SmallBlob.offOf_token {p : Int} (hp : ok c p 4) : offOf p = p :=
  h.offOf_eq hp.1 hp.2.1

theorem returns_firstChildLoop (p : Int) :
    (loop (firstChildBody c) p).Returns ((firstInside (marks c p)).getD fdtErrNode) := by
  induction p using walk_induction c with
  | step p ih =>
      have hbody := returns_firstChildBody h.toHeader p
      rw [marks_eq]
      cases htoken : tokenAt c p with
      | stop =>
          rw [htoken] at hbody
          exact returns_loop_of_done hbody
      | close =>
          rw [htoken] at hbody
          exact returns_loop_of_done hbody
      | node w =>
          rw [htoken, h.offOf_token (ok_of_tokenAt (by simp [htoken]))] at hbody
          exact returns_loop_of_done hbody
      | cutNode =>
          rw [htoken, h.offOf_token (ok_of_tokenAt (by simp [htoken]))] at hbody
          exact returns_loop_of_done hbody
      | prop w =>
          have hw := four_le_prop htoken
          rw [htoken] at hbody
          exact returns_loop_of_step hbody
            (ih (p + w) (ok_of_tokenAt (by simp [htoken])) (by omega))
      | nop =>
          rw [htoken] at hbody
          exact returns_loop_of_step hbody (ih (p + 4) (ok_of_tokenAt (by simp [htoken])) le_rfl)

theorem returns_siblingLoop (p : Int) :
    (loop (siblingBody c) p).Returns ((nextOpening (marks c p)).getD fdtErrNode) := by
  induction p using walk_induction c with
  | step p ih =>
      have hbody := returns_siblingBody c p
      rw [marks_eq]
      cases htoken : tokenAt c p with
      | stop =>
          rw [htoken] at hbody
          exact returns_loop_of_done hbody
      | close =>
          rw [htoken] at hbody
          exact returns_loop_of_done hbody
      | prop w =>
          rw [htoken] at hbody
          exact returns_loop_of_done hbody
      | node w =>
          rw [htoken, h.offOf_token (ok_of_tokenAt (by simp [htoken]))] at hbody
          exact returns_loop_of_done hbody
      | cutNode =>
          rw [htoken, h.offOf_token (ok_of_tokenAt (by simp [htoken]))] at hbody
          exact returns_loop_of_done hbody
      | nop =>
          rw [htoken] at hbody
          exact returns_loop_of_step hbody (ih (p + 4) (ok_of_tokenAt (by simp [htoken])) le_rfl)

/-- `skip_node` inside `d` nodes: it fails, or arrives behind the one it is to skip. -/
theorem returns_skipLoop (p : Int) (d : Nat) (hd : 1 ≤ d) :
    (skip d (marks c p) = none ∧ (loop (skipBody c) (p, d)).Returns (-1)) ∨
      ∃ e, skip d (marks c p) = some (marks c e) ∧ 0 ≤ e ∧
        (loop (skipBody c) (p, d)).Returns e := by
  induction p using walk_induction c generalizing d with
  | step p ih =>
      have hbody := returns_skipBody h.toHeader p d
      rw [marks_eq]
      cases htoken : tokenAt c p with
      | stop =>
          rw [htoken] at hbody
          exact Or.inl ⟨rfl, returns_loop_of_done hbody⟩
      | cutNode =>
          rw [htoken] at hbody
          exact Or.inl ⟨rfl, returns_loop_of_done hbody⟩
      | node w =>
          have hw := four_le_node htoken
          rw [htoken] at hbody
          rcases ih (p + w) (ok_of_tokenAt (by simp [htoken])) (by omega) (d + 1) (by omega) with
            ⟨hskip, hr⟩ | ⟨e, hskip, he, hr⟩
          · exact Or.inl ⟨hskip, returns_loop_of_step hbody hr⟩
          · exact Or.inr ⟨e, hskip, he, returns_loop_of_step hbody hr⟩
      | prop w =>
          have hw := four_le_prop htoken
          rw [htoken] at hbody
          rcases ih (p + w) (ok_of_tokenAt (by simp [htoken])) (by omega) d hd with
            ⟨hskip, hr⟩ | ⟨e, hskip, he, hr⟩
          · exact Or.inl ⟨hskip, returns_loop_of_step hbody hr⟩
          · exact Or.inr ⟨e, hskip, he, returns_loop_of_step hbody hr⟩
      | nop =>
          rw [htoken] at hbody
          rcases ih (p + 4) (ok_of_tokenAt (by simp [htoken])) le_rfl d hd with
            ⟨hskip, hr⟩ | ⟨e, hskip, he, hr⟩
          · exact Or.inl ⟨hskip, returns_loop_of_step hbody hr⟩
          · exact Or.inr ⟨e, hskip, he, returns_loop_of_step hbody hr⟩
      | close =>
          have hok := ok_of_tokenAt (show tokenAt c p ≠ .stop by simp [htoken])
          have hs := h.s_nonneg
          have hle := hok.1
          have hfits := hok.2.2
          rw [htoken] at hbody
          by_cases hlast : d ≤ 1
          · simp only [show (d : Int) - 1 ≤ 0 by omega, if_true,
              h.offOf_eq (show c.s ≤ p + 4 by omega) (by omega)] at hbody
            refine Or.inr ⟨p + 4, by simp [skip, hlast], by omega, returns_loop_of_done hbody⟩
          · simp only [show ¬ (d : Int) - 1 ≤ 0 by omega, if_false] at hbody
            rw [show (d : Int) - 1 = ((d - 1 : Nat) : Int) by omega] at hbody
            simp only [skip, if_neg hlast]
            rcases ih (p + 4) hok le_rfl (d - 1) (by omega) with ⟨hskip, hr⟩ | ⟨e, hskip, he, hr⟩
            · exact Or.inl ⟨hskip, returns_loop_of_step hbody hr⟩
            · exact Or.inr ⟨e, hskip, he, returns_loop_of_step hbody hr⟩

end Walks

/-! ## The arrays of offsets -/

/-- The array holds the offsets of the open nodes, outermost first, as far as it
goes. -/
structure Holds (st : List Int) (depth : Int) (stack : Int → Option Int) : Prop where
  depth_eq : depth = st.length - 1
  slots : ∀ i : Nat, i < st.length → i < fdtMaxDepth → stack i = st.reverse[i]?

section Holds

variable {a depth : Int} {st : List Int} {stack : Int → Option Int}

theorem Holds.nil : Holds [] (-1) stack := ⟨rfl, fun i hi => absurd hi (by simp)⟩

theorem Holds.push (h : Holds st depth stack) (a : Int) :
    Holds (a :: st) (depth + 1)
      (if depth + 1 < fdtMaxDepth then Function.update stack (depth + 1) (some a)
        else stack) where
  depth_eq := by
    rw [h.depth_eq, List.length_cons]
    omega
  slots := by
    intro i hi hcap
    rw [List.length_cons] at hi
    have hdepth : depth + 1 = st.length := by
      rw [h.depth_eq]
      omega
    rw [List.reverse_cons, hdepth]
    rcases Nat.lt_succ_iff_lt_or_eq.mp hi with hlt | rfl
    · rw [List.getElem?_append_left (by simpa using hlt), ← h.slots i hlt hcap]
      split
      · exact Function.update_of_ne (by omega) _ _
      · rfl
    · rw [if_pos (by exact_mod_cast hcap)]
      simp

theorem Holds.pop (h : Holds (a :: st) depth stack) : Holds st (depth - 1) stack where
  depth_eq := by
    rw [h.depth_eq, List.length_cons]
    omega
  slots := by
    intro i hi hcap
    have hslot := h.slots i (by rw [List.length_cons]; omega) hcap
    rwa [List.reverse_cons, List.getElem?_append_left (by simpa using hi)] at hslot

theorem Holds.top (h : Holds (a :: st) depth stack) (hcap : st.length < fdtMaxDepth) :
    stack depth = some a := by
  have hslot := h.slots st.length (by simp) hcap
  rw [show depth = st.length by rw [h.depth_eq]; simp, hslot]
  simp

end Holds

section Walks

variable {blob : Buffer} {c : Ctx} (h : SmallBlob blob c)

include h

/-- From anywhere in the block, the walk finds the node around the one asked for. -/
theorem returns_parentLoop (n p : Int) {st : List Int} {w : ParentWalk}
    (hw : Holds st w.depth w.stack) (hp : w.p = p) :
    (loop (parentBody c n) w).Returns
      ((parentIn fdtMaxDepth n st (marks c p)).getD fdtErrNode) := by
  induction p using walk_induction c generalizing st w with
  | step p ih =>
      subst hp
      rw [marks_eq]
      by_cases htarget : (∃ width, tokenAt c w.p = .node width) ∧ offOf w.p = n
      · obtain ⟨⟨width, htoken⟩, hn⟩ := htarget
        rw [h.offOf_token (ok_of_tokenAt (by simp [htoken]))] at hn
        have hn' := h.offOf_token (ok_of_tokenAt (show tokenAt c w.p ≠ .stop by simp [htoken]))
        apply returns_loop_of_done
        apply returns_parentBody_of_eq htoken (hn'.trans hn)
        have hdepth := hw.depth_eq
        rw [htoken]
        simp only [parentIn, hn, if_true]
        cases st with
        | nil => simp [hdepth]
        | cons a st =>
            rw [List.length_cons] at hdepth ⊢
            by_cases hcap : st.length < fdtMaxDepth
            · rw [if_neg (by omega), if_pos (by omega), hw.top hcap]
              rfl
            · rw [if_pos (by omega), if_neg (by omega)]
              rfl
      · have hbody := returns_parentBody h.toHeader (n := n) (w := w)
          fun width htoken heq => htarget ⟨⟨width, htoken⟩, heq⟩
        cases htoken : tokenAt c w.p with
        | stop =>
            rw [htoken] at hbody
            exact returns_loop_of_done hbody
        | cutNode =>
            rw [htoken] at hbody
            exact returns_loop_of_done hbody
        | node width =>
            have hwidth := four_le_node htoken
            have hok := ok_of_tokenAt (show tokenAt c w.p ≠ .stop by simp [htoken])
            have hne : w.p ≠ n := fun heq =>
              htarget ⟨⟨width, htoken⟩, (h.offOf_token hok).trans heq⟩
            rw [htoken, h.offOf_token hok] at hbody
            simp only [parentIn, Mark.opening.injEq, hne, if_false]
            exact returns_loop_of_step hbody (ih _ hok (by omega) (hw.push w.p) rfl)
        | close =>
            have hok := ok_of_tokenAt (show tokenAt c w.p ≠ .stop by simp [htoken])
            simp only [htoken] at hbody
            simp only [parentIn, reduceCtorEq, if_false]
            rcases st with _ | ⟨a, _ | ⟨b, st⟩⟩
            · rw [if_pos (by rw [hw.depth_eq]; simp)] at hbody
              exact returns_loop_of_done hbody
            · rw [if_pos (by rw [hw.depth_eq]; simp)] at hbody
              exact returns_loop_of_done hbody
            · rw [if_neg (by rw [hw.depth_eq]; simp only [List.length_cons]; omega)] at hbody
              exact returns_loop_of_step hbody (ih _ hok le_rfl hw.pop rfl)
        | prop width =>
            have hwidth := four_le_prop htoken
            have hok := ok_of_tokenAt (show tokenAt c w.p ≠ .stop by simp [htoken])
            rw [htoken] at hbody
            exact returns_loop_of_step hbody (ih _ hok (by omega) hw rfl)
        | nop =>
            have hok := ok_of_tokenAt (show tokenAt c w.p ≠ .stop by simp [htoken])
            rw [htoken] at hbody
            exact returns_loop_of_step hbody (ih _ hok le_rfl hw rfl)

theorem returns_ctxInit {β : Type} (k : Option Ctx → Prog Access β) (b : β) :
    ((liftM (ctxInit blob) : Prog Access (Option Ctx)) >>= k).Returns b ↔
      (k (some c)).Returns b := by
  rw [returns_liftM_bind, (value_ctxInit blob c).mpr h.toHeader]

/-- `fdt_first_child` returns the first bracket inside the node. -/
theorem returns_fdtFirstChild (n : Int) :
    (fdtFirstChild blob n).Returns ((firstChild (marks c n)).getD fdtErrNode) := by
  unfold fdtFirstChild
  rw [returns_ctxInit h]
  simp only
  rw [returns_bind_of (returns_afterName c n), marks_eq]
  cases htoken : tokenAt c n with
  | node w => exact returns_firstChildLoop h (n + w)
  | cutNode => simp [firstChild]
  | close => simp [firstChild]
  | prop w => simp [firstChild]
  | nop => simp [firstChild]
  | stop => simp [firstChild]

end Walks

/-- The offset of the node around the one at `n`, as `fdt_parent_offset` gives it. -/
def parentOf (c : Ctx) (n : Int) : Int :=
  (parentIn fdtMaxDepth n [] (marks c c.s)).getD fdtErrNode

section Walks

variable {blob : Buffer} {c : Ctx} (h : SmallBlob blob c)

/-- A parent is a node of the block. -/
theorem reaches_of_parentOf {c : Ctx} {n parent : Int} (hn : parentOf c n = parent)
    (hparent : parent ≠ fdtErrNode) :
    ∃ st r, (stream c).Reaches c.s (parent :: st) n ∧ marks c n = .opening n :: r ∧
      st.length < fdtMaxDepth := by
  unfold parentOf at hn
  cases hfound : parentIn fdtMaxDepth n [] (marks c c.s) with
  | none =>
      rw [hfound] at hn
      exact absurd hn.symm hparent
  | some a =>
      rw [hfound] at hn
      obtain rfl : a = parent := hn
      exact Stream.reaches_of_parentIn hfound

include h

/-- `fdt_parent_offset` returns the bracket around the node. -/
theorem returns_fdtParentOffset (n : Int) : (fdtParentOffset blob n).Returns (parentOf c n) := by
  unfold fdtParentOffset
  rw [returns_ctxInit h]
  exact returns_parentLoop h n c.s Holds.nil rfl

/-- `fdt_next_sibling` returns the bracket after the node, if it is given the right
parent. -/
theorem returns_fdtNextSibling {parent : Int} (hparent : parent ≠ fdtErrNode) (n : Int) :
    (fdtNextSibling blob parent n).Returns
      (if parentOf c n = parent then (nextSibling (marks c n)).getD fdtErrNode
        else fdtErrNode) := by
  unfold fdtNextSibling
  rw [returns_ctxInit h]
  simp only
  rw [returns_bind_of (returns_fdtParentOffset h n)]
  by_cases hn : parentOf c n = parent
  · obtain ⟨-, r, -, hopen, -⟩ := reaches_of_parentOf hn hparent
    -- The parent was found, so there is a node at `n` to skip.
    obtain ⟨w, htoken, -⟩ := node_of_marks hopen
    have hbody := returns_skipBody h.toHeader n 0
    rw [htoken] at hbody
    rw [marks_of_node htoken]
    simp only [hn, ne_eq, not_true_eq_false, if_false, if_true, nextSibling]
    rcases returns_skipLoop h (n + w) 1 le_rfl with ⟨hskip, hr⟩ | ⟨e, hskip, he, hr⟩
    · have hnode : (skipNode c n).Returns (-1) := returns_loop_of_step hbody hr
      rw [returns_bind_of hnode, hskip]
      simp
    · have hnode : (skipNode c n).Returns e := returns_loop_of_step hbody hr
      rw [returns_bind_of hnode, hskip, if_neg (by omega)]
      exact returns_siblingLoop h e
  · simp [hn]

end Walks

end Fdt
end Saski
