import Mathlib.Tactic

/-!
# Nested brackets in a stream

A stream of marks opens and closes brackets.  Each opening mark carries a label,
and inside a bracket the marks come in a fixed order as far as the readers below
care: contents first, then the inner brackets, with gaps anywhere.  A `broken` mark
opens a bracket and ends the stream.

Three readers are compared.

* `enclosing` keeps the labels of the brackets that are open, innermost first.
  It gives up where the outermost bracket closes.
* `skip` counts brackets until the innermost one it started in is closed.
* `siblings` and `children` list the brackets directly inside one.

The main facts are that skipping a bracket leaves what is open as it was
(`neutral_of_skip`), and that the brackets a reader lists inside one are enclosed
by exactly that one (`Stream.Reaches.child`).
-/

namespace Nesting

variable {α : Type}

/-- The marks of a stream. -/
inductive Mark (α : Type) where
  | opening (a : α)
  | broken (a : α)
  | closing
  | content
  | gap
  deriving DecidableEq, Repr

/-- What one mark does to the brackets that are open. -/
def Mark.act : Mark α → List α → Option (List α)
  | .opening a, st => some (a :: st)
  | .closing, _ :: b :: st => some (b :: st)
  | .content, st => some st
  | .gap, st => some st
  | _, _ => none

/-- The brackets that are open after the marks, unless the outermost was closed. -/
def enclosing (st : List α) (l : List (Mark α)) : Option (List α) :=
  l.foldlM (fun st m => m.act st) st

@[simp] theorem enclosing_nil (st : List α) : enclosing st [] = some st := rfl

theorem enclosing_cons (st : List α) (m : Mark α) (l : List (Mark α)) :
    enclosing st (m :: l) = m.act st >>= fun st' => enclosing st' l := by
  simp [enclosing]

theorem enclosing_append (st : List α) (l r : List (Mark α)) :
    enclosing st (l ++ r) = enclosing st l >>= fun st' => enclosing st' r := by
  simp [enclosing]

theorem enclosing_append_of_some {st st' : List α} {l : List (Mark α)}
    (h : enclosing st l = some st') (r : List (Mark α)) :
    enclosing st (l ++ r) = enclosing st' r := by
  rw [enclosing_append, h]
  rfl

theorem enclosing_gaps (st : List α) (k : Nat) :
    enclosing st (List.replicate k .gap) = some st := by
  induction k with
  | zero => rfl
  | succ k ih => exact ih

/-! ## Neutral parts of a stream -/

/-- The marks leave the open brackets as they were. -/
def Neutral (l : List (Mark α)) : Prop := ∀ st, st ≠ [] → enclosing st l = some st

theorem Neutral.nil : Neutral ([] : List (Mark α)) := fun _ _ => rfl

theorem Neutral.append {l r : List (Mark α)} (hl : Neutral l) (hr : Neutral r) :
    Neutral (l ++ r) := by
  intro st hst
  rw [enclosing_append_of_some (hl st hst)]
  exact hr st hst

theorem Neutral.gap {l : List (Mark α)} (hl : Neutral l) : Neutral (.gap :: l) := by
  intro st hst
  rw [enclosing_cons]
  exact hl st hst

theorem Neutral.content {l : List (Mark α)} (hl : Neutral l) : Neutral (.content :: l) := by
  intro st hst
  rw [enclosing_cons]
  exact hl st hst

/-! ## Skipping -/

/-- What follows the mark that closes the `depth`-th open bracket from inside. -/
def skip : (depth : Nat) → List (Mark α) → Option (List (Mark α))
  | _, [] => none
  | d, .opening _ :: l => skip (d + 1) l
  | _, .broken _ :: _ => none
  | d, .closing :: l => if d ≤ 1 then some l else skip (d - 1) l
  | d, .content :: l => skip d l
  | d, .gap :: l => skip d l

/-- Skipping closes exactly the brackets it counts. -/
theorem enclosing_of_skip {d : Nat} {l r : List (Mark α)} (hd : 1 ≤ d) (h : skip d l = some r) :
    ∃ seg, l = seg ++ r ∧
      ∀ opened st : List α, opened.length = d → st ≠ [] →
        enclosing (opened ++ st) seg = some st := by
  induction l generalizing d with
  | nil => exact absurd h (by simp [skip])
  | cons m l ih =>
      cases m with
      | opening a =>
          obtain ⟨seg, rfl, hseg⟩ := ih (show 1 ≤ d + 1 by omega) h
          refine ⟨.opening a :: seg, rfl, fun opened st hlen hst => ?_⟩
          rw [enclosing_cons]
          exact hseg (a :: opened) st (by simp [hlen]) hst
      | broken a => exact absurd h (by simp [skip])
      | closing =>
          by_cases hlast : d ≤ 1
          · rw [skip, if_pos hlast] at h
            obtain rfl := Option.some.inj h
            refine ⟨[.closing], rfl, fun opened st hlen hst => ?_⟩
            obtain ⟨a, rfl⟩ := List.length_eq_one_iff.mp (show opened.length = 1 by omega)
            obtain ⟨b, st, rfl⟩ := List.exists_cons_of_ne_nil hst
            rfl
          · rw [skip, if_neg hlast] at h
            obtain ⟨seg, rfl, hseg⟩ := ih (show 1 ≤ d - 1 by omega) h
            refine ⟨.closing :: seg, rfl, fun opened st hlen hst => ?_⟩
            obtain ⟨a, b, opened, rfl⟩ : ∃ a b rest, opened = a :: b :: rest := by
              match opened, hlen with
              | [], hlen => exact absurd hlen (by simp; omega)
              | [_], hlen => exact absurd hlen (by simp; omega)
              | a :: b :: rest, _ => exact ⟨a, b, rest, rfl⟩
            rw [enclosing_cons]
            refine hseg (b :: opened) st ?_ hst
            simp only [List.length_cons] at hlen ⊢
            omega
      | content =>
          obtain ⟨seg, rfl, hseg⟩ := ih hd h
          refine ⟨.content :: seg, rfl, fun opened st hlen hst => ?_⟩
          rw [enclosing_cons]
          exact hseg opened st hlen hst
      | gap =>
          obtain ⟨seg, rfl, hseg⟩ := ih hd h
          refine ⟨.gap :: seg, rfl, fun opened st hlen hst => ?_⟩
          rw [enclosing_cons]
          exact hseg opened st hlen hst

/-- A bracket from its opening mark to its closing mark is neutral. -/
theorem neutral_of_skip {a : α} {l r : List (Mark α)} (h : skip 1 l = some r) :
    ∃ seg, l = seg ++ r ∧ Neutral (.opening a :: seg) := by
  obtain ⟨seg, hl, hseg⟩ := enclosing_of_skip le_rfl h
  refine ⟨seg, hl, fun st hst => ?_⟩
  rw [enclosing_cons]
  exact hseg [a] st rfl hst

/-! ## Inner brackets -/

/-- The bracket that opens next, gaps aside. -/
def nextOpening : List (Mark α) → Option α
  | .gap :: l => nextOpening l
  | .opening a :: _ => some a
  | .broken a :: _ => some a
  | _ => none

/-- The bracket that opens next, gaps and contents aside. -/
def firstInside : List (Mark α) → Option α
  | .content :: l => firstInside l
  | .gap :: l => firstInside l
  | .opening a :: _ => some a
  | .broken a :: _ => some a
  | _ => none

/-- The first bracket inside the one that opens the stream. -/
def firstChild : List (Mark α) → Option α
  | .opening _ :: l => firstInside l
  | _ => none

/-- The bracket after the one that opens the stream. -/
def nextSibling : List (Mark α) → Option α
  | .opening _ :: l => skip 1 l >>= nextOpening
  | _ => none

/-- The brackets that open one after the other, `depth` levels further out. -/
def siblings : (depth : Nat) → List (Mark α) → List α
  | 0, .opening a :: l => a :: siblings 1 l
  | 0, .broken a :: _ => [a]
  | 0, .gap :: l => siblings 0 l
  | d + 1, .opening _ :: l => siblings (d + 2) l
  | d + 1, .closing :: l => siblings d l
  | d + 1, .content :: l => siblings (d + 1) l
  | d + 1, .gap :: l => siblings (d + 1) l
  | _, _ => []

/-- The brackets directly inside the one that has been opened. -/
def inside : List (Mark α) → List α
  | .content :: l => inside l
  | .gap :: l => inside l
  | l => siblings 0 l

/-- The brackets directly inside the one that opens the stream. -/
def children : List (Mark α) → List α
  | .opening _ :: l => inside l
  | _ => []

theorem head?_siblings (l : List (Mark α)) : (siblings 0 l).head? = nextOpening l := by
  induction l with
  | nil => rfl
  | cons m l ih =>
      cases m with
      | gap => exact ih
      | opening a => rfl
      | broken a => rfl
      | closing => rfl
      | content => rfl

/-- Further out, the siblings are those after the brackets in between are closed. -/
theorem siblings_succ (d : Nat) (l : List (Mark α)) :
    siblings (d + 1) l = ((skip (d + 1) l).map (siblings 0)).getD [] := by
  induction l generalizing d with
  | nil => rfl
  | cons m l ih =>
      cases m with
      | opening a => exact ih (d + 1)
      | broken a => rfl
      | closing =>
          cases d with
          | zero => rfl
          | succ d => exact ih d
      | content => exact ih d
      | gap => exact ih d

theorem head?_inside (l : List (Mark α)) : (inside l).head? = firstInside l := by
  induction l with
  | nil => rfl
  | cons m l ih =>
      cases m with
      | content => exact ih
      | gap => exact ih
      | opening a => rfl
      | broken a => rfl
      | closing => rfl

theorem head?_children (l : List (Mark α)) : (children l).head? = firstChild l := by
  unfold children firstChild
  split
  · exact head?_inside _
  · rfl

/-! ## Balanced parts of a stream -/

/-- Every bracket of the part is closed in it. -/
inductive Balanced : List (Mark α) → Prop where
  | nil : Balanced []
  | gap {l : List (Mark α)} : Balanced l → Balanced (.gap :: l)
  | content {l : List (Mark α)} : Balanced l → Balanced (.content :: l)
  | bracket (a : α) {l r : List (Mark α)} :
      Balanced l → Balanced r → Balanced (.opening a :: (l ++ .closing :: r))

theorem Balanced.gaps (k : Nat) {l : List (Mark α)} (h : Balanced l) :
    Balanced (List.replicate k .gap ++ l) := by
  induction k with
  | zero => exact h
  | succ k ih => exact ih.gap

theorem Balanced.append {l r : List (Mark α)} (hl : Balanced l) (hr : Balanced r) :
    Balanced (l ++ r) := by
  induction hl with
  | nil => exact hr
  | gap _ ih => exact ih.gap
  | content _ ih => exact ih.content
  | bracket a hin _ _ ih =>
      rw [List.cons_append, List.append_assoc]
      exact Balanced.bracket a hin ih

theorem Balanced.neutral {l : List (Mark α)} (h : Balanced l) : Neutral l := by
  induction h with
  | nil => exact Neutral.nil
  | gap _ ih => exact ih.gap
  | content _ ih => exact ih.content
  | bracket a _ _ ihl ihr =>
      intro st hst
      obtain ⟨b, st, rfl⟩ := List.exists_cons_of_ne_nil hst
      rw [enclosing_cons]
      change enclosing (a :: b :: st) _ = _
      rw [enclosing_append_of_some (ihl _ (by simp)), enclosing_cons]
      exact ihr _ hst

theorem Balanced.skip {l : List (Mark α)} (h : Balanced l) {d : Nat} (hd : 1 ≤ d)
    (r : List (Mark α)) : Nesting.skip d (l ++ r) = Nesting.skip d r := by
  induction h generalizing d r with
  | nil => rfl
  | gap _ ih => exact ih hd r
  | content _ ih => exact ih hd r
  | bracket a _ _ ihl ihr =>
      rw [List.cons_append, Nesting.skip, List.append_assoc, ihl (by omega), List.cons_append,
        Nesting.skip, if_neg (by omega), Nat.add_sub_cancel]
      exact ihr hd r

/-- A bracket with a balanced inside is one sibling. -/
theorem siblings_bracket (a : α) {l : List (Mark α)} (h : Balanced l) (r : List (Mark α)) :
    siblings 0 (.opening a :: (l ++ .closing :: r)) = a :: siblings 0 r := by
  rw [siblings, siblings_succ, h.skip le_rfl]
  rfl

theorem siblings_gaps (k : Nat) (l : List (Mark α)) :
    siblings 0 (List.replicate k .gap ++ l) = siblings 0 l := by
  induction k with
  | zero => rfl
  | succ k ih => exact ih

theorem inside_gaps (k : Nat) (l : List (Mark α)) :
    inside (List.replicate k .gap ++ l) = inside l := by
  induction k with
  | zero => rfl
  | succ k ih => exact ih

/-! ## Where a bracket opens -/

/-- The label of a mark that opens a bracket. -/
def Mark.label? : Mark α → Option α
  | .opening a => some a
  | .broken a => some a
  | _ => none

theorem exists_of_nextOpening {l : List (Mark α)} {a : α} (h : nextOpening l = some a) :
    ∃ seg m r, l = seg ++ m :: r ∧ m.label? = some a ∧ Neutral seg := by
  induction l with
  | nil => exact absurd h (by simp [nextOpening])
  | cons m l ih =>
      cases m with
      | gap =>
          obtain ⟨seg, m, r, rfl, hm, hseg⟩ := ih h
          exact ⟨.gap :: seg, m, r, rfl, hm, hseg.gap⟩
      | opening b => exact ⟨[], .opening b, l, rfl, h, Neutral.nil⟩
      | broken b => exact ⟨[], .broken b, l, rfl, h, Neutral.nil⟩
      | closing => exact absurd h (by simp [nextOpening])
      | content => exact absurd h (by simp [nextOpening])

theorem exists_of_firstInside {l : List (Mark α)} {a : α} (h : firstInside l = some a) :
    ∃ seg m r, l = seg ++ m :: r ∧ m.label? = some a ∧ Neutral seg := by
  induction l with
  | nil => exact absurd h (by simp [firstInside])
  | cons m l ih =>
      cases m with
      | content =>
          obtain ⟨seg, m, r, rfl, hm, hseg⟩ := ih h
          exact ⟨.content :: seg, m, r, rfl, hm, hseg.content⟩
      | gap =>
          obtain ⟨seg, m, r, rfl, hm, hseg⟩ := ih h
          exact ⟨.gap :: seg, m, r, rfl, hm, hseg.gap⟩
      | opening b => exact ⟨[], .opening b, l, rfl, h, Neutral.nil⟩
      | broken b => exact ⟨[], .broken b, l, rfl, h, Neutral.nil⟩
      | closing => exact absurd h (by simp [firstInside])

theorem exists_of_firstChild {l : List (Mark α)} {a : α} (h : firstChild l = some a) :
    ∃ b r, l = .opening b :: r := by
  unfold firstChild at h
  split at h
  case h_1 b r => exact ⟨b, r, rfl⟩
  case h_2 => exact absurd h (by simp)

theorem exists_of_children {l : List (Mark α)} (h : children l ≠ []) :
    ∃ b r, l = .opening b :: r := by
  unfold children at h
  split at h
  case h_1 b r => exact ⟨b, r, rfl⟩
  case h_2 => exact absurd rfl h

theorem exists_of_nextSibling {l : List (Mark α)} {a : α} (h : nextSibling l = some a) :
    ∃ seg m r, l = seg ++ m :: r ∧ m.label? = some a ∧ Neutral seg ∧ seg ≠ [] := by
  unfold nextSibling at h
  split at h
  case h_2 => exact absurd h (by simp)
  case h_1 b l =>
    obtain ⟨after, hskip, hnext⟩ := Option.bind_eq_some_iff.mp h
    obtain ⟨seg, rfl, hseg⟩ := neutral_of_skip (a := b) hskip
    obtain ⟨gaps, m, r, rfl, hm, hgaps⟩ := exists_of_nextOpening hnext
    exact ⟨.opening b :: seg ++ gaps, m, r, by simp, hm, hseg.append hgaps, by simp⟩

/-! ## The parent of a bracket -/

section Parent

variable [DecidableEq α]

/-- The bracket around the first one labelled `n`, unless more than `cap` brackets
are around it. -/
def parentIn (cap : Nat) (n : α) : (st : List α) → List (Mark α) → Option α
  | _, [] => none
  | st, m :: l =>
      if m = .opening n then if st.length ≤ cap then st.head? else none
      else m.act st >>= fun st' => parentIn cap n st' l

theorem parentIn_append {cap : Nat} {n : α} {st st' : List α} {pre : List (Mark α)}
    (h : enclosing st pre = some st') (hn : Mark.opening n ∉ pre) (l : List (Mark α)) :
    parentIn cap n st (pre ++ l) = parentIn cap n st' l := by
  induction pre generalizing st with
  | nil =>
      obtain rfl := Option.some.inj h
      rfl
  | cons m pre ih =>
      rw [enclosing_cons] at h
      obtain ⟨mid, hact, hrest⟩ := Option.bind_eq_some_iff.mp h
      rw [List.mem_cons, not_or] at hn
      rw [List.cons_append, parentIn, if_neg (Ne.symm hn.1), hact]
      exact ih hrest hn.2

theorem exists_of_parentIn {cap : Nat} {n a : α} {st : List α} {l : List (Mark α)}
    (h : parentIn cap n st l = some a) :
    ∃ pre r st', l = pre ++ .opening n :: r ∧ enclosing st pre = some (a :: st') ∧
      st'.length < cap := by
  induction l generalizing st with
  | nil => exact absurd h (by simp [parentIn])
  | cons m l ih =>
      rw [parentIn] at h
      split at h
      case isTrue hm =>
        split at h
        case isTrue hcap =>
          obtain ⟨st', rfl⟩ := List.head?_eq_some_iff.mp h
          exact ⟨[], l, st', by rw [hm]; rfl, rfl, hcap⟩
        case isFalse => exact absurd h (by simp)
      case isFalse hm =>
        obtain ⟨mid, hact, hrest⟩ := Option.bind_eq_some_iff.mp h
        obtain ⟨pre, r, st', rfl, hpre, hcap⟩ := ih hrest
        refine ⟨m :: pre, r, st', rfl, ?_, hcap⟩
        rw [enclosing_cons, hact]
        exact hpre

end Parent

/-! ## Streams that can be entered anywhere -/

/-- A stream read from any label on.  A bracket is the same wherever the reading
started, and its label is less than the labels behind it. -/
structure Stream (α : Type) [Preorder α] where
  marks : α → List (Mark α)
  at_label : ∀ {p a : α} {pre r : List (Mark α)} {m : Mark α},
    marks p = pre ++ m :: r → m.label? = some a → marks a = m :: r
  label_lt : ∀ {a b : α} {r : List (Mark α)} {m n : Mark α},
    marks a = m :: r → m.label? = some a → n ∈ r → n.label? = some b → a < b

namespace Stream

variable [Preorder α] (S : Stream α)

/-- From `root`, the reading arrives at `n` with the brackets `st` open. -/
def Reaches (root : α) (st : List α) (n : α) : Prop :=
  ∃ pre, S.marks root = pre ++ S.marks n ∧ enclosing [] pre = some st

variable {S}

theorem reaches_root (root : α) : S.Reaches root [] root := ⟨[], rfl, rfl⟩

/-- Further marks of the stream are read. -/
theorem Reaches.read {root n m : α} {st st' : List α} {seg : List (Mark α)}
    (h : S.Reaches root st n) (hseg : S.marks n = seg ++ S.marks m)
    (henclosing : enclosing st seg = some st') : S.Reaches root st' m := by
  obtain ⟨pre, hpre, hst⟩ := h
  refine ⟨pre ++ seg, ?_, ?_⟩
  · rw [hpre, hseg, List.append_assoc]
  · rw [enclosing_append_of_some hst]
    exact henclosing

theorem not_mem_before {p a : α} {pre r : List (Mark α)} {m : Mark α}
    (h : S.marks p = pre ++ m :: r) (hm : m.label? = some a) {n : Mark α}
    (hn : n.label? = some a) : n ∉ pre := by
  intro hmem
  obtain ⟨first, between, rfl⟩ := List.append_of_mem hmem
  rw [List.append_assoc, List.cons_append] at h
  have hat := S.at_label h hn
  exact lt_irrefl a (S.label_lt hat hn (n := m) (by simp) hm)

theorem lt_of_nextSibling {n s : α} {r : List (Mark α)} (hn : S.marks n = .opening n :: r)
    (h : nextSibling (S.marks n) = some s) : n < s := by
  obtain ⟨seg, m, rest, hsplit, hm, -, hne⟩ := exists_of_nextSibling h
  obtain ⟨first, seg, rfl⟩ := List.exists_cons_of_ne_nil hne
  obtain ⟨rfl, rfl⟩ := List.cons.inj (hn ▸ hsplit)
  exact S.label_lt hn rfl (n := m) (by simp) hm

theorem lt_of_firstChild {n c : α} {r : List (Mark α)} (hn : S.marks n = .opening n :: r)
    (h : firstChild (S.marks n) = some c) : n < c := by
  rw [hn] at h
  obtain ⟨seg, m, rest, rfl, hm, -⟩ := exists_of_firstInside h
  exact S.label_lt hn rfl (n := m) (by simp) hm

/-- The next bracket has the same brackets around it. -/
theorem Reaches.nextSibling {root n s : α} {st : List α} (hn : S.Reaches root st n) (hst : st ≠ [])
    (h : nextSibling (S.marks n) = some s) :
    S.Reaches root st s ∧ ∃ m r, S.marks s = m :: r ∧ m.label? = some s := by
  obtain ⟨pre, hpre, henclosing⟩ := hn
  obtain ⟨seg, m, r, hsplit, hm, hseg, -⟩ := exists_of_nextSibling h
  have hfull : S.marks root = (pre ++ seg) ++ m :: r := by
    rw [hpre, hsplit, List.append_assoc]
  have hs : S.marks s = m :: r := S.at_label hfull hm
  refine ⟨⟨pre ++ seg, hs ▸ hfull, ?_⟩, m, r, hs, hm⟩
  rw [enclosing_append_of_some henclosing]
  exact hseg st hst

/-- The first bracket inside another one has that one around it. -/
theorem Reaches.firstChild {root n c : α} {st : List α} (hn : S.Reaches root st n)
    {r : List (Mark α)} (hopen : S.marks n = .opening n :: r)
    (h : firstChild (S.marks n) = some c) :
    S.Reaches root (n :: st) c ∧ ∃ m r, S.marks c = m :: r ∧ m.label? = some c := by
  obtain ⟨pre, hpre, henclosing⟩ := hn
  rw [hopen] at hpre h
  obtain ⟨seg, m, r, rfl, hm, hseg⟩ := exists_of_firstInside h
  have hsplit : S.marks root = (pre ++ .opening n :: seg) ++ m :: r := by
    rw [hpre]
    simp
  have hc : S.marks c = m :: r := S.at_label hsplit hm
  refine ⟨⟨pre ++ .opening n :: seg, hc ▸ hsplit, ?_⟩, m, r, hc, hm⟩
  rw [enclosing_append_of_some henclosing, enclosing_cons]
  exact hseg (n :: st) (by simp)

/-- In a list of siblings, each is followed by its next sibling. -/
theorem head?_after_siblings {p x : α} {d : Nat} {pre l : List (Mark α)} {xs ys : List α}
    (hp : S.marks p = pre ++ l) (h : siblings d l = xs ++ x :: ys) :
    ys.head? = Nesting.nextSibling (S.marks x) := by
  induction l generalizing d pre xs with
  | nil =>
      rw [show siblings d ([] : List (Mark α)) = [] by cases d <;> rfl] at h
      exact absurd h (by simp)
  | cons m l ih =>
      have hp' : S.marks p = (pre ++ [m]) ++ l := by simp [hp]
      match d, m, h with
      | 0, .opening a, h =>
          cases xs with
          | nil =>
              obtain ⟨rfl, rfl⟩ := List.cons.inj h
              rw [S.at_label hp rfl, siblings_succ]
              change _ = skip 1 l >>= nextOpening
              cases skip 1 l with
              | none => rfl
              | some r => exact head?_siblings r
          | cons b xs =>
              obtain ⟨rfl, hrest⟩ := List.cons.inj h
              exact ih hp' hrest
      | 0, .broken a, h =>
          cases xs with
          | nil =>
              obtain ⟨rfl, rfl⟩ := List.cons.inj h
              rw [S.at_label hp rfl]
              rfl
          | cons b xs => exact absurd (List.cons.inj h).2 (by simp)
      | 0, .gap, h => exact ih hp' h
      | 0, .closing, h => exact absurd h (by simp [siblings])
      | 0, .content, h => exact absurd h (by simp [siblings])
      | d + 1, .opening a, h => exact ih hp' h
      | d + 1, .broken a, h => exact absurd h (by simp [siblings])
      | d + 1, .closing, h => exact ih hp' h
      | d + 1, .content, h => exact ih hp' h
      | d + 1, .gap, h => exact ih hp' h

theorem head?_after_inside {p x : α} {pre l : List (Mark α)} {xs ys : List α}
    (hp : S.marks p = pre ++ l) (h : inside l = xs ++ x :: ys) :
    ys.head? = Nesting.nextSibling (S.marks x) := by
  induction l generalizing pre with
  | nil => exact absurd h (by simp [inside, siblings])
  | cons m l ih =>
      have hp' : S.marks p = (pre ++ [m]) ++ l := by simp [hp]
      cases m with
      | content => exact ih hp' h
      | gap => exact ih hp' h
      | opening a => exact head?_after_siblings (d := 0) hp h
      | broken a => exact head?_after_siblings (d := 0) hp h
      | closing => exact head?_after_siblings (d := 0) hp h

/-- In the list of children, each is followed by its next sibling. -/
theorem head?_after_children {n x : α} {xs ys : List α}
    (h : children (S.marks n) = xs ++ x :: ys) :
    ys.head? = Nesting.nextSibling (S.marks x) := by
  cases hn : S.marks n with
  | nil =>
      rw [hn] at h
      exact absurd h (by simp [children])
  | cons m l =>
      rw [hn] at h
      cases m with
      | opening a =>
          have hp : S.marks n = [.opening a] ++ l := hn
          exact head?_after_inside hp h
      | broken a => exact absurd h (by simp [children])
      | closing => exact absurd h (by simp [children])
      | content => exact absurd h (by simp [children])
      | gap => exact absurd h (by simp [children])

/-- **Children are enclosed by their parent.** -/
theorem Reaches.child {root n x : α} {st : List α} (hn : S.Reaches root st n) {r : List (Mark α)}
    (hopen : S.marks n = .opening n :: r) (hx : x ∈ children (S.marks n)) :
    S.Reaches root (n :: st) x ∧ ∃ m r, S.marks x = m :: r ∧ m.label? = some x := by
  obtain ⟨xs, ys, hsplit⟩ := List.append_of_mem hx
  clear hx
  -- Induction on the children before `x`, from the nearest.
  induction xs using List.reverseRecOn generalizing x ys with
  | nil =>
      apply hn.firstChild hopen
      rw [← head?_children, hsplit]
      rfl
  | append_singleton xs y ih =>
      rw [List.append_assoc, List.singleton_append] at hsplit
      have hy := (ih _ hsplit).1
      apply hy.nextSibling (by simp)
      rw [← head?_after_children hsplit]
      rfl

/-! ### Parents -/

variable [DecidableEq α]

theorem Reaches.parentIn {root n : α} {st : List α} (h : S.Reaches root st n) {r : List (Mark α)}
    (hn : S.marks n = .opening n :: r) (cap : Nat) :
    parentIn cap n [] (S.marks root) = if st.length ≤ cap then st.head? else none := by
  obtain ⟨pre, hpre, henclosing⟩ := h
  rw [hn] at hpre
  rw [hpre, parentIn_append henclosing (not_mem_before hpre rfl rfl), Nesting.parentIn, if_pos rfl]

theorem Reaches.parentIn_broken {root n : α} {st : List α} (h : S.Reaches root st n)
    {r : List (Mark α)} (hn : S.marks n = .broken n :: r) (cap : Nat) :
    Nesting.parentIn cap n [] (S.marks root) = none := by
  obtain ⟨pre, hpre, henclosing⟩ := h
  rw [hn] at hpre
  rw [hpre, parentIn_append henclosing (not_mem_before hpre rfl rfl), Nesting.parentIn,
    if_neg (by simp)]
  rfl

theorem reaches_of_parentIn {cap : Nat} {root n a : α}
    (h : Nesting.parentIn cap n [] (S.marks root) = some a) :
    ∃ st r, S.Reaches root (a :: st) n ∧ S.marks n = .opening n :: r ∧ st.length < cap := by
  obtain ⟨pre, r, st, hsplit, henclosing, hcap⟩ := exists_of_parentIn h
  have hn : S.marks n = .opening n :: r := S.at_label hsplit rfl
  exact ⟨st, r, ⟨pre, hn ▸ hsplit, henclosing⟩, hn, hcap⟩

end Stream

end Nesting
