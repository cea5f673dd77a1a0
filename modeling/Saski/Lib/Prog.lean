import Saski.Lib.Logged

/-!
# Programs with loops

A `Prog ε α` is a computation that may loop for ever.  It is run with some fuel,
and gives an `α` or nothing yet, together with the events it has logged so far.
More fuel only extends a run: this is part of the type, so a program has one
result or none, and one sequence of events.

Nothing below the rules mentions fuel.  `p.Returns a` and `p.Performs e` say what
a program gives and what it does, and the rules for `bind` and `loop` are
equivalences: a loop returns what some state it reaches returns, and performs what
some state it reaches performs.
-/

namespace Logged

variable {ε α : Type}

/-- The run `u` goes on where `t` ran out of fuel. -/
structure Extends (t u : Logged ε (Option α)) : Prop where
  log : t.log <+: u.log
  value : t.value ≠ none → u = t

theorem Extends.refl (t : Logged ε (Option α)) : Extends t t := ⟨List.prefix_refl _, fun _ => rfl⟩

end Logged

open Logged

/-- A computation with fuel, which more fuel only extends. -/
structure Prog (ε α : Type) where
  run : Nat → Logged ε (Option α)
  extends_run : ∀ {f g : Nat}, f ≤ g → Extends (run f) (run g)

namespace Prog

variable {ε α β σ ρ : Type}

/-- A computation without loops. -/
def lift (t : Logged ε α) : Prog ε α where
  run _ := ⟨some t.value, t.log⟩
  extends_run _ := Extends.refl _

/-- A computation that gives no result, whatever the fuel. -/
def stuck : Prog ε α where
  run _ := ⟨none, []⟩
  extends_run _ := Extends.refl _

/-- Go on with `k`, if there is a value to go on with. -/
def andThen (t : Logged ε (Option α)) (k : α → Logged ε (Option β)) : Logged ε (Option β) :=
  match t.value with
  | none => ⟨none, t.log⟩
  | some a => ⟨(k a).value, t.log ++ (k a).log⟩

theorem extends_andThen {t u : Logged ε (Option α)} {k l : α → Logged ε (Option β)}
    (h : Extends t u) (hk : ∀ a, Extends (k a) (l a)) : Extends (andThen t k) (andThen u l) := by
  cases hvalue : t.value with
  | none =>
      have hleft : andThen t k = ⟨none, t.log⟩ := by simp [andThen, hvalue]
      rw [hleft]
      refine ⟨?_, fun hne => absurd rfl hne⟩
      unfold andThen
      split
      · exact h.log
      · exact h.log.trans (List.prefix_append _ _)
  | some a =>
      obtain rfl : u = t := h.value (by simp [hvalue])
      have hleft : andThen u k = ⟨(k a).value, u.log ++ (k a).log⟩ := by simp [andThen, hvalue]
      have hright : andThen u l = ⟨(l a).value, u.log ++ (l a).log⟩ := by simp [andThen, hvalue]
      rw [hleft, hright]
      refine ⟨List.prefix_append_right_inj u.log |>.mpr (hk a).log, fun hne => ?_⟩
      rw [(hk a).value hne]

instance : Monad (Prog ε) where
  pure a := lift (pure a)
  bind p k :=
    { run := fun f => andThen (p.run f) fun a => (k a).run f
      extends_run := fun h => extends_andThen (p.extends_run h) fun a => (k a).extends_run h }

instance : MonadLift (Logged ε) (Prog ε) := ⟨lift⟩

/-- At most `n` iterations of a loop, each with fuel `f`. -/
def iterate (body : σ → Prog ε (σ ⊕ ρ)) (f : Nat) : (n : Nat) → σ → Logged ε (Option ρ)
  | 0, _ => ⟨none, []⟩
  | n + 1, s => andThen ((body s).run f) fun
      | .inl s' => iterate body f n s'
      | .inr r => ⟨some r, []⟩

theorem extends_iterate (body : σ → Prog ε (σ ⊕ ρ)) {f g : Nat} (hfg : f ≤ g) {n m : Nat}
    (hnm : n ≤ m) (s : σ) : Extends (iterate body f n s) (iterate body g m s) := by
  induction n generalizing m s with
  | zero => exact ⟨List.nil_prefix, fun hne => absurd rfl hne⟩
  | succ n ih =>
      obtain ⟨m, rfl⟩ : ∃ k, m = k + 1 := ⟨m - 1, by omega⟩
      apply extends_andThen ((body s).extends_run hfg)
      intro next
      cases next with
      | inl s' => exact ih (by omega) s'
      | inr r => exact Extends.refl _

/-- `for (;;) body`, where `body` goes on with a new state or leaves the loop. -/
def loop (body : σ → Prog ε (σ ⊕ ρ)) (s : σ) : Prog ε ρ where
  run f := iterate body f f s
  extends_run h := extends_iterate body h h s

/-! ## Results -/

/-- The program ends, with this result. -/
def Returns (p : Prog ε α) (a : α) : Prop := ∃ f, (p.run f).value = some a

/-- The program performs this event, at some time. -/
def Performs (p : Prog ε α) (e : ε) : Prop := ∃ f, e ∈ (p.run f).log

/-- Every event the program performs satisfies `P`. -/
def Reads (P : ε → Prop) (p : Prog ε α) : Prop := ∀ e, p.Performs e → P e

theorem value_of_le (p : Prog ε α) {f g : Nat} (h : f ≤ g) {a : α}
    (hvalue : (p.run f).value = some a) : (p.run g).value = some a := by
  rw [(p.extends_run h).value (by simp [hvalue])]
  exact hvalue

theorem mem_log_of_le (p : Prog ε α) {f g : Nat} (h : f ≤ g) {e : ε}
    (he : e ∈ (p.run f).log) : e ∈ (p.run g).log :=
  (p.extends_run h).log.subset he

/-- A program has at most one result. -/
theorem Returns.unique {p : Prog ε α} {a b : α} (ha : p.Returns a) (hb : p.Returns b) : a = b := by
  obtain ⟨f, ha⟩ := ha
  obtain ⟨g, hb⟩ := hb
  have hleft := p.value_of_le (Nat.le_max_left f g) ha
  have hright := p.value_of_le (Nat.le_max_right f g) hb
  rw [hleft] at hright
  exact Option.some.inj hright

theorem exists_returns_both_iff {ε' : Type} {p : Prog ε α} {q : Prog ε' α} {a b : α}
    (hp : p.Returns a) (hq : q.Returns b) : (∃ r, p.Returns r ∧ q.Returns r) ↔ a = b := by
  constructor
  · rintro ⟨r, hpr, hqr⟩
    exact (hp.unique hpr).trans (hqr.unique hq)
  · rintro rfl
    exact ⟨a, hp, hq⟩

@[simp] theorem returns_lift (t : Logged ε α) (a : α) : (lift t).Returns a ↔ t.value = a := by
  simp [Returns, lift]

@[simp] theorem performs_lift (t : Logged ε α) (e : ε) : (lift t).Performs e ↔ e ∈ t.log := by
  simp [Performs, lift]

@[simp] theorem returns_pure (a b : α) : (pure a : Prog ε α).Returns b ↔ a = b :=
  returns_lift (pure a) b

@[simp] theorem not_performs_pure (a : α) (e : ε) : ¬ (pure a : Prog ε α).Performs e := by
  rw [show (pure a : Prog ε α) = lift (pure a) from rfl, performs_lift]
  simp

@[simp] theorem not_returns_stuck (a : α) : ¬ (stuck : Prog ε α).Returns a := by
  simp [Returns, stuck]

@[simp] theorem not_performs_stuck (e : ε) : ¬ (stuck : Prog ε α).Performs e := by
  simp [Performs, stuck]

theorem value_andThen {t : Logged ε (Option α)} {k : α → Logged ε (Option β)} {b : β} :
    (andThen t k).value = some b ↔ ∃ a, t.value = some a ∧ (k a).value = some b := by
  unfold andThen
  cases hvalue : t.value with
  | none => simp
  | some a => simp

theorem mem_log_andThen {t : Logged ε (Option α)} {k : α → Logged ε (Option β)} {e : ε} :
    e ∈ (andThen t k).log ↔ e ∈ t.log ∨ ∃ a, t.value = some a ∧ e ∈ (k a).log := by
  unfold andThen
  cases hvalue : t.value with
  | none => simp
  | some a => simp

/-- One after the other. -/
theorem returns_bind (p : Prog ε α) (k : α → Prog ε β) (b : β) :
    (p >>= k).Returns b ↔ ∃ a, p.Returns a ∧ (k a).Returns b := by
  constructor
  · rintro ⟨f, hf⟩
    obtain ⟨a, ha, hb⟩ := value_andThen.mp hf
    exact ⟨a, ⟨f, ha⟩, ⟨f, hb⟩⟩
  · rintro ⟨a, ⟨f, ha⟩, ⟨g, hb⟩⟩
    refine ⟨max f g, value_andThen.mpr ⟨a, ?_, ?_⟩⟩
    · exact p.value_of_le (Nat.le_max_left f g) ha
    · exact (k a).value_of_le (Nat.le_max_right f g) hb

theorem performs_bind (p : Prog ε α) (k : α → Prog ε β) (e : ε) :
    (p >>= k).Performs e ↔ p.Performs e ∨ ∃ a, p.Returns a ∧ (k a).Performs e := by
  constructor
  · rintro ⟨f, hf⟩
    rcases mem_log_andThen.mp hf with he | ⟨a, ha, he⟩
    · exact Or.inl ⟨f, he⟩
    · exact Or.inr ⟨a, ⟨f, ha⟩, ⟨f, he⟩⟩
  · rintro (⟨f, he⟩ | ⟨a, ⟨f, ha⟩, ⟨g, he⟩⟩)
    · exact ⟨f, mem_log_andThen.mpr (Or.inl he)⟩
    · refine ⟨max f g, mem_log_andThen.mpr (Or.inr ⟨a, ?_, ?_⟩)⟩
      · exact p.value_of_le (Nat.le_max_left f g) ha
      · exact (k a).mem_log_of_le (Nat.le_max_right f g) he

/-- After a program with a known result. -/
theorem returns_bind_of {p : Prog ε α} {a : α} (hp : p.Returns a) (k : α → Prog ε β) (b : β) :
    (p >>= k).Returns b ↔ (k a).Returns b := by
  rw [returns_bind]
  constructor
  · rintro ⟨a', ha', hb⟩
    obtain rfl := hp.unique ha'
    exact hb
  · exact fun hb => ⟨a, hp, hb⟩

theorem performs_bind_of {p : Prog ε α} {a : α} (hp : p.Returns a) (k : α → Prog ε β) (e : ε) :
    (p >>= k).Performs e ↔ p.Performs e ∨ (k a).Performs e := by
  rw [performs_bind]
  constructor
  · rintro (he | ⟨a', ha', he⟩)
    · exact Or.inl he
    · obtain rfl := hp.unique ha'
      exact Or.inr he
  · rintro (he | he)
    · exact Or.inl he
    · exact Or.inr ⟨a, hp, he⟩

theorem returns_lift_value (t : Logged ε α) : (lift t).Returns t.value := (returns_lift t _).mpr rfl

theorem returns_liftM_bind (t : Logged ε α) (k : α → Prog ε β) (b : β) :
    ((liftM t : Prog ε α) >>= k).Returns b ↔ (k t.value).Returns b :=
  returns_bind_of (returns_lift_value t) k b

theorem performs_liftM_bind (t : Logged ε α) (k : α → Prog ε β) (e : ε) :
    ((liftM t : Prog ε α) >>= k).Performs e ↔ e ∈ t.log ∨ (k t.value).Performs e :=
  (performs_bind_of (returns_lift_value t) k e).trans (or_congr_left (performs_lift t e))

/-- The same program with other events. -/
def relabel {ε' : Type} (g : ε → ε') (p : Prog ε α) : Prog ε' α where
  run f := (p.run f).relabel g
  extends_run h :=
    { log := (p.extends_run h).log.map g
      value := fun hne => congrArg (Logged.relabel g) ((p.extends_run h).value hne) }

@[simp] theorem returns_relabel {ε' : Type} (g : ε → ε') (p : Prog ε α) (a : α) :
    (p.relabel g).Returns a ↔ p.Returns a := Iff.rfl

theorem performs_relabel {ε' : Type} (g : ε → ε') (p : Prog ε α) (e : ε') :
    (p.relabel g).Performs e ↔ ∃ d, p.Performs d ∧ g d = e := by
  constructor
  · rintro ⟨f, hf⟩
    obtain ⟨d, hd, heq⟩ := List.mem_map.mp hf
    exact ⟨d, ⟨f, hd⟩, heq⟩
  · rintro ⟨d, ⟨f, hf⟩, heq⟩
    exact ⟨f, List.mem_map.mpr ⟨d, hf, heq⟩⟩

/-! ## Loops -/

/-- One iteration leads from a state to the next. -/
def Step (body : σ → Prog ε (σ ⊕ ρ)) (s s' : σ) : Prop := (body s).Returns (.inl s')

theorem returns_loop_iff (body : σ → Prog ε (σ ⊕ ρ)) (s : σ) (r : ρ) :
    (loop body s).Returns r ↔
      (body s).Returns (.inr r) ∨ ∃ s', Step body s s' ∧ (loop body s').Returns r := by
  constructor
  · rintro ⟨f, hf⟩
    cases f with
    | zero => exact absurd hf (by simp [loop, iterate])
    | succ f =>
        obtain ⟨next, hnext, hrest⟩ := value_andThen.mp hf
        cases next with
        | inl s' =>
            have hle := extends_iterate body (Nat.le_refl (f + 1)) (Nat.le_succ f) s'
            refine Or.inr ⟨s', ⟨f + 1, hnext⟩, ⟨f + 1, ?_⟩⟩
            change (iterate body (f + 1) f s').value = some r at hrest
            change (iterate body (f + 1) (f + 1) s').value = some r
            rw [hle.value (by simp [hrest])]
            exact hrest
        | inr r' =>
            obtain rfl : r' = r := Option.some.inj hrest
            exact Or.inl ⟨f + 1, hnext⟩
  · rintro (⟨f, hf⟩ | ⟨s', ⟨f, hf⟩, ⟨g, hg⟩⟩)
    · refine ⟨f + 1, value_andThen.mpr ⟨.inr r, ?_, rfl⟩⟩
      exact (body s).value_of_le (Nat.le_succ f) hf
    · -- Enough fuel for the iteration and one more than the rest of the loop takes.
      refine ⟨max f g + 1, value_andThen.mpr ⟨.inl s', ?_, ?_⟩⟩
      · exact (body s).value_of_le (by omega) hf
      · have hle := extends_iterate body (show g ≤ max f g + 1 by omega)
          (show g ≤ max f g by omega) s'
        change (iterate body g g s').value = some r at hg
        change (iterate body (max f g + 1) (max f g) s').value = some r
        rw [hle.value (by simp [hg])]
        exact hg

theorem returns_loop_of_done {body : σ → Prog ε (σ ⊕ ρ)} {s : σ} {r : ρ}
    (h : (body s).Returns (.inr r)) : (loop body s).Returns r :=
  (returns_loop_iff body s r).mpr (Or.inl h)

theorem returns_loop_of_step {body : σ → Prog ε (σ ⊕ ρ)} {s s' : σ} {r : ρ}
    (h : (body s).Returns (.inl s')) (hr : (loop body s').Returns r) : (loop body s).Returns r :=
  (returns_loop_iff body s r).mpr (Or.inr ⟨s', h, hr⟩)

theorem performs_loop_iff (body : σ → Prog ε (σ ⊕ ρ)) (s : σ) (e : ε) :
    (loop body s).Performs e ↔
      (body s).Performs e ∨ ∃ s', Step body s s' ∧ (loop body s').Performs e := by
  constructor
  · rintro ⟨f, hf⟩
    cases f with
    | zero => exact absurd hf (by simp [loop, iterate])
    | succ f =>
        rcases mem_log_andThen.mp hf with he | ⟨next, hnext, he⟩
        · exact Or.inl ⟨f + 1, he⟩
        · cases next with
          | inl s' =>
              have hle := extends_iterate body (Nat.le_refl (f + 1)) (Nat.le_succ f) s'
              exact Or.inr ⟨s', ⟨f + 1, hnext⟩, ⟨f + 1, hle.log.subset he⟩⟩
          | inr r => exact absurd he List.not_mem_nil
  · rintro (⟨f, hf⟩ | ⟨s', ⟨f, hf⟩, ⟨g, hg⟩⟩)
    · refine ⟨f + 1, mem_log_andThen.mpr (Or.inl ?_)⟩
      exact (body s).mem_log_of_le (Nat.le_succ f) hf
    · refine ⟨max f g + 1, mem_log_andThen.mpr (Or.inr ⟨.inl s', ?_, ?_⟩)⟩
      · exact (body s).value_of_le (by omega) hf
      · have hle := extends_iterate body (show g ≤ max f g + 1 by omega)
          (show g ≤ max f g by omega) s'
        exact hle.log.subset hg

/-- What a loop returns, some state that it reaches returns. -/
theorem exists_of_returns_loop {body : σ → Prog ε (σ ⊕ ρ)} {s : σ} {r : ρ} (I : σ → Prop) (hs : I s)
    (hstep : ∀ s s', I s → Step body s s' → I s') (h : (loop body s).Returns r) :
    ∃ s', I s' ∧ (body s').Returns (.inr r) := by
  obtain ⟨f, hf⟩ := h
  have hiterate : ∀ n s, I s → (iterate body f n s).value = some r →
      ∃ s', I s' ∧ (body s').Returns (.inr r) := by
    intro n
    induction n with
    | zero =>
        intro s _ hvalue
        exact absurd hvalue (by simp [iterate])
    | succ n ih =>
        intro s hs hvalue
        obtain ⟨next, hnext, hrest⟩ := value_andThen.mp hvalue
        cases next with
        | inl s' => exact ih s' (hstep s s' hs ⟨f, hnext⟩) hrest
        | inr r' =>
            obtain rfl : r' = r := Option.some.inj hrest
            exact ⟨s, hs, ⟨f, hnext⟩⟩
  exact hiterate f s hs hf

theorem exists_reach_of_returns_loop {body : σ → Prog ε (σ ⊕ ρ)} {s : σ} {r : ρ}
    (h : (loop body s).Returns r) :
    ∃ s', Relation.ReflTransGen (Step body) s s' ∧ (body s').Returns (.inr r) :=
  exists_of_returns_loop _ .refl (fun _ _ => .tail) h

/-- What a loop performs along a run is performed by the loop. -/
theorem performs_loop_of_reach {body : σ → Prog ε (σ ⊕ ρ)} {s s' : σ} {e : ε}
    (hreach : Relation.ReflTransGen (Step body) s s') (he : (body s').Performs e) :
    (loop body s).Performs e := by
  induction hreach using Relation.ReflTransGen.head_induction_on with
  | refl => exact (performs_loop_iff body s' e).mpr (Or.inl he)
  | head hstep _ ih => exact (performs_loop_iff body _ e).mpr (Or.inr ⟨_, hstep, ih⟩)

/-- **Invariants.**  What every iteration from a good state performs is fine, and
it leads to good states. -/
theorem reads_loop {P : ε → Prop} {body : σ → Prog ε (σ ⊕ ρ)} {s : σ} (I : σ → Prop) (hs : I s)
    (hbody : ∀ s, I s → Reads P (body s))
    (hstep : ∀ s s', I s → Step body s s' → I s') : Reads P (loop body s) := by
  rintro e ⟨f, hf⟩
  -- Induction on the iterations that the fuel allows; the fuel of each stays.
  have hiterate : ∀ n s, I s → e ∈ (iterate body f n s).log → P e := by
    intro n
    induction n with
    | zero =>
        intro s _ he
        exact absurd he List.not_mem_nil
    | succ n ih =>
        intro s hs he
        rcases mem_log_andThen.mp he with he | ⟨next, hnext, he⟩
        · exact hbody s hs e ⟨f, he⟩
        · cases next with
          | inl s' => exact ih s' (hstep s s' hs ⟨f, hnext⟩) he
          | inr r => exact absurd he List.not_mem_nil
  exact hiterate f s hs hf

/-- A loop is fine exactly if every iteration that it comes to is. -/
theorem reads_loop_iff {P : ε → Prop} {body : σ → Prog ε (σ ⊕ ρ)} {s : σ} :
    Reads P (loop body s) ↔ ∀ s', Relation.ReflTransGen (Step body) s s' → Reads P (body s') := by
  constructor
  · intro h s' hreach e he
    exact h e (performs_loop_of_reach hreach he)
  · intro h
    exact reads_loop (Relation.ReflTransGen (Step body) s) .refl h fun _ _ => .tail

theorem reads_loop_unfold {P : ε → Prop} {body : σ → Prog ε (σ ⊕ ρ)} {s : σ} :
    Reads P (loop body s) ↔ Reads P (body s) ∧ ∀ s', Step body s s' → Reads P (loop body s') := by
  constructor
  · intro h
    exact ⟨fun e he => h e ((performs_loop_iff body s e).mpr (Or.inl he)),
      fun s' hs' e he => h e ((performs_loop_iff body s e).mpr (Or.inr ⟨s', hs', he⟩))⟩
  · rintro ⟨hfirst, hrest⟩ e he
    rcases (performs_loop_iff body s e).mp he with he | ⟨s', hs', he⟩
    · exact hfirst e he
    · exact hrest s' hs' e he

theorem reads_loop_of_done {P : ε → Prop} {body : σ → Prog ε (σ ⊕ ρ)} {s : σ} {r : ρ}
    (h : (body s).Returns (.inr r)) : Reads P (loop body s) ↔ Reads P (body s) := by
  rw [reads_loop_unfold]
  exact and_iff_left fun s' hs' => absurd (h.unique hs') (by simp)

theorem reads_loop_of_step {P : ε → Prop} {body : σ → Prog ε (σ ⊕ ρ)} {s s' : σ}
    (h : (body s).Returns (.inl s')) :
    Reads P (loop body s) ↔ Reads P (body s) ∧ Reads P (loop body s') := by
  rw [reads_loop_unfold]
  refine and_congr_right fun _ => ⟨fun hall => hall s' h, fun hrest s'' hs'' => ?_⟩
  obtain rfl := Sum.inl.inj (h.unique hs'')
  exact hrest

theorem reads_bind {P : ε → Prop} {p : Prog ε α} {k : α → Prog ε β} (hp : Reads P p)
    (hk : ∀ a, p.Returns a → Reads P (k a)) : Reads P (p >>= k) := by
  intro e he
  rcases (performs_bind p k e).mp he with he | ⟨a, ha, he⟩
  · exact hp e he
  · exact hk a ha e he

theorem reads_liftM_bind {P : ε → Prop} {t : Logged ε α} {k : α → Prog ε β} (ht : Logs P t)
    (hk : Reads P (k t.value)) : Reads P ((liftM t : Prog ε α) >>= k) := by
  intro e he
  rcases (performs_liftM_bind t k e).mp he with he | he
  · exact ht e he
  · exact hk e he

theorem reads_bind_iff {P : ε → Prop} {p : Prog ε α} {k : α → Prog ε β} :
    Reads P (p >>= k) ↔ Reads P p ∧ ∀ a, p.Returns a → Reads P (k a) := by
  constructor
  · intro h
    exact ⟨fun e he => h e ((performs_bind p k e).mpr (Or.inl he)),
      fun a ha e he => h e ((performs_bind p k e).mpr (Or.inr ⟨a, ha, he⟩))⟩
  · rintro ⟨hp, hk⟩
    exact reads_bind hp hk

theorem reads_bind_of {P : ε → Prop} {p : Prog ε α} {a : α} (hp : p.Returns a)
    (k : α → Prog ε β) : Reads P (p >>= k) ↔ Reads P p ∧ Reads P (k a) := by
  rw [reads_bind_iff]
  refine and_congr_right fun _ => ⟨fun hk => hk a hp, fun hk a' ha' => ?_⟩
  obtain rfl := hp.unique ha'
  exact hk

theorem reads_liftM_bind_iff {P : ε → Prop} {t : Logged ε α} {k : α → Prog ε β} :
    Reads P ((liftM t : Prog ε α) >>= k) ↔ Logs P t ∧ Reads P (k t.value) := by
  constructor
  · intro h
    exact ⟨fun e he => h e ((performs_liftM_bind t k e).mpr (Or.inl he)),
      fun e he => h e ((performs_liftM_bind t k e).mpr (Or.inr he))⟩
  · rintro ⟨ht, hk⟩
    exact reads_liftM_bind ht hk

theorem reads_ite {P : ε → Prop} {b : Prop} [Decidable b] {p q : Prog ε α} (hp : b → Reads P p)
    (hq : ¬ b → Reads P q) : Reads P (if b then p else q) := by
  by_cases hb : b
  · rw [if_pos hb]
    exact hp hb
  · rw [if_neg hb]
    exact hq hb

theorem reads_pure (P : ε → Prop) (a : α) : Reads P (pure a : Prog ε α) := by
  intro e he
  exact absurd he (not_performs_pure a e)

/-- An early return. -/
theorem reads_unless {P : ε → Prop} {b : Prop} [Decidable b] {a : α} {p : Prog ε α}
    (h : ¬ b → Reads P p) : Reads P (if b then pure a else p) :=
  reads_ite (fun _ => reads_pure P a) h

/-- **Termination.**  Every iteration from a good state gives a result or leads to
a good state of smaller measure. -/
theorem exists_returns_loop {body : σ → Prog ε (σ ⊕ ρ)} (I : σ → Prop) (μ : σ → Nat)
    (hbody : ∀ s, I s →
      (∃ r, (body s).Returns (.inr r)) ∨ ∃ s', Step body s s' ∧ I s' ∧ μ s' < μ s)
    {s : σ} (hs : I s) : ∃ r, (loop body s).Returns r := by
  induction hμ : μ s using Nat.strong_induction_on generalizing s with
  | h n ih =>
      rcases hbody s hs with ⟨r, hr⟩ | ⟨s', hstep, hs', hlt⟩
      · exact ⟨r, returns_loop_of_done hr⟩
      · obtain ⟨r, hr⟩ := ih (μ s') (hμ ▸ hlt) hs' rfl
        exact ⟨r, returns_loop_of_step hstep hr⟩

/-- **Divergence.**  From a set of states that the loop does not leave there is no
result. -/
theorem not_returns_of_invariant {body : σ → Prog ε (σ ⊕ ρ)} {s : σ} (I : σ → Prop) (hs : I s)
    (hstep : ∀ s, I s → ∃ s', Step body s s' ∧ I s') (r : ρ) : ¬ (loop body s).Returns r := by
  rintro ⟨f, hf⟩
  have hiterate : ∀ n s, I s → (iterate body f n s).value ≠ some r := by
    intro n
    induction n with
    | zero =>
        intro s _ hvalue
        exact absurd hvalue (by simp [iterate])
    | succ n ih =>
        intro s hs hvalue
        obtain ⟨s', hs', hI⟩ := hstep s hs
        obtain ⟨next, hnext, hrest⟩ := value_andThen.mp hvalue
        obtain rfl : Sum.inl s' = next := hs'.unique ⟨f, hnext⟩
        exact ih s' hI hrest
  exact hiterate f s hs hf

/-! ## Total correctness -/

/-- The program returns a result that satisfies `Q`, and performs only events that
satisfy `P`. -/
structure Ensures (P : ε → Prop) (Q : α → Prop) (p : Prog ε α) : Prop where
  events : Reads P p
  result : ∃ a, p.Returns a ∧ Q a

section Ensures

variable {P : ε → Prop} {Q : β → Prop}

theorem ensures_pure {b : β} (h : Q b) : Ensures P Q (pure b : Prog ε β) :=
  ⟨reads_pure P b, b, (returns_pure b b).mpr rfl, h⟩

theorem ensures_liftM_bind {t : Logged ε α} {k : α → Prog ε β} (ht : Logs P t)
    (hk : Ensures P Q (k t.value)) : Ensures P Q ((liftM t : Prog ε α) >>= k) := by
  obtain ⟨b, hb, hQ⟩ := hk.result
  exact ⟨reads_liftM_bind ht hk.events, b, (returns_liftM_bind t k b).mpr hb, hQ⟩

theorem Ensures.bind {R : α → Prop} {p : Prog ε α} {k : α → Prog ε β} (hp : Ensures P R p)
    (hk : ∀ a, R a → Ensures P Q (k a)) : Ensures P Q (p >>= k) := by
  obtain ⟨a, ha, hR⟩ := hp.result
  obtain ⟨b, hb, hQ⟩ := (hk a hR).result
  constructor
  · apply reads_bind hp.events
    intro a' ha'
    obtain rfl := ha.unique ha'
    exact (hk a hR).events
  · exact ⟨b, (returns_bind_of ha k b).mpr hb, hQ⟩

theorem ensures_ite {c : Prop} [Decidable c] {p q : Prog ε β} (hp : c → Ensures P Q p)
    (hq : ¬ c → Ensures P Q q) : Ensures P Q (if c then p else q) := by
  by_cases hc : c
  · rw [if_pos hc]
    exact hp hc
  · rw [if_neg hc]
    exact hq hc

/-- An early return. -/
theorem ensures_unless {c : Prop} [Decidable c] {b : β} {p : Prog ε β} (hb : c → Q b)
    (hp : ¬ c → Ensures P Q p) : Ensures P Q (if c then pure b else p) :=
  ensures_ite (fun hc => ensures_pure (hb hc)) hp

/-- **Total correctness of a loop.**  An iteration from a good state ends the loop with
a good result, or leads to a good state of smaller measure. -/
theorem ensures_loop {Q : ρ → Prop} {body : σ → Prog ε (σ ⊕ ρ)} (I : σ → Prop) (μ : σ → Nat)
    (hbody : ∀ s, I s → Ensures P (Sum.elim (fun s' => I s' ∧ μ s' < μ s) Q) (body s))
    {s : σ} (hs : I s) : Ensures P Q (loop body s) := by
  have hstep : ∀ s s', I s → Step body s s' → I s' := by
    intro s s' hs hs'
    obtain ⟨t, ht, hQ⟩ := (hbody s hs).result
    obtain rfl := ht.unique hs'
    exact hQ.1
  constructor
  · exact reads_loop I hs (fun s hs => (hbody s hs).events) hstep
  · obtain ⟨r, hr⟩ : ∃ r, (loop body s).Returns r := by
      apply exists_returns_loop I μ _ hs
      intro s hs
      obtain ⟨t, ht, hQ⟩ := (hbody s hs).result
      cases t with
      | inl s' => exact Or.inr ⟨s', ht, hQ⟩
      | inr r => exact Or.inl ⟨r, ht⟩
    obtain ⟨s', hs', hdone⟩ := exists_of_returns_loop I hs hstep hr
    obtain ⟨t, ht, hQ⟩ := (hbody s' hs').result
    obtain rfl := ht.unique hdone
    exact ⟨r, hr, hQ⟩

end Ensures

end Prog
