import Mathlib

/-!
# Agents that share a memory

Several agents take steps in any order.  Each has a state of its own, and all of them
read and write one memory.

An agent is confined to a set of addresses by an invariant that is a matter of these
addresses: the agent keeps the invariant, and writes nowhere else.  If the sets of the
agents are apart, every agent keeps its invariant in every run, whatever the others do
in the meantime (`invariant_of_runs`).  If moreover every agent can get to its end alone,
then every run can be completed (`exists_runs_done`).

The steps of an agent may be as small as single accesses to memory (`Script`).  If the
accesses of its program are to addresses of its own, then in every run of the world the
agent is at a point of the run that the program makes alone (`confined_alone`).
-/

namespace Agents

variable {ι σ A B : Type*}

/-- The states of the agents, and the memory. -/
structure World (ι σ A B : Type*) where
  own : ι → σ
  mem : A → B

/-- Some agent takes a step. -/
inductive Move [DecidableEq ι] (step : ι → σ × (A → B) → σ × (A → B) → Prop) :
    World ι σ A B → World ι σ A B → Prop where
  | agent (w : World ι σ A B) (i : ι) {s : σ} {m : A → B} (h : step i (w.own i, w.mem) (s, m)) :
      Move step w ⟨Function.update w.own i s, m⟩

/-- Steps of the agents in some order. -/
def Runs [DecidableEq ι] (step : ι → σ × (A → B) → σ × (A → B) → Prop) :
    World ι σ A B → World ι σ A B → Prop :=
  Relation.ReflTransGen (Move step)

/-- The invariant confines an agent to the addresses in `S`. -/
structure Confined (S : Set A) (I : σ → (A → B) → Prop)
    (step : σ × (A → B) → σ × (A → B) → Prop) : Prop where
  /-- the invariant is a matter of these addresses -/
  congr : ∀ {s m n}, I s m → Set.EqOn n m S → I s n
  keeps : ∀ {s m s' m'}, I s m → step (s, m) (s', m') → I s' m'
  frame : ∀ {s m s' m'}, I s m → step (s, m) (s', m') → Set.EqOn m' m Sᶜ

section Runs

variable [DecidableEq ι] {step : ι → σ × (A → B) → σ × (A → B) → Prop} {S : ι → Set A}
  {I : ι → σ → (A → B) → Prop}

/-- A step of one agent is confined, and does not touch the invariants of the others. -/
theorem invariant_of_move (hconfined : ∀ i, Confined (S i) (I i) (step i))
    (hapart : Pairwise fun i j => Disjoint (S i) (S j)) {w v : World ι σ A B}
    (hw : ∀ i, I i (w.own i) w.mem) (hmove : Move step w v) :
    (∀ i, I i (v.own i) v.mem) ∧ Set.EqOn v.mem w.mem (⋃ i, S i)ᶜ := by
  obtain ⟨j, h⟩ := hmove
  have hframe := (hconfined j).frame (hw j) h
  constructor
  · intro i
    by_cases hij : i = j
    · subst hij
      simp only [Function.update_self]
      exact (hconfined i).keeps (hw i) h
    · simp only [Function.update_of_ne hij]
      apply (hconfined i).congr (hw i)
      intro a ha
      exact hframe (Set.disjoint_left.mp (hapart hij) ha)
  · intro a ha
    exact hframe fun haj => ha (Set.mem_iUnion.mpr ⟨j, haj⟩)

/-- **The rule for runs.** -/
theorem invariant_of_runs (hconfined : ∀ i, Confined (S i) (I i) (step i))
    (hapart : Pairwise fun i j => Disjoint (S i) (S j)) {w v : World ι σ A B}
    (hw : ∀ i, I i (w.own i) w.mem) (hrun : Runs step w v) :
    (∀ i, I i (v.own i) v.mem) ∧ Set.EqOn v.mem w.mem (⋃ i, S i)ᶜ := by
  induction hrun with
  | refl => exact ⟨hw, Set.eqOn_refl _ _⟩
  | tail _ hmove ih =>
      obtain ⟨hinv, hmem⟩ := invariant_of_move hconfined hapart ih.1 hmove
      exact ⟨hinv, hmem.trans ih.2⟩

/-- What an agent does alone, it does in the world. -/
theorem runs_of_steps {w : World ι σ A B} {i : ι} {s : σ} {m : A → B}
    (h : Relation.ReflTransGen (step i) (w.own i, w.mem) (s, m)) :
    Runs step w ⟨Function.update w.own i s, m⟩ := by
  generalize hx : (s, m) = x at h
  induction h generalizing s m with
  | refl =>
      obtain ⟨rfl, rfl⟩ := Prod.mk.inj hx
      rw [Function.update_eq_self]
      exact .refl
  | @tail y z _ hstep ih =>
      subst hx
      refine (ih (s := y.1) (m := y.2) rfl).tail ?_
      have hmove : Move step ⟨Function.update w.own i y.1, y.2⟩
          ⟨Function.update (Function.update w.own i y.1) i s, m⟩ :=
        .agent _ i (by simpa using hstep)
      rwa [Function.update_idem] at hmove

/-- **Completion.**  If every agent can get to its end alone, then there is a run in which
all of them get there. -/
theorem exists_runs_done [Fintype ι] (done : ι → σ → Prop)
    (hconfined : ∀ i, Confined (S i) (I i) (step i))
    (hapart : Pairwise fun i j => Disjoint (S i) (S j))
    (hfinish : ∀ i {s m}, I i s m →
      ∃ s' m', Relation.ReflTransGen (step i) (s, m) (s', m') ∧ done i s')
    {w : World ι σ A B} (hw : ∀ i, I i (w.own i) w.mem) :
    ∃ v, Runs step w v ∧ ∀ i, done i (v.own i) := by
  -- One agent after the other.
  have hsome : ∀ t : Finset ι, ∃ v, Runs step w v ∧ ∀ i ∈ t, done i (v.own i) := by
    intro t
    induction t using Finset.induction_on with
    | empty => exact ⟨w, .refl, fun i hi => absurd hi (Finset.notMem_empty i)⟩
    | insert i t hi ih =>
        obtain ⟨v, hrun, hv⟩ := ih
        obtain ⟨s, m, hsteps, hdone⟩ :=
          hfinish i ((invariant_of_runs hconfined hapart hw hrun).1 i)
        refine ⟨_, hrun.trans (runs_of_steps hsteps), fun j hj => ?_⟩
        rcases Finset.mem_insert.mp hj with rfl | hj
        · simpa using hdone
        · have hne : j ≠ i := fun h => hi (h ▸ hj)
          simpa [Function.update_of_ne hne] using hv j hj
  obtain ⟨v, hrun, hv⟩ := hsome Finset.univ
  exact ⟨v, hrun, fun i => hv i (Finset.mem_univ i)⟩

end Runs

/-! ## One access after the other -/

/-- A program, as its accesses to memory one after the other; `none` is its end. -/
abbrev Script (σ A B : Type*) := σ × (A → B) → Option (σ × (A → B))

namespace Script

variable (f : Script σ A B)

/-- From one point of a run to a later one. -/
def Reach : σ × (A → B) → σ × (A → B) → Prop := Relation.ReflTransGen fun x y => f x = some y

/-- The next access is to addresses in `T`. -/
structure LocalAt (T : Set A) (x : σ × (A → B)) : Prop where
  stops : ∀ n, Set.EqOn n x.2 T → f x = none → f (x.1, n) = none
  access : ∀ n, Set.EqOn n x.2 T → ∀ {s m}, f x = some (s, m) →
    ∃ n', f (x.1, n) = some (s, n') ∧ Set.EqOn n' m T ∧ Set.EqOn n' n Tᶜ

/-- A step of an agent: an access of its program, or stores to memory that the program does
not look at. -/
inductive Step (scratch : Set A) : σ × (A → B) → σ × (A → B) → Prop where
  | access {x y : σ × (A → B)} (h : f x = some y) : Step scratch x y
  | scratch (s : σ) {m m' : A → B} (h : Set.EqOn m' m scratchᶜ) : Step scratch (s, m) (s, m')

/-- The agent is at a point of the run that its program makes alone. -/
def Alone (T : Set A) (x₀ : σ × (A → B)) (s : σ) (m : A → B) : Prop :=
  ∃ g, f.Reach x₀ (s, g) ∧ Set.EqOn m g T

variable {f}

theorem LocalAt.of_some {T : Set A} {s t : σ} {m m' : A → B} (h : f (s, m) = some (t, m'))
    (haccess : ∀ n, Set.EqOn n m T →
      ∃ n', f (s, n) = some (t, n') ∧ Set.EqOn n' m' T ∧ Set.EqOn n' n Tᶜ) :
    f.LocalAt T (s, m) where
  stops := by
    intro n _ hnone
    rw [h] at hnone
    exact absurd hnone (by simp)
  access := by
    intro n hn s' m'' hsome
    obtain ⟨rfl, rfl⟩ := Prod.mk.inj (Option.some.inj (h.symm.trans hsome))
    exact haccess n hn

theorem LocalAt.of_none {T : Set A} {s : σ} {m : A → B} (h : ∀ n, f (s, n) = none) :
    f.LocalAt T (s, m) where
  stops := fun n _ _ => h n
  access := by
    intro n _ s' m' hsome
    rw [h] at hsome
    exact absurd hsome (by simp)

theorem Reach.head {x y z : σ × (A → B)} (h : f x = some y) (hreach : f.Reach y z) :
    f.Reach x z :=
  Relation.ReflTransGen.head h hreach

theorem Reach.tail {x y z : σ × (A → B)} (hreach : f.Reach x y) (h : f y = some z) :
    f.Reach x z :=
  Relation.ReflTransGen.tail hreach h

/-- There is one run. -/
theorem Reach.of_end {x y z : σ × (A → B)} (hy : f.Reach x y) (hz : f.Reach x z)
    (hend : f z = none) : f.Reach y z := by
  induction hy using Relation.ReflTransGen.head_induction_on with
  | refl => exact hz
  | head hstep _ ih =>
      rcases Relation.ReflTransGen.cases_head hz with rfl | ⟨next, hnext, hrest⟩
      · rw [hend] at hstep
        exact absurd hstep (by simp)
      · obtain rfl := Option.some.inj (hstep.symm.trans hnext)
        exact ih hrest

/-- A run has one end. -/
theorem Reach.unique {x y z : σ × (A → B)} (hy : f.Reach x y) (hz : f.Reach x z)
    (hendy : f y = none) (hend : f z = none) : y = z := by
  rcases Relation.ReflTransGen.cases_head (hy.of_end hz hend) with heq | ⟨next, hnext, -⟩
  · exact heq
  · rw [hendy] at hnext
    exact absurd hnext (by simp)

variable {T S scratch : Set A} {x₀ : σ × (A → B)} (hlocal : ∀ x, f.Reach x₀ x → f.LocalAt T x)

include hlocal

/-- **The reduction.**  An agent whose accesses stay in `T` sees its own run, whatever other
agents do elsewhere between any two of them. -/
theorem confined_alone (hT : T ⊆ S) (hscratch : scratch ⊆ S) (hapart : Disjoint T scratch) :
    Confined S (f.Alone T x₀) (f.Step scratch) where
  congr := by
    rintro s m n ⟨g, hreach, hm⟩ hn
    exact ⟨g, hreach, (hn.mono hT).trans hm⟩
  keeps := by
    rintro s m s' m' ⟨g, hreach, hm⟩ hstep
    cases hstep with
    | access h =>
        cases hnext : f (s, g) with
        | none =>
            rw [(hlocal _ hreach).stops m hm hnext] at h
            exact absurd h (by simp)
        | some y =>
            obtain ⟨n', hn', heq, -⟩ := (hlocal _ hreach).access m hm (s := y.1) (m := y.2) hnext
            obtain ⟨rfl, rfl⟩ := Prod.mk.inj (Option.some.inj (hn'.symm.trans h))
            exact ⟨y.2, hreach.tail hnext, heq⟩
    | scratch _ h =>
        exact ⟨g, hreach, (h.mono (Set.disjoint_left.mp hapart)).trans hm⟩
  frame := by
    rintro s m s' m' ⟨g, hreach, hm⟩ hstep
    cases hstep with
    | access h =>
        cases hnext : f (s, g) with
        | none =>
            rw [(hlocal _ hreach).stops m hm hnext] at h
            exact absurd h (by simp)
        | some y =>
            obtain ⟨n', hn', -, hframe⟩ :=
              (hlocal _ hreach).access m hm (s := y.1) (m := y.2) hnext
            obtain ⟨rfl, rfl⟩ := Prod.mk.inj (Option.some.inj (hn'.symm.trans h))
            exact hframe.mono (Set.compl_subset_compl.mpr hT)
    | scratch _ h => exact h.mono (Set.compl_subset_compl.mpr hscratch)

/-- An agent whose program ends alone can get to the end from where it is. -/
theorem Alone.finish {z : σ × (A → B)} (hz : f.Reach x₀ z) (hend : f z = none) {s : σ} {m : A → B}
    (h : f.Alone T x₀ s m) :
    ∃ m', Relation.ReflTransGen (f.Step scratch) (s, m) (z.1, m') := by
  obtain ⟨g, hreach, hm⟩ := h
  have hrest := hreach.of_end hz hend
  generalize hx : (s, g) = x at hrest
  induction hrest using Relation.ReflTransGen.head_induction_on generalizing s m g with
  | refl =>
      subst hx
      exact ⟨m, .refl⟩
  | @head x y hstep _ ih =>
      subst hx
      obtain ⟨n, hn, heq, -⟩ := (hlocal _ hreach).access m hm (s := y.1) (m := y.2) hstep
      obtain ⟨m', hsteps⟩ := ih y.2 (hreach.tail hstep) heq rfl
      exact ⟨m', hsteps.head (.access hn)⟩

end Script

end Agents
