import Mathlib.Tactic

/-!
# Runs under a guard

A deterministic system takes inputs one by one: its run over a list of inputs is
`List.foldl step`.  `Guarded step G s l` says that every input of the run meets
the guard `G` in the state in which it is taken.  What each guarded step
preserves, a guarded run preserves.

An abstract system may see only some of the inputs, and each under another name:
`trace` lists what it sees of a run.  A relation between the states of the two
systems that every guarded step preserves relates the ends of the two runs.
-/

namespace Run

variable {σ α : Type*} {step : σ → α → σ} {G : σ → α → Prop} {I : σ → Prop}

/-- Every input meets the guard in the state in which it is taken. -/
def Guarded (step : σ → α → σ) (G : σ → α → Prop) : σ → List α → Prop
  | _, [] => True
  | s, a :: l => G s a ∧ Guarded step G (step s a) l

theorem Guarded.mono {H : σ → α → Prop} (himp : ∀ s a, G s a → H s a) {s : σ} {l : List α}
    (h : Guarded step G s l) : Guarded step H s l := by
  induction l generalizing s with
  | nil => trivial
  | cons a l ih => exact ⟨himp s a h.1, ih h.2⟩

theorem Guarded.and {H : σ → α → Prop} {s : σ} {l : List α} (hG : Guarded step G s l)
    (hH : Guarded step H s l) : Guarded step (fun s a => G s a ∧ H s a) s l := by
  induction l generalizing s with
  | nil => trivial
  | cons a l ih => exact ⟨⟨hG.1, hH.1⟩, ih hG.2 hH.2⟩

/-- A guard that does not look at the state only has to hold of each input. -/
theorem guarded_of_forall {P : α → Prop} {s : σ} {l : List α} (h : ∀ a ∈ l, P a) :
    Guarded step (fun _ a => P a) s l := by
  induction l generalizing s with
  | nil => trivial
  | cons a l ih =>
      exact ⟨h a List.mem_cons_self, ih fun b hb => h b (List.mem_cons_of_mem _ hb)⟩

/-- The invariant rule. -/
theorem Guarded.invariant (hstep : ∀ s a, I s → G s a → I (step s a)) {s : σ} {l : List α}
    (hs : I s) (h : Guarded step G s l) : I (l.foldl step s) := by
  induction l generalizing s with
  | nil => exact hs
  | cons a l ih => exact ih (hstep s a hs h.1) h.2

/-- What an abstract system sees of a run: the labels of its steps, in order. -/
def trace {β : Type*} (step : σ → α → σ) (label : σ → α → Option β) : σ → List α → List β
  | _, [] => []
  | s, a :: l => (label s a).toList ++ trace step label (step s a) l

/-- The simulation rule. -/
theorem Guarded.simulation {τ β : Type*} {R : σ → τ → Prop} {label : σ → α → Option β}
    {astep : τ → β → τ}
    (hstep : ∀ s t a, R s t → G s a → R (step s a) ((label s a).toList.foldl astep t))
    {s : σ} {t : τ} {l : List α} (hst : R s t) (h : Guarded step G s l) :
    R (l.foldl step s) ((trace step label s l).foldl astep t) := by
  induction l generalizing s t with
  | nil => exact hst
  | cons a l ih =>
      rw [trace, List.foldl_append]
      exact ih (hstep s t a hst h.1) h.2

end Run
