import Mathlib.Logic.Relation
import Mathlib.Tactic

/-!
# Runs of machine code

A machine fetches an instruction from its state and executes it; either may fail.  The
instruction may come from a fixed program or from the machine's own memory: `fetch` is any
function of the state.

* `Runs fetch exec s t`: the machine gets from `s` to `t` in some number of steps.
* `Runs.block`: a straight line of instructions.  An invariant `I j` of the state before
  instruction `j` says where the machine stands and what its code is; the effect is the
  fold of the single effects.
* `Runs.loop`: a counted loop.
-/

namespace CodeRun

variable {ι σ : Type*} {fetch : σ → Option ι} {exec : ι → σ → Option σ}

/-- One instruction. -/
def Step (fetch : σ → Option ι) (exec : ι → σ → Option σ) (s t : σ) : Prop :=
  (fetch s).bind (exec · s) = some t

/-- Some number of instructions. -/
def Runs (fetch : σ → Option ι) (exec : ι → σ → Option σ) : σ → σ → Prop :=
  Relation.ReflTransGen (Step fetch exec)

theorem Runs.refl (s : σ) : Runs fetch exec s s := Relation.ReflTransGen.refl

theorem Runs.trans {s t u : σ} (h : Runs fetch exec s t) (h' : Runs fetch exec t u) :
    Runs fetch exec s u := Relation.ReflTransGen.trans h h'

theorem Runs.one {s t : σ} {i : ι} (hfetch : fetch s = some i) (hexec : exec i s = some t) :
    Runs fetch exec s t := by
  apply Relation.ReflTransGen.single
  rw [Step, hfetch, Option.bind_some, hexec]

/-- The effect of a straight line of instructions. -/
def execAll (exec : ι → σ → Option σ) : List ι → σ → Option σ
  | [], s => some s
  | i :: is, s => (exec i s).bind (execAll exec is)

theorem execAll_cons {i : ι} {is : List ι} {s t : σ} (h : exec i s = some t) :
    execAll exec (i :: is) s = execAll exec is t := by
  rw [execAll, h, Option.bind_some]

theorem execAll_append {is js : List ι} {s t : σ} (h : execAll exec is s = some t) :
    execAll exec (is ++ js) s = execAll exec js t := by
  induction is generalizing s with
  | nil =>
      obtain rfl := Option.some.inj h
      rfl
  | cons i is ih =>
      obtain ⟨u, hu, hrest⟩ := Option.bind_eq_some_iff.mp h
      rw [List.cons_append, execAll, hu, Option.bind_some, ih hrest]

/-- **A straight line of instructions.** -/
theorem Runs.block {is : List ι} {s t : σ} (I : Nat → σ → Prop)
    (hfetch : ∀ j i s, is[j]? = some i → I j s → fetch s = some i)
    (hstep : ∀ j i s t, is[j]? = some i → I j s → exec i s = some t → I (j + 1) t)
    (hs : I 0 s) (hexec : execAll exec is s = some t) :
    Runs fetch exec s t ∧ I is.length t := by
  induction is generalizing s I with
  | nil =>
      obtain rfl := Option.some.inj hexec
      exact ⟨.refl s, hs⟩
  | cons i is ih =>
      obtain ⟨u, hu, hrest⟩ := Option.bind_eq_some_iff.mp hexec
      have hone : Runs fetch exec s u := .one (hfetch 0 i s rfl hs) hu
      obtain ⟨hrun, hend⟩ := ih (fun j => I (j + 1))
        (fun j i s hi => hfetch (j + 1) i s hi) (fun j i s t hi => hstep (j + 1) i s t hi)
        (hstep 0 i s u rfl hs hu) hrest
      exact ⟨hone.trans hrun, hend⟩

/-- **A counted loop.**  Iteration `j` leads from `I j` to `I (j + 1)`. -/
theorem Runs.loop {s : σ} (I : Nat → σ → Prop) {n : Nat}
    (hstep : ∀ j < n, ∀ s, I j s → ∃ t, Runs fetch exec s t ∧ I (j + 1) t) (hs : I 0 s) :
    ∃ t, Runs fetch exec s t ∧ I n t := by
  induction n with
  | zero => exact ⟨s, .refl s, hs⟩
  | succ n ih =>
      obtain ⟨u, hsu, hu⟩ := ih fun j hj => hstep j (by omega)
      obtain ⟨t, hut, ht⟩ := hstep n (by omega) u hu
      exact ⟨t, hsu.trans hut, ht⟩

end CodeRun
