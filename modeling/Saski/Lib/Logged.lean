import Mathlib.Tactic

/-!
# Computations that log their accesses

A `Logged ε α` is a value of type `α` together with the finite list of events
of type `ε` that computing it performed, in order.  A program that reads
through untrusted indices is written once in this monad; its result is the
`value`, and a statement about which reads it performs is a statement about
the `log`.

`Logs P t` says that every event of `t` satisfies `P`.  The rules below give
it for `pure`, `bind` and the early-exit loop `allFrom`, so that a safety
proof follows the shape of the program and never opens a log by hand.
-/

/-- A value together with the events logged while computing it. -/
structure Logged (ε α : Type) where
  value : α
  log : List ε

namespace Logged

variable {ε α β : Type}

instance : Monad (Logged ε) where
  pure a := ⟨a, []⟩
  bind t f := ⟨(f t.value).value, t.log ++ (f t.value).log⟩

/-- Log a single event. -/
def emit (e : ε) : Logged ε Unit := ⟨(), [e]⟩

/-- Return `a` and log the events `es`. -/
def withLog (a : α) (es : List ε) : Logged ε α := ⟨a, es⟩

/-- Rename the events of a computation, keeping its value. -/
def relabel {ε' : Type} (g : ε → ε') (t : Logged ε α) : Logged ε' α :=
  ⟨t.value, t.log.map g⟩

@[simp] theorem value_pure (a : α) : (pure a : Logged ε α).value = a := rfl

@[simp] theorem log_pure (a : α) : (pure a : Logged ε α).log = [] := rfl

@[simp] theorem value_bind (t : Logged ε α) (f : α → Logged ε β) :
    (t >>= f).value = (f t.value).value := rfl

@[simp] theorem log_bind (t : Logged ε α) (f : α → Logged ε β) :
    (t >>= f).log = t.log ++ (f t.value).log := rfl

@[simp] theorem log_emit (e : ε) : (emit e).log = [e] := rfl

@[simp] theorem value_withLog (a : α) (es : List ε) :
    (withLog a es).value = a := rfl

@[simp] theorem log_withLog (a : α) (es : List ε) :
    (withLog a es).log = es := rfl

@[simp] theorem value_relabel {ε' : Type} (g : ε → ε') (t : Logged ε α) :
    (t.relabel g).value = t.value := rfl

@[simp] theorem log_relabel {ε' : Type} (g : ε → ε') (t : Logged ε α) :
    (t.relabel g).log = t.log.map g := rfl

/-- Every event logged by `t` satisfies `P`. -/
def Logs (P : ε → Prop) (t : Logged ε α) : Prop :=
  ∀ e ∈ t.log, P e

theorem logs_pure (P : ε → Prop) (a : α) : Logs P (pure a : Logged ε α) := by
  simp [Logs]

theorem logs_withLog {P : ε → Prop} (a : α) {es : List ε}
    (h : ∀ e ∈ es, P e) : Logs P (withLog a es) := h

/-- The continuation only has to be safe on the value that was computed. -/
theorem logs_bind_iff {P : ε → Prop} {t : Logged ε α} {f : α → Logged ε β} :
    Logs P (t >>= f) ↔ Logs P t ∧ Logs P (f t.value) := by
  unfold Logs
  rw [log_bind, List.forall_mem_append]

theorem logs_bind {P : ε → Prop} {t : Logged ε α} {f : α → Logged ε β}
    (ht : Logs P t) (hf : Logs P (f t.value)) : Logs P (t >>= f) :=
  logs_bind_iff.mpr ⟨ht, hf⟩

theorem Logs.mono {P Q : ε → Prop} {t : Logged ε α} (h : Logs P t)
    (hPQ : ∀ e, P e → Q e) : Logs Q t :=
  fun e he => hPQ e (h e he)

theorem logs_ite {P : ε → Prop} {c : Prop} [Decidable c] {t u : Logged ε α}
    (ht : c → Logs P t) (hu : ¬ c → Logs P u) :
    Logs P (if c then t else u) := by
  by_cases hc : c
  · rw [if_pos hc]
    exact ht hc
  · rw [if_neg hc]
    exact hu hc

/-- An early return. -/
theorem logs_unless {P : ε → Prop} {c : Prop} [Decidable c] {a : α} {t : Logged ε α}
    (h : ¬ c → Logs P t) : Logs P (if c then pure a else t) :=
  logs_ite (fun _ => logs_pure P a) h

/-! ## The early-exit loop -/

/-- `for (i = start; count--; i++) if (!f(i)) return false; return true;` -/
def allFrom (f : Nat → Logged ε Bool) : (count start : Nat) → Logged ε Bool
  | 0, _ => pure true
  | count + 1, start => do
      if ← f start then allFrom f count (start + 1) else pure false

/-- The loop accepts exactly when every iteration does. -/
theorem value_allFrom (f : Nat → Logged ε Bool) (count start : Nat) :
    (allFrom f count start).value = true ↔
      ∀ i, start ≤ i → i < start + count → (f i).value = true := by
  induction count generalizing start with
  | zero =>
      simp only [allFrom, value_pure, true_iff]
      intro i hle hlt
      omega
  | succ count ih =>
      simp only [allFrom, value_bind]
      by_cases hstart : (f start).value = true
      · rw [if_pos hstart, ih]
        constructor
        · intro h i hle hlt
          rcases Nat.eq_or_lt_of_le hle with rfl | hgt
          · exact hstart
          · exact h i hgt (by omega)
        · intro h i hle hlt
          exact h i (by omega) (by omega)
      · rw [if_neg hstart]
        simp only [value_pure, Bool.false_eq_true, false_iff]
        intro h
        exact hstart (h start le_rfl (by omega))

/-- The loop is safe when each of its iterations is. -/
theorem logs_allFrom {P : ε → Prop} {f : Nat → Logged ε Bool}
    (count start : Nat)
    (h : ∀ i, start ≤ i → i < start + count → Logs P (f i)) :
    Logs P (allFrom f count start) := by
  induction count generalizing start with
  | zero => exact logs_pure P true
  | succ count ih =>
      refine logs_bind (h start le_rfl (by omega)) (logs_ite ?_ ?_)
      · intro _
        exact ih (start + 1) fun i hle hlt => h i (by omega) (by omega)
      · intro _
        exact logs_pure P false

end Logged
