import Mathlib.Tactic

/-!
# Stores with create and destroy

A store maps keys to values.  CREATE binds a key, whether or not it was bound,
and DESTROY unbinds it.  What a store holds at a key after a list of operations
is decided by the last operation on that key: `contents_eq_some_iff`.
-/

namespace KeyedStore

/-- The operations of a store. -/
inductive Op (κ ν : Type*) where
  | create (key : κ) (value : ν)
  | destroy (key : κ)
  deriving DecidableEq

/-- The key an operation is about. -/
def Op.key {κ ν : Type*} : Op κ ν → κ
  | .create k _ => k
  | .destroy k => k

/-- The bound keys, with their values. -/
abbrev Store (κ ν : Type*) := κ → Option ν

variable {κ ν : Type*} [DecidableEq κ]

def Store.apply (m : Store κ ν) : Op κ ν → Store κ ν
  | .create k v => Function.update m k (some v)
  | .destroy k => Function.update m k none

/-- What a store that was empty holds after a list of operations. -/
def contents (ops : List (Op κ ν)) : Store κ ν := ops.foldl Store.apply fun _ => none

/-- The last operation on a key. -/
def lastOn (k : κ) (ops : List (Op κ ν)) : Option (Op κ ν) :=
  (ops.filter fun op => op.key = k).getLast?

/-! ## Single operations -/

theorem Store.apply_of_ne (m : Store κ ν) (op : Op κ ν) {k : κ} (hne : k ≠ op.key) :
    m.apply op k = m k := by
  cases op with
  | create k' v => exact Function.update_of_ne hne _ _
  | destroy k' => exact Function.update_of_ne hne _ _

@[simp] theorem Store.apply_create_self (m : Store κ ν) (k : κ) (v : ν) :
    m.apply (.create k v) k = some v :=
  Function.update_self _ _ _

@[simp] theorem Store.apply_destroy_self (m : Store κ ν) (k : κ) :
    m.apply (.destroy k) k = none :=
  Function.update_self _ _ _

/-! ## Lists of operations -/

theorem contents_append (ops ops' : List (Op κ ν)) :
    contents (ops ++ ops') = ops'.foldl Store.apply (contents ops) := by
  unfold contents
  rw [List.foldl_append]

theorem contents_append_singleton (ops : List (Op κ ν)) (op : Op κ ν) :
    contents (ops ++ [op]) = (contents ops).apply op :=
  contents_append ops [op]

theorem lastOn_append_singleton (k : κ) (ops : List (Op κ ν)) (op : Op κ ν) :
    lastOn k (ops ++ [op]) = if op.key = k then some op else lastOn k ops := by
  unfold lastOn
  by_cases hop : op.key = k
  · simp [hop]
  · simp [hop]

/-- A key is bound if the last operation on it was a CREATE, and to the value of
that CREATE. -/
theorem contents_eq_some_iff (ops : List (Op κ ν)) (k : κ) (v : ν) :
    contents ops k = some v ↔ lastOn k ops = some (.create k v) := by
  induction ops using List.reverseRecOn with
  | nil => simp [contents, lastOn]
  | append_singleton ops op ih =>
      rw [contents_append_singleton, lastOn_append_singleton]
      by_cases hop : op.key = k
      · subst hop
        cases op with
        | create k' v' => simp [Op.key]
        | destroy k' => simp [Op.key]
      · -- Neither side sees an operation on another key.
        rw [Store.apply_of_ne _ op (Ne.symm hop), if_neg hop]
        exact ih

/-- The last operation on a key splits the list: nothing behind it is about that
key. -/
theorem exists_split_of_lastOn {k : κ} {ops : List (Op κ ν)} {op : Op κ ν}
    (hlast : lastOn k ops = some op) :
    ∃ before after, ops = before ++ op :: after ∧ ∀ later ∈ after, later.key ≠ k := by
  induction ops using List.reverseRecOn with
  | nil => exact absurd hlast (by simp [lastOn])
  | append_singleton ops last ih =>
      rw [lastOn_append_singleton] at hlast
      by_cases hself : last.key = k
      · rw [if_pos hself] at hlast
        obtain rfl := Option.some.inj hlast
        exact ⟨ops, [], rfl, by simp⟩
      · rw [if_neg hself] at hlast
        obtain ⟨before, after, rfl, hafter⟩ := ih hlast
        refine ⟨before, after ++ [last], by simp, ?_⟩
        intro later hlater
        rcases List.mem_append.mp hlater with hlater | hlater
        · exact hafter later hlater
        · rw [List.mem_singleton.mp hlater]
          exact hself

end KeyedStore
