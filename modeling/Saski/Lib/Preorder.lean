import Mathlib.Tactic

/-!
# Document order

A tree is given by the children of each node.  A node is listed with its path, the
node first and the root last, so that the same label in two places is two entries.

`preorder` lists the paths down to a given level in document order.  `advance` is the
successor that an explicit-stack search computes from a path alone: descend to the
first child, or climb until there is a next sibling.  `advance_preorder` says that it
walks the list from left to right, as long as it does not leave the levels.
-/

namespace Preorder

variable {α : Type}

/-- The paths of `n` and of all nodes at most `levels` below it. -/
def preorder (kids : α → List α) : (levels : Nat) → (n : α) → (path : List α) → List (List α)
  | 0, n, path => [n :: path]
  | levels + 1, n, path =>
      (n :: path) :: (kids n).flatMap fun k => preorder kids levels k (n :: path)

/-- The next sibling of the nearest node on the path that has one. -/
def climb (next : α → α → Option α) : List α → Option (List α)
  | x :: p :: rest =>
      match next p x with
      | some y => some (y :: p :: rest)
      | none => climb next (p :: rest)
  | _ => none

/-- The next path in document order. -/
def advance (kids : α → List α) (next : α → α → Option α) : List α → Option (List α)
  | [] => none
  | n :: path =>
      match kids n with
      | k :: _ => some (k :: n :: path)
      | [] => climb next (n :: path)

/-- A path at the last level, whose node has children further down. -/
def AtLimit (kids : α → List α) (limit : Nat) (path : List α) : Prop :=
  path.length = limit ∧ ∃ n rest, path = n :: rest ∧ kids n ≠ []

variable {kids : α → List α} {next : α → α → Option α}

theorem advance_of_cons {n k : α} {ks : List α} (h : kids n = k :: ks) (path : List α) :
    advance kids next (n :: path) = some (k :: n :: path) := by
  simp [advance, h]

theorem advance_of_nil {n : α} (h : kids n = []) (path : List α) :
    advance kids next (n :: path) = climb next (n :: path) := by
  simp [advance, h]

theorem head?_preorder (levels : Nat) (n : α) (path : List α) :
    (preorder kids levels n path).head? = some (n :: path) := by
  cases levels with
  | zero => rfl
  | succ levels => rfl

/-- A list of siblings without the ones before: its first path is that of the first. -/
theorem head?_flatMap_preorder (levels : Nat) (path ks : List α) :
    (ks.flatMap fun k => preorder kids levels k path).head? = ks.head?.map (· :: path) := by
  cases ks with
  | nil => rfl
  | cons k ks =>
      rw [List.flatMap_cons, List.head?_append, head?_preorder]
      rfl

/-- An entry of a concatenation lies in one of the lists. -/
theorem exists_of_flatMap {β γ : Type} {f : β → List γ} {ks : List β} {xs ys : List γ} {a : γ}
    (h : ks.flatMap f = xs ++ a :: ys) :
    ∃ before k after xs' ys', ks = before ++ k :: after ∧ f k = xs' ++ a :: ys' ∧
      xs = before.flatMap f ++ xs' ∧ ys = ys' ++ after.flatMap f := by
  induction ks generalizing xs with
  | nil => exact absurd h (by simp)
  | cons k ks ih =>
      rw [List.flatMap_cons] at h
      rcases List.append_eq_append_iff.mp h with ⟨mid, rfl, hlater⟩ | ⟨mid, hfirst, hlater⟩
      · obtain ⟨before, k', after, xs', ys', rfl, hk', rfl, rfl⟩ := ih hlater
        exact ⟨k :: before, k', after, xs', ys', rfl, hk', by simp, rfl⟩
      · cases mid with
        | nil =>
            rw [List.append_nil] at hfirst
            have hrest : ks.flatMap f = [] ++ a :: ys := hlater.symm
            obtain ⟨before, k', after, xs', ys', rfl, hk', hnil, rfl⟩ := ih hrest
            refine ⟨k :: before, k', after, xs', ys', rfl, hk', ?_, rfl⟩
            rw [List.flatMap_cons, hfirst, List.append_assoc, ← hnil, List.append_nil]
        | cons b mid =>
            rw [List.cons_append] at hlater
            obtain ⟨rfl, rfl⟩ := List.cons.inj hlater
            exact ⟨[], k, ks, xs, mid, rfl, hfirst, rfl, rfl⟩

/-- **Document order.**  From a path that is not at the limit, `advance` leads to the
next path of the list; from the last one it climbs out. -/
theorem advance_preorder (hnext : ∀ p x xs ys, kids p = xs ++ x :: ys → next p x = ys.head?)
    {levels : Nat} : ∀ {n : α} {path : List α} {xs : List (List α)} {a : List α}
    {ys : List (List α)}, preorder kids levels n path = xs ++ a :: ys →
      ¬ AtLimit kids (path.length + levels + 1) a →
        advance kids next a = ys.head?.or (climb next (n :: path)) := by
  induction levels with
  | zero =>
      intro n path xs a ys hsplit hlimit
      obtain ⟨rfl, rfl, rfl⟩ : xs = [] ∧ a = n :: path ∧ ys = [] := by
        cases xs with
        | nil =>
            obtain ⟨rfl, rfl⟩ := List.cons.inj hsplit
            exact ⟨rfl, rfl, rfl⟩
        | cons x xs => exact absurd (List.cons.inj hsplit).2 (by simp)
      have hnone : kids n = [] := by
        by_contra hne
        exact hlimit ⟨rfl, n, path, rfl, hne⟩
      rw [advance_of_nil hnone]
      rfl
  | succ levels ih =>
      intro n path xs a ys hsplit hlimit
      cases xs with
      | nil =>
          obtain ⟨rfl, rfl⟩ := List.cons.inj hsplit
          rw [head?_flatMap_preorder]
          cases hkids : kids n with
          | nil =>
              rw [advance_of_nil hkids]
              rfl
          | cons k ks =>
              rw [advance_of_cons hkids]
              rfl
      | cons x xs =>
          obtain ⟨-, hrest⟩ := List.cons.inj hsplit
          obtain ⟨before, k, after, xs', ys', hkids, hk, -, rfl⟩ := exists_of_flatMap hrest
          have hlevel : (n :: path).length + levels + 1 = path.length + (levels + 1) + 1 := by
            rw [List.length_cons]
            omega
          -- Behind the subtree of `k` comes the next sibling, or the walk climbs on.
          rw [ih hk (by rwa [hlevel]), List.head?_append, head?_flatMap_preorder, climb,
            hnext n k before after hkids]
          cases ys' with
          | cons b ys' => rfl
          | nil =>
              cases after with
              | nil => rfl
              | cons k' after => rfl

/-- The paths of a tree. -/
inductive IsPath (kids : α → List α) (root : α) : List α → Prop
  | root : IsPath kids root [root]
  | child {n k : α} {path : List α} (hpath : IsPath kids root (n :: path)) (hk : k ∈ kids n) :
      IsPath kids root (k :: n :: path)

/-- Everything that is listed below a path is a path, not longer than the levels allow. -/
theorem isPath_of_mem_preorder {root : α} {levels : Nat} : ∀ {n : α} {path a : List α},
    IsPath kids root (n :: path) → a ∈ preorder kids levels n path →
      IsPath kids root a ∧ a.length ≤ path.length + levels + 1 := by
  induction levels with
  | zero =>
      intro n path a hpath ha
      obtain rfl := List.mem_singleton.mp ha
      exact ⟨hpath, le_rfl⟩
  | succ levels ih =>
      intro n path a hpath ha
      rcases List.mem_cons.mp ha with rfl | ha
      · exact ⟨hpath, by simp⟩
      · obtain ⟨k, hk, ha⟩ := List.mem_flatMap.mp ha
        obtain ⟨hpath', hle⟩ := ih (IsPath.child hpath hk) ha
        rw [List.length_cons] at hle
        exact ⟨hpath', by omega⟩

/-- A path is listed behind its parent's. -/
theorem parent_mem_before {levels : Nat} : ∀ {n x : α} {path p : List α} {xs ys : List (List α)},
    preorder kids levels n path = xs ++ (x :: p) :: ys → p = path ∨ p ∈ xs := by
  induction levels with
  | zero =>
      intro n x path p xs ys hsplit
      cases xs with
      | nil =>
          obtain ⟨hhead, -⟩ := List.cons.inj hsplit
          exact Or.inl (List.cons.inj hhead).2.symm
      | cons y xs => exact absurd (List.cons.inj hsplit).2 (by simp)
  | succ levels ih =>
      intro n x path p xs ys hsplit
      cases xs with
      | nil =>
          obtain ⟨hhead, -⟩ := List.cons.inj hsplit
          exact Or.inl (List.cons.inj hhead).2.symm
      | cons y xs =>
          obtain ⟨rfl, hrest⟩ := List.cons.inj hsplit
          obtain ⟨before, k, after, xs', ys', -, hk, rfl, -⟩ := exists_of_flatMap hrest
          rcases ih hk with rfl | hmem
          · exact Or.inr (by simp)
          · exact Or.inr (by simp [hmem])

end Preorder
