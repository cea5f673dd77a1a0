import Saski.Fdt.TreeSearch

/-!
# The status of a node (`lib/fdt.c`)

A node is enabled if it has no `status`, an empty one, or one that reads `okay` or `ok`.
`fdt_is_enabled` compares the leading characters of the value and does not ask for the
NUL behind `okay`, nor behind the `ok` of a value of three bytes.  So it agrees with the
documented reading except on the values that such a comparison takes for another string
(`fdtIsEnabled_iff`).
-/

namespace Saski
namespace Fdt

open Capnp Logged Prog

/-- `"status"`. -/
def statusName : CString where
  chars := [115, 116, 97, 116, 117, 115]
  noNul := by decide

/-- The characters of `"okay"`. -/
def okayChars : List UInt8 := [111, 107, 97, 121]

/-- The characters of `"ok"`. -/
def okChars : List UInt8 := [111, 107]

/-! ## The function -/

/-- `st[0] == 'o' && st[1] == 'k' && ...`: characters are compared until one differs. -/
def beginsWith (bytes : Int → UInt8) : (st : Int) → List UInt8 → Logged Access Bool
  | _, [] => pure true
  | st, y :: ys => do
      let x ← rdByte .value bytes st
      if x = y then beginsWith bytes (st + 1) ys else pure false

/-- The test for `"okay"`. -/
def statusOkay (bytes : Int → UInt8) (st : Int) (len : Nat) : Logged Access Bool :=
  if 5 ≤ len then beginsWith bytes st okayChars else pure false

/-- The test for `"ok"`. -/
def statusOk (bytes : Int → UInt8) (st : Int) (len : Nat) : Logged Access Bool :=
  if 3 ≤ len then do
    if ← beginsWith bytes st okChars then do
      let x ← rdByte .value bytes (st + 2)
      pure (decide (x = 0 ∨ len = 3))
    else pure false
  else pure false

/-- `fdt_is_enabled`. -/
def fdtIsEnabled (blob : Buffer) (nodeOffset : Int) : Prog Access Bool := do
  match ← fdtGetprop blob nodeOffset (some statusName) with
  | none => pure true
  | some (st, len) =>
      if len = 0 then pure true
      else do
        if ← statusOkay blob.bytes st len then pure true
        else statusOk blob.bytes st len

/-! ## The documented reading -/

/-- A node with this status is enabled: it is absent, or empty, or its string is `okay`
or `ok`. -/
def Enabled : Option (List UInt8) → Prop
  | none => True
  | some l =>
      l = [] ∨ (stringEntries l).head? = some okayChars ∨
        (stringEntries l).head? = some okChars

/-- The values that only begin like an enabled status: no NUL stands where the string
should end. -/
def OnlyBegins (l : List UInt8) : Prop :=
  (5 ≤ l.length ∧ okayChars <+: l ∧ l[4]? ≠ some 0) ∨
    (l.length = 3 ∧ okChars <+: l ∧ l[2]? ≠ some 0)

instance (l : List UInt8) : Decidable (OnlyBegins l) :=
  inferInstanceAs (Decidable (_ ∨ _))

theorem concat_prefix_iff {s l : List UInt8} {x : UInt8} :
    s ++ [x] <+: l ↔ s <+: l ∧ l[s.length]? = some x := by
  constructor
  · rintro ⟨r, rfl⟩
    simp
  · rintro ⟨⟨r, rfl⟩, hx⟩
    rw [List.getElem?_append_right le_rfl, Nat.sub_self] at hx
    cases r with
    | nil => simp at hx
    | cons y ys =>
        obtain rfl : y = x := by simpa using hx
        exact ⟨ys, by simp⟩

/-- The first string of a list is what stands in front of its first NUL. -/
theorem head?_stringEntries_iff {l s : List UInt8} (hs : 0 ∉ s) :
    (stringEntries l).head? = some s ↔ s <+: l ∧ l[s.length]? = some 0 := by
  rw [← concat_prefix_iff]
  constructor
  · intro h
    by_cases hnul : 0 ∈ l
    · obtain ⟨first, rest, rfl, hfirst⟩ := List.eq_append_cons_of_mem hnul
      rw [stringEntries_cons hfirst, List.head?_cons] at h
      obtain rfl := Option.some.inj h
      exact ⟨rest, by simp⟩
    · rw [stringEntries_of_noNul hnul] at h
      simp at h
  · rintro ⟨r, rfl⟩
    rw [List.append_assoc, List.singleton_append, stringEntries_cons hs]
    rfl

theorem enabled_some_iff (l : List UInt8) :
    Enabled (some l) ↔
      l = [] ∨ (okayChars <+: l ∧ l[4]? = some 0) ∨ (okChars <+: l ∧ l[2]? = some 0) := by
  have hokay : (stringEntries l).head? = some okayChars ↔ okayChars <+: l ∧ l[4]? = some 0 :=
    head?_stringEntries_iff (by decide)
  have hok : (stringEntries l).head? = some okChars ↔ okChars <+: l ∧ l[2]? = some 0 :=
    head?_stringEntries_iff (by decide)
  rw [Enabled, hokay, hok]

/-- What the function accepts of a value that is there. -/
def Accepted (l : List UInt8) : Prop :=
  l = [] ∨ (5 ≤ l.length ∧ okayChars <+: l) ∨
    (3 ≤ l.length ∧ okChars <+: l ∧ (l[2]? = some 0 ∨ l.length = 3))

/-- The two readings of a value agree unless it only begins like an enabled status. -/
theorem accepted_iff_enabled (l : List UInt8) :
    (Accepted l ↔ Enabled (some l)) ↔ ¬ OnlyBegins l := by
  have hlong : okayChars <+: l → l[2]? ≠ some 0 := by
    rintro ⟨r, rfl⟩
    simp [okayChars]
  have hfour : l[4]? = some 0 → 5 ≤ l.length := fun h => (List.getElem?_eq_some_iff.mp h).1
  have htwo : l[2]? = some 0 → 3 ≤ l.length := fun h => (List.getElem?_eq_some_iff.mp h).1
  rw [enabled_some_iff]
  constructor
  · rintro h (⟨hlen, hokay, hnul⟩ | ⟨hlen, hok, hnul⟩)
    · rcases h.mp (Or.inr (Or.inl ⟨hlen, hokay⟩)) with rfl | ⟨-, hzero⟩ | ⟨-, hzero⟩
      · simp at hlen
      · exact hnul hzero
      · exact hlong hokay hzero
    · rcases h.mp (Or.inr (Or.inr ⟨hlen.ge, hok, Or.inr hlen⟩)) with rfl | ⟨-, hzero⟩ | ⟨-, hzero⟩
      · simp at hlen
      · have := hfour hzero
        omega
      · exact hnul hzero
  · intro h
    constructor
    · rintro (hnil | ⟨hlen, hokay⟩ | ⟨hlen, hok, hend⟩)
      · exact Or.inl hnil
      · exact Or.inr (Or.inl ⟨hokay, of_not_not fun hnul => h (Or.inl ⟨hlen, hokay, hnul⟩)⟩)
      · refine Or.inr (Or.inr ⟨hok, of_not_not fun hnul => ?_⟩)
        rcases hend with hzero | hthree
        · exact hnul hzero
        · exact h (Or.inr ⟨hthree, hok, hnul⟩)
    · rintro (hnil | ⟨hokay, hzero⟩ | ⟨hok, hzero⟩)
      · exact Or.inl hnil
      · exact Or.inr (Or.inl ⟨hfour hzero, hokay⟩)
      · exact Or.inr (Or.inr ⟨htwo hzero, hok, Or.inl hzero⟩)

/-! ## The function on a well-formed blob -/

section Value

variable {bytes : Int → UInt8} {st : Int} {l : List UInt8}

theorem value_beginsWith {s : List UInt8} (hat : ∀ i < l.length, l[i]? = some (bytes (st + i)))
    (hlen : s.length ≤ l.length) : (beginsWith bytes st s).value = true ↔ s <+: l := by
  induction s generalizing st l with
  | nil => simp [beginsWith]
  | cons y ys ih =>
      cases l with
      | nil => simp at hlen
      | cons x xs =>
          have hx : bytes st = x := by
            have hzero := hat 0 (by simp)
            simpa using hzero.symm
          have hrest : ∀ i < xs.length, xs[i]? = some (bytes (st + 1 + i)) := by
            intro i hi
            have hnext := hat (i + 1) (by simpa using hi)
            rw [List.getElem?_cons_succ] at hnext
            rw [hnext, Nat.cast_add, Nat.cast_one, Int.add_assoc, Int.add_comm 1]
          rw [beginsWith, value_bind, value_rdByte, hx, List.cons_prefix_cons]
          by_cases heq : x = y
          · rw [if_pos heq, ih hrest (by simpa using hlen)]
            simp [heq]
          · rw [if_neg heq]
            simp [Ne.symm heq]

variable (hat : ∀ i < l.length, l[i]? = some (bytes (st + i)))

include hat

theorem value_statusOkay :
    (statusOkay bytes st l.length).value = true ↔ 5 ≤ l.length ∧ okayChars <+: l := by
  unfold statusOkay
  by_cases hlen : 5 ≤ l.length
  · rw [if_pos hlen, value_beginsWith hat (by simp [okayChars]; omega)]
    simp [hlen]
  · simp [hlen]

theorem value_statusOk :
    (statusOk bytes st l.length).value = true ↔
      3 ≤ l.length ∧ okChars <+: l ∧ (l[2]? = some 0 ∨ l.length = 3) := by
  unfold statusOk
  by_cases hlen : 3 ≤ l.length
  · have hbegins := value_beginsWith (s := okChars) hat (by simp [okChars]; omega)
    rw [if_pos hlen, value_bind]
    by_cases hok : okChars <+: l
    · have hend : l[2]? = some (bytes (st + 2)) := hat 2 (by omega)
      rw [if_pos (hbegins.mpr hok), value_bind, value_rdByte, value_pure, decide_eq_true_iff, hend]
      simp only [hlen, hok, Option.some.injEq, true_and]
    · rw [if_neg (mt hbegins.mp hok)]
      simp [hok]
  · simp [hlen]

end Value

/-- `fdt_is_enabled` returns, and says whether it accepts the value of the status. -/
theorem WellFormed.returns_fdtIsEnabled {blob : Buffer} {t : DeviceTree} (h : WellFormed blob t)
    {e : Entry} (he : e ∈ t.entries (ctxOf blob).s) :
    ∃ r, (fdtIsEnabled blob e.off).Returns r ∧
      (r = true ↔ ∀ l, e.value statusName = some l → Accepted l) := by
  have hvalue := h.returns_getprop he statusName
  unfold fdtIsEnabled
  simp only [returns_bind_of hvalue, Entry.value_eq_located]
  cases hfind : e.located statusName with
  | none => exact ⟨true, by simp, by simp⟩
  | some x =>
      obtain ⟨st, l⟩ := x
      have hat : ∀ i < l.length, l[i]? = some (blob.bytes (st + i)) :=
        (h.bytesAt_located he statusName hfind).2.2
      have hokay := value_statusOkay hat
      have hok := value_statusOk hat
      simp only [Option.map_some, Option.some.injEq, forall_eq', Accepted]
      by_cases hempty : l = []
      · exact ⟨true, by simp [hempty], by simp [hempty]⟩
      have hlen : l.length ≠ 0 := mt List.length_eq_zero_iff.mp hempty
      by_cases haccept : 5 ≤ l.length ∧ okayChars <+: l
      · refine ⟨true, ?_, by simp [haccept]⟩
        rw [if_neg hlen, returns_liftM_bind, if_pos (hokay.mpr haccept)]
        exact (returns_pure _ _).mpr rfl
      · refine ⟨(statusOk blob.bytes st l.length).value, ?_, ?_⟩
        · rw [if_neg hlen, returns_liftM_bind, if_neg (mt hokay.mp haccept)]
          exact returns_lift_value _
        · rw [or_iff_right hempty, or_iff_right haccept]
          exact hok

/-- `fdt_is_enabled` reads the status as documented exactly if the node has none, or one
whose value does not only begin like an enabled status. -/
theorem fdtIsEnabled_iff {blob : Buffer} {t : DeviceTree} (h : WellFormed blob t) {e : Entry}
    (he : e ∈ t.entries (ctxOf blob).s) :
    ∃ r, (fdtIsEnabled blob e.off).Returns r ∧
      ((r = true ↔ Enabled (e.value statusName)) ↔
        ∀ l, e.value statusName = some l → ¬ OnlyBegins l) := by
  obtain ⟨r, hr, haccept⟩ := h.returns_fdtIsEnabled he
  refine ⟨r, hr, ?_⟩
  rw [haccept]
  cases hstatus : e.value statusName with
  | none => simp [Enabled]
  | some l =>
      simp only [Option.some.injEq, forall_eq']
      exact accepted_iff_enabled l

/-- A root with this status. -/
def statusTree (value : List UInt8) : DeviceTree where
  name := ⟨[], noNul_nil⟩
  props := [{ gap := 0, name := statusName, nameOff := 0, value }]
  kids := .nil
  close := 0
  after := 0

/-- The blob of such a tree. -/
def statusBlob (value : List UInt8) : Buffer :=
  blobOf (statusTree value).structBlock [115, 116, 97, 116, 117, 115, 0]

/-- `"okay"`, as a value. -/
def okayValue : List UInt8 := okayChars ++ [0]

theorem wellFormed_okay : WellFormed (statusBlob okayValue) (statusTree okayValue) :=
  wellFormed_blobOf _ _ (by decide) (by decide)

/-- The status `okay` is read as documented. -/
theorem okayValue_enabled :
    WellFormed (statusBlob okayValue) (statusTree okayValue) ∧
      ∃ r, (fdtIsEnabled (statusBlob okayValue) 40).Returns r ∧
        (r = true ↔ Enabled (some okayValue)) := by
  have hs : (ctxOf (statusBlob okayValue)).s = 40 := by decide +kernel
  obtain ⟨r, hr, hiff⟩ := fdtIsEnabled_iff wellFormed_okay List.mem_cons_self
  refine ⟨wellFormed_okay, r, hs ▸ hr, hiff.mpr ?_⟩
  rintro l hl
  obtain rfl : okayValue = l := Option.some.inj hl
  decide

/-- `"okayish"`, as a value. -/
def okayishValue : List UInt8 := okayChars ++ [105, 115, 104, 0]

theorem wellFormed_okayish : WellFormed (statusBlob okayishValue) (statusTree okayishValue) :=
  wellFormed_blobOf _ _ (by decide) (by decide)

/-- The status `okayish` is taken for `okay`. -/
theorem okayishValue_misread :
    ¬ ∀ (blob : Buffer) (t : DeviceTree), WellFormed blob t → ∀ e ∈ t.entries (ctxOf blob).s,
      ∃ r, (fdtIsEnabled blob e.off).Returns r ∧ (r = true ↔ Enabled (e.value statusName)) := by
  intro h
  obtain ⟨r, hr, hread⟩ := h _ _ wellFormed_okayish _ List.mem_cons_self
  obtain ⟨r', hr', haccept⟩ := wellFormed_okayish.returns_fdtIsEnabled List.mem_cons_self
  obtain rfl := hr.unique hr'
  have hagree : Accepted okayishValue ↔ Enabled (some okayishValue) := by
    refine Iff.trans ?_ hread
    rw [haccept]
    exact ⟨fun ha l hl => Option.some.inj hl ▸ ha, fun ha => ha _ rfl⟩
  exact (accepted_iff_enabled okayishValue).mp hagree (by decide)

end Fdt
end Saski
