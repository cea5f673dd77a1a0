import Saski.Fdt.ReadSafety

/-!
# Reads of the strings block

`str_at` tests that a property's name begins in the strings block; `str_eq` then compares
it with the requested name up to the first difference or the terminator, wherever the
block ends.  So `fdt_getprop` leaves the block exactly if it comes to a property whose
name has no terminator in the block and agrees with the requested name as far as the
block goes (`getprop_names_iff`).
-/

namespace Saski
namespace Fdt

open Capnp Logged Prog

/-- A byte of a property name lies in the strings block. -/
def InStrings (c : Ctx) : Access → Prop
  | .strings i => c.str ≤ i ∧ i < c.strend
  | _ => True

/-- `name` and its terminator are in the strings block, from `a` on. -/
structure NameAt (c : Ctx) (a : Int) (name : CString) : Prop where
  start : c.str ≤ a
  inside : a + name.chars.length < c.strend
  chars : ∀ i < name.chars.length, name.chars[i]? = some (c.base (a + i))
  terminator : c.base (a + name.chars.length) = 0

/-- From `a` on, all that the strings block has is a beginning of `name`. -/
structure RunsOut (c : Ctx) (name : CString) (a : Int) : Prop where
  short : c.strend ≤ a + name.chars.length
  same : ∀ i : Nat, a + i < c.strend → name.chars[i]? = some (c.base (a + i))

/-- One NOP, or one property with another name. -/
inductive PassesOther (c : Ctx) (name : CString) : Int → Int → Prop
  | prop {p pn : Int} {w : Nat} (h : tokenAt c p = .prop w)
      (hname : strAt c (be32 c.base (p + 8)) = some pn)
      (hother : (strEq .strings c.base pn name.chars).value = false) : PassesOther c name p (p + w)
  | nop {p : Int} (h : tokenAt c p = .nop) : PassesOther c name p (p + 4)

/-- The scan for `name` in the node at `n` meets no name that runs out. -/
def NamesEnd (c : Ctx) (n : Int) (name : CString) : Prop :=
  ∀ (w w' : Nat) (p pn : Int), tokenAt c n = .node w →
    Relation.ReflTransGen (PassesOther c name) (n + w) p → tokenAt c p = .prop w' →
    strAt c (be32 c.base (p + 8)) = some pn → ¬ RunsOut c name pn

/-! ## Comparing -/

/-- `str_eq` reads on as long as the characters agree. -/
theorem logs_strEq_iff {P : Access → Prop} (part : Int → Access) (bytes : Int → UInt8)
    {l : List UInt8} (hl : 0 ∉ l) (a : Int) :
    Logs P (strEq part bytes a l) ↔
      ∀ k ≤ l.length, (∀ i < k, l[i]? = some (bytes (a + i))) → P (part (a + k)) := by
  induction l generalizing a with
  | nil =>
      have hlog : (strEq part bytes a []).log = [part a] := rfl
      simp [Logs, hlog]
  | cons y ys ih =>
      obtain ⟨hy, hys⟩ := not_or.mp (List.mem_cons.not.mp hl)
      have hlog : Logs P (strEq part bytes a (y :: ys)) ↔
          P (part a) ∧ (bytes a = y → Logs P (strEq part bytes (a + 1) ys)) := by
        rw [strEq]
        by_cases heq : bytes a = y
        · simp [Logs, rdByte, heq, show y ≠ 0 from Ne.symm hy]
        · simp [Logs, rdByte, heq]
      have hshift : ∀ i : Nat, a + ((i + 1 : Nat) : Int) = a + 1 + i := fun i => by omega
      rw [hlog, ih hys]
      constructor
      · rintro ⟨hfirst, hrest⟩ k hk hsame
        cases k with
        | zero => simpa using hfirst
        | succ k =>
            have hhead : bytes a = y := by simpa using (hsame 0 (by omega)).symm
            rw [hshift]
            refine hrest hhead k (by simpa using hk) fun i hi => ?_
            have hnext := hsame (i + 1) (by omega)
            rwa [hshift, List.getElem?_cons_succ] at hnext
      · intro hall
        refine ⟨by simpa using hall 0 (by omega), fun hhead k hk hsame => ?_⟩
        have hnext := hall (k + 1) (by simpa using hk) fun i hi => ?_
        · rwa [hshift] at hnext
        · cases i with
          | zero => simp [hhead]
          | succ i =>
              rw [hshift, List.getElem?_cons_succ]
              exact hsame i (by omega)

/-- The comparison stays in the block exactly if the name does not run out. -/
theorem logs_strEq_inStrings_iff {c : Ctx} {a : Int} (hstart : c.str ≤ a) (hinside : a < c.strend)
    (name : CString) :
    Logs (InStrings c) (strEq .strings c.base a name.chars) ↔ ¬ RunsOut c name a := by
  rw [logs_strEq_iff .strings c.base name.noNul]
  constructor
  · rintro hall ⟨hshort, hsame⟩
    have hread := hall (c.strend - a).toNat (by omega) fun i hi => hsame i (by omega)
    exact absurd hread.2 (by omega)
  · intro hout k hk hsame
    refine ⟨by omega, ?_⟩
    by_contra hpast
    exact hout ⟨by omega, fun i hi => hsame i (by omega)⟩

theorem strAt_eq_some_iff {c : Ctx} {off : Nat} {a : Int} :
    strAt c off = some a ↔ a = c.str + off ∧ a < c.strend := by
  unfold strAt
  split
  · simp
    omega
  · simp
    omega

/-! ## Scanning -/

section Scan

variable {blob : Buffer} {c : Ctx}

/-- Words of the block do not matter here. -/
theorem reads_inStrings_word {β : Type} (p : Int) (k : Nat → Prog Access β) :
    Reads (InStrings c) ((liftM (rdBe32 .struct c.base p) : Prog Access Nat) >>= k) ↔
      Reads (InStrings c) (k (be32 c.base p)) := by
  rw [reads_liftM_bind_iff]
  refine and_iff_right (logs_withLog _ ?_)
  simp [InStrings]

theorem reads_inStrings_afterName (n : Int) : Reads (InStrings c) (afterName c n) := by
  unfold afterName
  apply reads_unless
  intro _
  rw [reads_inStrings_word]
  refine reads_unless fun _ => reads_bind ?_ fun r _ => ?_
  · refine reads_bind (reads_loop (fun _ => True) trivial (fun n _ => ?_) fun _ _ _ _ => trivial)
      fun n _ => reads_unless fun _ => reads_pure _ _
    refine reads_ite (fun _ => reads_liftM_bind (logs_withLog _ ?_) ?_) fun _ => reads_pure _ _
    · simp [InStrings]
    · exact reads_unless fun _ => reads_pure _ _
  · cases r with
    | none => exact reads_pure _ _
    | some n => exact reads_pure _ _

/-- One iteration stays in the block, unless it compares a name that runs out. -/
theorem reads_getpropBody_iff (name : CString) (p : Int) :
    Reads (InStrings c) (getpropBody c name p) ↔
      ∀ (w : Nat) (pn : Int), tokenAt c p = .prop w → strAt c (be32 c.base (p + 8)) = some pn →
        ¬ RunsOut c name pn := by
  unfold getpropBody
  by_cases hprop : ∃ w, tokenAt c p = .prop w
  -- Only behind a whole property is there a name to compare.
  · obtain ⟨w, hw⟩ := hprop
    obtain ⟨hok, htoken, hlen, -⟩ := tokenAt_eq_prop_iff.mp hw
    have htests : ¬ (be32 c.base p = fdtBeginNode ∨ be32 c.base p = fdtEndNode) ∧
        ¬ be32 c.base p = fdtNop := by
      rw [htoken]
      decide
    have hheader : ok c p 8 := ⟨hok.1, hok.2.1, by have := hlen.2.1; omega⟩
    rw [if_neg (not_not.mpr hok), reads_inStrings_word, if_neg htests.1, if_neg htests.2,
      if_neg (by simp [htoken, hheader]), reads_inStrings_word, reads_inStrings_word,
      if_neg (not_not.mpr hlen)]
    cases hname : strAt c (be32 c.base (p + 8)) with
    | none => simp [reads_pure]
    | some pn =>
        obtain ⟨rfl, hinside⟩ := strAt_eq_some_iff.mp hname
        simp only
        rw [reads_liftM_bind_iff, logs_strEq_inStrings_iff (by omega) hinside]
        constructor
        · rintro ⟨hout, -⟩ w' pn' - heq
          obtain rfl := Option.some.inj heq
          exact hout
        · intro hall
          exact ⟨hall w _ hw rfl, reads_unless fun _ => reads_pure _ _⟩
  · refine iff_of_true ?_ fun w _ hw => absurd ⟨w, hw⟩ hprop
    apply reads_unless
    intro hok
    rw [reads_inStrings_word]
    apply reads_unless
    intro _
    apply reads_unless
    intro _
    apply reads_unless
    intro hheader
    rw [reads_inStrings_word, reads_inStrings_word]
    obtain ⟨htoken, -⟩ := not_or.mp hheader
    apply reads_unless
    intro hlen
    exact absurd ⟨_, tokenAt_eq_prop_iff.mpr ⟨not_not.mp hok, not_not.mp htoken,
      not_not.mp hlen, rfl⟩⟩ hprop

variable (h : Header blob c)

include h

theorem step_getprop_iff {name : CString} {p q : Int} :
    Step (getpropBody c name) p q ↔ PassesOther c name p q := by
  have hbody := returns_getpropBody h name p
  constructor
  · intro hstep
    have heq := hbody.unique hstep
    cases htoken : tokenAt c p with
    | prop w =>
        simp only [htoken] at heq
        cases hname : strAt c (be32 c.base (p + 8)) with
        | none => simp [hname] at heq
        | some pn =>
            simp only [hname] at heq
            by_cases hsame : (strEq .strings c.base pn name.chars).value = true
            · simp [hsame] at heq
            · rw [if_neg hsame] at heq
              obtain rfl := Sum.inl.inj heq
              exact .prop htoken hname (by simpa using hsame)
    | nop =>
        rw [htoken] at heq
        obtain rfl := Sum.inl.inj heq
        exact .nop htoken
    | node w => simp [htoken] at heq
    | cutNode => simp [htoken] at heq
    | close => simp [htoken] at heq
    | stop => simp [htoken] at heq
  · intro hpass
    cases hpass with
    | prop htoken hname hother =>
        simp only [htoken, hname] at hbody
        rwa [if_neg (by simp [hother])] at hbody
    | nop htoken =>
        rw [htoken] at hbody
        exact hbody

/-- The result comes from a property that the scan comes to, and its name is the requested
one or runs out. -/
theorem nameAt_of_getpropLoop {name : CString} {p v : Int} {len : Nat}
    (hends : ∀ (w : Nat) (q pn : Int), Relation.ReflTransGen (PassesOther c name) p q →
      tokenAt c q = .prop w → strAt c (be32 c.base (q + 8)) = some pn → ¬ RunsOut c name pn)
    (hreturns : (loop (getpropBody c name) p).Returns (some (v, len))) :
    NameAt c (c.str + be32 c.base (v - 4)) name := by
  obtain ⟨q, hreach, hdone⟩ := exists_of_returns_loop
    (Relation.ReflTransGen (PassesOther c name) p) .refl
    (fun s s' hs hstep => hs.tail ((step_getprop_iff h).mp hstep)) hreturns
  have heq := (returns_getpropBody h name q).unique hdone
  cases htoken : tokenAt c q with
  | prop w =>
      simp only [htoken] at heq
      cases hname : strAt c (be32 c.base (q + 8)) with
      | none => simp [hname] at heq
      | some pn =>
          simp only [hname] at heq
          by_cases hsame : (strEq .strings c.base pn name.chars).value = true
          · have hout := hends w q pn hreach htoken hname
            obtain ⟨hchars, hend⟩ := (value_strEq .strings c.base name.noNul pn).mp hsame
            obtain ⟨rfl, hinside⟩ := strAt_eq_some_iff.mp hname
            rw [if_pos hsame] at heq
            obtain ⟨rfl, -⟩ := Prod.mk.inj (Option.some.inj (Sum.inr.inj heq))
            rw [show q + 12 - 4 = q + 8 by omega]
            refine ⟨by omega, ?_, hchars, hend⟩
            by_contra hpast
            -- All the bytes up to the end of the block agree with the name.
            exact hout ⟨by omega, fun i hi => hchars i (by omega)⟩
          · simp [hsame] at heq
  | node w => simp [htoken] at heq
  | cutNode => simp [htoken] at heq
  | close => simp [htoken] at heq
  | nop => simp [htoken] at heq
  | stop => simp [htoken] at heq

theorem reads_getprop_iff (n : Int) (name : CString) :
    Reads (InStrings c) (fdtGetprop blob n (some name)) ↔ NamesEnd c n name := by
  have hstep : Step (getpropBody c name) = PassesOther c name := by
    ext p q
    exact step_getprop_iff h
  unfold fdtGetprop NamesEnd
  simp only
  rw [reads_liftM_bind_iff, (value_ctxInit blob c).mpr h,
    and_iff_right (logs_ctxInit fun _ => trivial)]
  simp only
  rw [reads_bind_of (returns_afterName c n), and_iff_right (reads_inStrings_afterName n)]
  cases htoken : tokenAt c n with
  | node w =>
      simp only
      rw [reads_loop_iff, hstep]
      constructor
      · intro hall w₁ w₂ p pn hnode hreach
        obtain rfl := Token.node.inj hnode
        exact (reads_getpropBody_iff name p).mp (hall p hreach) w₂ pn
      · intro hall p hreach
        exact (reads_getpropBody_iff name p).mpr fun w₂ pn => hall w w₂ p pn rfl hreach
  | cutNode => simp [reads_pure]
  | close => simp [reads_pure]
  | prop w => simp [reads_pure]
  | nop => simp [reads_pure]
  | stop => simp [reads_pure]

theorem nameAt_of_getprop {n v : Int} {len : Nat} {name : CString} (hends : NamesEnd c n name)
    (hreturns : (fdtGetprop blob n (some name)).Returns (some (v, len))) :
    NameAt c (c.str + be32 c.base (v - 4)) name := by
  unfold fdtGetprop at hreturns
  simp only at hreturns
  rw [returns_liftM_bind, (value_ctxInit blob c).mpr h] at hreturns
  obtain ⟨r, hafter, hreturns⟩ := (returns_bind _ _ _).mp hreturns
  cases r with
  | none => simp at hreturns
  | some p =>
      obtain ⟨w, htoken, rfl⟩ := node_of_afterName hafter
      exact nameAt_of_getpropLoop h (fun w' q pn => hends w w' q pn htoken) hreturns

end Scan

/-- **Property names.**  `fdt_getprop` stays in the strings block, and what it returns has the
requested name there, exactly if the scan meets no name that runs out. -/
theorem getprop_names_iff (blob : Buffer) (size : Nat) (hvalid : (fdtValid blob size).value = true)
    (n : Int) (name : CString) :
    (Reads (InStrings (ctxOf blob)) (fdtGetprop blob n (some name)) ∧
      ∀ v len, (fdtGetprop blob n (some name)).Returns (some (v, len)) →
        NameAt (ctxOf blob) ((ctxOf blob).str + be32 blob.bytes (v - 4)) name) ↔
      NamesEnd (ctxOf blob) n name := by
  have h := header_of_fdtValid hvalid
  rw [reads_getprop_iff h]
  constructor
  · exact fun hboth => hboth.1
  · intro hends
    exact ⟨hends, fun v len hreturns => nameAt_of_getprop h hends hreturns⟩

/-- In a strings block that ends with a terminator, no name runs out. -/
theorem namesEnd_of_terminated {c : Ctx} (hend : c.base (c.strend - 1) = 0) (n : Int)
    (name : CString) : NamesEnd c n name := by
  rintro w w' p pn - - - hname ⟨hshort, hsame⟩
  obtain ⟨-, hinside⟩ := strAt_eq_some_iff.mp hname
  have hlast := hsame (c.strend - 1 - pn).toNat (by omega)
  rw [show pn + ((c.strend - 1 - pn).toNat : Int) = c.strend - 1 by omega, hend] at hlast
  exact name.noNul (List.mem_of_getElem? hlast)

/-- A root with one property, whose name is at the beginning of the strings block. -/
def oneProperty (strings : List UInt8) : Buffer :=
  blobOf (wordBytes fdtBeginNode ++ [0, 0, 0, 0] ++ wordBytes fdtProp ++ wordBytes 4 ++
    wordBytes 0 ++ [1, 2, 3, 4] ++ wordBytes fdtEndNode ++ wordBytes fdtEnd) strings

theorem noNul_p : (0 : UInt8) ∉ [112] := by decide

/-- With its terminator in the block, the name is read to its end and no further. -/
theorem oneProperty_names_end :
    (fdtValid (oneProperty [112, 0]) 74).value = true ∧
      Reads (InStrings (ctxOf (oneProperty [112, 0])))
        (fdtGetprop (oneProperty [112, 0]) 40 (some ⟨[112], noNul_p⟩)) := by
  have hvalid : (fdtValid (oneProperty [112, 0]) 74).value = true := by decide +kernel
  have hend : (ctxOf (oneProperty [112, 0])).base
      ((ctxOf (oneProperty [112, 0])).strend - 1) = 0 := by
    decide +kernel
  exact ⟨hvalid, ((getprop_names_iff _ 74 hvalid 40 ⟨[112], noNul_p⟩).mpr
    (namesEnd_of_terminated hend 40 _)).1⟩

/-- Without it, the byte behind the block is taken for the terminator. -/
theorem oneProperty_name_runs_out :
    (fdtValid (oneProperty [112]) 73).value = true ∧
      (ctxOf (oneProperty [112])).strend = 73 ∧
      (fdtGetprop (oneProperty [112]) 40 (some ⟨[112], noNul_p⟩)).Performs (.strings 73) ∧
      (fdtGetprop (oneProperty [112]) 40 (some ⟨[112], noNul_p⟩)).Returns (some (60, 4)) ∧
      ¬ NameAt (ctxOf (oneProperty [112]))
        ((ctxOf (oneProperty [112])).str + be32 (oneProperty [112]).bytes (60 - 4))
        ⟨[112], noNul_p⟩ := by
  have hstrend : (ctxOf (oneProperty [112])).strend = 73 := by decide +kernel
  have hname : (ctxOf (oneProperty [112])).str + be32 (oneProperty [112]).bytes (60 - 4) = 72 := by
    decide +kernel
  refine ⟨by decide +kernel, hstrend, ⟨3, by decide +kernel⟩, ⟨3, by decide +kernel⟩, ?_⟩
  rintro ⟨-, hinside, -, -⟩
  rw [hname, hstrend] at hinside
  exact absurd hinside (by decide)

end Fdt
end Saski
