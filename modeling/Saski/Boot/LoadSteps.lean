import Saski.Boot.MachoImage
import Saski.Lib.Agents

/-!
# `macho_load`, one store at a time

The loader of `Saski.Boot.Macho` as a program that makes one store after the other, with
the loops' variables in its state.  Other cores may take their turns between any two of
its steps.

* `reach_of_returns`: where `machoLoad` returns, the steps end with the same memory and
  the same entry point.
* `loadAction_of_eqOn`: on the commands of the image, what the loader does next is decided by
  the bytes of the image.  It stores to the places of the segments (`loadAction_store`).
-/

namespace Saski
namespace Boot

open ByteMemory Logged Prog Agents

/-! ## The steps -/

/-- The variables of the first pass. -/
structure Walk where
  slice : Addr
  p : Addr
  i : Nat
  entryoff : Nat
  haveEntry : Bool

/-- `p += lc->cmdsize`, and the next round. -/
def Walk.next (m : Mem 64) (s : Walk) : Walk := { s with p := nextCommand m s.p, i := s.i + 1 }

/-- Where the loader is. -/
inductive LoadPc where
  | start
  /-- at the head of the first pass -/
  | pass (s : Walk)
  /-- in `dst[b] = src[b]` -/
  | copy (s : Walk) (dst src : Addr) (b : Nat)
  /-- in `dst[b] = 0` -/
  | zero (s : Walk) (dst : Addr) (b : Nat)
  | done (entry : Addr)

/-- What the loader does next: where it goes, and the byte that it stores on the way.  The
second pass does not store. -/
def loadAction (arch : Arch) (image target : Addr) (m : Mem 64) :
    LoadPc → LoadPc × Option (Addr × UInt8)
  | .start =>
      match nativeSlice arch m image with
      | none => (.done 0, none)
      | some slice => (.pass ⟨slice, slice + BitVec.ofNat 64 sizeofMachHeader64, 0, 0, false⟩, none)
  | .pass s =>
      if s.i < (headerAt m s.slice).ncmds then
        if (commandAt m s.p).cmd = lcSegment64 then
          if (segmentAt m s.p).vmsize = 0 ∨ (segmentAt m s.p).filesize = 0 then
            (.pass (s.next m), none)
          else
            (.copy s (target + BitVec.ofNat 64 (segmentAt m s.p).vmaddr)
              (s.slice + BitVec.ofNat 64 (segmentAt m s.p).fileoff) 0, none)
        else if (commandAt m s.p).cmd = lcMain then
          (.pass ({ s with entryoff := entryoffAt m s.p, haveEntry := true }.next m), none)
        else (.pass (s.next m), none)
      else if s.haveEntry = false then (.done 0, none)
      else
        (.done (entryAddr m target s.entryoff (headerAt m s.slice).ncmds
          (s.slice + BitVec.ofNat 64 sizeofMachHeader64)), none)
  | .copy s dst src b =>
      if b < (segmentAt m s.p).filesize then
        (.copy s dst src (b + 1), some (dst + BitVec.ofNat 64 b, m (src + BitVec.ofNat 64 b)))
      else (.zero s dst (segmentAt m s.p).filesize, none)
  | .zero s dst b =>
      if b < (segmentAt m s.p).vmsize then
        (.zero s dst (b + 1), some (dst + BitVec.ofNat 64 b, 0))
      else (.pass (s.next m), none)
  | .done entry => (.done entry, none)

/-- The memory behind a store, if there is one. -/
def perform (m : Mem 64) : Option (Addr × UInt8) → Mem 64
  | none => m
  | some (a, v) => Function.update m a v

theorem perform_congr {m n : Mem 64} {T : Set Addr} (h : Set.EqOn n m T)
    (w : Option (Addr × UInt8)) : Set.EqOn (perform n w) (perform m w) T := by
  intro x hx
  cases w with
  | none => exact h hx
  | some w => rw [perform, perform, Function.update_apply, Function.update_apply, h hx]

theorem perform_frame (m : Mem 64) {w : Option (Addr × UInt8)} {T : Set Addr}
    (hw : ∀ a v, w = some (a, v) → a ∈ T) : Set.EqOn (perform m w) m Tᶜ := by
  intro x hx
  cases w with
  | none => rfl
  | some w =>
      have hne : x ≠ w.1 := by
        rintro rfl
        exact hx (hw w.1 w.2 rfl)
      rw [perform, Function.update_of_ne hne]

/-- One step of the loader. -/
def loadStep (arch : Arch) (image target : Addr) (x : LoadPc × Mem 64) : LoadPc × Mem 64 :=
  ((loadAction arch image target x.2 x.1).1,
    perform x.2 (loadAction arch image target x.2 x.1).2)

/-- The steps of the loader. -/
def loadNext (arch : Arch) (image target : Addr) : Script LoadPc Addr UInt8
  | (.done _, _) => none
  | (pc, m) => some (loadStep arch image target (pc, m))

/-! ## The steps lead to what the loader returns -/

section Returns

variable {arch : Arch} {image target : Addr}

theorem step_fillBody {limit : Mem 64 → Nat} {byte : Mem 64 → Nat → UInt8} {dst : Addr}
    {c c' : Cursor} (h : Step (fillBody limit byte dst) c c') :
    c.b < limit c.mem ∧
      c' = ⟨c.b + 1, Function.update c.mem (dst + BitVec.ofNat 64 c.b) (byte c.mem c.b)⟩ := by
  unfold Step fillBody at h
  by_cases hlt : c.b < limit c.mem
  · rw [if_pos hlt, returns_bind] at h
    obtain ⟨mem, hmem, hc⟩ := h
    obtain rfl := (returns_lift _ _).mp hmem
    exact ⟨hlt, (Sum.inl.inj ((returns_pure _ _).mp hc)).symm⟩
  · rw [if_neg hlt, returns_pure] at h
    exact absurd h (by simp)

theorem returns_fillBody_inr {limit : Mem 64 → Nat} {byte : Mem 64 → Nat → UInt8} {dst : Addr}
    {c : Cursor} {m : Mem 64} (h : (fillBody limit byte dst c).Returns (.inr m)) :
    ¬ c.b < limit c.mem ∧ m = c.mem := by
  unfold fillBody at h
  by_cases hlt : c.b < limit c.mem
  · rw [if_pos hlt, returns_bind] at h
    obtain ⟨mem, -, hc⟩ := h
    exact absurd ((returns_pure _ _).mp hc) (by simp)
  · rw [if_neg hlt, returns_pure] at h
    exact ⟨hlt, (Sum.inr.inj h).symm⟩

theorem reach_copyContent (s : Walk) (dst src : Addr) {m m' : Mem 64}
    (h : (copyContent s.p dst src m).Returns m') :
    (loadNext arch image target).Reach (.copy s dst src 0, m)
      (.zero s dst (segmentAt m' s.p).filesize, m') := by
  obtain ⟨c, hreach, hlast⟩ := exists_reach_of_returns_loop h
  obtain ⟨hdone, rfl⟩ := returns_fillBody_inr hlast
  refine Script.Reach.tail (y := (.copy s dst src c.b, c.mem)) ?_ ?_
  · refine Relation.ReflTransGen.lift (fun c : Cursor => (LoadPc.copy s dst src c.b, c.mem)) ?_ _ _
      hreach
    intro c c' hstep
    obtain ⟨hlt, rfl⟩ := step_fillBody hstep
    change loadNext arch image target (.copy s dst src c.b, c.mem) = _
    simp only [loadNext, loadStep, loadAction, if_pos hlt]
    rfl
  · simp only [loadNext, loadStep, loadAction, if_neg hdone]
    rfl

theorem reach_zeroTail (s : Walk) (dst : Addr) {m m' : Mem 64}
    (h : (zeroTail s.p dst m).Returns m') :
    (loadNext arch image target).Reach (.zero s dst (segmentAt m s.p).filesize, m)
      (.pass (s.next m'), m') := by
  obtain ⟨c, hreach, hlast⟩ := exists_reach_of_returns_loop h
  obtain ⟨hdone, rfl⟩ := returns_fillBody_inr hlast
  refine Script.Reach.tail (y := (.zero s dst c.b, c.mem)) ?_ ?_
  · refine Relation.ReflTransGen.lift (fun c : Cursor => (LoadPc.zero s dst c.b, c.mem)) ?_ _ _
      hreach
    intro c c' hstep
    obtain ⟨hlt, rfl⟩ := step_fillBody hstep
    change loadNext arch image target (.zero s dst c.b, c.mem) = _
    simp only [loadNext, loadStep, loadAction, if_pos hlt]
    rfl
  · simp only [loadNext, loadStep, loadAction, if_neg hdone]
    rfl

/-- The variables of the first pass, without the memory. -/
def Pass.walk (slice : Addr) (t : Pass) : Walk := ⟨slice, t.p, t.i, t.entryoff, t.haveEntry⟩

/-- The steps for one command. -/
theorem reach_mapBody {slice : Addr} {t t' : Pass} (h : Step (mapBody slice target) t t') :
    (loadNext arch image target).Reach (.pass (t.walk slice), t.mem)
      (.pass (t'.walk slice), t'.mem) := by
  unfold Step mapBody at h
  by_cases hlt : t.i < (headerAt t.mem slice).ncmds
  swap
  · rw [if_neg hlt, returns_pure] at h
    exact absurd h (by simp)
  rw [if_pos hlt, returns_bind] at h
  obtain ⟨u, hu, hnext⟩ := h
  obtain rfl := Sum.inl.inj ((returns_pure _ _).mp hnext)
  have hlt' : (t.walk slice).i < (headerAt t.mem (t.walk slice).slice).ncmds := hlt
  unfold mapCommand at hu
  by_cases hsegment : (commandAt t.mem t.p).cmd = lcSegment64
  · have hsegment' : (commandAt t.mem (t.walk slice).p).cmd = lcSegment64 := hsegment
    rw [if_pos hsegment, returns_bind] at hu
    obtain ⟨mem, hmem, hpure⟩ := hu
    obtain rfl := (returns_pure _ _).mp hpure
    unfold mapSegment at hmem
    by_cases hskip : (segmentAt t.mem t.p).vmsize = 0 ∨ (segmentAt t.mem t.p).filesize = 0
    · have hskip' : (segmentAt t.mem (t.walk slice).p).vmsize = 0 ∨
          (segmentAt t.mem (t.walk slice).p).filesize = 0 := hskip
      rw [if_pos hskip, returns_pure] at hmem
      subst hmem
      refine .single ?_
      simp only [loadNext, loadStep, loadAction, if_pos hlt', if_pos hsegment', if_pos hskip']
      rfl
    · have hskip' : ¬ ((segmentAt t.mem (t.walk slice).p).vmsize = 0 ∨
          (segmentAt t.mem (t.walk slice).p).filesize = 0) := hskip
      rw [if_neg hskip, returns_bind] at hmem
      obtain ⟨mem', hcopy, hzero⟩ := hmem
      refine Script.Reach.head ?_ (Relation.ReflTransGen.trans
        (reach_copyContent (t.walk slice) _ _ hcopy) (reach_zeroTail (t.walk slice) _ hzero))
      simp only [loadNext, loadStep, loadAction, if_pos hlt', if_pos hsegment', if_neg hskip']
      rfl
  · have hsegment' : ¬ (commandAt t.mem (t.walk slice).p).cmd = lcSegment64 := hsegment
    rw [if_neg hsegment] at hu
    by_cases hmain : (commandAt t.mem t.p).cmd = lcMain
    · have hmain' : (commandAt t.mem (t.walk slice).p).cmd = lcMain := hmain
      rw [if_pos hmain, returns_pure] at hu
      subst hu
      refine .single ?_
      simp only [loadNext, loadStep, loadAction, if_pos hlt', if_neg hsegment', if_pos hmain']
      rfl
    · have hmain' : ¬ (commandAt t.mem (t.walk slice).p).cmd = lcMain := hmain
      rw [if_neg hmain, returns_pure] at hu
      subst hu
      refine .single ?_
      simp only [loadNext, loadStep, loadAction, if_pos hlt', if_neg hsegment', if_neg hmain']
      rfl

/-- The last step. -/
theorem reach_mapBody_inr {slice : Addr} {t t' : Pass} {m : Mem 64} {entry : Addr}
    (h : (mapBody slice target t).Returns (.inr t'))
    (hentry : (if t'.haveEntry = false then (pure (t'.mem, 0) : Prog Addr (Mem 64 × Addr))
      else pure (t'.mem, entryAddr t'.mem target t'.entryoff (headerAt t'.mem slice).ncmds
        (slice + BitVec.ofNat 64 sizeofMachHeader64))).Returns (m, entry)) :
    loadNext arch image target (.pass (t.walk slice), t.mem) = some (.done entry, m) := by
  unfold mapBody at h
  by_cases hlt : t.i < (headerAt t.mem slice).ncmds
  · rw [if_pos hlt, returns_bind] at h
    obtain ⟨u, -, hu⟩ := h
    exact absurd ((returns_pure _ _).mp hu) (by simp)
  rw [if_neg hlt, returns_pure] at h
  obtain rfl := Sum.inr.inj h
  have hlt' : ¬ (t.walk slice).i < (headerAt t.mem (t.walk slice).slice).ncmds := hlt
  by_cases hhave : t.haveEntry = false
  · have hhave' : (t.walk slice).haveEntry = false := hhave
    rw [if_pos hhave, returns_pure] at hentry
    obtain ⟨rfl, rfl⟩ := Prod.mk.inj hentry
    simp only [loadNext, loadStep, loadAction, if_neg hlt', if_pos hhave']
    rfl
  · have hhave' : ¬ (t.walk slice).haveEntry = false := hhave
    rw [if_neg hhave, returns_pure] at hentry
    obtain ⟨rfl, rfl⟩ := Prod.mk.inj hentry
    simp only [loadNext, loadStep, loadAction, if_neg hlt', if_neg hhave']
    rfl

/-- **The steps end where the loader returns.** -/
theorem reach_of_returns {m m' : Mem 64} {entry : Addr}
    (h : (machoLoad arch m image target).Returns (m', entry)) :
    (loadNext arch image target).Reach (.start, m) (.done entry, m') := by
  cases hslice : nativeSlice arch m image with
  | none =>
      rw [machoLoad_of_none hslice, returns_pure] at h
      obtain ⟨rfl, rfl⟩ := Prod.mk.inj h
      refine .single ?_
      simp only [loadNext, loadStep, loadAction, hslice]
      rfl
  | some slice =>
      rw [machoLoad_of_slice hslice, loadSlice, returns_bind] at h
      obtain ⟨t', hloop, hentry⟩ := h
      obtain ⟨t, hreach, hlast⟩ := exists_reach_of_returns_loop hloop
      have hfirst : loadNext arch image target (.start, m) = some (.pass (Pass.walk slice
          ⟨0, slice + BitVec.ofNat 64 sizeofMachHeader64, m, 0, false⟩), m) := by
        simp only [loadNext, loadStep, loadAction, hslice]
        rfl
      have hwalk : (loadNext arch image target).Reach (.pass (Pass.walk slice
          ⟨0, slice + BitVec.ofNat 64 sizeofMachHeader64, m, 0, false⟩), m)
          (.pass (t.walk slice), t.mem) :=
        Relation.ReflTransGen.lift' (fun t : Pass => (LoadPc.pass (t.walk slice), t.mem))
          (fun _ _ => reach_mapBody) _ _ hreach
      exact (hwalk.head hfirst).tail (reach_mapBody_inr hlast hentry)

end Returns

/-! ## The steps depend on the image only -/

section Local

variable {arch : Arch} {m₀ m : Mem 64} {image target slice : Addr} {bytes : Set Addr}

/-- The walk is on the commands of the slice. -/
structure Walk.Sound (m₀ : Mem 64) (slice : Addr) (s : Walk) : Prop where
  inSlice : s.slice = slice
  ahead : ∀ q ∈ commands m₀ ((headerAt m₀ slice).ncmds - s.i) s.p, q ∈ sliceCommands m₀ slice

/-- The walk is at a segment that is copied. -/
structure Walk.AtSegment (m₀ : Mem 64) (slice : Addr) (s : Walk) : Prop where
  more : s.i < (headerAt m₀ slice).ncmds
  segment : (commandAt m₀ s.p).cmd = lcSegment64
  mapped : (segmentAt m₀ s.p).Mapped

/-- The loader is where it can be in the image. -/
def LoadPc.Sound (m₀ : Mem 64) (slice target : Addr) : LoadPc → Prop
  | .start => True
  | .pass s => s.Sound m₀ slice
  | .copy s dst src _ =>
      s.Sound m₀ slice ∧ s.AtSegment m₀ slice ∧
        dst = target + BitVec.ofNat 64 (segmentAt m₀ s.p).vmaddr ∧
        src = slice + BitVec.ofNat 64 (segmentAt m₀ s.p).fileoff
  | .zero s dst _ =>
      s.Sound m₀ slice ∧ s.AtSegment m₀ slice ∧
        dst = target + BitVec.ofNat 64 (segmentAt m₀ s.p).vmaddr
  | .done _ => True

theorem Walk.Sound.mem {s : Walk} (h : s.Sound m₀ slice) (hmore : s.i < (headerAt m₀ slice).ncmds) :
    s.p ∈ sliceCommands m₀ slice := by
  obtain ⟨left, hleft⟩ : ∃ left, (headerAt m₀ slice).ncmds - s.i = left + 1 :=
    ⟨(headerAt m₀ slice).ncmds - s.i - 1, by omega⟩
  apply h.ahead
  rw [hleft, commands]
  exact List.mem_cons_self

theorem Walk.Sound.next {s : Walk} (h : s.Sound m₀ slice)
    (hmore : s.i < (headerAt m₀ slice).ncmds) : (s.next m₀).Sound m₀ slice := by
  refine ⟨h.inSlice, fun q hq => h.ahead q ?_⟩
  have hleft : (headerAt m₀ slice).ncmds - s.i = (headerAt m₀ slice).ncmds - (s.next m₀).i + 1 := by
    change _ = (headerAt m₀ slice).ncmds - (s.i + 1) + 1
    omega
  rw [hleft, commands]
  exact List.mem_cons_of_mem _ hq

theorem Walk.AtSegment.mem_segments {s : Walk} (hslice : nativeSlice arch m₀ image = some slice)
    (hs : s.Sound m₀ slice) (h : s.AtSegment m₀ slice) :
    segmentAt m₀ s.p ∈ segments arch m₀ image := by
  rw [segments_of_slice hslice]
  exact mem_segmentsAmong.mpr ⟨s.p, hs.mem h.more, h.segment, rfl⟩

/-- The loader stays where it can be. -/
theorem LoadPc.Sound.next (hslice : nativeSlice arch m₀ image = some slice) {pc : LoadPc}
    (hpc : pc.Sound m₀ slice target) :
    (loadAction arch image target m₀ pc).1.Sound m₀ slice target := by
  cases pc with
  | start =>
      unfold loadAction
      dsimp only
      rw [hslice]
      exact ⟨rfl, fun q hq => hq⟩
  | pass s =>
      obtain rfl := hpc.inSlice
      unfold loadAction
      by_cases hmore : s.i < (headerAt m₀ s.slice).ncmds
      · simp only [if_pos hmore]
        by_cases hsegment : (commandAt m₀ s.p).cmd = lcSegment64
        · simp only [if_pos hsegment]
          split
          case isTrue => exact hpc.next hmore
          case isFalse hskip =>
            exact ⟨hpc, ⟨hmore, hsegment, not_or.mp hskip⟩, rfl, rfl⟩
        · simp only [if_neg hsegment]
          split
          case isTrue =>
            have hs : Walk.Sound m₀ s.slice
                { s with entryoff := entryoffAt m₀ s.p, haveEntry := true } := ⟨rfl, hpc.ahead⟩
            exact hs.next hmore
          case isFalse => exact hpc.next hmore
      · simp only [if_neg hmore]
        split <;> trivial
  | copy s dst src b =>
      unfold loadAction
      dsimp only
      split
      case isTrue => exact hpc
      case isFalse => exact ⟨hpc.1, hpc.2.1, hpc.2.2.1⟩
  | zero s dst b =>
      unfold loadAction
      dsimp only
      split
      case isTrue => exact hpc
      case isFalse => exact hpc.1.next hpc.2.1.more
  | done entry => trivial

variable (hload : Loadable arch m₀ image target bytes)
  (hslice : nativeSlice arch m₀ image = some slice)

include hload hslice

theorem Walk.Sound.command_subset {s : Walk} (hs : s.Sound m₀ slice)
    (hmore : s.i < (headerAt m₀ slice).ncmds) : extent s.p (commandLength m₀ s.p) ⊆ bytes := by
  have hp := hs.mem hmore
  rw [← loadCommands_of_slice hslice] at hp
  exact (Boot.command_subset hp).trans hload.headers

/-- What the loader does next is decided by the bytes of the image. -/
theorem loadAction_of_eqOn (hm : Set.EqOn m m₀ bytes) {pc : LoadPc}
    (hpc : pc.Sound m₀ slice target) :
    loadAction arch image target m pc = loadAction arch image target m₀ pc := by
  have hheader : extent slice sizeofMachHeader64 ⊆ bytes :=
    (slice_subset (nativeSlice_eq_some_iff.mp hslice).1).trans hload.headers
  cases pc with
  | start =>
      unfold loadAction
      dsimp only
      rw [nativeSlice_of_eqOn (hm.mono hload.headers)]
  | pass s =>
      obtain rfl := hpc.inSlice
      unfold loadAction
      dsimp only
      rw [headerAt_of_eqOn hm hheader]
      by_cases hmore : s.i < (headerAt m₀ s.slice).ncmds
      · have hp := hpc.command_subset hload hslice hmore
        have hnext : ∀ s' : Walk, s'.p = s.p → s'.next m = s'.next m₀ := by
          intro s' hs'
          unfold Walk.next
          rw [hs', nextCommand_of_eqOn hm hp]
        simp only [if_pos hmore, commandAt_of_eqOn hm hp, hnext s rfl]
        by_cases hsegment : (commandAt m₀ s.p).cmd = lcSegment64
        · simp only [if_pos hsegment, segmentAt_of_eqOn hm hp hsegment]
        · simp only [if_neg hsegment]
          by_cases hmain : (commandAt m₀ s.p).cmd = lcMain
          · simp only [if_pos hmain, entryoffAt_of_eqOn hm hp hmain]
            rw [hnext { s with entryoff := entryoffAt m₀ s.p, haveEntry := true } rfl]
          · simp only [if_neg hmain]
      · simp only [if_neg hmore]
        have hinside : ∀ q ∈ sliceCommands m₀ s.slice, extent q (commandLength m₀ q) ⊆ bytes := by
          intro q hq
          rw [← loadCommands_of_slice hslice] at hq
          exact (Boot.command_subset hq).trans hload.headers
        rw [entryAddr_of_eqOn hm target s.entryoff hinside]
  | copy s dst src b =>
      obtain ⟨hs, hseg, -, rfl⟩ := hpc
      have hp := hs.command_subset hload hslice hseg.more
      have hready := hload.ready slice hslice _ (hseg.mem_segments hslice hs) hseg.mapped
      unfold loadAction
      dsimp only
      simp only [segmentAt_of_eqOn hm hp hseg.segment]
      by_cases hb : b < (segmentAt m₀ s.p).filesize
      · simp only [if_pos hb]
        rw [hm (hready.content (inExtent_add (segmentAt_lt m₀ s.p).1.le hb))]
      · simp only [if_neg hb]
  | zero s dst b =>
      obtain ⟨hs, hseg, -⟩ := hpc
      have hp := hs.command_subset hload hslice hseg.more
      have hnext : s.next m = s.next m₀ := by
        unfold Walk.next
        rw [nextCommand_of_eqOn hm hp]
      unfold loadAction
      dsimp only
      simp only [segmentAt_of_eqOn hm hp hseg.segment, hnext]
  | done entry => rfl

/-- It stores to the place of a segment. -/
theorem loadAction_store {pc : LoadPc} (hpc : pc.Sound m₀ slice target) {a : Addr} {v : UInt8}
    (h : (loadAction arch image target m₀ pc).2 = some (a, v)) :
    ∃ seg ∈ segments arch m₀ image, seg.Mapped ∧
      a ∈ extent (target + BitVec.ofNat 64 seg.vmaddr) seg.vmsize := by
  cases pc with
  | start =>
      unfold loadAction at h
      rw [hslice] at h
      exact absurd h (by simp)
  | pass s =>
      unfold loadAction at h
      dsimp only at h
      split_ifs at h
  | copy s dst src b =>
      obtain ⟨hs, hseg, rfl, -⟩ := hpc
      have hmem := hseg.mem_segments hslice hs
      have hfits := (hload.ready slice hslice _ hmem hseg.mapped).fits
      unfold loadAction at h
      dsimp only at h
      split at h
      case isTrue hb =>
        obtain ⟨rfl, -⟩ := Prod.mk.inj (Option.some.inj h)
        exact ⟨_, hmem, hseg.mapped,
          inExtent_add (segmentAt_lt m₀ s.p).2.le (hb.trans_le hfits)⟩
      case isFalse => exact absurd h (by simp)
  | zero s dst b =>
      obtain ⟨hs, hseg, rfl⟩ := hpc
      unfold loadAction at h
      dsimp only at h
      split at h
      case isTrue hb =>
        obtain ⟨rfl, -⟩ := Prod.mk.inj (Option.some.inj h)
        exact ⟨_, hseg.mem_segments hslice hs, hseg.mapped,
          inExtent_add (segmentAt_lt m₀ s.p).2.le hb⟩
      case isFalse => exact absurd h (by simp)
  | done entry => exact absurd h (by simp [loadAction])

end Local

end Boot
end Saski
