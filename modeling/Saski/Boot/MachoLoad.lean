import Mathlib
import Saski.Boot.Macho

/-!
# What the Mach-O loader writes

`machoLoad` and `machoImageSize` walk the same commands with loops of their own.  Here
both are related to the segments that the image declares.

* As long as no segment is copied over the headers and load commands, the loader visits
  the commands the image had at the start, writes inside the segments' destinations only,
  and returns an entry point inside one of them or none (`ensures_machoLoad`).
* Without that condition one write is still certain: the first byte of the first segment
  that is copied (`performs_machoLoad_first`).
* The measured size bounds the distance of every file-backed segment's end from the lowest
  file-backed address (`le_of_machoImageSize`).
-/

namespace Saski
namespace Boot

open ByteMemory Logged Prog

/-- The segment is copied: it takes up memory and has content in the file. -/
def SegmentCommand64.Mapped (seg : SegmentCommand64) : Prop := seg.vmsize ≠ 0 ∧ seg.filesize ≠ 0

instance (seg : SegmentCommand64) : Decidable seg.Mapped :=
  inferInstanceAs (Decidable (seg.vmsize ≠ 0 ∧ seg.filesize ≠ 0))

theorem mem_segmentsAmong {m : Mem 64} {cs : List Addr} {seg : SegmentCommand64} :
    seg ∈ segmentsAmong m cs ↔
      ∃ p ∈ cs, (commandAt m p).cmd = lcSegment64 ∧ segmentAt m p = seg := by
  unfold segmentsAmong
  simp only [List.mem_map, List.mem_filter, decide_eq_true_eq, and_assoc]

/-! ## The copying loops -/

section Confined

variable {m : Mem 64} {keep slot : Set Addr}

/-- A loop that fills bytes of `slot` leaves the bytes of `keep` alone. -/
theorem ensures_fill (hapart : Disjoint keep slot) {limit : Mem 64 → Nat}
    {byte : Mem 64 → Nat → UInt8} {dst : Addr} {bound : Nat}
    (hlimit : ∀ mem, Set.EqOn mem m keep → limit mem = bound)
    (hdst : ∀ b < bound, dst + BitVec.ofNat 64 b ∈ slot) {s : Cursor}
    (hs : Set.EqOn s.mem m keep) :
    Ensures (· ∈ slot) (Set.EqOn · m keep) (loop (fillBody limit byte dst) s) := by
  apply ensures_loop (fun s => Set.EqOn s.mem m keep) (fun s => bound - s.b) _ hs
  intro s hs
  unfold fillBody
  rw [hlimit s.mem hs]
  apply ensures_ite
  · intro hlt
    have ha := hdst s.b hlt
    apply ensures_liftM_bind
    · exact logs_withLog _ fun e he => List.mem_singleton.mp he ▸ ha
    · apply ensures_pure
      constructor
      · exact eqOn_update hs (Set.disjoint_right.mp hapart ha) _
      · change bound - (s.b + 1) < bound - s.b
        omega
  · intro _
    exact ensures_pure hs

/-- The places that a segment is copied to. -/
def destination (target : Addr) (seg : SegmentCommand64) : Set Addr :=
  {a | ∃ b < max seg.filesize seg.vmsize,
    a = target + BitVec.ofNat 64 seg.vmaddr + BitVec.ofNat 64 b}

/-- One segment. -/
theorem ensures_mapSegment (hapart : Disjoint keep slot) {slice target seg : Addr}
    (hcmd : (commandAt m seg).cmd = lcSegment64) (hseg : extent seg (commandLength m seg) ⊆ keep)
    (hslot : (segmentAt m seg).Mapped → destination target (segmentAt m seg) ⊆ slot)
    {mem : Mem 64} (hmem : Set.EqOn mem m keep) :
    Ensures (· ∈ slot) (Set.EqOn · m keep) (mapSegment slice target seg mem) := by
  have hread : ∀ mem, Set.EqOn mem m keep → segmentAt mem seg = segmentAt m seg :=
    fun mem hmem => segmentAt_of_eqOn hmem hseg hcmd
  unfold mapSegment
  rw [hread mem hmem]
  apply ensures_ite
  · intro _
    exact ensures_pure hmem
  · intro hmapped
    rw [not_or] at hmapped
    have hdst := hslot hmapped
    apply Ensures.bind (R := (Set.EqOn · m keep))
    · apply ensures_fill hapart (fun mem hmem => congrArg (·.filesize) (hread mem hmem)) _ hmem
      intro b hb
      exact hdst ⟨b, lt_max_of_lt_left hb, rfl⟩
    · intro mem' hmem'
      apply ensures_fill hapart (fun mem hmem => congrArg (·.vmsize) (hread mem hmem)) _ hmem'
      intro b hb
      exact hdst ⟨b, lt_max_of_lt_right hb, rfl⟩

/-- One command of the first pass. -/
theorem ensures_mapCommand (hapart : Disjoint keep slot) (slice : Addr) {target : Addr} {s : Pass}
    (hp : extent s.p (commandLength m s.p) ⊆ keep)
    (hslot : (commandAt m s.p).cmd = lcSegment64 → (segmentAt m s.p).Mapped →
      destination target (segmentAt m s.p) ⊆ slot) (hs : Set.EqOn s.mem m keep) :
    Ensures (· ∈ slot) (fun t => Set.EqOn t.mem m keep ∧ t.i = s.i ∧ t.p = s.p)
      (mapCommand slice target s) := by
  unfold mapCommand
  rw [commandAt_of_eqOn hs hp]
  apply ensures_ite
  · intro hcmd
    apply (ensures_mapSegment hapart hcmd hp (hslot hcmd) hs).bind
    intro mem hmem
    exact ensures_pure ⟨hmem, rfl, rfl⟩
  · intro _
    apply ensures_ite
    · intro _
      exact ensures_pure ⟨hs, rfl, rfl⟩
    · intro _
      exact ensures_pure ⟨hs, rfl, rfl⟩

/-- The whole first pass.  The remaining commands, read in the memory at the start, are
commands of the slice; this is what the writes so far have not changed. -/
theorem ensures_mapLoop (hapart : Disjoint keep slot) {slice target : Addr}
    (hheader : extent slice sizeofMachHeader64 ⊆ keep)
    (hcommands : ∀ p ∈ sliceCommands m slice, extent p (commandLength m p) ⊆ keep)
    (hslot : ∀ seg ∈ segmentsAmong m (sliceCommands m slice), seg.Mapped →
      destination target seg ⊆ slot) :
    Ensures (· ∈ slot) (fun s => Set.EqOn s.mem m keep)
      (loop (mapBody slice target)
        ⟨0, slice + BitVec.ofNat 64 sizeofMachHeader64, m, 0, false⟩) := by
  let count := (headerAt m slice).ncmds
  apply ensures_loop (fun s => Set.EqOn s.mem m keep ∧
    ∀ p ∈ commands m (count - s.i) s.p, p ∈ sliceCommands m slice) (fun s => count - s.i)
  · rintro s ⟨hs, hrest⟩
    unfold mapBody
    rw [headerAt_of_eqOn hs hheader]
    apply ensures_ite
    · intro hlt
      obtain ⟨left, hleft⟩ : ∃ left, count - s.i = left + 1 := ⟨count - s.i - 1, by omega⟩
      rw [hleft, commands] at hrest
      have hmem := hrest s.p List.mem_cons_self
      have hp := hcommands s.p hmem
      have hdst : (commandAt m s.p).cmd = lcSegment64 → (segmentAt m s.p).Mapped →
          destination target (segmentAt m s.p) ⊆ slot :=
        fun hcmd => hslot _ (mem_segmentsAmong.mpr ⟨s.p, hmem, hcmd, rfl⟩)
      apply (ensures_mapCommand hapart slice hp hdst hs).bind
      rintro t ⟨ht, hi, hpt⟩
      apply ensures_pure
      have hleft' : count - (t.i + 1) = left := by omega
      refine ⟨⟨ht, ?_⟩, ?_⟩
      · change ∀ p ∈ commands m (count - (t.i + 1)) (nextCommand t.mem t.p), _
        rw [hpt, nextCommand_of_eqOn ht hp, hleft']
        exact fun p hmem => hrest p (List.mem_cons_of_mem _ hmem)
      · change count - (t.i + 1) < count - s.i
        omega
    · intro _
      exact ensures_pure hs
  · exact ⟨Set.eqOn_refl m keep, fun p hp => hp⟩

/-- The second pass gives a place inside a segment's content, or nothing. -/
theorem entryAddr_cases (m : Mem 64) (target : Addr) (entryoff count : Nat) (p : Addr) :
    entryAddr m target entryoff count p = 0 ∨
      ∃ seg ∈ segmentsAmong m (commands m count p), ∃ k < seg.filesize,
        seg.fileoff + k = entryoff ∧ entryAddr m target entryoff count p =
          target + BitVec.ofNat 64 seg.vmaddr + BitVec.ofNat 64 k := by
  induction count generalizing p with
  | zero => exact Or.inl rfl
  | succ count ih =>
      rw [entryAddr, commands]
      split_ifs with hmatch
      · obtain ⟨hcmd, hle, hlt⟩ := hmatch
        have hmod := Nat.mod_le ((segmentAt m p).fileoff + (segmentAt m p).filesize) (2 ^ 64)
        refine Or.inr ⟨segmentAt m p, ?_, entryoff - (segmentAt m p).fileoff, by omega, by omega,
          rfl⟩
        exact mem_segmentsAmong.mpr ⟨p, List.mem_cons_self, hcmd, rfl⟩
      · apply (ih (nextCommand m p)).imp_right
        rintro ⟨seg, hseg, hk⟩
        obtain ⟨q, hq, hcmd⟩ := mem_segmentsAmong.mp hseg
        exact ⟨seg, mem_segmentsAmong.mpr ⟨q, List.mem_cons_of_mem _ hq, hcmd⟩, hk⟩

end Confined

section Load

variable {arch : Arch} {m : Mem 64} {image target : Addr}

/-- An image without a slice for this architecture is refused. -/
theorem machoLoad_of_none (hslice : nativeSlice arch m image = none) :
    machoLoad arch m image target = pure (m, 0) := by
  rw [nativeSlice, Option.filter_eq_none_iff, sliceOf] at hslice
  unfold machoLoad
  by_cases hoff : resolveSliceOffset arch m image = noSlice
  · simp only [if_pos hoff]
  · have hheader := hslice _ (if_neg hoff)
    simp only [decide_eq_true_eq, not_and_or] at hheader
    simp only [if_neg hoff]
    rcases hheader with hmagic | hcputype
    · rw [if_pos hmagic]
    · rw [if_pos hcputype, ite_self]

theorem machoLoad_of_slice {slice : Addr} (hslice : nativeSlice arch m image = some slice) :
    machoLoad arch m image target = loadSlice m slice target := by
  obtain ⟨hsome, hmagic, hcputype⟩ := nativeSlice_eq_some_iff.mp hslice
  obtain ⟨hoff, rfl⟩ := sliceOf_eq_some_iff.mp hsome
  unfold machoLoad
  simp only [if_neg hoff]
  rw [if_neg (not_not.mpr hmagic), if_neg (not_not.mpr hcputype)]

/-- **The loader stays in its slot.**  When the headers and load commands are not in the
slot and every segment that is copied goes there, the loader returns, writes in the slot
only, and leaves the headers and commands as they were. -/
theorem ensures_machoLoad (target : Addr) {slot : Set Addr}
    (hapart : Disjoint (headerBytes arch m image) slot)
    (hslot : ∀ seg ∈ segments arch m image, seg.Mapped → destination target seg ⊆ slot) :
    Ensures (· ∈ slot)
      (fun r => r.2 = 0 ∨ ∃ seg ∈ segments arch m image, ∃ k < seg.filesize,
        r.2 = target + BitVec.ofNat 64 seg.vmaddr + BitVec.ofNat 64 k)
      (machoLoad arch m image target) := by
  cases hslice : nativeSlice arch m image with
  | none =>
      rw [machoLoad_of_none hslice]
      exact ensures_pure (Or.inl rfl)
  | some slice =>
      have hcommands := loadCommands_of_slice hslice
      have hheader := slice_subset (nativeSlice_eq_some_iff.mp hslice).1
      rw [machoLoad_of_slice hslice, loadSlice]
      apply (ensures_mapLoop hapart hheader _ _).bind
      · intro s hs
        have hsegments := segments_of_eqOn hs
        rw [segments_of_slice (nativeSlice_of_eqOn hs ▸ hslice)] at hsegments
        apply ensures_ite
        · intro _
          exact ensures_pure (Or.inl rfl)
        · intro _
          apply ensures_pure
          rw [← hsegments]
          apply (entryAddr_cases s.mem target s.entryoff _ _).imp_right
          rintro ⟨seg, hseg, k, hk, -, hentry⟩
          exact ⟨seg, hseg, k, hk, hentry⟩
      · intro p hp
        exact command_subset (hcommands ▸ hp)
      · rw [← hcommands]
        exact hslot

/-! ## The first write -/

theorem performs_fill_first {limit : Mem 64 → Nat} {byte : Mem 64 → Nat → UInt8} {dst : Addr}
    (hlimit : limit m ≠ 0) : (loop (fillBody limit byte dst) ⟨0, m⟩).Performs dst := by
  rw [performs_loop_iff]
  left
  unfold fillBody
  rw [if_pos (Nat.pos_of_ne_zero hlimit), performs_liftM_bind]
  left
  exact List.mem_singleton.mpr (BitVec.add_zero dst).symm

theorem performs_mapSegment_first {slice seg : Addr} (hmapped : (segmentAt m seg).Mapped) :
    (mapSegment slice target seg m).Performs
      (target + BitVec.ofNat 64 (segmentAt m seg).vmaddr) := by
  unfold mapSegment copyContent
  rw [if_neg (by rw [not_or]; exact hmapped), performs_bind]
  exact Or.inl (performs_fill_first hmapped.2)

/-- The first pass comes to the first segment that is copied with the memory it began
with. -/
theorem performs_mapLoop_first (slice target : Addr) {left : Nat} {s : Pass}
    (hleft : s.i + left = (headerAt s.mem slice).ncmds)
    (hmapped : ∃ seg ∈ segmentsAmong s.mem (commands s.mem left s.p), seg.Mapped) :
    ∃ seg ∈ segmentsAmong s.mem (commands s.mem left s.p), seg.Mapped ∧
      (loop (mapBody slice target) s).Performs (target + BitVec.ofNat 64 seg.vmaddr) := by
  induction left generalizing s with
  | zero =>
      obtain ⟨seg, hseg, _⟩ := hmapped
      exact absurd hseg List.not_mem_nil
  | succ left ih =>
      have hlt : s.i < (headerAt s.mem slice).ncmds := by omega
      by_cases hfirst : (commandAt s.mem s.p).cmd = lcSegment64 ∧ (segmentAt s.mem s.p).Mapped
      · obtain ⟨hcmd, hmap⟩ := hfirst
        refine ⟨segmentAt s.mem s.p, ?_, hmap, ?_⟩
        · exact mem_segmentsAmong.mpr ⟨s.p, List.mem_cons_self, hcmd, rfl⟩
        · rw [performs_loop_iff]
          left
          unfold mapBody mapCommand
          rw [if_pos hlt, if_pos hcmd, performs_bind, performs_bind]
          exact Or.inl (Or.inl (performs_mapSegment_first hmap))
      · -- Nothing is written for this command: the slot may be empty.
        have hnothing : (commandAt s.mem s.p).cmd = lcSegment64 → (segmentAt s.mem s.p).Mapped →
            destination target (segmentAt s.mem s.p) ⊆ ∅ :=
          fun hcmd hmap => absurd ⟨hcmd, hmap⟩ hfirst
        obtain ⟨⟨i, p, mem, entryoff, haveEntry⟩, ht, hmem, hi, hp⟩ :=
          (ensures_mapCommand (Set.disjoint_empty Set.univ) slice (Set.subset_univ _) hnothing
            (Set.eqOn_refl _ _)).result
        rw [Set.eqOn_univ] at hmem
        obtain rfl : mem = s.mem := hmem
        obtain rfl : i = s.i := hi
        obtain rfl : p = s.p := hp
        let next : Pass := ⟨s.i + 1, nextCommand s.mem s.p, s.mem, entryoff, haveEntry⟩
        have hstep : (mapBody slice target s).Returns (.inl next) := by
          unfold mapBody
          rw [if_pos hlt, returns_bind_of ht]
          exact (returns_pure _ _).mpr rfl
        have hrest : ∃ seg ∈ segmentsAmong next.mem (commands next.mem left next.p),
            seg.Mapped := by
          obtain ⟨seg, hseg, hmap⟩ := hmapped
          obtain ⟨q, hq, hcmd, rfl⟩ := mem_segmentsAmong.mp hseg
          rcases List.mem_cons.mp hq with rfl | hq
          · exact absurd ⟨hcmd, hmap⟩ hfirst
          · exact ⟨_, mem_segmentsAmong.mpr ⟨q, hq, hcmd, rfl⟩, hmap⟩
        have hleft' : s.i + 1 + left = (headerAt s.mem slice).ncmds := by omega
        obtain ⟨seg, hseg, hmap, hperforms⟩ := ih (s := next) hleft' hrest
        obtain ⟨q, hq, hcmd, rfl⟩ := mem_segmentsAmong.mp hseg
        refine ⟨_, mem_segmentsAmong.mpr ⟨q, List.mem_cons_of_mem _ hq, hcmd, rfl⟩, hmap, ?_⟩
        exact (performs_loop_iff _ _ _).mpr (Or.inr ⟨next, hstep, hperforms⟩)

/-- **An image with a segment to copy is copied.**  Whatever the loader overwrites later,
it begins with the first byte of one of the segments. -/
theorem performs_machoLoad_first (target : Addr)
    (hmapped : ∃ seg ∈ segments arch m image, seg.Mapped) :
    ∃ seg ∈ segments arch m image, seg.Mapped ∧
      (machoLoad arch m image target).Performs (target + BitVec.ofNat 64 seg.vmaddr) := by
  cases hslice : nativeSlice arch m image with
  | none =>
      obtain ⟨seg, hseg, _⟩ := hmapped
      rw [segments, loadCommands, hslice] at hseg
      exact absurd hseg List.not_mem_nil
  | some slice =>
      rw [segments_of_slice hslice, sliceCommands] at hmapped ⊢
      obtain ⟨seg, hseg, hmap, hperforms⟩ := performs_mapLoop_first slice target
        (s := ⟨0, slice + BitVec.ofNat 64 sizeofMachHeader64, m, 0, false⟩) (Nat.zero_add _)
        hmapped
      refine ⟨seg, hseg, hmap, ?_⟩
      rw [machoLoad_of_slice hslice, loadSlice, performs_bind]
      exact Or.inl hperforms

/-! ## The measured size -/

/-- The span `r` reaches at least as far as `s`. -/
structure Span.Within (s r : Span) : Prop where
  lowest : r.lowest ≤ s.lowest
  highest : s.highest ≤ r.highest
  foundAny : s.foundAny = true → r.foundAny = true

theorem Span.cover_of_not (s : Span) {seg : SegmentCommand64} (h : ¬ seg.FileBacked) :
    s.cover seg = s :=
  if_pos (not_not.mp h)

theorem Span.cover_of_fileBacked (s : Span) {seg : SegmentCommand64} (h : seg.FileBacked) :
    s.cover seg = ⟨min s.lowest seg.vmaddr,
      max s.highest ((seg.vmaddr + seg.vmsize) % 2 ^ 64), true⟩ := by
  rw [Span.cover, if_neg h]
  ext
  · change (if seg.vmaddr < s.lowest then _ else _) = min _ _
    split_ifs <;> omega
  · change (if s.highest < (seg.vmaddr + seg.vmsize) % 2 ^ 64 then _ else _) = max _ _
    split_ifs <;> omega
  · rfl

theorem Span.within_cover (s : Span) (seg : SegmentCommand64) : s.Within (s.cover seg) := by
  by_cases hfile : seg.FileBacked
  · rw [s.cover_of_fileBacked hfile]
    exact ⟨min_le_left _ _, le_max_left _ _, fun _ => rfl⟩
  · rw [s.cover_of_not hfile]
    exact ⟨le_rfl, le_rfl, id⟩

theorem Span.within_foldl (s : Span) (segs : List SegmentCommand64) :
    s.Within (segs.foldl Span.cover s) := by
  induction segs generalizing s with
  | nil => exact ⟨le_rfl, le_rfl, id⟩
  | cons seg segs ih =>
      have hfirst := s.within_cover seg
      have hrest := ih (s.cover seg)
      exact ⟨hrest.lowest.trans hfirst.lowest, hfirst.highest.trans hrest.highest,
        fun h => hrest.foundAny (hfirst.foundAny h)⟩

/-- Every file-backed segment lies in the span. -/
theorem Span.covers_foldl (s : Span) {segs : List SegmentCommand64} {seg : SegmentCommand64}
    (hseg : seg ∈ segs) (hfile : seg.FileBacked) :
    (segs.foldl Span.cover s).lowest ≤ seg.vmaddr ∧
      (seg.vmaddr + seg.vmsize) % 2 ^ 64 ≤ (segs.foldl Span.cover s).highest ∧
      (segs.foldl Span.cover s).foundAny = true := by
  induction segs generalizing s with
  | nil => exact absurd hseg List.not_mem_nil
  | cons first segs ih =>
      rw [List.foldl_cons]
      rcases List.mem_cons.mp hseg with rfl | hseg
      · have hrest := (s.cover seg).within_foldl segs
        have hself : (s.cover seg).lowest ≤ seg.vmaddr ∧
            (seg.vmaddr + seg.vmsize) % 2 ^ 64 ≤ (s.cover seg).highest ∧
            (s.cover seg).foundAny = true := by
          rw [s.cover_of_fileBacked hfile]
          exact ⟨min_le_right _ _, le_max_right _ _, rfl⟩
        exact ⟨hrest.lowest.trans hself.1, hself.2.1.trans hrest.highest,
          hrest.foundAny hself.2.2⟩
      · exact ih (s.cover first) hseg

/-- The span reaches no further down than the lowest file-backed segment, and its end is a
machine word. -/
theorem Span.foldl_bounds {base : Nat} {s : Span} {segs : List SegmentCommand64}
    (hbase : ∀ seg ∈ segs, seg.FileBacked → base ≤ seg.vmaddr)
    (hs : base ≤ s.lowest ∧ s.highest < 2 ^ 64) :
    base ≤ (segs.foldl Span.cover s).lowest ∧ (segs.foldl Span.cover s).highest < 2 ^ 64 := by
  induction segs generalizing s with
  | nil => exact hs
  | cons seg segs ih =>
      apply ih fun other hother => hbase other (List.mem_cons_of_mem _ hother)
      by_cases hfile : seg.FileBacked
      · have hseg := hbase seg List.mem_cons_self hfile
        have hend := Nat.mod_lt (seg.vmaddr + seg.vmsize) (Nat.two_pow_pos 64)
        rw [s.cover_of_fileBacked hfile]
        exact ⟨le_min hs.1 hseg, max_lt hs.2 hend⟩
      · rw [s.cover_of_not hfile]
        exact hs

theorem measure_eq (m : Mem 64) (count : Nat) (p : Addr) (s : Span) :
    measure m count p s = (segmentsAmong m (commands m count p)).foldl Span.cover s := by
  induction count generalizing p s with
  | zero => rfl
  | succ count ih =>
      rw [measure, commands, ih]
      split_ifs with hcmd
      · rw [segmentsAmong_cons_of_segment _ hcmd, List.foldl_cons]
      · rw [segmentsAmong_cons_of_other _ hcmd]

/-- `macho_image_size` on an accepted image. -/
theorem machoImageSize_of_slice {slice : Addr} (hslice : nativeSlice arch m image = some slice) :
    machoImageSize arch m image =
      (let s := (segments arch m image).foldl Span.cover ⟨2 ^ 64 - 1, 0, false⟩
       if s.foundAny then (s.highest + 2 ^ 64 - s.lowest) % 2 ^ 64 else 0) := by
  obtain ⟨hsome, hmagic, hcputype⟩ := nativeSlice_eq_some_iff.mp hslice
  obtain ⟨hoff, rfl⟩ := sliceOf_eq_some_iff.mp hsome
  rw [segments_of_slice hslice, sliceCommands, ← measure_eq]
  unfold machoImageSize
  simp only [if_neg hoff]
  rw [if_neg (not_or.mpr ⟨not_not.mpr hmagic, not_not.mpr hcputype⟩)]

/-- **The measured size is a bound.**  No file-backed segment ends further than that from
the lowest one. -/
theorem le_of_machoImageSize {base bound : Nat}
    (hleast : IsLeast {v | ∃ seg ∈ segments arch m image, seg.FileBacked ∧ seg.vmaddr = v} base)
    (hwrap : ∀ seg ∈ segments arch m image, seg.FileBacked → seg.vmaddr + seg.vmsize < 2 ^ 64)
    (hsize : machoImageSize arch m image ≤ bound) {seg : SegmentCommand64}
    (hseg : seg ∈ segments arch m image) (hfile : seg.FileBacked) :
    seg.vmaddr + seg.vmsize ≤ base + bound := by
  obtain ⟨⟨low, hlow, hlowfile, rfl⟩, hbase⟩ := hleast
  have hlowwrap := hwrap low hlow hlowfile
  have hsegwrap := hwrap seg hseg hfile
  cases hslice : nativeSlice arch m image with
  | none =>
      rw [segments, loadCommands, hslice] at hseg
      exact absurd hseg List.not_mem_nil
  | some slice =>
      rw [machoImageSize_of_slice hslice] at hsize
      have hall := Span.foldl_bounds (s := ⟨2 ^ 64 - 1, 0, false⟩)
        (fun other hother hfile => hbase ⟨other, hother, hfile, rfl⟩)
        ⟨by change low.vmaddr ≤ 2 ^ 64 - 1; omega, by decide⟩
      have hself := Span.covers_foldl ⟨2 ^ 64 - 1, 0, false⟩ hseg hfile
      have hlowest := Span.covers_foldl ⟨2 ^ 64 - 1, 0, false⟩ hlow hlowfile
      dsimp only at hsize
      rw [if_pos hself.2.2] at hsize
      rw [Nat.mod_eq_of_lt hsegwrap] at hself
      rw [Nat.mod_eq_of_lt hlowwrap] at hlowest
      omega

end Load

end Boot
end Saski
