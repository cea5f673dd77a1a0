import Saski.Boot.ApRegion
import Saski.Lib.MemoryPatch

/-!
# The memory image that the Mach-O loader leaves

A segment declares a block of bytes: its content in the file, and zeros up to its size in
memory (`segmentPatch`).  As long as no block lies over the image, the loader puts the
blocks of the copied segments into place, one after the other, and does nothing else
(`returns_loadSlice`).

* `machoLoad_memory_image`: if the blocks do not overlap, every byte of each is where the
  image declares it, and all other memory is unchanged.
* `machoLoad_entry_loaded`: the entry point is the address at which the byte at the entry
  offset of the slice was put, or 0.

Nothing depends on addresses that do not wrap around: a range is the set of addresses
that the loader's own arithmetic gives.
-/

namespace Saski
namespace Boot

open ByteMemory Logged Prog

/-! ## What the image declares -/

/-- Byte `b` of a segment in memory. -/
def segmentByte (m : Mem 64) (slice : Addr) (seg : SegmentCommand64) (b : Nat) : UInt8 :=
  if b < seg.filesize then m (slice + BitVec.ofNat 64 seg.fileoff + BitVec.ofNat 64 b) else 0

/-- The block of a segment: its place in memory, and its bytes. -/
def segmentPatch (m : Mem 64) (slice target : Addr) (seg : SegmentCommand64) : Patch 64 where
  start := target + BitVec.ofNat 64 seg.vmaddr
  size := seg.vmsize
  byte := segmentByte m slice seg

/-- The blocks of the segments that are copied. -/
def segmentPatches (m : Mem 64) (slice target : Addr) (segs : List SegmentCommand64) :
    List (Patch 64) :=
  (segs.filter fun seg => seg.Mapped).map (segmentPatch m slice target)

theorem mem_segmentPatches {m : Mem 64} {slice target : Addr} {segs : List SegmentCommand64}
    {p : Patch 64} : p ∈ segmentPatches m slice target segs ↔
      ∃ seg ∈ segs, seg.Mapped ∧ segmentPatch m slice target seg = p := by
  unfold segmentPatches
  simp only [List.mem_map, List.mem_filter, decide_eq_true_eq, and_assoc]

theorem segmentPatches_append (m : Mem 64) (slice target : Addr)
    (segs rest : List SegmentCommand64) :
    segmentPatches m slice target (segs ++ rest) =
      segmentPatches m slice target segs ++ segmentPatches m slice target rest := by
  unfold segmentPatches
  rw [List.filter_append, List.map_append]

/-- The entry offset among some commands: that of the last `LC_MAIN`. -/
def entryOffset (m : Mem 64) : List Addr → Option Nat
  | [] => none
  | p :: cs => (entryOffset m cs).or
      (if (commandAt m p).cmd = lcMain then some (entryoffAt m p) else none)

/-- A segment that can be copied without harm to the bytes of `keep`, from which its
content comes. -/
structure SegmentReady (keep : Set Addr) (slice target : Addr) (seg : SegmentCommand64) :
    Prop where
  fits : seg.filesize ≤ seg.vmsize
  content : extent (slice + BitVec.ofNat 64 seg.fileoff) seg.filesize ⊆ keep
  apart : Disjoint keep (extent (target + BitVec.ofNat 64 seg.vmaddr) seg.vmsize)

theorem segmentAt_lt (m : Mem 64) (p : Addr) :
    (segmentAt m p).filesize < 2 ^ 64 ∧ (segmentAt m p).vmsize < 2 ^ 64 :=
  ⟨load_lt m _ 8, load_lt m _ 8⟩

/-! ## The copying loops -/

section Copy

variable {m mem : Mem 64} {keep : Set Addr}

/-- A loop whose limit and bytes are read from `keep`, where it does not write, fills in
these bytes. -/
theorem returns_fill {limit : Mem 64 → Nat} {byte : Mem 64 → Nat → UInt8} {dst : Addr}
    {lo bound : Nat} {content : Nat → UInt8}
    (hlimit : ∀ mem, Set.EqOn mem m keep → limit mem = bound)
    (hbyte : ∀ mem, Set.EqOn mem m keep → ∀ b, lo ≤ b → b < bound → byte mem b = content b)
    (hapart : Disjoint keep (extent dst bound)) (hlo : lo ≤ bound) (hbound : bound ≤ 2 ^ 64)
    (hmem : Set.EqOn mem m keep) :
    (loop (fillBody limit byte dst) ⟨lo, mem⟩).Returns (fill mem dst lo bound content) := by
  have hloop : Ensures (fun _ => True) (· = fill mem dst lo bound content)
      (loop (fillBody limit byte dst) ⟨lo, mem⟩) := by
    apply ensures_loop (fun s => lo ≤ s.b ∧ s.b ≤ bound ∧ s.mem = fill mem dst lo s.b content)
      (fun s => bound - s.b)
    · rintro ⟨b, cur⟩ ⟨hle, hlt, hcur⟩
      obtain rfl : cur = fill mem dst lo b content := hcur
      dsimp only at hle hlt
      have hkeep : Set.EqOn (fill mem dst lo b content) m keep :=
        eqOn_fill hmem (hapart.mono_right (extent_mono dst hlt)) lo content
      unfold fillBody
      simp only [hlimit _ hkeep]
      apply ensures_ite
      · intro hmore
        apply ensures_liftM_bind (fun _ _ => trivial)
        apply ensures_pure
        refine ⟨⟨Nat.le_succ_of_le hle, hmore, ?_⟩, ?_⟩
        · change Function.update _ _ _ = _
          rw [hbyte _ hkeep b hle hmore, fill_succ mem dst hle (by omega)]
        · change bound - (b + 1) < bound - b
          omega
      · intro hdone
        obtain rfl : b = bound := by omega
        exact ensures_pure rfl
    · exact ⟨le_rfl, hlo, (fill_empty mem dst le_rfl content).symm⟩
  obtain ⟨r, hr, rfl⟩ := hloop.result
  exact hr

/-- A segment that is copied. -/
theorem returns_mapSegment {slice target seg : Addr} (hcmd : (commandAt m seg).cmd = lcSegment64)
    (hseg : extent seg (commandLength m seg) ⊆ keep) (hmapped : (segmentAt m seg).Mapped)
    (hready : SegmentReady keep slice target (segmentAt m seg)) (hmem : Set.EqOn mem m keep) :
    (mapSegment slice target seg mem).Returns
      (patch mem [segmentPatch m slice target (segmentAt m seg)]) := by
  have hread : ∀ mem, Set.EqOn mem m keep → segmentAt mem seg = segmentAt m seg :=
    fun mem hmem => segmentAt_of_eqOn hmem hseg hcmd
  obtain ⟨hfile, hvm⟩ := segmentAt_lt m seg
  have hfits := hready.fits
  unfold mapSegment
  rw [hread mem hmem, if_neg (not_or.mpr hmapped)]
  generalize hdst : target + BitVec.ofNat 64 (segmentAt m seg).vmaddr = dst
  have hapart : Disjoint keep (extent dst (segmentAt m seg).vmsize) := hdst ▸ hready.apart
  have hcopy : (copyContent seg dst (slice + BitVec.ofNat 64 (segmentAt m seg).fileoff) mem).Returns
      (fill mem dst 0 (segmentAt m seg).filesize (segmentByte m slice (segmentAt m seg))) := by
    apply returns_fill (fun mem hmem => congrArg (·.filesize) (hread mem hmem)) _
      (hapart.mono_right (extent_mono dst hfits)) (Nat.zero_le _) hfile.le hmem
    intro mem hmem b _ hb
    rw [segmentByte, if_pos hb]
    exact hmem (hready.content (inExtent_add hfile.le hb))
  have hmem' : Set.EqOn (fill mem dst 0 (segmentAt m seg).filesize
      (segmentByte m slice (segmentAt m seg))) m keep :=
    eqOn_fill hmem (hapart.mono_right (extent_mono dst hfits)) 0 _
  have hzero : (zeroTail seg dst (fill mem dst 0 (segmentAt m seg).filesize
      (segmentByte m slice (segmentAt m seg)))).Returns
      (fill mem dst 0 (segmentAt m seg).vmsize (segmentByte m slice (segmentAt m seg))) := by
    unfold zeroTail
    rw [hread _ hmem', ← fill_fill mem dst (Nat.zero_le _) hfits]
    apply returns_fill (fun mem hmem => congrArg (·.vmsize) (hread mem hmem)) _ hapart hfits hvm.le
      hmem'
    intro mem hmem b hle _
    rw [segmentByte, if_neg (Nat.not_lt.mpr hle)]
  rw [returns_bind_of hcopy, patch_cons]
  change (zeroTail seg dst _).Returns (fill mem _ _ _ _)
  rw [show (segmentPatch m slice target (segmentAt m seg)).start = dst from hdst]
  exact hzero

end Copy

/-! ## The first pass -/

/-- What the first pass knows of the entry offset. -/
def Pass.entry (s : Pass) : Option Nat := if s.haveEntry then some s.entryoff else none

section FirstPass

variable {m : Mem 64} {keep : Set Addr} {slice target : Addr}

theorem entryoffAt_of_eqOn {m' : Mem 64} (h : Set.EqOn m' m keep) {p : Addr}
    (hp : extent p (commandLength m p) ⊆ keep) (hcmd : (commandAt m p).cmd = lcMain) :
    entryoffAt m' p = entryoffAt m p := by
  rw [commandLength, if_neg (by rw [hcmd]; decide), if_pos hcmd] at hp
  exact member_of_eqOn h hp (by decide) (by decide)

theorem segmentsAmong_cons (m : Mem 64) (p : Addr) (cs : List Addr) :
    segmentsAmong m (p :: cs) = segmentsAmong m [p] ++ segmentsAmong m cs := by
  rw [← List.singleton_append]
  simp only [segmentsAmong, List.filter_append, List.map_append]

/-- What one command adds: the block of a segment that is copied, or an entry offset. -/
theorem returns_mapCommand {s : Pass} (hp : extent s.p (commandLength m s.p) ⊆ keep)
    (hready : ∀ seg ∈ segmentsAmong m [s.p], seg.Mapped → SegmentReady keep slice target seg)
    (hmem : Set.EqOn s.mem m keep) :
    ∃ t, (mapCommand slice target s).Returns t ∧ t.i = s.i ∧ t.p = s.p ∧
      t.mem = patch s.mem (segmentPatches m slice target (segmentsAmong m [s.p])) ∧
      t.entry = (entryOffset m [s.p]).or s.entry := by
  unfold mapCommand
  rw [commandAt_of_eqOn hmem hp, entryOffset, entryOffset, Option.none_or]
  by_cases hsegment : (commandAt m s.p).cmd = lcSegment64
  · have hother : (commandAt m s.p).cmd ≠ lcMain := by
      rw [hsegment]
      decide
    rw [segmentsAmong_cons_of_segment [] hsegment] at hready ⊢
    rw [if_pos hsegment, if_neg hother, Option.none_or]
    by_cases hmapped : (segmentAt m s.p).Mapped
    · have hseg := returns_mapSegment hsegment hp hmapped
        (hready _ List.mem_cons_self hmapped) hmem
      refine ⟨{ s with mem := patch s.mem [segmentPatch m slice target (segmentAt m s.p)] },
        (returns_bind_of hseg _ _).mpr ((returns_pure _ _).mpr rfl), rfl, rfl, ?_, rfl⟩
      rw [segmentPatches, List.filter_cons_of_pos (by simpa using hmapped)]
      rfl
    · -- The segment takes up no memory, or has no content.
      have hskip : (mapSegment slice target s.p s.mem).Returns s.mem := by
        unfold mapSegment
        rw [segmentAt_of_eqOn hmem hp hsegment, if_pos]
        · exact (returns_pure _ _).mpr rfl
        · by_contra hboth
          exact hmapped (not_or.mp hboth)
      refine ⟨s, (returns_bind_of hskip _ _).mpr ((returns_pure _ _).mpr rfl), rfl, rfl, ?_, rfl⟩
      rw [segmentPatches, List.filter_cons_of_neg (by simpa using hmapped)]
      rfl
  · rw [segmentsAmong_cons_of_other [] hsegment, if_neg hsegment]
    by_cases hmain : (commandAt m s.p).cmd = lcMain
    · rw [if_pos hmain, if_pos hmain, entryoffAt_of_eqOn hmem hp hmain]
      exact ⟨_, (returns_pure _ _).mpr rfl, rfl, rfl, rfl, rfl⟩
    · rw [if_neg hmain, if_neg hmain, Option.none_or]
      exact ⟨s, (returns_pure _ _).mpr rfl, rfl, rfl, rfl, rfl⟩

/-- The blocks of segments that are ready miss the bytes to keep. -/
theorem eqOn_segmentPatches {mem : Mem 64} {segs : List SegmentCommand64}
    (hready : ∀ seg ∈ segs, seg.Mapped → SegmentReady keep slice target seg)
    (hmem : Set.EqOn mem m keep) :
    Set.EqOn (patch mem (segmentPatches m slice target segs)) m keep := by
  refine Set.EqOn.trans (eqOn_patch ?_) hmem
  intro p hp
  obtain ⟨seg, hseg, hmapped, rfl⟩ := mem_segmentPatches.mp hp
  exact (hready seg hseg hmapped).apart

/-- The first pass, over the commands that are left.  Those are the commands the slice had
at the start, because none of the writes so far has changed them. -/
theorem returns_mapLoop (hheader : extent slice sizeofMachHeader64 ⊆ keep) {left : Nat} {s : Pass}
    (hleft : s.i + left = (headerAt m slice).ncmds) (hmem : Set.EqOn s.mem m keep)
    (hcommands : ∀ p ∈ commands m left s.p, extent p (commandLength m p) ⊆ keep)
    (hready : ∀ seg ∈ segmentsAmong m (commands m left s.p), seg.Mapped →
      SegmentReady keep slice target seg) :
    ∃ r, (loop (mapBody slice target) s).Returns r ∧
      r.mem = patch s.mem (segmentPatches m slice target
        (segmentsAmong m (commands m left s.p))) ∧
      r.entry = (entryOffset m (commands m left s.p)).or s.entry := by
  induction left generalizing s with
  | zero =>
      have hdone : (mapBody slice target s).Returns (.inr s) := by
        unfold mapBody
        rw [headerAt_of_eqOn hmem hheader, if_neg (by omega)]
        exact (returns_pure _ _).mpr rfl
      exact ⟨s, returns_loop_of_done hdone, rfl, rfl⟩
  | succ left ih =>
      rw [commands] at hcommands hready ⊢
      rw [segmentsAmong_cons] at hready ⊢
      have hp := hcommands s.p List.mem_cons_self
      have hfirst : ∀ seg ∈ segmentsAmong m [s.p], seg.Mapped →
          SegmentReady keep slice target seg :=
        fun seg hseg => hready seg (List.mem_append_left _ hseg)
      obtain ⟨t, ht, hi, hpt, htmem, hentry⟩ := returns_mapCommand hp hfirst hmem
      have hkeep : Set.EqOn t.mem m keep := htmem ▸ eqOn_segmentPatches hfirst hmem
      have hnext : nextCommand t.mem t.p = nextCommand m s.p := by
        rw [hpt, nextCommand_of_eqOn hkeep hp]
      have hstep : (mapBody slice target s).Returns
          (.inl { t with i := t.i + 1, p := nextCommand m s.p }) := by
        unfold mapBody
        rw [headerAt_of_eqOn hmem hheader, if_pos (by omega), returns_bind_of ht, hnext]
        exact (returns_pure _ _).mpr rfl
      obtain ⟨r, hr, hrmem, hrentry⟩ := ih (s := { t with i := t.i + 1, p := nextCommand m s.p })
        (by change t.i + 1 + left = _; omega) hkeep
        (fun q hq => hcommands q (List.mem_cons_of_mem _ hq))
        (fun seg hseg => hready seg (List.mem_append_right _ hseg))
      refine ⟨r, returns_loop_of_step hstep hr, ?_, ?_⟩
      · rw [hrmem, segmentPatches_append, patch_append, ← htmem]
      · have hlast : r.entry = (entryOffset m (commands m left (nextCommand m s.p))).or t.entry :=
          hrentry
        rw [hlast, hentry, ← Option.or_assoc]
        rfl

end FirstPass

/-! ## The second pass -/

/-- The second pass reads the commands only. -/
theorem entryAddr_of_eqOn {m m' : Mem 64} {keep : Set Addr} (h : Set.EqOn m' m keep)
    (target : Addr) (entryoff : Nat) {count : Nat} {p : Addr}
    (hcommands : ∀ q ∈ commands m count p, extent q (commandLength m q) ⊆ keep) :
    entryAddr m' target entryoff count p = entryAddr m target entryoff count p := by
  induction count generalizing p with
  | zero => rfl
  | succ count ih =>
      rw [commands] at hcommands
      have hp := hcommands p List.mem_cons_self
      have hrest := ih fun q hq => hcommands q (List.mem_cons_of_mem _ hq)
      rw [entryAddr, entryAddr, commandAt_of_eqOn h hp, nextCommand_of_eqOn h hp, hrest]
      by_cases hcmd : (commandAt m p).cmd = lcSegment64
      · rw [segmentAt_of_eqOn h hp hcmd]
      · simp only [hcmd, false_and, if_false]

theorem entryOffset_eq_none {m : Mem 64} {cs : List Addr}
    (h : ∀ p ∈ cs, (commandAt m p).cmd ≠ lcMain) : entryOffset m cs = none := by
  induction cs with
  | nil => rfl
  | cons p cs ih =>
      rw [entryOffset, ih fun q hq => h q (List.mem_cons_of_mem _ hq),
        if_neg (h p List.mem_cons_self)]
      rfl

/-- The entry point of a slice, or 0. -/
def sliceEntry (m : Mem 64) (slice target : Addr) : Addr :=
  (entryOffset m (sliceCommands m slice)).elim 0 fun entryoff =>
    entryAddr m target entryoff (headerAt m slice).ncmds
      (slice + BitVec.ofNat 64 sizeofMachHeader64)

/-! ## The whole image -/

/-- The conditions on an image whose bytes are `bytes`: the headers, the load commands and
the contents of the segments that are copied are among them, the segments go elsewhere,
and no two of them to the same place. -/
structure Loadable (arch : Arch) (m : Mem 64) (image target : Addr) (bytes : Set Addr) : Prop where
  headers : headerBytes arch m image ⊆ bytes
  ready : ∀ slice ∈ nativeSlice arch m image, ∀ seg ∈ segments arch m image, seg.Mapped →
    SegmentReady bytes slice target seg
  disjoint : ((segments arch m image).filter fun seg => seg.Mapped).Pairwise fun seg other =>
    Disjoint (extent (target + BitVec.ofNat 64 seg.vmaddr) seg.vmsize)
      (extent (target + BitVec.ofNat 64 other.vmaddr) other.vmsize)

section Image

variable {arch : Arch} {m : Mem 64} {image target slice : Addr} {bytes : Set Addr}

/-- **What the loader does**: it puts the blocks of the segments into place. -/
theorem returns_loadSlice (hload : Loadable arch m image target bytes)
    (hslice : nativeSlice arch m image = some slice) :
    (machoLoad arch m image target).Returns
      (patch m (segmentPatches m slice target (segments arch m image)),
        sliceEntry m slice target) := by
  have hcommands := loadCommands_of_slice hslice
  have hheader : extent slice sizeofMachHeader64 ⊆ bytes :=
    (slice_subset (nativeSlice_eq_some_iff.mp hslice).1).trans hload.headers
  have hinside : ∀ p ∈ sliceCommands m slice, extent p (commandLength m p) ⊆ bytes :=
    fun p hp => (command_subset (hcommands ▸ hp)).trans hload.headers
  have hsegments := segments_of_slice hslice
  have hready : ∀ seg ∈ segmentsAmong m (sliceCommands m slice), seg.Mapped →
      SegmentReady bytes slice target seg :=
    hsegments ▸ hload.ready slice hslice
  obtain ⟨r, hr, hmem, hentry⟩ := returns_mapLoop hheader
    (s := ⟨0, slice + BitVec.ofNat 64 sizeofMachHeader64, m, 0, false⟩) (Nat.zero_add _)
    (Set.eqOn_refl m bytes) hinside hready
  change r.mem = patch m (segmentPatches m slice target
    (segmentsAmong m (sliceCommands m slice))) at hmem
  change r.entry = (entryOffset m (sliceCommands m slice)).or none at hentry
  have hkeep : Set.EqOn r.mem m bytes :=
    hmem ▸ eqOn_segmentPatches hready (Set.eqOn_refl m bytes)
  rw [machoLoad_of_slice hslice, loadSlice, returns_bind_of hr, hsegments, ← hmem]
  rw [Option.or_none] at hentry
  rw [sliceEntry, ← hentry, Pass.entry]
  by_cases hhave : r.haveEntry = true
  · rw [if_neg (by simp [hhave]), if_pos hhave, headerAt_of_eqOn hkeep hheader,
      entryAddr_of_eqOn hkeep target r.entryoff hinside]
    exact (returns_pure _ _).mpr rfl
  · rw [if_pos (by simpa using hhave), if_neg hhave]
    exact (returns_pure _ _).mpr rfl

/-- An entry point other than 0 is as far into the place of a segment as the entry offset is
into its content. -/
theorem sliceEntry_cases (target : Addr) (hslice : nativeSlice arch m image = some slice)
    {entryoff : Nat} (hoffset : entryOffset m (sliceCommands m slice) = some entryoff) :
    sliceEntry m slice target = 0 ∨
      ∃ seg ∈ segments arch m image, ∃ k < seg.filesize, seg.fileoff + k = entryoff ∧
        sliceEntry m slice target = target + BitVec.ofNat 64 seg.vmaddr + BitVec.ofNat 64 k := by
  rw [segments_of_slice hslice, sliceEntry, hoffset]
  exact entryAddr_cases m target entryoff _ _

theorem segment_lt {seg : SegmentCommand64} (hseg : seg ∈ segments arch m image) :
    seg.filesize < 2 ^ 64 ∧ seg.vmsize < 2 ^ 64 := by
  obtain ⟨p, -, -, rfl⟩ := mem_segmentsAmong.mp hseg
  exact segmentAt_lt m p

/-- Every byte of a copied segment is in place. -/
theorem patch_segment (hload : Loadable arch m image target bytes) {seg : SegmentCommand64}
    (hseg : seg ∈ segments arch m image) (hmapped : seg.Mapped) {b : Nat} (hb : b < seg.vmsize) :
    patch m (segmentPatches m slice target (segments arch m image))
        (target + BitVec.ofNat 64 seg.vmaddr + BitVec.ofNat 64 b) = segmentByte m slice seg b := by
  have hapart : (segmentPatches m slice target (segments arch m image)).Pairwise
      fun p q => Disjoint p.extent q.extent := List.pairwise_map.mpr hload.disjoint
  exact patch_of_mem hapart (mem_segmentPatches.mpr ⟨seg, hseg, hmapped, rfl⟩)
    (segment_lt hseg).2.le hb

/-- A place in the content of a copied segment holds the byte of the file. -/
theorem patch_content (hload : Loadable arch m image target bytes)
    (hslice : nativeSlice arch m image = some slice) {seg : SegmentCommand64}
    (hseg : seg ∈ segments arch m image) (hmapped : seg.Mapped) {b : Nat} (hb : b < seg.filesize) :
    patch m (segmentPatches m slice target (segments arch m image))
        (target + BitVec.ofNat 64 seg.vmaddr + BitVec.ofNat 64 b) =
      m (slice + BitVec.ofNat 64 (seg.fileoff + b)) := by
  have hfits := (hload.ready slice hslice seg hseg hmapped).fits
  rw [patch_segment hload hseg hmapped (by omega), segmentByte, if_pos hb, BitVec.ofNat_add,
    BitVec.add_assoc]

end Image

/-- **The memory image.**  A single-architecture image of `len` bytes that meets the
conditions is copied exactly: the content of each segment that is copied, then zeros, and
nothing else changes. -/
theorem machoLoad_memory_image (arch : Arch) (m : Mem 64) (image target : Addr) (len : Nat)
    (hthin : load m image 4 = mhMagic64)
    (hnative : (headerAt m image).cputype = cpuTypeNative arch)
    (hload : Loadable arch m image target (extent image len)) :
    ∃ m' entry, (machoLoad arch m image target).Returns (m', entry) ∧
      (∀ seg ∈ segments arch m image, seg.Mapped →
        (∀ b < seg.filesize,
          m' (target + BitVec.ofNat 64 seg.vmaddr + BitVec.ofNat 64 b) =
            m (image + BitVec.ofNat 64 (seg.fileoff + b))) ∧
        ∀ b, seg.filesize ≤ b → b < seg.vmsize →
          m' (target + BitVec.ofNat 64 seg.vmaddr + BitVec.ofNat 64 b) = 0) ∧
      ∀ x, (∀ seg ∈ segments arch m image, seg.Mapped →
          x ∉ extent (target + BitVec.ofNat 64 seg.vmaddr) seg.vmsize) → m' x = m x := by
  have hslice := nativeSlice_of_thin hthin hnative
  refine ⟨_, _, returns_loadSlice hload hslice, ?_, ?_⟩
  · intro seg hseg hmapped
    constructor
    · intro b hb
      exact patch_content hload hslice hseg hmapped hb
    · intro b hle hlt
      rw [patch_segment hload hseg hmapped hlt, segmentByte, if_neg (Nat.not_lt.mpr hle)]
  · intro x hx
    apply patch_of_forall_notMem
    intro p hp
    obtain ⟨seg, hseg, hmapped, rfl⟩ := mem_segmentPatches.mp hp
    exact hx seg hseg hmapped

/-- The small init, loaded where it asks to be. -/
theorem loadable_sample :
    Loadable .x86_64 (sampleMem .x86_64) (sampleImage .x86_64) 0
      (extent (sampleImage .x86_64) 200) where
  headers := headerBytes_sample .x86_64
  ready := by
    rw [nativeSlice_sample, segments_sample]
    rintro slice ⟨⟩ seg hseg hmapped
    simp only [List.mem_cons, List.not_mem_nil, or_false] at hseg
    rcases hseg with rfl | rfl
    · exact absurd rfl hmapped.2
    · refine ⟨by decide, extent_add_subset _ 0 (by decide), ?_⟩
      apply Set.disjoint_left.mpr
      intro x himage hdst
      change x ∈ extent (0 + BitVec.ofNat 64 (bspInitLoadBase .x86_64)) 0x20 at hdst
      rw [mem_extent_iff (by decide)] at himage hdst
      have hend : (sampleImage .x86_64).toNat + 200 ≤
          (0 + BitVec.ofNat 64 (bspInitLoadBase .x86_64)).toNat := by decide
      omega
  disjoint := by
    rw [segments_sample]
    exact List.pairwise_singleton _ _

/-- Its content, the zeros behind it, and a byte elsewhere. -/
theorem sample_memory_image :
    ∃ m' entry, (machoLoad .x86_64 (sampleMem .x86_64) (sampleImage .x86_64) 0).Returns
        (m', entry) ∧
      m' 0x1800004 = sampleMem .x86_64 (sampleImage .x86_64 + 4) ∧ m' 0x1800010 = 0 ∧
      m' 0x1800020 = sampleMem .x86_64 0x1800020 := by
  obtain ⟨m', entry, hreturns, hsegments, hframe⟩ := machoLoad_memory_image .x86_64
    (sampleMem .x86_64) (sampleImage .x86_64) 0 200 (by decide +kernel) (by decide +kernel)
    loadable_sample
  rw [segments_sample] at hsegments hframe
  obtain ⟨hcontent, hzero⟩ := hsegments _ (List.mem_cons_of_mem _ List.mem_cons_self) (by decide)
  refine ⟨m', entry, hreturns, hcontent 4 (by decide), hzero 0x10 (by decide) (by decide), ?_⟩
  apply hframe
  intro seg hseg hmapped
  simp only [List.mem_cons, List.not_mem_nil, or_false] at hseg
  rcases hseg with rfl | rfl
  · exact absurd rfl hmapped.2
  · change ¬ InExtent _ _ _
    decide

/-- **The entry point is loaded code.**  For an image that meets the conditions and whose
segments with content are at least as long in memory: an entry point other than 0 lies in
a segment that was copied, and from there to the end of the segment's content memory
holds the bytes of the slice from the entry offset on.  Without an `LC_MAIN`, or with an
entry offset in no segment's content, the loader returns 0. -/
theorem machoLoad_entry_loaded (arch : Arch) (m : Mem 64) (image target : Addr)
    (bytes : Set Addr) (hload : Loadable arch m image target bytes)
    (hfits : ∀ seg ∈ segments arch m image, seg.FileBacked → seg.filesize ≤ seg.vmsize) :
    ∃ m' entry, (machoLoad arch m image target).Returns (m', entry) ∧
      (entry ≠ 0 → ∃ slice entryoff, nativeSlice arch m image = some slice ∧
        entryOffset m (loadCommands arch m image) = some entryoff ∧
        ∃ seg ∈ segments arch m image, seg.Mapped ∧
          entry ∈ extent (target + BitVec.ofNat 64 seg.vmaddr) seg.vmsize ∧
          (seg.fileoff ≤ entryoff ∧ entryoff < seg.fileoff + seg.filesize) ∧
          ∀ k, entryoff + k < seg.fileoff + seg.filesize →
            m' (entry + BitVec.ofNat 64 k) = m (slice + BitVec.ofNat 64 (entryoff + k))) ∧
      ((∀ p ∈ loadCommands arch m image, (commandAt m p).cmd ≠ lcMain) → entry = 0) ∧
      ∀ entryoff, entryOffset m (loadCommands arch m image) = some entryoff →
        (∀ seg ∈ segments arch m image,
          ¬ (seg.fileoff ≤ entryoff ∧ entryoff < seg.fileoff + seg.filesize)) → entry = 0 := by
  cases hslice : nativeSlice arch m image with
  | none =>
      refine ⟨m, 0, ?_, fun h => absurd rfl h, fun _ => rfl, fun _ _ _ => rfl⟩
      rw [machoLoad_of_none hslice]
      exact (returns_pure _ _).mpr rfl
  | some slice =>
      refine ⟨_, _, returns_loadSlice hload hslice, ?_⟩
      rw [loadCommands_of_slice hslice]
      cases hoffset : entryOffset m (sliceCommands m slice) with
      | none =>
          have hzero : sliceEntry m slice target = 0 := by
            rw [sliceEntry, hoffset]
            rfl
          exact ⟨fun h => absurd hzero h, fun _ => hzero, fun _ h => by cases h⟩
      | some entryoff =>
          have hentry := sliceEntry_cases target hslice hoffset
          refine ⟨fun hne => ⟨slice, entryoff, rfl, rfl, ?_⟩, fun hnone => ?_, ?_⟩
          · obtain ⟨seg, hseg, k, hk, hat, hplace⟩ := hentry.resolve_left hne
            have hfit := hfits seg hseg (by unfold SegmentCommand64.FileBacked; omega)
            have hmapped : seg.Mapped := ⟨by omega, by omega⟩
            rw [hplace]
            refine ⟨seg, hseg, hmapped, ?_, by omega, fun j hj => ?_⟩
            · exact inExtent_add (segment_lt hseg).2.le (by omega)
            · rw [BitVec.add_assoc, ← BitVec.ofNat_add,
                patch_content hload hslice hseg hmapped (by omega), ← Nat.add_assoc, hat]
          · rw [entryOffset_eq_none hnone] at hoffset
            cases hoffset
          · intro other hother hnone
            obtain rfl := Option.some.inj hother
            refine hentry.resolve_right ?_
            rintro ⟨seg, hseg, k, hk, hat, -⟩
            exact hnone seg hseg (by omega)

/-- The entry point of the small init is eight bytes into its segment. -/
theorem sample_entry_loaded :
    ∃ m', (machoLoad .x86_64 (sampleMem .x86_64) (sampleImage .x86_64) 0).Returns
        (m', 0x1800008) ∧
      m' 0x1800008 = sampleMem .x86_64 (sampleImage .x86_64 + 8) := by
  have hfits : ∀ seg ∈ segments .x86_64 (sampleMem .x86_64) (sampleImage .x86_64),
      seg.FileBacked → seg.filesize ≤ seg.vmsize := by
    rw [segments_sample]
    decide
  obtain ⟨m', entry, hreturns, hloaded, -, -⟩ := machoLoad_entry_loaded .x86_64
    (sampleMem .x86_64) (sampleImage .x86_64) 0 _ loadable_sample hfits
  have hresult := hreturns.unique
    (returns_loadSlice loadable_sample (nativeSlice_sample .x86_64))
  have hentry : entry = 0x1800008 := by
    rw [(Prod.mk.inj hresult).2]
    decide +kernel
  subst hentry
  obtain ⟨slice, entryoff, hslice, hoffset, seg, -, -, -, hrange, hbytes⟩ := hloaded (by decide)
  rw [nativeSlice_sample] at hslice
  obtain rfl := Option.some.inj hslice
  have hat : entryoff = 8 := by
    rw [loadCommands_sample] at hoffset
    have hvalue : entryOffset (sampleMem .x86_64) [sampleImage .x86_64 + 32,
        sampleImage .x86_64 + 104, sampleImage .x86_64 + 176] = some 8 := by decide +kernel
    rw [hvalue] at hoffset
    exact (Option.some.inj hoffset).symm
  subst hat
  exact ⟨m', hreturns, hbytes 0 hrange.2⟩

end Boot
end Saski
