import Saski.Lib.ByteMemory
import Saski.Lib.Prog

/-!
# The Mach-O loader (`kernel/macho.c`)

`machoLoad` copies the segments of an image to the places the image asks for, moved by
`target_base`, and `machoImageSize` measures the span of those places.

* The image stands in the memory the loader writes to.  Nothing keeps a segment from
  being copied over the image itself, and the loader reads the number of commands, the
  sizes of a segment and the size of a command each time it needs them.  The model does
  the same: every access takes the memory as it is at that point.
* The log of `machoLoad` records every address written.
* Addresses are 64-bit words and wrap; the loop counters are `Nat`, since they stay below
  a bound that is itself a machine word.

The second half describes the image itself: which commands a walk visits in a memory that
does not change, and which bytes it reads there.
-/

namespace Saski
namespace Boot

open ByteMemory Logged Prog

/-- The architecture that the kernel is built for. -/
inductive Arch where
  | x86_64
  | aarch64
  deriving DecidableEq, Repr

abbrev Addr := BitVec 64

def mhMagic64 : Nat := 0xfeedfacf

def fatMagic : Nat := 0xcafebabe

def lcSegment64 : Nat := 0x19

/-- `LC_MAIN`, which is `0x28 | LC_REQ_DYLD`. -/
def lcMain : Nat := 0x80000028

/-- `CPU_TYPE_NATIVE`. -/
def cpuTypeNative : Arch → Nat
  | .aarch64 => 0x0100000c
  | .x86_64 => 0x01000007

/-- What `resolve_slice_offset` returns when it fails. -/
def noSlice : Nat := 0xFFFFFFFF

/-! ## The structures of an image -/

/-- A member of the structure at `p`. -/
def member (m : Mem 64) (p : Addr) (off size : Nat) : Nat := load m (p + BitVec.ofNat 64 off) size

/-- `mach_header_64_t`, as far as it is used. -/
structure MachHeader64 where
  magic : Nat
  cputype : Nat
  ncmds : Nat
  deriving DecidableEq, Repr

/-- `load_command_t`. -/
structure LoadCommand where
  cmd : Nat
  cmdsize : Nat
  deriving DecidableEq, Repr

/-- `segment_command_64_t`, as far as it is used. -/
structure SegmentCommand64 where
  vmaddr : Nat
  vmsize : Nat
  fileoff : Nat
  filesize : Nat
  deriving DecidableEq, Repr

/-- The size of `mach_header_64_t`. -/
def sizeofMachHeader64 : Nat := 32

def headerAt (m : Mem 64) (mh : Addr) : MachHeader64 where
  magic := member m mh 0 4
  cputype := member m mh 4 4
  ncmds := member m mh 16 4

def commandAt (m : Mem 64) (lc : Addr) : LoadCommand where
  cmd := member m lc 0 4
  cmdsize := member m lc 4 4

def segmentAt (m : Mem 64) (seg : Addr) : SegmentCommand64 where
  vmaddr := member m seg 24 8
  vmsize := member m seg 32 8
  fileoff := member m seg 40 8
  filesize := member m seg 48 8

/-- The only member used of `entry_point_command_t`. -/
def entryoffAt (m : Mem 64) (ep : Addr) : Nat := member m ep 8 8

/-- `p += lc->cmdsize`. -/
def nextCommand (m : Mem 64) (p : Addr) : Addr := p + BitVec.ofNat 64 (commandAt m p).cmdsize

/-! ## The slice for this architecture -/

/-- `rd_be32`. -/
def rdBe32 (m : Mem 64) (p : Addr) : Nat :=
  ((m p).toNat <<< 24) ||| ((m (p + 1)).toNat <<< 16) ||| ((m (p + 2)).toNat <<< 8) |||
    (m (p + 3)).toNat

/-- The loop of `resolve_slice_offset` over the remaining `fat_arch` entries. -/
def findSlice (arch : Arch) (m : Mem 64) : (count : Nat) → (entry : Addr) → Nat
  | 0, _ => noSlice
  | count + 1, entry =>
      if rdBe32 m entry = cpuTypeNative arch then rdBe32 m (entry + 8)
      else findSlice arch m count (entry + 20)

/-- `resolve_slice_offset`. -/
def resolveSliceOffset (arch : Arch) (m : Mem 64) (image : Addr) : Nat :=
  if load m image 4 = mhMagic64 then 0
  else if rdBe32 m image ≠ fatMagic then noSlice
  else findSlice arch m (rdBe32 m (image + 4)) (image + 8)

/-! ## Copying the segments -/

/-- A byte store. -/
def storeByte (m : Mem 64) (a : Addr) (v : UInt8) : Logged Addr (Mem 64) :=
  withLog (Function.update m a v) [a]

/-- The state of a copying loop. -/
structure Cursor where
  b : Nat
  mem : Mem 64

/-- `for (; b < limit; b++) dst[b] = byte;` where the limit and the byte are read from
memory in every iteration. -/
def fillBody (limit : Mem 64 → Nat) (byte : Mem 64 → Nat → UInt8) (dst : Addr) (s : Cursor) :
    Prog Addr (Cursor ⊕ Mem 64) :=
  if s.b < limit s.mem then do
    let mem ← storeByte s.mem (dst + BitVec.ofNat 64 s.b) (byte s.mem s.b)
    pure (.inl ⟨s.b + 1, mem⟩)
  else pure (.inr s.mem)

/-- `for (b = 0; b < seg->filesize; b++) dst[b] = src[b];` -/
def copyContent (seg dst src : Addr) (m : Mem 64) : Prog Addr (Mem 64) :=
  loop (fillBody (fun mem => (segmentAt mem seg).filesize)
    (fun mem b => mem (src + BitVec.ofNat 64 b)) dst) ⟨0, m⟩

/-- `for (b = seg->filesize; b < seg->vmsize; b++) dst[b] = 0;` -/
def zeroTail (seg dst : Addr) (m : Mem 64) : Prog Addr (Mem 64) :=
  loop (fillBody (fun mem => (segmentAt mem seg).vmsize) (fun _ _ => 0) dst)
    ⟨(segmentAt m seg).filesize, m⟩

/-- The `LC_SEGMENT_64` case of the first pass. -/
def mapSegment (slice target seg : Addr) (m : Mem 64) : Prog Addr (Mem 64) :=
  if (segmentAt m seg).vmsize = 0 ∨ (segmentAt m seg).filesize = 0 then pure m
  else do
    let dst := target + BitVec.ofNat 64 (segmentAt m seg).vmaddr
    let src := slice + BitVec.ofNat 64 (segmentAt m seg).fileoff
    let m ← copyContent seg dst src m
    zeroTail seg dst m

/-- The variables of the first pass. -/
structure Pass where
  i : Nat
  p : Addr
  mem : Mem 64
  entryoff : Nat
  haveEntry : Bool

/-- The command at `p`, in the first pass. -/
def mapCommand (slice target : Addr) (s : Pass) : Prog Addr Pass :=
  if (commandAt s.mem s.p).cmd = lcSegment64 then do
    let mem ← mapSegment slice target s.p s.mem
    pure { s with mem }
  else if (commandAt s.mem s.p).cmd = lcMain then
    pure { s with entryoff := entryoffAt s.mem s.p, haveEntry := true }
  else pure s

/-- The first pass: map every segment. -/
def mapBody (slice target : Addr) (s : Pass) : Prog Addr (Pass ⊕ Pass) :=
  if s.i < (headerAt s.mem slice).ncmds then do
    let s ← mapCommand slice target s
    pure (.inl { s with i := s.i + 1, p := nextCommand s.mem s.p })
  else pure (.inr s)

/-- The second pass, over the remaining commands: the runtime address of `entryoff`. -/
def entryAddr (m : Mem 64) (target : Addr) (entryoff : Nat) : (count : Nat) → Addr → Addr
  | 0, _ => 0
  | count + 1, p =>
      let seg := segmentAt m p
      if (commandAt m p).cmd = lcSegment64 ∧ seg.fileoff ≤ entryoff ∧
          entryoff < (seg.fileoff + seg.filesize) % 2 ^ 64 then
        target + BitVec.ofNat 64 seg.vmaddr + BitVec.ofNat 64 (entryoff - seg.fileoff)
      else entryAddr m target entryoff count (nextCommand m p)

/-- The rest of `macho_load`, once the slice is accepted. -/
def loadSlice (m : Mem 64) (slice target : Addr) : Prog Addr (Mem 64 × Addr) := do
  let cmdBase := slice + BitVec.ofNat 64 sizeofMachHeader64
  let s ← loop (mapBody slice target) ⟨0, cmdBase, m, 0, false⟩
  if s.haveEntry = false then pure (s.mem, 0)
  else pure (s.mem, entryAddr s.mem target s.entryoff (headerAt s.mem slice).ncmds cmdBase)

/-- `macho_load`: the memory it leaves, and the entry point or 0. -/
def machoLoad (arch : Arch) (m : Mem 64) (image target : Addr) : Prog Addr (Mem 64 × Addr) :=
  let sliceOff := resolveSliceOffset arch m image
  let slice := image + BitVec.ofNat 64 sliceOff
  if sliceOff = noSlice then pure (m, 0)
  else if (headerAt m slice).magic ≠ mhMagic64 then pure (m, 0)
  else if (headerAt m slice).cputype ≠ cpuTypeNative arch then pure (m, 0)
  else loadSlice m slice target

/-! ## Measuring an image -/

/-- The variables of `macho_image_size`. -/
@[ext] structure Span where
  lowest : Nat
  highest : Nat
  foundAny : Bool
  deriving DecidableEq, Repr

/-- What one segment adds to the span. -/
def Span.cover (s : Span) (seg : SegmentCommand64) : Span :=
  if seg.filesize = 0 then s
  else
    let segEnd := (seg.vmaddr + seg.vmsize) % 2 ^ 64
    { lowest := if seg.vmaddr < s.lowest then seg.vmaddr else s.lowest
      highest := if s.highest < segEnd then segEnd else s.highest
      foundAny := true }

/-- The loop of `macho_image_size` over the remaining commands. -/
def measure (m : Mem 64) : (count : Nat) → Addr → Span → Span
  | 0, _, s => s
  | count + 1, p, s =>
      measure m count (nextCommand m p)
        (if (commandAt m p).cmd = lcSegment64 then s.cover (segmentAt m p) else s)

/-- `macho_image_size`. -/
def machoImageSize (arch : Arch) (m : Mem 64) (image : Addr) : Nat :=
  let sliceOff := resolveSliceOffset arch m image
  let slice := image + BitVec.ofNat 64 sliceOff
  if sliceOff = noSlice then 0
  else if (headerAt m slice).magic ≠ mhMagic64 ∨
      (headerAt m slice).cputype ≠ cpuTypeNative arch then 0
  else
    let s := measure m (headerAt m slice).ncmds (slice + BitVec.ofNat 64 sizeofMachHeader64)
      ⟨2 ^ 64 - 1, 0, false⟩
    if s.foundAny then (s.highest + 2 ^ 64 - s.lowest) % 2 ^ 64 else 0

/-! ## What an image declares

The walks above, in a memory that does not change. -/

/-- The commands that a walk over `count` commands from `p` visits. -/
def commands (m : Mem 64) : (count : Nat) → (p : Addr) → List Addr
  | 0, _ => []
  | count + 1, p => p :: commands m count (nextCommand m p)

/-- The slice for this architecture, before its header is checked. -/
def sliceOf (arch : Arch) (m : Mem 64) (image : Addr) : Option Addr :=
  if resolveSliceOffset arch m image = noSlice then none
  else some (image + BitVec.ofNat 64 (resolveSliceOffset arch m image))

/-- The slice the loader accepts. -/
def nativeSlice (arch : Arch) (m : Mem 64) (image : Addr) : Option Addr :=
  (sliceOf arch m image).filter fun slice =>
    (headerAt m slice).magic = mhMagic64 ∧ (headerAt m slice).cputype = cpuTypeNative arch

/-- The commands of a slice. -/
def sliceCommands (m : Mem 64) (slice : Addr) : List Addr :=
  commands m (headerAt m slice).ncmds (slice + BitVec.ofNat 64 sizeofMachHeader64)

/-- The load commands of an image; an image that is refused has none. -/
def loadCommands (arch : Arch) (m : Mem 64) (image : Addr) : List Addr :=
  (nativeSlice arch m image).elim [] (sliceCommands m)

/-- The segments among some commands. -/
def segmentsAmong (m : Mem 64) (cs : List Addr) : List SegmentCommand64 :=
  (cs.filter fun p => (commandAt m p).cmd = lcSegment64).map (segmentAt m)

theorem segmentsAmong_cons_of_segment {m : Mem 64} {p : Addr} (cs : List Addr)
    (h : (commandAt m p).cmd = lcSegment64) :
    segmentsAmong m (p :: cs) = segmentAt m p :: segmentsAmong m cs := by
  unfold segmentsAmong
  rw [List.filter_cons_of_pos (by simpa using h), List.map_cons]

theorem segmentsAmong_cons_of_other {m : Mem 64} {p : Addr} (cs : List Addr)
    (h : (commandAt m p).cmd ≠ lcSegment64) :
    segmentsAmong m (p :: cs) = segmentsAmong m cs := by
  unfold segmentsAmong
  rw [List.filter_cons_of_neg (by simpa using h)]

/-- The segments of an image. -/
def segments (arch : Arch) (m : Mem 64) (image : Addr) : List SegmentCommand64 :=
  segmentsAmong m (loadCommands arch m image)

/-- Some content in the file, so not a bare reservation of addresses. -/
def SegmentCommand64.FileBacked (seg : SegmentCommand64) : Prop := seg.filesize ≠ 0

instance (seg : SegmentCommand64) : Decidable seg.FileBacked :=
  inferInstanceAs (Decidable (seg.filesize ≠ 0))

/-- The size of the structure that the loader takes the command for. -/
def commandLength (m : Mem 64) (p : Addr) : Nat :=
  if (commandAt m p).cmd = lcSegment64 then 72
  else if (commandAt m p).cmd = lcMain then 24
  else 8

/-- How much of the start of an image `resolve_slice_offset` reads. -/
def fatLength (m : Mem 64) (image : Addr) : Nat :=
  if rdBe32 m image = fatMagic then 8 + 20 * rdBe32 m (image + 4) else 4

/-- The bytes of an image that decide what is loaded, and where: its headers and its load
commands. -/
def headerBytes (arch : Arch) (m : Mem 64) (image : Addr) : Set Addr :=
  extent image (fatLength m image) ∪
    {x | ∃ slice ∈ sliceOf arch m image, x ∈ extent slice sizeofMachHeader64} ∪
    {x | ∃ p ∈ loadCommands arch m image, x ∈ extent p (commandLength m p)}

/-! ## Only these bytes decide -/

section Agreement

variable {m m' : Mem 64} {s : Set Addr}

theorem member_of_eqOn (h : Set.EqOn m' m s) {p : Addr} {n : Nat} (hp : extent p n ⊆ s)
    (hn : n ≤ 2 ^ 64) {off size : Nat} (hfit : off + size ≤ n) :
    member m' p off size = member m p off size :=
  load_of_eqOn h (by omega) ((extent_add_subset p off hfit).trans hp)

theorem headerAt_of_eqOn (h : Set.EqOn m' m s) {mh : Addr}
    (hp : extent mh sizeofMachHeader64 ⊆ s) : headerAt m' mh = headerAt m mh := by
  unfold headerAt
  congr 1 <;> exact member_of_eqOn h hp (by decide) (by decide)

theorem commandAt_of_eqOn (h : Set.EqOn m' m s) {p : Addr} (hp : extent p (commandLength m p) ⊆ s) :
    commandAt m' p = commandAt m p := by
  have hlen : 8 ≤ commandLength m p ∧ commandLength m p ≤ 2 ^ 64 := by
    unfold commandLength
    split_ifs <;> decide
  unfold commandAt
  congr 1 <;> exact member_of_eqOn h hp hlen.2 (by omega)

theorem segmentAt_of_eqOn (h : Set.EqOn m' m s) {p : Addr} (hp : extent p (commandLength m p) ⊆ s)
    (hcmd : (commandAt m p).cmd = lcSegment64) : segmentAt m' p = segmentAt m p := by
  rw [commandLength, if_pos hcmd] at hp
  unfold segmentAt
  congr 1 <;> exact member_of_eqOn h hp (by decide) (by decide)

theorem nextCommand_of_eqOn (h : Set.EqOn m' m s) {p : Addr}
    (hp : extent p (commandLength m p) ⊆ s) : nextCommand m' p = nextCommand m p := by
  rw [nextCommand, nextCommand, commandAt_of_eqOn h hp]

theorem commands_of_eqOn (h : Set.EqOn m' m s) {count : Nat} {p : Addr}
    (hcs : ∀ q ∈ commands m count p, extent q (commandLength m q) ⊆ s) :
    commands m' count p = commands m count p := by
  induction count generalizing p with
  | zero => rfl
  | succ count ih =>
      rw [commands] at hcs
      rw [commands, commands, nextCommand_of_eqOn h (hcs p List.mem_cons_self),
        ih fun q hq => hcs q (List.mem_cons_of_mem _ hq)]

theorem segmentsAmong_of_eqOn (h : Set.EqOn m' m s) {cs : List Addr}
    (hcs : ∀ q ∈ cs, extent q (commandLength m q) ⊆ s) :
    segmentsAmong m' cs = segmentsAmong m cs := by
  induction cs with
  | nil => rfl
  | cons p cs ih =>
      have hp := hcs p List.mem_cons_self
      have hrest := ih fun q hq => hcs q (List.mem_cons_of_mem _ hq)
      have hcmd := congrArg LoadCommand.cmd (commandAt_of_eqOn h hp)
      by_cases hsegment : (commandAt m p).cmd = lcSegment64
      · rw [segmentsAmong_cons_of_segment cs hsegment,
          segmentsAmong_cons_of_segment cs (hcmd.trans hsegment), hrest,
          segmentAt_of_eqOn h hp hsegment]
      · rw [segmentsAmong_cons_of_other cs hsegment,
          segmentsAmong_cons_of_other cs (hcmd ▸ hsegment), hrest]

theorem rdBe32_of_eqOn (h : Set.EqOn m' m s) {p : Addr} (hp : extent p 4 ⊆ s) :
    rdBe32 m' p = rdBe32 m p := by
  have hbyte : ∀ i < 4, m' (p + BitVec.ofNat 64 i) = m (p + BitVec.ofNat 64 i) :=
    fun i hi => h (hp (inExtent_add (by decide) hi))
  have hfirst : m' p = m p := by simpa using hbyte 0 (by decide)
  rw [rdBe32, rdBe32, hfirst, show m' (p + 1) = m (p + 1) from hbyte 1 (by decide),
    show m' (p + 2) = m (p + 2) from hbyte 2 (by decide),
    show m' (p + 3) = m (p + 3) from hbyte 3 (by decide)]

theorem findSlice_of_eqOn (arch : Arch) (h : Set.EqOn m' m s) {count : Nat} {entry : Addr}
    (hp : extent entry (20 * count) ⊆ s) :
    findSlice arch m' count entry = findSlice arch m count entry := by
  induction count generalizing entry with
  | zero => rfl
  | succ count ih =>
      have htype : extent entry 4 ⊆ s := (extent_mono entry (by omega)).trans hp
      have hoffset : extent (entry + 8) 4 ⊆ s := (extent_add_subset entry 8 (by omega)).trans hp
      have hrest : extent (entry + 20) (20 * count) ⊆ s :=
        (extent_add_subset entry 20 (by omega)).trans hp
      rw [findSlice, findSlice, rdBe32_of_eqOn h htype, rdBe32_of_eqOn h hoffset, ih hrest]

end Agreement

section Image

variable {arch : Arch} {m m' : Mem 64} {image : Addr}

theorem fat_subset (arch : Arch) (m : Mem 64) (image : Addr) :
    extent image (fatLength m image) ⊆ headerBytes arch m image :=
  fun _ hx => Or.inl (Or.inl hx)

theorem slice_subset {slice : Addr} (hslice : sliceOf arch m image = some slice) :
    extent slice sizeofMachHeader64 ⊆ headerBytes arch m image :=
  fun _ hx => Or.inl (Or.inr ⟨slice, hslice, hx⟩)

theorem command_subset {p : Addr} (hp : p ∈ loadCommands arch m image) :
    extent p (commandLength m p) ⊆ headerBytes arch m image :=
  fun _ hx => Or.inr ⟨p, hp, hx⟩

/-- Headers and load commands that end within the `len` bytes of the image. -/
theorem headerBytes_subset {len : Nat} (hfat : fatLength m image ≤ len)
    (hslice : ∀ slice ∈ sliceOf arch m image, (slice - image).toNat + sizeofMachHeader64 ≤ len)
    (hcommands : ∀ p ∈ loadCommands arch m image,
      (p - image).toNat + commandLength m p ≤ len) :
    headerBytes arch m image ⊆ extent image len := by
  have hinside : ∀ (p : Addr) (n : Nat), (p - image).toNat + n ≤ len →
      extent p n ⊆ extent image len := by
    intro p n hfit
    have hsub := extent_add_subset image (p - image).toNat hfit
    rwa [add_ofNat_toNat_sub] at hsub
  rintro x ((hx | ⟨slice, hmem, hx⟩) | ⟨p, hp, hx⟩)
  · exact extent_mono image hfat hx
  · exact hinside slice _ (hslice slice hmem) hx
  · exact hinside p _ (hcommands p hp) hx

theorem sliceOf_eq_some_iff {slice : Addr} :
    sliceOf arch m image = some slice ↔ resolveSliceOffset arch m image ≠ noSlice ∧
      image + BitVec.ofNat 64 (resolveSliceOffset arch m image) = slice := by
  rw [sliceOf, ite_eq_iff]
  simp only [reduceCtorEq, and_false, false_or, Option.some.injEq]

theorem nativeSlice_eq_some_iff {slice : Addr} :
    nativeSlice arch m image = some slice ↔ sliceOf arch m image = some slice ∧
      (headerAt m slice).magic = mhMagic64 ∧
      (headerAt m slice).cputype = cpuTypeNative arch := by
  rw [nativeSlice, Option.filter_eq_some_iff, decide_eq_true_iff]

/-- A single-architecture image is its own slice. -/
theorem nativeSlice_of_thin (hthin : load m image 4 = mhMagic64)
    (hnative : (headerAt m image).cputype = cpuTypeNative arch) :
    nativeSlice arch m image = some image := by
  have hoff : resolveSliceOffset arch m image = 0 := if_pos hthin
  have hmagic : (headerAt m image).magic = mhMagic64 := by
    change load m (image + 0#64) 4 = mhMagic64
    rwa [BitVec.add_zero]
  apply nativeSlice_eq_some_iff.mpr
  refine ⟨sliceOf_eq_some_iff.mpr ⟨?_, ?_⟩, hmagic, hnative⟩
  · rw [hoff]
    decide
  · rw [hoff]
    exact BitVec.add_zero image

theorem loadCommands_of_slice {slice : Addr} (hslice : nativeSlice arch m image = some slice) :
    loadCommands arch m image = sliceCommands m slice := by
  rw [loadCommands, hslice, Option.elim_some]

theorem segments_of_slice {slice : Addr} (hslice : nativeSlice arch m image = some slice) :
    segments arch m image = segmentsAmong m (sliceCommands m slice) := by
  rw [segments, loadCommands_of_slice hslice]

theorem resolveSliceOffset_of_eqOn (h : Set.EqOn m' m (headerBytes arch m image)) :
    resolveSliceOffset arch m' image = resolveSliceOffset arch m image := by
  have hfat := fat_subset arch m image
  have hstart : extent image 4 ⊆ headerBytes arch m image := by
    apply (extent_mono image _).trans hfat
    unfold fatLength
    split_ifs <;> omega
  unfold resolveSliceOffset
  rw [load_of_eqOn h (by decide) hstart, rdBe32_of_eqOn h hstart]
  by_cases hmagic : rdBe32 m image = fatMagic
  · rw [fatLength, if_pos hmagic] at hfat
    have hcount : extent (image + 4) 4 ⊆ headerBytes arch m image :=
      (extent_add_subset image 4 (by omega)).trans hfat
    have hentries : extent (image + 8) (20 * rdBe32 m (image + 4)) ⊆ headerBytes arch m image :=
      (extent_add_subset image 8 le_rfl).trans hfat
    rw [rdBe32_of_eqOn h hcount, findSlice_of_eqOn arch h hentries]
  · rw [if_pos hmagic, if_pos hmagic]

theorem nativeSlice_of_eqOn (h : Set.EqOn m' m (headerBytes arch m image)) :
    nativeSlice arch m' image = nativeSlice arch m image := by
  have hslice : sliceOf arch m' image = sliceOf arch m image := by
    rw [sliceOf, sliceOf, resolveSliceOffset_of_eqOn h]
  ext slice
  rw [nativeSlice_eq_some_iff, nativeSlice_eq_some_iff, hslice]
  apply and_congr_right
  intro hsome
  rw [headerAt_of_eqOn h (slice_subset hsome)]

theorem loadCommands_of_eqOn (h : Set.EqOn m' m (headerBytes arch m image)) :
    loadCommands arch m' image = loadCommands arch m image := by
  cases hslice : nativeSlice arch m image with
  | none => rw [loadCommands, loadCommands, nativeSlice_of_eqOn h, hslice]; rfl
  | some slice =>
      have hcommands := loadCommands_of_slice hslice
      rw [loadCommands_of_slice (nativeSlice_of_eqOn h ▸ hslice), hcommands, sliceCommands,
        sliceCommands, headerAt_of_eqOn h (slice_subset (nativeSlice_eq_some_iff.mp hslice).1)]
      apply commands_of_eqOn h
      intro q hq
      exact command_subset (hcommands ▸ hq)

/-- **The segments of an image are read from its headers and load commands only.** -/
theorem segments_of_eqOn (h : Set.EqOn m' m (headerBytes arch m image)) :
    segments arch m' image = segments arch m image := by
  rw [segments, segments, loadCommands_of_eqOn h]
  exact segmentsAmong_of_eqOn h fun q hq => command_subset hq

end Image

end Boot
end Saski
