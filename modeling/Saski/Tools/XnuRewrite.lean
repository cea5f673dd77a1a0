import Saski.Tools.MachoToXnu

/-!
# What the load-command rewriter keeps

The rewriter and the kernel's `macho_image_size` read the same format with code of their
own.  Both are compared with what the bytes of a file declare: its commands (`commandsOf`),
its segment commands (`segmentsOf`) and its entry offset (`mainOffset`).

* `convert_segments`: the output declares the segment commands of the input, unchanged and
  in order, then one `LC_UNIXTHREAD`, and the kernel measures the same image size.
* `convert_keeps_content_iff`: the rest of the file is kept only if what lies between the
  old commands and the entry offset is what the rewriter would put there: nothing, if there
  is no gap (`convert_keeps_content_of_le`), and zeros, if the new command fits in front of it
  (`convert_keeps_content_iff_zero`).
-/

namespace Saski
namespace Tools

open ByteMemory StoreLog ByteString Boot

/-! ## Taking the program apart -/

section Inversion

theorem unpackFrom_eq_ok_iff {data : List UInt8} {off n v : Nat} :
    unpackFrom data off n = .ok v ↔ unpack data off n = some v := by
  unfold unpackFrom
  cases unpack data off n with
  | none => simp
  | some u => simp

theorem pack_eq_ok_iff {n : Nat} {vs : List Nat} {bytes : List UInt8} :
    pack n vs = .ok bytes ↔ (∀ v ∈ vs, v < 2 ^ (8 * n)) ∧ vs.flatMap (leBytes n) = bytes := by
  unfold pack
  by_cases h : ∀ v ∈ vs, v < 2 ^ (8 * n)
  · rw [if_pos h, Except.ok.injEq]
    exact (and_iff_right h).symm
  · rw [if_neg h]
    constructor
    · intro herror
      cases herror
    · exact fun hboth => absurd hboth.1 h

variable {data : List UInt8} {header : FileHeader} {cmds : List Command}

theorem readHeader_eq_ok_iff :
    readHeader data = .ok header ↔
      unpack data 0 4 = some header.magic ∧ unpack data 4 4 = some header.cputype ∧
        unpack data 8 4 = some header.cpusubtype ∧ unpack data 12 4 = some header.filetype ∧
        unpack data 16 4 = some header.ncmds ∧ unpack data 20 4 = some header.sizeofcmds ∧
        unpack data 24 4 = some header.flags ∧ unpack data 28 4 = some header.reserved := by
  unfold readHeader
  simp only [bind_eq_ok_iff, unpackFrom_eq_ok_iff, pure_eq_ok_iff]
  constructor
  · rintro ⟨_, h₀, _, h₁, _, h₂, _, h₃, _, h₄, _, h₅, _, h₆, _, h₇, rfl⟩
    exact ⟨h₀, h₁, h₂, h₃, h₄, h₅, h₆, h₇⟩
  · rintro ⟨h₀, h₁, h₂, h₃, h₄, h₅, h₆, h₇⟩
    exact ⟨_, h₀, _, h₁, _, h₂, _, h₃, _, h₄, _, h₅, _, h₆, _, h₇, rfl⟩

theorem readCommands_succ_eq_ok_iff {count off : Nat} :
    readCommands data (count + 1) off = .ok cmds ↔
      ∃ c rest, c.off = off ∧ unpack data off 4 = some c.cmd ∧
        unpack data (off + 4) 4 = some c.cmdsize ∧
        readCommands data count (off + c.cmdsize) = .ok rest ∧ c :: rest = cmds := by
  rw [readCommands]
  simp only [bind_eq_ok_iff, unpackFrom_eq_ok_iff, pure_eq_ok_iff]
  constructor
  · rintro ⟨cmd, hcmd, cmdsize, hsize, rest, hrest, rfl⟩
    exact ⟨⟨cmd, cmdsize, off⟩, rest, rfl, hcmd, hsize, hrest, rfl⟩
  · rintro ⟨c, rest, rfl, hcmd, hsize, hrest, rfl⟩
    exact ⟨c.cmd, hcmd, c.cmdsize, hsize, rest, hrest, rfl⟩

theorem readLoadCommands_eq_ok_iff :
    readLoadCommands data = .ok (header, cmds) ↔
      readHeader data = .ok header ∧ header.magic = mhMagic64 ∧
        readCommands data header.ncmds 32 = .ok cmds := by
  unfold readLoadCommands
  rw [bind_eq_ok_iff]
  constructor
  · rintro ⟨h, hheader, hrest⟩
    by_cases hmagic : h.magic = mhMagic64
    · rw [if_neg (not_not.mpr hmagic), bind_eq_ok_iff] at hrest
      obtain ⟨cs, hcs, hpair⟩ := hrest
      rw [pure_eq_ok_iff, Prod.mk.injEq] at hpair
      obtain ⟨rfl, rfl⟩ := hpair
      exact ⟨hheader, hmagic, hcs⟩
    · rw [if_pos hmagic] at hrest
      cases hrest
  · rintro ⟨hheader, hmagic, hcs⟩
    refine ⟨header, hheader, ?_⟩
    rw [if_neg (not_not.mpr hmagic), bind_eq_ok_iff]
    exact ⟨cmds, hcs, rfl⟩

end Inversion

/-! ## What a file declares -/

/-- The load commands of a file; a file that cannot be read has none. -/
def commandsOf (data : List UInt8) : List Command :=
  match readLoadCommands data with
  | .ok (_, cmds) => cmds
  | .error _ => []

/-- The bytes of its segment commands. -/
def segmentsOf (data : List UInt8) : List (List UInt8) :=
  ((commandsOf data).filter fun c => c.cmd = lcSegment64).map (rawCommand data)

/-- The entry offset among some commands: that of the last `LC_MAIN`. -/
def mainOffset (data : List UInt8) : List Command → Option Nat
  | [] => none
  | c :: cs => (mainOffset data cs).or (if c.cmd = lcMain then unpack data (c.off + 8) 8 else none)

/-- The end of the header and the load commands. -/
def commandsEnd (data : List UInt8) : Nat := 32 + ((commandsOf data).map (·.cmdsize)).sum

/-- The bytes of an `LC_UNIXTHREAD`: its size, the kind of state and the number of its
words, and the registers. -/
def threadBytes (rsp rip : Nat) : List UInt8 :=
  [lcUnixThread, 184, x86ThreadState64, 42].flatMap (leBytes 4) ++
    (threadState rsp rip).flatMap (leBytes 8)

theorem length_threadBytes (rsp rip : Nat) : (threadBytes rsp rip).length = 184 := by
  rw [threadBytes, List.length_append, length_flatMap_leBytes, length_flatMap_leBytes]
  rfl

theorem commandsOf_of_ok {data : List UInt8} {header : FileHeader} {cmds : List Command}
    (h : readLoadCommands data = .ok (header, cmds)) : commandsOf data = cmds := by
  unfold commandsOf
  rw [h]

/-- The loop over the commands collects the segment commands and the entry offset. -/
theorem foldlM_collectStep {data : List UInt8} {cmds : List Command} {start found : Found}
    (h : cmds.foldlM (collectStep data) start = .ok found) :
    found.segments = start.segments ++
        (cmds.filter fun c => c.cmd = lcSegment64).map (rawCommand data) ∧
      found.entryoff = (mainOffset data cmds).or start.entryoff := by
  induction cmds generalizing start with
  | nil =>
      rw [List.foldlM_nil, pure_eq_ok_iff] at h
      subst h
      exact ⟨(List.append_nil _).symm, rfl⟩
  | cons c cmds ih =>
      rw [List.foldlM_cons, bind_eq_ok_iff] at h
      obtain ⟨next, hstep, hrest⟩ := h
      obtain ⟨hsegments, hentry⟩ := ih hrest
      unfold collectStep at hstep
      rw [mainOffset, hsegments, hentry, Option.or_assoc]
      by_cases hsegment : c.cmd = lcSegment64
      · have hother : c.cmd ≠ lcMain := by
          rw [hsegment]
          decide
        rw [if_pos hsegment, pure_eq_ok_iff] at hstep
        subst hstep
        rw [List.filter_cons_of_pos (by simpa using hsegment), if_neg hother, Option.none_or]
        exact ⟨List.append_assoc _ _ _, rfl⟩
      · rw [if_neg hsegment] at hstep
        rw [List.filter_cons_of_neg (by simpa using hsegment)]
        by_cases hmain : c.cmd = lcMain
        · rw [if_pos hmain, bind_eq_ok_iff] at hstep
          obtain ⟨entryoff, hread, hstep⟩ := hstep
          rw [bind_eq_ok_iff] at hstep
          obtain ⟨_, -, hstep⟩ := hstep
          rw [pure_eq_ok_iff] at hstep
          subst hstep
          rw [if_pos hmain, unpackFrom_eq_ok_iff.mp hread]
          exact ⟨rfl, rfl⟩
        · rw [if_neg hmain, pure_eq_ok_iff] at hstep
          subst hstep
          rw [if_neg hmain, Option.none_or]
          exact ⟨rfl, rfl⟩

theorem buildThread_eq_ok {rsp rip : Nat} {thread : List UInt8}
    (h : buildThread rsp rip = .ok thread) : thread = threadBytes rsp rip := by
  unfold buildThread at h
  simp only [bind_eq_ok_iff, pack_eq_ok_iff, pure_eq_ok_iff] at h
  obtain ⟨state, ⟨-, hstate⟩, head, ⟨-, hhead⟩, hthread⟩ := h
  have hlength : state.length = 168 := by
    rw [← hstate, length_flatMap_leBytes]
    rfl
  rw [hlength] at hhead
  rw [← hthread, ← hhead, ← hstate]
  rfl

/-- The numbers in the header of the output. -/
def newHeader (header : FileHeader) (segments : List (List UInt8)) : List Nat :=
  [mhMagic64, header.cputype, header.cpusubtype, header.filetype, segments.length + 1,
    segments.flatten.length + 184, 0, 0]

/-- What an accepted input declares, and the output it is turned into. -/
structure Rewritten (data : List UInt8) (header : FileHeader) (entryoff text rsp : Nat)
    (out : List UInt8) : Prop where
  input : readLoadCommands data = .ok (header, commandsOf data)
  main : mainOffset data (commandsOf data) = some entryoff
  text_found : findText (segmentsOf data) = .ok (some text)
  stack : stackTop (segmentsOf data) = .ok rsp
  header_fits : ∀ v ∈ newHeader header (segmentsOf data), v < 2 ^ 32
  preamble_fits : 32 + (segmentsOf data).flatten.length + 184 ≤ entryoff
  output : out = (newHeader header (segmentsOf data)).flatMap (leBytes 4) ++
    ((segmentsOf data).flatten ++ (threadBytes rsp (text + entryoff) ++
      (List.replicate (entryoff - (32 + (segmentsOf data).flatten.length + 184)) 0 ++
        data.drop entryoff)))

theorem assemble_eq_ok {data : List UInt8} {header : FileHeader} {segments : List (List UInt8)}
    {entryoff entryRip rsp : Nat} {thread : List UInt8} {r : Conversion}
    (hthread : thread.length = 184)
    (h : assemble data header segments entryoff entryRip rsp thread = .ok r) :
    (∀ v ∈ newHeader header segments, v < 2 ^ 32) ∧
      32 + segments.flatten.length + 184 ≤ entryoff ∧
      r.out = (newHeader header segments).flatMap (leBytes 4) ++ (segments.flatten ++ (thread ++
        (List.replicate (entryoff - (32 + segments.flatten.length + 184)) 0 ++
          data.drop entryoff))) := by
  have hcmds : (segments.flatten ++ thread).length = segments.flatten.length + 184 := by
    rw [List.length_append, hthread]
  obtain ⟨bytes, hpack, hrest⟩ := bind_eq_ok_iff.mp h
  rw [hcmds] at hpack
  obtain ⟨hfits, hbytes⟩ := pack_eq_ok_iff.mp hpack
  have hlength : (bytes ++ (segments.flatten ++ thread)).length =
      32 + segments.flatten.length + 184 := by
    rw [List.length_append, hcmds, ← hbytes, length_flatMap_leBytes]
    change 32 + (segments.flatten.length + 184) = _
    omega
  dsimp only at hrest
  rw [hlength] at hrest
  by_cases hlong : entryoff < 32 + segments.flatten.length + 184
  · rw [if_pos hlong] at hrest
    cases hrest
  · rw [if_neg hlong, pure_eq_ok_iff] at hrest
    refine ⟨hfits, Nat.not_lt.mp hlong, ?_⟩
    rw [← hrest, ← hbytes]
    simp only [List.append_assoc]
    rfl

/-- **What `convert` does** with an input that it accepts. -/
theorem convert_rewritten {data : List UInt8} {r : Conversion} (h : convert data = .ok r) :
    ∃ header entryoff text rsp, Rewritten data header entryoff text rsp r.out := by
  unfold convert at h
  obtain ⟨⟨header, cmds⟩, hinput, h⟩ := bind_eq_ok_iff.mp h
  obtain ⟨⟨segments, main⟩, hfound, h⟩ := bind_eq_ok_iff.mp h
  obtain rfl := commandsOf_of_ok hinput
  obtain ⟨hsegments, hmain⟩ := foldlM_collectStep hfound
  rw [List.nil_append] at hsegments
  rw [Option.or_none] at hmain
  dsimp only at hsegments hmain h
  obtain rfl : segments = segmentsOf data := hsegments
  cases main with
  | none => cases h
  | some entryoff =>
      obtain ⟨found, htext, h⟩ := bind_eq_ok_iff.mp h
      cases found with
      | none => cases h
      | some text =>
          obtain ⟨rsp, hstack, h⟩ := bind_eq_ok_iff.mp h
          obtain ⟨thread, hthread, h⟩ := bind_eq_ok_iff.mp h
          obtain rfl := buildThread_eq_ok hthread
          obtain ⟨hheader, hfits, hout⟩ := assemble_eq_ok (length_threadBytes _ _) h
          exact ⟨header, entryoff, text, rsp, hinput, hmain.symm, htext, hstack, hheader, hfits,
            hout⟩

/-! ## Walking over commands -/

/-- The bytes of one command: they begin with its number and its size. -/
structure IsCommand (cmd : Nat) (raw : List UInt8) : Prop where
  cmd_eq : unpack raw 0 4 = some cmd
  cmdsize_eq : unpack raw 4 4 = some raw.length

theorem IsCommand.length_le {cmd : Nat} {raw : List UInt8} (h : IsCommand cmd raw) :
    8 ≤ raw.length := (unpack_eq_some_iff.mp h.cmdsize_eq).1

/-- A walk over commands that stand one behind the other finds each of them. -/
theorem readCommands_concat {data rest : List UInt8} {cs : List (Nat × List UInt8)} {off : Nat}
    (hcs : ∀ c ∈ cs, IsCommand c.1 c.2)
    (hdata : data.drop off = (cs.map Prod.snd).flatten ++ rest) :
    ∃ cmds, readCommands data cs.length off = .ok cmds ∧
      (cmds.map fun c => (c.cmd, rawCommand data c)) = cs ∧
      (cmds.map (·.cmdsize)).sum = (cs.map Prod.snd).flatten.length := by
  induction cs generalizing off with
  | nil => exact ⟨[], rfl, rfl, rfl⟩
  | cons c cs ih =>
      have hc := hcs c List.mem_cons_self
      have hlength := hc.length_le
      rw [List.map_cons, List.flatten_cons, List.append_assoc] at hdata
      have hfield : ∀ k, k + 4 ≤ c.2.length → unpack data (off + k) 4 = unpack c.2 k 4 := by
        intro k hk
        rw [← unpack_drop (by decide), hdata, unpack_append (by decide) hk]
      have hcmd : unpack data off 4 = some c.1 := (hfield 0 (by omega)).trans hc.cmd_eq
      have hsize : unpack data (off + 4) 4 = some c.2.length :=
        (hfield 4 (by omega)).trans hc.cmdsize_eq
      have hnext : data.drop (off + c.2.length) = (cs.map Prod.snd).flatten ++ rest := by
        rw [← List.drop_drop, hdata, List.drop_left]
      obtain ⟨cmds, hread, hmap, hsum⟩ := ih (fun d hd => hcs d (List.mem_cons_of_mem _ hd)) hnext
      have hraw : rawCommand data ⟨c.1, c.2.length, off⟩ = c.2 := by
        rw [rawCommand, hdata, List.take_left]
      refine ⟨⟨c.1, c.2.length, off⟩ :: cmds, ?_, ?_, ?_⟩
      · exact readCommands_succ_eq_ok_iff.mpr ⟨_, cmds, rfl, hcmd, hsize, hread, rfl⟩
      · rw [List.map_cons, hraw, hmap]
      · rw [List.map_cons, List.sum_cons, hsum, List.map_cons, List.flatten_cons,
          List.length_append]

/-- What the walk has read of a command that it found. -/
theorem unpack_of_mem_readCommands {data : List UInt8} {count off : Nat} {cmds : List Command}
    (h : readCommands data count off = .ok cmds) {c : Command} (hc : c ∈ cmds) :
    unpack data c.off 4 = some c.cmd ∧ unpack data (c.off + 4) 4 = some c.cmdsize := by
  induction count generalizing off cmds with
  | zero =>
      cases h
      exact absurd hc List.not_mem_nil
  | succ count ih =>
      obtain ⟨first, rest, rfl, hcmd, hsize, hrest, rfl⟩ := readCommands_succ_eq_ok_iff.mp h
      rcases List.mem_cons.mp hc with rfl | hc
      · exact ⟨hcmd, hsize⟩
      · exact ih hrest hc

theorem unpack_rawCommand {data : List UInt8} {c : Command} {off n : Nat} (hn : 0 < n)
    (h : off + n ≤ c.cmdsize) : unpack (rawCommand data c) off n = unpack data (c.off + off) n := by
  rw [rawCommand, unpack_take hn h, unpack_drop hn]

/-- The segment commands of the input, as far as they lie inside the file. -/
theorem isCommand_of_mem_segmentsOf {data : List UInt8} {header : FileHeader}
    (hinput : readLoadCommands data = .ok (header, commandsOf data))
    (hinside : ∀ c ∈ commandsOf data, c.off + c.cmdsize ≤ data.length)
    (hsegment : ∀ c ∈ commandsOf data, c.cmd = lcSegment64 → 72 ≤ c.cmdsize) {raw : List UInt8}
    (hraw : raw ∈ segmentsOf data) : IsCommand lcSegment64 raw ∧ 72 ≤ raw.length := by
  obtain ⟨c, hfilter, rfl⟩ := List.mem_map.mp hraw
  obtain ⟨hc, hcmd⟩ := List.mem_filter.mp hfilter
  have hcmd' : c.cmd = lcSegment64 := by simpa using hcmd
  have hlarge := hsegment c hc hcmd'
  have hend := hinside c hc
  have hlength : (rawCommand data c).length = c.cmdsize := by
    rw [rawCommand, List.length_take, List.length_drop]
    omega
  obtain ⟨hfirst, hsecond⟩ :=
    unpack_of_mem_readCommands (readLoadCommands_eq_ok_iff.mp hinput).2.2 hc
  refine ⟨⟨?_, ?_⟩, by omega⟩
  · rw [unpack_rawCommand (by decide) (by omega), Nat.add_zero, hfirst, hcmd']
  · rw [unpack_rawCommand (by decide) (by omega), hsecond, hlength]

theorem isCommand_threadBytes (rsp rip : Nat) : IsCommand lcUnixThread (threadBytes rsp rip) := by
  have hhead : ([lcUnixThread, 184, x86ThreadState64, 42].flatMap (leBytes 4)).length = 16 := by
    rw [length_flatMap_leBytes]
    rfl
  constructor
  · rw [threadBytes, unpack_append (by decide) (by omega)]
    exact unpack_words (i := 0) rfl (by decide)
  · rw [length_threadBytes, threadBytes, unpack_append (by decide) (by omega)]
    exact unpack_words (i := 1) rfl (by decide)

/-! ## The output -/

section Output

variable {data out : List UInt8} {header : FileHeader} {entryoff text rsp : Nat}

/-- The header of the output. -/
def outputHeader (header : FileHeader) (segments : List (List UInt8)) : FileHeader where
  magic := mhMagic64
  cputype := header.cputype
  cpusubtype := header.cpusubtype
  filetype := header.filetype
  ncmds := segments.length + 1
  sizeofcmds := segments.flatten.length + 184
  flags := 0
  reserved := 0

theorem length_newHeader (header : FileHeader) (segments : List (List UInt8)) :
    ((newHeader header segments).flatMap (leBytes 4)).length = 32 := by
  rw [length_flatMap_leBytes]
  rfl

theorem Rewritten.readHeader_out (h : Rewritten data header entryoff text rsp out) :
    readHeader out = .ok (outputHeader header (segmentsOf data)) := by
  have hword : ∀ (i v : Nat), (newHeader header (segmentsOf data))[i]? = some v →
      unpack out (4 * i) 4 = some v := by
    intro i v hi
    have hmem : v ∈ newHeader header (segmentsOf data) := List.mem_of_getElem? hi
    have hlt : i < 8 := (List.getElem?_eq_some_iff.mp hi).1
    rw [h.output, unpack_append (by decide) (by rw [length_newHeader]; omega)]
    exact unpack_words hi (h.header_fits v hmem)
  exact readHeader_eq_ok_iff.mpr ⟨hword 0 _ rfl, hword 1 _ rfl, hword 2 _ rfl, hword 3 _ rfl,
    hword 4 _ rfl, hword 5 _ rfl, hword 6 _ rfl, hword 7 _ rfl⟩

/-- The commands of the output: the segments of the input, then the thread. -/
theorem Rewritten.commands_out (h : Rewritten data header entryoff text rsp out)
    (hsegments : ∀ raw ∈ segmentsOf data, IsCommand lcSegment64 raw) :
    readLoadCommands out = .ok (outputHeader header (segmentsOf data), commandsOf out) ∧
      ((commandsOf out).map fun c => (c.cmd, rawCommand out c)) =
        (segmentsOf data).map (fun raw => (lcSegment64, raw)) ++
          [(lcUnixThread, threadBytes rsp (text + entryoff))] ∧
      ((commandsOf out).map (·.cmdsize)).sum = (segmentsOf data).flatten.length + 184 := by
  have hcs : ∀ c ∈ (segmentsOf data).map (fun raw => (lcSegment64, raw)) ++
      [(lcUnixThread, threadBytes rsp (text + entryoff))], IsCommand c.1 c.2 := by
    intro c hc
    rcases List.mem_append.mp hc with hc | hc
    · obtain ⟨raw, hraw, rfl⟩ := List.mem_map.mp hc
      exact hsegments raw hraw
    · obtain rfl := List.mem_singleton.mp hc
      exact isCommand_threadBytes rsp (text + entryoff)
  have hbytes : (((segmentsOf data).map (fun raw => (lcSegment64, raw)) ++
      [(lcUnixThread, threadBytes rsp (text + entryoff))]).map Prod.snd).flatten =
        (segmentsOf data).flatten ++ threadBytes rsp (text + entryoff) := by
    rw [List.map_append, List.map_map, List.flatten_append]
    simp
  have hdrop : out.drop 32 = (segmentsOf data).flatten ++ threadBytes rsp (text + entryoff) ++
      (List.replicate (entryoff - (32 + (segmentsOf data).flatten.length + 184)) 0 ++
        data.drop entryoff) := by
    rw [h.output, List.drop_left' (length_newHeader header _), List.append_assoc]
  obtain ⟨cmds, hread, hmap, hsum⟩ := readCommands_concat hcs (hdrop.trans (by rw [hbytes]))
  rw [List.length_append, List.length_map, List.length_singleton] at hread
  have hok : readLoadCommands out = .ok (outputHeader header (segmentsOf data), cmds) :=
    readLoadCommands_eq_ok_iff.mpr ⟨h.readHeader_out, rfl, hread⟩
  obtain rfl := commandsOf_of_ok hok
  refine ⟨hok, hmap, ?_⟩
  rw [hsum, hbytes, List.length_append, length_threadBytes]

theorem Rewritten.segments_out (h : Rewritten data header entryoff text rsp out)
    (hsegments : ∀ raw ∈ segmentsOf data, IsCommand lcSegment64 raw) :
    segmentsOf out = segmentsOf data := by
  obtain ⟨-, hmap, -⟩ := h.commands_out hsegments
  have hpairs : segmentsOf out = ((((commandsOf out).map fun c => (c.cmd, rawCommand out c)).filter
      fun c => c.1 = lcSegment64).map Prod.snd) := by
    rw [List.filter_map, List.map_map]
    rfl
  rw [hpairs, hmap, List.filter_append, List.filter_map]
  simp [lcUnixThread, lcSegment64, Function.comp_def]

end Output

/-! ## The kernel's view of a file -/

section Kernel

variable {data : List UInt8} {m : Mem 64} {image : Addr}

theorem member_of_holds (hm : Holds m image data) {p off n v : Nat}
    (hv : unpack data (p + off) n = some v) : member m (image + BitVec.ofNat 64 p) off n = v := by
  rw [member, BitVec.add_assoc, ← BitVec.ofNat_add]
  exact hm.load hv

theorem commandAt_of_holds (hm : Holds m image data) {c : Command}
    (hcmd : unpack data c.off 4 = some c.cmd)
    (hsize : unpack data (c.off + 4) 4 = some c.cmdsize) :
    commandAt m (image + BitVec.ofNat 64 c.off) = ⟨c.cmd, c.cmdsize⟩ := by
  have hfirst : unpack data (c.off + 0) 4 = some c.cmd := hcmd
  unfold commandAt
  rw [member_of_holds hm hfirst, member_of_holds hm hsize]

/-- The kernel visits the commands that the rewriter reads. -/
theorem commands_of_holds (hm : Holds m image data) {count off : Nat} {cmds : List Command}
    (h : readCommands data count off = .ok cmds) :
    commands m count (image + BitVec.ofNat 64 off) =
      cmds.map fun c => image + BitVec.ofNat 64 c.off := by
  induction count generalizing off cmds with
  | zero =>
      cases h
      rfl
  | succ count ih =>
      obtain ⟨c, rest, rfl, hcmd, hsize, hrest, rfl⟩ := readCommands_succ_eq_ok_iff.mp h
      have hnext : nextCommand m (image + BitVec.ofNat 64 c.off) =
          image + BitVec.ofNat 64 (c.off + c.cmdsize) := by
        rw [nextCommand, commandAt_of_holds hm hcmd hsize, BitVec.ofNat_add, BitVec.add_assoc]
      rw [commands, hnext, ih hrest, List.map_cons]

/-- The segment that the bytes of a command declare. -/
def segmentOfBytes (raw : List UInt8) : SegmentCommand64 where
  vmaddr := (unpack raw 24 8).getD 0
  vmsize := (unpack raw 32 8).getD 0
  fileoff := (unpack raw 40 8).getD 0
  filesize := (unpack raw 48 8).getD 0

theorem segmentAt_of_holds (hm : Holds m image data) {c : Command}
    (hlong : 72 ≤ (rawCommand data c).length) :
    segmentAt m (image + BitVec.ofNat 64 c.off) = segmentOfBytes (rawCommand data c) := by
  have hsize : (rawCommand data c).length ≤ c.cmdsize := List.length_take_le _ _
  have hfield : ∀ off, off + 8 ≤ 72 → member m (image + BitVec.ofNat 64 c.off) off 8 =
      (unpack (rawCommand data c) off 8).getD 0 := by
    intro off hoff
    obtain ⟨v, hv⟩ : ∃ v, unpack (rawCommand data c) off 8 = some v := exists_unpack (by omega)
    rw [hv]
    rw [unpack_rawCommand (by decide) (by omega)] at hv
    exact member_of_holds hm hv
  unfold segmentAt segmentOfBytes
  rw [hfield 24 (by decide), hfield 32 (by decide), hfield 40 (by decide), hfield 48 (by decide)]

theorem segmentsAmong_of_holds (hm : Holds m image data) {cmds : List Command}
    (hread : ∀ c ∈ cmds, unpack data c.off 4 = some c.cmd ∧
      unpack data (c.off + 4) 4 = some c.cmdsize)
    (hlong : ∀ c ∈ cmds, c.cmd = lcSegment64 → 72 ≤ (rawCommand data c).length) :
    segmentsAmong m (cmds.map fun c => image + BitVec.ofNat 64 c.off) =
      ((cmds.filter fun c => c.cmd = lcSegment64).map (rawCommand data)).map segmentOfBytes := by
  induction cmds with
  | nil => rfl
  | cons c cmds ih =>
      have hrest := ih (fun d hd => hread d (List.mem_cons_of_mem _ hd))
        fun d hd => hlong d (List.mem_cons_of_mem _ hd)
      obtain ⟨hcmd, hsize⟩ := hread c List.mem_cons_self
      have hat : (commandAt m (image + BitVec.ofNat 64 c.off)).cmd = c.cmd := by
        rw [commandAt_of_holds hm hcmd hsize]
      rw [List.map_cons]
      by_cases hsegment : c.cmd = lcSegment64
      · rw [segmentsAmong_cons_of_segment _ (hat.trans hsegment), hrest,
          List.filter_cons_of_pos (by simpa using hsegment), List.map_cons, List.map_cons,
          segmentAt_of_holds hm (hlong c List.mem_cons_self hsegment)]
      · rw [segmentsAmong_cons_of_other _ (hat ▸ hsegment), hrest,
          List.filter_cons_of_neg (by simpa using hsegment)]

/-- What `macho_image_size` computes from the segments. -/
def spanSize (segs : List SegmentCommand64) : Nat :=
  let s := segs.foldl Span.cover ⟨2 ^ 64 - 1, 0, false⟩
  if s.foundAny then (s.highest + 2 ^ 64 - s.lowest) % 2 ^ 64 else 0

/-- The kernel measures a file by its cputype and its segment commands. -/
theorem machoImageSize_of_holds (arch : Arch) (hm : Holds m image data) {header : FileHeader}
    (hinput : readLoadCommands data = .ok (header, commandsOf data))
    (hlong : ∀ raw ∈ segmentsOf data, 72 ≤ raw.length) :
    machoImageSize arch m image =
      if header.cputype = cpuTypeNative arch then spanSize ((segmentsOf data).map segmentOfBytes)
      else 0 := by
  obtain ⟨hheader, hmagic, hcmds⟩ := readLoadCommands_eq_ok_iff.mp hinput
  obtain ⟨hword, hcputype, -, -, hncmds, -⟩ := readHeader_eq_ok_iff.mp hheader
  have himage : image + BitVec.ofNat 64 0 = image := BitVec.add_zero image
  have hfield : ∀ {off v : Nat}, unpack data off 4 = some v → member m image off 4 = v :=
    fun hv => hm.load hv
  have hthin : load m image 4 = mhMagic64 := by
    have hload := hm.load hword
    rw [himage, hmagic] at hload
    exact hload
  by_cases hnative : header.cputype = cpuTypeNative arch
  · have hslice := nativeSlice_of_thin hthin ((hfield hcputype).trans hnative)
    have hncmds' : (headerAt m image).ncmds = header.ncmds := hfield hncmds
    have hsegments : segments arch m image = (segmentsOf data).map segmentOfBytes := by
      rw [segments_of_slice hslice, sliceCommands, hncmds']
      change segmentsAmong m (commands m header.ncmds (image + BitVec.ofNat 64 32)) = _
      rw [commands_of_holds hm hcmds]
      apply segmentsAmong_of_holds hm fun c hc => unpack_of_mem_readCommands hcmds hc
      intro c hc hcmd
      apply hlong
      exact List.mem_map.mpr ⟨c, List.mem_filter.mpr ⟨hc, by simpa using hcmd⟩, rfl⟩
    rw [machoImageSize_of_slice hslice, hsegments, if_pos hnative]
    rfl
  · have hoff : resolveSliceOffset arch m image = 0 := if_pos hthin
    have hother : (headerAt m image).cputype ≠ cpuTypeNative arch := by
      rw [show (headerAt m image).cputype = header.cputype from hfield hcputype]
      exact hnative
    unfold machoImageSize
    simp only [hoff, himage]
    rw [if_neg (by decide), if_pos (Or.inr hother), if_neg hnative]

end Kernel

/-- **The segment table is preserved.**  Take an input that `convert` accepts, with its load
commands inside the file and segment commands of at least 72 bytes.  The output is read
without error; its commands are the segment commands of the input, byte for byte and in
order, and one `LC_UNIXTHREAD`; its header counts them, gives their total size and has
the cputype of the input.  Wherever the two files are placed in memory, the kernel measures
the same image size. -/
theorem convert_segments (data : List UInt8) (r : Conversion) (haccept : convert data = .ok r)
    (hinside : ∀ c ∈ commandsOf data, c.off + c.cmdsize ≤ data.length)
    (hsegment : ∀ c ∈ commandsOf data, c.cmd = lcSegment64 → 72 ≤ c.cmdsize) :
    (∃ header header' thread, readHeader data = .ok header ∧
        readLoadCommands r.out = .ok (header', commandsOf r.out) ∧
        ((commandsOf r.out).map fun c => (c.cmd, rawCommand r.out c)) =
          (segmentsOf data).map (fun raw => (lcSegment64, raw)) ++ [(lcUnixThread, thread)] ∧
        header'.ncmds = (commandsOf r.out).length ∧
        header'.sizeofcmds = ((commandsOf r.out).map (·.cmdsize)).sum ∧
        header'.cputype = header.cputype) ∧
      ∀ (arch : Arch) (m m' : Mem 64) (image image' : Addr), Holds m image data →
        Holds m' image' r.out → machoImageSize arch m' image' = machoImageSize arch m image := by
  obtain ⟨header, entryoff, text, rsp, h⟩ := convert_rewritten haccept
  have hcommands : ∀ raw ∈ segmentsOf data, IsCommand lcSegment64 raw ∧ 72 ≤ raw.length :=
    fun raw hraw => isCommand_of_mem_segmentsOf h.input hinside hsegment hraw
  obtain ⟨hout, hmap, hsum⟩ := h.commands_out fun raw hraw => (hcommands raw hraw).1
  have hsegments := h.segments_out fun raw hraw => (hcommands raw hraw).1
  constructor
  · refine ⟨header, outputHeader header (segmentsOf data), _,
      (readLoadCommands_eq_ok_iff.mp h.input).1, hout, hmap, ?_, hsum.symm, rfl⟩
    have hlength := congrArg List.length hmap
    rw [List.length_map, List.length_append, List.length_map, List.length_singleton] at hlength
    exact hlength.symm
  · intro arch m m' image image' hm hm'
    have hlong : ∀ raw ∈ segmentsOf data, 72 ≤ raw.length := fun raw hraw => (hcommands raw hraw).2
    rw [machoImageSize_of_holds arch hm h.input hlong,
      machoImageSize_of_holds arch hm' hout (hsegments ▸ hlong), hsegments]
    rfl

/-- A file with a `__TEXT` segment of one page, a command that is dropped, an `LC_MAIN` that
points to a `hlt` at offset 304, and eight bytes of content before it. -/
def sampleFile (before : List UInt8) : List UInt8 :=
  [mhMagic64, cpuTypeNative .x86_64, 3, 2, 3, 264, 0, 0].flatMap (leBytes 4) ++
    ([lcSegment64, 72].flatMap (leBytes 4) ++ (textName ++ List.replicate 10 0) ++
      [0x200000, 0x1000, 0, 0x1000].flatMap (leBytes 8) ++ [5, 5, 0, 0].flatMap (leBytes 4)) ++
    ([0xe, 168].flatMap (leBytes 4) ++ List.replicate 160 0) ++
    ([lcMain, 24].flatMap (leBytes 4) ++ [304, 0].flatMap (leBytes 8)) ++ (before ++ [0xf4])

theorem exists_ok_of_isOk {α : Type} {x : Except ConvertError α} (h : x.isOk = true) :
    ∃ a, x = .ok a := by
  cases x with
  | error e => cases h
  | ok a => exact ⟨a, rfl⟩

theorem sampleFile_segments :
    ∃ r, convert (sampleFile (List.replicate 8 0x90)) = .ok r ∧
      (commandsOf r.out).map (·.cmd) = [lcSegment64, lcUnixThread] ∧
      ∀ (arch : Arch) (m m' : Mem 64) (image image' : Addr),
        Holds m image (sampleFile (List.replicate 8 0x90)) → Holds m' image' r.out →
        machoImageSize arch m' image' = machoImageSize arch m image := by
  obtain ⟨r, h⟩ : ∃ r, convert (sampleFile (List.replicate 8 0x90)) = .ok r :=
    exists_ok_of_isOk (by decide +kernel)
  obtain ⟨⟨_, _, thread, -, -, hmap, -⟩, hsize⟩ :=
    convert_segments _ r h (by decide +kernel) (by decide +kernel)
  have hcmds := congrArg (List.map Prod.fst) hmap
  rw [List.map_map, List.map_append, List.map_map, List.map_singleton] at hcmds
  have hone : (segmentsOf (sampleFile (List.replicate 8 0x90))).length = 1 := by decide +kernel
  obtain ⟨raw, hraw⟩ := List.length_eq_one_iff.mp hone
  rw [hraw] at hcmds
  exact ⟨r, h, hcmds, hsize⟩

/-! ## The content behind the commands -/

theorem length_flatten_segments_le (data : List UInt8) (cmds : List Command) :
    ((cmds.filter fun c => c.cmd = lcSegment64).map (rawCommand data)).flatten.length ≤
      (cmds.map (·.cmdsize)).sum := by
  induction cmds with
  | nil => exact Nat.le_refl _
  | cons c cmds ih =>
      have hraw : (rawCommand data c).length ≤ c.cmdsize := List.length_take_le _ _
      rw [List.map_cons, List.sum_cons]
      by_cases hsegment : c.cmd = lcSegment64
      · rw [List.filter_cons_of_pos (by simpa using hsegment), List.map_cons, List.flatten_cons,
          List.length_append]
        exact Nat.add_le_add hraw ih
      · rw [List.filter_cons_of_neg (by simpa using hsegment)]
        exact ih.trans (Nat.le_add_left _ _)

/-- Behind the segment commands, the output has the thread command and zeros up to the
entry offset, and the input from there on. -/
theorem Rewritten.getElem?_out {data out : List UInt8} {header : FileHeader}
    {entryoff text rsp i : Nat} (h : Rewritten data header entryoff text rsp out)
    (hi : 32 + (segmentsOf data).flatten.length ≤ i) :
    out[i]? = if i < entryoff then
        some ((threadBytes rsp (text + entryoff)).getD
          (i - (32 + (segmentsOf data).flatten.length)) 0)
      else data[i]? := by
  have hfits := h.preamble_fits
  have hthread := length_threadBytes rsp (text + entryoff)
  rw [h.output, List.getElem?_append_right (by rw [length_newHeader]; omega),
    length_newHeader, List.getElem?_append_right (by omega), Nat.sub_sub,
    List.getD_eq_getElem?_getD]
  by_cases hin : i - (32 + (segmentsOf data).flatten.length) < 184
  · rw [List.getElem?_append_left (by omega), if_pos (by omega),
      List.getElem?_eq_getElem (by omega), Option.getD_some]
  · rw [List.getElem?_append_right (by omega), hthread]
    by_cases hentry : i < entryoff
    · rw [if_pos hentry, List.getElem?_append_left (by rw [List.length_replicate]; omega),
        List.getElem?_replicate_of_lt (by omega),
        List.getElem?_eq_none (by omega), Option.getD_none]
    · have hindex : entryoff + (i - (32 + (segmentsOf data).flatten.length) - 184 -
          (entryoff - (32 + (segmentsOf data).flatten.length + 184))) = i := by omega
      rw [if_neg hentry, List.getElem?_append_right (by rw [List.length_replicate]; omega),
        List.length_replicate, List.getElem?_drop, hindex]

theorem commandsEnd_ge (data : List UInt8) :
    32 + (segmentsOf data).flatten.length ≤ commandsEnd data :=
  Nat.add_le_add_left (length_flatten_segments_le data (commandsOf data)) 32

theorem Rewritten.keeps_iff {data out : List UInt8} {header : FileHeader}
    {entryoff text rsp : Nat} (h : Rewritten data header entryoff text rsp out) :
    (∀ i, commandsEnd data ≤ i → i < out.length → out[i]? = data[i]?) ↔
      ∀ i, commandsEnd data ≤ i → i < entryoff →
        data[i]? = some ((threadBytes rsp (text + entryoff)).getD
          (i - (32 + (segmentsOf data).flatten.length)) 0) := by
  have hend := commandsEnd_ge data
  constructor
  · intro hkept i hlow hhigh
    have hout := h.getElem?_out (hend.trans hlow)
    rw [if_pos hhigh] at hout
    rw [← hkept i hlow (List.getElem?_eq_some_iff.mp hout).1]
    exact hout
  · intro hsame i hlow _
    rw [h.getElem?_out (hend.trans hlow)]
    by_cases hhigh : i < entryoff
    · rw [if_pos hhigh, hsame i hlow hhigh]
    · rw [if_neg hhigh]

/-- **When the rest of the file is kept.**  From the end of the input's commands on, the
output of an accepted input has the input's bytes if and only if the input has, at each
offset from there up to the entry offset, the byte of the new `LC_UNIXTHREAD` that falls
there, or a zero if it does not reach that far. -/
theorem convert_keeps_content_iff (data : List UInt8) (r : Conversion)
    (haccept : convert data = .ok r) :
    ∃ entryoff text rsp, mainOffset data (commandsOf data) = some entryoff ∧
      findText (segmentsOf data) = .ok (some text) ∧ stackTop (segmentsOf data) = .ok rsp ∧
      ((∀ i, commandsEnd data ≤ i → i < r.out.length → r.out[i]? = data[i]?) ↔
        ∀ i, commandsEnd data ≤ i → i < entryoff →
          data[i]? = some ((threadBytes rsp (text + entryoff)).getD
            (i - (32 + (segmentsOf data).flatten.length)) 0)) := by
  obtain ⟨header, entryoff, text, rsp, h⟩ := convert_rewritten haccept
  exact ⟨entryoff, text, rsp, h.main, h.text_found, h.stack, h.keeps_iff⟩

section Gap

variable {data : List UInt8} {r : Conversion} {entryoff : Nat} (haccept : convert data = .ok r)
  (hmain : mainOffset data (commandsOf data) = some entryoff)

include haccept hmain

/-- Without a gap between the commands and the entry point nothing is lost. -/
theorem convert_keeps_content_of_le (hgap : entryoff ≤ commandsEnd data) :
    ∀ i, commandsEnd data ≤ i → i < r.out.length → r.out[i]? = data[i]? := by
  obtain ⟨header, entryoff', text, rsp, h⟩ := convert_rewritten haccept
  obtain rfl : entryoff' = entryoff := Option.some.inj (h.main.symm.trans hmain)
  exact h.keeps_iff.mpr fun i hlow hhigh => absurd (hgap.trans hlow) (Nat.not_le.mpr hhigh)

/-- With room for the new command in the place of the dropped ones, the gap has to be zero. -/
theorem convert_keeps_content_iff_zero
    (hroom : 32 + (segmentsOf data).flatten.length + 184 ≤ commandsEnd data) :
    (∀ i, commandsEnd data ≤ i → i < r.out.length → r.out[i]? = data[i]?) ↔
      ∀ i, commandsEnd data ≤ i → i < entryoff → data[i]? = some 0 := by
  obtain ⟨header, entryoff', text, rsp, h⟩ := convert_rewritten haccept
  obtain rfl : entryoff' = entryoff := Option.some.inj (h.main.symm.trans hmain)
  have hzero : ∀ i, commandsEnd data ≤ i → (threadBytes rsp (text + entryoff')).getD
      (i - (32 + (segmentsOf data).flatten.length)) 0 = 0 := by
    intro i hlow
    refine List.getD_eq_default _ _ ?_
    rw [length_threadBytes]
    omega
  rw [h.keeps_iff]
  refine forall₃_congr fun i hlow _ => ?_
  rw [hzero i hlow]

end Gap

/-- The eight `nop`s before the entry point are replaced with zeros, although they lie behind
the commands of the input. -/
theorem sampleFile_content_lost :
    ∃ data r, convert data = .ok r ∧
      ¬ ∀ i, commandsEnd data ≤ i → i < r.out.length → r.out[i]? = data[i]? := by
  have hend : commandsEnd (sampleFile (List.replicate 8 0x90)) = 296 := by decide +kernel
  have hin : (sampleFile (List.replicate 8 0x90))[300]? = some 0x90 := by decide +kernel
  have hvalue : (convert (sampleFile (List.replicate 8 0x90))).toOption.bind (·.out[300]?) =
      some 0 := by decide +kernel
  obtain ⟨r, h⟩ : ∃ r, convert (sampleFile (List.replicate 8 0x90)) = .ok r :=
    exists_ok_of_isOk (by decide +kernel)
  have hout : r.out[300]? = some 0 := by
    rw [h] at hvalue
    exact hvalue
  refine ⟨_, r, h, fun hkept => ?_⟩
  have hsame := hkept 300 (hend ▸ by decide) (List.getElem?_eq_some_iff.mp hout).1
  rw [hout, hin] at hsame
  cases hsame

/-- With zeros there instead, the content is kept. -/
theorem sampleFile_content_kept :
    ∃ r, convert (sampleFile (List.replicate 8 0)) = .ok r ∧
      ∀ i, 296 ≤ i → i < r.out.length → r.out[i]? = (sampleFile (List.replicate 8 0))[i]? := by
  have hend : commandsEnd (sampleFile (List.replicate 8 0)) = 296 := by decide +kernel
  have hentry : mainOffset (sampleFile (List.replicate 8 0))
      (commandsOf (sampleFile (List.replicate 8 0))) = some 304 := by decide +kernel
  have hsegments : (segmentsOf (sampleFile (List.replicate 8 0))).flatten.length = 72 := by
    decide +kernel
  have hzero : ∀ i < 304, 296 ≤ i → (sampleFile (List.replicate 8 0))[i]? = some 0 := by
    decide +kernel
  obtain ⟨r, h⟩ : ∃ r, convert (sampleFile (List.replicate 8 0)) = .ok r :=
    exists_ok_of_isOk (by decide +kernel)
  obtain ⟨entryoff, text, rsp, hmain, -, -, hiff⟩ := convert_keeps_content_iff _ r h
  obtain rfl : 304 = entryoff := Option.some.inj (hentry.symm.trans hmain)
  refine ⟨r, h, fun i hlow => hiff.mpr ?_ i (hend ▸ hlow)⟩
  intro j hj hhigh
  -- The thread command ends at 288, before the eight bytes.
  have hbeyond : (threadBytes rsp (text + 304)).length ≤ j - (32 + 72) := by
    rw [length_threadBytes]
    omega
  rw [hzero j hhigh (hend ▸ hj), hsegments, List.getD_eq_default _ _ hbeyond]

end Tools
end Saski
