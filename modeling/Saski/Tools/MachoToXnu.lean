import Saski.Boot.MachoImage
import Saski.Lib.ByteString

/-!
# The load-command rewriter (`tools/macho_to_xnu.py`)

The build converts the x86_64 kernel for a boot loader that knows two load commands:
`convert` keeps the `LC_SEGMENT_64` commands, puts an `LC_UNIXTHREAD` with the entry point
behind them, and fills up with zeros to the entry offset, from where on the file is copied.

* A file is its bytes.  `struct.unpack_from` fails past the end of the file, a slice is cut
  off there, and `struct.pack` fails for a number that is too large for its field; numbers
  themselves have no bound.  Every way to end without an output is a `ConvertError`.
* The signed field `cputype` is only read and packed again, so its bytes are what counts.
* Opening, reading and writing the files, and the memory that Python may run out of, are
  not modelled.  `extra_stack_bytes` is not used in the source either.
-/

namespace Saski
namespace Tools

open ByteMemory StoreLog ByteString Boot

/-- How a conversion ends without an output: `SystemExit` with its message, or the
exceptions of `struct` and of `segments[-1]`. -/
inductive ConvertError where
  | systemExit (message : String)
  | structError
  | indexError
  deriving DecidableEq, Repr

def lcUnixThread : Nat := 0x5

def x86ThreadState64 : Nat := 4

/-- `0x{n:x}` of a format string. -/
def hex (n : Nat) : String := "0x" ++ String.ofList (Nat.toDigits 16 n)

/-- `struct.unpack_from` of one number. -/
def unpackFrom (data : List UInt8) (off n : Nat) : Except ConvertError Nat :=
  (unpack data off n).elim (.error .structError) .ok

/-- `struct.pack` of numbers of `n` bytes. -/
def pack (n : Nat) (vs : List Nat) : Except ConvertError (List UInt8) :=
  if ∀ v ∈ vs, v < 2 ^ (8 * n) then .ok (vs.flatMap (leBytes n)) else .error .structError

/-- The eight fields of the header. -/
structure FileHeader where
  magic : Nat
  cputype : Nat
  cpusubtype : Nat
  filetype : Nat
  ncmds : Nat
  sizeofcmds : Nat
  flags : Nat
  reserved : Nat
  deriving DecidableEq, Repr

/-- `struct.unpack_from('<IiIIIIII', data, 0)`. -/
def readHeader (data : List UInt8) : Except ConvertError FileHeader := do
  let magic ← unpackFrom data 0 4
  let cputype ← unpackFrom data 4 4
  let cpusubtype ← unpackFrom data 8 4
  let filetype ← unpackFrom data 12 4
  let ncmds ← unpackFrom data 16 4
  let sizeofcmds ← unpackFrom data 20 4
  let flags ← unpackFrom data 24 4
  let reserved ← unpackFrom data 28 4
  pure { magic, cputype, cpusubtype, filetype, ncmds, sizeofcmds, flags, reserved }

/-- An entry `(cmd, cmdsize, off)` of `cmds`. -/
structure Command where
  cmd : Nat
  cmdsize : Nat
  off : Nat
  deriving DecidableEq, Repr

/-- The loop of `read_load_commands`, over the remaining commands. -/
def readCommands (data : List UInt8) : (count off : Nat) → Except ConvertError (List Command)
  | 0, _ => pure []
  | count + 1, off => do
      let cmd ← unpackFrom data off 4
      let cmdsize ← unpackFrom data (off + 4) 4
      let rest ← readCommands data count (off + cmdsize)
      pure ({ cmd, cmdsize, off } :: rest)

/-- `read_load_commands`. -/
def readLoadCommands (data : List UInt8) : Except ConvertError (FileHeader × List Command) := do
  let header ← readHeader data
  if header.magic ≠ mhMagic64 then
    throw (.systemExit ("not a 64-bit Mach-O (magic=" ++ hex header.magic ++ ")"))
  else do
    let cmds ← readCommands data header.ncmds 32
    pure (header, cmds)

/-- `data[off:off + cmdsize]`. -/
def rawCommand (data : List UInt8) (c : Command) : List UInt8 := (data.drop c.off).take c.cmdsize

/-- What the loop over the commands collects. -/
structure Found where
  segments : List (List UInt8)
  entryoff : Option Nat

/-- The body of that loop. -/
def collectStep (data : List UInt8) (found : Found) (c : Command) : Except ConvertError Found :=
  if c.cmd = lcSegment64 then
    pure { found with segments := found.segments ++ [rawCommand data c] }
  else if c.cmd = lcMain then do
    let entryoff ← unpackFrom data (c.off + 8) 8
    let _stacksize ← unpackFrom data (c.off + 16) 8
    pure { found with entryoff := some entryoff }
  else pure found

/-- `b'__TEXT'`. -/
def textName : List UInt8 := [0x5f, 0x5f, 0x54, 0x45, 0x58, 0x54]

/-- The search for the address of `__TEXT`, by name. -/
def findText : List (List UInt8) → Except ConvertError (Option Nat)
  | [] => pure none
  | seg :: rest =>
      if ((seg.drop 8).take 16).rdropWhile (· = 0) = textName then do
        let vmaddr ← unpackFrom seg 24 8
        pure (some vmaddr)
      else findText rest

/-- The end of the last segment, rounded down to a multiple of 16. -/
def stackTop (segments : List (List UInt8)) : Except ConvertError Nat :=
  match segments.getLast? with
  | none => throw .indexError
  | some lastSeg => do
      let vmaddr ← unpackFrom lastSeg 24 8
      let vmsize ← unpackFrom lastSeg 32 8
      pure ((vmaddr + vmsize) / 16 * 16)

/-- The registers of `x86_THREAD_STATE64`, from `rax` to `gs`. -/
def threadState (rsp rip : Nat) : List Nat :=
  [0, 0, 0, 0, 0, 0, 0, rsp] ++ [0, 0, 0, 0, 0, 0, 0, 0] ++ [rip, 0x2, 0, 0, 0]

/-- The new `LC_UNIXTHREAD`. -/
def buildThread (rsp rip : Nat) : Except ConvertError (List UInt8) := do
  let state ← pack 8 (threadState rsp rip)
  let head ← pack 4 [lcUnixThread, 8 + 8 + state.length, x86ThreadState64, state.length / 4]
  pure (head ++ state)

/-- The output file and the line that is printed. -/
structure Conversion where
  out : List UInt8
  printed : String

/-- The end of `convert`, from the new commands on. -/
def assemble (data : List UInt8) (header : FileHeader) (segments : List (List UInt8))
    (entryoff entryRip rsp : Nat) (thread : List UInt8) : Except ConvertError Conversion := do
  let newCmds := segments.flatten ++ thread
  let newHeader ← pack 4 [mhMagic64, header.cputype, header.cpusubtype, header.filetype,
    segments.length + 1, newCmds.length, 0, 0]
  let preamble := newHeader ++ newCmds
  if entryoff < preamble.length then
    throw (.systemExit ("new preamble (" ++ toString preamble.length ++
      " bytes) doesn't fit before entryoff (" ++ toString entryoff ++
      ") -- would need to shift segment file offsets, not implemented"))
  else
    pure
      { out := preamble ++ (List.replicate (entryoff - preamble.length) 0 ++ data.drop entryoff)
        printed := "entry_rip=" ++ hex entryRip ++ " stack_top=" ++ hex rsp ++ " segments=" ++
          toString segments.length ++ " preamble=" ++ toString preamble.length ++ "/" ++
          toString entryoff ++ " bytes" }

/-- `convert`, from the input file to the output file. -/
def convert (data : List UInt8) : Except ConvertError Conversion := do
  let (header, cmds) ← readLoadCommands data
  let found ← cmds.foldlM (collectStep data) ⟨[], none⟩
  match found.entryoff with
  | none => throw (.systemExit ("no LC_MAIN found -- was this really built with " ++
      "ld64.lld's normal entry convention?"))
  | some entryoff => do
      match ← findText found.segments with
      | none => throw (.systemExit "no __TEXT segment found")
      | some textVmaddr => do
          let entryRip := textVmaddr + entryoff
          let rsp ← stackTop found.segments
          let thread ← buildThread rsp entryRip
          assemble data header found.segments entryoff entryRip rsp thread

end Tools
end Saski
