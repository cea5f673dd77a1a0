import Saski.Lib.A64
import Saski.Lib.PeImage

/-!
# The EFI stub for the aarch64 kernel (`tools/mkstub.py`)

The script puts the kernel's flat image behind 60 machine words and two literals, and wraps
the whole as an EFI application.  The words are written down by small encoders, some of
them with assertions; a part of the list is filled with `NOP` first and patched later.

* Numbers of the script have no bound.  `struct.pack` fails for a number that is too large
  for its field, an assertion for an operand that is out of range: `StubError`.
* Opening, reading and writing the files, the environment variable `KERNEL_DST` and the line
  that is printed are not modelled; the destination is a parameter.
-/

namespace Saski
namespace Tools

open ByteMemory StoreLog ByteString

/-- How the script ends without an output. -/
inductive StubError where
  | assertionError
  | structError
  deriving DecidableEq, Repr

namespace Mkstub

/-- `assert p`. -/
def assertThat (p : Prop) [Decidable p] : Except StubError Unit :=
  if p then .ok () else .error .assertionError

/-- `struct.pack` of fields `(size, value)`. -/
def structPack (fs : List (Nat × Nat)) : Except StubError (List UInt8) :=
  if ∀ f ∈ fs, f.2 < 2 ^ (8 * f.1) then .ok (packFields fs) else .error .structError

/-! ## Encoders -/

def adr (rd : Nat) (imm : Int) : Except StubError Nat := do
  assertThat (-1048576 ≤ imm ∧ imm < 1048576 ∧ imm % 1 = 0)
  let immlo := (imm % 4).toNat
  let immhi := (imm / 4 % 0x80000).toNat
  pure (immlo <<< 29 ||| 0b10000 <<< 24 ||| immhi <<< 5 ||| rd)

def ldrLit (rt : Nat) (off : Int) : Except StubError Nat := do
  assertThat (0 ≤ off ∧ off < 32760 ∧ off % 4 = 0)
  pure (0x58000000 ||| (off / 4).toNat <<< 5 ||| rt)

def cbz (rt : Nat) (off : Int) : Except StubError Nat := do
  assertThat (off % 4 = 0 ∧ -(2 ^ 20) < off ∧ off < 2 ^ 20)
  pure (0xB4000000 ||| (off / 4 % 0x80000).toNat <<< 5 ||| rt)

def b (off : Int) : Except StubError Nat := do
  assertThat (off % 4 = 0 ∧ -(2 ^ 27) < off ∧ off < 2 ^ 27)
  pure (0x14000000 ||| (off / 4 % 0x4000000).toNat)

/-- Unlike the other branches, `b_cond` does not check the range of the offset. -/
def bCond (off : Int) (cond : Nat) : Except StubError Nat := do
  assertThat (off % 4 = 0)
  pure (0x54000000 ||| (off / 4 % 0x80000).toNat <<< 5 ||| cond)

def movzX (rd imm16 : Nat) : Nat := 0xD2800000 ||| imm16 <<< 5 ||| rd

def orrMov (rd rm : Nat) : Nat := 0xAA0003E0 ||| rm <<< 16 ||| rd

def subImm (rd rn imm12 : Nat) : Nat := 0xD1000000 ||| imm12 <<< 10 ||| rn <<< 5 ||| rd

def ldrbPost (rt rn : Nat) : Nat := 0x38401400 ||| rn <<< 5 ||| rt

def strbPost (rt rn : Nat) : Nat := 0x38001400 ||| rn <<< 5 ||| rt

def br (rn : Nat) : Nat := 0xD61F0000 ||| rn <<< 5

def bic (rd rn rm : Nat) : Nat := 0x8A200000 ||| rm <<< 16 ||| rn <<< 5 ||| rd

def dsbSy : Nat := 0xD5033F9F

def icIallu : Nat := 0xD508751F

def isb : Nat := 0xD5033FDF

def nop : Nat := 0xD503201F

def litOff : Int := 60 * 4

/-- The list `insns`, with its patches in the order of the script. -/
def insns : Except StubError (List Nat) := do
  let insns := List.replicate 60 nop
  let insns := insns.set 3 (orrMov 12 1)
  let insns := insns.set 4 (movzX 0 0)
  let insns := insns.set 5 0xF2A80000
  let insns := insns.set 6 nop
  let insns := insns.set 7 nop
  let insns := insns.set 8 nop
  let insns := insns.set 9 (orrMov 14 11)
  let insns := insns.set 10 nop
  let insns := insns.set 11 (ldrbPost 13 9)
  let insns := insns.set 12 (strbPost 13 11)
  let insns := insns.set 13 (subImm 10 10 1)
  let insns := insns.set 14 (← b (-4 * 4))
  let insns := insns.set 15 (movzX 10 0x1005)
  let insns := insns.set 16 0xD5384249
  let insns := insns.set 17 0xD342FD29
  let insns := insns.set 18 0x92400529
  let insns := insns.set 19 0xF100093F
  let insns := insns.set 20 nop
  let insns := insns.set 21 0xD53C1009
  let insns := insns.set 22 (bic 9 9 10)
  let insns := insns.set 23 0xD51C1009
  let insns := insns.set 24 nop
  let insns := insns.set 25 0xD5381009
  let insns := insns.set 26 (bic 9 9 10)
  let insns := insns.set 27 0xD5181009
  let insns := insns.set 28 dsbSy
  let insns := insns.set 29 isb
  let insns := insns.set 30 icIallu
  let insns := insns.set 31 dsbSy
  let insns := insns.set 32 isb
  let insns := insns.set 33 (br 14)
  let insns := insns.set 6 (← adr 9 (litOff + 16 - 6 * 4))
  let insns := insns.set 7 (← ldrLit 10 (litOff - 7 * 4))
  let insns := insns.set 8 (← ldrLit 11 (litOff + 8 - 8 * 4))
  let insns := insns.set 10 (← cbz 10 ((15 - 10) * 4))
  let insns := insns.set 20 (← bCond ((25 - 20) * 4) 0x1)
  let insns := insns.set 24 (← b ((28 - 24) * 4))
  pure insns

/-! ## The file -/

/-- `HDR`. -/
def hdr : Nat := 0x1000

def fileAlign : Nat := 0x200

def sectionAlign : Nat := 0x1000

/-- `text_raw`: the image, filled up to a multiple of the file alignment. -/
def textRaw (image : List UInt8) : List UInt8 :=
  if image.length % fileAlign ≠ 0 then
    image ++ List.replicate (fileAlign - image.length % fileAlign) 0
  else image

/-- `imgsz`. -/
def imageSize (rawLength : Nat) : Nat :=
  (hdr + rawLength + sectionAlign - 1) / sectionAlign * sectionAlign

/-- `b'MZ' + b'\x00' * 58 + struct.pack('<I', 0x40) + b'PE\x00\x00'`. -/
def dos : List (Nat × Nat) := [(2, 0x5A4D), (58, 0), (4, 0x40), (4, 0x4550)]

def coff : List (Nat × Nat) :=
  [(2, 0xAA64), (2, 1), (4, 0), (4, 0), (4, 0), (2, 240), (2, 0x0022)]

/-- `opt`, with the 128 zeros behind it. -/
def opt (imageLength imgsz : Nat) : List (Nat × Nat) :=
  [(2, 0x20B), (1, 1), (1, 0), (4, imageLength), (4, 0), (4, 0), (4, 0x1000), (4, 0x1000), (8, 0),
    (4, sectionAlign), (4, fileAlign), (2, 0), (2, 0), (2, 0), (2, 0), (2, 0), (2, 0),
    (4, 0), (4, imgsz), (4, hdr), (4, 0), (2, 10), (2, 0x1600),
    (8, 0x100000), (8, 0x1000), (8, 0x100000), (8, 0x1000), (4, 0), (4, 16), (128, 0)]

/-- `sec`; the name is `.text` in eight bytes. -/
def sec (imageLength rawLength : Nat) : List (Nat × Nat) :=
  [(8, 0x747865742E), (4, imageLength), (4, 0x1000), (4, rawLength), (4, hdr), (4, 0), (4, 0),
    (2, 0), (2, 0), (4, 0x60000020)]

/-- The headers one behind the other, as `pe` has them. -/
def fields (imageLength rawLength : Nat) : List (Nat × Nat) :=
  dos ++ coff ++ opt imageLength (imageSize rawLength) ++ sec imageLength rawLength

/-- The code, the two literals and the kernel. -/
def stubImage (kernel : List UInt8) (kernelDst : Nat) : Except StubError (List UInt8) := do
  let code := (← insns).flatMap (leBytes 4)
  assertThat (code.length = litOff.toNat)
  let lits ← structPack [(8, kernel.length), (8, kernelDst)]
  pure (code ++ lits ++ kernel)

/-- The script: from the kernel and its destination to the file. -/
def mkstub (kernel : List UInt8) (kernelDst : Nat) : Except StubError (List UInt8) := do
  let image ← stubImage kernel kernelDst
  let pe ← structPack (fields image.length (textRaw image).length)
  pure (pe ++ List.replicate (hdr - pe.length) 0 ++ textRaw image)

end Mkstub

end Tools
end Saski
