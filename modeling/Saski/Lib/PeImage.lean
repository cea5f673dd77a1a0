import Saski.Lib.ByteString

/-!
# PE32+ images

What a loader reads of a 64-bit PE file: the offset of the PE header, the file header, some
fields of the optional header and the section table.

* `parse` follows the offsets in the file and fails where the file ends or a signature is
  wrong.
* `Pe.WellFormed`: headers and sections lie where the fields say, inside the file and inside
  the image, at multiples of the two alignments, and the entry point is in a section.
* `Pe.Loaded`: every section is in memory, filled up with zeros behind its content.
-/

namespace PeImage

open ByteMemory ByteString

/-- An entry of the section table. -/
structure Section where
  virtualSize : Nat
  virtualAddress : Nat
  sizeOfRawData : Nat
  pointerToRawData : Nat
  deriving DecidableEq, Repr

structure Pe where
  machine : Nat
  entryPoint : Nat
  sectionAlignment : Nat
  fileAlignment : Nat
  sizeOfImage : Nat
  sizeOfHeaders : Nat
  subsystem : Nat
  /-- where the section table ends -/
  headersEnd : Nat
  sections : List Section
  deriving DecidableEq, Repr

/-- The section table. -/
def parseSections (data : List UInt8) : (count off : Nat) → Option (List Section)
  | 0, _ => some []
  | count + 1, off => do
      let virtualSize ← unpack data (off + 8) 4
      let virtualAddress ← unpack data (off + 12) 4
      let sizeOfRawData ← unpack data (off + 16) 4
      let pointerToRawData ← unpack data (off + 20) 4
      let rest ← parseSections data count (off + 40)
      pure (⟨virtualSize, virtualAddress, sizeOfRawData, pointerToRawData⟩ :: rest)

/-- The headers of a file. -/
def parse (data : List UInt8) : Option Pe := do
  let mz ← unpack data 0 2
  guard (mz = 0x5A4D)
  let peOff ← unpack data 0x3C 4
  let signature ← unpack data peOff 4
  guard (signature = 0x4550)
  let machine ← unpack data (peOff + 4) 2
  let count ← unpack data (peOff + 6) 2
  let optionalSize ← unpack data (peOff + 20) 2
  let magic ← unpack data (peOff + 24) 2
  guard (magic = 0x20B)
  let entryPoint ← unpack data (peOff + 40) 4
  let sectionAlignment ← unpack data (peOff + 56) 4
  let fileAlignment ← unpack data (peOff + 60) 4
  let sizeOfImage ← unpack data (peOff + 80) 4
  let sizeOfHeaders ← unpack data (peOff + 84) 4
  let subsystem ← unpack data (peOff + 92) 2
  let sections ← parseSections data count (peOff + 24 + optionalSize)
  pure { machine, entryPoint, sectionAlignment, fileAlignment, sizeOfImage, sizeOfHeaders,
         subsystem, sections, headersEnd := peOff + 24 + optionalSize + 40 * count }

/-- A section lies inside the file and inside the image, at aligned places. -/
structure Section.Fits (s : Section) (pe : Pe) (fileSize : Nat) : Prop where
  content : s.pointerToRawData + s.sizeOfRawData ≤ fileSize
  behindHeaders : pe.sizeOfHeaders ≤ s.pointerToRawData ∧ pe.sizeOfHeaders ≤ s.virtualAddress
  image : s.virtualAddress + s.virtualSize ≤ pe.sizeOfImage
  fileAligned : pe.fileAlignment ∣ s.pointerToRawData ∧ pe.fileAlignment ∣ s.sizeOfRawData
  sectionAligned : pe.sectionAlignment ∣ s.virtualAddress

structure Pe.WellFormed (pe : Pe) (fileSize : Nat) : Prop where
  headers : pe.headersEnd ≤ pe.sizeOfHeaders ∧ pe.sizeOfHeaders ≤ fileSize
  image : pe.sectionAlignment ∣ pe.sizeOfImage
  sections : ∀ s ∈ pe.sections, s.Fits pe fileSize
  entry : ∃ s ∈ pe.sections,
    s.virtualAddress ≤ pe.entryPoint ∧ pe.entryPoint < s.virtualAddress + s.virtualSize

/-- The sections of the file are in memory, at `base`. -/
def Pe.Loaded (pe : Pe) (data : List UInt8) (m : Mem 64) (base : BitVec 64) : Prop :=
  ∀ s ∈ pe.sections, ∀ i < s.virtualSize,
    m (base + BitVec.ofNat 64 (s.virtualAddress + i)) =
      if i < s.sizeOfRawData then data.getD (s.pointerToRawData + i) 0 else 0

end PeImage
