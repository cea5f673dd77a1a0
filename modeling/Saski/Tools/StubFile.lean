import Saski.Tools.Mkstub

/-!
# The file of the EFI stub as a loader reads it

The script computes offsets and sizes by hand: the two literals behind 60 words, the section
behind 0x1000 bytes of headers, the size of the image.

* `insns` always ends in the same 60 words (`insns_eq`): none of the assertions fails.
* `Built` is what a run of the script that ends well has computed.
* `mkstub_image`: when the script ends well, and that a loader which follows the offsets in
  the file puts the code, the literals and the kernel behind the entry point.
-/

namespace Saski
namespace Tools
namespace Mkstub

open ByteMemory StoreLog ByteString PeImage

/-! ## The words and the literals -/

theorem structPack_eq_ok_iff {fs : List (Nat × Nat)} {l : List UInt8} :
    structPack fs = .ok l ↔ (∀ f ∈ fs, f.2 < 2 ^ (8 * f.1)) ∧ packFields fs = l := by
  unfold structPack
  by_cases h : ∀ f ∈ fs, f.2 < 2 ^ (8 * f.1)
  · rw [if_pos h, Except.ok.injEq, and_iff_right h]
  · rw [if_neg h]
    constructor
    · intro herr
      exact absurd herr (by simp)
    · intro hok
      exact absurd hok.1 h

/-- The words of the stub. -/
def words : List Nat :=
  [0xD503201F, 0xD503201F, 0xD503201F, 0xAA0103EC, 0xD2800000, 0xF2A80000, 0x10000749, 0x580006AA,
    0x580006CB, 0xAA0B03EE, 0xB40000AA, 0x3840152D, 0x3800156D, 0xD100054A, 0x17FFFFFC, 0xD28200AA,
    0xD5384249, 0xD342FD29, 0x92400529, 0xF100093F, 0x540000A1, 0xD53C1009, 0x8A2A0129, 0xD51C1009,
    0x14000004, 0xD5381009, 0x8A2A0129, 0xD5181009, 0xD5033F9F, 0xD5033FDF, 0xD508751F, 0xD5033F9F,
    0xD5033FDF, 0xD61F01C0] ++ List.replicate 26 0xD503201F

theorem insns_eq : insns = .ok words := by rfl

/-- The literals behind the code. -/
def lits (kernel : List UInt8) (kernelDst : Nat) : List (Nat × Nat) :=
  [(8, kernel.length), (8, kernelDst)]

theorem stubImage_eq_ok_iff {kernel image : List UInt8} {kernelDst : Nat} :
    stubImage kernel kernelDst = .ok image ↔
      (kernel.length < 2 ^ 64 ∧ kernelDst < 2 ^ 64) ∧
        image = words.flatMap (leBytes 4) ++ packFields (lits kernel kernelDst) ++ kernel := by
  have hcode : assertThat ((words.flatMap (leBytes 4)).length = litOff.toNat) = .ok () := by
    rw [length_flatMap_leBytes]
    rfl
  have hlits : (∀ f ∈ lits kernel kernelDst, f.2 < 2 ^ (8 * f.1)) ↔
      kernel.length < 2 ^ 64 ∧ kernelDst < 2 ^ 64 := by
    simp [lits]
  simp only [stubImage, insns_eq, bind_eq_ok_iff, Except.ok.injEq, exists_eq_left', hcode, true_and,
    structPack_eq_ok_iff, pure_eq_ok_iff]
  constructor
  · rintro ⟨-, l, ⟨hlt, rfl⟩, rfl⟩
    exact ⟨hlits.mp hlt, rfl⟩
  · rintro ⟨hlt, rfl⟩
    exact ⟨(), _, ⟨hlits.mpr hlt, rfl⟩, rfl⟩

theorem length_image {kernel image : List UInt8} {kernelDst : Nat}
    (h : stubImage kernel kernelDst = .ok image) : image.length = 256 + kernel.length := by
  obtain ⟨-, rfl⟩ := stubImage_eq_ok_iff.mp h
  rw [List.length_append, List.length_append, length_flatMap_leBytes, length_packFields]
  rfl

theorem length_code : (words.flatMap (leBytes 4)).length = 240 := by
  rw [length_flatMap_leBytes]
  decide

/-! ## The image in memory -/

section Code

variable {kernel image : List UInt8} {kernelDst : Nat} {m : Mem 64} {text : BitVec 64}
  (himage : stubImage kernel kernelDst = .ok image) (hholds : Holds m text image)

include himage hholds

/-- The code in memory. -/
theorem holds_code : Holds m text (words.flatMap (leBytes 4)) := by
  obtain ⟨-, rfl⟩ := stubImage_eq_ok_iff.mp himage
  exact hholds.left.left

theorem load_lits :
    load m (text + 240#64) 8 = kernel.length ∧ load m (text + 248#64) 8 = kernelDst := by
  obtain ⟨⟨hlength, hdst⟩, rfl⟩ := stubImage_eq_ok_iff.mp himage
  have hlits : Holds m (text + 240#64) (packFields (lits kernel kernelDst) ++ []) := by
    have hright := hholds.left.right
    rwa [length_code, ← List.append_nil (packFields _)] at hright
  constructor
  · have hfirst := hlits.load (unpack_packFields (j := 0) rfl (by decide) hlength [])
    rwa [show fieldsSize ((lits kernel kernelDst).take 0) = 0 from rfl, BitVec.add_zero] at hfirst
  · have hsecond := hlits.load (unpack_packFields (j := 1) rfl (by decide) hdst [])
    rwa [show fieldsSize ((lits kernel kernelDst).take 1) = 8 from rfl, BitVec.add_assoc] at hsecond

theorem holds_kernel : Holds m (text + 256#64) kernel := by
  obtain ⟨-, rfl⟩ := stubImage_eq_ok_iff.mp himage
  have hright := hholds.right
  rwa [List.length_append, length_code, length_packFields] at hright

end Code

/-! ## The headers -/

/-- The sizes of the fields. -/
def sizes : List Nat :=
  [2, 58, 4, 4] ++ [2, 2, 4, 4, 4, 2, 2] ++
    [2, 1, 1, 4, 4, 4, 4, 4, 8, 4, 4, 2, 2, 2, 2, 2, 2, 4, 4, 4, 4, 2, 2, 8, 8, 8, 8, 4, 4, 128] ++
    [8, 4, 4, 4, 4, 4, 4, 2, 2, 4]

theorem map_fst_fields (imageLength rawLength : Nat) :
    (fields imageLength rawLength).map Prod.fst = sizes := rfl

theorem fieldsSize_fields (imageLength rawLength : Nat) :
    fieldsSize (fields imageLength rawLength) = 368 := by
  rw [fieldsSize, map_fst_fields]
  decide

/-- What a run that ends well has computed. -/
structure Built (kernel : List UInt8) (kernelDst : Nat) (image file : List UInt8) : Prop where
  stub : stubImage kernel kernelDst = .ok image
  fits : ∀ f ∈ fields image.length (textRaw image).length, f.2 < 2 ^ (8 * f.1)
  file : file = packFields (fields image.length (textRaw image).length) ++
    (List.replicate 3728 0 ++ textRaw image)

theorem mkstub_eq_ok_iff {kernel file : List UInt8} {kernelDst : Nat} :
    mkstub kernel kernelDst = .ok file ↔ ∃ image, Built kernel kernelDst image file := by
  have hpad : ∀ image : List UInt8,
      hdr - (packFields (fields image.length (textRaw image).length)).length = 3728 := by
    intro image
    rw [length_packFields, fieldsSize_fields]
    rfl
  simp only [mkstub, bind_eq_ok_iff, structPack_eq_ok_iff, pure_eq_ok_iff]
  constructor
  · rintro ⟨image, himage, -, ⟨hfits, rfl⟩, rfl⟩
    exact ⟨image, himage, hfits, by rw [hpad, List.append_assoc]⟩
  · rintro ⟨image, himage, hfits, rfl⟩
    exact ⟨image, himage, _, ⟨hfits, rfl⟩, by rw [hpad, List.append_assoc]⟩

theorem length_textRaw (image : List UInt8) :
    (textRaw image).length = (image.length + 511) / 512 * 512 := by
  unfold textRaw fileAlign
  split_ifs with h
  · rw [List.length_append, List.length_replicate]
    omega
  · omega

theorem getElem?_textRaw {image : List UInt8} {i : Nat} (hi : i < image.length) :
    (textRaw image)[i]? = image[i]? := by
  unfold textRaw
  split_ifs
  · exact List.getElem?_append_left hi
  · rfl

theorem fits_fields_iff (imageLength rawLength : Nat) :
    (∀ f ∈ fields imageLength rawLength, f.2 < 2 ^ (8 * f.1)) ↔
      imageLength < 2 ^ 32 ∧ rawLength < 2 ^ 32 ∧ imageSize rawLength < 2 ^ 32 := by
  simp [fields, dos, coff, opt, sec, sectionAlign, fileAlign, hdr, -Nat.reducePow]
  omega

theorem exists_mkstub_iff {kernel : List UInt8} {kernelDst : Nat} :
    (∃ file, mkstub kernel kernelDst = .ok file) ↔
      kernelDst < 2 ^ 64 ∧ kernel.length + 0x2100 ≤ 2 ^ 32 := by
  have hsizes : ∀ image : List UInt8, image.length = 256 + kernel.length →
      ((∀ f ∈ fields image.length (textRaw image).length, f.2 < 2 ^ (8 * f.1)) ↔
        kernel.length + 0x2100 ≤ 2 ^ 32) := by
    intro image himage
    rw [fits_fields_iff, length_textRaw, himage]
    unfold imageSize hdr sectionAlign
    omega
  simp only [mkstub_eq_ok_iff]
  constructor
  · rintro ⟨file, image, hbuilt⟩
    exact ⟨(stubImage_eq_ok_iff.mp hbuilt.stub).1.2,
      (hsizes image (length_image hbuilt.stub)).mp hbuilt.fits⟩
  · rintro ⟨hdst, hlength⟩
    have himage := stubImage_eq_ok_iff.mpr ⟨⟨show kernel.length < 2 ^ 64 by omega, hdst⟩, rfl⟩
    exact ⟨_, _, himage, (hsizes _ (length_image himage)).mpr hlength, rfl⟩

/-- What the headers say. -/
def header (imageLength rawLength : Nat) : Pe where
  machine := 0xAA64
  entryPoint := 0x1000
  sectionAlignment := sectionAlign
  fileAlignment := fileAlign
  sizeOfImage := imageSize rawLength
  sizeOfHeaders := hdr
  subsystem := 10
  headersEnd := 368
  sections := [⟨imageLength, 0x1000, rawLength, hdr⟩]

theorem parse_file {kernel image file : List UInt8} {kernelDst : Nat}
    (h : Built kernel kernelDst image file) :
    parse file = some (header image.length (textRaw image).length) := by
  have hfield : ∀ j off n v, (fields image.length (textRaw image).length)[j]? = some (n, v) →
      (sizes.take j).sum = off ∧ 0 < n → unpack file off n = some v := by
    rintro j _ n v hj ⟨rfl, hn⟩
    rw [h.file, ← map_fst_fields image.length (textRaw image).length, ← List.map_take]
    exact unpack_packFields hj hn (h.fits _ (List.mem_of_getElem? hj)) _
  have hmz : unpack file 0 2 = some 0x5A4D := hfield 0 _ 2 _ rfl (by decide)
  have hpe : unpack file 0x3C 4 = some 0x40 := hfield 2 _ 4 _ rfl (by decide)
  have hsignature : unpack file 0x40 4 = some 0x4550 := hfield 3 _ 4 _ rfl (by decide)
  have hmachine : unpack file 0x44 2 = some 0xAA64 := hfield 4 _ 2 _ rfl (by decide)
  have hcount : unpack file 0x46 2 = some 1 := hfield 5 _ 2 _ rfl (by decide)
  have hopt : unpack file 0x54 2 = some 240 := hfield 9 _ 2 _ rfl (by decide)
  have hmagic : unpack file 0x58 2 = some 0x20B := hfield 11 _ 2 _ rfl (by decide)
  have hentry : unpack file 0x68 4 = some 0x1000 := hfield 17 _ 4 _ rfl (by decide)
  have hsection : unpack file 0x78 4 = some sectionAlign := hfield 20 _ 4 _ rfl (by decide)
  have hfile : unpack file 0x7C 4 = some fileAlign := hfield 21 _ 4 _ rfl (by decide)
  have hsize : unpack file 0x90 4 = some (imageSize (textRaw image).length) :=
    hfield 29 _ 4 _ rfl (by decide)
  have hheaders : unpack file 0x94 4 = some hdr := hfield 30 _ 4 _ rfl (by decide)
  have hsubsystem : unpack file 0x9C 2 = some 10 := hfield 32 _ 2 _ rfl (by decide)
  have hvsize : unpack file 0x150 4 = some image.length := hfield 42 _ 4 _ rfl (by decide)
  have hvaddr : unpack file 0x154 4 = some 0x1000 := hfield 43 _ 4 _ rfl (by decide)
  have hraw : unpack file 0x158 4 = some (textRaw image).length := hfield 44 _ 4 _ rfl (by decide)
  have hptr : unpack file 0x15C 4 = some hdr := hfield 45 _ 4 _ rfl (by decide)
  simp [parse, parseSections, hmz, hpe, hsignature, hmachine, hcount, hopt, hmagic, hentry,
    hsection, hfile, hsize, hheaders, hsubsystem, hvsize, hvaddr, hraw, hptr, header]

theorem header_wellFormed {kernel image file : List UInt8} {kernelDst : Nat}
    (h : Built kernel kernelDst image file) :
    (header image.length (textRaw image).length).WellFormed file.length := by
  have himage := length_image h.stub
  have hraw := length_textRaw image
  have hfile : file.length = 0x1000 + (textRaw image).length := by
    rw [h.file, List.length_append, List.length_append, length_packFields, fieldsSize_fields,
      List.length_replicate]
    omega
  have hroom : 0x1000 + (textRaw image).length ≤ imageSize (textRaw image).length := by
    unfold imageSize hdr sectionAlign
    omega
  refine ⟨⟨show 368 ≤ 0x1000 by decide, ?_⟩, ⟨_, Nat.mul_comm _ _⟩, ?_,
    ⟨_, List.mem_singleton_self _, ?_⟩⟩
  · rw [hfile]
    exact Nat.le_add_right _ _
  · intro s hs
    obtain rfl := List.mem_singleton.mp hs
    refine ⟨hfile.ge, ⟨le_rfl, le_rfl⟩, ?_, ⟨show 0x200 ∣ 0x1000 by decide, ?_⟩, dvd_rfl⟩
    · change 0x1000 + image.length ≤ imageSize (textRaw image).length
      omega
    · rw [hraw]
      exact Nat.dvd_mul_left _ _
  · change 0x1000 ≤ 0x1000 ∧ 0x1000 < 0x1000 + image.length
    omega

/-- A loaded file leaves the image behind the headers. -/
theorem holds_of_loaded {kernel image file : List UInt8} {kernelDst : Nat}
    (h : Built kernel kernelDst image file) {m : Mem 64} {base : BitVec 64}
    (hloaded : (header image.length (textRaw image).length).Loaded file m base) :
    Holds m (base + 0x1000#64) image := by
  intro i b hi
  have hlt := (List.getElem?_eq_some_iff.mp hi).1
  have hraw := length_textRaw image
  have hbyte := hloaded _ (List.mem_singleton_self _) i hlt
  have hhead : (packFields (fields image.length (textRaw image).length) ++
      List.replicate 3728 0).length = 0x1000 := by
    rw [List.length_append, length_packFields, fieldsSize_fields, List.length_replicate]
  have hindex : file.getD (0x1000 + i) 0 = b := by
    rw [h.file, List.getD_eq_getElem?_getD, ← List.append_assoc,
      List.getElem?_append_right (by omega), hhead, Nat.add_sub_cancel_left, getElem?_textRaw hlt,
      hi]
    rfl
  change m (base + BitVec.ofNat 64 (0x1000 + i)) =
    if i < (textRaw image).length then file.getD (0x1000 + i) 0 else 0 at hbyte
  rw [if_pos (by omega), hindex, BitVec.ofNat_add] at hbyte
  rw [BitVec.add_assoc]
  exact hbyte

/-- **The stub as a loader sees it.**  The script ends well exactly for a destination of 64
bits and a kernel that leaves the image below 4 GiB, and a loader that follows the headers
finds the code at the entry point, the two literals behind it and then the kernel. -/
theorem mkstub_image (kernel : List UInt8) (kernelDst : Nat) :
    ((∃ file, mkstub kernel kernelDst = .ok file) ↔
      kernelDst < 2 ^ 64 ∧ kernel.length + 0x2100 ≤ 2 ^ 32) ∧
    ∀ file, mkstub kernel kernelDst = .ok file → ∃ pe, parse file = some pe ∧
      pe.WellFormed file.length ∧ pe.machine = 0xAA64 ∧ pe.subsystem = 10 ∧
      ∀ (m : Mem 64) (base : BitVec 64), pe.Loaded file m base →
        let entry := base + BitVec.ofNat 64 pe.entryPoint
        Holds m entry (words.flatMap (leBytes 4)) ∧
          load m (entry + 240#64) 8 = kernel.length ∧ load m (entry + 248#64) 8 = kernelDst ∧
          Holds m (entry + 256#64) kernel := by
  refine ⟨exists_mkstub_iff, fun file hfile => ?_⟩
  obtain ⟨image, hbuilt⟩ := mkstub_eq_ok_iff.mp hfile
  refine ⟨_, parse_file hbuilt, header_wellFormed hbuilt, rfl, rfl, fun m base hloaded => ?_⟩
  have hholds := holds_of_loaded hbuilt hloaded
  obtain ⟨hlength, hdst⟩ := load_lits hbuilt.stub hholds
  exact ⟨holds_code hbuilt.stub hholds, hlength, hdst, holds_kernel hbuilt.stub hholds⟩

theorem mkstub_image_of_word :
    ∃ file pe, mkstub [0x1F, 0x20, 0x03, 0xD5] 0x40080000 = .ok file ∧ parse file = some pe ∧
      pe.WellFormed file.length := by
  obtain ⟨hok, himage⟩ := mkstub_image [0x1F, 0x20, 0x03, 0xD5] 0x40080000
  obtain ⟨file, hfile⟩ := hok.mpr (by decide)
  obtain ⟨pe, hpe, hwell, -⟩ := himage file hfile
  exact ⟨file, pe, hfile, hpe, hwell⟩

end Mkstub
end Tools
end Saski
