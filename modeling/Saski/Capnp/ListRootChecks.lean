import Saski.Capnp.ListRootValid

/-!
# What the list reader and the list encoder check

`capnp_read_list_root` reads raw boot memory and answers for its own safety;
`capnp_build_list_root` answers for what it writes.  This module compares the tests
that each makes with what each promises.

* `capnpReadListRoot_safe`: the reader stays inside the message, and so does
  everything it returns.
* `capnpReadListRoot_documented_iff`: the shape that the reader's comments ask for is
  the shape that it accepts, but for both offsets and a second pointer, which it does
  not test.
* `capnpBuildListRoot_refuses_iff`: the encoder refuses what a small buffer cannot
  hold.  It does not refuse what the fields of the format cannot hold.
-/

namespace Saski
namespace Capnp

open Logged ByteMemory StoreLog

/-! ## The reader -/

section Reader

variable (msg : Int → UInt8) (msgLen : Nat) (dataWords elemDataWords : UInt16)

/-- The word at the root pointer's place, at the list pointer's and at the tag's. -/
def rootWord : Nat := (listWord msg 0).value

def listPtrWord : Nat := (listWord msg (1 + dataWords.toNat)).value

def listTagWord : Nat := (listWord msg (1 + dataWords.toNat + 1)).value

/-- The words of the list body, tag included, as the list pointer gives them. -/
def bodyWords : Nat := listPtrWord msg dataWords / 2 ^ 35 % 2 ^ 29

/-- The elements, as the tag gives them. -/
def tagCount : Nat := listTagWord msg dataWords / 2 ^ 2 % 2 ^ 30

/-- What the reader has found out about a message that it accepts. -/
structure ListShape : Prop where
  root_tag : rootWord msg % 4 = 0
  root_data : rootWord msg / 2 ^ 32 % 2 ^ 16 = dataWords.toNat
  root_ptrs : 1 ≤ rootWord msg / 2 ^ 48 % 2 ^ 16
  list_tag : listPtrWord msg dataWords % 4 = 1
  body_fits : 8 + 8 * (1 + dataWords.toNat + 1 + bodyWords msg dataWords) ≤ msgLen
  elements_fit : 1 + tagCount msg dataWords * elemDataWords.toNat ≤ bodyWords msg dataWords

/-- What the reader returns for such a message. -/
def acceptedList : ListRead :=
  ⟨some (8 + 8 * 1), some (8 + 8 * (1 + dataWords.toNat + 1 + 1 : Nat)), tagCount msg dataWords⟩

variable {msg msgLen dataWords elemDataWords}

/-- A test of the reader: whatever holds of its answer to a mismatch only has to be
shown for a message that passes. -/
theorem value_guard {c : Prop} [Decidable c] {t : Logged Access ListRead} {Q : ListRead → Prop}
    (hmismatch : Q listMismatch) (h : ¬ c → Q t.value) :
    Q (if c then pure listMismatch else t).value := by
  by_cases hc : c
  · rw [if_pos hc]
    exact hmismatch
  · rw [if_neg hc]
    exact h hc

/-- The reader from the tag word on.  If the body is empty, its length minus one wraps
around, and only the last test refuses the message. -/
theorem readListBody_cases (body tagIndex : Nat) {Q : ListRead → Prop}
    (hmismatch : Q listMismatch)
    (h : 1 + (listWord msg tagIndex).value / 2 ^ 2 % 2 ^ 30 * elemDataWords.toNat ≤ body →
      Q ⟨some (8 + 8 * 1), some (8 + 8 * (tagIndex + 1 : Nat)),
        (listWord msg tagIndex).value / 2 ^ 2 % 2 ^ 30⟩) :
    Q (readListBody msg elemDataWords body tagIndex).value := by
  have hcount : ((listWord msg tagIndex).value >>> 2) &&& 0x3FFFFFFF =
      (listWord msg tagIndex).value / 2 ^ 2 % 2 ^ 30 := shiftRight_and_mask _ 2 30
  unfold readListBody
  rw [value_bind]
  refine value_guard hmismatch fun _ => ?_
  refine value_guard hmismatch fun _ => ?_
  refine value_guard hmismatch fun _ => ?_
  refine value_guard hmismatch fun hfit => ?_
  rw [hcount] at hfit
  rw [value_pure, hcount]
  exact h (Nat.not_lt.mp hfit)

/-- The reader refuses a message, or it has this shape and is answered so. -/
theorem capnpReadListRoot_cases {Q : ListRead → Prop} (hmismatch : Q listMismatch)
    (h : ListShape msg msgLen dataWords elemDataWords → Q (acceptedList msg dataWords)) :
    Q (capnpReadListRoot msg msgLen dataWords elemDataWords).value := by
  unfold capnpReadListRoot
  refine value_guard hmismatch fun hlen => ?_
  refine value_guard hmismatch fun hdata => ?_
  rw [value_bind]
  refine value_guard hmismatch fun hroot => ?_
  refine value_guard hmismatch fun hsections => ?_
  rw [value_bind]
  refine value_guard hmismatch fun hlist => ?_
  refine value_guard hmismatch fun hsize => ?_
  refine value_guard hmismatch fun hbody => ?_
  refine readListBody_cases _ _ hmismatch fun helements => h ?_
  -- The masks of the source, as quotients and remainders.
  have hrootData : (rootWord msg >>> 32) &&& 0xFFFF = rootWord msg / 2 ^ 32 % 2 ^ 16 :=
    shiftRight_and_mask _ 32 16
  have hrootPtrs : (rootWord msg >>> 48) &&& 0xFFFF = rootWord msg / 2 ^ 48 % 2 ^ 16 :=
    shiftRight_and_mask _ 48 16
  have hbodyWords : (listPtrWord msg dataWords >>> 35) &&& 0x1FFFFFFF = bodyWords msg dataWords :=
    shiftRight_and_mask _ 35 29
  rw [and_three, not_not] at hroot hlist
  change ¬ ((rootWord msg >>> 32) &&& 0xFFFF ≠ dataWords.toNat ∨
    (rootWord msg >>> 48) &&& 0xFFFF < 1) at hsections
  change ¬ ((msgLen - 8) / 8 ≤ 1 + dataWords.toNat + 1 ∨
    (msgLen - 8) / 8 - (1 + dataWords.toNat + 1) <
      (listPtrWord msg dataWords >>> 35) &&& 0x1FFFFFFF) at hbody
  rw [hrootData, hrootPtrs] at hsections
  rw [hbodyWords] at hbody
  exact
    { root_tag := hroot
      root_data := by omega
      root_ptrs := by omega
      list_tag := hlist
      body_fits := by omega
      elements_fit := helements.trans hbodyWords.le }

/-- The three words are read once the segment is known to hold them. -/
theorem logs_listWord {i : Nat} (h : 8 + 8 * (i + 1) ≤ msgLen) :
    Logs (ReadSafe msgLen none) (listWord msg i) :=
  logs_readBytes msg (by omega) (by push_cast; omega)

theorem logs_capnpReadListRoot :
    Logs (ReadSafe msgLen none) (capnpReadListRoot msg msgLen dataWords elemDataWords) := by
  unfold capnpReadListRoot
  apply logs_unless
  intro hlen
  apply logs_unless
  intro hdata
  refine logs_bind (logs_listWord (by omega)) ?_
  apply logs_unless
  intro _
  apply logs_unless
  intro _
  refine logs_bind (logs_listWord (by omega)) ?_
  apply logs_unless
  intro _
  apply logs_unless
  intro _
  apply logs_unless
  intro hbody
  unfold readListBody
  refine logs_bind (logs_listWord (by omega)) ?_
  apply logs_unless
  intro _
  apply logs_unless
  intro _
  apply logs_unless
  intro _
  exact logs_unless fun _ => logs_pure _ _

end Reader

/-- An answer of the reader that can be used: the data section and the run of elements
lie inside the message, or there is no data section and both outputs are cleared. -/
structure AnswerInside (msgLen : Nat) (dataWords elemDataWords : UInt16) (read : ListRead) :
    Prop where
  data : ∀ data, read.data = some data → 0 ≤ data ∧ data + 8 * dataWords.toNat ≤ msgLen
  elements : read.data ≠ none → ∃ first, read.outElements = some first ∧
    0 ≤ first ∧ first + 8 * (read.outCount * elemDataWords.toNat : Nat) ≤ msgLen
  mismatch : read.data = none → read.outElements = none ∧ read.outCount = 0

/-- **The list reader is safe on every input.**  It reads no byte outside the message,
what it returns lies inside the message, and on a mismatch the outputs are cleared. -/
theorem capnpReadListRoot_safe (msg : Int → UInt8) (msgLen : Nat)
    (dataWords elemDataWords : UInt16) :
    (∀ index : Int,
        .msgByte index ∈ (capnpReadListRoot msg msgLen dataWords elemDataWords).log →
          0 ≤ index ∧ index < msgLen) ∧
      AnswerInside msgLen dataWords elemDataWords
        (capnpReadListRoot msg msgLen dataWords elemDataWords).value := by
  refine ⟨fun index hindex => logs_capnpReadListRoot _ hindex, ?_⟩
  apply capnpReadListRoot_cases
  · exact
      { data := fun data hdata => absurd hdata (by simp [listMismatch])
        elements := fun hne => absurd rfl hne
        mismatch := fun _ => ⟨rfl, rfl⟩ }
  · intro hshape
    have hbody := hshape.body_fits
    have helements := hshape.elements_fit
    refine ⟨fun data hdata => ?_, fun _ => ⟨_, rfl, by omega, ?_⟩, fun hnone => ?_⟩
    · obtain rfl := Option.some.inj hdata
      exact ⟨by omega, by omega⟩
    · change (8 + 8 * ((1 + dataWords.toNat + 1 + 1 : Nat) : Int)) +
        8 * ((tagCount msg dataWords * elemDataWords.toNat : Nat) : Int) ≤ msgLen
      omega
    · exact absurd hnone (by simp [acceptedList])

/-- The shape that the reader's comments describe, for a message that it answered with
`read`: a struct pointer with offset 0 and exactly one pointer, a list pointer with
offset 0, and as results the places the two pointers lead to.  Behind the list pointer's
target, the tag word, stands the first element. -/
structure DocumentedShape (msg : Int → UInt8) (dataWords : UInt16) (read : ListRead) : Prop where
  root_tag : (capnpDecodePtr (rootWord msg)).tag = .struct
  root_offset : (capnpDecodePtr (rootWord msg)).offsetWords = 0
  root_ptrs : (capnpDecodePtr (rootWord msg)).ptrWords = 1
  list_tag : (capnpDecodePtr (listPtrWord msg dataWords)).tag = .list
  list_offset : (capnpDecodePtr (listPtrWord msg dataWords)).offsetWords = 0
  data : read.data = some (8 + 8 * (1 + (capnpDecodePtr (rootWord msg)).offsetWords))
  elements : read.outElements = some (8 + 8 * (1 + (capnpDecodePtr (rootWord msg)).offsetWords +
    dataWords.toNat + 1 + (capnpDecodePtr (listPtrWord msg dataWords)).offsetWords + 1))

/-- The pointer words of an accepted message, decoded: only offsets and the number of
pointers are left open. -/
theorem decoded_of_listShape {msg : Int → UInt8} {msgLen : Nat} {dataWords elemDataWords : UInt16}
    (hshape : ListShape msg msgLen dataWords elemDataWords) :
    capnpDecodePtr (rootWord msg) =
        { tag := .struct, offsetWords := decodeOffset (rootWord msg), dataWords := dataWords.toNat,
          ptrWords := rootWord msg / 2 ^ 48 % 2 ^ 16 } ∧
      (capnpDecodePtr (listPtrWord msg dataWords)).tag = .list ∧
      (capnpDecodePtr (listPtrWord msg dataWords)).offsetWords =
        decodeOffset (listPtrWord msg dataWords) := by
  have hptrs := hshape.root_ptrs
  have hne : rootWord msg ≠ 0 := by
    intro hzero
    rw [hzero] at hptrs
    exact absurd hptrs (by decide)
  rw [capnpDecodePtr_struct hne hshape.root_tag, capnpDecodePtr_list hshape.list_tag,
    hshape.root_data]
  exact ⟨rfl, rfl, rfl⟩

/-- **Which of the accepted messages have the documented shape.**  Those in which the
offset bits of the root pointer and of the list pointer are zero and the root pointer
counts one pointer: the reader tests none of the three. -/
theorem capnpReadListRoot_documented_iff (msg : Int → UInt8) (msgLen : Nat)
    (dataWords elemDataWords : UInt16)
    (haccept : (capnpReadListRoot msg msgLen dataWords elemDataWords).value.data ≠ none) :
    DocumentedShape msg dataWords (capnpReadListRoot msg msgLen dataWords elemDataWords).value ↔
      rootWord msg / 4 % 2 ^ 30 = 0 ∧ rootWord msg / 2 ^ 48 % 2 ^ 16 = 1 ∧
        listPtrWord msg dataWords / 4 % 2 ^ 30 = 0 := by
  revert haccept
  refine capnpReadListRoot_cases (Q := fun r => r.data ≠ none → (DocumentedShape msg dataWords r ↔
    rootWord msg / 4 % 2 ^ 30 = 0 ∧ rootWord msg / 2 ^ 48 % 2 ^ 16 = 1 ∧
      listPtrWord msg dataWords / 4 % 2 ^ 30 = 0)) (fun h => absurd rfl h) fun hshape _ => ?_
  obtain ⟨hroot, htag, hoffset⟩ := decoded_of_listShape hshape
  rw [← decodeOffset_eq_zero_iff, ← decodeOffset_eq_zero_iff]
  constructor
  · intro h
    have hrootOffset := h.root_offset
    have hptrs := h.root_ptrs
    have hlistOffset := h.list_offset
    rw [hroot] at hrootOffset hptrs
    rw [hoffset] at hlistOffset
    exact ⟨hrootOffset, hptrs, hlistOffset⟩
  · rintro ⟨hrootOffset, hptrs, hlistOffset⟩
    rw [hrootOffset, hptrs] at hroot
    rw [hlistOffset] at hoffset
    refine ⟨?_, ?_, ?_, htag, hoffset, ?_, ?_⟩
    · rw [hroot]
    · rw [hroot]
    · rw [hroot]
    · rw [hroot]
      rfl
    · rw [hroot, hoffset]
      change some (8 + 8 * ((1 + dataWords.toNat + 1 + 1 : Nat) : Int)) = _
      push_cast
      rfl

/-- An empty list of empty structs, behind the given root pointer. -/
def emptyListMessage (root : List UInt8) : Int → UInt8 :=
  (Buffer.ofList ([0, 0, 0, 0, 3, 0, 0, 0] ++ root ++
    [1, 0, 0, 0, 15, 0, 0, 0] ++ [0, 0, 0, 0, 0, 0, 0, 0])).bytes

/-- A root pointer with offset 1: its struct starts at the list pointer's target.  The
reader takes the words behind the root pointer for it. -/
theorem emptyListMessage_not_documented :
    (capnpReadListRoot (emptyListMessage [4, 0, 0, 0, 0, 0, 1, 0]) 32 0 0).value.data ≠ none ∧
      ¬ DocumentedShape (emptyListMessage [4, 0, 0, 0, 0, 0, 1, 0]) 0
        (capnpReadListRoot (emptyListMessage [4, 0, 0, 0, 0, 0, 1, 0]) 32 0 0).value := by
  refine ⟨by decide, fun h => ?_⟩
  exact absurd h.root_offset (by decide)

/-- One data word and a list of one element of one word. -/
def numberListMessage : Int → UInt8 :=
  (Buffer.ofList ([0, 0, 0, 0, 5, 0, 0, 0] ++ [0, 0, 0, 0, 1, 0, 1, 0] ++
    [42, 0, 0, 0, 0, 0, 0, 0] ++ [1, 0, 0, 0, 23, 0, 0, 0] ++ [4, 0, 0, 0, 1, 0, 0, 0] ++
    [7, 0, 0, 0, 0, 0, 0, 0])).bytes

theorem numberListMessage_documented :
    (capnpReadListRoot numberListMessage 48 1 1).value.data = some 16 ∧
      (capnpReadListRoot numberListMessage 48 1 1).value.outCount = 1 ∧
      DocumentedShape numberListMessage 1 (capnpReadListRoot numberListMessage 48 1 1).value := by
  have hdata : (capnpReadListRoot numberListMessage 48 1 1).value.data = some 16 := by decide
  have haccept : (capnpReadListRoot numberListMessage 48 1 1).value.data ≠ none := by
    rw [hdata]
    exact Option.some_ne_none 16
  exact ⟨hdata, by decide,
    (capnpReadListRoot_documented_iff _ 48 1 1 haccept).mpr (by decide)⟩

/-! ## The encoder -/

/-- Sizes that a field of the format cannot hold: the 30 bits of the tag's count, the 29
bits of the list pointer's or the 32 bits of the header's. -/
def Oversize (nDataWords : UInt16) (nElements : UInt32) (elemDataWords : UInt16) : Prop :=
  2 ^ 30 ≤ nElements.toNat ∨ 2 ^ 29 ≤ 1 + nElements.toNat * elemDataWords.toNat ∨
    2 ^ 32 ≤ segWords nDataWords nElements elemDataWords

/-- The header, the two pointers and the tag of a message say these sizes. -/
structure SizesEncoded (msg : Int → UInt8) (nDataWords : UInt16) (nElements : UInt32)
    (elemDataWords : UInt16) : Prop where
  header : (readBytes msg 4 4).value = segWords nDataWords nElements elemDataWords
  root : capnpDecodePtr (rootWord msg) =
    { tag := .struct, dataWords := nDataWords.toNat, ptrWords := 1 }
  list : capnpDecodePtr (listPtrWord msg nDataWords) =
    { tag := .list, elementSize := 7,
      elementCount := 1 + nElements.toNat * elemDataWords.toNat }
  tag : listTagWord msg nDataWords % 4 = 0
  count : tagCount msg nDataWords = nElements.toNat
  tag_data : listTagWord msg nDataWords / 2 ^ 32 % 2 ^ 16 = elemDataWords.toNat
  tag_ptrs : listTagWord msg nDataWords / 2 ^ 48 % 2 ^ 16 = 0

/-- Sizes that fit are encoded. -/
theorem sizesEncoded_of_fit (dataWords elements : Nat → UInt64) (nDataWords elemDataWords : UInt16)
    (nElements : UInt32) (hcount : nElements.toNat < 2 ^ 30)
    (hbody : 1 + nElements.toNat * elemDataWords.toNat < 2 ^ 29) (buf : Int → UInt8) :
    SizesEncoded (apply buf (consecutive 0
      (listRootBytes dataWords nDataWords elements nElements elemDataWords)))
      nDataWords nElements elemDataWords := by
  have hn := nDataWords.toNat_lt
  obtain ⟨hroot, -, hlist, htag, -⟩ :=
    getElem?_listRootWords dataWords nDataWords elements nElements elemDataWords
  obtain ⟨root, hrootEq, hrootLt, -⟩ := rootWord_fields hn
  obtain ⟨list, hlistEq, hlistLt, -⟩ := listPtrWord_fields hbody
  obtain ⟨tag, htagEq, htagLt, htag3, htagCount, htagData, htagPtr⟩ :=
    tagWord_fields hcount elemDataWords.toNat_lt
  have hrootWord := value_listWord _ _ _ _ _ buf hroot (hrootEq ▸ hrootLt)
  have hlistWord := value_listWord _ _ _ _ _ buf hlist (hlistEq ▸ hlistLt)
  have htagWord := value_listWord _ _ _ _ _ buf htag (htagEq ▸ htagLt)
  have hheader := value_header dataWords nDataWords elements nElements elemDataWords buf
    (by unfold segWords; omega)
  generalize apply buf (consecutive 0
    (listRootBytes dataWords nDataWords elements nElements elemDataWords)) = msg at *
  have htagValue : listTagWord msg nDataWords = tag := htagWord.trans htagEq
  refine ⟨hheader, ?_, ?_, ?_, ?_, ?_, ?_⟩
  · rw [rootWord, hrootWord, capnpDecodePtr_root hn]
  · rw [listPtrWord, hlistWord, capnpDecodePtr_listPtr hbody]
  · rw [htagValue, ← and_three]
    exact htag3
  · rw [tagCount, htagValue, ← htagCount]
    exact (shiftRight_and_mask tag 2 30).symm
  · rw [htagValue, ← htagData]
    exact (shiftRight_and_mask tag 32 16).symm
  · rw [htagValue, ← htagPtr]
    exact (shiftRight_and_mask tag 48 16).symm

/-- A call refuses sizes that the format cannot hold, and a length that it returns is that
of a message which says the sizes it was given. -/
def RefusesOversize (bufCap : Nat) (dataWords : Nat → UInt64) (nDataWords : UInt16)
    (elements : Nat → UInt64) (nElements : UInt32) (elemDataWords : UInt16)
    (buf : Int → UInt8) : Prop :=
  (Oversize nDataWords nElements elemDataWords →
      (capnpBuildListRoot bufCap dataWords nDataWords elements nElements elemDataWords).value =
        0) ∧
    ((capnpBuildListRoot bufCap dataWords nDataWords elements nElements elemDataWords).value ≠ 0 →
      SizesEncoded (apply buf
        (capnpBuildListRoot bufCap dataWords nDataWords elements nElements elemDataWords).log)
        nDataWords nElements elemDataWords)

theorem value_capnpBuildListRoot_of_small {bufCap : Nat} (dataWords elements : Nat → UInt64)
    {nDataWords elemDataWords : UInt16} {nElements : UInt32}
    (hcap : bufCap < 8 + segWords nDataWords nElements elemDataWords * 8) :
    (capnpBuildListRoot bufCap dataWords nDataWords elements nElements elemDataWords).value =
      0 := by
  unfold segWords at hcap
  unfold capnpBuildListRoot
  rw [if_pos hcap]
  rfl

/-- **When the encoder refuses what the format cannot hold.**  Only if the buffer is too
small for it as well, or nothing had to be refused. -/
theorem capnpBuildListRoot_refuses_iff (bufCap : Nat) (dataWords : Nat → UInt64)
    (nDataWords : UInt16) (elements : Nat → UInt64) (nElements : UInt32) (elemDataWords : UInt16)
    (buf : Int → UInt8) :
    RefusesOversize bufCap dataWords nDataWords elements nElements elemDataWords buf ↔
      bufCap < 8 + segWords nDataWords nElements elemDataWords * 8 ∨
        (nElements.toNat < 2 ^ 30 ∧ 1 + nElements.toNat * elemDataWords.toNat < 2 ^ 29) := by
  by_cases hcap : bufCap < 8 + segWords nDataWords nElements elemDataWords * 8
  · have hvalue := value_capnpBuildListRoot_of_small dataWords elements hcap
    exact iff_of_true ⟨fun _ => hvalue, fun hne => absurd hvalue hne⟩ (Or.inl hcap)
  · obtain ⟨hvalue, hlog⟩ := capnpBuildListRoot_eq dataWords nDataWords elements nElements
      elemDataWords (Nat.not_lt.mp hcap)
    constructor
    · intro h
      right
      by_contra hfit
      have hzero := h.1 (by unfold Oversize; omega)
      omega
    · intro h
      obtain ⟨hcount, hbody⟩ := h.resolve_left hcap
      constructor
      · intro hover
        have hn := nDataWords.toNat_lt
        unfold Oversize segWords at hover
        omega
      · intro _
        rw [hlog]
        exact sizesEncoded_of_fit dataWords elements nDataWords elemDataWords nElements hcount hbody
          buf

/-- `2 ^ 30` empty elements take no room: the call returns the length of a message whose
tag counts no elements, of one word each. -/
theorem oversize_list_built :
    Oversize 0 0x40000000 0 ∧
      ¬ RefusesOversize 32 (fun _ => 0) 0 (fun _ => 0) 0x40000000 0 (fun _ => 0) := by
  have hover : Oversize 0 0x40000000 0 := Or.inl (by decide)
  refine ⟨hover, fun h => ?_⟩
  exact absurd (h.1 hover) (by decide)

/-- Two elements of one word. -/
theorem sample_list_sizes_encoded :
    RefusesOversize 64 (fun _ => 5) 1 (fun j => j.toUInt64) 2 1 (fun _ => 0) :=
  (capnpBuildListRoot_refuses_iff 64 (fun _ => 5) 1 (fun j => j.toUInt64) 2 1 (fun _ => 0)).mpr
    (Or.inr (by decide))

end Capnp
end Saski
