import Saski.Capnp.ListRoot
import Saski.Capnp.ValidateAccepts

/-!
# Encoded lists and the validator

`capnp_build_list_root` counts the tag word among the words of the list body, as the
comments of both files say; `capnp_validate.c` asks for one word more than the count.
The body is the last thing in the segment, so there is no such word: the validator
refuses every message that the encoder builds.
-/

namespace Saski
namespace Capnp

open Logged ByteMemory StoreLog

/-- A schema for messages with `nDataWords` data words and elements of `elemDataWords`:
struct `i` of the table asks for no more data words and has one pointer, to a list of
structs that ask for no more data words and have no pointers. -/
structure ListSchema (table : SchemaTable) (i nDataWords elemDataWords : Nat) : Prop where
  index : i ≠ schemaIdxNone
  index_lt : i < table.structCount
  dataWords_le : (table.structs i).dataWords ≤ nDataWords
  one_pointer : (table.structs i).pointerCount = 1
  first : (table.structs i).firstPointer ≠ schemaIdxNone
  first_lt : (table.structs i).firstPointer < table.pointerCount
  kind : (table.pointers (table.structs i).firstPointer).kind = .list
  size : (table.pointers (table.structs i).firstPointer).listElementSize = 7 ∨
    (table.pointers (table.structs i).firstPointer).listElementSize = 0xFF
  element : (table.pointers (table.structs i).firstPointer).elementStruct ≠ schemaIdxNone
  element_lt : (table.pointers (table.structs i).firstPointer).elementStruct < table.structCount
  element_dataWords_le : (table.structs
    (table.pointers (table.structs i).firstPointer).elementStruct).dataWords ≤ elemDataWords
  element_pointers : (table.structs
    (table.pointers (table.structs i).firstPointer).elementStruct).pointerCount = 0

/-! ## The header -/

theorem listRootHeader_eq (s : Nat) : listRootHeader s = [0, 0, 0, 0] ++ leBytes 4 s := by
  have hmask : ∀ n : Nat, UInt8.ofNat (n &&& 0xFF) = UInt8.ofNat n := by
    intro n
    apply UInt8.toNat_inj.mp
    rw [show (0xFF : Nat) = 2 ^ 8 - 1 by norm_num, Nat.and_two_pow_sub_one_eq_mod]
    simp
  simp only [listRootHeader, hmask, Nat.shiftRight_eq_div_pow]
  simp [leBytes, List.range_succ, byteOf]

variable (dataWords : Nat → UInt64) (nDataWords : UInt16) (elements : Nat → UInt64)
  (nElements : UInt32) (elemDataWords : UInt16)

/-- The header says one segment, with the words that it has. -/
theorem value_header (buf : Int → UInt8)
    (hsize : segWords nDataWords nElements elemDataWords < 2 ^ 32) :
    (readBytes (apply buf (consecutive 0
        (listRootBytes dataWords nDataWords elements nElements elemDataWords))) 4 4).value =
      segWords nDataWords nElements elemDataWords := by
  have hbytes : ∀ k : Nat, k < 4 →
      (leBytes 4 (segWords nDataWords nElements elemDataWords))[k]? =
        some (apply buf (consecutive 0
          (listRootBytes dataWords nDataWords elements nElements elemDataWords)) (4 + k)) := by
    intro k hk
    have hat : (listRootBytes dataWords nDataWords elements nElements elemDataWords)[4 + k]? =
        (leBytes 4 (segWords nDataWords nElements elemDataWords))[k]? := by
      rw [listRootBytes, listRootHeader_eq, List.append_assoc,
        List.getElem?_append_right (Nat.le_add_right 4 k),
        List.getElem?_append_left (by simp; omega)]
      simp
    have hsome := List.getElem?_eq_getElem (l := leBytes 4
      (segWords nDataWords nElements elemDataWords)) (i := k) (by simpa using hk)
    have hstored := apply_consecutive buf 0 (hat.trans hsome)
    rw [Int.zero_add, Nat.cast_add, Nat.cast_ofNat] at hstored
    rw [hsome, hstored]
  have hword := littleEndian_leBytes hbytes
  rw [Nat.mod_eq_of_lt hsize] at hword
  exact hword

/-! ## The pointers -/

/-- The validator reads the same words as the reader. -/
theorem value_readWord_segmentOf (msg : Buffer) (i : Nat) :
    (readWord (segmentOf msg) i).value = (listWord msg.bytes i).value := by
  rw [readWord, listWord, Int.mul_comm]
  rfl

/-- The root pointer, decoded. -/
theorem capnpDecodePtr_root {n : Nat} (hn : n < 2 ^ 16) :
    capnpDecodePtr ((n <<< 32) ||| (1 <<< 48)) =
      { tag := .struct, dataWords := n, ptrWords := 1 } := by
  obtain ⟨w, hw, -, hne, h3, hoff, hdata, hptr⟩ := rootWord_fields hn
  have hoffset := (decodeOffset_eq_zero_iff w).mpr hoff
  rw [hw, capnpDecodePtr, if_neg hne]
  simp only [h3, hoffset, hdata, hptr]

/-- The list pointer, decoded. -/
theorem capnpDecodePtr_listPtr {body : Nat} (hbody : body < 2 ^ 29) :
    capnpDecodePtr (1 ||| (7 <<< 32) ||| (body <<< 35 % 2 ^ 64)) =
      { tag := .list, elementSize := 7, elementCount := body } := by
  obtain ⟨w, hw, -, hne, h3, hoff, hsize, hcount⟩ := listPtrWord_fields hbody
  have hoffset := (decodeOffset_eq_zero_iff w).mpr hoff
  rw [hw, capnpDecodePtr, if_neg hne]
  simp only [h3, hoffset, hsize, hcount]

/-! ## The verdict -/

/-- The list body ends where the segment ends: there is no room for one more word. -/
theorem not_inBounds_body (m : CapnpMsg) {n body : Nat} (hseg : m.segWords = n + 2 + body) :
    inBounds m (n + 2 : Nat) (body + 1) = false := by
  unfold inBounds
  rw [if_neg (by omega), if_neg (by omega), if_pos (by omega)]

/-- A list slot whose pointer counts the words up to the end of the segment. -/
theorem not_slotAccepts_list {m : CapnpMsg} {n body : Nat} (hseg : m.segWords = n + 2 + body)
    (hptr : ptrAt m (1 + n : Nat) = { tag := .list, elementSize := 7, elementCount := body })
    {pschema : PointerSchema} (hkind : pschema.kind = .list) {child : StructPred} :
    ¬ SlotAccepts m child (1 + n : Nat) pschema := by
  rintro ⟨-, htarget⟩
  rw [targetAt, hptr] at htarget
  rcases htarget with hnull | htarget
  · exact absurd hnull (by simp)
  · rw [TargetAccepts, hkind] at htarget
    obtain ⟨-, -, hcomposite, -⟩ := htarget
    have hin := (hcomposite rfl).1
    rw [show ((1 + n : Nat) : Int) + 1 + 0 = (n + 2 : Nat) by push_cast; omega,
      not_inBounds_body m hseg] at hin
    exact absurd hin (by simp)

variable {dataWords nDataWords elements nElements elemDataWords}

theorem value_capnpValidateMessage_listRoot
    (hbody : 1 + nElements.toNat * elemDataWords.toNat < 2 ^ 29) {table : SchemaTable} {i : Nat}
    (hschema : ListSchema table i nDataWords.toNat elemDataWords.toNat) (buf : Int → UInt8)
    (len : Nat) :
    (capnpValidateMessage ⟨false, apply buf (consecutive 0
        (listRootBytes dataWords nDataWords elements nElements elemDataWords))⟩ len (some table)
      i).value = false := by
  rw [← Bool.not_eq_true, value_capnpValidateMessage _ _ _ hschema.index]
  rintro ⟨-, -, -, -, -, haccept⟩
  have hn := nDataWords.toNat_lt
  obtain ⟨hroot, -, hlist, -⟩ :=
    getElem?_listRootWords dataWords nDataWords elements nElements elemDataWords
  obtain ⟨root, hrootEq, hrootLt, -⟩ := rootWord_fields hn
  obtain ⟨list, hlistEq, hlistLt, -⟩ := listPtrWord_fields hbody
  have hrootWord := value_listWord _ _ _ _ _ buf hroot (hrootEq ▸ hrootLt)
  have hlistWord := value_listWord _ _ _ _ _ buf hlist (hlistEq ▸ hlistLt)
  have hheader := value_header dataWords nDataWords elements nElements elemDataWords buf
    (by unfold segWords; omega)
  generalize apply buf (consecutive 0
    (listRootBytes dataWords nDataWords elements nElements elemDataWords)) = bytes at *
  have hseg : (segmentOf ⟨false, bytes⟩).segWords =
      nDataWords.toNat + 2 + (1 + nElements.toNat * elemDataWords.toNat) := by
    change (readBytes bytes 4 4).value = _
    rw [hheader, segWords]
    omega
  have hrootPtr : ptrAt (segmentOf ⟨false, bytes⟩) (0 : Nat) =
      { tag := .struct, dataWords := nDataWords.toNat, ptrWords := 1 } := by
    rw [ptrAt, value_readWord_segmentOf, hrootWord, capnpDecodePtr_root hn]
  have hlistPtr : ptrAt (segmentOf ⟨false, bytes⟩) (1 + nDataWords.toNat : Nat) =
      { tag := .list, elementSize := 7,
        elementCount := 1 + nElements.toNat * elemDataWords.toNat } := by
    rw [ptrAt, value_readWord_segmentOf, hlistWord, capnpDecodePtr_listPtr hbody]
  -- The root is a struct, and its one slot is the list pointer.
  rcases haccept with ⟨hnull, -⟩ | ⟨-, -, hstruct⟩
  · rw [show (0 : Int) = (0 : Nat) from rfl, hrootPtr] at hnull
    exact absurd hnull (by simp)
  rw [value_validateStructAt] at hstruct
  rcases hstruct with hnone | ⟨-, -, hslots⟩
  · exact hschema.index hnone
  rw [targetAt, show (0 : Int) = (0 : Nat) from rfl, hrootPtr, hschema.one_pointer] at hslots
  obtain ⟨-, -, hslot⟩ := hslots 0 (by simp)
  rw [capnpMaxDepth, value_validatePointerSlot_succ,
    show ((0 : Nat) : Int) + 1 + 0 + nDataWords.toNat + (0 : Nat) =
      (1 + nDataWords.toNat : Nat) by push_cast; omega] at hslot
  exact not_slotAccepts_list hseg hlistPtr hschema.kind hslot

/-- **The validator refuses every message of the encoder**, with every schema that the
message has room for. -/
theorem listRoot_never_valid (dataWords elements : Nat → UInt64)
    (nDataWords elemDataWords : UInt16) (nElements : UInt32) (bufCap : Nat)
    (hbuilt : 0 <
      (capnpBuildListRoot bufCap dataWords nDataWords elements nElements elemDataWords).value)
    (hbody : 1 + nElements.toNat * elemDataWords.toNat < 2 ^ 29)
    (table : SchemaTable) (i : Nat)
    (hschema : ListSchema table i nDataWords.toNat elemDataWords.toNat) (buf : Int → UInt8) :
    (capnpValidateMessage ⟨false, apply buf
        (capnpBuildListRoot bufCap dataWords nDataWords elements nElements elemDataWords).log⟩
      (capnpBuildListRoot bufCap dataWords nDataWords elements nElements elemDataWords).value
      (some table) i).value = false := by
  have hcap : 8 + segWords nDataWords nElements elemDataWords * 8 ≤ bufCap := by
    by_contra hsmall
    unfold capnpBuildListRoot at hbuilt
    rw [if_pos (by unfold segWords at hsmall; omega)] at hbuilt
    exact absurd hbuilt (by simp)
  rw [(capnpBuildListRoot_eq dataWords nDataWords elements nElements elemDataWords hcap).2]
  exact value_capnpValidateMessage_listRoot hbody hschema buf _

/-- A root with data words and one list, and the struct of the list's elements. -/
def listTable (dataWords elemDataWords : Nat) : SchemaTable where
  structs := fun i => if i = 0 then ⟨dataWords, 1, 0⟩ else ⟨elemDataWords, 0, 0⟩
  structCount := 2
  pointers := fun _ => ⟨.list, 1, 7⟩
  pointerCount := 1
  methods := fun _ => ⟨0, 0, 0⟩
  methodCount := 0
  objects := fun _ => ⟨0, 0⟩
  objectCount := 0

/-- One data word and two elements of two words each. -/
theorem pairList_never_valid :
    ListSchema (listTable 1 2) 0 1 2 ∧
      (capnpBuildListRoot 72 (fun _ => 42) 1 (fun i => UInt64.ofNat (i + 1)) 2 2).value = 72 ∧
      (capnpValidateMessage ⟨false, apply (fun _ => 0)
          (capnpBuildListRoot 72 (fun _ => 42) 1 (fun i => UInt64.ofNat (i + 1)) 2 2).log⟩ 72
        (some (listTable 1 2)) 0).value = false := by
  have hschema : ListSchema (listTable 1 2) 0 1 2 := by constructor <;> decide
  have hbuilt : (capnpBuildListRoot 72 (fun _ => 42) 1 (fun i => UInt64.ofNat (i + 1)) 2 2).value =
      72 := by decide
  have hrefused := listRoot_never_valid (fun _ => 42) (fun i => UInt64.ofNat (i + 1)) 1 2 2 72
    (by decide) (by decide) (listTable 1 2) 0 hschema (fun _ => 0)
  exact ⟨hschema, hbuilt, hbuilt ▸ hrefused⟩

/-- An empty list, refused. -/
theorem emptyList_refused :
    ListSchema (listTable 0 0) 0 0 0 ∧
      (capnpBuildListRoot 32 (fun _ => 0) 0 (fun _ => 0) 0 0).value = 32 ∧
      ¬ (capnpValidateMessage ⟨false, apply (fun _ => 0)
          (capnpBuildListRoot 32 (fun _ => 0) 0 (fun _ => 0) 0 0).log⟩ 32
        (some (listTable 0 0)) 0).value = true :=
  ⟨by constructor <;> decide, by decide, by decide +kernel⟩

end Capnp
end Saski
