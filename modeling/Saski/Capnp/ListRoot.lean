import Saski.Capnp.Validate
import Saski.Lib.StoreLog

/-!
# Messages with one list (`include/capnp_list.h`)

The boot protocol's encoder and reader: a root struct of plain data words with one
pointer, to a composite list of structs of plain data words.  The encoder only writes,
so it is modelled by its result and the log of its stores; the reader reads through
`w[i]`, one little-endian word of the message, and logs the bytes.

The sizes have the source's types.  Sums and products of them stay far below `2 ^ 64`;
only the shift of the list's word count can lose bits.
-/

namespace Saski
namespace Capnp

open Logged ByteMemory StoreLog

/-! ## The encoder -/

def storeByte (index : Int) (v : Nat) : Logged Store Unit := emit ⟨index, UInt8.ofNat v⟩

/-- `w[i] = v`, where `w` is behind the header. -/
def storeWord (i v : Nat) : Logged Store Unit :=
  withLog () (consecutive (8 + 8 * i) (leBytes 8 v))

/-- `for (j = 0; j < count; j++) w[i++] = src[j];` -/
def storeWords (src : Nat → UInt64) (i : Nat) : (count j : Nat) → Logged Store Unit
  | 0, _ => pure ()
  | count + 1, j => do
      storeWord (i + j) (src j).toNat
      storeWords src i count (j + 1)

/-- `capnp_build_list_root`: the length returned, and the stores to the buffer. -/
def capnpBuildListRoot (bufCap : Nat) (dataWords : Nat → UInt64) (nDataWords : UInt16)
    (elements : Nat → UInt64) (nElements : UInt32) (elemDataWords : UInt16) :
    Logged Store Nat :=
  let elementWords := nElements.toNat * elemDataWords.toNat
  let listBodyWords := 1 + elementWords
  let segWords := 1 + nDataWords.toNat + 1 + listBodyWords
  let total := 8 + segWords * 8
  if bufCap < total then pure 0
  else do
    storeByte 0 0
    storeByte 1 0
    storeByte 2 0
    storeByte 3 0
    storeByte 4 (segWords &&& 0xFF)
    storeByte 5 ((segWords >>> 8) &&& 0xFF)
    storeByte 6 ((segWords >>> 16) &&& 0xFF)
    storeByte 7 ((segWords >>> 24) &&& 0xFF)
    -- The root pointer: a struct at offset 0 with one pointer.
    storeWord 0 ((nDataWords.toNat <<< 32) ||| (1 <<< 48))
    storeWords dataWords 1 nDataWords.toNat 0
    -- The list pointer: offset 0, element size 7, and the words of the list body.
    storeWord (1 + nDataWords.toNat) (1 ||| (7 <<< 32) ||| (listBodyWords <<< 35 % 2 ^ 64))
    -- The tag word: its offset field holds the number of elements.
    storeWord (1 + nDataWords.toNat + 1)
      ((nElements.toNat <<< 2) ||| (elemDataWords.toNat <<< 32))
    storeWords elements (1 + nDataWords.toNat + 2) elementWords 0
    pure total

/-! ## The reader -/

/-- `w[i]`, where `w` is behind the header. -/
def listWord (msg : Int → UInt8) (i : Nat) : Logged Access Nat := readBytes msg (8 + 8 * i) 8

/-- What `capnp_read_list_root` returns and sets: the data section and the first
element, as places in the message, and the number of elements. -/
structure ListRead where
  data : Option Int
  outElements : Option Int
  outCount : Nat
  deriving DecidableEq, Repr

/-- The result on any mismatch: `NULL`, and the outputs as they were initialised. -/
def listMismatch : ListRead := ⟨none, none, 0⟩

/-- The reader from the tag word on. -/
def readListBody (msg : Int → UInt8) (elemDataWords : UInt16) (listBodyWords tagIndex : Nat) :
    Logged Access ListRead := do
  let tag ← listWord msg tagIndex
  if tag &&& 0x3 ≠ 0 then pure listMismatch
  else
    let count := (tag >>> 2) &&& 0x3FFFFFFF
    let tagDataWords := (tag >>> 32) &&& 0xFFFF
    let tagPtrWords := (tag >>> 48) &&& 0xFFFF
    if tagDataWords ≠ elemDataWords.toNat ∨ tagPtrWords ≠ 0 then pure listMismatch
    -- An empty body wraps around here, and is refused by the next test.
    else if elemDataWords.toNat ≠ 0 ∧
        (listBodyWords + 2 ^ 64 - 1) % 2 ^ 64 / elemDataWords.toNat < count then
      pure listMismatch
    else if listBodyWords < 1 + count * elemDataWords.toNat then pure listMismatch
    else pure ⟨some (8 + 8 * 1), some (8 + 8 * (tagIndex + 1 : Nat)), count⟩

/-- `capnp_read_list_root`. -/
def capnpReadListRoot (msg : Int → UInt8) (msgLen : Nat) (dataWords elemDataWords : UInt16) :
    Logged Access ListRead :=
  if msgLen < 8 ∨ (msgLen - 8) % 8 ≠ 0 then pure listMismatch
  else
    let segWordsAvail := (msgLen - 8) / 8
    if segWordsAvail ≤ 1 + dataWords.toNat then pure listMismatch
    else do
      let root ← listWord msg 0
      if root &&& 0x3 ≠ 0 then pure listMismatch
      else
        let rootDataWords := (root >>> 32) &&& 0xFFFF
        let rootPtrWords := (root >>> 48) &&& 0xFFFF
        if rootDataWords ≠ dataWords.toNat ∨ rootPtrWords < 1 then pure listMismatch
        else do
          let listPtrIndex := 1 + dataWords.toNat
          let listPtr ← listWord msg listPtrIndex
          if listPtr &&& 0x3 ≠ 1 then pure listMismatch
          else if (listPtr >>> 32) &&& 0x7 ≠ 7 then pure listMismatch
          else
            let listBodyWords := (listPtr >>> 35) &&& 0x1FFFFFFF
            let tagIndex := listPtrIndex + 1
            if segWordsAvail ≤ tagIndex ∨ segWordsAvail - tagIndex < listBodyWords then
              pure listMismatch
            else readListBody msg elemDataWords listBodyWords tagIndex

/-! ## What the encoder writes -/

/-- The stores of words, from `w[i]` on. -/
def wordStores (i : Nat) (words : List Nat) : List Store :=
  consecutive (8 + 8 * i) (words.flatMap (leBytes 8))

theorem wordStores_append (i : Nat) (l r : List Nat) :
    wordStores i (l ++ r) = wordStores i l ++ wordStores (i + l.length) r := by
  rw [wordStores, List.flatMap_append, consecutive_append, length_flatMap_leBytes]
  simp only [wordStores, Nat.cast_add, Nat.cast_mul, Nat.cast_ofNat, Int.mul_add, Int.add_assoc]

theorem log_storeWord (i v : Nat) : (storeWord i v).log = wordStores i [v] := by
  simp [storeWord, wordStores]

theorem log_storeWords (src : Nat → UInt64) (i count j : Nat) :
    (storeWords src i count j).log =
      wordStores (i + j) ((List.range' j count).map fun j => (src j).toNat) := by
  induction count generalizing j with
  | zero => rfl
  | succ count ih =>
      rw [storeWords, log_bind, ih, log_storeWord, List.range'_succ, List.map_cons,
        ← List.singleton_append, wordStores_append]
      rfl

section Encoder

variable (dataWords : Nat → UInt64) (nDataWords : UInt16) (elements : Nat → UInt64)
  (nElements : UInt32) (elemDataWords : UInt16)

/-- The words of the segment: root pointer, data section, list pointer, tag, elements. -/
def listRootWords : List Nat :=
  [(nDataWords.toNat <<< 32) ||| (1 <<< 48)] ++
    ((List.range nDataWords.toNat).map (fun j => (dataWords j).toNat) ++
    ([1 ||| (7 <<< 32) ||| ((1 + nElements.toNat * elemDataWords.toNat) <<< 35 % 2 ^ 64)] ++
    ([(nElements.toNat <<< 2) ||| (elemDataWords.toNat <<< 32)] ++
    (List.range (nElements.toNat * elemDataWords.toNat)).map fun j => (elements j).toNat)))

/-- The number of words of the segment. -/
def segWords : Nat := 1 + nDataWords.toNat + 1 + (1 + nElements.toNat * elemDataWords.toNat)

/-- The header: one segment, and its length. -/
def listRootHeader (segWords : Nat) : List UInt8 :=
  [0, 0, 0, 0, UInt8.ofNat (segWords &&& 0xFF), UInt8.ofNat ((segWords >>> 8) &&& 0xFF),
    UInt8.ofNat ((segWords >>> 16) &&& 0xFF), UInt8.ofNat ((segWords >>> 24) &&& 0xFF)]

/-- The whole message. -/
def listRootBytes : List UInt8 :=
  listRootHeader (segWords nDataWords nElements elemDataWords) ++
    (listRootWords dataWords nDataWords elements nElements elemDataWords).flatMap (leBytes 8)

theorem length_listRootWords :
    (listRootWords dataWords nDataWords elements nElements elemDataWords).length =
      segWords nDataWords nElements elemDataWords := by
  simp only [listRootWords, segWords, List.length_append, List.length_singleton, List.length_map,
    List.length_range]
  omega

theorem length_listRootBytes :
    (listRootBytes dataWords nDataWords elements nElements elemDataWords).length =
      8 + segWords nDataWords nElements elemDataWords * 8 := by
  rw [listRootBytes, List.length_append, length_flatMap_leBytes, length_listRootWords, Nat.mul_comm]
  rfl

variable {bufCap : Nat}

/-- A buffer that is large enough gets the message, and nothing else is written. -/
theorem capnpBuildListRoot_eq
    (hcap : 8 + segWords nDataWords nElements elemDataWords * 8 ≤ bufCap) :
    (capnpBuildListRoot bufCap dataWords nDataWords elements nElements elemDataWords).value =
        8 + segWords nDataWords nElements elemDataWords * 8 ∧
      (capnpBuildListRoot bufCap dataWords nDataWords elements nElements elemDataWords).log =
        consecutive 0 (listRootBytes dataWords nDataWords elements nElements elemDataWords) := by
  unfold segWords at hcap
  unfold capnpBuildListRoot
  rw [if_neg (by omega)]
  refine ⟨rfl, ?_⟩
  have hheader : ∀ s : Nat, consecutive 0 (listRootHeader s) =
      (storeByte 0 0).log ++ (storeByte 1 0).log ++ (storeByte 2 0).log ++ (storeByte 3 0).log ++
        (storeByte 4 (s &&& 0xFF)).log ++ (storeByte 5 ((s >>> 8) &&& 0xFF)).log ++
        (storeByte 6 ((s >>> 16) &&& 0xFF)).log ++ (storeByte 7 ((s >>> 24) &&& 0xFF)).log :=
    fun _ => rfl
  have hwords : wordStores 0 (listRootWords dataWords nDataWords elements nElements elemDataWords) =
      consecutive (0 + (listRootHeader (segWords nDataWords nElements elemDataWords)).length)
        ((listRootWords dataWords nDataWords elements nElements elemDataWords).flatMap
          (leBytes 8)) := rfl
  rw [listRootBytes, consecutive_append, ← hwords, hheader]
  simp only [log_bind, log_storeWord, log_storeWords, log_pure, ← List.range_eq_range',
    listRootWords, segWords, wordStores_append, List.append_assoc, List.append_nil,
    List.length_singleton, List.length_map, List.length_range, Nat.zero_add, Nat.add_zero]

/-- A word of the message is read back. -/
theorem value_listWord (buf : Int → UInt8) {i v : Nat}
    (hi : (listRootWords dataWords nDataWords elements nElements elemDataWords)[i]? = some v)
    (hv : v < 2 ^ 64) :
    (listWord (apply buf (consecutive 0
      (listRootBytes dataWords nDataWords elements nElements elemDataWords))) i).value = v := by
  have hword := littleEndian_words (n := 8) (apply buf (consecutive 0
    (listRootHeader (segWords nDataWords nElements elemDataWords)))) 8 hi
  rw [Nat.mod_eq_of_lt hv] at hword
  rw [listRootBytes, consecutive_append, apply_append]
  exact hword

end Encoder

/-! ## The fields of the three pointer words -/

/-- A field above the bits of another number. -/
theorem or_shiftLeft {a b k : Nat} (hb : b < 2 ^ k) : b ||| (a <<< k) = b + a * 2 ^ k := by
  rw [Nat.shiftLeft_eq, Nat.mul_comm, Nat.or_comm, ← Nat.two_pow_add_eq_or_of_lt hb, Nat.add_comm]

theorem and_three (w : Nat) : w &&& 0x3 = w % 4 := Nat.and_two_pow_sub_one_eq_mod w 2

/-- The root pointer. -/
theorem rootWord_fields {n : Nat} (hn : n < 2 ^ 16) :
    ∃ w, (n <<< 32) ||| (1 <<< 48) = w ∧ w < 2 ^ 64 ∧ w ≠ 0 ∧ w &&& 0x3 = 0 ∧
      w / 4 % 2 ^ 30 = 0 ∧ (w >>> 32) &&& 0xFFFF = n ∧ (w >>> 48) &&& 0xFFFF = 1 := by
  have hw : (n <<< 32) ||| (1 <<< 48) = n * 2 ^ 32 + 2 ^ 48 := by
    rw [or_shiftLeft (by rw [Nat.shiftLeft_eq]; omega), Nat.shiftLeft_eq]
    omega
  have h16 := shiftRight_and_mask (n * 2 ^ 32 + 2 ^ 48) 32 16
  have h48 := shiftRight_and_mask (n * 2 ^ 32 + 2 ^ 48) 48 16
  refine ⟨n * 2 ^ 32 + 2 ^ 48, hw, by omega, by omega, ?_, by omega, ?_, ?_⟩
  · rw [and_three]
    omega
  · exact h16.trans (by omega)
  · exact h48.trans (by omega)

/-- The list pointer. -/
theorem listPtrWord_fields {body : Nat} (hbody : body < 2 ^ 29) :
    ∃ w, 1 ||| (7 <<< 32) ||| (body <<< 35 % 2 ^ 64) = w ∧ w < 2 ^ 64 ∧ w ≠ 0 ∧ w &&& 0x3 = 1 ∧
      w / 4 % 2 ^ 30 = 0 ∧ (w >>> 32) &&& 0x7 = 7 ∧ (w >>> 35) &&& 0x1FFFFFFF = body := by
  have hw : 1 ||| (7 <<< 32) ||| (body <<< 35 % 2 ^ 64) = 1 + 7 * 2 ^ 32 + body * 2 ^ 35 := by
    rw [Nat.mod_eq_of_lt (by rw [Nat.shiftLeft_eq]; omega), or_shiftLeft (by decide)]
    rfl
  have h32 := shiftRight_and_mask (1 + 7 * 2 ^ 32 + body * 2 ^ 35) 32 3
  have h35 := shiftRight_and_mask (1 + 7 * 2 ^ 32 + body * 2 ^ 35) 35 29
  refine ⟨1 + 7 * 2 ^ 32 + body * 2 ^ 35, hw, by omega, by omega, ?_, by omega, ?_, ?_⟩
  · rw [and_three]
    omega
  · exact h32.trans (by omega)
  · exact h35.trans (by omega)

/-- The tag word. -/
theorem tagWord_fields {count e : Nat} (hcount : count < 2 ^ 30) (he : e < 2 ^ 16) :
    ∃ w, (count <<< 2) ||| (e <<< 32) = w ∧ w < 2 ^ 64 ∧ w &&& 0x3 = 0 ∧
      (w >>> 2) &&& 0x3FFFFFFF = count ∧ (w >>> 32) &&& 0xFFFF = e ∧
      (w >>> 48) &&& 0xFFFF = 0 := by
  have hw : (count <<< 2) ||| (e <<< 32) = count * 4 + e * 2 ^ 32 := by
    rw [or_shiftLeft (by rw [Nat.shiftLeft_eq]; omega), Nat.shiftLeft_eq]
  have h2 := shiftRight_and_mask (count * 4 + e * 2 ^ 32) 2 30
  have h32 := shiftRight_and_mask (count * 4 + e * 2 ^ 32) 32 16
  have h48 := shiftRight_and_mask (count * 4 + e * 2 ^ 32) 48 16
  refine ⟨count * 4 + e * 2 ^ 32, hw, by omega, ?_, ?_, ?_, ?_⟩
  · rw [and_three]
    omega
  · exact h2.trans (by omega)
  · exact h32.trans (by omega)
  · exact h48.trans (by omega)

/-! ## The round trip -/

section RoundTrip

variable (dataWords : Nat → UInt64) (nDataWords : UInt16) (elements : Nat → UInt64)
  (nElements : UInt32) (elemDataWords : UInt16)

/-- The places of the words in the segment. -/
theorem getElem?_listRootWords :
    (listRootWords dataWords nDataWords elements nElements elemDataWords)[0]? =
        some ((nDataWords.toNat <<< 32) ||| (1 <<< 48)) ∧
      (∀ j < nDataWords.toNat,
        (listRootWords dataWords nDataWords elements nElements elemDataWords)[1 + j]? =
          some (dataWords j).toNat) ∧
      (listRootWords dataWords nDataWords elements nElements elemDataWords)[1 +
          nDataWords.toNat]? =
        some (1 ||| (7 <<< 32) ||| ((1 + nElements.toNat * elemDataWords.toNat) <<< 35 % 2 ^ 64)) ∧
      (listRootWords dataWords nDataWords elements nElements elemDataWords)[1 +
          nDataWords.toNat + 1]? =
        some ((nElements.toNat <<< 2) ||| (elemDataWords.toNat <<< 32)) ∧
      (∀ j < nElements.toNat * elemDataWords.toNat,
        (listRootWords dataWords nDataWords elements nElements elemDataWords)[1 +
            nDataWords.toNat + 2 + j]? =
          some (elements j).toNat) := by
  have hone : ∀ (a k : Nat) (r : List Nat), ([a] ++ r)[1 + k]? = r[k]? := by
    intro a k r
    rw [Nat.add_comm]
    rfl
  have hlen : ((List.range nDataWords.toNat).map fun j => (dataWords j).toNat).length =
      nDataWords.toNat := by simp
  have hdata : ∀ (k : Nat) (r : List Nat), ((List.range nDataWords.toNat).map
      (fun j => (dataWords j).toNat) ++ r)[nDataWords.toNat + k]? = r[k]? := by
    intro k r
    rw [List.getElem?_append_right (by omega), hlen, Nat.add_sub_cancel_left]
  unfold listRootWords
  refine ⟨rfl, fun j hj => ?_, ?_, ?_, fun j hj => ?_⟩
  · rw [hone, List.getElem?_append_left (by omega)]
    simp [hj]
  · rw [hone]
    exact hdata 0 _
  · rw [Nat.add_assoc, hone]
    exact hdata 1 _
  · rw [Nat.add_assoc, Nat.add_assoc, hone, hdata, show 2 + j = 1 + (1 + j) by omega, hone, hone]
    simp [hj]

variable {nElements elemDataWords}

/-- The reader accepts a list body that holds its elements exactly. -/
theorem value_readListBody {msg : Int → UInt8} {tagIndex : Nat}
    (htag : (listWord msg tagIndex).value =
      (nElements.toNat <<< 2) ||| (elemDataWords.toNat <<< 32))
    (hcount : nElements.toNat < 2 ^ 30)
    (hbody : 1 + nElements.toNat * elemDataWords.toNat < 2 ^ 29) :
    (readListBody msg elemDataWords (1 + nElements.toNat * elemDataWords.toNat) tagIndex).value =
      ⟨some (8 + 8 * 1), some (8 + 8 * (tagIndex + 1 : Nat)), nElements.toNat⟩ := by
  obtain ⟨tag, htagEq, -, htag3, htagCount, htagData, htagPtr⟩ :=
    tagWord_fields hcount elemDataWords.toNat_lt
  -- The quotient of the words behind the tag is the number of elements.
  have hquot : ¬ (elemDataWords.toNat ≠ 0 ∧
      (1 + nElements.toNat * elemDataWords.toNat + 2 ^ 64 - 1) % 2 ^ 64 / elemDataWords.toNat <
        nElements.toNat) := by
    rintro ⟨hne, hlt⟩
    rw [show 1 + nElements.toNat * elemDataWords.toNat + 2 ^ 64 - 1 =
        nElements.toNat * elemDataWords.toNat + 2 ^ 64 by omega, Nat.add_mod_right,
      Nat.mod_eq_of_lt (by omega), Nat.mul_div_cancel _ (Nat.pos_of_ne_zero hne)] at hlt
    exact lt_irrefl _ hlt
  unfold readListBody
  rw [value_bind, htag, htagEq, htag3, if_neg (by simp)]
  simp only [htagCount, htagData, htagPtr]
  rw [if_neg (by simp), if_neg hquot, if_neg (lt_irrefl _), value_pure]

/-- The reader accepts the message, with the list where it is. -/
theorem value_capnpReadListRoot (hcount : nElements.toNat < 2 ^ 30)
    (hbody : 1 + nElements.toNat * elemDataWords.toNat < 2 ^ 29) (buf : Int → UInt8) :
    (capnpReadListRoot (apply buf (consecutive 0
        (listRootBytes dataWords nDataWords elements nElements elemDataWords)))
      (8 + segWords nDataWords nElements elemDataWords * 8) nDataWords elemDataWords).value =
      ⟨some (8 + 8 * 1), some (8 + 8 * (1 + nDataWords.toNat + 2 : Nat)), nElements.toNat⟩ := by
  obtain ⟨hroot, -, hlist, htag, -⟩ :=
    getElem?_listRootWords dataWords nDataWords elements nElements elemDataWords
  obtain ⟨root, hrootEq, hrootLt, -, hroot3, -, hrootData, hrootPtr⟩ :=
    rootWord_fields nDataWords.toNat_lt
  obtain ⟨list, hlistEq, hlistLt, -, hlist3, -, hlistSize, hlistBody⟩ := listPtrWord_fields hbody
  obtain ⟨tag, htagEq, htagLt, -⟩ := tagWord_fields hcount elemDataWords.toNat_lt
  have hrootWord := value_listWord _ _ _ _ _ buf hroot (hrootEq ▸ hrootLt)
  have hlistWord := value_listWord _ _ _ _ _ buf hlist (hlistEq ▸ hlistLt)
  have htagWord := value_listWord _ _ _ _ _ buf htag (htagEq ▸ htagLt)
  have hlistValue := value_readListBody htagWord hcount hbody
  generalize apply buf (consecutive 0
    (listRootBytes dataWords nDataWords elements nElements elemDataWords)) = msg at *
  have havail : (8 + segWords nDataWords nElements elemDataWords * 8 - 8) / 8 =
      1 + nDataWords.toNat + 1 + (1 + nElements.toNat * elemDataWords.toNat) := by
    unfold segWords
    omega
  unfold capnpReadListRoot
  rw [if_neg (by omega)]
  simp only [havail]
  rw [if_neg (by omega), value_bind, hrootWord, hrootEq, hroot3, if_neg (by simp)]
  simp only [hrootData, hrootPtr]
  rw [if_neg (by simp), value_bind, hlistWord, hlistEq, hlist3, if_neg (by simp), hlistSize,
    if_neg (by simp)]
  simp only [hlistBody]
  rw [if_neg (by omega), hlistValue]

/-- **Decoding undoes encoding.** -/
theorem listRoot_roundtrip (dataWords elements : Nat → UInt64) (nDataWords elemDataWords : UInt16)
    (nElements : UInt32) (hcount : nElements.toNat < 2 ^ 30)
    (hbody : 1 + nElements.toNat * elemDataWords.toNat < 2 ^ 29) (total : Nat)
    (htotal : total = 8 * (4 + nDataWords.toNat + nElements.toNat * elemDataWords.toNat))
    (bufCap : Nat) (hcap : total ≤ bufCap) (buf : Int → UInt8) :
    ∃ log, capnpBuildListRoot bufCap dataWords nDataWords elements nElements elemDataWords =
        ⟨total, log⟩ ∧
      (∀ s ∈ log, 0 ≤ s.index ∧ s.index < total) ∧
      ∃ data first : Int,
        (capnpReadListRoot (apply buf log) total nDataWords elemDataWords).value =
          ⟨some data, some first, nElements.toNat⟩ ∧
        (∀ j < nDataWords.toNat,
          littleEndian (fun k => apply buf log (data + 8 * j + k)) 8 = (dataWords j).toNat) ∧
        ∀ j < nElements.toNat * elemDataWords.toNat,
          littleEndian (fun k => apply buf log (first + 8 * j + k)) 8 = (elements j).toNat := by
  have htotal' : 8 + segWords nDataWords nElements elemDataWords * 8 = total := by
    rw [htotal, segWords]
    omega
  obtain ⟨hvalue, hlog⟩ := capnpBuildListRoot_eq dataWords nDataWords elements nElements
    elemDataWords (htotal'.le.trans hcap)
  have hread := value_capnpReadListRoot dataWords nDataWords elements hcount hbody buf
  obtain ⟨-, hdata, -, -, helements⟩ :=
    getElem?_listRootWords dataWords nDataWords elements nElements elemDataWords
  refine ⟨consecutive 0 (listRootBytes dataWords nDataWords elements nElements elemDataWords),
    ?_, fun s hs => ?_, 8 + 8 * 1, 8 + 8 * (1 + nDataWords.toNat + 2 : Nat), ?_, fun j hj => ?_,
    fun j hj => ?_⟩
  · rw [← hlog, ← htotal', ← hvalue]
  · have hindex := index_of_mem_consecutive hs
    rw [length_listRootBytes, htotal', Int.zero_add] at hindex
    exact hindex
  · rw [← htotal']
    exact hread
  · have hword := value_listWord _ _ _ _ _ buf (hdata j hj) (dataWords j).toNat_lt
    rw [← hword, Int.add_assoc 8, ← Int.mul_add]
    rfl
  · have hword := value_listWord _ _ _ _ _ buf (helements j hj) (elements j).toNat_lt
    rw [← hword, Int.add_assoc 8, ← Int.mul_add]
    rfl

/-- One data word and two elements of one word. -/
theorem sample_listRoot_roundtrip :
    ∃ log, capnpBuildListRoot 64 (fun _ => 5) 1 (fun j => j.toUInt64) 2 1 = ⟨56, log⟩ ∧
      ∃ data first : Int,
        (capnpReadListRoot (apply (fun _ => 0) log) 56 1 1).value = ⟨some data, some first, 2⟩ ∧
        littleEndian (fun k => apply (fun _ => 0) log (first + 8 * 1 + k)) 8 = 1 := by
  obtain ⟨log, hbuild, -, data, first, hread, -, helements⟩ :=
    listRoot_roundtrip (fun _ => 5) (fun j => j.toUInt64) 1 1 2 (by decide) (by decide) 56
      (by decide) 64 (by decide) (fun _ => 0)
  exact ⟨log, hbuild, data, first, hread, helements 1 (by decide)⟩

end RoundTrip

end Capnp
end Saski
