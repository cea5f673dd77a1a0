import Saski.Capnp.Reader

/-!
# The slots the validator checks

`capnp_validate_message` walks from the root through every declared slot.  This
module names the slots of that walk without reference to the run
(`Checks`), and asks of each what the header of the validator promises.

* `checks_accepted`: in an accepted message every checked slot was accepted, at
  some remaining depth.
* `capnpValidateMessage_points_inside_iff`: the struct and list pointers in the
  checked slots lead into the segment exactly if those in `PTR_SCHEMA_ANY`
  slots do.  For that kind the code looks at the tag and at nothing else.
* `capnpValidateMessage_tags_sound_iff`: the composite lists in the checked
  slots are well formed exactly if their tag words carry the tag of a struct
  pointer.  The code decodes the tag word as a pointer of whatever kind it says,
  and for the other kinds the section sizes are left at zero.
-/

namespace Saski
namespace Capnp

open Logged ByteMemory

mutual

/-- The slots checked below the struct at `off` with the given section sizes,
read as the struct schema of index `schema`: the place of a slot and what the
table declares there. -/
inductive StructChecks (m : CapnpMsg) (table : SchemaTable) :
    (off : Int) → (dataWords ptrWords schema : Nat) → Int → PointerSchema → Prop
  | slot {off : Int} {dataWords ptrWords schema i : Nat} {place : Int} {declared : PointerSchema}
      (hschema : schema ≠ schemaIdxNone)
      (hi : i < min (table.structs schema).pointerCount ptrWords)
      (hslot : SlotChecks m table (off + dataWords + i)
        (table.pointers ((table.structs schema).firstPointer + i)) place declared) :
      StructChecks m table off dataWords ptrWords schema place declared

/-- The slots checked from the pointer slot at `off` on, itself included. -/
inductive SlotChecks (m : CapnpMsg) (table : SchemaTable) :
    (off : Int) → (pschema : PointerSchema) → Int → PointerSchema → Prop
  | here {off : Int} {pschema : PointerSchema} : SlotChecks m table off pschema off pschema
  | struct {off : Int} {pschema : PointerSchema} {place : Int} {declared : PointerSchema}
      (hkind : pschema.kind = .struct) (hnull : (ptrAt m off).tag ≠ .null)
      (hstruct : StructChecks m table (targetAt m off) (ptrAt m off).dataWords
        (ptrAt m off).ptrWords pschema.elementStruct place declared) :
      SlotChecks m table off pschema place declared
  | compositeElement {off : Int} {pschema : PointerSchema} {i : Nat} {place : Int}
      {declared : PointerSchema}
      (hkind : pschema.kind = .list) (hnull : (ptrAt m off).tag ≠ .null)
      (hsize : (ptrAt m off).elementSize = 7)
      (hi : i < compositeCount (ptrAt m (targetAt m off)))
      (helement : StructChecks m table
        (targetAt m off + 1 + (i * ((ptrAt m (targetAt m off)).dataWords +
          (ptrAt m (targetAt m off)).ptrWords) : Nat))
        (ptrAt m (targetAt m off)).dataWords (ptrAt m (targetAt m off)).ptrWords
        pschema.elementStruct place declared) :
      SlotChecks m table off pschema place declared

end

/-- The slots checked in a whole message.  A null root is the struct with empty
sections, which has no slots. -/
def Checks (msg : Buffer) (table : SchemaTable) (schema : Nat) (place : Int)
    (declared : PointerSchema) : Prop :=
  (ptrAt (segmentOf msg) 0).tag ≠ .null ∧
    StructChecks (segmentOf msg) table (targetAt (segmentOf msg) 0)
      (ptrAt (segmentOf msg) 0).dataWords (ptrAt (segmentOf msg) 0).ptrWords schema place declared

/-- The slot was accepted with some number of levels left below it. -/
def Accepted (m : CapnpMsg) (table : SchemaTable) : SlotPred :=
  fun off pschema => ∃ levels,
    SlotAccepts m (fun o d p s => (validateStructAt m table levels o d p s).value = true)
      off pschema

section Accepted

variable {m : CapnpMsg} {table : SchemaTable} {place : Int} {declared : PointerSchema}

/-- The slots checked below an accepted struct are accepted, if those from each
of its own slots on are. -/
theorem accepted_of_structChecks {slot : SlotPred}
    (hslot : ∀ off pschema, slot off pschema → SlotChecks m table off pschema place declared →
      Accepted m table place declared)
    {off : Int} {dataWords ptrWords schema : Nat}
    (haccept : StructAccepts table slot off dataWords ptrWords schema)
    (hchecks : StructChecks m table off dataWords ptrWords schema place declared) :
    Accepted m table place declared := by
  cases hchecks with
  | slot hschema hi hrest =>
      obtain ⟨-, -, hslots⟩ := haccept.resolve_left hschema
      obtain ⟨-, -, hone⟩ := hslots _ hi
      exact hslot _ _ hone hrest

/-- Induction on the levels the validator had left, as for the reader: a slot
accepted with `levels + 1` only leads to structs whose slots were accepted with
`levels`. -/
theorem accepted_of_slotChecks (levels : Nat) (off : Int) (pschema : PointerSchema)
    (haccept : (validatePointerSlot m table levels off pschema).value = true)
    (hchecks : SlotChecks m table off pschema place declared) :
    Accepted m table place declared := by
  induction levels generalizing off pschema with
  | zero =>
      rw [value_validatePointerSlot_zero] at haccept
      exact absurd haccept Bool.false_ne_true
  | succ levels ih =>
      rw [value_validatePointerSlot_succ] at haccept
      obtain ⟨hword, htarget⟩ := haccept
      cases hchecks with
      | here => exact ⟨levels, hword, htarget⟩
      | struct hkind hnull hstruct =>
          have hpointer := htarget.resolve_left hnull
          simp only [TargetAccepts, hkind] at hpointer
          obtain ⟨-, -, hchild⟩ := hpointer
          rw [value_validateStructAt] at hchild
          exact accepted_of_structChecks ih hchild hstruct
      | compositeElement hkind hnull hsize hi helement =>
          have hlist := htarget.resolve_left hnull
          simp only [TargetAccepts, hkind] at hlist
          obtain ⟨-, -, helements⟩ := hlist.2.2.1 hsize
          have hchild := (value_validateStructAt m table levels _ _ _ _).mp (helements _ hi)
          exact accepted_of_structChecks ih hchild helement

end Accepted

/-- `SCHEMA_IDX_NONE` opts a message out: none of its slots is checked. -/
theorem schema_ne_none_of_checks {msg : Buffer} {table : SchemaTable} {schema : Nat} {place : Int}
    {declared : PointerSchema} (h : Checks msg table schema place declared) :
    schema ≠ schemaIdxNone := by
  obtain ⟨-, hstruct⟩ := h
  cases hstruct with
  | slot hschema hi hslot => exact hschema

/-- **In an accepted message every checked slot was accepted.** -/
theorem checks_accepted {msg : Buffer} {len : Nat} {table : SchemaTable} {schema : Nat}
    (haccept : (capnpValidateMessage msg len (some table) schema).value = true) {place : Int}
    {declared : PointerSchema} (hchecks : Checks msg table schema place declared) :
    Accepted (segmentOf msg) table place declared := by
  have hschema := schema_ne_none_of_checks hchecks
  rw [value_capnpValidateMessage msg len table hschema] at haccept
  obtain ⟨-, -, -, -, -, hroot⟩ := haccept
  obtain ⟨hnull, hstruct⟩ := hchecks
  rcases hroot with ⟨hisNull, -⟩ | ⟨-, -, hvalid⟩
  · exact absurd hisNull hnull
  · rw [value_validateStructAt] at hvalid
    exact accepted_of_structChecks (accepted_of_slotChecks _) hvalid hstruct

/-! ## Where the pointers lead -/

/-- The words of the list a list pointer names: the tag word and the elements of
a composite list, and otherwise the elements, rounded up to whole words. -/
def listWords (ptr : CapnpPtr) : Nat :=
  if ptr.elementSize = 7 then ptr.elementCount + 1
  else (bitsPerElem ptr.elementSize * ptr.elementCount + 63) / 64

/-- A struct or list pointer at `off` leads into the segment with the whole of
its immediate target. -/
def PointsInside (m : CapnpMsg) (off : Int) : Prop :=
  ((ptrAt m off).tag = .struct →
      inBounds m (targetAt m off) ((ptrAt m off).dataWords + (ptrAt m off).ptrWords) = true) ∧
    ((ptrAt m off).tag = .list →
      inBounds m (targetAt m off) (listWords (ptrAt m off)) = true)

instance (m : CapnpMsg) (off : Int) : Decidable (PointsInside m off) :=
  inferInstanceAs (Decidable (_ ∧ _))

theorem pointsInside_of_list {m : CapnpMsg} {off : Int} (htag : (ptrAt m off).tag = .list)
    (hin : inBounds m (targetAt m off) (listWords (ptrAt m off)) = true) : PointsInside m off :=
  ⟨fun hstruct => absurd (htag.symm.trans hstruct) (by decide), fun _ => hin⟩

/-- Null and capability pointers lead nowhere. -/
theorem pointsInside_of_other {m : CapnpMsg} {off : Int} (hstruct : (ptrAt m off).tag ≠ .struct)
    (hlist : (ptrAt m off).tag ≠ .list) : PointsInside m off :=
  ⟨fun h => absurd h hstruct, fun h => absurd h hlist⟩

/-- `PTR_SCHEMA_TEXT` and `PTR_SCHEMA_DATA` count the words of a byte list. -/
theorem listWords_of_bytes {ptr : CapnpPtr} (hsize : ptr.elementSize = 2) :
    listWords ptr = (ptr.elementCount + 7) / 8 := by
  unfold listWords
  rw [hsize, if_neg (by decide)]
  change (8 * ptr.elementCount + 63) / 64 = _
  omega

/-- Every kind but `PTR_SCHEMA_ANY` checks where the pointer leads. -/
theorem pointsInside_of_targetAccepts {m : CapnpMsg} {child : StructPred} {off : Int}
    {pschema : PointerSchema} (hkind : pschema.kind ≠ .any)
    (haccept : TargetAccepts m child pschema (ptrAt m off) (targetAt m off)) :
    PointsInside m off := by
  unfold TargetAccepts at haccept
  cases hdeclared : pschema.kind with
  | any => exact absurd hdeclared hkind
  | capability =>
      rw [hdeclared] at haccept
      have htag : (ptrAt m off).tag = .capability := haccept
      exact pointsInside_of_other (by simp [htag]) (by simp [htag])
  | struct =>
      rw [hdeclared] at haccept
      obtain ⟨htag, hin, -⟩ := haccept
      exact ⟨fun _ => hin, fun hlist => absurd (htag.symm.trans hlist) (by decide)⟩
  | text =>
      rw [hdeclared] at haccept
      obtain ⟨htag, hsize, hin⟩ := haccept
      exact pointsInside_of_list htag (by rwa [listWords_of_bytes hsize])
  | data =>
      rw [hdeclared] at haccept
      obtain ⟨htag, hsize, hin⟩ := haccept
      exact pointsInside_of_list htag (by rwa [listWords_of_bytes hsize])
  | list =>
      rw [hdeclared] at haccept
      obtain ⟨htag, -, hcomposite, hflat⟩ := haccept
      refine pointsInside_of_list htag ?_
      unfold listWords
      by_cases hsize : (ptrAt m off).elementSize = 7
      · rw [if_pos hsize]
        exact (hcomposite hsize).1
      · rw [if_neg hsize]
        exact hflat hsize
  | unknown raw =>
      rw [hdeclared] at haccept
      exact haccept.elim

theorem pointsInside_of_accepted {m : CapnpMsg} {table : SchemaTable} {off : Int}
    {pschema : PointerSchema} (hkind : pschema.kind ≠ .any)
    (haccept : Accepted m table off pschema) : PointsInside m off := by
  obtain ⟨levels, -, htarget⟩ := haccept
  rcases htarget with hnull | htarget
  · exact pointsInside_of_other (by simp [hnull]) (by simp [hnull])
  · exact pointsInside_of_targetAccepts hkind htarget

/-- **Where the accepted pointers lead.**  In an accepted message the struct and
list pointers of all checked slots lead into the segment exactly if those in the
slots declared `PTR_SCHEMA_ANY` do. -/
theorem capnpValidateMessage_points_inside_iff (msg : Buffer) (len : Nat) (table : SchemaTable)
    (schema : Nat)
    (haccept : (capnpValidateMessage msg len (some table) schema).value = true) :
    (∀ place declared, Checks msg table schema place declared →
        PointsInside (segmentOf msg) place) ↔
      ∀ place declared, Checks msg table schema place declared → declared.kind = .any →
        PointsInside (segmentOf msg) place := by
  constructor
  · intro h place declared hchecks _
    exact h place declared hchecks
  · intro h place declared hchecks
    by_cases hkind : declared.kind = .any
    · exact h place declared hchecks hkind
    · exact pointsInside_of_accepted hkind (checks_accepted haccept hchecks)

/-- A message of two words: the root struct and its only pointer. -/
def onePointerMessage (pointer : List UInt8) : Buffer :=
  Buffer.ofList ([0, 0, 0, 0, 2, 0, 0, 0] ++ [0, 0, 0, 0, 0, 0, 1, 0] ++ pointer)

/-- One struct with one slot, which takes any pointer. -/
def anySlotTable : SchemaTable where
  structs := fun _ => ⟨0, 1, 0⟩
  structCount := 1
  pointers := fun _ => ⟨.any, schemaIdxNone, 0⟩
  pointerCount := 1
  methods := fun _ => ⟨0, schemaIdxNone, schemaIdxNone⟩
  methodCount := 0
  objects := fun _ => ⟨0, 0⟩
  objectCount := 0

/-- A struct pointer with one data word, 100 words further on. -/
def farAwayPointer : List UInt8 := [0x90, 1, 0, 0, 1, 0, 0, 0]

/-- A struct pointer to the word it stands in. -/
def selfPointer : List UInt8 := [0xFC, 0xFF, 0xFF, 0xFF, 0, 0, 1, 0]

/-- The slot of `anySlotTable` accepts a pointer that leads past the end of the
segment. -/
theorem anySlot_points_outside :
    (capnpValidateMessage (onePointerMessage farAwayPointer) 24 (some anySlotTable) 0).value =
        true ∧
      ¬ ∀ place declared, Checks (onePointerMessage farAwayPointer) anySlotTable 0 place declared →
        PointsInside (segmentOf (onePointerMessage farAwayPointer)) place := by
  refine ⟨by decide, fun h => ?_⟩
  have hchecks : Checks (onePointerMessage farAwayPointer) anySlotTable 0 1
      ⟨.any, schemaIdxNone, 0⟩ :=
    ⟨by decide, StructChecks.slot (i := 0) (by decide) (by decide) SlotChecks.here⟩
  exact absurd (h 1 _ hchecks) (by decide)

/-- A pointer into the segment in the same slot. -/
theorem anySlot_points_inside :
    (capnpValidateMessage (onePointerMessage selfPointer) 24 (some anySlotTable) 0).value = true ∧
      Checks (onePointerMessage selfPointer) anySlotTable 0 1 ⟨.any, schemaIdxNone, 0⟩ ∧
      ∀ place declared, Checks (onePointerMessage selfPointer) anySlotTable 0 place declared →
        PointsInside (segmentOf (onePointerMessage selfPointer)) place := by
  have haccept :
      (capnpValidateMessage (onePointerMessage selfPointer) 24 (some anySlotTable) 0).value =
        true := by
    decide
  refine ⟨haccept, ⟨by decide, StructChecks.slot (i := 0) (by decide) (by decide) .here⟩, ?_⟩
  refine (capnpValidateMessage_points_inside_iff _ 24 anySlotTable 0 haccept).mpr ?_
  intro place declared hchecks _
  obtain ⟨-, hstruct⟩ := hchecks
  cases hstruct with
  | slot hschema hi hslot =>
      -- A slot that takes anything is not followed, so it is the only one.
      cases hslot with
      | here =>
          obtain rfl := Nat.lt_one_iff.mp (lt_of_lt_of_le hi (min_le_left 1 _))
          decide
      | struct hkind hnull hbelow => cases hkind
      | compositeElement hkind hnull hsize hlt helement => cases hkind

/-! ## The tag words of composite lists -/

/-- The tag word of the composite list that the pointer at `off` names. -/
def tagWordAt (m : CapnpMsg) (off : Int) : Nat := (readWord m (targetAt m off)).value

/-- What `capnp_read_list_root` asks of a tag word before it trusts it: the tag
of a struct pointer, and elements that fit into the words of the list. -/
def TagSound (m : CapnpMsg) (off : Int) : Prop :=
  tagWordAt m off % 4 = 0 ∧
    (tagWordAt m off / 4 % 2 ^ 30) *
        (tagWordAt m off / 2 ^ 32 % 2 ^ 16 + tagWordAt m off / 2 ^ 48 % 2 ^ 16) ≤
      (ptrAt m off).elementCount

/-- A checked list slot at `place` holds a pointer to a composite list. -/
def CompositeChecks (msg : Buffer) (table : SchemaTable) (schema : Nat) (place : Int) : Prop :=
  ∃ declared, Checks msg table schema place declared ∧ declared.kind = .list ∧
    (ptrAt (segmentOf msg) place).tag = .list ∧ (ptrAt (segmentOf msg) place).elementSize = 7

/-- The 29 bits of the count field. -/
theorem elementCount_lt (word : Nat) : (capnpDecodePtr word).elementCount < 2 ^ 29 := by
  unfold capnpDecodePtr
  split
  · norm_num
  · split
    · norm_num
    · rw [show (0x1FFFFFFF : Nat) = 2 ^ 29 - 1 by norm_num, shiftRight_and_mask]
      exact Nat.mod_lt _ (by norm_num)
    · norm_num
    · norm_num

/-- The section sizes of a word with the tag bits of a struct pointer, the null
word included. -/
theorem sections_of_structTag {word : Nat} (htag : word % 4 = 0) :
    (capnpDecodePtr word).dataWords = word / 2 ^ 32 % 2 ^ 16 ∧
      (capnpDecodePtr word).ptrWords = word / 2 ^ 48 % 2 ^ 16 := by
  by_cases hzero : word = 0
  · subst hzero
    exact ⟨rfl, rfl⟩
  · rw [capnpDecodePtr_struct hzero htag]
    exact ⟨rfl, rfl⟩

/-- With these tag bits the count field is read as a signed number of 30 bits: a
count whose top bit is set grows to one of at least `2 ^ 31`. -/
theorem compositeCount_of_structTag {word : Nat} (htag : word % 4 = 0) :
    compositeCount (capnpDecodePtr word) =
      if 2 ^ 29 ≤ word / 4 % 2 ^ 30 then word / 4 % 2 ^ 30 + 3 * 2 ^ 30
      else word / 4 % 2 ^ 30 := by
  by_cases hzero : word = 0
  · subst hzero
    rfl
  · have hoffset : (capnpDecodePtr word).offsetWords = decodeOffset word := by
      rw [capnpDecodePtr_struct hzero htag]
    unfold compositeCount
    rw [hoffset, decodeOffset_eq]
    have hlt : word / 4 % 2 ^ 30 < 2 ^ 30 := Nat.mod_lt _ (by norm_num)
    by_cases hsign : 2 ^ 29 ≤ word / 4 % 2 ^ 30
    · rw [if_pos hsign, if_pos hsign]
      omega
    · rw [if_neg hsign, if_neg hsign]
      omega

/-- For an accepted composite list only the tag bits are left to ask for.  A
count that its sign made larger does not fit, unless the elements are empty. -/
theorem tagSound_of_compositeAccepts {m : CapnpMsg} {child : StructPred}
    {pschema : PointerSchema} {off : Int}
    (haccept : CompositeAccepts m child pschema (ptrAt m off) (targetAt m off))
    (htag : tagWordAt m off % 4 = 0) : TagSound m off := by
  obtain ⟨-, hfit, -⟩ := haccept
  refine ⟨htag, ?_⟩
  change ((capnpDecodePtr (tagWordAt m off)).dataWords +
    (capnpDecodePtr (tagWordAt m off)).ptrWords) *
      compositeCount (capnpDecodePtr (tagWordAt m off)) ≤ (ptrAt m off).elementCount at hfit
  obtain ⟨hdata, hptr⟩ := sections_of_structTag htag
  rw [hdata, hptr, compositeCount_of_structTag htag, Nat.mul_comm] at hfit
  by_cases hsign : 2 ^ 29 ≤ tagWordAt m off / 4 % 2 ^ 30
  · rw [if_pos hsign] at hfit
    rcases Nat.eq_zero_or_pos
      (tagWordAt m off / 2 ^ 32 % 2 ^ 16 + tagWordAt m off / 2 ^ 48 % 2 ^ 16) with hempty | hwords
    · rw [hempty, Nat.mul_zero]
      exact Nat.zero_le _
    · have hcount : (ptrAt m off).elementCount < 2 ^ 29 := elementCount_lt _
      have hlarge := Nat.le_mul_of_pos_right (tagWordAt m off / 4 % 2 ^ 30 + 3 * 2 ^ 30) hwords
      omega
  · rwa [if_neg hsign] at hfit

theorem compositeAccepts_of_checks {msg : Buffer} {len : Nat} {table : SchemaTable} {schema : Nat}
    (haccept : (capnpValidateMessage msg len (some table) schema).value = true) {place : Int}
    (hchecks : CompositeChecks msg table schema place) :
    ∃ child declared, CompositeAccepts (segmentOf msg) child declared
      (ptrAt (segmentOf msg) place) (targetAt (segmentOf msg) place) := by
  obtain ⟨declared, hslot, hkind, htag, hsize⟩ := hchecks
  obtain ⟨levels, -, htarget⟩ := checks_accepted haccept hslot
  have hlist := htarget.resolve_left (by simp [htag])
  simp only [TargetAccepts, hkind] at hlist
  exact ⟨_, declared, hlist.2.2.1 hsize⟩

/-- **Which composite lists are well formed.**  In an accepted message the tag
words of all composite lists in checked slots are sound exactly if their low two
bits are zero. -/
theorem capnpValidateMessage_tags_sound_iff (msg : Buffer) (len : Nat) (table : SchemaTable)
    (schema : Nat)
    (haccept : (capnpValidateMessage msg len (some table) schema).value = true) :
    (∀ place, CompositeChecks msg table schema place → TagSound (segmentOf msg) place) ↔
      ∀ place, CompositeChecks msg table schema place →
        tagWordAt (segmentOf msg) place % 4 = 0 := by
  constructor
  · intro h place hchecks
    exact (h place hchecks).1
  · intro h place hchecks
    obtain ⟨child, declared, hlist⟩ := compositeAccepts_of_checks haccept hchecks
    exact tagSound_of_compositeAccepts hlist (h place hchecks)

/-- `compositeMessage` with a tag word that says "capability". -/
def capabilityTagMessage : Buffer :=
  Buffer.ofList
    [0, 0, 0, 0, 5, 0, 0, 0,
      0, 0, 0, 0, 0, 0, 1, 0,
      1, 0, 0, 0, 23, 0, 0, 0,
      11, 0, 0, 0, 1, 0, 0, 0,
      11, 0, 0, 0, 0, 0, 0, 0,
      22, 0, 0, 0, 0, 0, 0, 0]

/-- The validator takes the tag word for one without elements and accepts. -/
theorem capabilityTagMessage_tag_unsound :
    (capnpValidateMessage capabilityTagMessage 48 (some compositeTable) 0).value = true ∧
      ¬ ∀ place, CompositeChecks capabilityTagMessage compositeTable 0 place →
        TagSound (segmentOf capabilityTagMessage) place := by
  refine ⟨by decide, fun h => ?_⟩
  have hslot : Checks capabilityTagMessage compositeTable 0 1 ⟨.list, 1, 7⟩ :=
    ⟨by decide, StructChecks.slot (i := 0) (by decide) (by decide) .here⟩
  have hsound := h 1 ⟨_, hslot, rfl, by decide, by decide⟩
  exact absurd hsound.1 (by decide)

/-- The list of `compositeMessage` has a sound tag word. -/
theorem compositeMessage_tag_sound :
    (capnpValidateMessage compositeMessage 48 (some compositeTable) 0).value = true ∧
      CompositeChecks compositeMessage compositeTable 0 1 ∧
      ∀ place, CompositeChecks compositeMessage compositeTable 0 place →
        TagSound (segmentOf compositeMessage) place := by
  have haccept :
      (capnpValidateMessage compositeMessage 48 (some compositeTable) 0).value = true := by
    decide
  have hslot : Checks compositeMessage compositeTable 0 1 ⟨.list, 1, 7⟩ :=
    ⟨by decide, StructChecks.slot (i := 0) (by decide) (by decide) .here⟩
  refine ⟨haccept, ⟨_, hslot, rfl, by decide, by decide⟩, ?_⟩
  refine (capnpValidateMessage_tags_sound_iff _ 48 compositeTable 0 haccept).mpr ?_
  rintro place ⟨declared, ⟨-, hstruct⟩, -, -, -⟩
  cases hstruct with
  | slot hschema hi hchecks =>
      obtain rfl := Nat.lt_one_iff.mp (lt_of_lt_of_le hi (min_le_left 1 _))
      cases hchecks with
      | here => decide
      | struct hkind hnull hbelow => cases hkind
      | compositeElement hkind hnull hsize hlt helement =>
          -- The elements are structs without pointers.
          cases helement with
          | slot hsome hnone hbelow => exact absurd hnone (by simp [compositeTable])

end Capnp
end Saski
