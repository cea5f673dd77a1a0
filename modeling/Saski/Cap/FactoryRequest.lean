import Saski.Cap.Factory

/-!
# Where the factory's requests lie

The validator follows the root pointer of a request; `factory_handler` reads the
request's words at byte 16.  Both look at the same words exactly when the root
struct stands right behind its pointer, which is the flat encoding every caller
uses but not the only one the validator accepts.
-/

namespace Saski
namespace Cap

open ByteMemory Capnp Logged

/-- A single-segment message inside `len` bytes whose root is a struct with at
least `n` data words. -/
structure HasRootStruct (msg : Buffer) (len n : Nat) : Prop where
  notNull : msg.isNull = false
  oneSegment : (readBytes msg.bytes 0 4).value = 0
  fits : 8 + seg0Words msg * 8 ≤ len
  nonempty : 1 ≤ seg0Words msg
  tag : (ptrAt (segmentOf msg) 0).tag = .struct
  inBounds : inBounds (segmentOf msg) (targetAt (segmentOf msg) 0)
    ((ptrAt (segmentOf msg) 0).dataWords + (ptrAt (segmentOf msg) 0).ptrWords) = true
  words : n ≤ (ptrAt (segmentOf msg) 0).dataWords

instance (msg : Buffer) (len n : Nat) : Decidable (HasRootStruct msg len n) :=
  decidable_of_iff
    (msg.isNull = false ∧ (readBytes msg.bytes 0 4).value = 0 ∧ 8 + seg0Words msg * 8 ≤ len ∧
      1 ≤ seg0Words msg ∧ (ptrAt (segmentOf msg) 0).tag = .struct ∧
      Capnp.inBounds (segmentOf msg) (targetAt (segmentOf msg) 0)
        ((ptrAt (segmentOf msg) 0).dataWords + (ptrAt (segmentOf msg) 0).ptrWords) = true ∧
      n ≤ (ptrAt (segmentOf msg) 0).dataWords)
    ⟨fun ⟨hnull, hone, hfits, hwords, htag, hin, hn⟩ =>
        ⟨hnull, hone, hfits, hwords, htag, hin, hn⟩,
      fun h => ⟨h.notNull, h.oneSegment, h.fits, h.nonempty, h.tag, h.inBounds, h.words⟩⟩

/-- Acceptance against a schema without pointers is having a root struct of that
size.  A null root stands for a struct without data, so it does not pass. -/
theorem accepts_iff_hasRootStruct (msg : Buffer) (len : Nat) {table : SchemaTable}
    {schema : Nat} (hschema : schema ≠ schemaIdxNone) (hlt : schema < table.structCount)
    (hpointers : (table.structs schema).pointerCount = 0)
    (hdata : 0 < (table.structs schema).dataWords) :
    (capnpValidateMessage msg len (some table) schema).value = true ↔
      HasRootStruct msg len (table.structs schema).dataWords := by
  have hstruct : ∀ off dataWords ptrWords,
      (validateStructAt (segmentOf msg) table (capnpMaxDepth + 1) off dataWords ptrWords
        schema).value = true ↔ (table.structs schema).dataWords ≤ dataWords := by
    intro off dataWords ptrWords
    rw [value_validateStructAt, StructAccepts, hpointers]
    simp [hschema, hlt]
  rw [value_capnpValidateMessage msg len table hschema, RootAccepts, hstruct, hstruct]
  constructor
  · rintro ⟨-, hnull, hone, hfits, hwords, ⟨-, hempty⟩ | ⟨htag, hin, hroot⟩⟩
    · omega
    · exact ⟨hnull, hone, hfits, hwords, htag, hin, hroot⟩
  · intro h
    exact ⟨hlt, h.notNull, h.oneSegment, h.fits, h.nonempty, Or.inr ⟨h.tag, h.inBounds, h.words⟩⟩

/-! ## The factory's table -/

/-- The table has the factory's entries. -/
structure IsFactoryTable (table : SchemaTable) : Prop where
  structCount : table.structCount = 3
  methodCount : table.methodCount = 2
  objectCount : table.objectCount = 1
  structs : ∀ i < 3, gFactoryStructs[i]? = some (table.structs i)
  methods : ∀ i < 2, gFactoryMethods[i]? = some (table.methods i)
  objects : ∀ i < 1, gFactoryObjects[i]? = some (table.objects i)

/-- The factory's table, with empty entries past the ends of its arrays. -/
def gFactoryTable : SchemaTable where
  structs := fun i => gFactoryStructs.getD i ⟨0, 0, 0⟩
  structCount := 3
  pointers := fun i => gFactoryPointers.getD i ⟨.any, 0, 0⟩
  pointerCount := 0
  methods := fun i => gFactoryMethods.getD i ⟨0, 0, 0⟩
  methodCount := 2
  objects := fun i => gFactoryObjects.getD i ⟨0, 0⟩
  objectCount := 1

theorem isFactoryTable_gFactoryTable : IsFactoryTable gFactoryTable where
  structCount := rfl
  methodCount := rfl
  objectCount := rfl
  structs := by decide
  methods := by decide
  objects := by decide

/-- The number of data words of a method's request. -/
def requestWords (method : MethodSchema) : Nat :=
  (gFactoryStructs.getD method.paramSchema ⟨0, 0, 0⟩).dataWords

/-- What the factory's table says about the request of one of its methods. -/
theorem IsFactoryTable.request {table : SchemaTable} (h : IsFactoryTable table)
    {method : MethodSchema} (hmethod : method ∈ gFactoryMethods) :
    method.paramSchema ≠ schemaIdxNone ∧ method.paramSchema < table.structCount ∧
      (table.structs method.paramSchema).pointerCount = 0 ∧
      (table.structs method.paramSchema).dataWords = requestWords method ∧
      0 < requestWords method := by
  have hentry : ∀ i < 3, table.structs i = gFactoryStructs.getD i ⟨0, 0, 0⟩ := by
    intro i hi
    rw [List.getD_eq_getElem?_getD, h.structs i hi, Option.getD_some]
  have hparam : method.paramSchema < 3 := by
    revert method
    decide
  rw [h.structCount, hentry _ hparam]
  revert method
  decide

/-- A request is accepted exactly when it has a root struct with the words of the
method. -/
theorem IsFactoryTable.accepts_iff {table : SchemaTable} (h : IsFactoryTable table)
    {method : MethodSchema} (hmethod : method ∈ gFactoryMethods) (msg : Buffer) (len : Nat) :
    (capnpValidateMessage msg len (some table) method.paramSchema).value = true ↔
      HasRootStruct msg len (requestWords method) := by
  obtain ⟨hschema, hlt, hpointers, hwords, hpos⟩ := h.request hmethod
  rw [accepts_iff_hasRootStruct msg len hschema hlt hpointers (by omega), hwords]

/-! ## The words the handler reads -/

/-- The accesses of `n` request words from byte 16. -/
def requestAccesses (n : Nat) : List Access :=
  (List.range n).flatMap fun (k : Nat) => byteAccesses (16 + 8 * k) 8

/-- The accesses of the first `n` data words of the root struct. -/
def rootAccesses (msg : Buffer) (n : Nat) : List Access :=
  (List.range n).flatMap fun (k : Nat) =>
    (readWord (segmentOf msg) (targetAt (segmentOf msg) 0 + k)).log

/-- The handler reads as many words as its method's request has. -/
theorem log_factoryHandler (img : Image) {method : MethodSchema}
    (hmethod : method ∈ gFactoryMethods) (msg response : Buffer) (responseCap : Nat)
    (mem : Mem 64) :
    (factoryHandler img method.methodId msg response responseCap mem).log =
      requestAccesses (requestWords method) := by
  simp only [gFactoryMethods, List.mem_cons, List.not_mem_nil, or_false] at hmethod
  rcases hmethod with rfl | rfl
  · unfold factoryHandler
    simp only [if_true, log_bind]
    -- No branch behind the reads logs anything.
    split
    · rfl
    · split <;> rfl
  · unfold factoryHandler
    simp only [factoryMethodDestroy, factoryMethodCreate, one_ne_zero, if_false, if_true,
      log_bind]
    split
    · rfl
    · split <;> rfl

theorem mem_requestAccesses {n : Nat} {e : Access} (he : e ∈ requestAccesses n) :
    ∃ i : Int, e = .msgByte i ∧ 16 ≤ i ∧ i < 16 + 8 * n := by
  obtain ⟨k, hk, he⟩ := List.mem_flatMap.mp he
  obtain ⟨j, hj, rfl⟩ := List.mem_map.mp he
  rw [List.mem_range] at hk hj
  exact ⟨_, rfl, by omega, by omega⟩

/-- The root struct's words are the request's words if it stands behind its
pointer. -/
theorem rootAccesses_eq_iff (msg : Buffer) {n : Nat} (hn : 0 < n) :
    requestAccesses n = rootAccesses msg n ↔
      (ptrAt (segmentOf msg) 0).offsetWords = 0 := by
  have htarget : targetAt (segmentOf msg) 0 = 1 + (ptrAt (segmentOf msg) 0).offsetWords := by
    unfold targetAt
    omega
  obtain ⟨m, rfl⟩ := Nat.exists_eq_succ_of_ne_zero hn.ne'
  constructor
  · intro heq
    -- The first byte of either list gives the position of the first word.
    have hfirst := congrArg List.head? heq
    simp only [requestAccesses, rootAccesses, List.range_succ_eq_map, List.flatMap_cons,
      byteAccesses, readWord, readBytes, log_withLog, List.map_cons, List.cons_append,
      List.head?_cons, Option.some.injEq, Access.msgByte.injEq, segmentOf] at hfirst
    simp only [segmentOf] at htarget ⊢
    push_cast at hfirst
    omega
  · intro hzero
    have hstart : ∀ k : Nat, (16 + 8 * k : Int) =
        8 + (targetAt (segmentOf msg) 0 + k) * 8 := by
      intro k
      omega
    unfold requestAccesses rootAccesses
    apply List.flatMap_congr
    intro k _
    rw [hstart k]
    rfl

/-- **Validator and factory agree on a request exactly when it is flat.**  For
every request accepted by the validator, the words `factory_handler` reads lie
inside the message and are the first data words of the root struct the validator
checked if, and only if, the root pointer's offset is zero. -/
theorem factoryHandler_reads_root_iff (img : Image) {table : SchemaTable}
    (htable : IsFactoryTable table) {method : MethodSchema} (hmethod : method ∈ gFactoryMethods)
    (msg : Buffer) (len : Nat)
    (haccept : (capnpValidateMessage msg len (some table) method.paramSchema).value = true)
    (response : Buffer) (responseCap : Nat) (mem : Mem 64) :
    (Logs (fun e => ∃ i : Int, e = .msgByte i ∧ 0 ≤ i ∧ i < len)
          (factoryHandler img method.methodId msg response responseCap mem) ∧
        (factoryHandler img method.methodId msg response responseCap mem).log =
          rootAccesses msg (table.structs method.paramSchema).dataWords) ↔
      (ptrAt (segmentOf msg) 0).offsetWords = 0 := by
  obtain ⟨-, -, -, hwords, hpos⟩ := htable.request hmethod
  have hroot := (htable.accepts_iff hmethod msg len).mp haccept
  rw [log_factoryHandler img hmethod, hwords, rootAccesses_eq_iff msg hpos]
  constructor
  · exact And.right
  · intro hzero
    refine ⟨?_, hzero⟩
    intro e he
    rw [log_factoryHandler img hmethod] at he
    obtain ⟨i, rfl, hle, hlt⟩ := mem_requestAccesses he
    -- The root struct ends inside the segment, and the segment inside the buffer.
    have hin := (inBounds_iff _ _ _).mp hroot.inBounds
    have hfits := hroot.fits
    have hdata := hroot.words
    rw [targetAt, hzero, show (segmentOf msg).segWords = seg0Words msg from rfl] at hin
    exact ⟨i, rfl, by omega, by omega⟩

/-- A flat CREATE request for storage at `0x3000`. -/
def flatRequest : Buffer :=
  Buffer.ofList
    [0, 0, 0, 0, 6, 0, 0, 0,
      0, 0, 0, 0, 5, 0, 0, 0,
      0x40, 0, 0, 0, 0, 0, 0, 0, 0x50, 0, 0, 0, 0, 0, 0, 0,
      0x60, 0, 0, 0, 0, 0, 0, 0, 2, 0, 0, 0, 0, 0, 0, 0,
      0x00, 0x30, 0, 0, 0, 0, 0, 0]

theorem flatRequest_reads_root :
    (IsFactoryTable gFactoryTable ∧
        (capnpValidateMessage flatRequest 56 (some gFactoryTable) 0).value = true) ∧
      (Logs (fun e => ∃ i : Int, e = .msgByte i ∧ 0 ≤ i ∧ i < (56 : Nat))
          (factoryHandler sampleImage 0 flatRequest ⟨false, fun _ => 0⟩ 24 fun _ => 0) ∧
        (factoryHandler sampleImage 0 flatRequest ⟨false, fun _ => 0⟩ 24 fun _ => 0).log =
          rootAccesses flatRequest 5) := by
  have haccept : (capnpValidateMessage flatRequest 56 (some gFactoryTable) 0).value = true := by
    decide
  refine ⟨⟨isFactoryTable_gFactoryTable, haccept⟩, ?_⟩
  exact (factoryHandler_reads_root_iff sampleImage isFactoryTable_gFactoryTable
    (List.mem_cons_self : ⟨0, 0, 1⟩ ∈ gFactoryMethods) flatRequest 56 haccept
    ⟨false, fun _ => 0⟩ 24 fun _ => 0).mpr (by decide)

/-- A CREATE request whose root struct begins at the root pointer itself: the
offset is `-1`, and the five data words fill a segment of five words. -/
def overlappingRequest : Buffer :=
  Buffer.ofList
    [0, 0, 0, 0, 5, 0, 0, 0,
      0xFC, 0xFF, 0xFF, 0xFF, 5, 0, 0, 0,
      0x40, 0, 0, 0, 0, 0, 0, 0, 0x50, 0, 0, 0, 0, 0, 0, 0,
      0x60, 0, 0, 0, 0, 0, 0, 0, 2, 0, 0, 0, 0, 0, 0, 0]

/-- The validator accepts `overlappingRequest` with its 48 bytes, and the handler
takes bytes 48 to 55 for the record's storage. -/
theorem overlappingRequest_read_past_end :
    (capnpValidateMessage overlappingRequest 48 (some gFactoryTable) 0).value = true ∧
      Access.msgByte 55 ∈ (factoryHandler sampleImage factoryMethodCreate overlappingRequest
        ⟨false, fun _ => 0⟩ 24 fun _ => 0).log ∧
      (factoryHandler sampleImage factoryMethodCreate overlappingRequest
        ⟨false, fun _ => 0⟩ 24 fun _ => 0).log ≠ rootAccesses overlappingRequest 5 := by
  decide

end Cap
end Saski
