import Saski.Cap.DispatchGate

/-!
# The caller's response buffer

The handler stores any length it likes in `*out_response_len`, and
`kernel_invoke` hands that length to the validator without comparing it with
`response_cap`.  This module says exactly when that is harmless.

`RespectsBuffer` is what a caller would want of every call: no byte of the
response at or past `response_cap` is read, and a successful call reports at
most `response_cap` bytes.  A handler that reports a length within the capacity
is always harmless (the validator stays below the length it is given).  One
that reports more is harmless for every content of the buffer only when the
method declares a result schema and the reported length is too short for the
validator to get anywhere: `RejectedEarly`.
-/

namespace Saski
namespace Cap

open ByteMemory Capnp Logged

/-- The indices of the response bytes read in a log. -/
def responseReads (log : List InvokeEvent) : List Int :=
  log.filterMap fun
    | .response (.msgByte index) => some index
    | _ => none

/-- The call stays inside the response buffer, and so does the length it
reports on success. -/
def RespectsBuffer (responseCap : Nat) (run : Logged InvokeEvent InvokeResult) : Prop :=
  (∀ i ∈ responseReads run.log, i < responseCap) ∧
    (run.value.ret = true → run.value.outResponseLen ≤ responseCap)

instance (responseCap : Nat) (run : Logged InvokeEvent InvokeResult) :
    Decidable (RespectsBuffer responseCap run) :=
  inferInstanceAs (Decidable (_ ∧ _))

/-- A handler that leaves the memory `mem'` behind, writes `bytes` into the
response buffer and reports `reported` bytes. -/
def writingHandler (mem' : Mem 64) (bytes : Int → UInt8) (reported : Nat) : Handler :=
  fun _ _ _ _ response responseCap _ =>
    { mem := mem'
      response := fun i => if 0 ≤ i ∧ i < responseCap then bytes i else response.bytes i
      outResponseLen := reported }

/-- The validator rejects every response of `reported` bytes before it needs a
byte at or past `responseCap`: there is no buffer, the declared schema is not in
the table, or the length leaves no room for the header, for the root pointer or
for the data words the schema requires. -/
def RejectedEarly (table : Option SchemaTable) (schema : Nat) (response : Buffer)
    (responseCap reported : Nat) : Prop :=
  schema ≠ schemaIdxNone ∧
    (response.isNull = true ∨ (∀ t, table = some t → t.structCount ≤ schema) ∨ reported < 8 ∨
      (8 ≤ responseCap ∧ reported < 16) ∨
      ∃ t, table = some t ∧ 16 ≤ responseCap ∧
        reported < 8 + (t.structs schema).dataWords * 8)

/-! ## Reads of a response -/

/-- A read of the response that stays below the capacity. -/
def ReadBelow (responseCap : Nat) : Access → Prop
  | .msgByte index => index < responseCap
  | _ => True

theorem readBelow_of_readSafe {len responseCap : Nat} {table : Option SchemaTable}
    (hle : len ≤ responseCap) (access : Access) (h : ReadSafe len table access) :
    ReadBelow responseCap access := by
  cases access with
  | msgByte index =>
      obtain ⟨-, hlt⟩ := h
      change index < (responseCap : Int)
      omega
  | structs index => trivial
  | pointers index => trivial
  | methods index => trivial
  | objects index => trivial

theorem logs_readBytes_below (bytes : Int → UInt8) {start : Int} {count responseCap : Nat}
    (h : start + count ≤ responseCap) :
    Logs (ReadBelow responseCap) (readBytes bytes start count) := by
  refine logs_withLog _ fun e he => ?_
  obtain ⟨i, hi, rfl⟩ := List.mem_map.mp he
  rw [List.mem_range] at hi
  change start + (i : Int) < (responseCap : Int)
  omega

theorem logs_schemaStruct_below (responseCap : Nat) (table : SchemaTable) (schema : Nat) :
    Logs (ReadBelow responseCap) (schemaStruct table schema) :=
  logs_boundedEntry _ _ _ _ fun _ => trivial

/-- A struct with fewer data words than its schema requires is rejected without
looking at its pointers. -/
theorem logs_validateStructAt_short {m : CapnpMsg} {table : SchemaTable} {levels : Nat}
    {off : Int} {dataWords ptrWords schema responseCap : Nat}
    (hshort : dataWords < (table.structs schema).dataWords) :
    Logs (ReadBelow responseCap)
      (validateStructAt m table levels off dataWords ptrWords schema) := by
  apply logs_unless
  intro _
  refine logs_bind (logs_schemaStruct_below _ _ _) ?_
  rw [value_schemaStruct]
  by_cases hin : schema ≠ schemaIdxNone ∧ schema < table.structCount
  · rw [if_pos hin]
    exact logs_unless fun hlong => absurd hshort hlong
  · rw [if_neg hin]
    exact logs_pure _ _

/-- When the segment cannot hold the data words the schema requires, only the
root pointer is read. -/
theorem logs_validateRoot_short {m : CapnpMsg} {table : SchemaTable} {schema responseCap : Nat}
    (hseg : m.seg = 8) (hcap : 16 ≤ responseCap)
    (hshort : m.segWords < (table.structs schema).dataWords) :
    Logs (ReadBelow responseCap) (validateRoot m table schema) := by
  have hroot : m.seg + 0 * 8 + ((8 : Nat) : Int) ≤ responseCap := by
    rw [hseg]
    omega
  refine logs_bind (logs_readBytes_below m.bytes hroot) ?_
  refine logs_ite (fun _ => logs_validateStructAt_short (by omega)) fun _ => ?_
  apply logs_unless
  intro _
  apply logs_unless
  intro hin
  rw [not_not, inBounds_iff] at hin
  refine logs_validateStructAt_short ?_
  have hend := hin.2
  push_cast at hend
  omega

/-- The response is rejected without a read past the capacity. -/
theorem rejectedEarly_reads {table : Option SchemaTable} {schema : Nat} {response : Buffer}
    {responseCap reported : Nat} (bytes : Int → UInt8)
    (h : RejectedEarly table schema response responseCap reported) :
    Logs (ReadBelow responseCap)
      (capnpValidateMessage ⟨response.isNull, bytes⟩ reported table schema) := by
  obtain ⟨hschema, hcause⟩ := h
  refine logs_ite (fun hnone => absurd hnone hschema) fun _ => ?_
  cases table with
  | none => exact logs_pure _ _
  | some t =>
      refine logs_bind (logs_schemaStruct_below _ _ _) ?_
      rw [value_schemaStruct]
      by_cases hin : schema ≠ schemaIdxNone ∧ schema < t.structCount
      · rw [if_pos hin]
        apply logs_unless
        intro hlong
        rw [not_or] at hlong
        -- What is rejected behind the header needs a buffer that holds the header.
        have hroom : 8 ≤ responseCap := by
          rcases hcause with hnull | hindex | hshort | hheader | ⟨t', -, hcap, -⟩
          · exact absurd hnull hlong.1
          · have := hindex t rfl
            omega
          · omega
          · exact hheader.1
          · omega
        refine logs_bind (logs_readBytes_below _ (by push_cast; omega)) ?_
        apply logs_unless
        intro hone
        rw [not_not] at hone
        refine logs_bind (logs_readBytes_below _ (by push_cast; omega)) ?_
        rw [hone, headerBytes_one]
        apply logs_unless
        intro hsize
        apply logs_unless
        intro hwords
        rcases hcause with hnull | hindex | hshort | hheader | ⟨t', ht', hcap, hdata⟩
        · exact absurd hnull hlong.1
        · have := hindex t rfl
          omega
        · omega
        · omega
        · obtain rfl := Option.some.inj ht'
          refine logs_validateRoot_short rfl hcap ?_
          dsimp only at hsize ⊢
          omega
      · rw [if_neg hin]
        exact logs_pure _ _

/-- The response is rejected. -/
theorem rejectedEarly_value {table : Option SchemaTable} {schema : Nat} {response : Buffer}
    {responseCap reported : Nat} (bytes : Int → UInt8)
    (h : RejectedEarly table schema response responseCap reported) :
    (capnpValidateMessage ⟨response.isNull, bytes⟩ reported table schema).value = false := by
  obtain ⟨hschema, hcause⟩ := h
  apply Bool.eq_false_of_not_eq_true
  intro haccept
  cases table with
  | none => simp [capnpValidateMessage, hschema] at haccept
  | some t =>
      rw [value_capnpValidateMessage _ _ _ hschema] at haccept
      obtain ⟨hindex, hnull, -, hfit, hwords, hroot⟩ := haccept
      have hneed : (t.structs schema).dataWords ≤
          seg0Words ⟨response.isNull, bytes⟩ := by
        rcases hroot with ⟨-, hvalid⟩ | ⟨-, hin, hvalid⟩
        · rw [value_validateStructAt] at hvalid
          have := (hvalid.resolve_left hschema).2.1
          omega
        · rw [value_validateStructAt] at hvalid
          have hdata := (hvalid.resolve_left hschema).2.1
          rw [inBounds_iff] at hin
          have hend := hin.2
          change _ ≤ ((seg0Words ⟨response.isNull, bytes⟩ : Nat) : Int) at hend
          push_cast at hend
          omega
      rcases hcause with hisNull | hindex' | hshort | hheader | ⟨t', ht', -, hdata⟩
      · rw [hisNull] at hnull
        exact absurd hnull (by decide)
      · have := hindex' t rfl
        omega
      · omega
      · omega
      · obtain rfl := Option.some.inj ht'
        omega

/-! ## Responses that do harm -/

/-- The root pointer of the smallest response a schema with `dataWords` data
words accepts: null, or a struct whose data section starts at word 0 of the
segment, on top of the pointer itself. -/
def smallestRoot (dataWords : Nat) : Nat :=
  if dataWords = 0 then 0 else 0xFFFFFFFC + dataWords * 2 ^ 32

/-- A response of a header and a root pointer, for a schema with `dataWords`
data words. -/
def smallestResponse (dataWords : Nat) : Int → UInt8 :=
  fun i =>
    if i < 4 then 0
    else if i < 8 then byteOf (max 1 dataWords) (i - 4).toNat
    else byteOf (smallestRoot dataWords) (i - 8).toNat

/-- Eight or fewer bytes that spell a number read back as that number. -/
theorem readBytes_eq {bytes : Int → UInt8} {start : Int} {count v : Nat}
    (h : ∀ i : Nat, i < count → bytes (start + i) = byteOf v i) :
    (readBytes bytes start count).value = v % 2 ^ (8 * count) := by
  rw [← littleEndian_byteOf]
  exact littleEndian_congr h

theorem decode_smallestRoot {dataWords : Nat} (hpos : 0 < dataWords)
    (hlt : dataWords < 2 ^ 16) :
    capnpDecodePtr (smallestRoot dataWords) =
      { tag := .struct, offsetWords := -1, dataWords := dataWords, ptrWords := 0 } := by
  have hroot : smallestRoot dataWords = 0xFFFFFFFC + dataWords * 2 ^ 32 :=
    if_neg (Nat.pos_iff_ne_zero.mp hpos)
  rw [hroot, capnpDecodePtr_struct (by omega) (by omega)]
  have hoffset : decodeOffset (0xFFFFFFFC + dataWords * 2 ^ 32) = -1 := by
    have hfield : (0xFFFFFFFC + dataWords * 2 ^ 32) / 4 % 2 ^ 30 = 2 ^ 30 - 1 := by omega
    rw [decodeOffset_eq, if_pos (by omega)]
    omega
  have hdata : (0xFFFFFFFC + dataWords * 2 ^ 32) / 2 ^ 32 % 2 ^ 16 = dataWords := by omega
  have hptr : (0xFFFFFFFC + dataWords * 2 ^ 32) / 2 ^ 48 % 2 ^ 16 = 0 := by omega
  rw [hoffset, hdata, hptr]

/-- The header of a message that starts with `smallestResponse`. -/
theorem smallestResponse_header {dataWords : Nat} {msg : Buffer} {bound : Int}
    (hbytes : ∀ i : Int, 0 ≤ i → i < bound → msg.bytes i = smallestResponse dataWords i)
    (hwidth : dataWords < 2 ^ 16) :
    (4 ≤ bound → (readBytes msg.bytes 0 4).value = 0) ∧
      (8 ≤ bound → seg0Words msg = max 1 dataWords) := by
  constructor
  · intro hbound
    have hzero : (readBytes msg.bytes 0 4).value = 0 % 2 ^ (8 * 4) := by
      refine readBytes_eq fun i hi => ?_
      rw [hbytes _ (by omega) (by omega), smallestResponse, if_pos (by omega)]
      simp [byteOf]
    exact hzero
  · intro hbound
    have hread : seg0Words msg = max 1 dataWords % 2 ^ (8 * 4) := by
      refine readBytes_eq fun i hi => ?_
      rw [hbytes _ (by omega) (by omega), smallestResponse, if_neg (by omega),
        if_pos (by omega)]
      congr 1
      omega
    omega

/-- A message that starts with `smallestResponse` is accepted as soon as the
stated length leaves room for its data words. -/
theorem smallestResponse_accepted {table : SchemaTable} {schema len : Nat} {msg : Buffer}
    (hschema : schema ≠ schemaIdxNone) (hindex : schema < table.structCount)
    (hnull : msg.isNull = false)
    (hbytes : ∀ i : Int, 0 ≤ i → i < 16 →
      msg.bytes i = smallestResponse (table.structs schema).dataWords i)
    (hwidth : (table.structs schema).dataWords < 2 ^ 16)
    (hlen : 16 ≤ len) (hdata : 8 + (table.structs schema).dataWords * 8 ≤ len) :
    (capnpValidateMessage msg len (some table) schema).value = true := by
  obtain ⟨hfirst, hsecond⟩ := smallestResponse_header hbytes hwidth
  have hcount := hfirst (by norm_num)
  have hwords := hsecond (by norm_num)
  have hrootWord : (readWord (segmentOf msg) 0).value =
      smallestRoot (table.structs schema).dataWords := by
    have hread : (readWord (segmentOf msg) 0).value =
        smallestRoot (table.structs schema).dataWords % 2 ^ (8 * 8) := by
      refine readBytes_eq fun i hi => ?_
      change msg.bytes (8 + 0 * 8 + (i : Int)) = _
      rw [hbytes _ (by omega) (by omega), smallestResponse, if_neg (by omega),
        if_neg (by omega)]
      congr 1
      omega
    have hbound : smallestRoot (table.structs schema).dataWords < 2 ^ (8 * 8) := by
      unfold smallestRoot
      split <;> omega
    rw [hread, Nat.mod_eq_of_lt hbound]
  rw [value_capnpValidateMessage _ _ _ hschema]
  refine ⟨hindex, hnull, hcount, by omega, by omega, ?_⟩
  rcases Nat.eq_zero_or_pos (table.structs schema).dataWords with hzero | hpos
  · left
    have hroot : ptrAt (segmentOf msg) 0 = { tag := .null } := by
      rw [ptrAt, hrootWord, hzero]
      rfl
    refine ⟨by rw [hroot], ?_⟩
    rw [value_validateStructAt]
    exact Or.inr ⟨hindex, by omega, fun i hi => by simp at hi⟩
  · right
    have hroot : ptrAt (segmentOf msg) 0 =
        { tag := .struct, offsetWords := -1
          dataWords := (table.structs schema).dataWords, ptrWords := 0 } := by
      rw [ptrAt, hrootWord, decode_smallestRoot hpos hwidth]
    have htarget : targetAt (segmentOf msg) 0 = 0 := by
      rw [targetAt, hroot]
      rfl
    rw [htarget, hroot]
    refine ⟨rfl, ?_, ?_⟩
    · rw [inBounds_iff]
      change _ ∧ _ ≤ ((seg0Words msg : Nat) : Int)
      constructor
      · exact le_rfl
      · push_cast
        omega
    · rw [value_validateStructAt]
      exact Or.inr ⟨hindex, le_rfl, fun i hi => by simp at hi⟩

/-- The bytes of a response the validator reads in any case: the segment count;
with one segment, the segment's size; with room for it, the root pointer. -/
theorem capnpValidateMessage_reads_front (msg : Buffer) {table : SchemaTable} {schema len : Nat}
    (hschema : schema ≠ schemaIdxNone) (hindex : schema < table.structCount)
    (hnull : msg.isNull = false) (hlen : 8 ≤ len) :
    Access.msgByte 3 ∈ (capnpValidateMessage msg len (some table) schema).log ∧
      ((readBytes msg.bytes 0 4).value = 0 →
        Access.msgByte 7 ∈ (capnpValidateMessage msg len (some table) schema).log ∧
          (1 ≤ seg0Words msg → 8 + seg0Words msg * 8 ≤ len →
            Access.msgByte 15 ∈ (capnpValidateMessage msg len (some table) schema).log)) := by
  have hentry : (schemaStruct table schema).value = some (table.structs schema) := by
    rw [value_schemaStruct, if_pos ⟨hschema, hindex⟩]
  have hgo : ¬ (msg.isNull = true ∨ len < 8) := by
    rw [not_or, hnull]
    exact ⟨Bool.false_ne_true, by omega⟩
  unfold capnpValidateMessage
  simp only [hschema, if_false, log_bind, hentry, if_neg hgo, List.mem_append]
  have hlast : ∀ (start : Int) (count : Nat), Access.msgByte (start + count) ∈
      (readBytes msg.bytes start (count + 1)).log := by
    intro start count
    exact List.mem_map.mpr ⟨count, List.mem_range.mpr (by omega), rfl⟩
  refine ⟨Or.inr (Or.inl (hlast 0 3)), fun hcount => ?_⟩
  have hone : ¬ ((readBytes msg.bytes 0 4).value + 1) % 2 ^ 32 ≠ 1 := by
    rw [hcount]
    decide
  simp only [if_neg hone, log_bind, List.mem_append]
  refine ⟨Or.inr (Or.inr (Or.inl (hlast 4 3))), fun hwords hfit => ?_⟩
  right
  right
  right
  have hheader : headerBytes (((readBytes msg.bytes 0 4).value + 1) % 2 ^ 32) = 8 := by
    rw [hcount]
    rfl
  rw [hheader, show (readBytes msg.bytes 4 4).value = seg0Words msg from rfl,
    if_neg (by omega), if_neg (by omega), validateRoot, log_bind, List.mem_append]
  exact Or.inl (hlast (8 + 0 * 8) 7)

/-- The data words to announce in a response of at most `responseCap` bytes: a
buffer that ends before the root pointer announces the shortest segment. -/
def announcedWords (responseCap dataWords : Nat) : Nat :=
  if responseCap < 16 then 0 else dataWords

/-- A response that overstates its length is read past the capacity or accepted,
if its bytes inside the buffer are those of `smallestResponse`. -/
theorem smallestResponse_overruns {table : SchemaTable} {schema responseCap reported : Nat}
    (msg : Buffer) (hschema : schema ≠ schemaIdxNone) (hindex : schema < table.structCount)
    (hnull : msg.isNull = false)
    (hbytes : ∀ i : Int, 0 ≤ i → i < responseCap → msg.bytes i =
      smallestResponse (announcedWords responseCap (table.structs schema).dataWords) i)
    (hwidth : (table.structs schema).dataWords < 2 ^ 16) (hlen : 8 ≤ reported)
    (hheader : 8 ≤ responseCap → 16 ≤ reported)
    (hdata : 16 ≤ responseCap → 8 + (table.structs schema).dataWords * 8 ≤ reported) :
    (∃ i : Int, Access.msgByte i ∈
        (capnpValidateMessage msg reported (some table) schema).log ∧ responseCap ≤ i) ∨
      (capnpValidateMessage msg reported (some table) schema).value = true := by
  have hfront := capnpValidateMessage_reads_front msg hschema hindex hnull hlen
  have hannounced : announcedWords responseCap (table.structs schema).dataWords < 2 ^ 16 := by
    unfold announcedWords
    split <;> omega
  obtain ⟨hcount, hwords⟩ := smallestResponse_header hbytes hannounced
  -- The shorter the buffer, the earlier the validator runs past it: in the segment
  -- count, in the segment size, in the root pointer.
  rcases Nat.lt_or_ge responseCap 4 with hfour | hfour
  · exact Or.inl ⟨3, hfront.1, by omega⟩
  have hone := hfront.2 (hcount (by omega))
  rcases Nat.lt_or_ge responseCap 8 with height | height
  · exact Or.inl ⟨7, hone.1, by omega⟩
  have hseg := hwords (by omega)
  rcases Nat.lt_or_ge responseCap 16 with hsixteen | hsixteen
  · have hshort : announcedWords responseCap (table.structs schema).dataWords = 0 :=
      if_pos hsixteen
    rw [hshort] at hseg
    have hroom := hheader height
    exact Or.inl ⟨15, hone.2 (by omega) (by omega), by omega⟩
  · have hlong : announcedWords responseCap (table.structs schema).dataWords =
        (table.structs schema).dataWords := if_neg (by omega)
    rw [hlong] at hbytes
    refine Or.inr (smallestResponse_accepted hschema hindex hnull ?_ hwidth (hheader height)
      (hdata hsixteen))
    intro i hnonneg hlt
    exact hbytes i hnonneg (by omega)

/-! ## The response part of a run -/

@[simp] theorem responseReads_append (l l' : List InvokeEvent) :
    responseReads (l ++ l') = responseReads l ++ responseReads l' := List.filterMap_append

@[simp] theorem responseReads_map_request (l : List Access) :
    responseReads (l.map .request) = [] := by
  simp [responseReads]

theorem mem_responseReads_map_response (l : List Access) (i : Int) :
    i ∈ responseReads (l.map .response) ↔ Access.msgByte i ∈ l := by
  simp only [responseReads, List.mem_filterMap, List.mem_map]
  constructor
  · rintro ⟨event, ⟨access, hmem, rfl⟩, hread⟩
    cases access with
    | msgByte index =>
        obtain rfl : index = i := by simpa using hread
        exact hmem
    | structs index => simp at hread
    | pointers index => simp at hread
    | methods index => simp at hread
    | objects index => simp at hread
  · intro hmem
    exact ⟨.response (.msgByte i), ⟨.msgByte i, hmem, rfl⟩, rfl⟩

/-- Past an open gate, the response reads are those of the response check. -/
theorem responseReads_of_gateOpen (code : Code) {mem : Mem 64} {target : Addr}
    {methodId : Nat} {msg : Buffer} {len : Nat} (response : Buffer) (responseCap : Nat)
    {idx : Nat} (h : GateOpen mem target methodId msg len idx) :
    responseReads (kernelInvoke code mem target methodId msg len response responseCap).log =
      responseReads (checkResponse (tableAddrOf mem target) (methodAddrOf mem target idx)
        response responseCap
        (handlerRun code mem target methodId msg len response responseCap)).log := by
  rw [kernelInvoke_of_gateOpen code response responseCap h]
  simp only [log_bind, log_relabel, log_emit, responseReads_append, responseReads_map_request,
    List.nil_append]
  rfl

theorem log_checkResponse {tableAddr methodAddr : Addr} (response : Buffer)
    (responseCap : Nat) {r : HandlerResult}
    (hresult : (loadMethodSchema r.mem methodAddr).resultSchema ≠ schemaIdxNone) :
    (checkResponse tableAddr methodAddr response responseCap r).log =
      (capnpValidateMessage ⟨response.isNull, r.response⟩ r.outResponseLen
        (loadSchemaTable r.mem tableAddr)
        (loadMethodSchema r.mem methodAddr).resultSchema).log.map .response := by
  unfold checkResponse
  simp only [hresult, if_false, log_bind, log_relabel]
  split <;> simp

/-- The bytes a handler wrote inside the buffer are the ones found there. -/
theorem handlerRun_writingHandler (mem mem' : Mem 64) (target : Addr) (methodId : Nat)
    (msg : Buffer) (len : Nat) (response : Buffer) (responseCap : Nat) (bytes : Int → UInt8)
    (reported : Nat) :
    handlerRun (fun _ => writingHandler mem' bytes reported) mem target methodId msg len
        response responseCap =
      { mem := mem'
        response := fun i => if 0 ≤ i ∧ i < responseCap then bytes i else response.bytes i
        outResponseLen := reported } := rfl

section Harm

variable {mem mem' : Mem 64} {target : Addr} {methodId : Nat} {msg : Buffer} {len : Nat}
  {response : Buffer} {responseCap reported idx : Nat} (bytes : Int → UInt8)
  (hgate : GateOpen mem target methodId msg len idx) (hover : responseCap < reported)

include hgate hover

/-- Without a result schema nothing checks the response, and the length is passed
on as it is. -/
theorem not_respectsBuffer_of_unchecked
    (hresult : (loadMethodSchema mem' (methodAddrOf mem target idx)).resultSchema =
      schemaIdxNone) :
    ¬ RespectsBuffer responseCap
      (kernelInvoke (fun _ => writingHandler mem' bytes reported) mem target methodId msg len
        response responseCap) := by
  intro hrespects
  have hlen := hrespects.2
  rw [kernelInvoke_value_of_gateOpen _ response responseCap hgate,
    handlerRun_writingHandler] at hlen
  simp only [checkResponse, hresult, if_true, value_pure, true_implies] at hlen
  omega

/-- A response that the validator reads past the capacity, or accepts, does harm. -/
theorem not_respectsBuffer_of_overrun
    (hresult : (loadMethodSchema mem' (methodAddrOf mem target idx)).resultSchema ≠
      schemaIdxNone)
    {table : SchemaTable} (htable : loadSchemaTable mem' (tableAddrOf mem target) = some table)
    {check : Logged Access Bool}
    (hcheck : check = capnpValidateMessage
      ⟨response.isNull, fun i => if 0 ≤ i ∧ i < responseCap then bytes i else response.bytes i⟩
      reported (some table) (loadMethodSchema mem' (methodAddrOf mem target idx)).resultSchema)
    (hharm : (∃ i : Int, Access.msgByte i ∈ check.log ∧ responseCap ≤ i) ∨ check.value = true) :
    ¬ RespectsBuffer responseCap
      (kernelInvoke (fun _ => writingHandler mem' bytes reported) mem target methodId msg len
        response responseCap) := by
  subst hcheck
  rintro ⟨hreads, hreturn⟩
  rcases hharm with ⟨i, hread, hpast⟩ | haccept
  · rw [responseReads_of_gateOpen _ response responseCap hgate, handlerRun_writingHandler,
      log_checkResponse] at hreads
    · simp only [mem_responseReads_map_response, htable] at hreads
      have hbelow := hreads i hread
      omega
    · exact hresult
  · rw [kernelInvoke_value_of_gateOpen _ response responseCap hgate,
      handlerRun_writingHandler] at hreturn
    simp only [checkResponse, hresult, if_false, value_bind, value_relabel, htable, haccept,
      if_true, value_pure, true_implies] at hreturn
    omega

end Harm

/-- The widths of a table in memory are those of its fields. -/
theorem dataWords_lt_of_loadSchemaTable {mem : Mem 64} {addr : Addr} {table : SchemaTable}
    (htable : loadSchemaTable mem addr = some table) (schema : Nat) :
    (table.structs schema).dataWords < 2 ^ 16 := by
  rw [eq_of_loadSchemaTable htable]
  exact load_lt _ _ 2

/-- Some content of the buffer makes the call misbehave, once the reported
length exceeds the capacity and nothing rejects it early. -/
theorem exists_harmful_response {mem mem' : Mem 64} {target : Addr} {methodId : Nat}
    {msg : Buffer} {len : Nat} {response : Buffer} {responseCap reported idx : Nat}
    (hgate : GateOpen mem target methodId msg len idx) (hover : responseCap < reported)
    (hlate : ¬ RejectedEarly (loadSchemaTable mem' (tableAddrOf mem target))
      (loadMethodSchema mem' (methodAddrOf mem target idx)).resultSchema response responseCap
      reported) :
    ∃ bytes, ¬ RespectsBuffer responseCap
      (kernelInvoke (fun _ => writingHandler mem' bytes reported) mem target methodId msg len
        response responseCap) := by
  by_cases hresult : (loadMethodSchema mem' (methodAddrOf mem target idx)).resultSchema =
      schemaIdxNone
  · exact ⟨fun _ => 0, not_respectsBuffer_of_unchecked _ hgate hover hresult⟩
  · have hcause : ¬ (response.isNull = true ∨ _ ∨ _ ∨ _ ∨ _) := fun h => hlate ⟨hresult, h⟩
    simp only [not_or, not_lt, not_and, not_exists] at hcause
    obtain ⟨hnull, htable, hlen, hheader, hdata⟩ := hcause
    rw [not_forall] at htable
    obtain ⟨t, ht⟩ := htable
    rw [Classical.not_imp, not_le] at ht
    obtain ⟨htable, hindex⟩ := ht
    -- The handler writes the smallest response as far as its buffer goes.
    refine ⟨smallestResponse (announcedWords responseCap (t.structs
      (loadMethodSchema mem' (methodAddrOf mem target idx)).resultSchema).dataWords),
      not_respectsBuffer_of_overrun _ hgate hover hresult htable rfl ?_⟩
    exact smallestResponse_overruns _ hresult hindex (Bool.eq_false_of_not_eq_true hnull)
      (fun i hnonneg hlt => if_pos ⟨hnonneg, hlt⟩) (dataWords_lt_of_loadSchemaTable htable _)
      hlen hheader (hdata t htable)

/-- The response check respects the buffer under the stated condition. -/
theorem checkResponse_respects {tableAddr methodAddr : Addr} {response : Buffer}
    {responseCap : Nat} {r : HandlerResult}
    (h : r.outResponseLen ≤ responseCap ∨
      RejectedEarly (loadSchemaTable r.mem tableAddr)
        (loadMethodSchema r.mem methodAddr).resultSchema response responseCap
        r.outResponseLen) :
    RespectsBuffer responseCap
      (checkResponse tableAddr methodAddr response responseCap r) := by
  by_cases hresult : (loadMethodSchema r.mem methodAddr).resultSchema = schemaIdxNone
  · have hle := h.resolve_right fun hearly => hearly.1 hresult
    have hpass : checkResponse tableAddr methodAddr response responseCap r =
        pure ⟨true, r.outResponseLen, r.response, r.mem⟩ := if_pos hresult
    rw [hpass]
    exact ⟨by simp [responseReads], fun _ => hle⟩
  · have hbelow : Logs (ReadBelow responseCap)
        (capnpValidateMessage ⟨response.isNull, r.response⟩ r.outResponseLen
          (loadSchemaTable r.mem tableAddr)
          (loadMethodSchema r.mem methodAddr).resultSchema) := by
      rcases h with hle | hearly
      · exact (logs_capnpValidateMessage _ _ _ _).mono (readBelow_of_readSafe hle)
      · exact rejectedEarly_reads _ hearly
    constructor
    · intro i hi
      rw [log_checkResponse response responseCap hresult,
        mem_responseReads_map_response] at hi
      exact hbelow _ hi
    · intro hret
      rcases value_checkResponse tableAddr methodAddr response responseCap r with
        ⟨hvalue, hconforms⟩ | ⟨hvalue, -⟩
      · rw [hvalue]
        rcases h with hle | hearly
        · exact hle
        · rw [conforms_iff, rejectedEarly_value _ hearly] at hconforms
          exact absurd hconforms Bool.false_ne_true
      · rw [hvalue]
        exact Nat.zero_le _

/-- **When the response buffer is respected.**  Fix a call, the memory its
handler leaves behind and the length the handler reports.  Whatever bytes the
handler wrote into the buffer, the call reads no response byte at or past
`response_cap` and reports at most `response_cap` bytes on success, if and only
if the handler is not reached, or the reported length is within the capacity, or
the response is rejected early for its length. -/
theorem kernelInvoke_respects_buffer_iff (mem mem' : Mem 64) (target : Addr) (methodId : Nat)
    (msg : Buffer) (len : Nat) (response : Buffer) (responseCap reported : Nat) :
    (∀ bytes, RespectsBuffer responseCap
      (kernelInvoke (fun _ => writingHandler mem' bytes reported) mem target methodId msg len
        response responseCap)) ↔
      ∀ idx, GateOpen mem target methodId msg len idx →
        reported ≤ responseCap ∨
          RejectedEarly (loadSchemaTable mem' (tableAddrOf mem target))
            (loadMethodSchema mem' (methodAddrOf mem target idx)).resultSchema response
            responseCap reported := by
  constructor
  · intro hall idx hgate
    by_contra hneither
    rw [not_or, not_le] at hneither
    obtain ⟨bytes, hharm⟩ := exists_harmful_response hgate hneither.1 hneither.2
    exact hharm (hall bytes)
  · intro hcond bytes
    by_cases hopen : ∃ idx, GateOpen mem target methodId msg len idx
    · obtain ⟨idx, hgate⟩ := hopen
      unfold RespectsBuffer
      rw [responseReads_of_gateOpen _ response responseCap hgate,
        kernelInvoke_value_of_gateOpen _ response responseCap hgate]
      exact checkResponse_respects (hcond idx hgate)
    · obtain ⟨hvalue, reads, hlog⟩ := kernelInvoke_of_gate_closed
        (fun _ => writingHandler mem' bytes reported) response responseCap hopen
      rw [RespectsBuffer, hvalue, hlog, responseReads_map_request]
      exact ⟨by simp, by simp⟩

/-- A live record at `0x1000` with its table behind it: one object, whose only
method `7` takes anything and returns a struct of one data word. -/
def objectMemory : Mem 64 :=
  memOfBytes 0x1000#64
    [0x00, 0xE0, 0xB1, 0xCA, 0x00, 0xE0, 0xB1, 0xCA, 1, 0, 0, 0, 0, 0, 0, 0,
      0x40, 0, 0, 0, 0, 0, 0, 0, 0x50, 0, 0, 0, 0, 0, 0, 0,
      0x30, 0x10, 0, 0, 0, 0, 0, 0, 0, 0, 0, 0, 0, 0, 0, 0,
      0x70, 0x10, 0, 0, 0, 0, 0, 0, 1, 0, 0, 0, 0, 0, 0, 0,
      0, 0, 0, 0, 0, 0, 0, 0, 0, 0, 0, 0, 0, 0, 0, 0,
      0x78, 0x10, 0, 0, 0, 0, 0, 0, 1, 0, 0, 0, 0, 0, 0, 0,
      0x80, 0x10, 0, 0, 0, 0, 0, 0, 1, 0, 0, 0, 0, 0, 0, 0,
      1, 0, 0, 0, 0xFF, 0xFF, 0, 0,
      7, 0, 0, 0, 0xFF, 0xFF, 0, 0,
      0, 0, 1, 0]

/-- An eight-byte response buffer followed by sixteen bytes of other memory,
which happen to continue a message. -/
def overrunResponse : Buffer :=
  Buffer.ofList
    [0, 0, 0, 0, 2, 0, 0, 0,
      0, 0, 0, 0, 1, 0, 0, 0,
      9, 0, 0, 0, 0, 0, 0, 0]

/-- A handler that fills its eight-byte buffer with a message header and reports
24 bytes makes the kernel read on to byte 15 and report 24 bytes to the caller. -/
theorem kernelInvoke_overruns_response :
    let run := kernelInvoke (fun _ => writingHandler objectMemory overrunResponse.bytes 24)
      objectMemory 0x1000#64 7 (Buffer.ofList []) 0 overrunResponse 8
    ¬ RespectsBuffer 8 run ∧ (15 : Int) ∈ responseReads run.log ∧
      run.value.ret = true ∧ run.value.outResponseLen = 24 := by
  decide

end Cap
end Saski
