import Saski.Cap.Invoke

/-!
# The dispatch gate of `kernel_invoke`

A handler runs exactly when three things hold of the state before the call: the
target record has the magic and is valid, the method occurs in the object's
method run, and the request conforms to that method's parameter schema.  Every
other exit leaves the world as it was, and a handler that ran reaches the caller
only through the check of its response.

The equations of `kernelInvoke` on either side of the gate are stated once here;
results about runs of the kernel use them and do not unfold `kernelInvoke`.
-/

namespace Saski
namespace Cap

open ByteMemory Capnp Logged

/-- The handler calls in a log, as `(handler, data, methodId)`. -/
def calls (log : List InvokeEvent) : List (Nat × Nat × Nat) :=
  log.filterMap fun
    | .call handler data methodId => some (handler, data, methodId)
    | _ => none

/-- The schema table address in the record of `target`. -/
def tableAddrOf (mem : Mem 64) (target : Addr) : Addr :=
  BitVec.ofNat 64 (loadRecord mem target .schemaTable)

/-- The schema table of `target`. -/
def tableOf (mem : Mem 64) (target : Addr) : Option SchemaTable :=
  loadSchemaTable mem (tableAddrOf mem target)

/-- The address of entry `idx` of the method array of `target`'s table. -/
def methodAddrOf (mem : Mem 64) (target : Addr) (idx : Nat) : Addr :=
  entryAddr (loadDescriptor mem (tableAddrOf mem target)).methods methodSchemaSize idx

/-- The message conforms to the schema, or the schema asks for nothing. -/
def Conforms (msg : Buffer) (len : Nat) (table : Option SchemaTable) (schema : Nat) : Prop :=
  schema = schemaIdxNone ∨ (capnpValidateMessage msg len table schema).value = true

/-- The gate: the record is live, `idx` is the first entry of the object's
clipped method run with this method id, and the request conforms to it. -/
structure GateOpen (mem : Mem 64) (target : Addr) (methodId : Nat) (msg : Buffer) (len : Nat)
    (idx : Nat) : Prop where
  live : (loadRecord mem target).Live
  method : FirstMethod (tableOf mem target) (loadRecord mem target .schemaIndex) methodId idx
  conforms : Conforms msg len (tableOf mem target)
    (loadMethodSchema mem (methodAddrOf mem target idx)).paramSchema

/-- What the handler of `target` does with this request. -/
def handlerRun (code : Code) (mem : Mem 64) (target : Addr) (methodId : Nat) (msg : Buffer)
    (len : Nat) (response : Buffer) (responseCap : Nat) : HandlerResult :=
  code (loadRecord mem target .handler) (loadRecord mem target .data) methodId msg len response
    responseCap mem

/-! ## Logs -/

@[simp] theorem calls_nil : calls [] = [] := rfl

@[simp] theorem calls_append (l l' : List InvokeEvent) :
    calls (l ++ l') = calls l ++ calls l' := List.filterMap_append

@[simp] theorem calls_map_request (l : List Access) : calls (l.map .request) = [] := by
  simp [calls]

@[simp] theorem calls_map_response (l : List Access) : calls (l.map .response) = [] := by
  simp [calls]

@[simp] theorem calls_call (handler data methodId : Nat) :
    calls [.call handler data methodId] = [(handler, data, methodId)] := rfl

/-- The validator returns 1 on `SCHEMA_IDX_NONE`, so conforming is being
accepted. -/
theorem conforms_iff (msg : Buffer) (len : Nat) (table : Option SchemaTable) (schema : Nat) :
    Conforms msg len table schema ↔
      (capnpValidateMessage msg len table schema).value = true := by
  constructor
  · rintro (hnone | haccept)
    · simp [capnpValidateMessage, hnone]
    · exact haccept
  · exact Or.inr

/-! ## Both sides of the gate -/

section Gate

variable (code : Code) {mem : Mem 64} {target : Addr} {methodId : Nat} {msg : Buffer}
  {len : Nat} (response : Buffer) (responseCap : Nat)

/-- Past an open gate, `kernel_invoke` is the call of the handler and the check
of its response. -/
theorem kernelInvoke_of_gateOpen {idx : Nat} (h : GateOpen mem target methodId msg len idx) :
    kernelInvoke code mem target methodId msg len response responseCap = (do
      let _ ← (findMethod (tableOf mem target) (loadRecord mem target .schemaIndex)
        methodId).relabel InvokeEvent.request
      let _ ← (capnpValidateMessage msg len (tableOf mem target)
        (loadMethodSchema mem (methodAddrOf mem target idx)).paramSchema).relabel
          InvokeEvent.request
      emit (.call (loadRecord mem target .handler) (loadRecord mem target .data) methodId)
      checkResponse (tableAddrOf mem target) (methodAddrOf mem target idx) response responseCap
        (handlerRun code mem target methodId msg len response responseCap)) := by
  have hlive : ¬ (loadRecord mem target .magic ≠ capRecordMagic ∨
      loadRecord mem target .valid = 0) := by
    rw [← CapRecord.not_live_iff, not_not]
    exact h.live
  have hmethod := (value_findMethod _ _ _ _).mpr h.method
  have hconforms := (conforms_iff _ _ _ _).mp h.conforms
  unfold kernelInvoke
  rw [if_neg hlive]
  simp only [bind, value_relabel]
  rw [show loadSchemaTable mem (BitVec.ofNat 64 (loadRecord mem target .schemaTable)) =
    tableOf mem target from rfl]
  rw [hmethod]
  simp only [show entryAddr (loadDescriptor mem
      (BitVec.ofNat 64 (loadRecord mem target .schemaTable))).methods methodSchemaSize idx =
    methodAddrOf mem target idx from rfl, hconforms, if_true]
  rfl

theorem kernelInvoke_value_of_gateOpen {idx : Nat}
    (h : GateOpen mem target methodId msg len idx) :
    (kernelInvoke code mem target methodId msg len response responseCap).value =
      (checkResponse (tableAddrOf mem target) (methodAddrOf mem target idx) response responseCap
        (handlerRun code mem target methodId msg len response responseCap)).value := by
  rw [kernelInvoke_of_gateOpen code response responseCap h]
  rfl

/-- In front of a closed gate, `kernel_invoke` reads on behalf of the request and
does nothing else. -/
theorem kernelInvoke_of_gate_closed (h : ¬ ∃ idx, GateOpen mem target methodId msg len idx) :
    (kernelInvoke code mem target methodId msg len response responseCap).value =
        ⟨false, 0, response.bytes, mem⟩ ∧
      ∃ reads : List Access,
        (kernelInvoke code mem target methodId msg len response responseCap).log =
          reads.map .request := by
  -- The exits in front of the gate: a dead record, an unknown method, a request
  -- that does not conform.
  unfold kernelInvoke
  by_cases hdead : loadRecord mem target .magic ≠ capRecordMagic ∨
      loadRecord mem target .valid = 0
  · simp only [if_pos hdead]
    exact ⟨rfl, [], rfl⟩
  · have hlive : (loadRecord mem target).Live := by
      rw [← CapRecord.not_live_iff, not_not] at hdead
      exact hdead
    simp only [if_neg hdead, value_bind, log_bind, value_relabel, log_relabel]
    rw [show loadSchemaTable mem (BitVec.ofNat 64 (loadRecord mem target .schemaTable)) =
      tableOf mem target from rfl]
    cases hmethod : (findMethod (tableOf mem target) (loadRecord mem target .schemaIndex)
        methodId).value with
    | none => exact ⟨rfl, _, List.append_nil _⟩
    | some idx =>
        have hreject : (capnpValidateMessage msg len (tableOf mem target)
            (loadMethodSchema mem (methodAddrOf mem target idx)).paramSchema).value = false := by
          apply Bool.eq_false_of_not_eq_true
          intro haccept
          exact h ⟨idx, hlive, (value_findMethod _ _ _ _).mp hmethod,
            (conforms_iff _ _ _ _).mpr haccept⟩
        simp only [value_bind, log_bind, value_relabel, log_relabel]
        simp only [show entryAddr (loadDescriptor mem
            (BitVec.ofNat 64 (loadRecord mem target .schemaTable))).methods methodSchemaSize idx =
          methodAddrOf mem target idx from rfl, hreject, Bool.false_eq_true, if_false]
        refine ⟨rfl, (findMethod (tableOf mem target) (loadRecord mem target .schemaIndex)
          methodId).log ++ (capnpValidateMessage msg len (tableOf mem target)
            (loadMethodSchema mem (methodAddrOf mem target idx)).paramSchema).log, ?_⟩
        rw [log_pure, List.append_nil, List.map_append]

end Gate

/-! ## The check of the response -/

theorem calls_checkResponse (tableAddr methodAddr : Addr) (response : Buffer)
    (responseCap : Nat) (r : HandlerResult) :
    calls (checkResponse tableAddr methodAddr response responseCap r).log = [] := by
  unfold checkResponse
  by_cases hnone : (loadMethodSchema r.mem methodAddr).resultSchema = schemaIdxNone
  · simp [hnone]
  · simp only [hnone, if_false, log_bind, log_relabel, calls_append, calls_map_response,
      List.nil_append]
    split <;> rfl

/-- The response reaches the caller if it conforms; otherwise it is erased. -/
theorem value_checkResponse (tableAddr methodAddr : Addr) (response : Buffer)
    (responseCap : Nat) (r : HandlerResult) :
    ((checkResponse tableAddr methodAddr response responseCap r).value =
        ⟨true, r.outResponseLen, r.response, r.mem⟩ ∧
      Conforms ⟨response.isNull, r.response⟩ r.outResponseLen (loadSchemaTable r.mem tableAddr)
        (loadMethodSchema r.mem methodAddr).resultSchema) ∨
    ((checkResponse tableAddr methodAddr response responseCap r).value =
        ⟨false, 0, zeroFirst responseCap r.response, r.mem⟩ ∧
      ¬ Conforms ⟨response.isNull, r.response⟩ r.outResponseLen
        (loadSchemaTable r.mem tableAddr)
        (loadMethodSchema r.mem methodAddr).resultSchema) := by
  rw [conforms_iff]
  unfold checkResponse
  by_cases hnone : (loadMethodSchema r.mem methodAddr).resultSchema = schemaIdxNone
  · left
    simp [hnone, capnpValidateMessage]
  · simp only [hnone, if_false, value_bind, value_relabel]
    by_cases hok : (capnpValidateMessage ⟨response.isNull, r.response⟩ r.outResponseLen
        (loadSchemaTable r.mem tableAddr)
        (loadMethodSchema r.mem methodAddr).resultSchema).value = true
    · left
      simp [hok]
    · right
      simp [hok]

section Gate

variable (code : Code) {mem : Mem 64} {target : Addr} {methodId : Nat} {msg : Buffer}
  {len : Nat} (response : Buffer) (responseCap : Nat)

/-- Past an open gate the handler is called once. -/
theorem calls_kernelInvoke_of_gateOpen {idx : Nat}
    (h : GateOpen mem target methodId msg len idx) :
    calls (kernelInvoke code mem target methodId msg len response responseCap).log =
      [(loadRecord mem target .handler, loadRecord mem target .data, methodId)] := by
  simp only [kernelInvoke_of_gateOpen code response responseCap h, log_bind, log_relabel,
    log_emit, calls_append, calls_map_request, calls_call, calls_checkResponse,
    List.nil_append, List.append_nil]

/-- Past an open gate the memory is what the handler made of it. -/
theorem mem_kernelInvoke_of_gateOpen {idx : Nat}
    (h : GateOpen mem target methodId msg len idx) :
    (kernelInvoke code mem target methodId msg len response responseCap).value.mem =
      (handlerRun code mem target methodId msg len response responseCap).mem := by
  rw [kernelInvoke_value_of_gateOpen code response responseCap h]
  rcases value_checkResponse (tableAddrOf mem target) (methodAddrOf mem target idx) response
      responseCap (handlerRun code mem target methodId msg len response responseCap) with
    ⟨hcheck, -⟩ | ⟨hcheck, -⟩
  · rw [hcheck]
  · rw [hcheck]

end Gate

/-- **The dispatch gate.**  For every memory, target, method, request and
handler: the handler of the target is called, once and with the record's own
data pointer, exactly when the gate is open.  In front of a closed gate the call
returns 0 with a zero length and changes nothing.  Past an open gate it returns
1 exactly when the response conforms to the method's result schema, and
otherwise returns 0 with a zero length and a zeroed response buffer. -/
theorem kernelInvoke_dispatch_gate (code : Code) (mem : Mem 64) (target : Addr)
    (methodId : Nat) (msg : Buffer) (len : Nat) (response : Buffer) (responseCap : Nat) :
    let run := kernelInvoke code mem target methodId msg len response responseCap
    let record := loadRecord mem target
    let r := handlerRun code mem target methodId msg len response responseCap
    (calls run.log = [(record .handler, record .data, methodId)] ↔
        ∃ idx, GateOpen mem target methodId msg len idx) ∧
      ((¬ ∃ idx, GateOpen mem target methodId msg len idx) →
        calls run.log = [] ∧ run.value.ret = false ∧ run.value.outResponseLen = 0 ∧
          run.value.mem = mem ∧ run.value.response = response.bytes) ∧
      ∀ idx, GateOpen mem target methodId msg len idx →
        (run.value.ret = true ↔
          Conforms ⟨response.isNull, r.response⟩ r.outResponseLen
            (loadSchemaTable r.mem (tableAddrOf mem target))
            (loadMethodSchema r.mem (methodAddrOf mem target idx)).resultSchema) ∧
        (run.value.ret = true →
          run.value.outResponseLen = r.outResponseLen ∧ run.value.response = r.response) ∧
        (run.value.ret = false →
          run.value.outResponseLen = 0 ∧
            ∀ i : Int, 0 ≤ i → i < responseCap → run.value.response i = 0) ∧
        run.value.mem = r.mem := by
  intro run record r
  have hcalls : ∀ idx, GateOpen mem target methodId msg len idx →
      calls run.log = [(record .handler, record .data, methodId)] := by
    intro idx hgate
    exact calls_kernelInvoke_of_gateOpen code response responseCap hgate
  refine ⟨⟨?_, ?_⟩, ?_, ?_⟩
  · intro hcalled
    by_contra hclosed
    obtain ⟨-, reads, hlog⟩ := kernelInvoke_of_gate_closed code response responseCap hclosed
    rw [show run.log = reads.map .request from hlog, calls_map_request] at hcalled
    exact List.cons_ne_nil _ _ hcalled.symm
  · rintro ⟨idx, hgate⟩
    exact hcalls idx hgate
  · intro hclosed
    obtain ⟨hvalue, reads, hlog⟩ :=
      kernelInvoke_of_gate_closed code response responseCap hclosed
    have hvalue' : run.value = ⟨false, 0, response.bytes, mem⟩ := hvalue
    have hlog' : run.log = reads.map .request := hlog
    rw [hvalue', hlog', calls_map_request]
    exact ⟨rfl, rfl, rfl, rfl, rfl⟩
  · intro idx hgate
    have hvalue : run.value = (checkResponse (tableAddrOf mem target)
        (methodAddrOf mem target idx) response responseCap r).value :=
      kernelInvoke_value_of_gateOpen code response responseCap hgate
    rcases value_checkResponse (tableAddrOf mem target) (methodAddrOf mem target idx) response
        responseCap r with ⟨hcheck, hconforms⟩ | ⟨hcheck, hrefuse⟩
    · rw [hvalue, hcheck]
      exact ⟨by simp [hconforms], fun _ => ⟨rfl, rfl⟩, by simp, rfl⟩
    · rw [hvalue, hcheck]
      refine ⟨by simp [hrefuse], by simp, fun _ => ⟨rfl, ?_⟩, rfl⟩
      intro i hnonneg hlt
      simp [zeroFirst, hnonneg, hlt]

end Cap
end Saski
