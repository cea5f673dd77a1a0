import Saski.Cap.ObjectMap
import Saski.Lib.SingleBit

/-!
# Cores that share records under `g_cap_lock`

The sequential model treats each section between `cap_lock` and `cap_unlock` as
one step.  Here every core takes the steps of the source one at a time: saving
the interrupt state, masking, the test-and-set, each read and each write of a
record field, the release and the restoring of the interrupt state.

* A core runs a stack of activations.  `kernel_invoke`, CREATE and DESTROY are
  activations that take the lock once.  A handler may call `kernel_invoke`
  again.  A maskable interrupt may be taken whenever the core is not masked, at
  any point of any activation; its handler is again code that may call
  `kernel_invoke`, and its return restores the interrupted flags.
* CREATE and DESTROY run inside `factory_handler`, that is, on top of a
  `kernel_invoke` that dispatched to that function pointer.
* The shared memory is the memory of bytes of the sequential model, and a whole
  section does to it what the sequential model does in one step: `runBody_invoke`,
  `runBody_create`, `runBody_destroy`.  Code outside may write all of it but the
  records, which only this code touches.

Three parts of the state only observe: the flags an activation found on entry,
the list of operations that have released the lock, and the list of snapshots on
which a handler was dispatched.
-/

namespace Saski
namespace Cap

open ByteMemory SingleBit

/-! ## The interrupt state of a core -/

/-- The instruction sets the kernel is built for. -/
inductive Arch where
  | aarch64
  | x86_64
  deriving DecidableEq, Repr

/-- `cap_irq_state_t`: `DAIF` or `RFLAGS`. -/
abbrev Flags := BitVec 64

/-- Maskable interrupts are not taken: the `I` bit of `DAIF` is set, the `IF` bit
of `RFLAGS` is clear. -/
def Arch.masked : Arch → Flags → Bool
  | .aarch64, flags => flags.getLsbD 7
  | .x86_64, flags => !flags.getLsbD 9

/-- `msr daifset, #2`, `cli`. -/
def Arch.mask : Arch → Flags → Flags
  | .aarch64, flags => flags ||| (1#64 <<< 7)
  | .x86_64, flags => flags &&& ~~~(1#64 <<< 9)

/-- `msr daifclr, #2`, `sti`. -/
def Arch.unmask : Arch → Flags → Flags
  | .aarch64, flags => flags &&& ~~~(1#64 <<< 7)
  | .x86_64, flags => flags ||| (1#64 <<< 9)

/-- The end of `cap_unlock`. -/
def Arch.restore : Arch → (prior flags : Flags) → Flags
  | .aarch64, prior, flags =>
      if prior &&& (1#64 <<< 7) = 0 then Arch.unmask .aarch64 flags else flags
  | .x86_64, prior, flags =>
      if prior &&& (1#64 <<< 9) ≠ 0 then Arch.unmask .x86_64 flags else flags

theorem Arch.masked_mask (arch : Arch) (flags : Flags) : arch.masked (arch.mask flags) = true := by
  cases arch with
  | aarch64 => simp [masked, mask]
  | x86_64 => simp [masked, mask]

/-- Masking and restoring what was saved before gives back the same flags,
whether they were masked or not. -/
theorem Arch.restore_mask (arch : Arch) (flags : Flags) :
    arch.restore flags (arch.mask flags) = flags := by
  cases arch with
  | aarch64 =>
      simp only [restore, and_bit_eq_zero_iff flags (show 7 < 64 by decide)]
      cases hbit : flags.getLsbD 7 with
      | false => exact and_not_bit_or_bit hbit
      | true => exact or_bit_of_set hbit
  | x86_64 =>
      simp only [restore, ne_eq, and_bit_eq_zero_iff flags (show 9 < 64 by decide)]
      cases hbit : flags.getLsbD 9 with
      | false => exact and_not_bit_of_clear hbit
      | true => exact or_bit_and_not_bit hbit

/-! ## The locked sections -/

/-- One access of a locked section to its record.  A failed check leaves the
section. -/
inductive Micro where
  | checkMagic
  | checkValid
  | copyField (f : Field)
  | writeField (f : Field) (v : Nat)

/-- The effect of an access to the record at `r` on the memory and on the section's
copy of the record; `none` is a failed check. -/
def Micro.exec (r : Addr) : Micro → Mem 64 → (copy : CapRecord) → Option (Mem 64 × CapRecord)
  | .checkMagic, mem, copy =>
      if loadField mem r .magic ≠ capRecordMagic then none else some (mem, copy)
  | .checkValid, mem, copy => if loadField mem r .valid = 0 then none else some (mem, copy)
  | .copyField f, mem, copy => some (mem, Function.update copy f (loadField mem r f))
  | .writeField f v, mem, copy => some (storeField mem r f v, copy)

/-- What takes the lock: `kernel_invoke` up to its copy of the record, CREATE and
DESTROY. -/
inductive LockOp where
  | invoke (target : Addr)
  | create (target : Addr) (p : Payload)
  | destroy (target : Addr)

/-- The record the section is about. -/
def LockOp.target : LockOp → Addr
  | .invoke r => r
  | .create r _ => r
  | .destroy r => r

/-- The fields in the order of `cap_record_t`. -/
def fields : List Field := [.magic, .valid, .handler, .data, .schemaTable, .schemaIndex]

/-- The accesses between `cap_lock` and `cap_unlock`. -/
def LockOp.body : LockOp → List Micro
  | .invoke _ => .checkMagic :: .checkValid :: fields.map .copyField
  | .create _ p => (createWrites p).map fun w => .writeField w.1 w.2
  | .destroy _ => .checkMagic :: .checkValid :: destroyWrites.map fun w => .writeField w.1 w.2

/-- The operation on the object map that a section has performed when it
releases the lock. -/
def LockOp.released : LockOp → List Op
  | .invoke _ => []
  | .create r p => [.create r p.stored]
  | .destroy r => [.destroy r]

/-- The rest of a section, run without interference: whether its checks passed,
the memory and the copy. -/
def runBody (r : Addr) : List Micro → Mem 64 → (copy : CapRecord) → Bool × Mem 64 × CapRecord
  | [], mem, copy => (true, mem, copy)
  | m :: rest, mem, copy =>
      match m.exec r mem copy with
      | none => (false, mem, copy)
      | some (mem, copy) => runBody r rest mem copy

/-! ### Sections that are not interfered with -/

/-- An access leaves a record that does not overlap its own alone. -/
theorem Micro.loadRecord_exec_separate {m : Micro} {r r' : Addr} {mem mem' : Mem 64}
    {copy copy' : CapRecord} (hexec : m.exec r mem copy = some (mem', copy'))
    (hsep : Separate r' recordSize r recordSize) : loadRecord mem' r' = loadRecord mem r' := by
  cases m with
  | checkMagic =>
      rw [Micro.exec, Option.ite_none_left_eq_some, Option.some.injEq, Prod.mk.injEq] at hexec
      rw [hexec.2.1]
  | checkValid =>
      rw [Micro.exec, Option.ite_none_left_eq_some, Option.some.injEq, Prod.mk.injEq] at hexec
      rw [hexec.2.1]
  | copyField f =>
      rw [Micro.exec, Option.some.injEq, Prod.mk.injEq] at hexec
      rw [hexec.1]
  | writeField f v =>
      rw [Micro.exec, Option.some.injEq, Prod.mk.injEq] at hexec
      rw [← hexec.1]
      exact loadRecord_storeFields_separate mem [(f, v)] hsep

theorem runBody_writes (r : Addr) (ws : FieldWrites) (mem : Mem 64) (copy : CapRecord) :
    runBody r (ws.map fun w => .writeField w.1 w.2) mem copy =
      (true, storeFields mem r ws, copy) := by
  induction ws generalizing mem with
  | nil => rfl
  | cons w ws ih => exact ih _

theorem runBody_copies (r : Addr) (fs : List Field) (mem : Mem 64) (copy : CapRecord) :
    runBody r (fs.map .copyField) mem copy =
      (true, mem, fun f => if f ∈ fs then loadRecord mem r f else copy f) := by
  induction fs generalizing copy with
  | nil => simp [runBody]
  | cons f fs ih =>
      change runBody r (fs.map .copyField) mem (Function.update copy f (loadRecord mem r f)) = _
      rw [ih]
      refine congrArg (fun cp => (true, mem, cp)) ?_
      ext g
      by_cases hgf : g = f
      · simp [hgf]
      · simp [hgf]

theorem runBody_checks (r : Addr) (rest : List Micro) (mem : Mem 64) (copy : CapRecord) :
    runBody r (.checkMagic :: .checkValid :: rest) mem copy =
      if (loadRecord mem r).Live then runBody r rest mem copy else (false, mem, copy) := by
  by_cases hmagic : loadField mem r .magic = capRecordMagic
  · by_cases hvalid : loadField mem r .valid = 0
    · simp [runBody, Micro.exec, CapRecord.Live, loadRecord, hmagic, hvalid]
    · simp [runBody, Micro.exec, CapRecord.Live, loadRecord, hmagic, hvalid]
  · simp [runBody, Micro.exec, CapRecord.Live, loadRecord, hmagic]

/-- `kernel_invoke` copies a live record whole and leaves the memory alone. -/
theorem runBody_invoke (r : Addr) (mem : Mem 64) (copy : CapRecord) :
    runBody r (LockOp.invoke r).body mem copy =
      if (loadRecord mem r).Live then (true, mem, loadRecord mem r) else (false, mem, copy) := by
  have hall : ∀ f : Field, f ∈ fields := by
    intro f
    cases f <;> decide
  unfold LockOp.body
  rw [runBody_checks, runBody_copies]
  simp [hall]

/-- CREATE does to the memory what the sequential model does. -/
theorem runBody_create (r : Addr) (p : Payload) (mem : Mem 64) (copy : CapRecord) :
    runBody r (LockOp.create r p).body mem copy =
      (true, storeFields mem r (createWrites p), copy) := by
  unfold LockOp.body
  exact runBody_writes r (createWrites p) mem copy

/-- DESTROY does to the memory what the sequential model does. -/
theorem runBody_destroy (r : Addr) (mem : Mem 64) (copy : CapRecord) :
    runBody r (LockOp.destroy r).body mem copy =
      if (loadRecord mem r).Live then (true, storeFields mem r destroyWrites, copy)
      else (false, mem, copy) := by
  unfold LockOp.body
  rw [runBody_checks, runBody_writes]

/-! ## Cores -/

/-- Where an activation stands. -/
inductive Pc where
  /-- before `mrs %0, daif` or `pushfq` -/
  | save
  /-- the interrupt state is in `prior`; interrupts are not yet masked -/
  | mask (prior : Flags)
  /-- at `__sync_lock_test_and_set` -/
  | acquire (prior : Flags)
  /-- in the loop that waits for the lock to look free -/
  | wait (prior : Flags)
  /-- inside the section, with the accesses still to come -/
  | body (prior : Flags) (rest : List Micro) (copy : CapRecord)
  /-- at `__sync_lock_release` -/
  | release (prior : Flags) (ok : Bool) (copy : CapRecord)
  /-- behind the release, before the interrupt state is restored -/
  | restore (prior : Flags) (ok : Bool) (copy : CapRecord) (seen : List Op)
  /-- `cap_unlock` has returned -/
  | unlocked (ok : Bool) (copy : CapRecord) (seen : List Op)
  /-- the handler in the copied record is running -/
  | handling (copy : CapRecord) (seen : List Op)

/-- An activation, with the flags the core had when it began. -/
structure Frame where
  op : LockOp
  entry : Flags
  pc : Pc

/-- A stack holds activations and interrupt handlers, each of these with the
flags that its return restores. -/
inductive StackFrame where
  | call (f : Frame)
  | irq (saved : Flags)

structure CoreState where
  flags : Flags
  stack : List StackFrame

/-- The core runs code outside this file: it is idle, in a handler or in an
interrupt handler. -/
def Outside : List StackFrame → Prop
  | [] => True
  | .irq _ :: _ => True
  | .call ⟨_, _, .handling _ _⟩ :: _ => True
  | .call _ :: _ => False

/-- A record on which a handler was dispatched, with the operations that had
released the lock by the time the record was copied. -/
structure Snapshot where
  target : Addr
  record : CapRecord
  seen : List Op

/-- The cores and what they share.  The lock word is free or was set by a core. -/
structure Sys (Core : Type) where
  lock : Option Core
  mem : Mem 64
  cores : Core → CoreState
  history : List Op
  dispatched : List Snapshot

/-- What is fixed: the instruction set, the image with the factory, and the
storages that records are created in. -/
structure Machine where
  arch : Arch
  img : Image
  storages : Set Addr

/-- The records: the factory's own, and those in the storages. -/
def Machine.records (k : Machine) : Set Addr := insert k.img.factoryRecord k.storages

section Steps

variable {Core : Type} [DecidableEq Core]

def Sys.setCore (s : Sys Core) (c : Core) (flags : Flags) (stack : List StackFrame) : Sys Core :=
  { s with cores := Function.update s.cores c ⟨flags, stack⟩ }

/-- The steps of core `c`. -/
inductive CoreStep (k : Machine) (c : Core) : Sys Core → Sys Core → Prop
  /-- Code outside calls `kernel_invoke`. -/
  | startInvoke {s : Sys Core} (target : Addr) (htarget : target ∈ k.records)
      (houtside : Outside (s.cores c).stack) :
      CoreStep k c s (s.setCore c (s.cores c).flags
        (.call ⟨.invoke target, (s.cores c).flags, .save⟩ :: (s.cores c).stack))
  /-- `factory_handler` serves a CREATE with non-null storage. -/
  | startCreate {s : Sys Core} {op : LockOp} {entry : Flags} {copy : CapRecord} {seen : List Op}
      {st : List StackFrame} (target : Addr) (p : Payload) (htarget : target ∈ k.records)
      (hnull : target ≠ 0)
      (hstack : (s.cores c).stack = .call ⟨op, entry, .handling copy seen⟩ :: st)
      (hhandler : copy .handler = k.img.factoryHandler.toNat) :
      CoreStep k c s (s.setCore c (s.cores c).flags
        (.call ⟨.create target p, (s.cores c).flags, .save⟩ :: (s.cores c).stack))
  /-- `factory_handler` serves a DESTROY of anything but the factory. -/
  | startDestroy {s : Sys Core} {op : LockOp} {entry : Flags} {copy : CapRecord} {seen : List Op}
      {st : List StackFrame} (target : Addr) (htarget : target ∈ k.records)
      (hfactory : target ≠ k.img.factoryRecord)
      (hstack : (s.cores c).stack = .call ⟨op, entry, .handling copy seen⟩ :: st)
      (hhandler : copy .handler = k.img.factoryHandler.toNat) :
      CoreStep k c s (s.setCore c (s.cores c).flags
        (.call ⟨.destroy target, (s.cores c).flags, .save⟩ :: (s.cores c).stack))
  | save {s : Sys Core} {op : LockOp} {entry : Flags} {st : List StackFrame}
      (hstack : (s.cores c).stack = .call ⟨op, entry, .save⟩ :: st) :
      CoreStep k c s (s.setCore c (s.cores c).flags
        (.call ⟨op, entry, .mask (s.cores c).flags⟩ :: st))
  | mask {s : Sys Core} {op : LockOp} {entry prior : Flags} {st : List StackFrame}
      (hstack : (s.cores c).stack = .call ⟨op, entry, .mask prior⟩ :: st) :
      CoreStep k c s (s.setCore c (k.arch.mask (s.cores c).flags)
        (.call ⟨op, entry, .acquire prior⟩ :: st))
  /-- The test-and-set finds the lock free. -/
  | acquire {s : Sys Core} {op : LockOp} {entry prior : Flags} {st : List StackFrame}
      (hstack : (s.cores c).stack = .call ⟨op, entry, .acquire prior⟩ :: st)
      (hfree : s.lock = none) :
      CoreStep k c s { s.setCore c (s.cores c).flags
        (.call ⟨op, entry, .body prior op.body fun _ => 0⟩ :: st) with lock := some c }
  /-- The test-and-set finds the lock taken. -/
  | busy {s : Sys Core} {op : LockOp} {entry prior : Flags} {st : List StackFrame}
      (hstack : (s.cores c).stack = .call ⟨op, entry, .acquire prior⟩ :: st)
      (hheld : s.lock ≠ none) :
      CoreStep k c s (s.setCore c (s.cores c).flags (.call ⟨op, entry, .wait prior⟩ :: st))
  /-- The waiting loop reads a free lock and tries again. -/
  | retry {s : Sys Core} {op : LockOp} {entry prior : Flags} {st : List StackFrame}
      (hstack : (s.cores c).stack = .call ⟨op, entry, .wait prior⟩ :: st)
      (hfree : s.lock = none) :
      CoreStep k c s (s.setCore c (s.cores c).flags (.call ⟨op, entry, .acquire prior⟩ :: st))
  /-- One access of the section. -/
  | access {s : Sys Core} {op : LockOp} {entry prior : Flags} {m : Micro} {rest : List Micro}
      {copy copy' : CapRecord} {mem' : Mem 64} {st : List StackFrame}
      (hstack : (s.cores c).stack = .call ⟨op, entry, .body prior (m :: rest) copy⟩ :: st)
      (hexec : m.exec op.target s.mem copy = some (mem', copy')) :
      CoreStep k c s { s.setCore c (s.cores c).flags
        (.call ⟨op, entry, .body prior rest copy'⟩ :: st) with mem := mem' }
  /-- A check of the section fails. -/
  | refuse {s : Sys Core} {op : LockOp} {entry prior : Flags} {m : Micro} {rest : List Micro}
      {copy : CapRecord} {st : List StackFrame}
      (hstack : (s.cores c).stack = .call ⟨op, entry, .body prior (m :: rest) copy⟩ :: st)
      (hexec : m.exec op.target s.mem copy = none) :
      CoreStep k c s (s.setCore c (s.cores c).flags
        (.call ⟨op, entry, .release prior false copy⟩ :: st))
  /-- The section is through. -/
  | finish {s : Sys Core} {op : LockOp} {entry prior : Flags} {copy : CapRecord}
      {st : List StackFrame}
      (hstack : (s.cores c).stack = .call ⟨op, entry, .body prior [] copy⟩ :: st) :
      CoreStep k c s (s.setCore c (s.cores c).flags
        (.call ⟨op, entry, .release prior true copy⟩ :: st))
  | release {s : Sys Core} {op : LockOp} {entry prior : Flags} {ok : Bool} {copy : CapRecord}
      {st : List StackFrame}
      (hstack : (s.cores c).stack = .call ⟨op, entry, .release prior ok copy⟩ :: st) :
      CoreStep k c s { s.setCore c (s.cores c).flags
        (.call ⟨op, entry, .restore prior ok copy s.history⟩ :: st) with
          lock := none
          history := s.history ++ op.released }
  | restore {s : Sys Core} {op : LockOp} {entry prior : Flags} {ok : Bool} {copy : CapRecord}
      {seen : List Op} {st : List StackFrame}
      (hstack : (s.cores c).stack = .call ⟨op, entry, .restore prior ok copy seen⟩ :: st) :
      CoreStep k c s (s.setCore c (k.arch.restore prior (s.cores c).flags)
        (.call ⟨op, entry, .unlocked ok copy seen⟩ :: st))
  /-- CREATE or DESTROY returns, or `kernel_invoke` does without calling a handler. -/
  | leave {s : Sys Core} {op : LockOp} {entry : Flags} {ok : Bool} {copy : CapRecord}
      {seen : List Op} {st : List StackFrame}
      (hstack : (s.cores c).stack = .call ⟨op, entry, .unlocked ok copy seen⟩ :: st) :
      CoreStep k c s (s.setCore c (s.cores c).flags st)
  /-- `kernel_invoke` calls the handler of the record it copied. -/
  | dispatch {s : Sys Core} {r : Addr} {entry : Flags} {copy : CapRecord} {seen : List Op}
      {st : List StackFrame}
      (hstack : (s.cores c).stack = .call ⟨.invoke r, entry, .unlocked true copy seen⟩ :: st) :
      CoreStep k c s { s.setCore c (s.cores c).flags
        (.call ⟨.invoke r, entry, .handling copy seen⟩ :: st) with
          dispatched := s.dispatched ++ [⟨r, copy, seen⟩] }
  /-- The handler returns, and `kernel_invoke` after it. -/
  | handled {s : Sys Core} {op : LockOp} {entry : Flags} {copy : CapRecord} {seen : List Op}
      {st : List StackFrame}
      (hstack : (s.cores c).stack = .call ⟨op, entry, .handling copy seen⟩ :: st) :
      CoreStep k c s (s.setCore c (s.cores c).flags st)
  /-- A maskable interrupt is taken; its handler starts with any flags. -/
  | interrupt {s : Sys Core} (flags : Flags) (hopen : k.arch.masked (s.cores c).flags = false) :
      CoreStep k c s (s.setCore c flags (.irq (s.cores c).flags :: (s.cores c).stack))
  | irqReturn {s : Sys Core} {saved : Flags} {st : List StackFrame}
      (hstack : (s.cores c).stack = .irq saved :: st) :
      CoreStep k c s (s.setCore c saved st)
  /-- Code outside changes the flags. -/
  | setFlags {s : Sys Core} (flags : Flags) (houtside : Outside (s.cores c).stack) :
      CoreStep k c s (s.setCore c flags (s.cores c).stack)
  /-- Code outside writes memory, but none that a record occupies. -/
  | writeMemory {s : Sys Core} (mem' : Mem 64) (houtside : Outside (s.cores c).stack)
      (hrecords : ∀ r ∈ k.records, ∀ x, InExtent r recordSize x → s.mem x = mem' x) :
      CoreStep k c s { s with mem := mem' }

/-- Some core takes a step. -/
def Step (k : Machine) (s s' : Sys Core) : Prop := ∃ c, CoreStep k c s s'

/-- The lock is free and no core is inside. -/
structure Idle (s : Sys Core) : Prop where
  free : s.lock = none
  outside : ∀ c, (s.cores c).stack = []

/-- The state when `kernel_cap_bootstrap` has completed for the first time and no
storage holds a live record yet.  Bootstrap counts as the factory's CREATE. -/
structure Initial (k : Machine) (s : Sys Core) : Prop where
  idle : Idle s
  booted : ∃ (s₀ : KernelState) (caps : InitialCapabilities), FreshImage k.img s₀.mem ∧
    kernelCapBootstrap k.img s₀ = some (caps, ⟨s.mem, 0⟩)
  empty : ∀ r ∈ k.storages, ¬ (loadRecord s.mem r).Live
  history : s.history = [.create k.img.factoryRecord (factoryPayload k.img)]
  dispatched : s.dispatched = []

/-- States reached by any interleaving of the cores' steps. -/
def Reachable (k : Machine) (s : Sys Core) : Prop :=
  ∃ s₀, Initial k s₀ ∧ Relation.ReflTransGen (Step k) s₀ s

end Steps

end Cap
end Saski
