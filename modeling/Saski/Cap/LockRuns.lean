import Saski.Cap.LockSystem

/-!
# A section without interference

A core that finds the lock free can go through its section step by step, and the
section then does to the memory what `runBody` says.  By `runBody_invoke`,
`runBody_create` and `runBody_destroy` that is what the sequential model does in
one step, so each run of the sequential model is a run of a core that is alone.
-/

namespace Saski
namespace Cap

open Relation

variable {Core : Type} [DecidableEq Core]

@[simp] theorem setCore_cores_self (s : Sys Core) (c : Core) (flags : Flags)
    (stack : List StackFrame) : (s.setCore c flags stack).cores c = ⟨flags, stack⟩ :=
  Function.update_self _ _ _

@[simp] theorem setCore_setCore (s : Sys Core) (c : Core) (flags flags' : Flags)
    (stack stack' : List StackFrame) :
    (s.setCore c flags stack).setCore c flags' stack' = s.setCore c flags' stack' := by
  unfold Sys.setCore
  simp

/-- What a core does alone is an interleaving. -/
theorem steps_of_coreSteps {k : Machine} {s s' : Sys Core} {c : Core}
    (h : ReflTransGen (CoreStep k c) s s') : ReflTransGen (Step k) s s' :=
  ReflTransGen.mono (fun _ _ hstep => ⟨c, hstep⟩) _ _ h

variable {k : Machine} {s : Sys Core} {c : Core} {op : LockOp} {entry prior : Flags}
  {st : List StackFrame}

/-- From the call of `cap_lock` into the section. -/
theorem acquire_runs (hstack : (s.cores c).stack = .call ⟨op, entry, .save⟩ :: st)
    (hfree : s.lock = none) :
    ReflTransGen (CoreStep k c) s { s.setCore c (k.arch.mask (s.cores c).flags)
      (.call ⟨op, entry, .body (s.cores c).flags op.body fun _ => 0⟩ :: st) with
        lock := some c } := by
  have hsave : CoreStep k c s (s.setCore c (s.cores c).flags
      (.call ⟨op, entry, .mask (s.cores c).flags⟩ :: st)) := .save hstack
  have hmask : CoreStep k c (s.setCore c (s.cores c).flags
      (.call ⟨op, entry, .mask (s.cores c).flags⟩ :: st))
      (s.setCore c (k.arch.mask (s.cores c).flags)
        (.call ⟨op, entry, .acquire (s.cores c).flags⟩ :: st)) := by
    have hstep := CoreStep.mask (k := k) (c := c) (s := s.setCore c (s.cores c).flags
      (.call ⟨op, entry, .mask (s.cores c).flags⟩ :: st)) (by rw [setCore_cores_self])
    simp only [setCore_cores_self, setCore_setCore] at hstep
    exact hstep
  have hacquire : CoreStep k c (s.setCore c (k.arch.mask (s.cores c).flags)
      (.call ⟨op, entry, .acquire (s.cores c).flags⟩ :: st))
      { s.setCore c (k.arch.mask (s.cores c).flags)
        (.call ⟨op, entry, .body (s.cores c).flags op.body fun _ => 0⟩ :: st) with
          lock := some c } := by
    have hstep := CoreStep.acquire (k := k) (c := c) (s := s.setCore c
      (k.arch.mask (s.cores c).flags) (.call ⟨op, entry, .acquire (s.cores c).flags⟩ :: st))
      (by rw [setCore_cores_self]) hfree
    simp only [setCore_cores_self, setCore_setCore] at hstep
    exact hstep
  exact .head hsave (.head hmask (.single hacquire))

/-- Through the section, access by access. -/
theorem section_runs {rest : List Micro} {copy : CapRecord}
    (hstack : (s.cores c).stack = .call ⟨op, entry, .body prior rest copy⟩ :: st) :
    ReflTransGen (CoreStep k c) s { s.setCore c (s.cores c).flags
      (.call ⟨op, entry, .release prior (runBody op.target rest s.mem copy).1
        (runBody op.target rest s.mem copy).2.2⟩ :: st) with
        mem := (runBody op.target rest s.mem copy).2.1 } := by
  -- Induction on the accesses left; a failed check leaves the section early.
  induction rest generalizing s copy with
  | nil =>
      have hstep := CoreStep.finish (k := k) hstack
      exact .single hstep
  | cons m rest ih =>
      cases hexec : m.exec op.target s.mem copy with
      | none =>
          have hstep := CoreStep.refuse (k := k) hstack hexec
          have hrun : runBody op.target (m :: rest) s.mem copy = (false, s.mem, copy) := by
            rw [runBody, hexec]
          rw [hrun]
          exact .single hstep
      | some result =>
          obtain ⟨mem', copy'⟩ := result
          have hrun : runBody op.target (m :: rest) s.mem copy =
              runBody op.target rest mem' copy' := by
            rw [runBody, hexec]
          have hrest := ih (s := { s.setCore c (s.cores c).flags
            (.call ⟨op, entry, .body prior rest copy'⟩ :: st) with mem := mem' })
            (by rw [setCore_cores_self])
          simp only [setCore_cores_self] at hrest
          rw [hrun]
          refine .head (CoreStep.access hstack hexec) ?_
          simpa [Sys.setCore] using hrest

/-- From the release back to unlocked code. -/
theorem release_runs {ok : Bool} {copy : CapRecord}
    (hstack : (s.cores c).stack = .call ⟨op, entry, .release prior ok copy⟩ :: st) :
    ReflTransGen (CoreStep k c) s { s.setCore c (k.arch.restore prior (s.cores c).flags)
      (.call ⟨op, entry, .unlocked ok copy s.history⟩ :: st) with
        lock := none
        history := s.history ++ op.released } := by
  have hrestore := CoreStep.restore (k := k) (c := c) (s := { s.setCore c (s.cores c).flags
    (.call ⟨op, entry, .restore prior ok copy s.history⟩ :: st) with
      lock := none
      history := s.history ++ op.released }) (by rw [setCore_cores_self])
  refine .head (CoreStep.release hstack) (.single ?_)
  simpa [Sys.setCore] using hrestore

/-- A whole activation from `cap_lock` to behind `cap_unlock`, with the lock free
and nobody interfering: the flags are back, the memory is what the section makes
of it, and the release is on record. -/
theorem activation_runs (hstack : (s.cores c).stack = .call ⟨op, entry, .save⟩ :: st)
    (hfree : s.lock = none) :
    ReflTransGen (CoreStep k c) s { s.setCore c (s.cores c).flags
      (.call ⟨op, entry, .unlocked (runBody op.target op.body s.mem fun _ => 0).1
        (runBody op.target op.body s.mem fun _ => 0).2.2 s.history⟩ :: st) with
        mem := (runBody op.target op.body s.mem fun _ => 0).2.1
        history := s.history ++ op.released } := by
  have hacquire := acquire_runs (k := k) hstack hfree
  have hsection := section_runs (k := k) (s := { s.setCore c (k.arch.mask (s.cores c).flags)
    (.call ⟨op, entry, .body (s.cores c).flags op.body fun _ => 0⟩ :: st) with
      lock := some c }) (by rw [setCore_cores_self])
  have hrelease := release_runs (k := k) (s := { s.setCore c (k.arch.mask (s.cores c).flags)
    (.call ⟨op, entry, .release (s.cores c).flags
      (runBody op.target op.body s.mem fun _ => 0).1
      (runBody op.target op.body s.mem fun _ => 0).2.2⟩ :: st) with
      lock := some c
      mem := (runBody op.target op.body s.mem fun _ => 0).2.1 }) (by rw [setCore_cores_self])
  -- Each part starts where the part before it ends, once the updates of one core
  -- are collapsed.
  simp only [Sys.setCore, Function.update_self, Function.update_idem] at hacquire hsection hrelease
  rw [k.arch.restore_mask, ← hfree] at hrelease
  exact hacquire.trans (hsection.trans hrelease)

/-- A call of `kernel_invoke` on a live record, with the lock free and nobody
interfering, copies that record and calls its handler. -/
theorem invoke_runs {r : Addr} (hr : r ∈ k.records) (houtside : Outside (s.cores c).stack)
    (hfree : s.lock = none) (hlive : (loadRecord s.mem r).Live) :
    ReflTransGen (CoreStep k c) s { s.setCore c (s.cores c).flags
      (.call ⟨.invoke r, (s.cores c).flags, .handling (loadRecord s.mem r) s.history⟩ ::
        (s.cores c).stack) with
        dispatched := s.dispatched ++ [⟨r, loadRecord s.mem r, s.history⟩] } := by
  have hstart : CoreStep k c s (s.setCore c (s.cores c).flags
      (.call ⟨.invoke r, (s.cores c).flags, .save⟩ :: (s.cores c).stack)) :=
    .startInvoke r hr houtside
  have hlocked := activation_runs (k := k) (s := s.setCore c (s.cores c).flags
    (.call ⟨.invoke r, (s.cores c).flags, .save⟩ :: (s.cores c).stack))
    (by rw [setCore_cores_self]) hfree
  have hdispatch := CoreStep.dispatch (k := k) (c := c) (s := s.setCore c (s.cores c).flags
    (.call ⟨.invoke r, (s.cores c).flags, .unlocked true (loadRecord s.mem r) s.history⟩ ::
      (s.cores c).stack)) (by rw [setCore_cores_self])
  have hbody : runBody r (LockOp.invoke r).body s.mem (fun _ => 0) =
      (true, s.mem, loadRecord s.mem r) := by
    rw [runBody_invoke, if_pos hlive]
  simp only [Sys.setCore, Function.update_self, Function.update_idem] at hlocked hdispatch hstart ⊢
  simp only [LockOp.target, hbody, LockOp.released, List.append_nil] at hlocked
  exact .head hstart (hlocked.trans (.single hdispatch))

/-- A CREATE by the factory's handler, with the lock free and nobody interfering. -/
theorem create_runs {r : Addr} (p : Payload) (hr : r ∈ k.records) (hnull : r ≠ 0)
    {copy : CapRecord} {seen : List Op}
    (hstack : (s.cores c).stack = .call ⟨op, entry, .handling copy seen⟩ :: st)
    (hhandler : copy .handler = k.img.factoryHandler.toNat) (hfree : s.lock = none) :
    ReflTransGen (CoreStep k c) s { s with
      mem := storeFields s.mem r (createWrites p)
      history := s.history ++ [.create r p.stored] } := by
  have hstart : CoreStep k c s (s.setCore c (s.cores c).flags
      (.call ⟨.create r p, (s.cores c).flags, .save⟩ :: (s.cores c).stack)) :=
    .startCreate r p hr hnull hstack hhandler
  have hlocked := activation_runs (k := k) (s := s.setCore c (s.cores c).flags
    (.call ⟨.create r p, (s.cores c).flags, .save⟩ :: (s.cores c).stack))
    (by rw [setCore_cores_self]) hfree
  have hleave := CoreStep.leave (k := k) (c := c) (s := { s.setCore c (s.cores c).flags
    (.call ⟨.create r p, (s.cores c).flags, .unlocked true (fun _ => 0) s.history⟩ ::
      (s.cores c).stack) with
      mem := storeFields s.mem r (createWrites p)
      history := s.history ++ [.create r p.stored] }) (by rw [setCore_cores_self])
  have hbody : runBody r (LockOp.create r p).body s.mem (fun _ => 0) =
      (true, storeFields s.mem r (createWrites p), fun _ => 0) := runBody_create r p s.mem _
  -- The core is back where it was.
  have hself : Function.update s.cores c ⟨(s.cores c).flags, (s.cores c).stack⟩ = s.cores :=
    Function.update_eq_self c s.cores
  simp only [Sys.setCore, Function.update_self, Function.update_idem] at hlocked hleave hstart
  simp only [LockOp.target, hbody, LockOp.released] at hlocked
  rw [hself] at hleave
  exact .head hstart (hlocked.trans (.single hleave))

/-- The state behind a whole CREATE call on the factory. -/
def Sys.afterCreate (s : Sys Core) (k : Machine) (r : Addr) (p : Payload) : Sys Core :=
  { s with
    mem := storeFields s.mem r (createWrites p)
    history := s.history ++ [.create r p.stored]
    dispatched := s.dispatched ++
      [⟨k.img.factoryRecord, loadRecord s.mem k.img.factoryRecord, s.history⟩] }

/-- A whole CREATE call on the factory by one core. -/
theorem createCall_runs {r : Addr} (p : Payload) (hr : r ∈ k.records) (hnull : r ≠ 0)
    (houtside : Outside (s.cores c).stack) (hfree : s.lock = none)
    (hlive : (loadRecord s.mem k.img.factoryRecord).Live)
    (hhandler : loadRecord s.mem k.img.factoryRecord .handler = k.img.factoryHandler.toNat) :
    ReflTransGen (CoreStep k c) s (s.afterCreate k r p) := by
  have hinvoke := invoke_runs (k := k) (c := c) (Set.mem_insert _ _) houtside hfree hlive
  have hcreate := create_runs (k := k) (c := c) (s := { s.setCore c (s.cores c).flags
    (.call ⟨.invoke k.img.factoryRecord, (s.cores c).flags,
      .handling (loadRecord s.mem k.img.factoryRecord) s.history⟩ :: (s.cores c).stack) with
      dispatched := s.dispatched ++
        [⟨k.img.factoryRecord, loadRecord s.mem k.img.factoryRecord, s.history⟩] })
    p hr hnull (by rw [setCore_cores_self]) hhandler hfree
  have hhandled := CoreStep.handled (k := k) (c := c) (s := { s.setCore c (s.cores c).flags
    (.call ⟨.invoke k.img.factoryRecord, (s.cores c).flags,
      .handling (loadRecord s.mem k.img.factoryRecord) s.history⟩ :: (s.cores c).stack) with
      mem := storeFields s.mem r (createWrites p)
      history := s.history ++ [.create r p.stored]
      dispatched := s.dispatched ++
        [⟨k.img.factoryRecord, loadRecord s.mem k.img.factoryRecord, s.history⟩] })
    (by rw [setCore_cores_self])
  have hself : Function.update s.cores c ⟨(s.cores c).flags, (s.cores c).stack⟩ = s.cores :=
    Function.update_eq_self c s.cores
  simp only [Sys.setCore, Function.update_self, Function.update_idem] at hinvoke hcreate hhandled
  rw [hself] at hhandled
  exact hinvoke.trans (hcreate.trans (.single hhandled))

end Cap
end Saski
