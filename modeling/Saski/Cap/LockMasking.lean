import Saski.Cap.LockRuns

/-!
# The lock and the interrupt mask

Two facts carry each other along every run of `LockSystem`, whatever the records
hold.

* *Flags.*  From masking to restoring, an activation runs with exactly its entry
  flags, masked.  So no interrupt lands on top of a section, and a suspended
  activation is never at the test-and-set.
* *Ownership.*  The lock word is set by a core exactly when that core's topmost
  activation is inside a section.  So at most one section is in progress.

Together they say that no core waits for itself and that `cap_unlock` leaves the
interrupt state as `cap_lock` found it.
-/

namespace Saski
namespace Cap

open ByteMemory

variable {Core : Type}

/-! ## The invariant -/

/-- The lock is held at this point. -/
def Pc.critical : Pc → Bool
  | .body _ _ _ => true
  | .release _ _ _ => true
  | _ => false

/-- Between masking and restoring. -/
def Pc.masking : Pc → Bool
  | .acquire _ => true
  | .wait _ => true
  | .body _ _ _ => true
  | .release _ _ _ => true
  | .restore _ _ _ _ => true
  | _ => false

/-- At the test-and-set or in the loop that waits for it. -/
def Pc.acquiring : Pc → Bool
  | .acquire _ => true
  | .wait _ => true
  | _ => false

/-- The core is executing a section. -/
def inSection : List StackFrame → Bool
  | .call f :: _ => f.pc.critical
  | _ => false

/-- The flags of a core while this activation is running. -/
def FlagsOK (arch : Arch) (flags : Flags) (f : Frame) : Prop :=
  match f.pc with
  | .save => flags = f.entry
  | .mask prior => prior = f.entry ∧ flags = f.entry
  | .acquire prior => prior = f.entry ∧ flags = arch.mask f.entry
  | .wait prior => prior = f.entry ∧ flags = arch.mask f.entry
  | .body prior _ _ => prior = f.entry ∧ flags = arch.mask f.entry
  | .release prior _ _ => prior = f.entry ∧ flags = arch.mask f.entry
  | .restore prior _ _ _ => prior = f.entry ∧ flags = arch.mask f.entry
  | .unlocked _ _ _ => flags = f.entry
  | .handling _ _ => True

/-- The flags of a whole stack.  An interrupted activation will see the flags that
the interrupt saved, and these were not masked.  What lies below an activation is
the handler or interrupt handler that called it: it may find any flags. -/
def StackOK (arch : Arch) : Flags → List StackFrame → Prop
  | _, [] => True
  | _, .irq saved :: st => arch.masked saved = false ∧ StackOK arch saved st
  | flags, .call f :: st => FlagsOK arch flags f ∧ ∀ flags', StackOK arch flags' st

structure LockInv (arch : Arch) (s : Sys Core) : Prop where
  flags : ∀ c, StackOK arch (s.cores c).flags (s.cores c).stack
  owner : ∀ c, s.lock = some c ↔ inSection (s.cores c).stack = true

/-! ## Stacks -/

/-- Code outside may find any flags. -/
theorem StackOK.of_outside {arch : Arch} {flags : Flags} {st : List StackFrame}
    (houtside : Outside st) (h : StackOK arch flags st) (flags' : Flags) :
    StackOK arch flags' st := by
  cases st with
  | nil => trivial
  | cons frame st =>
      cases frame with
      | irq saved => exact h
      | call f =>
          obtain ⟨op, entry, pc⟩ := f
          cases pc with
          | handling copy seen => exact ⟨trivial, h.2⟩
          | _ => exact absurd houtside (by simp [Outside])

theorem inSection_of_outside {st : List StackFrame} (houtside : Outside st) :
    inSection st = false := by
  cases st with
  | nil => rfl
  | cons frame st =>
      cases frame with
      | irq saved => rfl
      | call f =>
          obtain ⟨op, entry, pc⟩ := f
          cases pc with
          | handling copy seen => rfl
          | _ => exact absurd houtside (by simp [Outside])

/-- The section of a core is its topmost activation. -/
theorem inSection_iff {st : List StackFrame} :
    inSection st = true ↔ ∃ f st', st = .call f :: st' ∧ f.pc.critical = true := by
  constructor
  · intro h
    cases st with
    | nil => exact absurd h Bool.false_ne_true
    | cons frame st =>
        cases frame with
        | irq saved => exact absurd h Bool.false_ne_true
        | call f => exact ⟨f, st, rfl, h⟩
  · rintro ⟨f, st', rfl, hcritical⟩
    exact hcritical

theorem Pc.masking_of_critical {pc : Pc} (h : pc.critical = true) : pc.masking = true := by
  cases pc <;> simp_all [Pc.critical, Pc.masking]

theorem Pc.masking_of_acquiring {pc : Pc} (h : pc.acquiring = true) : pc.masking = true := by
  cases pc <;> simp_all [Pc.acquiring, Pc.masking]

theorem Pc.not_acquiring_of_critical {pc : Pc} (h : pc.critical = true) :
    pc.acquiring = false := by
  cases pc <;> simp_all [Pc.critical, Pc.acquiring]

theorem Arch.not_forall_masked (arch : Arch) : ¬ ∀ flags, arch.masked flags = true := by
  intro h
  cases arch with
  | aarch64 => exact Bool.false_ne_true (h 0#64)
  | x86_64 => exact Bool.false_ne_true (h 0x200#64)

theorem FlagsOK.eq_mask {arch : Arch} {flags : Flags} {f : Frame} (h : FlagsOK arch flags f)
    (hmasking : f.pc.masking = true) : flags = arch.mask f.entry := by
  obtain ⟨op, entry, pc⟩ := f
  cases pc with
  | acquire prior => exact h.2
  | wait prior => exact h.2
  | body prior rest copy => exact h.2
  | release prior ok copy => exact h.2
  | restore prior ok copy seen => exact h.2
  | _ => exact absurd hmasking (by simp [Pc.masking])

/-- If any activation of a stack is between masking and restoring, the core is
masked. -/
theorem StackOK.masked_of_masking {arch : Arch} {flags : Flags} {st : List StackFrame}
    (h : StackOK arch flags st) {f : Frame} (hf : .call f ∈ st) (hmasking : f.pc.masking = true) :
    arch.masked flags = true := by
  induction st generalizing flags with
  | nil => exact absurd hf List.not_mem_nil
  | cons frame st ih =>
      cases frame with
      | irq saved =>
          -- The interrupt found the core unmasked, so there is none below it.
          have hin : .call f ∈ st := by simpa using hf
          have hmasked := ih h.2 hin
          rw [h.1] at hmasked
          exact absurd hmasked Bool.false_ne_true
      | call g =>
          rcases List.mem_cons.mp hf with heq | hin
          · obtain rfl : f = g := StackFrame.call.inj heq
            rw [h.1.eq_mask hmasking]
            exact arch.masked_mask f.entry
          · -- Below an activation the stack is fine under unmasked flags, too.
            exact absurd (fun flags' => ih (h.2 flags') hin) arch.not_forall_masked

/-- A core inside a section is masked. -/
theorem StackOK.masked_of_inSection {arch : Arch} {flags : Flags} {st : List StackFrame}
    (h : StackOK arch flags st) (hsection : inSection st = true) : arch.masked flags = true := by
  obtain ⟨f, st', rfl, hcritical⟩ := inSection_iff.mp hsection
  exact h.masked_of_masking List.mem_cons_self (Pc.masking_of_critical hcritical)

theorem StackOK.not_inSection_of_unmasked {arch : Arch} {flags : Flags} {st : List StackFrame}
    (h : StackOK arch flags st) (hopen : arch.masked flags = false) : inSection st = false := by
  apply Bool.eq_false_of_not_eq_true
  intro hsection
  rw [h.masked_of_inSection hsection] at hopen
  exact Bool.false_ne_true hopen.symm

/-- Below an activation no section is in progress. -/
theorem not_inSection_of_forall_stackOK {arch : Arch} {st : List StackFrame}
    (h : ∀ flags, StackOK arch flags st) : inSection st = false := by
  apply Bool.eq_false_of_not_eq_true
  intro hsection
  exact arch.not_forall_masked fun flags => (h flags).masked_of_inSection hsection

/-! ## Steps -/

section Preservation

variable {arch : Arch} {s s' : Sys Core} {c : Core} {flags : Flags} {stack st : List StackFrame}
  {op : LockOp} {entry : Flags} {pc : Pc}

/-- At most one core is in a section. -/
theorem LockInv.not_inSection_of_ne (hinv : LockInv arch s)
    (hlock : s.lock = some c ∨ s.lock = none) {c' : Core} (hc : c' ≠ c) :
    inSection (s.cores c').stack = false := by
  apply Bool.eq_false_of_not_eq_true
  rw [← hinv.owner c']
  intro hother
  rcases hlock with hlock | hlock
  · rw [hlock, Option.some.injEq] at hother
    exact hc hother.symm
  · rw [hlock] at hother
    exact absurd hother (by simp)

/-- The core whose topmost activation is in a section owns the lock. -/
theorem LockInv.lock_eq (hinv : LockInv arch s)
    (hstack : (s.cores c).stack = .call ⟨op, entry, pc⟩ :: st) (hcritical : pc.critical = true) :
    s.lock = some c := by
  rw [hinv.owner, hstack]
  exact hcritical

/-- The flags of the topmost activation, and what is below it. -/
theorem LockInv.flags_top (hinv : LockInv arch s)
    (hstack : (s.cores c).stack = .call ⟨op, entry, pc⟩ :: st) :
    FlagsOK arch (s.cores c).flags ⟨op, entry, pc⟩ ∧ ∀ flags, StackOK arch flags st := by
  have hflags := hinv.flags c
  rw [hstack] at hflags
  exact hflags

variable [DecidableEq Core]

/-- One core moves: what holds of its new state and of the other cores' states
holds of all. -/
theorem forall_setCore {P : Core → CoreState → Prop} (hself : P c ⟨flags, stack⟩)
    (hothers : ∀ c', c' ≠ c → P c' (s.cores c')) (c' : Core) :
    P c' ((s.setCore c flags stack).cores c') := by
  by_cases hc : c' = c
  · subst hc
    rw [setCore_cores_self]
    exact hself
  · rw [show (s.setCore c flags stack).cores c' = s.cores c' from Function.update_of_ne hc _ _]
    exact hothers c' hc

/-- A core moves without touching the lock. -/
theorem LockInv.move (hinv : LockInv arch s) (hflags : StackOK arch flags stack)
    (hsection : inSection stack = inSection (s.cores c).stack) :
    LockInv arch (s.setCore c flags stack) where
  flags := forall_setCore (P := fun _ k => StackOK arch k.flags k.stack) hflags
    fun c' _ => hinv.flags c'
  owner := by
    apply forall_setCore (P := fun c' k => s.lock = some c' ↔ inSection k.stack = true)
    · rw [hinv.owner c, hsection]
    · exact fun c' _ => hinv.owner c'

/-- An activation moves on without touching the lock, whatever becomes of the
memory and of the lists that only observe. -/
theorem LockInv.advance (hinv : LockInv arch s) (pc' : Pc)
    (hstack : (s.cores c).stack = .call ⟨op, entry, pc⟩ :: st)
    (hcritical : pc'.critical = pc.critical) (hflags : FlagsOK arch flags ⟨op, entry, pc'⟩)
    {mem : Mem 64} {dispatched : List Snapshot} :
    LockInv arch { s.setCore c flags (.call ⟨op, entry, pc'⟩ :: st) with
      mem := mem
      dispatched := dispatched } := by
  have hmove : LockInv arch (s.setCore c flags (.call ⟨op, entry, pc'⟩ :: st)) := by
    apply hinv.move
    · exact ⟨hflags, (hinv.flags_top hstack).2⟩
    · rw [hstack]
      exact hcritical
  exact ⟨hmove.flags, hmove.owner⟩

/-- An activation that begins records the flags it finds. -/
theorem LockInv.start (hinv : LockInv arch s) (op : LockOp)
    (houtside : Outside (s.cores c).stack) :
    LockInv arch (s.setCore c (s.cores c).flags
      (.call ⟨op, (s.cores c).flags, .save⟩ :: (s.cores c).stack)) := by
  apply hinv.move
  · exact ⟨rfl, (hinv.flags c).of_outside houtside⟩
  · exact (inSection_of_outside houtside).symm

/-- An activation returns. -/
theorem LockInv.pop (hinv : LockInv arch s)
    (hstack : (s.cores c).stack = .call ⟨op, entry, pc⟩ :: st) (hpc : pc.critical = false) :
    LockInv arch (s.setCore c (s.cores c).flags st) := by
  have hbelow := (hinv.flags_top hstack).2
  apply hinv.move (hbelow _)
  rw [not_inSection_of_forall_stackOK hbelow, hstack]
  exact hpc.symm

/-- The step into the section. -/
theorem LockInv.acquire (hinv : LockInv arch s) {prior : Flags} {rest : List Micro}
    {copy : CapRecord} (hstack : (s.cores c).stack = .call ⟨op, entry, .acquire prior⟩ :: st)
    (hfree : s.lock = none) :
    LockInv arch { s.setCore c (s.cores c).flags
      (.call ⟨op, entry, .body prior rest copy⟩ :: st) with lock := some c } where
  flags := by
    have hflags := hinv.flags_top hstack
    exact forall_setCore (P := fun _ k => StackOK arch k.flags k.stack) hflags
      fun c' _ => hinv.flags c'
  owner := by
    apply forall_setCore (P := fun c' k => some c = some c' ↔ inSection k.stack = true)
    · simp [inSection, Pc.critical]
    · intro c' hc
      simp [hinv.not_inSection_of_ne (Or.inr hfree) hc, hc.symm]

/-- The step out of the section. -/
theorem LockInv.release (hinv : LockInv arch s) {prior : Flags} {ok : Bool} {copy : CapRecord}
    {seen history : List Op}
    (hstack : (s.cores c).stack = .call ⟨op, entry, .release prior ok copy⟩ :: st) :
    LockInv arch { s.setCore c (s.cores c).flags
      (.call ⟨op, entry, .restore prior ok copy seen⟩ :: st) with
        lock := none
        history := history } where
  flags := by
    have hflags := hinv.flags_top hstack
    exact forall_setCore (P := fun _ k => StackOK arch k.flags k.stack) hflags
      fun c' _ => hinv.flags c'
  owner := by
    have hlock := hinv.lock_eq hstack rfl
    apply forall_setCore (P := fun c' k => none = some c' ↔ inSection k.stack = true)
    · simp [inSection, Pc.critical]
    · intro c' hc
      simp [hinv.not_inSection_of_ne (Or.inl hlock) hc]

/-- **One step.**  Every step of every core preserves the invariant. -/
theorem LockInv.step {k : Machine} (hinv : LockInv k.arch s) (hstep : CoreStep k c s s') :
    LockInv k.arch s' := by
  cases hstep with
  | startInvoke target htarget houtside => exact hinv.start _ houtside
  | startCreate target p htarget hnull hstack hhandler =>
      apply hinv.start
      rw [hstack]
      trivial
  | startDestroy target htarget hfactory hstack hhandler =>
      apply hinv.start
      rw [hstack]
      trivial
  | save hstack =>
      have hentry := (hinv.flags_top hstack).1
      exact hinv.advance (.mask _) hstack rfl ⟨hentry, hentry⟩
  | mask hstack =>
      obtain ⟨⟨hprior, hentry⟩, -⟩ := hinv.flags_top hstack
      exact hinv.advance (.acquire _) hstack rfl ⟨hprior, congrArg k.arch.mask hentry⟩
  | acquire hstack hfree => exact hinv.acquire hstack hfree
  | busy hstack hheld =>
      exact hinv.advance (.wait _) hstack rfl (hinv.flags_top hstack).1
  | retry hstack hfree =>
      exact hinv.advance (.acquire _) hstack rfl (hinv.flags_top hstack).1
  | @access op entry prior m rest copy copy' mem' st hstack hexec =>
      exact hinv.advance (.body prior rest copy') hstack rfl (hinv.flags_top hstack).1
  | refuse hstack hexec =>
      exact hinv.advance (.release _ _ _) hstack rfl (hinv.flags_top hstack).1
  | finish hstack =>
      exact hinv.advance (.release _ _ _) hstack rfl (hinv.flags_top hstack).1
  | release hstack => exact hinv.release hstack
  | @restore op entry prior ok copy seen st hstack =>
      obtain ⟨⟨hprior, hmasked⟩, -⟩ := hinv.flags_top hstack
      -- The saved state is the entry state: restoring undoes the masking.
      have hrestored : k.arch.restore prior (s.cores c).flags = entry := by
        rw [hmasked, hprior]
        exact k.arch.restore_mask entry
      exact hinv.advance (.unlocked ok copy seen) hstack rfl hrestored
  | leave hstack => exact hinv.pop hstack rfl
  | dispatch hstack => exact hinv.advance (.handling _ _) hstack rfl trivial
  | handled hstack => exact hinv.pop hstack rfl
  | interrupt flags hopen =>
      apply hinv.move
      · exact ⟨hopen, hinv.flags c⟩
      · exact ((hinv.flags c).not_inSection_of_unmasked hopen).symm
  | irqReturn hstack =>
      have hflags := hinv.flags c
      rw [hstack] at hflags
      apply hinv.move hflags.2
      -- The interrupted code was not masked, so it was in no section.
      rw [hflags.2.not_inSection_of_unmasked hflags.1, hstack]
      rfl
  | setFlags flags houtside =>
      exact hinv.move ((hinv.flags c).of_outside houtside flags) rfl
  | writeMemory mem' houtside hrecords => exact ⟨hinv.flags, hinv.owner⟩

end Preservation

/-! ## Runs -/

theorem Idle.lockInv {arch : Arch} {s : Sys Core} (h : Idle s) : LockInv arch s where
  flags := by
    intro c
    rw [h.outside c]
    trivial
  owner := by
    intro c
    rw [h.free, h.outside c]
    simp [inSection]

/-- **Every run.**  The invariant holds after any interleaving of the cores' steps. -/
theorem lockInv_of_run [DecidableEq Core] {k : Machine} {s₀ s : Sys Core} (hidle : Idle s₀)
    (hrun : Relation.ReflTransGen (Step k) s₀ s) : LockInv k.arch s := by
  induction hrun with
  | refl => exact hidle.lockInv
  | tail _ hstep ih =>
      obtain ⟨c, hstep⟩ := hstep
      exact ih.step hstep

/-- **No self-deadlock, no leaked mask.**  From any idle state, on either
instruction set and for any memory: a core that holds the lock has its interrupts
masked, is executing a section, and has no activation at a lock acquisition,
neither running nor suspended.  And when `cap_unlock` has returned, the core has
exactly the flags it had before that `cap_lock`, masked or not. -/
theorem lock_holder_masked [DecidableEq Core] {k : Machine} {s₀ s : Sys Core} (hidle : Idle s₀)
    (hrun : Relation.ReflTransGen (Step k) s₀ s) :
    (∀ c, s.lock = some c →
      k.arch.masked (s.cores c).flags = true ∧
        (∃ f st, (s.cores c).stack = .call f :: st ∧ f.pc.critical = true) ∧
        ∀ f, .call f ∈ (s.cores c).stack → f.pc.acquiring = false) ∧
      ∀ c op entry ok copy seen st,
        (s.cores c).stack = .call ⟨op, entry, .unlocked ok copy seen⟩ :: st →
          (s.cores c).flags = entry ∧
            k.arch.masked (s.cores c).flags = k.arch.masked entry := by
  have hinv := lockInv_of_run hidle hrun
  constructor
  · intro c hlock
    have hsection := (hinv.owner c).mp hlock
    have hflags := hinv.flags c
    obtain ⟨f, st, hstack, hcritical⟩ := inSection_iff.mp hsection
    refine ⟨hflags.masked_of_inSection hsection, ⟨f, st, hstack, hcritical⟩, ?_⟩
    intro g hg
    rw [hstack] at hg hflags
    rcases List.mem_cons.mp hg with heq | hin
    · obtain rfl := StackFrame.call.inj heq
      exact Pc.not_acquiring_of_critical hcritical
    · -- A suspended acquisition would be masked under any flags.
      apply Bool.eq_false_of_not_eq_true
      intro hacquiring
      exact k.arch.not_forall_masked fun flags =>
        (hflags.2 flags).masked_of_masking hin (Pc.masking_of_acquiring hacquiring)
  · intro c op entry ok copy seen st hstack
    have hentry : (s.cores c).flags = entry := (hinv.flags_top hstack).1
    exact ⟨hentry, congrArg k.arch.masked hentry⟩

/-- The sample factory on an x86-64 machine, with one storage. -/
def sampleMachine : Machine := ⟨.x86_64, sampleImage, {0x3000#64}⟩

/-- Two idle cores with interrupts enabled, after bootstrap. -/
def sampleSys : Sys Bool where
  lock := none
  mem := bindFactory sampleImage sampleMemory
  cores := fun _ => ⟨0x200#64, []⟩
  history := [.create sampleImage.factoryRecord (factoryPayload sampleImage)]
  dispatched := []

theorem sampleSys_idle : Idle sampleSys where
  free := rfl
  outside := fun _ => rfl

/-- A core of the sample machine that has taken the lock is masked, although it
was not when it called `kernel_invoke`. -/
theorem sampleSys_holder_masked :
    ∃ s : Sys Bool, (Idle sampleSys ∧ Relation.ReflTransGen (Step sampleMachine) sampleSys s ∧
        s.lock = some true ∧ Arch.x86_64.masked (sampleSys.cores true).flags = false) ∧
      Arch.x86_64.masked (s.cores true).flags = true := by
  have hstart : Step sampleMachine sampleSys _ :=
    ⟨true, .startInvoke 0x1000#64 (Set.mem_insert _ _) trivial⟩
  have hacquire := acquire_runs (k := sampleMachine) (c := true)
    (s := sampleSys.setCore true (sampleSys.cores true).flags
      (.call ⟨.invoke 0x1000#64, (sampleSys.cores true).flags, .save⟩ :: [])) rfl rfl
  have hrun := Relation.ReflTransGen.head hstart (steps_of_coreSteps hacquire)
  exact ⟨_, ⟨sampleSys_idle, hrun, rfl, by decide⟩,
    ((lock_holder_masked sampleSys_idle hrun).1 true rfl).1⟩

end Cap
end Saski
