import Saski.Cap.LockMasking

/-!
# Records under the lock

What the lock protects.  While it is free, each record is the object that the
operations released so far have put there.  While a section is in progress, the
other records are, and the rest of the section will bring its own record to where
its release says it is.  A copy that was taken whole is therefore the object of
the last operation released before it.

The records have to lie apart: a section writes the fields of one record, and the
invariant speaks about all.  On storages that overlap, a CREATE can tear the record
of another one, which stays live (`overlapping_torn_dispatch`).
-/

namespace Saski
namespace Cap

open ByteMemory KeyedStore

variable {Core : Type}

/-! ## The invariant -/

/-- Where the rest of a body leads: whether its checks pass, the record and the
copy. -/
def bodyOutcome (r : Addr) (rest : List Micro) (mem : Mem 64) (copy : CapRecord) :
    Bool × CapRecord × CapRecord :=
  let result := runBody r rest mem copy
  (result.1, loadRecord result.2.1 r, result.2.2)

/-- Where the rest of a section leads. -/
def sectionOutcome (mem : Mem 64) (f : Frame) : Bool × CapRecord × CapRecord :=
  match f.pc with
  | .body _ rest copy => bodyOutcome f.op.target rest mem copy
  | .release _ ok copy => (ok, loadRecord mem f.op.target, copy)
  | _ => (false, loadRecord mem f.op.target, fun _ => 0)

/-- The records while a section is in progress. -/
structure SectionOK (records : Set Addr) (mem : Mem 64) (history : List Op) (f : Frame) :
    Prop where
  others : ∀ r ∈ records, r ≠ f.op.target → objectAt mem r = contents history r
  own : (sectionOutcome mem f).2.1.object = contents (history ++ f.op.released) f.op.target
  copied : ∀ r, f.op = .invoke r → (sectionOutcome mem f).1 = true →
    (sectionOutcome mem f).2.1.Live ∧ (sectionOutcome mem f).2.2 = (sectionOutcome mem f).2.1

/-- The record is that of the last operation on `target` in `seen`, which was a
CREATE, and `seen` is what had been released then. -/
def SnapshotOK (history : List Op) (target : Addr) (record : CapRecord) (seen : List Op) : Prop :=
  seen <+: history ∧ lastOn target seen = some (.create target record.payload)

/-- The copy in an activation that may still dispatch on it. -/
def CopyOK (history : List Op) (f : Frame) : Prop :=
  match f.pc with
  | .restore _ ok copy seen => ∀ r, f.op = .invoke r → ok = true → SnapshotOK history r copy seen
  | .unlocked ok copy seen => ∀ r, f.op = .invoke r → ok = true → SnapshotOK history r copy seen
  | _ => True

/-- An activation: it is about one of the records, and its copy is good. -/
structure FrameOK (records : Set Addr) (history : List Op) (f : Frame) : Prop where
  target : f.op.target ∈ records
  copy : CopyOK history f

structure RecordInv (records : Set Addr) (s : Sys Core) : Prop where
  free : s.lock = none → ∀ r ∈ records, objectAt s.mem r = contents s.history r
  held : ∀ c f st, (s.cores c).stack = .call f :: st → f.pc.critical = true →
    SectionOK records s.mem s.history f
  frames : ∀ c f, .call f ∈ (s.cores c).stack → FrameOK records s.history f
  logged : ∀ d ∈ s.dispatched, SnapshotOK s.history d.target d.record d.seen

/-! ## Sections -/

/-- A release is about the section's own record. -/
theorem contents_released_of_ne (history : List Op) (op : LockOp) {r : Addr}
    (hr : r ≠ op.target) : contents (history ++ op.released) r = contents history r := by
  rw [contents_append]
  cases op with
  | invoke target => rfl
  | create target p => exact Store.apply_of_ne _ (.create target p.stored) hr
  | destroy target => exact Store.apply_of_ne _ (.destroy target) hr

section Sections

variable {records : Set Addr} {mem : Mem 64} {history : List Op} {op : LockOp}
  {entry prior : Flags} {copy : CapRecord}

/-- A whole section brings its record to where its release says. -/
theorem object_bodyOutcome {m : ObjectMap} (hrecord : objectAt mem op.target = m op.target) :
    (bodyOutcome op.target op.body mem copy).2.1.object =
      op.released.foldl Store.apply m op.target := by
  unfold bodyOutcome
  cases op with
  | invoke r =>
      rw [show (LockOp.invoke r).target = r from rfl, runBody_invoke]
      by_cases hlive : (loadRecord mem r).Live
      · rw [if_pos hlive]
        exact hrecord
      · rw [if_neg hlive]
        exact hrecord
  | create r p =>
      rw [show (LockOp.create r p).target = r from rfl, runBody_create]
      change (loadRecord (storeFields mem r (createWrites p)) r).object = _
      rw [loadRecord_storeFields, applyWrites_createWrites, p.object_record]
      exact (m.apply_create_self r p.stored).symm
  | destroy r =>
      rw [show (LockOp.destroy r).target = r from rfl, runBody_destroy]
      refine Eq.trans ?_ (m.apply_destroy_self r).symm
      rw [CapRecord.object_eq_none_iff]
      -- A record that is not live is refused; it was no object before either.
      by_cases hlive : (loadRecord mem r).Live
      · rw [if_pos hlive]
        change ¬ (loadRecord (storeFields mem r destroyWrites) r).Live
        rw [loadRecord_storeFields]
        exact applyWrites_destroyWrites_not_live _
      · rw [if_neg hlive]
        exact hlive

/-- A copy that passed the checks is the live record. -/
theorem bodyOutcome_invoke_copied {r : Addr}
    (hok : (bodyOutcome r (LockOp.invoke r).body mem copy).1 = true) :
    (bodyOutcome r (LockOp.invoke r).body mem copy).2.1.Live ∧
      (bodyOutcome r (LockOp.invoke r).body mem copy).2.2 =
        (bodyOutcome r (LockOp.invoke r).body mem copy).2.1 := by
  unfold bodyOutcome at hok ⊢
  rw [runBody_invoke] at hok ⊢
  by_cases hlive : (loadRecord mem r).Live
  · rw [if_pos hlive]
    exact ⟨hlive, rfl⟩
  · rw [if_neg hlive] at hok
    exact absurd hok Bool.false_ne_true

theorem bodyOutcome_of_exec_none {r : Addr} {m : Micro} {rest : List Micro}
    (hexec : m.exec r mem copy = none) :
    bodyOutcome r (m :: rest) mem copy = (false, loadRecord mem r, copy) := by
  unfold bodyOutcome
  rw [runBody, hexec]

theorem bodyOutcome_of_exec_some {r : Addr} {m : Micro} {rest : List Micro} {mem' : Mem 64}
    {copy' : CapRecord} (hexec : m.exec r mem copy = some (mem', copy')) :
    bodyOutcome r (m :: rest) mem copy = bodyOutcome r rest mem' copy' := by
  unfold bodyOutcome
  rw [runBody, hexec]

/-- An access sees and changes nothing but the record and the copy. -/
theorem Micro.exec_congr (m : Micro) {r : Addr} {mem mem' : Mem 64}
    (h : loadRecord mem' r = loadRecord mem r) (copy : CapRecord) :
    (m.exec r mem' copy).map (fun result => (loadRecord result.1 r, result.2)) =
      (m.exec r mem copy).map fun result => (loadRecord result.1 r, result.2) := by
  have hfield : ∀ f, loadField mem' r f = loadField mem r f := fun f => congrFun h f
  cases m with
  | checkMagic =>
      simp only [Micro.exec, hfield]
      split
      · rfl
      · simp [h]
  | checkValid =>
      simp only [Micro.exec, hfield]
      split
      · rfl
      · simp [h]
  | copyField f => simp [Micro.exec, hfield, h]
  | writeField f v => simp [Micro.exec, loadRecord_storeField, h]

/-- The outcome depends on nothing but the record and the copy. -/
theorem bodyOutcome_congr {r : Addr} {mem mem' : Mem 64} (h : loadRecord mem' r = loadRecord mem r)
    (rest : List Micro) (copy : CapRecord) :
    bodyOutcome r rest mem' copy = bodyOutcome r rest mem copy := by
  induction rest generalizing mem mem' copy with
  | nil =>
      change (true, loadRecord mem' r, copy) = (true, loadRecord mem r, copy)
      rw [h]
  | cons m rest ih =>
      have hmap := m.exec_congr h copy
      cases hexec : m.exec r mem copy with
      | none =>
          rw [hexec, Option.map_none, Option.map_eq_none_iff] at hmap
          rw [bodyOutcome_of_exec_none hexec, bodyOutcome_of_exec_none hmap, h]
      | some result =>
          obtain ⟨mem₁, copy₁⟩ := result
          rw [hexec, Option.map_some, Option.map_eq_some_iff] at hmap
          obtain ⟨⟨mem₁', copy₁'⟩, hexec', hresult⟩ := hmap
          obtain ⟨hrecord, rfl⟩ := Prod.mk.inj hresult
          rw [bodyOutcome_of_exec_some hexec, bodyOutcome_of_exec_some hexec']
          exact ih hrecord copy₁'

/-- A section that is about to begin will end where its release says. -/
theorem sectionOK_begin (htarget : op.target ∈ records)
    (hrecords : ∀ r ∈ records, objectAt mem r = contents history r) :
    SectionOK records mem history ⟨op, entry, .body prior op.body copy⟩ := by
  constructor
  · intro r hr _
    exact hrecords r hr
  · rw [contents_append]
    exact object_bodyOutcome (hrecords op.target htarget)
  · intro r hop hok
    change op = .invoke r at hop
    subst hop
    exact bodyOutcome_invoke_copied (r := r) hok

/-- What has the same outcome and changes no other record is as good. -/
theorem SectionOK.of_outcome {mem' : Mem 64} {pc pc' : Pc}
    (h : SectionOK records mem history ⟨op, entry, pc⟩)
    (hothers : ∀ r ∈ records, r ≠ op.target → loadRecord mem' r = loadRecord mem r)
    (houtcome : sectionOutcome mem' ⟨op, entry, pc'⟩ = sectionOutcome mem ⟨op, entry, pc⟩) :
    SectionOK records mem' history ⟨op, entry, pc'⟩ := by
  constructor
  · intro r hr hne
    unfold objectAt
    rw [hothers r hr hne]
    exact h.others r hr hne
  · rw [houtcome]
    exact h.own
  · intro r hop
    rw [houtcome]
    exact h.copied r hop

/-- An access leads on to the same outcome. -/
theorem SectionOK.access (hapart : records.Pairwise fun a b => Separate a recordSize b recordSize)
    (htarget : op.target ∈ records) {m : Micro} {rest : List Micro} {mem' : Mem 64}
    {copy' : CapRecord}
    (h : SectionOK records mem history ⟨op, entry, .body prior (m :: rest) copy⟩)
    (hexec : m.exec op.target mem copy = some (mem', copy')) :
    SectionOK records mem' history ⟨op, entry, .body prior rest copy'⟩ := by
  apply h.of_outcome
  · intro r hr hne
    exact m.loadRecord_exec_separate hexec (hapart hr htarget hne)
  · exact (bodyOutcome_of_exec_some hexec).symm

/-- Leaving the body does not change the outcome. -/
theorem SectionOK.leaveBody {rest : List Micro} {ok : Bool}
    (h : SectionOK records mem history ⟨op, entry, .body prior rest copy⟩)
    (hrun : runBody op.target rest mem copy = (ok, mem, copy)) :
    SectionOK records mem history ⟨op, entry, .release prior ok copy⟩ := by
  apply h.of_outcome (fun _ _ _ => rfl)
  change (ok, loadRecord mem op.target, copy) = bodyOutcome op.target rest mem copy
  unfold bodyOutcome
  rw [hrun]

/-- Nor do writes that leave the records alone. -/
theorem SectionOK.of_loadRecord_eq {mem' : Mem 64} {f : Frame}
    (h : SectionOK records mem history f) (htarget : f.op.target ∈ records)
    (hrecords : ∀ r ∈ records, loadRecord mem' r = loadRecord mem r) :
    SectionOK records mem' history f := by
  obtain ⟨op, entry, pc⟩ := f
  have hown : loadRecord mem' op.target = loadRecord mem op.target := hrecords op.target htarget
  apply h.of_outcome fun r hr _ => hrecords r hr
  cases pc with
  | body prior rest copy => exact bodyOutcome_congr hown rest copy
  | _ => simp only [sectionOutcome, hown]

/-- At the release all records are where the operations released by then put
them. -/
theorem SectionOK.released {ok : Bool}
    (h : SectionOK records mem history ⟨op, entry, .release prior ok copy⟩) {r : Addr}
    (hr : r ∈ records) : objectAt mem r = contents (history ++ op.released) r := by
  by_cases hself : r = op.target
  · rw [hself]
    exact h.own
  · rw [contents_released_of_ne history op hself]
    exact h.others r hr hself

/-- A copy taken whole is the object of the last operation on its storage. -/
theorem SectionOK.snapshot {r : Addr}
    (h : SectionOK records mem history ⟨.invoke r, entry, .release prior true copy⟩) :
    SnapshotOK (history ++ (LockOp.invoke r).released) r copy history := by
  obtain ⟨hlive, hcopy⟩ := h.copied r rfl rfl
  have hsome : objectAt mem r = some copy.payload := by
    unfold objectAt
    rw [CapRecord.object_eq_some_iff, show copy = loadRecord mem r from hcopy]
    exact ⟨hlive, rfl⟩
  have hown : objectAt mem r = contents (history ++ (LockOp.invoke r).released) r := h.own
  rw [show (LockOp.invoke r).released = [] from rfl, List.append_nil, hsome] at hown
  exact ⟨List.prefix_append _ _, (contents_eq_some_iff history r copy.payload).mp hown.symm⟩

end Sections

theorem SnapshotOK.mono {history history' : List Op} {target : Addr} {record : CapRecord}
    {seen : List Op} (h : SnapshotOK history target record seen) (hle : history <+: history') :
    SnapshotOK history' target record seen :=
  ⟨h.1.trans hle, h.2⟩

theorem FrameOK.mono {records : Set Addr} {history history' : List Op} {f : Frame}
    (h : FrameOK records history f) (hle : history <+: history') : FrameOK records history' f := by
  refine ⟨h.target, ?_⟩
  have hcopy := h.copy
  obtain ⟨op, entry, pc⟩ := f
  cases pc with
  | restore prior ok copy seen => exact fun r hop hok => (hcopy r hop hok).mono hle
  | unlocked ok copy seen => exact fun r hop hok => (hcopy r hop hok).mono hle
  | _ => trivial

/-! ## Steps -/

section Preservation

variable {arch : Arch} {records : Set Addr} {s s' : Sys Core} {c : Core} {flags : Flags}
  {stack st : List StackFrame} {op : LockOp} {entry : Flags} {pc : Pc}

theorem RecordInv.frame_top (hinv : RecordInv records s) {f : Frame}
    (hstack : (s.cores c).stack = .call f :: st) : FrameOK records s.history f := by
  apply hinv.frames c
  rw [hstack]
  exact List.mem_cons_self

theorem RecordInv.frames_below (hinv : RecordInv records s) {frame : StackFrame}
    (hstack : (s.cores c).stack = frame :: st) :
    ∀ f, .call f ∈ st → FrameOK records s.history f := by
  intro f hf
  apply hinv.frames c
  rw [hstack]
  exact List.mem_cons_of_mem _ hf

/-- Putting a good activation on good ones. -/
theorem frames_cons {history : List Op} {f : Frame} (hf : FrameOK records history f)
    (hst : ∀ g, .call g ∈ st → FrameOK records history g) :
    ∀ g, .call g ∈ .call f :: st → FrameOK records history g := by
  intro g hg
  rcases List.mem_cons.mp hg with heq | hin
  · obtain rfl := StackFrame.call.inj heq
    exact hf
  · exact hst g hin

variable [DecidableEq Core]

/-- A step outside the section: one core moves and nothing shared changes but the
list of dispatches. -/
theorem RecordInv.quiet (hinv : RecordInv records s) {dispatched : List Snapshot}
    (hnew : inSection stack = false) (hframes : ∀ f, .call f ∈ stack → FrameOK records s.history f)
    (hlogged : ∀ d ∈ dispatched, SnapshotOK s.history d.target d.record d.seen) :
    RecordInv records { s.setCore c flags stack with dispatched := dispatched } where
  free := hinv.free
  held := by
    apply forall_setCore (P := fun _ k => ∀ f st, k.stack = .call f :: st →
      f.pc.critical = true → SectionOK records s.mem s.history f)
    · rintro f st rfl hcritical
      exact absurd (hcritical.symm.trans hnew) (by simp)
    · exact fun c' _ => hinv.held c'
  frames := forall_setCore (P := fun _ k => ∀ f, .call f ∈ k.stack → FrameOK records s.history f)
    hframes fun c' _ => hinv.frames c'
  logged := hlogged

/-- A step into or inside the section: its core owns the lock afterwards and did
so before, or took it. -/
theorem RecordInv.inside (hinv : RecordInv records s) (hlocks : LockInv arch s)
    (hlock : s.lock = some c ∨ s.lock = none) {mem : Mem 64} {f : Frame}
    (hsection : SectionOK records mem s.history f) (hframe : FrameOK records s.history f)
    (hbelow : ∀ g, .call g ∈ st → FrameOK records s.history g) :
    RecordInv records { s.setCore c flags (.call f :: st) with lock := some c, mem := mem } where
  free := by
    intro hfree
    exact absurd hfree (by simp)
  held := by
    apply forall_setCore (P := fun _ k => ∀ f st, k.stack = .call f :: st →
      f.pc.critical = true → SectionOK records mem s.history f)
    · intro g st' hstack _
      obtain rfl : f = g := StackFrame.call.inj (List.cons.inj hstack).1
      exact hsection
    · -- Nobody else is in a section.
      intro c' hc g st' hstack hcritical
      have houtside := hlocks.not_inSection_of_ne hlock hc
      rw [hstack] at houtside
      exact absurd (hcritical.symm.trans houtside) (by simp)
  frames := forall_setCore (P := fun _ k => ∀ f, .call f ∈ k.stack → FrameOK records s.history f)
    (frames_cons hframe hbelow) fun c' _ => hinv.frames c'
  logged := hinv.logged

/-- The section moves on. -/
theorem RecordInv.proceed (hinv : RecordInv records s) (hlocks : LockInv arch s) (pc' : Pc)
    (hstack : (s.cores c).stack = .call ⟨op, entry, pc⟩ :: st) (hpc : pc.critical = true)
    (hpc' : pc'.critical = true) {mem : Mem 64}
    (hsection : SectionOK records mem s.history ⟨op, entry, pc'⟩) :
    RecordInv records { s.setCore c (s.cores c).flags (.call ⟨op, entry, pc'⟩ :: st) with
      mem := mem } := by
  have hlock := hlocks.lock_eq hstack hpc
  have hcopy : CopyOK s.history ⟨op, entry, pc'⟩ := by
    cases pc' with
    | body prior rest copy => trivial
    | release prior ok copy => trivial
    | _ => exact absurd hpc' (by simp [Pc.critical])
  have hframe : FrameOK records s.history ⟨op, entry, pc'⟩ :=
    ⟨(hinv.frame_top hstack).target, hcopy⟩
  have hinside : RecordInv records { s.setCore c (s.cores c).flags
      (.call ⟨op, entry, pc'⟩ :: st) with lock := some c, mem := mem } :=
    hinv.inside hlocks (Or.inl hlock) hsection hframe (hinv.frames_below hstack)
  rw [← hlock] at hinside
  exact hinside

/-- The step out of the section. -/
theorem RecordInv.release (hinv : RecordInv records s) (hlocks : LockInv arch s) {prior : Flags}
    {ok : Bool} {copy : CapRecord}
    (hstack : (s.cores c).stack = .call ⟨op, entry, .release prior ok copy⟩ :: st) :
    RecordInv records { s.setCore c (s.cores c).flags
      (.call ⟨op, entry, .restore prior ok copy s.history⟩ :: st) with
        lock := none
        history := s.history ++ op.released } := by
  have hlock := hlocks.lock_eq hstack rfl
  have hsection := hinv.held c _ st hstack rfl
  have hle : s.history <+: s.history ++ op.released := List.prefix_append _ _
  have hframe : FrameOK records (s.history ++ op.released)
      ⟨op, entry, .restore prior ok copy s.history⟩ := by
    refine ⟨(hinv.frame_top hstack).target, ?_⟩
    intro r hop hok
    change op = .invoke r at hop
    subst hop hok
    exact hsection.snapshot
  constructor
  · intro _ r hr
    exact hsection.released hr
  · apply forall_setCore (P := fun _ k => ∀ f st, k.stack = .call f :: st →
      f.pc.critical = true → SectionOK records s.mem (s.history ++ op.released) f)
    · intro g st' hstack' hcritical
      obtain rfl := StackFrame.call.inj (List.cons.inj hstack').1
      exact absurd hcritical Bool.false_ne_true
    · -- The section was the only one in progress.
      intro c' hc g st' hstack' hcritical
      have houtside := hlocks.not_inSection_of_ne (Or.inl hlock) hc
      rw [hstack'] at houtside
      exact absurd (hcritical.symm.trans houtside) (by simp)
  · apply forall_setCore (P := fun _ k => ∀ f, .call f ∈ k.stack →
      FrameOK records (s.history ++ op.released) f)
    · exact frames_cons hframe fun g hg => (hinv.frames_below hstack g hg).mono hle
    · exact fun c' _ g hg => (hinv.frames c' g hg).mono hle
  · exact fun d hd => (hinv.logged d hd).mono hle

/-- An activation outside the section moves on. -/
theorem RecordInv.advance (hinv : RecordInv records s) (pc' : Pc)
    (hstack : (s.cores c).stack = .call ⟨op, entry, pc⟩ :: st) (hpc' : pc'.critical = false)
    (hcopy : CopyOK s.history ⟨op, entry, pc'⟩) {dispatched : List Snapshot}
    (hlogged : ∀ d ∈ dispatched, SnapshotOK s.history d.target d.record d.seen) :
    RecordInv records { s.setCore c flags (.call ⟨op, entry, pc'⟩ :: st) with
      dispatched := dispatched } := by
  have hframe : FrameOK records s.history ⟨op, entry, pc'⟩ :=
    ⟨(hinv.frame_top hstack).target, hcopy⟩
  exact hinv.quiet hpc' (frames_cons hframe (hinv.frames_below hstack)) hlogged

/-- An activation begins. -/
theorem RecordInv.start (hinv : RecordInv records s) (op : LockOp) (htarget : op.target ∈ records) :
    RecordInv records (s.setCore c flags (.call ⟨op, entry, .save⟩ :: (s.cores c).stack)) :=
  hinv.quiet rfl (frames_cons ⟨htarget, trivial⟩ (hinv.frames c)) hinv.logged

/-- The topmost activation or interrupt handler returns. -/
theorem RecordInv.pop (hinv : RecordInv records s) {frame : StackFrame}
    (hstack : (s.cores c).stack = frame :: st) (hbelow : inSection st = false) :
    RecordInv records (s.setCore c flags st) :=
  hinv.quiet hbelow (hinv.frames_below hstack) hinv.logged

omit [DecidableEq Core] in
/-- Writes that leave the records alone. -/
theorem RecordInv.writeMemory (hinv : RecordInv records s) {mem' : Mem 64}
    (hrecords : ∀ r ∈ records, loadRecord mem' r = loadRecord s.mem r) :
    RecordInv records { s with mem := mem' } where
  free := by
    intro hfree r hr
    unfold objectAt
    rw [hrecords r hr]
    exact hinv.free hfree r hr
  held := by
    intro c f st hstack hcritical
    have htarget := (hinv.frame_top hstack).target
    exact (hinv.held c f st hstack hcritical).of_loadRecord_eq htarget hrecords
  frames := hinv.frames
  logged := hinv.logged

/-- The records of a machine lie apart. -/
theorem Arena.records_pairwise {k : Machine} (h : Arena k.img k.storages) :
    k.records.Pairwise fun a b => Separate a recordSize b recordSize := by
  apply Set.Pairwise.insert
  · exact fun a ha b hb hne => h.apart a ha b hb hne
  · exact fun b hb _ => ⟨h.clear b hb, (h.clear b hb).symm⟩

/-- **One step.**  Every step of every core preserves the invariant. -/
theorem RecordInv.step {k : Machine} (harena : Arena k.img k.storages)
    (hlocks : LockInv k.arch s) (hinv : RecordInv k.records s) (hstep : CoreStep k c s s') :
    RecordInv k.records s' := by
  cases hstep with
  | startInvoke target htarget houtside => exact hinv.start _ htarget
  | startCreate target p htarget hnull hstack hhandler => exact hinv.start _ htarget
  | startDestroy target htarget hfactory hstack hhandler => exact hinv.start _ htarget
  | save hstack => exact hinv.advance (.mask _) hstack rfl trivial hinv.logged
  | mask hstack => exact hinv.advance (.acquire _) hstack rfl trivial hinv.logged
  | acquire hstack hfree =>
      -- The lock was free, so the records are where the released operations put them.
      have htarget := (hinv.frame_top hstack).target
      exact hinv.inside hlocks (Or.inr hfree) (sectionOK_begin htarget (hinv.free hfree))
        ⟨htarget, trivial⟩ (hinv.frames_below hstack)
  | busy hstack hheld => exact hinv.advance (.wait _) hstack rfl trivial hinv.logged
  | retry hstack hfree => exact hinv.advance (.acquire _) hstack rfl trivial hinv.logged
  | access hstack hexec =>
      have hsection := hinv.held c _ _ hstack rfl
      have htarget := (hinv.frame_top hstack).target
      exact hinv.proceed hlocks (.body _ _ _) hstack rfl rfl
        (hsection.access harena.records_pairwise htarget hexec)
  | refuse hstack hexec =>
      have hsection := hinv.held c _ _ hstack rfl
      refine hinv.proceed hlocks (.release _ _ _) hstack rfl rfl (hsection.leaveBody ?_)
      rw [runBody, hexec]
  | finish hstack =>
      have hsection := hinv.held c _ _ hstack rfl
      exact hinv.proceed hlocks (.release _ _ _) hstack rfl rfl (hsection.leaveBody rfl)
  | release hstack => exact hinv.release hlocks hstack
  | restore hstack =>
      exact hinv.advance (.unlocked _ _ _) hstack rfl (hinv.frame_top hstack).copy hinv.logged
  | leave hstack =>
      exact hinv.pop hstack (not_inSection_of_forall_stackOK (hlocks.flags_top hstack).2)
  | @dispatch r entry copy seen st hstack =>
      have hsnapshot : SnapshotOK s.history r copy seen := (hinv.frame_top hstack).copy r rfl rfl
      apply hinv.advance (.handling copy seen) hstack rfl trivial
      intro d hd
      rcases List.mem_append.mp hd with hd | hd
      · exact hinv.logged d hd
      · rw [List.mem_singleton.mp hd]
        exact hsnapshot
  | handled hstack =>
      exact hinv.pop hstack (not_inSection_of_forall_stackOK (hlocks.flags_top hstack).2)
  | interrupt flags hopen =>
      refine hinv.quiet rfl ?_ hinv.logged
      intro f hf
      exact hinv.frames c f (by simpa using hf)
  | irqReturn hstack =>
      have hflags := hlocks.flags c
      rw [hstack] at hflags
      exact hinv.pop hstack (hflags.2.not_inSection_of_unmasked hflags.1)
  | setFlags flags houtside =>
      exact hinv.quiet (inSection_of_outside houtside) (hinv.frames c) hinv.logged
  | writeMemory mem' houtside hrecords =>
      apply hinv.writeMemory
      intro r hr
      have hsame := sameBytes_of_agree (show recordSize ≤ 2 ^ 64 by decide) (hrecords r hr)
      exact (loadRecord_of_sameBytes hsame).symm

end Preservation

/-! ## Runs -/

section Runs

variable {k : Machine} {s : Sys Core}

/-- Bootstrap leaves the factory's record, as its CREATE would. -/
theorem Initial.recordInv (h : Initial k s) : RecordInv k.records s where
  free := by
    intro _ r hr
    rw [h.history]
    obtain ⟨s₀, caps, hfresh, hboot⟩ := h.booted
    have hrecord := (factoryReady_of_bootstrap hfresh hboot).2.record
    rcases Set.mem_insert_iff.mp hr with rfl | hstorage
    · have hobject : objectAt s.mem k.img.factoryRecord = some (factoryPayload k.img).stored := by
        unfold objectAt
        rw [hrecord, Payload.object_record]
      rw [hobject, factoryPayload_stored]
      simp [contents]
    · have hdead := h.empty r hstorage
      have hne : r ≠ k.img.factoryRecord := by
        rintro rfl
        apply hdead
        rw [hrecord]
        exact Payload.record_live _
      have hnone : objectAt s.mem r = none := (CapRecord.object_eq_none_iff _).mpr hdead
      change objectAt s.mem r = Store.apply (fun _ => none) (.create k.img.factoryRecord _) r
      rw [hnone, Store.apply_of_ne _ _ hne]
  held := by
    intro c f st hstack
    rw [h.idle.outside c] at hstack
    exact absurd hstack (by simp)
  frames := by
    intro c f hf
    rw [h.idle.outside c] at hf
    exact absurd hf List.not_mem_nil
  logged := by
    intro d hd
    rw [h.dispatched] at hd
    exact absurd hd List.not_mem_nil

variable [DecidableEq Core]

/-- **Every run.**  The invariant holds in every reachable state. -/
theorem Reachable.recordInv (harena : Arena k.img k.storages) (h : Reachable k s) :
    RecordInv k.records s := by
  obtain ⟨s₀, hinitial, hrun⟩ := h
  induction hrun with
  | refl => exact hinitial.recordInv
  | tail hrun hstep ih =>
      obtain ⟨c, hstep⟩ := hstep
      exact ih.step harena (lockInv_of_run hinitial.idle hrun) hstep

/-- **No torn dispatch.**  For any number of cores and any interleaving of their
steps after bootstrap, on storages that lie apart: every record on which a handler
was dispatched has its handler, data, table and index from one CREATE of that
storage, and of the operations that released the lock after that CREATE and before
the snapshot none was on that storage. -/
theorem dispatched_snapshot_of_one_create (harena : Arena k.img k.storages)
    (hreach : Reachable k s) {d : Snapshot} (hd : d ∈ s.dispatched) :
    ∃ p before after, d.seen = before ++ .create d.target p :: after ∧
      d.seen <+: s.history ∧ (∀ op ∈ after, op.key ≠ d.target) ∧
      d.record .handler = p.handler ∧ d.record .data = p.data ∧
      d.record .schemaTable = p.schemaTable ∧ d.record .schemaIndex = p.schemaIndex := by
  obtain ⟨hseen, hlast⟩ := (hreach.recordInv harena).logged d hd
  obtain ⟨before, after, hsplit, hafter⟩ := exists_split_of_lastOn hlast
  exact ⟨d.record.payload, before, after, hsplit, hseen, hafter, rfl, rfl, rfl, rfl⟩

end Runs

/-- The sample factory on an x86-64 machine with the given storages, two idle cores and
bootstrap done. -/
theorem sampleSys_initial {S : Set Addr}
    (hempty : ∀ r ∈ S, ¬ (loadRecord sampleSys.mem r).Live) :
    Initial ⟨.x86_64, sampleImage, S⟩ sampleSys where
  idle := sampleSys_idle
  booted := ⟨⟨sampleMemory, 0⟩, _, sampleMemory_fresh,
    kernelCapBootstrap_of_fresh (s := ⟨sampleMemory, 0⟩) sampleMemory_fresh⟩
  empty := hempty
  history := rfl
  dispatched := rfl

/-- What the cores of the samples create. -/
def samplePayload : Payload := ⟨0x40, 0x50, 0x60, 2⟩

/-- One core creates an object at 0x3000, and another core calls it: its handler runs on the
record that the first core wrote. -/
theorem sampleSys_dispatches_created :
    ∃ (s₁ s : Sys Bool) (d : Snapshot),
      (Relation.ReflTransGen (CoreStep sampleMachine true) sampleSys s₁ ∧
        Relation.ReflTransGen (CoreStep sampleMachine false) s₁ s) ∧
      (Arena sampleImage {0x3000#64} ∧ Reachable sampleMachine s ∧ d ∈ s.dispatched) ∧
      d.target = 0x3000#64 ∧ d.record .handler = 0x40 ∧
      ∃ p before after, d.seen = before ++ .create d.target p :: after ∧
        d.seen <+: s.history ∧ (∀ op ∈ after, op.key ≠ d.target) ∧
        d.record .handler = p.handler ∧ d.record .data = p.data ∧
        d.record .schemaTable = p.schemaTable ∧ d.record .schemaIndex = p.schemaIndex := by
  have hcreate := createCall_runs (k := sampleMachine) (s := sampleSys) (c := true)
    (r := 0x3000#64) samplePayload (Set.mem_insert_of_mem _ rfl) (by decide) trivial rfl
    (by decide) (by decide)
  have hlive : (loadRecord (sampleSys.afterCreate sampleMachine 0x3000#64 samplePayload).mem
      0x3000#64).Live := by decide
  have hinvoke := invoke_runs (k := sampleMachine) (c := false) (r := 0x3000#64)
    (s := sampleSys.afterCreate sampleMachine 0x3000#64 samplePayload)
    (Set.mem_insert_of_mem _ rfl) trivial rfl hlive
  have hempty : ∀ r ∈ ({0x3000#64} : Set Addr), ¬ (loadRecord sampleSys.mem r).Live := by
    rintro r rfl
    decide
  have hreach : Reachable sampleMachine _ := ⟨sampleSys, sampleSys_initial hempty,
    (steps_of_coreSteps hcreate).trans (steps_of_coreSteps hinvoke)⟩
  refine ⟨_, _, ⟨0x3000#64, _, _⟩, ⟨hcreate, hinvoke⟩,
    ⟨sampleArena, hreach, List.mem_append_right _ List.mem_cons_self⟩, rfl, by decide, ?_⟩
  exact dispatched_snapshot_of_one_create sampleArena hreach
    (List.mem_append_right _ List.mem_cons_self)

/-- Two storages of which one begins inside the other. -/
def overlapping : Machine := ⟨.x86_64, sampleImage, {0x3000#64, 0x3010#64}⟩

/-- On storages that overlap a dispatch can be torn: the second CREATE writes its magic over
the handler of the first record, which stays live. -/
theorem overlapping_torn_dispatch :
    ¬ ∀ (k : Machine) (s : Sys Bool) (d : Snapshot), Reachable k s → d ∈ s.dispatched →
      ∃ p before after, d.seen = before ++ .create d.target p :: after ∧
        d.seen <+: s.history ∧ (∀ op ∈ after, op.key ≠ d.target) ∧
        d.record .handler = p.handler ∧ d.record .data = p.data ∧
        d.record .schemaTable = p.schemaTable ∧ d.record .schemaIndex = p.schemaIndex := by
  intro h
  have hfirst := createCall_runs (k := overlapping) (s := sampleSys) (c := true)
    (r := 0x3000#64) samplePayload (by simp [Machine.records, overlapping]) (by decide) trivial rfl
    (by decide) (by decide)
  have hsecond := createCall_runs (k := overlapping) (c := false)
    (s := sampleSys.afterCreate overlapping 0x3000#64 samplePayload)
    (r := 0x3010#64) samplePayload (by simp [Machine.records, overlapping]) (by decide) trivial rfl
    (by decide) (by decide)
  have hinvoke := invoke_runs (k := overlapping) (c := true) (r := 0x3000#64)
    (s := (sampleSys.afterCreate overlapping 0x3000#64 samplePayload).afterCreate overlapping
      0x3010#64 samplePayload)
    (by simp [Machine.records, overlapping]) trivial rfl (by decide)
  have hempty : ∀ r ∈ overlapping.storages, ¬ (loadRecord sampleSys.mem r).Live := by
    rintro r (rfl | rfl)
    · decide
    · decide
  have hreach : Reachable overlapping _ := ⟨sampleSys, sampleSys_initial hempty,
    ((steps_of_coreSteps hfirst).trans (steps_of_coreSteps hsecond)).trans
      (steps_of_coreSteps hinvoke)⟩
  obtain ⟨p, before, after, hseen, -, -, hhandler, -⟩ :=
    h _ _ _ hreach (List.mem_append_right _ List.mem_cons_self)
  -- The only CREATE at 0x3000 asked for another handler.
  have hmem : Op.create 0x3000#64 p ∈
      [Op.create sampleImage.factoryRecord (factoryPayload sampleImage),
        .create 0x3000#64 samplePayload.stored, .create 0x3010#64 samplePayload.stored] := by
    have hsplit : [Op.create sampleImage.factoryRecord (factoryPayload sampleImage),
        .create 0x3000#64 samplePayload.stored, .create 0x3010#64 samplePayload.stored] =
        before ++ .create 0x3000#64 p :: after := hseen
    rw [hsplit]
    exact List.mem_append_right _ List.mem_cons_self
  have hp : p = samplePayload.stored := by
    simpa [show sampleImage.factoryRecord = 0x1000#64 from rfl] using hmem
  rw [hp] at hhandler
  exact absurd hhandler (by decide)

end Cap
end Saski
