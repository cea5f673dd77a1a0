import Saski.Capnp.Reader

/-!
# Older schemas accept newer messages

Cap'n Proto types grow by new fields at the end.  A table whose structs ask for
fewer data words and declare fewer pointer slots is therefore an older table of
the same types, and it must accept what the newer table accepts.

The validator runs over the same message with both tables.  `StructAccepts` and
`SlotAccepts` are monotone in the acceptance of their parts, so that one step of
the comparison is one lemma each, and the comparison of the whole recursion is an
induction on the levels left.
-/

namespace Saski
namespace Capnp

open Logged

/-- `older` declares the same structs over the same pointers, and each asks for
no more data words and has no more pointer slots. -/
structure SchemaTable.Relaxes (older newer : SchemaTable) : Prop where
  structCount : older.structCount = newer.structCount
  pointerCount : older.pointerCount = newer.pointerCount
  pointers : ∀ i < newer.pointerCount, older.pointers i = newer.pointers i
  dataWords : ∀ i < newer.structCount, (older.structs i).dataWords ≤ (newer.structs i).dataWords
  slots : ∀ i < newer.structCount,
    (older.structs i).pointerCount ≤ (newer.structs i).pointerCount
  firstPointer : ∀ i < newer.structCount,
    (older.structs i).firstPointer = (newer.structs i).firstPointer

variable {m : CapnpMsg} {older newer : SchemaTable}

/-- The slots the older schema checks are among those the newer one checks. -/
theorem StructAccepts.relax (hrelax : older.Relaxes newer) {slot slot' : SlotPred}
    (hslot : ∀ off pschema, slot off pschema → slot' off pschema)
    {off : Int} {dataWords ptrWords schema : Nat}
    (haccept : StructAccepts newer slot off dataWords ptrWords schema) :
    StructAccepts older slot' off dataWords ptrWords schema := by
  rcases haccept with hnone | ⟨hschema, hdata, hslots⟩
  · exact Or.inl hnone
  · have hcount := hrelax.slots schema hschema
    refine Or.inr ⟨hrelax.structCount ▸ hschema, (hrelax.dataWords schema hschema).trans hdata, ?_⟩
    intro i hi
    obtain ⟨hfirst, hrun, hone⟩ := hslots i (by omega)
    rw [hrelax.firstPointer schema hschema, hrelax.pointerCount, hrelax.pointers _ hrun]
    exact ⟨hfirst, hrun, hslot _ _ hone⟩

theorem CompositeAccepts.mono {child child' : StructPred}
    (hchild : ∀ off dataWords ptrWords schema, child off dataWords ptrWords schema →
      child' off dataWords ptrWords schema)
    {pschema : PointerSchema} {ptr : CapnpPtr} {target : Int}
    (haccept : CompositeAccepts m child pschema ptr target) :
    CompositeAccepts m child' pschema ptr target := by
  obtain ⟨hin, hfit, helements⟩ := haccept
  exact ⟨hin, hfit, fun i hi => hchild _ _ _ _ (helements i hi)⟩

theorem TargetAccepts.mono {child child' : StructPred}
    (hchild : ∀ off dataWords ptrWords schema, child off dataWords ptrWords schema →
      child' off dataWords ptrWords schema)
    {pschema : PointerSchema} {ptr : CapnpPtr} {target : Int}
    (haccept : TargetAccepts m child pschema ptr target) :
    TargetAccepts m child' pschema ptr target := by
  unfold TargetAccepts at haccept ⊢
  cases hkind : pschema.kind with
  | struct =>
      rw [hkind] at haccept
      obtain ⟨htag, hin, hstruct⟩ := haccept
      exact ⟨htag, hin, hchild _ _ _ _ hstruct⟩
  | list =>
      rw [hkind] at haccept
      obtain ⟨htag, hsize, hcomposite, hflat⟩ := haccept
      exact ⟨htag, hsize, fun h => (hcomposite h).mono hchild, hflat⟩
  -- The other kinds lead to no struct.
  | any => rwa [hkind] at haccept
  | text => rwa [hkind] at haccept
  | data => rwa [hkind] at haccept
  | capability => rwa [hkind] at haccept
  | unknown raw => rwa [hkind] at haccept

theorem SlotAccepts.mono {child child' : StructPred}
    (hchild : ∀ off dataWords ptrWords schema, child off dataWords ptrWords schema →
      child' off dataWords ptrWords schema)
    {off : Int} {pschema : PointerSchema} (haccept : SlotAccepts m child off pschema) :
    SlotAccepts m child' off pschema := by
  obtain ⟨hword, htarget⟩ := haccept
  exact ⟨hword, htarget.imp_right fun h => h.mono hchild⟩

/-- Induction on the levels left; both runs use them up together. -/
theorem validatePointerSlot_relax (hrelax : older.Relaxes newer) (levels : Nat) (off : Int)
    (pschema : PointerSchema)
    (haccept : (validatePointerSlot m newer levels off pschema).value = true) :
    (validatePointerSlot m older levels off pschema).value = true := by
  induction levels generalizing off pschema with
  | zero =>
      rw [value_validatePointerSlot_zero] at haccept
      exact absurd haccept Bool.false_ne_true
  | succ levels ih =>
      rw [value_validatePointerSlot_succ] at haccept ⊢
      refine haccept.mono fun off dataWords ptrWords schema hstruct => ?_
      rw [value_validateStructAt] at hstruct ⊢
      exact hstruct.relax hrelax ih

theorem validateStructAt_relax (hrelax : older.Relaxes newer) {levels : Nat} {off : Int}
    {dataWords ptrWords schema : Nat}
    (haccept : (validateStructAt m newer levels off dataWords ptrWords schema).value = true) :
    (validateStructAt m older levels off dataWords ptrWords schema).value = true := by
  rw [value_validateStructAt] at haccept ⊢
  exact haccept.relax hrelax (validatePointerSlot_relax hrelax levels)

theorem RootAccepts.relax (hrelax : older.Relaxes newer) {schema : Nat}
    (haccept : RootAccepts m newer schema) : RootAccepts m older schema := by
  rcases haccept with ⟨hnull, hvalid⟩ | ⟨hstruct, hin, hvalid⟩
  · exact Or.inl ⟨hnull, validateStructAt_relax hrelax hvalid⟩
  · exact Or.inr ⟨hstruct, hin, validateStructAt_relax hrelax hvalid⟩

/-- **Validation is monotone under schema evolution.**  A message that a table
accepts is accepted by every older table of the same types. -/
theorem capnpValidateMessage_relax (older newer : SchemaTable) (hrelax : older.Relaxes newer)
    (msg : Buffer) (len schema : Nat)
    (haccept : (capnpValidateMessage msg len (some newer) schema).value = true) :
    (capnpValidateMessage msg len (some older) schema).value = true := by
  by_cases hschema : schema = schemaIdxNone
  · subst hschema
    rfl
  · rw [value_capnpValidateMessage msg len newer hschema] at haccept
    rw [value_capnpValidateMessage msg len older hschema]
    obtain ⟨hlt, hmsg, hsegments, hfit, hwords, hroot⟩ := haccept
    exact ⟨hrelax.structCount ▸ hlt, hmsg, hsegments, hfit, hwords, hroot.relax hrelax⟩

/-- `compositeTable` before its elements had a data word. -/
def olderCompositeTable : SchemaTable where
  structs := fun i => if i = 0 then ⟨0, 1, 0⟩ else ⟨0, 0, schemaIdxNone⟩
  structCount := 2
  pointers := fun _ => ⟨.list, 1, 7⟩
  pointerCount := 1
  methods := fun _ => ⟨0, schemaIdxNone, schemaIdxNone⟩
  methodCount := 0
  objects := fun _ => ⟨0, 0⟩
  objectCount := 0

theorem olderCompositeTable_relaxes : olderCompositeTable.Relaxes compositeTable where
  structCount := rfl
  pointerCount := rfl
  pointers := fun _ _ => rfl
  dataWords := by decide
  slots := by decide
  firstPointer := by decide

/-- The elements of `compositeMessage` are longer than the older table knows. -/
theorem compositeMessage_accepted_by_older :
    (capnpValidateMessage compositeMessage 48 (some compositeTable) 0).value = true ∧
      (capnpValidateMessage compositeMessage 48 (some olderCompositeTable) 0).value = true := by
  have haccept :
      (capnpValidateMessage compositeMessage 48 (some compositeTable) 0).value = true := by
    decide
  exact ⟨haccept, capnpValidateMessage_relax olderCompositeTable compositeTable
    olderCompositeTable_relaxes compositeMessage 48 0 haccept⟩

end Capnp
end Saski
