import Saski.Boot.ApRegion

/-!
# What init is handed (`include/init_abi.h`)

The kernel enters init with one argument, the address of a `struct init_boot_info`.  All of
its members are words of eight bytes, one behind the other, and every way of booting assigns
some of them to a static object, one after the other.  A member that is not assigned keeps
what the object held.
-/

namespace Saski
namespace Boot

open ByteMemory

/-- The members of `struct init_boot_info`, in their order. -/
inductive InfoField where
  | capsCount
  | capsFactory
  | kernelInvoke
  | kernelLoadBase
  | kernelBootApAddr
  | pml4Phys
  | initImageAddr
  | initImageLen
  | kernelImageAddr
  | kernelImageLen
  | bspKernelInvokeAddr
  | mutexManagerHandle
  | memoryManagerHandle
  | hardwareMutexId
  | lapicCalibrationCount
  | clusterSchedulerHandle
  | serialResourceHandle
  | earlyRsdpPhys
  | fdtBlobPhys
  | ramSize
  | initDescriptionPhys
  | initEntryAddr
  | apCoreStatePhys
  deriving DecidableEq, Repr

/-- `sizeof(struct init_boot_info)`. -/
def bootInfoSize : Nat := 184

/-- The place of a member among the words. -/
def InfoField.index (f : InfoField) : Nat := f.ctorIdx

theorem InfoField.index_lt (f : InfoField) : 8 * (f.index + 1) ≤ bootInfoSize := by
  cases f <;> decide

theorem InfoField.index_injective : Function.Injective InfoField.index := by
  intro f g h
  rw [← InfoField.ofNat_ctorIdx f, ← InfoField.ofNat_ctorIdx g]
  exact congrArg InfoField.ofNat h

/-- The members of the object at `a`. -/
def loadInfo (m : Mem 64) (a : Addr) (f : InfoField) : Nat := element m a 8 f.index

/-- Assignments to members, one after the other. -/
def storeInfo (m : Mem 64) (a : Addr) (ws : List (InfoField × Nat)) : Mem 64 :=
  ws.foldl (fun m w => store m (a + BitVec.ofNat 64 (8 * w.1.index)) 8 w.2) m

/-- The members after these assignments. -/
def assign (info : InfoField → Nat) (ws : List (InfoField × Nat)) : InfoField → Nat :=
  ws.foldl (fun info w => Function.update info w.1 (w.2 % 2 ^ 64)) info

theorem loadInfo_store (m : Mem 64) (a : Addr) (f : InfoField) (v : Nat) :
    loadInfo (store m (a + BitVec.ofNat 64 (8 * f.index)) 8 v) a =
      Function.update (loadInfo m a) f (v % 2 ^ 64) := by
  have hsize : bootInfoSize ≤ 2 ^ 64 := by decide
  ext g
  rw [loadInfo, element_store m a v (g.index_lt.trans hsize) (f.index_lt.trans hsize)]
  by_cases hg : g = f
  · rw [hg, if_pos rfl, Function.update_self]
  · rw [if_neg fun h => hg (InfoField.index_injective h), Function.update_of_ne hg, loadInfo]

/-- Every member holds what was assigned to it last. -/
theorem loadInfo_storeInfo (m : Mem 64) (a : Addr) (ws : List (InfoField × Nat)) :
    loadInfo (storeInfo m a ws) a = assign (loadInfo m a) ws := by
  induction ws generalizing m with
  | nil => rfl
  | cons w ws ih =>
      change loadInfo (storeInfo (store m (a + BitVec.ofNat 64 (8 * w.1.index)) 8 w.2) a ws) a =
        assign (Function.update (loadInfo m a) w.1 (w.2 % 2 ^ 64)) ws
      rw [ih, loadInfo_store]

/-- Only the object is written. -/
theorem storeInfo_of_not (m : Mem 64) {a x : Addr} (ws : List (InfoField × Nat))
    (hx : ¬ InExtent a bootInfoSize x) : storeInfo m a ws x = m x := by
  induction ws generalizing m with
  | nil => rfl
  | cons w ws ih =>
      change storeInfo (store m (a + BitVec.ofNat 64 (8 * w.1.index)) 8 w.2) a ws x = m x
      rw [ih]
      exact store_of_not_inExtent fun h => hx (h.of_add w.1.index_lt)

theorem loadInfo_of_eqOn {m m' : Mem 64} {a : Addr} (h : Set.EqOn m' m (extent a bootInfoSize)) :
    loadInfo m' a = loadInfo m a := by
  ext f
  exact load_of_eqOn h (by decide) (extent_add_subset a (8 * f.index) f.index_lt)

end Boot
end Saski
