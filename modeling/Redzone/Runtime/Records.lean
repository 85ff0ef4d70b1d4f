/-
  Runtime/Records.lean --- what the records of the runtime do to the clocks.

  `clockOf` and `syncClock` read the state as clocks: of a thread, and of the object at an
  address.  `EdgesKept` is the condition under which no step loses an order: every release
  is recorded, every acquire is recorded or has nothing to import, a created thread is
  tracked, a join finds the joined thread, a try-lock that takes the lock returns 0, and
  no epoch overflows.  Then clocks only move forward.
-/
import Redzone.Runtime.JoinedChild

set_option autoImplicit false

namespace Redzone.Runtime

open Redzone.Foundation
open Redzone.Race

/-! ## Clocks of a process -/

def Handle.clock : Handle → RzVc
  | .live th => th.clock
  | _ => rzVcInit

namespace Process

/-- The clock of a thread; one without a handle has seen nothing. -/
def clockOf (s : Process) (t : ℕ) : RzVc := (s.handles t).clock

/-- The clock of the object at an address. -/
def syncClock (s : Process) (key : ℕ) : RzVc := (s.syncs (syncShardOf key)).clock key

/-- The clock that a thread in the middle of a wrapper is about to import. -/
def owed (s : Process) : Script → RzVc
  | .self :: .acquire key :: _ => s.syncClock key
  | .acquire key :: _ => s.syncClock key
  | .takeThread _ c :: _ => s.clockOf c
  | _ => rzVcInit

end Process

theorem rzVcInit_le (c : RzVc) : rzVcInit ≤ c := fun _ => Nat.zero_le _

theorem sup_rzVcInit (c : RzVc) : c ⊔ rzVcInit = c := sup_eq_left.mpr (rzVcInit_le c)

/-- No step loses an order. -/
def Process.EdgesKept (s : Process) (t : ℕ) (r : Result) : Micro → Prop
  | .acquire key =>
    (∃ th, s.handles t = .live th) ∨ syncIndex (s.syncs (syncShardOf key)).ents key = none
  | .release key =>
    (∃ th, s.handles t = .live th ∧ TickFits th.clock th.tid) ∧
      (syncForIn (s.syncs (syncShardOf key)) key r.alloc).isSome = true
  | .trylock _ _ => r.done = true → r.rc = 0
  | .recordCreate =>
    TickFits (s.clockOf t) s.gMeta.nextTid ∧
      ∀ th, s.handles t = .live th → TickFits th.clock th.tid
  | .create _ => r.rc = 0 → s.ValueFresh r.value
  | .createUntracked => r.rc ≠ 0
  | .takeThread _ joined => s.Registered joined
  | _ => True

/-! ### Deciding the condition -/

instance (h : Handle) (P : RzThread → Prop) [DecidablePred P] :
    Decidable (∃ th, h = .live th ∧ P th) :=
  match h with
  | .live th => decidable_of_iff (P th) (by simp)
  | .absent | .freed => isFalse (by simp)

instance (h : Handle) (P : RzThread → Prop) [DecidablePred P] :
    Decidable (∀ th, h = .live th → P th) :=
  match h with
  | .live th => decidable_of_iff (P th) (by simp)
  | .absent | .freed => isTrue (by simp)

instance (h : Handle) : Decidable (∃ th, h = .live th) :=
  match h with
  | .live th => isTrue ⟨th, rfl⟩
  | .absent | .freed => isFalse (by simp)

instance (s : Process) (t : ℕ) (r : Result) : (m : Micro) → Decidable (s.EdgesKept t r m)
  | .acquire _ => inferInstanceAs (Decidable ((∃ _, _) ∨ _))
  | .release _ => inferInstanceAs (Decidable ((∃ _, _ ∧ _) ∧ _))
  | .trylock _ _ => inferInstanceAs (Decidable (r.done = true → r.rc = 0))
  | .recordCreate => inferInstanceAs (Decidable (_ ∧ ∀ _, _ → _))
  | .create _ => inferInstanceAs (Decidable (r.rc = 0 → s.ValueFresh r.value))
  | .createUntracked => inferInstanceAs (Decidable (r.rc ≠ 0))
  | .takeThread _ joined => inferInstanceAs (Decidable (s.Registered joined))
  | .self | .lock _ _ | .unlock _ | .waitUnlock _ | .waitLock _ | .atomicOp _ _ | .register _ _
  | .join _ | .freeHandle _ | .word _ _ | .finish _ => .isTrue trivial

section Clocks

variable {s s₁ s' : Process} {e : Event} {t u c key key' : ℕ} {m : Micro} {r : Result}
  {th : RzThread}

theorem clockOf_live (h : s.handles t = .live th) : s.clockOf t = th.clock := by
  rw [Process.clockOf, h]
  rfl

theorem clockOf_absent (h : s.handles t = .absent) : s.clockOf t = rzVcInit := by
  rw [Process.clockOf, h]
  rfl

theorem clockOf_congr (h : s₁.handles t = s.handles t) : s₁.clockOf t = s.clockOf t := by
  rw [Process.clockOf, h, Process.clockOf]

theorem syncClock_congr (h : s₁.syncs = s.syncs) : s₁.syncClock key = s.syncClock key := by
  rw [Process.syncClock, h, Process.syncClock]

/-- A key that no shard has has the clock of a fresh object. -/
theorem syncClock_of_none (h : syncIndex (s.syncs (syncShardOf key)).ents key = none) :
    s.syncClock key = rzVcInit := by
  have hnone : (s.syncs (syncShardOf key)).ents.find? (fun e => e.key == key) = none := by
    rw [List.find?_eq_none]
    intro e he
    simpa using List.findIdx?_eq_none_iff.mp h e he
  rw [Process.syncClock, SyncShard.clock, hnone]

/-- Replacing one shard changes the clocks of its keys only. -/
theorem syncClock_setSync {sh : SyncShard} {c : RzVc}
    (h : ∀ key', sh.clock key' =
      if key' = key then c else (s.syncs (syncShardOf key)).clock key') :
    (s.setSync key sh).syncClock key' = if key' = key then c else s.syncClock key' := by
  change ((Function.update s.syncs (syncShardOf key) sh) (syncShardOf key')).clock key' = _
  by_cases hsh : syncShardOf key' = syncShardOf key
  · rw [hsh, Function.update_self, h key', Process.syncClock, hsh]
  · rw [Function.update_of_ne hsh, if_neg]
    · rfl
    · rintro rfl
      exact hsh rfl

/-- The record of an acquire imports the clock of the object. -/
theorem acquireStep_clocks (hth : s.handles t = .live th) {ok : Bool} :
    (s.acquireStep t th key ok).clockOf t = s.clockOf t ⊔ s.syncClock key ∧
      ∀ key', (s.acquireStep t th key ok).syncClock key' = s.syncClock key' := by
  unfold Process.acquireStep
  split
  · rename_i i sh hfor
    obtain ⟨hidx, hclock⟩ := syncForIn_spec hfor
    constructor
    · rw [clockOf_live setHandle_self, rzMutexAcquire, rzVcJoin_eq_sup, syncAt_clock hidx,
        hclock, clockOf_live hth]
      rfl
    · intro key'
      have hset : (s.setSync key sh).syncClock key' =
          if key' = key then s.syncClock key else s.syncClock key' := by
        refine syncClock_setSync fun key'' => ?_
        rw [hclock]
        split
        · rename_i heq
          rw [heq]
          rfl
        · rfl
      refine hset.trans ?_
      split
      · rename_i heq
        rw [heq]
      · rfl
  · rename_i hnone
    refine ⟨?_, fun _ => rfl⟩
    have hidx : syncIndex (s.syncs (syncShardOf key)).ents key = none := by
      cases hidx : syncIndex (s.syncs (syncShardOf key)).ents key with
      | none => rfl
      | some i =>
          rw [syncForIn_of_mem hidx] at hnone
          simp at hnone
    rw [syncClock_of_none hidx, sup_rzVcInit]

/-- The record of a release publishes the clock of the thread, and moves past it. -/
theorem releaseStep_clocks (hth : s.handles t = .live th) {ok : Bool}
    (hsome : (syncForIn (s.syncs (syncShardOf key)) key ok).isSome = true) :
    (s.releaseStep t th key ok).clockOf t = rzVcTick th.clock th.tid ∧
      ∀ key', (s.releaseStep t th key ok).syncClock key' =
        if key' = key then s.syncClock key ⊔ s.clockOf t else s.syncClock key' := by
  obtain ⟨⟨i, sh⟩, hfor⟩ := Option.isSome_iff_exists.mp hsome
  obtain ⟨hidx, hclock⟩ := syncForIn_spec hfor
  have heq : s.releaseStep t th key ok =
      (s.setSync key (sh.setSync i (rzMutexRelease th (sh.syncAt i)).2)).setHandle t
        (.live (rzMutexRelease th (sh.syncAt i)).1) := by
    unfold Process.releaseStep
    rw [hfor]
  rw [heq]
  constructor
  · rw [clockOf_live setHandle_self, rzMutexRelease]
  · intro key'
    rw [syncClock_congr (setHandle_syncs (s := s.setSync key _) (t := t))]
    apply syncClock_setSync
    intro key''
    have hrel : (rzMutexRelease th (sh.syncAt i)).2.clock = s.syncClock key ⊔ s.clockOf t := by
      rw [rzMutexRelease, rzVcJoin_eq_sup, syncAt_clock hidx, hclock, clockOf_live hth,
        Process.syncClock]
    rw [clock_setSync hidx, hclock, hrel]

/-- A failed release changes no clock. -/
theorem releaseStep_clocks_none {ok : Bool}
    (hnone : syncForIn (s.syncs (syncShardOf key)) key ok = none) :
    s.releaseStep t th key ok = s := by
  unfold Process.releaseStep
  rw [hnone]

/-- The clocks of objects only grow, and only a release changes one. -/
theorem effected_syncClock (h : Effected s t r m s₁) :
    s.syncClock key ≤ s₁.syncClock key ∧
      ((∀ k, m ≠ .release k) → s₁.syncClock key = s.syncClock key) := by
  have hsame : s₁.syncClock key = s.syncClock key → s.syncClock key ≤ s₁.syncClock key ∧
      ((∀ k, m ≠ .release k) → s₁.syncClock key = s.syncClock key) :=
    fun heq => ⟨heq.ge, fun _ => heq⟩
  cases h with
  | acquire ht => exact hsame ((acquireStep_clocks ht).2 key)
  | @release th k ht =>
      refine ⟨?_, fun hne => absurd rfl (hne k)⟩
      cases hfor : syncForIn (s.syncs (syncShardOf k)) k r.alloc with
      | none => rw [releaseStep_clocks_none hfor]
      | some p =>
          rw [(releaseStep_clocks ht (by rw [hfor]; rfl)).2]
          split
          · rename_i heq
            rw [heq]
            exact le_sup_left
          · exact le_rfl
  | word ht => exact hsame (syncClock_congr (by simp))
  | finish => exact hsame (syncClock_congr (by simp))
  | _ => exact hsame rfl

/-- Where no order is lost, the clock of the acting thread moves forward. -/
theorem effected_clock_self (h : Effected s t r m s₁) (hcond : s.EdgesKept t r m)
    (hrun : t ∈ s.names) (hcreating : ∀ c, m = .create c → c ∉ s.names)
    (hfree : m ≠ .freeHandle t) : s.clockOf t ≤ s₁.clockOf t := by
  cases h with
  | selfInit ht =>
      rw [clockOf_absent ht]
      exact rzVcInit_le _
  | acquire ht =>
      rw [(acquireStep_clocks ht).1]
      exact le_sup_left
  | @release th k ht =>
      obtain ⟨⟨th', ht', hfits⟩, hsome⟩ := hcond
      obtain rfl : th = th' := Handle.live.inj (ht.symm.trans ht')
      rw [(releaseStep_clocks ht hsome).1, clockOf_live ht]
      exact le_rzVcTick hfits
  | @recordCreate parent halloc ht hc hfresh =>
      have hne : t ≠ r.child := by
        rintro rfl
        exact hfresh hrun
      have hhandle : (s.createStep t parent r.child).handles t =
          .live (rzThreadCreate s.gMeta parent).1 := by
        unfold Process.createStep
        rw [setHandle_of_ne hne, setHandle_self]
      rw [clockOf_live hhandle, clockOf_live ht]
      exact le_rzVcTick (hcond.2 parent ht)
  | @createFailed c hrc =>
      have hne : t ≠ c := by
        rintro rfl
        exact hcreating t rfl hrun
      exact (clockOf_congr (setHandle_of_ne hne)).ge
  | @take thr joined c parent child hsome ht hc =>
      rw [clockOf_live ht, clockOf_live setHandle_self, rzThreadJoin, rzVcJoin_eq_sup]
      exact le_sup_left
  | @freeHandle c =>
      have hne : t ≠ c := by
        rintro rfl
        exact hfree rfl
      exact (clockOf_congr (setHandle_of_ne hne)).ge
  | word ht => exact (clockOf_congr (by simp)).ge
  | finish => exact (clockOf_congr (by simp)).ge
  | _ => exact le_rfl

end Clocks

end Redzone.Runtime
