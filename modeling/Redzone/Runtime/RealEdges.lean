/-
  Runtime/RealEdges.lean --- the edges of the real operations are recorded.

  Where the real operations and the allocations succeed and no `pthread_t` value is handed
  out twice (`Assumed`), one order can still be lost: that of a thread that has ended, if
  the thread that joins it looks for its entry before its creator has made it
  (`JoinRegistered`).  Otherwise the clock of a thread covers all that happens before its
  next event as soon as its wrapper has recorded the acquire.
-/
import Redzone.Runtime.NoFalseRace

set_option autoImplicit false

namespace Redzone.Runtime

open Redzone.Foundation
open Redzone.Race

/-! ## Conditions -/

/-- The next tick of a thread does not overflow an epoch. -/
def Handle.TickFits : Handle → Prop
  | .live th => Race.TickFits th.clock th.tid
  | _ => True

instance : (h : Handle) → Decidable h.TickFits
  | .live th => inferInstanceAs (Decidable (Race.TickFits th.clock th.tid))
  | .absent | .freed => .isTrue trivial

/-- The real operation and the allocations of the step succeed, and a new thread gets a
value that no thread had before. -/
def Process.Assumed (s : Process) (_ : ℕ) (r : Result) : Micro → Prop
  | .self | .acquire _ | .release _ | .recordCreate | .register _ _ => r.alloc = true
  | .lock _ _ | .unlock _ | .waitUnlock _ | .waitLock _ => r.rc = 0 ∧ r.done = true
  | .trylock _ _ => r.done = true ↔ r.rc = 0
  | .create _ => r.rc = 0 ∧ ∀ t ∈ s.names, (s.threads t).value ≠ r.value
  | .join _ => r.rc = 0
  | _ => True

instance (s : Process) (t : ℕ) (r : Result) : (m : Micro) → Decidable (s.Assumed t r m)
  | .self | .acquire _ | .release _ | .recordCreate | .register _ _ =>
    inferInstanceAs (Decidable (r.alloc = true))
  | .lock _ _ | .unlock _ | .waitUnlock _ | .waitLock _ => inferInstanceAs (Decidable (_ ∧ _))
  | .trylock _ _ => inferInstanceAs (Decidable (_ ↔ _))
  | .create _ => inferInstanceAs (Decidable (_ ∧ _))
  | .join _ => inferInstanceAs (Decidable (r.rc = 0))
  | .createUntracked | .takeThread _ _ | .freeHandle _ | .atomicOp _ _ | .word _ _ | .finish _ =>
    .isTrue trivial

/-- A thread that has been joined has its entry when the join looks for it, and no epoch
overflows. -/
def Process.JoinRegistered (s : Process) (t : ℕ) (_ : Result) : Micro → Prop
  | .release _ => (s.handles t).TickFits
  | .recordCreate => (s.handles t).TickFits ∧ TickFits (s.clockOf t) s.gMeta.nextTid
  | .takeThread _ joined => s.Registered joined
  | _ => True

instance (s : Process) (t : ℕ) (r : Result) : (m : Micro) → Decidable (s.JoinRegistered t r m)
  | .release _ => inferInstanceAs (Decidable (s.handles t).TickFits)
  | .recordCreate => inferInstanceAs (Decidable (_ ∧ _))
  | .takeThread _ joined => inferInstanceAs (Decidable (s.Registered joined))
  | .self | .acquire _ | .lock _ _ | .trylock _ _ | .unlock _ | .waitUnlock _ | .waitLock _
  | .atomicOp _ _ | .create _ | .createUntracked | .register _ _ | .join _ | .freeHandle _
  | .word _ _ | .finish _ => .isTrue trivial

/-- `P` holds of every step of a wrapper in the run. -/
def EveryMicro (P : Process → ℕ → Result → Micro → Prop) (i : Init) (es : List Event) : Prop :=
  EveryStep Process.step (fun s e => e.OnStep (P s)) (.initial i) es

instance (P : Process → ℕ → Result → Micro → Prop) [∀ s t r m, Decidable (P s t r m)] (i : Init)
    (es : List Event) : Decidable (EveryMicro P i es) :=
  decidableEveryStep Process.step (fun s e => e.OnStep (P s)) (.initial i) es

/-! ## All threads are tracked -/

/-- Every thread has a handle, and none is created without one. -/
structure Process.AllTracked (s : Process) : Prop where
  inv : s.JoinInv
  handles : ∀ t ∈ s.names, s.handles t ≠ .absent
  creates : ∀ t, s.head t ≠ some .createUntracked

section Tracked

variable {i : Init} {es : List Event} {s s₁ s' : Process} {e : Event} {t u c : ℕ} {m : Micro}
  {r : Result}

theorem Process.AllTracked.live (h : s.AllTracked) (hrun : (s.threads t).phase = .running) :
    ∃ th, s.handles t = .live th := by
  have habsent := h.handles t (h.inv.wf.running_mem hrun)
  have hfreed := h.inv.custody.running_handle h.inv.wf hrun
  cases hhandle : s.handles t with
  | absent => exact absurd hhandle habsent
  | live th => exact ⟨th, rfl⟩
  | freed => exact absurd hhandle hfreed

/-- Where memory does not run out, an object is found or created. -/
theorem syncForIn_isSome {sh : SyncShard} {key : ℕ} : (syncForIn sh key true).isSome = true := by
  unfold syncForIn
  split
  · rfl
  · split <;> rfl

/-- A value that no thread had is in no entry, made or still to be made. -/
theorem valueFresh_of_unused (hwf : s.WF) {v : ℕ} (h : ∀ t ∈ s.names, (s.threads t).value ≠ v) :
    s.ValueFresh v := by
  constructor
  · intro slot hslot hused heq
    obtain ⟨hmem, hvalue⟩ := hwf.registry slot hslot hused
    exact h slot.self hmem (hvalue.trans heq)
  · intro t _ hreg
    obtain ⟨m, hhead, hm⟩ := Option.bind_eq_some_iff.mp hreg
    cases m with
    | register v' c =>
        obtain rfl := Option.some.inj hm
        obtain ⟨hmem, hvalue⟩ := hwf.registering t v' c hhead
        exact h c hmem hvalue
    | _ => simp [Micro.registers] at hm

/-- Under the conditions no step loses an order. -/
theorem Process.AllTracked.edgesKept (h : s.AllTracked) (hassumed : e.OnStep s.Assumed)
    (hjoin : e.OnStep s.JoinRegistered) (hst : Stepped s e s') : e.OnStep s.EdgesKept := by
  obtain ⟨t, action⟩ := e
  cases action with
  | step m r =>
      obtain ⟨th, hth⟩ := h.live hst.running
      cases m with
      | acquire key => exact Or.inl ⟨th, hth⟩
      | release key =>
          have hfits : (s.handles t).TickFits := hjoin
          have halloc : r.alloc = true := hassumed
          rw [hth] at hfits
          refine ⟨⟨th, hth, hfits⟩, ?_⟩
          rw [halloc]
          exact syncForIn_isSome
      | trylock key mode => exact hassumed.mp
      | recordCreate =>
          obtain ⟨hfits, hnext⟩ := hjoin
          refine ⟨hnext, fun th' hth' => ?_⟩
          rw [hth'] at hfits
          exact hfits
      | create child => exact fun _ => valueFresh_of_unused h.inv.wf hassumed.2
      | createUntracked => exact absurd (hst.head_of_step rfl) (h.creates t)
      | takeThread thr joined => exact hjoin
      | _ => trivial
  | _ => trivial

/-- A thread loses its own handle in no step of its own. -/
theorem effected_handles_absent (h : Effected s t r m s₁) (habsent : s₁.handles t = .absent) :
    s.handles t = .absent ∨ m = .create t := by
  cases h with
  | selfInit ht => exact Or.inl ht
  | @acquire th key ht =>
      unfold Process.acquireStep at habsent
      split at habsent
      · simp at habsent
      · exact Or.inl habsent
  | release ht =>
      unfold Process.releaseStep at habsent
      split at habsent
      · simp at habsent
      · exact Or.inl habsent
  | recordCreate halloc ht hc hfresh =>
      have hne : t ≠ r.child := by
        intro heq
        simp [← heq, ht] at hc
      unfold Process.createStep at habsent
      rw [setHandle_of_ne hne] at habsent
      simp at habsent
  | @createFailed c hrc =>
      by_cases htc : t = c
      · exact Or.inr (htc ▸ rfl)
      · rw [setHandle_of_ne htc] at habsent
        exact Or.inl habsent
  | take hsome ht hc => simp at habsent
  | @freeHandle c =>
      by_cases htc : t = c
      · subst htc
        simp at habsent
      · rw [setHandle_of_ne htc] at habsent
        exact Or.inl habsent
  | word ht => exact Or.inl (by simpa using habsent)
  | finish => exact Or.inl (by simpa using habsent)
  | _ => exact Or.inl habsent

/-- A thread in use keeps a handle. -/
theorem Stepped.handle_present (h : Stepped s e s') (hwf : s.WF) (hmem : t ∈ s.names)
    (habsent : s'.handles t = .absent) : s.handles t = .absent := by
  have hcreate : ∀ r, e.action ≠ .step (.create t) r := fun r haction =>
    (hwf.creating e.thread t (h.head_of_step haction)).1 hmem
  rcases eq_or_ne t e.thread with rfl | ht
  · cases h with
    | @micro t m r rest s₁ hrun htodo heff =>
        rw [setTodo_handles] at habsent
        rcases effected_handles_absent heff habsent with hold | rfl
        · exact hold
        · exact absurd rfl (hcreate r)
    | _ => exact habsent
  · rcases h.handles_other ht with hsame | ⟨r, -, -, -, hnew, -⟩ | ⟨r, haction, -⟩ | ⟨r, -, hfreed⟩
    · rwa [hsame] at habsent
    · exact absurd hmem hnew
    · exact absurd haction (hcreate r)
    · simp [hfreed] at habsent

theorem Process.AllTracked.step (h : s.AllTracked) (hassumed : e.OnStep s.Assumed)
    (hkept : e.OnStep s.EdgesKept) (hst : Stepped s e s') : s'.AllTracked := by
  refine ⟨h.inv.step (edgesKept_joinTracked hkept) hst, ?_, ?_⟩
  · intro t ht habsent
    rcases Classical.em (t ∈ s.names) with hmem | hnew
    · exact h.handles t hmem (hst.handle_present h.inv.wf hmem habsent)
    · -- a new thread has the handle that its creator has made for it
      rcases hst.thread_of_notMem h.inv.wf hnew with ⟨hnot, -⟩ | ⟨m, r, haction, hstarts, -⟩
      · exact hnot ht
      · have hstart : e.starts = some t := by
          obtain ⟨u, action⟩ := e
          obtain rfl := haction
          exact hstarts
        rcases starts_cases hstart with ⟨r', hcreate, hrc⟩ | ⟨r', hcreate, -⟩
        · obtain ⟨-, th, hth⟩ := h.inv.wf.creating e.thread t (hst.head_of_step hcreate)
          rw [hst.create_handles hcreate hrc, hth] at habsent
          exact Handle.noConfusion habsent
        · exact h.creates e.thread (hst.head_of_step hcreate)
  · intro t hhead
    by_cases ht : t = e.thread
    · subst ht
      obtain ⟨m, r, s₁, todo, haction, -, -, -, hcases⟩ := hst.head_dynamic h.inv.wf hhead rfl
      rcases hcases with ⟨rfl, hm⟩ | ⟨c', -, -, hm⟩ | ⟨thr, -, -, hm⟩ | ⟨thr, joined, c', -, -, hm⟩
      · obtain ⟨t, action⟩ := e
        obtain rfl := haction
        have halloc : r.alloc = true := hassumed
        simp [halloc] at hm
      · simp at hm
      · simp at hm
      · simp at hm
    · rw [hst.head_other h.inv.wf ht] at hhead
      exact h.creates t hhead

theorem allTracked_initial (hroot : i.rootOk = true) : (Process.initial i).AllTracked := by
  refine ⟨joinInv_initial i, ?_, fun t => ?_⟩
  · intro t ht habsent
    obtain rfl : t = 0 := by simpa [Process.initial] using ht
    simp [Process.initial, hroot] at habsent
  · simp [initial_head]

/-- A run under the conditions loses no order. -/
theorem keepsEdges_of_joinRegistered (hroot : i.rootOk = true) (hrun : processRun i es = some s)
    (hassumed : EveryMicro Process.Assumed i es) (hjoin : EveryMicro Process.JoinRegistered i es) :
    KeepsEdges i es := by
  refine (hassumed.and hjoin).of_run (allTracked_initial hroot) hrun ?_
  intro m e m' htracked hboth hstep
  have hst := Process.stepped hstep
  have hkept := htracked.edgesKept hboth.1 hboth.2 hst
  exact ⟨htracked.step hboth.1 hkept hst, hkept⟩

end Tracked

/-! ## The recorded edges -/

/-- If event `n` is before one of a thread by the real operations, the thread's clock is
above the one at `n` as soon as its wrapper has recorded what it has imported, until the
handle is freed after the join.  So no race is counted if all conflicting checks are
ordered. -/
theorem realEdges_recorded {i : Init} {es : List Event} {s : Process} (hroot : i.rootOk = true)
    (hrun : processRun i es = some s) (hassumed : EveryMicro Process.Assumed i es)
    (hjoin : EveryMicro Process.JoinRegistered i es) :
    (∀ n k e c, RealHB es n k → es[k]? = some e → clockBefore i es n = some c →
      Settled (s.threads e.thread).todo → (s.threads e.thread).joined = false →
      c ≤ s.clockOf e.thread) ∧
    (Ordered es → s.races = 0) := by
  have hkept := keepsEdges_of_joinRegistered hroot hrun hassumed hjoin
  refine ⟨?_, fun hordered => races_zero hkept hordered hrun⟩
  intro n k e c hhb he hc hsettled hjoined
  obtain ⟨hinv, hcover⟩ := clocksCover_of_run hkept hrun
  have hlive : s.handles e.thread ≠ .freed := by
    intro hfreed
    have h := (hinv.custody.freed e.thread hfreed).1
    rw [hjoined] at h
    exact Bool.noConfusion h
  exact hcover.clock_le hlive hsettled (mem_known_of_realHB hhb he) hc

/-- Thread 1 stores a flag after a write, and ends; thread 2 sees the flag and joins
thread 1.  With `registered` set, the creator makes its entry before thread 1 runs. -/
def flagThenJoin (registered : Bool) : List Event :=
  let create := wholeCreate 0 1 7
  wholeCreate 0 2 8 ++ (if registered then create else create.take 4) ++
    wholeCall 1 (.atomic 0x600 .store) ++ wholeCall 1 (.write 0x1000 4 none 1) ++ [⟨1, .exit⟩] ++
    wholeCall 2 (.atomic 0x600 .load) ++ realJoin 2 7 1 ++
    [⟨2, .step (.takeThread 7 1) .ok⟩] ++
    (if registered then [⟨2, .step (.freeHandle 1) .ok⟩] else []) ++
    wholeCall 2 (.write 0x1000 4 none 2)

theorem flagThenJoin_ordered : Ordered (flagThenJoin true) := by
  have hexit : RealHB (flagThenJoin true) 16 25 :=
    .of_object (by decide) rfl rfl (o := .died 1) (by decide) (by decide)
  have hwrite : RealHB (flagThenJoin true) 25 30 := .of_actor (by decide) rfl rfl rfl
  apply ordered_of_two (i := 16) (j := 30)
  · decide +kernel
  · exact hexit.trans hwrite

theorem realEdges_recorded_flagThenJoin :
    ∃ s, processRun .ok (flagThenJoin true) = some s ∧
      (Ordered (flagThenJoin true) ∧ s.races = 0) := by
  have hsome : (processRun .ok (flagThenJoin true)).isSome = true := by decide +kernel
  obtain ⟨s, hs⟩ := Option.isSome_iff_exists.mp hsome
  have hrecorded := realEdges_recorded rfl hs (by decide +kernel) (by decide +kernel)
  exact ⟨s, hs, flagThenJoin_ordered, hrecorded.2 flagThenJoin_ordered⟩

/-- Without the entry the join is not recorded, and the second write is counted. -/
theorem unregistered_join_counts_race :
    Init.ok.rootOk = true ∧ EveryMicro Process.Assumed .ok (flagThenJoin false) ∧
      Ordered (flagThenJoin false) ∧
      ∃ s, processRun .ok (flagThenJoin false) = some s ∧ s.races ≠ 0 := by
  refine ⟨rfl, by decide +kernel, ?_, ?_⟩
  · have hexit : RealHB (flagThenJoin false) 15 24 :=
      .of_object (by decide) rfl rfl (o := .died 1) (by decide) (by decide)
    have hwrite : RealHB (flagThenJoin false) 24 28 := .of_actor (by decide) rfl rfl rfl
    apply ordered_of_two (i := 15) (j := 28)
    · decide +kernel
    · exact hexit.trans hwrite
  · have hany : (processRun .ok (flagThenJoin false)).any
        (fun s => decide (s.races ≠ 0)) = true := by
      decide +kernel
    obtain ⟨s, hs, hraces⟩ := (Option.any_eq_true ..).mp hany
    exact ⟨s, hs, of_decide_eq_true hraces⟩

end Redzone.Runtime
