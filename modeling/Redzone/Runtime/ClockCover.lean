/-
  Runtime/ClockCover.lean --- the clocks of the runtime cover the order of the real
  operations.

  `ClocksCover` compares the clocks with what is known by the real operations.  A thread's
  clock, with the clock that it is about to import, is at or above the clocks of all events
  that happen before its next one; the clock of the object at an address is at or above
  those of all events that have been published there.  Every step that loses no order keeps
  this, because a release is recorded before the real operation that publishes, and an
  acquire after the real operation that imports.
-/
import Redzone.Foundation.EpochClock
import Redzone.Runtime.Records

set_option autoImplicit false

namespace Redzone.Runtime

open Redzone.Foundation
open Redzone.Race

/-! ## The clocks of events -/

/-- A real operation that publishes; its order has been recorded one step before. -/
def Micro.hands : Micro → Bool
  | .unlock _ | .waitUnlock _ | .create _ | .createUntracked => true
  | .atomicOp _ kind => kind != .load
  | _ => false

def Event.hands (e : Event) : Bool :=
  match e.action with
  | .step m _ => m.hands
  | _ => false

/-- The clock with which its thread performs event `n`; that of a real operation that
publishes is not recorded. -/
def clockBefore (i : Init) (es : List Event) (n : ℕ) : Option RzVc :=
  es[n]?.bind fun e =>
    if e.hands then none else (processRun i (es.take n)).map fun s => s.clockOf e.thread

/-- The address that an object is recorded under. -/
def Obj.key : Obj → Option ℕ
  | .unlocked key _ | .atomic key => some key
  | .born _ | .died _ => none

section ClockBefore

variable {i : Init} {es fs : List Event} {e : Event} {s : Process} {n : ℕ} {c : RzVc}
  {A : Finset ℕ}

/-- Later events do not matter. -/
theorem clockBefore_append (h : n < es.length) :
    clockBefore i (es ++ fs) n = clockBefore i es n := by
  rw [clockBefore, clockBefore, List.getElem?_append_left h, List.take_append_of_le_length h.le]

theorem clockBefore_last (hrun : processRun i es = some s) :
    clockBefore i (es ++ [e]) es.length =
      if e.hands then none else some (s.clockOf e.thread) := by
  rw [clockBefore, List.getElem?_concat_length, List.take_left, hrun]
  rfl

/-- What is bounded stays bounded when another event has happened. -/
theorem bounded_append (h : BoundedBy (clockBefore i es) c A) (hlt : ∀ n ∈ A, n < es.length) :
    BoundedBy (clockBefore i (es ++ fs)) c A :=
  h.congr fun n hn => clockBefore_append (hlt n hn)

/-- The clock of the event itself. -/
theorem bounded_insert (hrun : processRun i es = some s)
    (h : BoundedBy (clockBefore i (es ++ [e])) c A)
    (hself : e.hands = false → s.clockOf e.thread ≤ c) :
    BoundedBy (clockBefore i (es ++ [e])) c (insert es.length A) := by
  apply h.insert
  intro v hv
  rw [clockBefore_last hrun] at hv
  split at hv
  · simp at hv
  · rename_i hhands
    obtain rfl := Option.some.inj hv
    exact hself (by simpa using hhands)

end ClockBefore

/-- The clocks cover what is known by the real operations. -/
structure ClocksCover (i : Init) (es : List Event) (s : Process) : Prop where
  thread : ∀ t, s.handles t ≠ .freed →
    BoundedBy (clockBefore i es) (s.clockOf t ⊔ s.owed (s.threads t).todo) (known es t)
  publishing : ∀ t m key, s.head t = some m → m.publishes = some key →
    BoundedBy (clockBefore i es) (s.syncClock key) (known es t)
  creating : ∀ t c, s.head t = some (.create c) →
    BoundedBy (clockBefore i es) (s.clockOf c) (known es t)
  object : ∀ o key, o.key = some key →
    BoundedBy (clockBefore i es) (s.syncClock key) (published es o)
  unborn : ∀ t, t ∉ s.names → known es t = ∅

/-! ## What a step that loses no order does to the clocks -/

section Step

variable {s s' : Process} {e : Event} {t u c key : ℕ} {m : Micro} {r : Result}

theorem Process.EdgesKept.joinTracked (h : s.EdgesKept t r m) : s.JoinTracked t r m := by
  cases m with
  | create child => exact h
  | takeThread thr joined => exact h
  | _ => trivial

theorem edgesKept_joinTracked (h : e.OnStep s.EdgesKept) : e.OnStep s.JoinTracked := by
  obtain ⟨t, action⟩ := e
  cases action with
  | step m r => exact Process.EdgesKept.joinTracked h
  | _ => trivial

/-- The clocks of objects only grow. -/
theorem Stepped.syncClock_le (h : Stepped s e s') : s.syncClock key ≤ s'.syncClock key := by
  cases h with
  | micro hrun htodo heff =>
      rw [syncClock_congr setTodo_syncs]
      exact (effected_syncClock heff).1
  | _ => exact le_rfl

/-- The clock of the acting thread only grows. -/
theorem Stepped.clock_self (h : Stepped s e s') (hinv : s.JoinInv)
    (hcond : e.OnStep s.EdgesKept) : s.clockOf e.thread ≤ s'.clockOf e.thread := by
  have hmem := hinv.wf.running_mem h.running
  cases h with
  | @micro t m r rest s₁ hrun htodo heff =>
      have hhead : s.head t = some m := by rw [Process.head, htodo, List.head?_cons]
      rw [clockOf_congr (congrFun setTodo_handles t)]
      apply effected_clock_self heff hcond hmem
      · rintro c rfl
        exact (hinv.wf.creating t c hhead).1
      · rintro rfl
        have hexit := hinv.wf.joined t (hinv.custody.joined t t (by
          rw [Process.Custodian, hhead]
          rfl))
        simp [hrun] at hexit
  | _ => exact le_rfl

/-- A handle in the hands of one thread is left alone by the others. -/
theorem Stepped.handle_kept (h : Stepped s e s') (hinv : s.JoinInv) (hu : u ≠ e.thread)
    (hc : s.Custodian u c ∨ s.head u = some (.create c)) : s'.handles c = s.handles c := by
  have hact : c ≠ e.thread := by
    rintro rfl
    rcases hc with hcust | hhead
    · have hexit := hinv.wf.joined _ (hinv.custody.joined u _ hcust)
      simp [h.running] at hexit
    · exact (hinv.wf.creating u _ hhead).1 (hinv.wf.running_mem h.running)
  rcases h.handles_other hact with hsame | ⟨r, -, -, habsent, hnot, -⟩ | ⟨r, haction, -⟩ |
    ⟨r, haction, -⟩
  · exact hsame
  · rcases hc with hcust | hhead
    · exact absurd (hinv.wf.joined_mem (hinv.custody.joined u c hcust)) hnot
    · obtain ⟨th, hlive⟩ := (hinv.wf.creating u c hhead).2
      simp [hlive] at habsent
  · have hother := h.head_of_step haction
    rcases hc with hcust | hhead
    · exact absurd (hinv.wf.joined_mem (hinv.custody.joined u c hcust))
        (hinv.wf.creating _ c hother).1
    · exact absurd (hinv.wf.creating_unique u _ c hhead hother) hu
  · have hother := h.head_of_step haction
    rcases hc with hcust | hhead
    · have hcust' : s.Custodian e.thread c := by
        rw [Process.Custodian, hother]
        rfl
      exact absurd (hinv.custody.unique u _ c hcust hcust') hu
    · exact absurd (hinv.wf.freeing _ c hother) (hinv.wf.creating u c hhead).1

/-- The clock of another thread changes only before it starts, or with its handle. -/
theorem Stepped.clock_other (h : Stepped s e s') (hinv : s.JoinInv) (hu : u ≠ e.thread)
    (hlive : s'.handles u ≠ .freed) : u ∉ s.names ∨ s'.handles u = s.handles u := by
  rcases h.handles_other hu with hsame | ⟨r, -, -, -, hnot, -⟩ | ⟨r, haction, -⟩ | ⟨r, -, hfreed⟩
  · exact Or.inr hsame
  · exact Or.inl hnot
  · exact Or.inl (hinv.wf.creating _ u (h.head_of_step haction)).1
  · exact absurd hfreed hlive

/-! ## Imports that are still to be recorded -/

/-- What is owed grows with the clocks that it is about. -/
theorem owed_mono {todo : Script} (hsync : ∀ key, s.syncClock key ≤ s'.syncClock key)
    (hclock : ∀ thr c rest, todo = .takeThread thr c :: rest → s.clockOf c ≤ s'.clockOf c) :
    s.owed todo ≤ s'.owed todo := by
  unfold Process.owed
  split
  · exact hsync _
  · exact hsync _
  · exact hclock _ _ _ rfl
  · exact rzVcInit_le _

/-- Another thread owes no less than before. -/
theorem Stepped.owed_other (h : Stepped s e s') (hinv : s.JoinInv) (hu : u ≠ e.thread) :
    s.owed (s.threads u).todo ≤ s'.owed (s'.threads u).todo := by
  rw [h.todo_other hinv.wf hu]
  apply owed_mono (fun key => h.syncClock_le)
  intro thr c rest htodo
  have hcust : s.Custodian u c := by
    rw [Process.Custodian, Process.head, htodo]
    rfl
  exact (clockOf_congr (h.handle_kept hinv hu (Or.inl hcust))).ge

/-- What the acting thread owed it has imported, or still owes. -/
theorem Stepped.owed_self (h : Stepped s e s') (hinv : s.JoinInv) (hcond : e.OnStep s.EdgesKept) :
    s.owed (s.threads e.thread).todo ≤
      s'.clockOf e.thread ⊔ s'.owed (s'.threads e.thread).todo := by
  have hright := hinv.joinsRight (edgesKept_joinTracked hcond) h
  cases h with
  | @micro t m r rest s₁ hrun htodo heff =>
      simp only at hright hcond ⊢
      rw [htodo, setTodo_self]
      cases m with
      | self =>
          cases rest with
          | nil => exact rzVcInit_le _
          | cons m' rest =>
              cases m' with
              | acquire key =>
                  have hmono : s.syncClock key ≤ s₁.syncClock key := (effected_syncClock heff).1
                  exact le_sup_of_le_right hmono
              | _ => exact rzVcInit_le _
      | acquire key =>
          apply le_sup_of_le_left
          change s.syncClock key ≤ _
          cases heff with
          | quiet hquiet => simp [Micro.quiet] at hquiet
          | skipped hneeds ht =>
              rcases hcond with ⟨th, hlive⟩ | hnone
              · simp [ht] at hlive
              · rw [syncClock_of_none hnone]
                exact rzVcInit_le _
          | acquire ht =>
              change s.syncClock key ≤ (s.acquireStep t _ key r.alloc).clockOf t
              rw [(acquireStep_clocks ht).1]
              exact le_sup_right
      | takeThread thr joined =>
          apply le_sup_of_le_left
          obtain ⟨-, parent, child, -, hchild, hjoin, -⟩ := hright
          change s.clockOf joined ≤ _
          rw [clockOf_live hchild, clockOf_live hjoin, rzThreadJoin, rzVcJoin_eq_sup]
          exact le_sup_right
      | _ => exact (rzVcInit_le _)
  | call hrun htodo =>
      rw [htodo]
      exact rzVcInit_le _
  | exit hrun htodo =>
      rw [htodo]
      exact rzVcInit_le _
  | detach hrun htodo hjoin =>
      rw [htodo]
      exact rzVcInit_le _

end Step

/-! ## One step -/

section Cover

variable {i : Init} {es : List Event} {s s' : Process} {e : Event} {t u c key : ℕ} {m : Micro}
  {r : Result} {rest : Script} {o : Obj}

/-- A real operation imports from an object of its own address, or from the end of the
thread that it joins. -/
theorem acquires_cases (h : o ∈ m.acquires r) :
    (∃ key, m.imports = some key ∧ o.key = some key ∧ ∀ k mode, m = .trylock k mode → r.done = true) ∨
      ∃ thr, m = .join thr ∧ r.rc = 0 ∧ o = .died r.child := by
  cases m with
  | lock key mode | trylock key mode =>
      simp only [Micro.acquires] at h
      split at h
      · rename_i hdone
        obtain ⟨mode', rfl⟩ := mem_excluding h
        exact Or.inl ⟨key, rfl, rfl, fun _ _ _ => hdone⟩
      · simp at h
  | waitLock key =>
      simp only [Micro.acquires] at h
      split at h
      · rename_i hdone
        obtain ⟨mode', rfl⟩ := mem_excluding h
        exact Or.inl ⟨key, rfl, rfl, fun _ _ _ => hdone⟩
      · simp at h
  | atomicOp key kind =>
      simp only [Micro.acquires] at h
      split at h
      · simp at h
      · rename_i hkind
        obtain rfl := Finset.mem_singleton.mp h
        exact Or.inl ⟨key, if_neg hkind, rfl, by simp⟩
  | join thr =>
      simp only [Micro.acquires] at h
      split at h
      · rename_i hrc
        exact Or.inr ⟨thr, rfl, hrc, Finset.mem_singleton.mp h⟩
      · simp at h
  | _ => simp [Micro.acquires] at h

theorem next_of_imports (h : m.imports = some key)
    (htry : ∀ k mode, m = .trylock k mode → r.rc = 0) :
    s.next r rest m = rest := by
  cases m with
  | trylock k mode => exact if_pos (htry k mode rfl)
  | lock | waitLock | atomicOp => rfl
  | _ => simp [Micro.imports] at h

/-- What a real operation imports, its thread has the clock of or owes it. -/
theorem ClocksCover.imports (h : ClocksCover i es s) (hinv : s.JoinInv)
    (hcond : e.OnStep s.EdgesKept) (hst : Stepped s e s') (ho : o ∈ e.imports) :
    BoundedBy (clockBefore i es)
      (s'.clockOf e.thread ⊔ s'.owed (s'.threads e.thread).todo) (published es o) := by
  cases hst with
  | @micro t m r rest s₁ hrun htodo heff =>
      rcases acquires_cases ho with ⟨key, himp, hkey, hdone⟩ | ⟨thr, rfl, hrc, rfl⟩
      · have hnext : s.next r rest m = rest := by
          apply next_of_imports himp
          rintro k mode rfl
          exact hcond (hdone k mode rfl)
        have hshape := hinv.wf.shape t
        rw [htodo] at hshape
        obtain ⟨rest', rfl⟩ := hshape.1.acquire key himp
        apply (h.object o key hkey).mono
        apply le_sup_of_le_right
        simp only [setTodo_self, hnext]
        exact (effected_syncClock heff).1
      · cases heff with
        | quiet hquiet => simp [Micro.quiet, hrc] at hquiet
        | skipped hneeds => simp [Micro.needsHandle] at hneeds
        | join hrc hjoin hexit =>
            have hlive : s.handles r.child ≠ .freed := by
              intro hfreed
              have hjoined := (hinv.custody.freed _ hfreed).1
              simp [hjoin.2.2.1] at hjoined
            have hknown := h.thread r.child hlive
            rw [hinv.wf.idle r.child (by simp [hexit])] at hknown
            rw [published_died]
            apply hknown.mono
            apply sup_le
            · apply le_sup_of_le_right
              simp only [setTodo_self, Process.next, if_pos hrc]
              exact le_rfl
            · exact rzVcInit_le _
  | _ => simp [Event.imports] at ho

/-- What the acting thread knows when it performs the event. -/
theorem ClocksCover.incoming (h : ClocksCover i es s) (hinv : s.JoinInv)
    (hcond : e.OnStep s.EdgesKept) (hst : Stepped s e s') :
    BoundedBy (clockBefore i es)
      (s'.clockOf e.thread ⊔ s'.owed (s'.threads e.thread).todo) (incoming es e) := by
  rw [incoming_eq]
  apply BoundedBy.union
  · have hlive : s.handles e.thread ≠ .freed :=
      hinv.custody.running_handle hinv.wf hst.running
    apply (h.thread e.thread hlive).mono
    apply sup_le
    · exact le_sup_of_le_left (hst.clock_self hinv hcond)
    · exact hst.owed_self hinv hcond
  · exact BoundedBy.biUnion fun o ho => h.imports hinv hcond hst ho

/-- A thread is started by a create, tracked or not. -/
theorem starts_cases (h : e.starts = some c) :
    (∃ r, e.action = .step (.create c) r ∧ r.rc = 0) ∨
      ∃ r, e.action = .step .createUntracked r ∧ r.rc = 0 := by
  obtain ⟨t, action⟩ := e
  cases action with
  | step m r =>
      cases m with
      | create child =>
          simp only [Event.starts, Micro.starts] at h
          split at h
          · rename_i hrc
            obtain rfl := Option.some.inj h
            exact Or.inl ⟨r, rfl, hrc⟩
          · simp at h
      | createUntracked =>
          simp only [Event.starts, Micro.starts] at h
          split at h
          · rename_i hrc
            exact Or.inr ⟨r, rfl, hrc⟩
          · simp at h
      | _ => simp [Event.starts, Micro.starts] at h
  | _ => simp [Event.starts] at h

/-- A thread that is started has not run before. -/
theorem Stepped.starts_fresh (h : Stepped s e s') (hstart : e.starts = some c) :
    c ∉ s.names ∧ c ∈ s'.names := by
  cases h with
  | @micro t m r rest s₁ hrun htodo heff =>
      rcases starts_cases hstart with ⟨r', haction, hrc⟩ | ⟨r', haction, hrc⟩
      · obtain ⟨rfl, rfl⟩ := Action.step.inj haction
        cases heff with
        | quiet hquiet => simp [Micro.quiet] at hquiet
        | skipped hneeds => simp [Micro.needsHandle] at hneeds
        | create _ hmay => exact ⟨hmay.1, List.mem_cons_self ..⟩
        | createFailed hfail => exact absurd hrc hfail
      · obtain ⟨rfl, rfl⟩ := Action.step.inj haction
        obtain rfl : r.child = c := by simpa [Event.starts, Micro.starts, hrc] using hstart
        cases heff with
        | quiet hquiet => simp [Micro.quiet, hrc] at hquiet
        | skipped hneeds => simp [Micro.needsHandle] at hneeds
        | createUntracked _ _ hmay => exact ⟨hmay.1, List.mem_cons_self ..⟩
  | _ => simp [Event.starts] at hstart

/-- A create that succeeds leaves the handles as they are. -/
theorem Stepped.create_handles (h : Stepped s e s') (haction : e.action = .step (.create c) r)
    (hrc : r.rc = 0) : s'.handles = s.handles := by
  cases h with
  | @micro t m r' rest s₁ hrun htodo heff =>
      obtain ⟨rfl, rfl⟩ := Action.step.inj haction
      cases heff with
      | quiet hquiet => simp [Micro.quiet] at hquiet
      | skipped hneeds => simp [Micro.needsHandle] at hneeds
      | create _ hmay => rfl
      | createFailed hfail => exact absurd hrc hfail
  | _ => simp at haction

theorem Stepped.not_starts_self (h : Stepped s e s') (hinv : s.JoinInv) :
    e.starts ≠ some e.thread := by
  intro hstart
  exact (h.starts_fresh hstart).1 (hinv.wf.running_mem h.running)

/-- A step that imports nothing comes after what its thread knew before. -/
theorem incoming_of_local (h : e.imports = ∅) : incoming es e = known es e.thread := by
  rw [incoming_eq, h, Finset.biUnion_empty, Finset.union_empty]

theorem ClocksCover.thread_step (h : ClocksCover i es s) (hinv : s.JoinInv)
    (hrun : processRun i es = some s) (hcond : e.OnStep s.EdgesKept) (hst : Stepped s e s')
    (hlive : s'.handles t ≠ .freed) :
    BoundedBy (clockBefore i (es ++ [e])) (s'.clockOf t ⊔ s'.owed (s'.threads t).todo)
      (known (es ++ [e]) t) := by
  by_cases ht : t = e.thread
  · subst ht
    rw [known_snoc_actor (hst.not_starts_self hinv)]
    apply bounded_insert hrun
    · exact bounded_append (h.incoming hinv hcond hst) fun n hn => lt_of_mem_incoming hn
    · exact fun _ => le_sup_of_le_left (hst.clock_self hinv hcond)
  by_cases hstart : e.starts = some t
  · -- the child starts with what its creator has recorded for it
    rw [known_snoc_born ht hstart, h.unborn t (hst.starts_fresh hstart).1, Finset.empty_union]
    rcases starts_cases hstart with ⟨r, haction, hrc⟩ | ⟨r, haction, hrc⟩
    · have hlocal : e.imports = ∅ := by rw [Event.imports, haction]; rfl
      have hhands : e.hands = true := by rw [Event.hands, haction]; rfl
      have hcreated := h.creating e.thread t (hst.head_of_step haction)
      rw [incoming_of_local hlocal]
      apply bounded_insert hrun
      · apply bounded_append (hcreated.mono _) fun n hn => lt_of_mem_known hn
        rw [← clockOf_congr (congrFun (hst.create_handles haction hrc) t)]
        exact le_sup_left
      · simp [hhands]
    · obtain ⟨t', action⟩ := e
      obtain rfl := haction
      exact absurd hrc hcond
  · rw [known_snoc_other ht hstart]
    rcases hst.clock_other hinv ht hlive with hnot | hsame
    · rw [h.unborn t hnot]
      exact BoundedBy.empty
    · have hknown := h.thread t (hsame ▸ hlive)
      apply bounded_append (hknown.mono _) fun n hn => lt_of_mem_known hn
      rw [clockOf_congr hsame]
      exact sup_le_sup_left (hst.owed_other hinv ht) _

/-- Another thread that is at a place knows what it knew. -/
theorem Stepped.known_other (h : Stepped s e s') (hinv : s.JoinInv) (ht : t ≠ e.thread)
    (hhead : s.head t = some m) : known (es ++ [e]) t = known es t := by
  apply known_snoc_other ht
  intro hstart
  have hunborn := hinv.wf.unborn t (h.starts_fresh hstart).1
  simp [Process.head, hunborn, Thread.unborn] at hhead

theorem ClocksCover.publishing_step (h : ClocksCover i es s) (hinv : s.JoinInv)
    (hrun : processRun i es = some s) (hcond : e.OnStep s.EdgesKept) (hst : Stepped s e s')
    (hhead : s'.head t = some m) (hpub : m.publishes = some key) :
    BoundedBy (clockBefore i (es ++ [e])) (s'.syncClock key) (known (es ++ [e]) t) := by
  by_cases ht : t = e.thread
  · subst ht
    have hlive : s.handles e.thread ≠ .freed :=
      hinv.custody.running_handle hinv.wf hst.running
    have hknown := h.thread e.thread hlive
    rcases hst.todo_self with ⟨c, -, htodo⟩ | ⟨m₀, r, rest, s₁, haction, htodo, heff, hs'⟩ | htodo
    · rw [Process.head, htodo] at hhead
      simp [(Call.head_script hhead).1] at hpub
    · have hshape := hinv.wf.shape e.thread
      rw [htodo] at hshape hknown
      rw [hs', Process.head, setTodo_self] at hhead
      obtain rfl := publishes_next hshape hhead hpub
      obtain ⟨t, action⟩ := e
      obtain rfl := haction
      obtain ⟨⟨th, hth, hfits⟩, hsome⟩ := hcond
      rw [hs', syncClock_congr setTodo_syncs, known_snoc_actor (by simp [Event.starts, Micro.starts]),
        incoming_of_local rfl]
      cases heff with
      | quiet hquiet => simp [Micro.quiet] at hquiet
      | skipped hneeds habsent => simp [hth] at habsent
      | release ht =>
          rw [(releaseStep_clocks ht hsome).2, if_pos rfl]
          apply bounded_insert hrun
          · apply bounded_append (hknown.mono _) fun n hn => lt_of_mem_known hn
            apply sup_le
            · exact le_sup_right
            · exact rzVcInit_le _
          · exact fun _ => le_sup_right
    · simp [Process.head, htodo] at hhead
  · rw [hst.head_other hinv.wf ht] at hhead
    rw [hst.known_other hinv ht hhead]
    apply bounded_append _ fun n hn => lt_of_mem_known hn
    exact (h.publishing t m key hhead hpub).mono hst.syncClock_le

/-- A new thread starts with the clock of its creator. -/
theorem createStep_clock {th : RzThread} :
    (s.createStep t th c).clockOf c = rzVcTick th.clock s.gMeta.nextTid := by
  unfold Process.createStep
  rw [clockOf_live setHandle_self]
  rfl

theorem ClocksCover.creating_step (h : ClocksCover i es s) (hinv : s.JoinInv)
    (hrun : processRun i es = some s) (hcond : e.OnStep s.EdgesKept) (hst : Stepped s e s')
    (hhead : s'.head t = some (.create c)) :
    BoundedBy (clockBefore i (es ++ [e])) (s'.clockOf c) (known (es ++ [e]) t) := by
  by_cases ht : t = e.thread
  · subst ht
    have hlive : s.handles e.thread ≠ .freed :=
      hinv.custody.running_handle hinv.wf hst.running
    have hknown := h.thread e.thread hlive
    obtain ⟨m₀, r, s₁, todo, haction, hhead₀, heff, hs', hcases⟩ := hst.head_dynamic hinv.wf hhead rfl
    rcases hcases with ⟨rfl, hm⟩ | ⟨c', -, -, hm⟩ | ⟨thr, -, -, hm⟩ | ⟨thr, joined, c', -, -, hm⟩
    · obtain ⟨t, action⟩ := e
      obtain rfl := haction
      obtain ⟨rest, htodo⟩ : ∃ rest, (s.threads t).todo = .recordCreate :: rest :=
        List.head?_eq_some_iff.mp hhead₀
      rw [htodo] at hknown
      rw [known_snoc_actor (by simp [Event.starts, Micro.starts]), incoming_of_local rfl]
      cases heff with
      | quiet hquiet =>
          have halloc : r.alloc = false := by simpa [Micro.quiet] using hquiet
          simp [halloc] at hm
      | skipped hneeds => simp [Micro.needsHandle] at hneeds
      | recordCreate halloc ht hc hfresh =>
          rw [if_pos halloc] at hm
          obtain rfl := Micro.create.inj hm
          have hclock : s.clockOf t ≤ s'.clockOf r.child := by
            rw [hs', clockOf_congr (congrFun setTodo_handles r.child), createStep_clock,
              ← clockOf_live ht]
            exact le_rzVcTick hcond.1
          apply bounded_insert hrun
          · apply bounded_append (hknown.mono _) fun n hn => lt_of_mem_known hn
            exact sup_le hclock (rzVcInit_le _)
          · exact fun _ => hclock
    · simp at hm
    · simp at hm
    · simp at hm
  · rw [hst.head_other hinv.wf ht] at hhead
    rw [hst.known_other hinv ht hhead, clockOf_congr (hst.handle_kept hinv ht (Or.inr hhead))]
    exact bounded_append (h.creating t c hhead) fun n hn => lt_of_mem_known hn

/-- A real operation publishes at its own address, and imports from nowhere else. -/
theorem releases_cases (hrel : o ∈ rtOrder.releases e) (ho : o.key = some key) :
    ∃ m r, e.action = .step m r ∧ m.publishes = some key ∧ e.hands = true ∧
      ∀ o' ∈ e.imports, o'.key = some key := by
  have hdied : o ≠ .died e.thread := by
    rintro rfl
    simp [Obj.key] at ho
  obtain ⟨t, action⟩ := e
  have hmem := Finset.mem_of_mem_insert_of_ne hrel hdied
  cases action with
  | step m r =>
      refine ⟨m, r, rfl, ?_⟩
      cases m with
      | unlock k | waitUnlock k =>
          simp only [Micro.releases] at hmem
          split at hmem
          · obtain rfl := Finset.mem_singleton.mp hmem
            exact ⟨ho, rfl, by simp [Event.imports, Micro.acquires]⟩
          · simp at hmem
      | atomicOp k kind =>
          have hatomic : o = .atomic k ∧ kind ≠ .load := by
            cases kind with
            | load => simp [Micro.releases] at hmem
            | store => exact ⟨Finset.mem_singleton.mp hmem, by simp⟩
            | rmw =>
                simp only [Micro.releases] at hmem
                split at hmem
                · exact ⟨Finset.mem_singleton.mp hmem, by simp⟩
                · simp at hmem
          obtain ⟨rfl, hkind⟩ := hatomic
          refine ⟨(if_neg hkind).trans ho, by simpa [Event.hands, Micro.hands] using hkind, ?_⟩
          intro o' ho'
          simp only [Event.imports, Micro.acquires] at ho'
          split at ho'
          · simp at ho'
          · rw [Finset.mem_singleton.mp ho']
            exact ho
      | create | createUntracked =>
          simp only [Micro.releases] at hmem
          split at hmem
          · rcases Finset.mem_insert.mp hmem with rfl | hdied
            · simp [Obj.key] at ho
            · simp [Finset.mem_singleton.mp hdied, Obj.key] at ho
          · simp at hmem
      | _ => simp [Micro.releases] at hmem
  | _ => simp at hmem

theorem ClocksCover.object_step (h : ClocksCover i es s)
    (hrun : processRun i es = some s) (hst : Stepped s e s') (ho : o.key = some key) :
    BoundedBy (clockBefore i (es ++ [e])) (s'.syncClock key) (published (es ++ [e]) o) := by
  have hmono : s.syncClock key ≤ s'.syncClock key := hst.syncClock_le
  have hold := (h.object o key ho).mono hmono
  by_cases hrel : o ∈ rtOrder.releases e
  · rw [published_snoc_of_mem hrel]
    apply BoundedBy.union
    · exact bounded_append hold fun n hn => lt_of_mem_published hn
    · obtain ⟨m, r, haction, hpub, hhands, himports⟩ := releases_cases hrel ho
      have hknown := h.publishing e.thread m key (hst.head_of_step haction) hpub
      apply bounded_insert hrun
      · apply bounded_append _ fun n hn => lt_of_mem_incoming hn
        rw [incoming_eq]
        apply BoundedBy.union
        · exact hknown.mono hst.syncClock_le
        · apply BoundedBy.biUnion
          exact fun o' ho' => (h.object o' key (himports o' ho')).mono hst.syncClock_le
      · simp [hhands]
  · rw [published_snoc_of_notMem hrel]
    exact bounded_append hold fun n hn => lt_of_mem_published hn

theorem ClocksCover.step (h : ClocksCover i es s) (hinv : s.JoinInv)
    (hrun : processRun i es = some s) (hcond : e.OnStep s.EdgesKept) (hst : Stepped s e s') :
    ClocksCover i (es ++ [e]) s' := by
  constructor
  · exact fun t hlive => h.thread_step hinv hrun hcond hst hlive
  · exact fun t m key hhead hpub => h.publishing_step hinv hrun hcond hst hhead hpub
  · exact fun t c hhead => h.creating_step hinv hrun hcond hst hhead
  · exact fun o key ho => h.object_step hrun hst ho
  · intro t ht
    have hmem : t ∉ s.names := fun hmem => ht (hst.thread_of_mem hmem).1
    have hact : t ≠ e.thread := by
      rintro rfl
      exact hmem (hinv.wf.running_mem hst.running)
    rw [known_snoc_other hact fun hstart => ht (hst.starts_fresh hstart).2]
    exact h.unborn t hmem

theorem clocksCover_initial : ClocksCover i [] (.initial i) := by
  refine ⟨fun t _ => ?_, fun t m key _ _ => ?_, fun t c _ => ?_, fun o key _ => ?_, fun t _ => rfl⟩
  · exact BoundedBy.empty
  · exact BoundedBy.empty
  · exact BoundedBy.empty
  · exact BoundedBy.empty

/-- An event that happens before one of a thread is known to the thread. -/
theorem mem_known_of_realHB {n k : ℕ} (hhb : RealHB es n k) (he : es[k]? = some e) :
    n ∈ known es e.thread := by
  apply Finset.mem_union_left
  exact ((knowledge_exact rtOrder es).thread e.thread n).mpr ⟨k, e, he, rfl, Or.inr hhb⟩

end Cover

/-- No step of the run loses an order. -/
def KeepsEdges (i : Init) (es : List Event) : Prop :=
  EveryStep Process.step (fun s e => e.OnStep s.EdgesKept) (.initial i) es

theorem clocksCover_of_run {i : Init} {es : List Event} {s : Process} (hkept : KeepsEdges i es)
    (hrun : processRun i es = some s) : s.JoinInv ∧ ClocksCover i es s := by
  refine run_induction (P := fun es s => s.JoinInv ∧ ClocksCover i es s)
    ⟨joinInv_initial i, clocksCover_initial⟩ ?_ es hkept hrun
  intro es e s s' hs hcond hboth hstep
  obtain ⟨hinv, hcover⟩ := hboth
  have hst := Process.stepped hstep
  exact ⟨hinv.step (edgesKept_joinTracked hcond) hst, hcover.step hinv hs hcond hst⟩

/-- A wrapper has recorded all that its real operations have imported. -/
def Settled : Script → Prop
  | .self :: .acquire _ :: _ | .acquire _ :: _ | .takeThread _ _ :: _ => False
  | _ => True

theorem owed_of_settled {s : Process} {todo : Script} (h : Settled todo) :
    s.owed todo = rzVcInit := by
  unfold Process.owed
  unfold Settled at h
  split
  · exact h.elim
  · exact h.elim
  · exact h.elim
  · rfl

/-- What happens before the next event of a thread is below its clock. -/
theorem ClocksCover.clock_le {i : Init} {es : List Event} {s : Process} {t n : ℕ} {c : RzVc}
    (h : ClocksCover i es s) (hlive : s.handles t ≠ .freed) (hset : Settled (s.threads t).todo)
    (hn : n ∈ known es t) (hc : clockBefore i es n = some c) : c ≤ s.clockOf t := by
  have hle := h.thread t hlive n hn c hc
  rwa [owed_of_settled hset, sup_rzVcInit] at hle

end Redzone.Runtime
