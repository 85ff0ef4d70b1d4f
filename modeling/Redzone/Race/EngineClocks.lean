/-
  Race/EngineClocks.lean --- the clocks of the engine cover the causal past.

  `Stepped` says once what each call does.  A position of a run is stamped with the
  clock component and the epoch of its actor (`stampAt`), and `known` and `released`
  name the causal pasts of threads and sync objects in the terms of
  `Foundation.Causality`.  The invariant `ClockSound` puts the two together: the
  clock of a thread is at or above the epoch of every event in that thread's past,
  and the clock of a sync object covers what has been released into it.

  The invariant needs every tick to go forward, which `TicksFit` says of one call.
-/
import Redzone.Foundation.EpochClock
import Redzone.Race.EngineRun

set_option autoImplicit false

namespace Redzone.Race

open Redzone.Foundation

/-! ## One step -/

/-- What a successful call does, one case per call. -/
inductive Stepped (s : EngineState) : Event → EngineState → Prop
  | init {t : ℕ} (ht : s.threads t = none) :
      Stepped s (.init t)
        ({ s with race := (rzThreadInit s.race).2 }.setThread t (rzThreadInit s.race).1)
  | create {p c : ℕ} {parent : RzThread} (hp : s.threads p = some parent)
      (hc : s.threads c = none) :
      Stepped s (.create p c)
        (({ s with race := (rzThreadCreate s.race parent).2.2 }.setThread p
          (rzThreadCreate s.race parent).1).setThread c (rzThreadCreate s.race parent).2.1)
  | join {p c : ℕ} {parent child : RzThread} (hp : s.threads p = some parent)
      (hc : s.threads c = some child) :
      Stepped s (.join p c) (s.setThread p (rzThreadJoin parent child))
  | acquire {t m : ℕ} {th : RzThread} (ht : s.threads t = some th) :
      Stepped s (.acquire t m) (s.setThread t (rzMutexAcquire th (s.syncs m)))
  | release {t m : ℕ} {th : RzThread} (ht : s.threads t = some th) :
      Stepped s (.release t m)
        { s.setThread t (rzMutexRelease th (s.syncs m)).1 with
          syncs := Function.update s.syncs m (rzMutexRelease th (s.syncs m)).2 }
  | access {t addr : ℕ} {isWrite : Bool} {file : Option String} {line : ℤ}
      {th : RzThread} (ht : s.threads t = some th) :
      Stepped s (.access t addr isWrite file line)
        { s with race := (rzRaceAccessLoc s.race th addr isWrite file line).2 }

theorem EngineState.stepped {s s' : EngineState} {e : Event} (h : s.step e = some s') :
    Stepped s e s' := by
  cases e with
  | init t =>
    simp only [step] at h
    split at h
    · simp at h
    · rename_i ht
      obtain rfl := Option.some.inj h
      exact .init (by simpa using ht)
  | create p c =>
    simp only [step] at h
    split at h
    · rename_i parent hp hc
      obtain rfl := Option.some.inj h
      exact .create hp hc
    · simp at h
  | join p c =>
    simp only [step] at h
    split at h
    · rename_i parent child hp hc
      obtain rfl := Option.some.inj h
      exact .join hp hc
    · simp at h
  | acquire t m =>
    simp only [step] at h
    split at h
    · rename_i th ht
      obtain rfl := Option.some.inj h
      exact .acquire ht
    · simp at h
  | release t m =>
    simp only [step] at h
    split at h
    · rename_i th ht
      obtain rfl := Option.some.inj h
      exact .release ht
    · simp at h
  | access t addr isWrite file line =>
    simp only [step] at h
    split at h
    · rename_i th ht
      obtain rfl := Option.some.inj h
      exact .access ht
    · simp at h

/-- The converse: each of the cases is a possible call. -/
theorem Stepped.step_eq {s s' : EngineState} {e : Event} (h : Stepped s e s') :
    s.step e = some s' := by
  cases h with
  | init ht => simp [EngineState.step, ht]
  | create hp hc => simp [EngineState.step, hp, hc]
  | join hp hc => simp [EngineState.step, hp, hc]
  | acquire ht => simp [EngineState.step, ht]
  | release ht => simp [EngineState.step, ht]
  | access ht => simp [EngineState.step, ht]

@[simp] theorem EngineState.setThread_self (s : EngineState) (t : ℕ) (th : RzThread) :
    (s.setThread t th).threads t = some th := by
  simp [setThread]

@[simp] theorem EngineState.setThread_syncs (s : EngineState) (t : ℕ) (th : RzThread) :
    (s.setThread t th).syncs = s.syncs := rfl

@[simp] theorem EngineState.setThread_race (s : EngineState) (t : ℕ) (th : RzThread) :
    (s.setThread t th).race = s.race := rfl

theorem EngineState.setThread_of_ne (s : EngineState) {t u : ℕ} (th : RzThread)
    (h : u ≠ t) : (s.setThread t th).threads u = s.threads u := by
  simp [setThread, h]

/-- A handle keeps its thread id, and its clock only moves forward. -/
theorem Stepped.thread_mono {s s' : EngineState} {e : Event} (h : Stepped s e s')
    (hfits : s.TicksFit e) {u : ℕ} {th : RzThread} (hu : s.threads u = some th) :
    ∃ th', s'.threads u = some th' ∧ th'.tid = th.tid ∧ th.clock ≤ th'.clock := by
  cases h with
  | @init t ht =>
    have hut : u ≠ t := by
      rintro rfl
      simp [ht] at hu
    exact ⟨th, by rw [EngineState.setThread_of_ne _ _ hut, hu], rfl, le_rfl⟩
  | @create p c parent hp hc =>
    have huc : u ≠ c := by
      rintro rfl
      simp [hc] at hu
    rw [EngineState.setThread_of_ne _ _ huc]
    by_cases hup : u = p
    · subst hup
      obtain rfl : parent = th := by simpa [hp] using hu
      exact ⟨_, EngineState.setThread_self .., rfl, le_rzVcTick (hfits _ hp).1⟩
    · exact ⟨th, by rw [EngineState.setThread_of_ne _ _ hup, hu], rfl, le_rfl⟩
  | @join p c parent child hp hc =>
    by_cases hup : u = p
    · subst hup
      obtain rfl : parent = th := by simpa [hp] using hu
      exact ⟨_, EngineState.setThread_self .., rfl, by simp [rzThreadJoin]⟩
    · exact ⟨th, by rw [EngineState.setThread_of_ne _ _ hup, hu], rfl, le_rfl⟩
  | @acquire t m th₀ ht =>
    by_cases hut : u = t
    · subst hut
      obtain rfl : th₀ = th := by simpa [ht] using hu
      exact ⟨_, EngineState.setThread_self .., rfl, by simp [rzMutexAcquire]⟩
    · exact ⟨th, by rw [EngineState.setThread_of_ne _ _ hut, hu], rfl, le_rfl⟩
  | @release t m th₀ ht =>
    by_cases hut : u = t
    · subst hut
      obtain rfl : th₀ = th := by simpa [ht] using hu
      exact ⟨_, EngineState.setThread_self .., rfl, le_rzVcTick (hfits _ ht)⟩
    · exact ⟨th, by simp only [EngineState.setThread_of_ne _ _ hut, hu], rfl, le_rfl⟩
  | access ht => exact ⟨th, hu, rfl, le_rfl⟩

/-- A call changes only the handle of its actor and the one it creates. -/
theorem Stepped.thread_other {s s' : EngineState} {e : Event} (h : Stepped s e s') {u : ℕ}
    (hactor : u ≠ e.actor) (hcreate : ∀ p, e ≠ .create p u) :
    s'.threads u = s.threads u := by
  cases h with
  | init ht => exact EngineState.setThread_of_ne _ _ hactor
  | @create p c parent hp hc =>
    have huc : u ≠ c := by
      rintro rfl
      exact hcreate p rfl
    have hup : u ≠ p := hactor
    rw [EngineState.setThread_of_ne _ _ huc, EngineState.setThread_of_ne _ _ hup]
  | join hp hc => exact EngineState.setThread_of_ne _ _ hactor
  | acquire ht => exact EngineState.setThread_of_ne _ _ hactor
  | release ht => exact EngineState.setThread_of_ne _ _ hactor
  | access ht => rfl

/-- A call that is no release of `m` leaves its clock alone. -/
theorem Stepped.sync_other {s s' : EngineState} {e : Event} (h : Stepped s e s') {m : ℕ}
    (hrelease : ∀ t, e ≠ .release t m) : s'.syncs m = s.syncs m := by
  cases h with
  | @release t m' th ht =>
    have hm : m ≠ m' := by
      rintro rfl
      exact hrelease t rfl
    simp [hm]
  | _ => rfl

/-- The creator of a thread is not the thread it creates. -/
theorem Stepped.ne_create_actor {s s' : EngineState} {e : Event} (h : Stepped s e s') :
    ∀ p, e ≠ .create p e.actor := by
  intro p hp
  cases h with
  | create hparent hc =>
    obtain ⟨rfl, rfl⟩ := Event.create.inj hp
    simp [hparent] at hc
  | _ => cases hp

/-- The actor of a call has a handle afterwards. -/
theorem Stepped.actor_registered {s s' : EngineState} {e : Event} (h : Stepped s e s') :
    (s'.threads e.actor).isSome = true := by
  cases h with
  | @create p c parent hp hc =>
    have hpc : p ≠ c := by
      rintro rfl
      simp [hp] at hc
    simp [Event.actor, EngineState.setThread_of_ne _ _ hpc]
  | access ht => simp [Event.actor, ht]
  | _ => simp [Event.actor, EngineState.setThread]

/-! ## Stamps -/

/-- The component and epoch of the acting thread when it performs `e` in state `s`. -/
def EngineState.stamp (s : EngineState) (e : Event) : Option (Fin maxThreads × ℕ) :=
  (s.threads e.actor).bind fun th => (slotOf th.tid).map fun k => (k, th.clock k)

/-- The stamp of position `i` of a run. -/
def stampAt (nbuckets : ℕ) (es : List Event) : Stamping (Fin maxThreads) := fun i =>
  es[i]?.bind fun e => (engineRun nbuckets (es.take i)).bind fun s => s.stamp e

theorem EngineState.stamp_eq_some {s : EngineState} {e : Event} {k : Fin maxThreads}
    {ep : ℕ} : s.stamp e = some (k, ep) ↔
      ∃ th, s.threads e.actor = some th ∧ slotOf th.tid = some k ∧ th.clock k = ep := by
  unfold stamp
  cases s.threads e.actor with
  | none => simp
  | some th =>
    simp only [Option.bind_some, Option.map_eq_some_iff, Prod.mk.injEq, Option.some.injEq,
      exists_eq_left']
    constructor
    · rintro ⟨j, hj, rfl, rfl⟩
      exact ⟨hj, rfl⟩
    · rintro ⟨hj, rfl⟩
      exact ⟨k, hj, rfl, rfl⟩

section Stamp

variable {nbuckets : ℕ} {es : List Event} {e : Event} {s s' : EngineState} {i : ℕ}

theorem stampAt_append_left (hi : i < es.length) :
    stampAt nbuckets (es ++ [e]) i = stampAt nbuckets es i := by
  unfold stampAt
  rw [List.getElem?_append_left hi, List.take_append_of_le_length hi.le]

theorem stampAt_last (hrun : engineRun nbuckets es = some s) :
    stampAt nbuckets (es ++ [e]) es.length = s.stamp e := by
  simp [stampAt, hrun]

/-- Sets of old positions are covered by the same clocks after one more event. -/
theorem covers_snoc {c : RzVc} {A : Finset ℕ} (h : Covers (stampAt nbuckets es) c A)
    (hA : ∀ i ∈ A, i < es.length) : Covers (stampAt nbuckets (es ++ [e])) c A :=
  h.congr fun i hi => stampAt_append_left (hA i hi)

/-- The past of a new event is covered by a clock that covers what the event
imports and has reached the epoch of its actor. -/
theorem covers_past {c : RzVc} {A : Finset ℕ} (h : Covers (stampAt nbuckets es) c A)
    (hA : ∀ i ∈ A, i < es.length) (hrun : engineRun nbuckets es = some s)
    (hle : ∀ th, s.threads e.actor = some th → th.clock ≤ c) :
    Covers (stampAt nbuckets (es ++ [e])) c (insert es.length A) := by
  refine (covers_snoc h hA).insert fun k ep hk => ?_
  rw [stampAt_last hrun, EngineState.stamp_eq_some] at hk
  obtain ⟨th, hth, -, rfl⟩ := hk
  exact hle th hth k

end Stamp

/-! ## What the threads and the sync objects know -/

/-- The causal past of thread `t` after `es`: its own events and their pasts, and,
before its first event, what its creator knew. -/
def known (es : List Event) (t : ℕ) : Finset ℕ :=
  (knowledge eventOrder es).thread t ∪ (knowledge eventOrder es).object (.born t)

/-- What has been released into sync object `m`. -/
def released (es : List Event) (m : ℕ) : Finset ℕ :=
  (knowledge eventOrder es).object (.sync m)

/-- What the call at the end of `es ++ [e]` knows: the past of its actor, and what it
imports from a sync object or a joined thread. -/
def incoming (es : List Event) (e : Event) : Finset ℕ :=
  (knowledge eventOrder es).incoming eventOrder e

section Known

variable {es : List Event} {e : Event} {t m : ℕ}

theorem lt_of_mem_known {i : ℕ} (h : i ∈ known es t) : i < es.length := lt_of_mem_pastOf h

theorem lt_of_mem_released {i : ℕ} (h : i ∈ released es m) : i < es.length :=
  (knowledge_exact eventOrder es).lt_of_mem_object h

theorem incoming_acquire : incoming es (.acquire t m) = known es t ∪ released es m := by
  refine (incoming_eq_pastOf Handover.born (A := {.sync m}) rfl).trans ?_
  rw [Finset.singleton_biUnion]
  rfl

/-- A call that is neither an acquire nor a join imports nothing. -/
theorem incoming_local (hacq : ∀ t m, e ≠ .acquire t m) (hjoin : ∀ p c, e ≠ .join p c) :
    incoming es e = known es e.actor := by
  have hempty : eventOrder.acquires e = insert (.born e.actor) ∅ := by
    cases e with
    | acquire t m => exact absurd rfl (hacq t m)
    | join p c => exact absurd rfl (hjoin p c)
    | _ => rfl
  refine (incoming_eq_pastOf Handover.born hempty).trans ?_
  rw [Finset.biUnion_empty, Finset.union_empty]
  rfl

/-- The actor knows the new event and what it imported. -/
theorem known_snoc_actor (hcreate : ∀ p, e ≠ .create p e.actor) :
    known (es ++ [e]) e.actor = insert es.length (incoming es e) := by
  refine pastOf_snoc_actor Handover.born ?_ ?_
  · cases e <;> simp [eventOrder, Event.actor]
  · cases e with
    | create p c =>
      have hpc : p ≠ c := by
        rintro rfl
        exact hcreate p rfl
      simp [eventOrder, Event.actor, hpc]
    | _ => simp [eventOrder]

/-- Another thread learns nothing, unless it is the one being created. -/
theorem known_snoc_other (hactor : t ≠ e.actor) (hcreate : ∀ p, e ≠ .create p t) :
    known (es ++ [e]) t = known es t := by
  refine pastOf_snoc_other hactor ?_
  cases e with
  | create p c =>
    have htc : t ≠ c := by
      rintro rfl
      exact hcreate p rfl
    simp [eventOrder, htc]
  | _ => simp [eventOrder]

/-- A created thread starts from what its creator knows. -/
theorem known_snoc_child {p c : ℕ} (hpc : c ≠ p) :
    known (es ++ [.create p c]) c =
      known es c ∪ insert es.length (incoming es (.create p c)) :=
  pastOf_snoc_born hpc (by simp [eventOrder])

theorem released_snoc_release :
    released (es ++ [.release t m]) m =
      released es m ∪ insert es.length (incoming es (.release t m)) :=
  object_snoc_of_mem (by simp [eventOrder])

theorem released_snoc_other (h : ∀ t, e ≠ .release t m) :
    released (es ++ [e]) m = released es m := by
  refine object_snoc_of_notMem ?_
  cases e with
  | release t m' =>
    have hm : m ≠ m' := by
      rintro rfl
      exact h t rfl
    simp [eventOrder, hm]
  | _ => simp [eventOrder]

/-- What the end of a thread hands over is what the thread knew. -/
theorem died_eq_known (es : List Event) (t : ℕ) :
    (knowledge eventOrder es).object (.died t) = known es t := by
  refine object_eq_pastOf (fun f => ?_) es
  cases f <;> simp [eventOrder, Event.actor, eq_comm]

theorem incoming_join {p c : ℕ} : incoming es (.join p c) = known es p ∪ known es c := by
  refine (incoming_eq_pastOf Handover.born (A := {.died c}) rfl).trans ?_
  rw [Finset.singleton_biUnion, died_eq_known]
  rfl

end Known

/-! ## Clocks cover the past -/

/-- Clocks are at or above every epoch in the past they stand for. -/
structure ClockSound (nbuckets : ℕ) (es : List Event) (s : EngineState) : Prop where
  thread : ∀ t th, s.threads t = some th →
    Covers (stampAt nbuckets es) th.clock (known es t)
  sync : ∀ m, Covers (stampAt nbuckets es) (s.syncs m).clock (released es m)
  /-- A name that is not in use yet has no past. -/
  fresh : ∀ t, s.threads t = none → known es t = ∅

section ClockSound

variable {nbuckets : ℕ} {es : List Event} {e : Event} {s s' : EngineState}

theorem clockSound_initial :
    ClockSound nbuckets [] (.initial nbuckets) := by
  constructor
  · intro t th h
    simp [EngineState.initial] at h
  · intro m
    exact Covers.empty
  · intro t _
    rfl

/-- The new clock of the actor covers what the call imports. -/
theorem ClockSound.covers_incoming (h : ClockSound nbuckets es s) (hfits : s.TicksFit e)
    (hstep : Stepped s e s') {th' : RzThread} (hth' : s'.threads e.actor = some th') :
    Covers (stampAt nbuckets es) th'.clock (incoming es e) := by
  -- a call that imports nothing leaves the past of its actor under an older clock
  have hlocal : ∀ th, s.threads e.actor = some th → incoming es e = known es e.actor →
      Covers (stampAt nbuckets es) th'.clock (incoming es e) := by
    intro th hth hinc
    obtain ⟨th'', hth'', -, hle⟩ := hstep.thread_mono hfits hth
    obtain rfl : th'' = th' := by simpa [hth'] using hth''.symm
    rw [hinc]
    exact (h.thread _ th hth).mono hle
  cases hstep with
  | @init t ht =>
    rw [incoming_local (by simp) (by simp)]
    exact (h.fresh t ht) ▸ Covers.empty
  | create hp hc => exact hlocal _ hp (incoming_local (by simp) (by simp))
  | @join p c parent child hp hc =>
    obtain rfl : rzThreadJoin parent child = th' := by simpa [Event.actor] using hth'
    rw [incoming_join, rzThreadJoin, rzVcJoin_eq_sup]
    exact (h.thread p parent hp).sup (h.thread c child hc)
  | @acquire t m th ht =>
    obtain rfl : rzMutexAcquire th (s.syncs m) = th' := by simpa [Event.actor] using hth'
    rw [incoming_acquire, rzMutexAcquire, rzVcJoin_eq_sup]
    exact (h.thread t th ht).sup (h.sync m)
  | release ht => exact hlocal _ ht (incoming_local (by simp) (by simp))
  | access ht => exact hlocal _ ht (incoming_local (by simp) (by simp))

/-- The past of the new event is covered by any clock that has the actor's old clock
and what the call imports below it. -/
theorem ClockSound.covers_new (hrun : engineRun nbuckets es = some s) {c : RzVc}
    (hin : Covers (stampAt nbuckets es) c (incoming es e))
    (hle : ∀ th, s.threads e.actor = some th → th.clock ≤ c) :
    Covers (stampAt nbuckets (es ++ [e])) c (insert es.length (incoming es e)) :=
  covers_past hin (fun _ hi => Foundation.lt_of_mem_incoming hi) hrun hle

theorem ClockSound.thread_step (h : ClockSound nbuckets es s)
    (hrun : engineRun nbuckets es = some s) (hfits : s.TicksFit e) (hstep : Stepped s e s')
    {u : ℕ} {th : RzThread} (hu : s'.threads u = some th) :
    Covers (stampAt nbuckets (es ++ [e])) th.clock (known (es ++ [e]) u) := by
  by_cases hactor : u = e.actor
  · subst hactor
    rw [known_snoc_actor hstep.ne_create_actor]
    refine covers_new hrun (h.covers_incoming hfits hstep hu) fun th₀ hth₀ => ?_
    obtain ⟨th', hth', -, hle⟩ := hstep.thread_mono hfits hth₀
    obtain rfl : th' = th := by simpa [hu] using hth'.symm
    exact hle
  by_cases hchild : ∃ p, e = .create p u
  · obtain ⟨p, rfl⟩ := hchild
    cases hstep with
    | @create _ _ parent hp hc =>
      -- the child starts from its creator's clock, one tick ahead
      obtain rfl : (rzThreadCreate s.race parent).2.1 = th := by simpa using hu
      have hle : parent.clock ≤ (rzThreadCreate s.race parent).2.1.clock :=
        le_rzVcTick (hfits _ hp).2
      have hup : u ≠ p := hactor
      rw [known_snoc_child hup, h.fresh u hc, Finset.empty_union]
      refine covers_new hrun ?_ fun th₀ hth₀ => ?_
      · rw [incoming_local (by simp) (by simp)]
        exact (h.thread p parent hp).mono hle
      · obtain rfl : parent = th₀ := by simpa [Event.actor, hp] using hth₀
        exact hle
  · have hother : ∀ p, e ≠ .create p u := fun p hp => hchild ⟨p, hp⟩
    rw [known_snoc_other hactor hother]
    rw [hstep.thread_other hactor hother] at hu
    exact covers_snoc (h.thread u th hu) fun _ hi => lt_of_mem_known hi

theorem ClockSound.sync_step (h : ClockSound nbuckets es s)
    (hrun : engineRun nbuckets es = some s) (hstep : Stepped s e s') (m : ℕ) :
    Covers (stampAt nbuckets (es ++ [e])) (s'.syncs m).clock (released (es ++ [e]) m) := by
  by_cases hrel : ∃ t, e = .release t m
  · obtain ⟨t, rfl⟩ := hrel
    cases hstep with
    | @release _ _ th ht =>
      have hold : Covers (stampAt nbuckets (es ++ [.release t m])) (s.syncs m).clock
          (released es m) := covers_snoc (h.sync m) fun _ hi => lt_of_mem_released hi
      have hnew : Covers (stampAt nbuckets (es ++ [.release t m])) th.clock
          (insert es.length (incoming es (.release t m))) := by
        refine covers_new hrun ?_ fun th₀ hth₀ => ?_
        · rw [incoming_local (by simp) (by simp)]
          exact h.thread t th ht
        · obtain rfl : th = th₀ := by simpa [Event.actor, ht] using hth₀
          exact le_rfl
      rw [released_snoc_release]
      simpa [rzMutexRelease] using hold.sup hnew
  · have hother : ∀ t, e ≠ .release t m := fun t ht => hrel ⟨t, ht⟩
    rw [released_snoc_other hother, hstep.sync_other hother]
    exact covers_snoc (h.sync m) fun _ hi => lt_of_mem_released hi

theorem ClockSound.fresh_step (h : ClockSound nbuckets es s) (hstep : Stepped s e s') {u : ℕ}
    (hu : s'.threads u = none) : known (es ++ [e]) u = ∅ := by
  have hactor : u ≠ e.actor := by
    rintro rfl
    simpa [hu] using hstep.actor_registered
  have hother : ∀ p, e ≠ .create p u := by
    rintro p rfl
    cases hstep with
    | create hp hc => simp at hu
  rw [known_snoc_other hactor hother]
  rw [hstep.thread_other hactor hother] at hu
  exact h.fresh u hu

theorem ClockSound.step (h : ClockSound nbuckets es s)
    (hrun : engineRun nbuckets es = some s) (hfits : s.TicksFit e)
    (hstep : Stepped s e s') : ClockSound nbuckets (es ++ [e]) s' where
  thread _ _ hu := h.thread_step hrun hfits hstep hu
  sync m := h.sync_step hrun hstep m
  fresh _ hu := h.fresh_step hstep hu

end ClockSound

end Redzone.Race
