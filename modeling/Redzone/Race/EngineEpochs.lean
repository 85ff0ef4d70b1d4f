/-
  Race/EngineEpochs.lean --- the clocks of the engine know nothing but the causal
  past.

  The converse of `ClockSound`.  A thread's own epoch is published only by a tick
  (`rz_mutex_release`, `rz_thread_create`) or by being joined, so no other clock ever
  reaches the epoch a live thread is in (`EpochInv.lead`).  A clock that is at or
  above the epoch of an event therefore belongs to someone who has that event in the
  past (`ClockReflects`).

  This needs every thread to have a component of its own: thread ids below
  `RZ_RACE_MAX_THREADS`, and no epoch overflow.
-/
import Redzone.Race.EngineSound

set_option autoImplicit false

namespace Redzone.Race

open Redzone.Foundation

/-- The call hands out no thread id that the clocks do not track. -/
def EngineState.TidFits (s : EngineState) : Event → Prop
  | .init _ => s.race.nextTid < maxThreads
  | .create _ _ => s.race.nextTid < maxThreads
  | _ => True

instance (s : EngineState) : (e : Event) → Decidable (s.TidFits e)
  | .init _ => inferInstanceAs (Decidable (s.race.nextTid < maxThreads))
  | .create _ _ => inferInstanceAs (Decidable (s.race.nextTid < maxThreads))
  | .join _ _ | .acquire _ _ | .release _ _ | .access .. => .isTrue trivial

/-- All thread ids of the run are below `RZ_RACE_MAX_THREADS`. -/
def TidsFit (nbuckets : ℕ) (es : List Event) : Prop :=
  EveryStep EngineState.step EngineState.TidFits (.initial nbuckets) es

instance (nbuckets : ℕ) (es : List Event) : Decidable (TidsFit nbuckets es) :=
  decidableEveryStep ..

/-- Thread `u` has been joined. -/
def Joined (es : List Event) (u : ℕ) : Prop := ∃ p, Event.join p u ∈ es

/-! ## Where a component can be -/

/-- The thread a call brings to life. -/
def Event.newborn : Event → Option ℕ
  | .init t => some t
  | .create _ c => some c
  | _ => none

/-- The call hands the clock of `u` to someone else. -/
def Event.Publishes : Event → ℕ → Prop
  | .create p _, u => p = u
  | .join _ c, u => c = u
  | .release t _, u => t = u
  | _, _ => False

/-- Every clock is below `B` in component `k`, except possibly that of thread `ex`. -/
structure ClocksBelow (s : EngineState) (ex : Option ℕ) (k : Fin maxThreads) (B : ℕ) :
    Prop where
  thread : ∀ t th, ex ≠ some t → s.threads t = some th → th.clock k < B
  sync : ∀ m, (s.syncs m).clock k < B

section ClocksBelow

variable {s s' : EngineState} {e : Event} {ex : Option ℕ} {k : Fin maxThreads} {B B' : ℕ}

theorem ClocksBelow.mono (h : ClocksBelow s ex k B) (hB : B ≤ B') :
    ClocksBelow s ex k B' :=
  ⟨fun t th ht hth => (h.thread t th ht hth).trans_le hB, fun m => (h.sync m).trans_le hB⟩

theorem ClocksBelow.except (h : ClocksBelow s none k B) (u : ℕ) :
    ClocksBelow s (some u) k B :=
  ⟨fun t th _ hth => h.thread t th (by simp) hth, h.sync⟩

/-- Storing a clock that is below `B`, or belongs to the exempt thread. -/
theorem ClocksBelow.setThread (h : ClocksBelow s ex k B) {t : ℕ} {th : RzThread}
    (hth : ex ≠ some t → th.clock k < B) : ClocksBelow (s.setThread t th) ex k B := by
  refine ⟨fun u thu hex hu => ?_, h.sync⟩
  by_cases hut : u = t
  · subst hut
    obtain rfl : th = thu := by simpa using hu
    exact hth hex
  · rw [EngineState.setThread_of_ne _ _ hut] at hu
    exact h.thread u thu hex hu

/-- A clock component moves from one clock to another only by being published, and up
only by a tick of its owner. -/
theorem ClocksBelow.step (h : ClocksBelow s ex k B) (hstep : Stepped s e s')
    (hown : ∀ t th, ex ≠ some t → s.threads t = some th → slotOf th.tid ≠ some k)
    (hnext : ∀ c, e.newborn = some c → ex ≠ some c → slotOf s.race.nextTid ≠ some k)
    (hleak : ∀ u th, ex = some u → e.Publishes u → s.threads u = some th → th.clock k < B) :
    ClocksBelow s' ex k B := by
  -- a clock that is published is below the bound, whoever it belongs to
  have hpub : ∀ u th, e.Publishes u → s.threads u = some th → th.clock k < B := by
    intro u th hu hth
    by_cases hex : ex = some u
    · exact hleak u th hex hu hth
    · exact h.thread u th hex hth
  have hpos : 0 < B := Nat.zero_lt_of_lt (h.sync 0)
  have hrace : ∀ r, ClocksBelow { s with race := r } ex k B := fun r => ⟨h.thread, h.sync⟩
  cases hstep with
  | @init t ht =>
    refine (hrace _).setThread fun hex => ?_
    simpa [rzThreadInit, rzVcTick_of_ne (hnext t rfl hex), rzVcInit] using hpos
  | @create p c parent hp hc =>
    have hparent : parent.clock k < B := hpub p parent rfl hp
    refine ((hrace _).setThread fun hex => ?_).setThread fun hex => ?_
    · simpa [rzThreadCreate, rzVcTick_of_ne (hown p parent hex hp)] using hparent
    · simpa [rzThreadCreate, rzVcTick_of_ne (hnext c rfl hex)] using hparent
  | @join p c parent child hp hc =>
    refine h.setThread fun hex => ?_
    simp only [rzThreadJoin, rzVcJoin_eq_sup, Pi.sup_apply, max_lt_iff]
    exact ⟨h.thread p parent hex hp, hpub c child rfl hc⟩
  | @acquire t m th ht =>
    refine h.setThread fun hex => ?_
    simp only [rzMutexAcquire, rzVcJoin_eq_sup, Pi.sup_apply, max_lt_iff]
    exact ⟨h.thread t th hex ht, h.sync m⟩
  | @release t m th ht =>
    have hthreads : ClocksBelow (s.setThread t (rzMutexRelease th (s.syncs m)).1) ex k B := by
      refine h.setThread fun hex => ?_
      simp only [rzMutexRelease, rzVcTick_of_ne (hown t th hex ht)]
      exact h.thread t th hex ht
    refine ⟨hthreads.thread, fun m' => ?_⟩
    by_cases hm : m' = m
    · subst hm
      simp only [Function.update_self, rzMutexRelease, rzVcJoin_eq_sup, Pi.sup_apply,
        max_lt_iff]
      exact ⟨h.sync m', hpub t th rfl ht⟩
    · simpa [hm] using h.sync m'
  | access ht => exact ⟨h.thread, h.sync⟩

end ClocksBelow

/-! ## Thread ids and leading epochs -/

/-- Every thread has a component of its own, and leads in it until it is joined. -/
structure EpochInv (es : List Event) (s : EngineState) : Prop where
  next : 0 ≤ s.race.nextTid ∧ s.race.nextTid ≤ maxThreads
  range : ∀ t th, s.threads t = some th → 0 ≤ th.tid ∧ th.tid < s.race.nextTid
  inj : ∀ t u th thu, s.threads t = some th → s.threads u = some thu →
    th.tid = thu.tid → t = u
  /-- A component that no thread owns yet is 0 everywhere. -/
  unused : ∀ k : Fin maxThreads, s.race.nextTid ≤ (k.val : ℤ) → ClocksBelow s none k 1
  /-- Nobody else has reached the epoch of a live thread. -/
  lead : ∀ u thu k, s.threads u = some thu → slotOf thu.tid = some k →
    ¬ Joined es u → ClocksBelow s (some u) k (thu.clock k)

section EpochInv

variable {nbuckets : ℕ} {es : List Event} {e : Event} {s s' : EngineState}

theorem epochInv_initial : EpochInv [] (.initial nbuckets) := by
  constructor
  case unused => exact fun k _ => ⟨by simp [EngineState.initial], fun m => Nat.zero_lt_one⟩
  all_goals simp [EngineState.initial, rzRaceStateInitN]

theorem not_joined_of_snoc {u : ℕ} (h : ¬ Joined (es ++ [e]) u) : ¬ Joined es u := by
  rintro ⟨p, hp⟩
  exact h ⟨p, List.mem_append_left _ hp⟩

/-- The actor of a call has not been joined. -/
theorem JoinedStops.not_joined_actor (h : JoinedStops (es ++ [e])) :
    ¬ Joined es e.actor := by
  rintro ⟨p, hp⟩
  have := (List.pairwise_append.mp h).2.2 _ hp e (by simp)
  exact this rfl

theorem JoinedStops.prefix (h : JoinedStops (es ++ [e])) : JoinedStops es :=
  (List.pairwise_append.mp h).1

theorem EpochInv.slot_exists (h : EpochInv es s) {t : ℕ} {th : RzThread}
    (ht : s.threads t = some th) : ∃ k : Fin maxThreads, slotOf th.tid = some k := by
  obtain ⟨h₀, hlt⟩ := h.range t th ht
  have hnext := h.next.2
  refine ⟨⟨th.tid.toNat, by omega⟩, ?_⟩
  rw [slotOf_eq_some]
  simp only
  omega

/-- Two threads never share a component. -/
theorem EpochInv.slot_inj (h : EpochInv es s) {t u : ℕ} {th thu : RzThread}
    {k : Fin maxThreads} (ht : s.threads t = some th) (hu : s.threads u = some thu)
    (hk : slotOf th.tid = some k) (hk' : slotOf thu.tid = some k) : t = u :=
  h.inj t u th thu ht hu (slotOf_injective hk hk')

/-- The components in use are those below the next thread id. -/
theorem EpochInv.slot_ne (h : EpochInv es s) {t : ℕ} {th : RzThread} {k : Fin maxThreads}
    (ht : s.threads t = some th) (hk : s.race.nextTid ≤ (k.val : ℤ)) :
    slotOf th.tid ≠ some k := by
  have hlt := (h.range t th ht).2
  rw [Ne, slotOf_eq_some]
  omega

theorem intSucc_of_lt {n : ℤ} (h : n < maxThreads) : intSucc n = n + 1 := by
  have hne : n ≠ 2 ^ 31 - 1 := by
    simp only [maxThreads] at h
    omega
  unfold intSucc
  rw [if_neg hne]

theorem findBucket_nextTid (r : RzRaceState) (word : ℕ) (create : Bool) :
    (findBucket r word create).2.nextTid = r.nextTid := by
  unfold findBucket
  split
  · rfl
  · split
    · rfl
    · split <;> rfl

theorem rzRaceAccessLoc_nextTid (r : RzRaceState) (t : RzThread) (addr : ℕ)
    (isWrite : Bool) (file : Option String) (line : ℤ) :
    (rzRaceAccessLoc r t addr isWrite file line).2.nextTid = r.nextTid := by
  have h := findBucket_nextTid r (wordOf addr) true
  unfold rzRaceAccessLoc
  split
  · rename_i heq
    simpa [heq] using h
  · rename_i heq
    simpa [heq] using h

/-- A call that brings no thread to life keeps the next thread id. -/
theorem Stepped.nextTid_eq (hstep : Stepped s e s') (h : e.newborn = none) :
    s'.race.nextTid = s.race.nextTid := by
  cases hstep with
  | init ht => simp [Event.newborn] at h
  | create hp hc => simp [Event.newborn] at h
  | access ht => exact rzRaceAccessLoc_nextTid ..
  | _ => rfl

/-- What a call does when it brings a thread to life. -/
theorem Stepped.newborn (hstep : Stepped s e s') {c : ℕ} (h : e.newborn = some c) :
    s.threads c = none ∧ s'.race.nextTid = intSucc s.race.nextTid ∧
      ∃ thc, s'.threads c = some thc ∧ thc.tid = s.race.nextTid ∧
        ∃ from' : RzVc, thc.clock = rzVcTick from' s.race.nextTid ∧
          (from' = rzVcInit ∨ ∃ p th, s.threads p = some th ∧ from' = th.clock) := by
  cases hstep with
  | init ht =>
    obtain rfl := Option.some.inj h
    exact ⟨ht, rfl, _, EngineState.setThread_self .., rfl, _, rfl, Or.inl rfl⟩
  | create hp hc =>
    obtain rfl := Option.some.inj h
    exact ⟨hc, rfl, _, EngineState.setThread_self .., rfl, _, rfl, Or.inr ⟨_, _, hp, rfl⟩⟩
  | _ => simp [Event.newborn] at h

/-- A thread after a call was there before, unless the call brought it to life. -/
theorem Stepped.thread_before (hstep : Stepped s e s') {u : ℕ} {thu' : RzThread}
    (hu : s'.threads u = some thu') (hnew : e.newborn ≠ some u) :
    ∃ thu, s.threads u = some thu ∧ thu'.tid = thu.tid := by
  by_cases hactor : u = e.actor
  · subst hactor
    cases hstep with
    | init ht => simp [Event.newborn, Event.actor] at hnew
    | @create p c parent hp hc =>
      have hpc : p ≠ c := by
        rintro rfl
        simp [hp] at hc
      simp only [Event.actor, EngineState.setThread_of_ne _ _ hpc,
        EngineState.setThread_self, Option.some.injEq] at hu
      exact ⟨parent, hp, hu ▸ rfl⟩
    | join hp hc => exact ⟨_, hp, by simp [Event.actor] at hu; exact hu ▸ rfl⟩
    | acquire ht => exact ⟨_, ht, by simp [Event.actor] at hu; exact hu ▸ rfl⟩
    | release ht => exact ⟨_, ht, by simp [Event.actor] at hu; exact hu ▸ rfl⟩
    | access ht => exact ⟨_, hu, rfl⟩
  · refine ⟨thu', ?_, rfl⟩
    rw [← hstep.thread_other hactor, hu]
    rintro p rfl
    simp [Event.newborn] at hnew

/-- The publisher of a clock ticks past it, unless it is at its end. -/
theorem Stepped.publisher_ticks (hstep : Stepped s e s') (hfits : s.TicksFit e) {u : ℕ}
    {thu thu' : RzThread} {k : Fin maxThreads} (hu : s.threads u = some thu)
    (hu' : s'.threads u = some thu') (hk : slotOf thu.tid = some k)
    (hpub : e.Publishes u) (hjoin : ∀ p, e ≠ .join p u) : thu.clock k < thu'.clock k := by
  cases hstep with
  | init ht => simp [Event.Publishes] at hpub
  | @create p c parent hp hc =>
    obtain rfl : p = u := hpub
    obtain rfl : parent = thu := by simpa [hp] using hu
    have hpc : p ≠ c := by
      rintro rfl
      simp [hp] at hc
    simp only [EngineState.setThread_of_ne _ _ hpc, EngineState.setThread_self,
      Option.some.injEq] at hu'
    rw [← hu']
    simp only [rzThreadCreate, rzVcTick_self hk (hfits _ hp).1]
    exact Nat.lt_succ_self _
  | @join p c parent child hp hc =>
    obtain rfl : c = u := hpub
    exact absurd rfl (hjoin p)
  | @acquire t m th ht => simp [Event.Publishes] at hpub
  | @release t m th ht =>
    obtain rfl : t = u := hpub
    obtain rfl : th = thu := by simpa [ht] using hu
    simp only [EngineState.setThread_self, Option.some.injEq] at hu'
    rw [← hu']
    simp only [rzMutexRelease, rzVcTick_self hk (hfits _ ht)]
    exact Nat.lt_succ_self _
  | access ht => simp [Event.Publishes] at hpub

theorem EpochInv.nextTid_step (h : EpochInv es s) (htids : s.TidFits e)
    (hstep : Stepped s e s') :
    s.race.nextTid ≤ s'.race.nextTid ∧ s'.race.nextTid ≤ maxThreads ∧
      (∀ c, e.newborn = some c → s'.race.nextTid = s.race.nextTid + 1) := by
  cases hnew : e.newborn with
  | none =>
    rw [hstep.nextTid_eq hnew]
    exact ⟨le_rfl, h.next.2, by simp⟩
  | some c =>
    have hlt : s.race.nextTid < maxThreads := by
      cases e <;> first | exact htids | simp [Event.newborn] at hnew
    rw [(hstep.newborn hnew).2.1, intSucc_of_lt hlt]
    exact ⟨by omega, by omega, fun _ _ => rfl⟩

/-- The owner of a component, seen from after the call. -/
theorem EpochInv.owner_step (h : EpochInv es s) (htids : s.TidFits e)
    (hstep : Stepped s e s') {u : ℕ} {thu' : RzThread} (hu : s'.threads u = some thu') :
    0 ≤ thu'.tid ∧ thu'.tid < s'.race.nextTid := by
  obtain ⟨hle, -, hsucc⟩ := h.nextTid_step htids hstep
  by_cases hnew : e.newborn = some u
  · obtain ⟨-, -, thc, hthc, htid, -⟩ := hstep.newborn hnew
    obtain rfl : thc = thu' := by simpa [hu] using hthc.symm
    have := hsucc u hnew
    have := h.next.1
    omega
  · obtain ⟨thu, hthu, htid⟩ := hstep.thread_before hu hnew
    have := h.range u thu hthu
    omega

/-- The id of a thread that was just brought to life is not one of the old ids. -/
theorem EpochInv.fresh_tid (h : EpochInv es s) (hstep : Stepped s e s') {t u : ℕ}
    {th thu : RzThread} (ht : s'.threads t = some th) (hu : s'.threads u = some thu)
    (hnew : e.newborn = some t) (hold : e.newborn ≠ some u) : th.tid ≠ thu.tid := by
  obtain ⟨-, -, thc, hthc, htid, -⟩ := hstep.newborn hnew
  obtain rfl : thc = th := by simpa [ht] using hthc.symm
  obtain ⟨thu₀, hthu₀, htidu⟩ := hstep.thread_before hu hold
  have := (h.range u thu₀ hthu₀).2
  omega

theorem EpochInv.inj_step (h : EpochInv es s) (hstep : Stepped s e s') {t u : ℕ}
    {th thu : RzThread} (ht : s'.threads t = some th) (hu : s'.threads u = some thu)
    (htid : th.tid = thu.tid) : t = u := by
  by_cases hnewt : e.newborn = some t <;> by_cases hnewu : e.newborn = some u
  · exact Option.some.inj (hnewt.symm.trans hnewu)
  · exact absurd htid (h.fresh_tid hstep ht hu hnewt hnewu)
  · exact absurd htid.symm (h.fresh_tid hstep hu ht hnewu hnewt)
  · obtain ⟨th₀, ht₀, htid₀⟩ := hstep.thread_before ht hnewt
    obtain ⟨thu₀, hu₀, htidu₀⟩ := hstep.thread_before hu hnewu
    exact h.inj t u th₀ thu₀ ht₀ hu₀ (htid₀.symm.trans (htid.trans htidu₀))

theorem EpochInv.unused_step (h : EpochInv es s) (htids : s.TidFits e) (hstep : Stepped s e s')
    {k : Fin maxThreads} (hk : s'.race.nextTid ≤ (k.val : ℤ)) : ClocksBelow s' none k 1 := by
  obtain ⟨hle, -, hsucc⟩ := h.nextTid_step htids hstep
  have hk₀ : s.race.nextTid ≤ (k.val : ℤ) := hle.trans hk
  refine (h.unused k hk₀).step hstep (fun t th _ ht => h.slot_ne ht hk₀) ?_ (by simp)
  intro c hnew _
  have := hsucc c hnew
  rw [Ne, slotOf_eq_some]
  omega

/-- A thread that was just brought to life is in epoch 1 of an unused component. -/
theorem EpochInv.lead_newborn (h : EpochInv es s) (hstep : Stepped s e s') {u : ℕ}
    {thu : RzThread} {k : Fin maxThreads} (hu : s'.threads u = some thu)
    (hk : slotOf thu.tid = some k) (hnew : e.newborn = some u) :
    ClocksBelow s' (some u) k (thu.clock k) := by
  obtain ⟨hnone, -, thc, hthc, htid, start, hclock, hstart⟩ := hstep.newborn hnew
  obtain rfl : thc = thu := by simpa [hu] using hthc.symm
  rw [htid] at hk
  have hk₀ : s.race.nextTid ≤ (k.val : ℤ) := (slotOf_eq_some.mp hk).le
  have hzero : start k = 0 := by
    obtain rfl | ⟨p, th, hp, rfl⟩ := hstart
    · rfl
    · exact Nat.lt_one_iff.mp ((h.unused k hk₀).thread p th (by simp) hp)
  have hone : thc.clock k = 1 := by
    rw [hclock, rzVcTick_of_slot hk, Function.update_self, hzero]
    rfl
  rw [hone]
  refine ((h.unused k hk₀).except u).step hstep (fun t th _ ht => h.slot_ne ht hk₀) ?_ ?_
  · rintro c hc hne
    exact absurd (hnew.symm.trans hc) hne
  · rintro v th hv - hth
    obtain rfl := Option.some.inj hv
    simp [hnone] at hth

/-- A thread that was there before, and that nobody has joined, still leads. -/
theorem EpochInv.lead_old (h : EpochInv es s) (hfits : s.TicksFit e) (hstep : Stepped s e s')
    {u : ℕ} {thu : RzThread} {k : Fin maxThreads} (hu : s'.threads u = some thu)
    (hk : slotOf thu.tid = some k) (hjoined : ¬ Joined (es ++ [e]) u)
    (hnew : e.newborn ≠ some u) : ClocksBelow s' (some u) k (thu.clock k) := by
  obtain ⟨thu₀, hu₀, htid⟩ := hstep.thread_before hu hnew
  obtain ⟨thu', hu', -, hmono⟩ := hstep.thread_mono hfits hu₀
  obtain rfl : thu' = thu := by simpa [hu] using hu'.symm
  rw [htid] at hk
  have hlead := h.lead u thu₀ k hu₀ hk (not_joined_of_snoc hjoined)
  refine (hlead.mono (hmono k)).step hstep ?_ ?_ ?_
  · intro t th hne ht hslot
    exact hne (congrArg some (h.slot_inj hu₀ ht hk hslot))
  · intro c _ _ hslot
    have := (h.range u thu₀ hu₀).2
    rw [slotOf_eq_some] at hk hslot
    omega
  · intro v th hv hpub hth
    obtain rfl := Option.some.inj hv
    obtain rfl : thu₀ = th := by simpa [hu₀] using hth
    refine hstep.publisher_ticks hfits hu₀ hu hk hpub ?_
    rintro p rfl
    exact hjoined ⟨p, by simp⟩

theorem EpochInv.step (h : EpochInv es s) (hfits : s.TicksFit e) (htids : s.TidFits e)
    (hstep : Stepped s e s') : EpochInv (es ++ [e]) s' := by
  obtain ⟨hle, hmax, -⟩ := h.nextTid_step htids hstep
  constructor
  case next => exact ⟨h.next.1.trans hle, hmax⟩
  case range => exact fun t th ht => h.owner_step htids hstep ht
  case inj => exact fun t u th thu ht hu htid => h.inj_step hstep ht hu htid
  case unused => exact fun k hk => h.unused_step htids hstep hk
  case lead =>
    intro u thu k hu hk hjoined
    by_cases hnew : e.newborn = some u
    · exact h.lead_newborn hstep hu hk hnew
    · exact h.lead_old hfits hstep hu hk hjoined hnew

end EpochInv

/-! ## Clocks know nothing but the past -/

/-- Clocks are at or above the epochs of their own past only. -/
structure ClockReflects (nbuckets : ℕ) (es : List Event) (s : EngineState) : Prop where
  /-- A stamp names the thread that owns the component. -/
  owned : ∀ i k ep, stampAt nbuckets es i = some (k, ep) → 0 < ep ∧
    ∃ e th, es[i]? = some e ∧ s.threads e.actor = some th ∧ slotOf th.tid = some k
  thread : ∀ t th, s.threads t = some th →
    Reflects (stampAt nbuckets es) es.length th.clock (known es t)
  sync : ∀ m, Reflects (stampAt nbuckets es) es.length (s.syncs m).clock (released es m)

section ClockReflects

variable {nbuckets : ℕ} {es : List Event} {e : Event} {s s' : EngineState}

theorem clockReflects_initial : ClockReflects nbuckets [] (.initial nbuckets) := by
  constructor
  · intro i k ep h
    simp [stampAt] at h
  · intro t th h
    simp [EngineState.initial] at h
  · intro m i hi
    simp at hi

/-- Every thread knows its own events. -/
theorem mem_known_of_actor {i : ℕ} (he : es[i]? = some e) : i ∈ known es e.actor :=
  Finset.mem_union_left _
    (((knowledge_exact eventOrder es).thread e.actor i).mpr ⟨i, e, he, rfl, Or.inl rfl⟩)

/-- What is stamped in the component of a thread is known to it. -/
theorem ClockReflects.mem_known (h : ClockReflects nbuckets es s) (hinv : EpochInv es s)
    {t i ep : ℕ} {th : RzThread} {k : Fin maxThreads} (ht : s.threads t = some th)
    (hk : slotOf th.tid = some k) (hi : stampAt nbuckets es i = some (k, ep)) :
    i ∈ known es t := by
  obtain ⟨-, f, thf, hf, hthf, hkf⟩ := h.owned i k ep hi
  obtain rfl : f.actor = t := hinv.slot_inj hthf ht hkf hk
  exact mem_known_of_actor hf

/-- Nothing is stamped in the component of the next thread. -/
theorem ClockReflects.unstamped (h : ClockReflects nbuckets es s) (hinv : EpochInv es s)
    {i ep : ℕ} {k : Fin maxThreads} (hk : slotOf s.race.nextTid = some k) :
    stampAt nbuckets es i ≠ some (k, ep) := by
  intro hi
  obtain ⟨-, f, thf, -, hthf, hkf⟩ := h.owned i k ep hi
  exact hinv.slot_ne hthf (slotOf_eq_some.mp hk).le hkf

/-- A tick of the own component: what it passes is known to its owner. -/
theorem ClockReflects.tick (h : ClockReflects nbuckets es s) (hinv : EpochInv es s) {t : ℕ}
    {th : RzThread} (ht : s.threads t = some th) :
    Reflects (stampAt nbuckets es) es.length (rzVcTick th.clock th.tid) (known es t) := by
  obtain ⟨k, hk⟩ := hinv.slot_exists ht
  refine (h.thread t th ht).advance (k := k) (fun j hj => rzVcTick_of_ne ?_) ?_
  · rw [hk]
    exact fun hkj => hj (Option.some.inj hkj).symm
  · exact fun i _ ep hi => h.mem_known hinv ht hk hi

/-- A tick of the component of the next thread passes nothing. -/
theorem ClockReflects.tick_next (h : ClockReflects nbuckets es s) (hinv : EpochInv es s)
    {c : RzVc} {A : Finset ℕ} (hc : Reflects (stampAt nbuckets es) es.length c A) :
    Reflects (stampAt nbuckets es) es.length (rzVcTick c s.race.nextTid) A := by
  cases hk : slotOf s.race.nextTid with
  | none => rwa [rzVcTick_of_none hk]
  | some k =>
    refine hc.advance (k := k) (fun j hj => rzVcTick_of_ne ?_) ?_
    · rw [hk]
      exact fun hkj => hj (Option.some.inj hkj).symm
    · exact fun i _ ep hi => absurd hi (h.unstamped hinv hk)

/-- The new clock of the actor, on the events before the call. -/
theorem ClockReflects.reflects_incoming (h : ClockReflects nbuckets es s)
    (hinv : EpochInv es s) (hstep : Stepped s e s') {th' : RzThread}
    (hth' : s'.threads e.actor = some th') :
    Reflects (stampAt nbuckets es) es.length th'.clock (incoming es e) := by
  cases hstep with
  | @init t ht =>
    obtain rfl : (rzThreadInit s.race).1 = th' := by simpa [Event.actor] using hth'
    refine h.tick_next hinv fun i _ k ep hi hle => ?_
    exact absurd hle (Nat.not_le.mpr (h.owned i k ep hi).1)
  | @create p c parent hp hc =>
    have hpc : p ≠ c := by
      rintro rfl
      simp [hp] at hc
    simp only [Event.actor, EngineState.setThread_of_ne _ _ hpc, EngineState.setThread_self,
      Option.some.injEq] at hth'
    rw [incoming_local (by simp) (by simp), ← hth']
    exact h.tick hinv hp
  | @join p c parent child hp hc =>
    obtain rfl : rzThreadJoin parent child = th' := by simpa [Event.actor] using hth'
    rw [incoming_join, rzThreadJoin, rzVcJoin_eq_sup]
    exact (h.thread p parent hp).sup (h.thread c child hc)
  | @acquire t m th ht =>
    obtain rfl : rzMutexAcquire th (s.syncs m) = th' := by simpa [Event.actor] using hth'
    rw [incoming_acquire, rzMutexAcquire, rzVcJoin_eq_sup]
    exact (h.thread t th ht).sup (h.sync m)
  | @release t m th ht =>
    obtain rfl : (rzMutexRelease th (s.syncs m)).1 = th' := by simpa [Event.actor] using hth'
    rw [incoming_local (by simp) (by simp)]
    exact h.tick hinv ht
  | @access t addr isWrite file line th ht =>
    obtain rfl : th = th' := by simpa [Event.actor, ht] using hth'
    rw [incoming_local (by simp) (by simp)]
    exact h.thread t th ht

/-- Only the actor, and those it hands its clock to, reach the epoch of a new event. -/
theorem EpochInv.stamp_past (hinv : EpochInv es s) (hstops : JoinedStops (es ++ [e]))
    (hrun : engineRun nbuckets es = some s) {k : Fin maxThreads} {ep : ℕ}
    (hk : stampAt nbuckets (es ++ [e]) es.length = some (k, ep)) :
    ClocksBelow s (some e.actor) k ep := by
  rw [stampAt_last hrun, EngineState.stamp_eq_some] at hk
  obtain ⟨th, hth, hslot, rfl⟩ := hk
  exact hinv.lead _ th k hth hslot hstops.not_joined_actor

theorem ClockReflects.owned_step (h : ClockReflects nbuckets es s) (hinv : EpochInv es s)
    (hstops : JoinedStops (es ++ [e])) (hrun : engineRun nbuckets es = some s)
    (hfits : s.TicksFit e) (hstep : Stepped s e s') {i ep : ℕ} {k : Fin maxThreads}
    (hi : stampAt nbuckets (es ++ [e]) i = some (k, ep)) : 0 < ep ∧
      ∃ f th, (es ++ [e])[i]? = some f ∧ s'.threads f.actor = some th ∧
        slotOf th.tid = some k := by
  by_cases hlt : i < es.length
  · rw [stampAt_append_left hlt] at hi
    obtain ⟨hpos, f, thf, hf, hthf, hkf⟩ := h.owned i k ep hi
    obtain ⟨thf', hthf', htid, -⟩ := hstep.thread_mono hfits hthf
    refine ⟨hpos, f, thf', ?_, hthf', htid ▸ hkf⟩
    rw [List.getElem?_append_left hlt, hf]
  · obtain rfl : i = es.length := by
      by_contra hne
      have : (es ++ [e])[i]? = none := by
        rw [List.getElem?_eq_none_iff, List.length_append, List.length_singleton]
        omega
      simp [stampAt, this] at hi
    have hpos : 0 < ep := Nat.zero_lt_of_lt ((hinv.stamp_past hstops hrun hi).sync 0)
    rw [stampAt_last hrun, EngineState.stamp_eq_some] at hi
    obtain ⟨th, hth, hslot, -⟩ := hi
    obtain ⟨th', hth', htid, -⟩ := hstep.thread_mono hfits hth
    exact ⟨hpos, e, th', by simp, hth', htid ▸ hslot⟩

theorem ClockReflects.thread_step (h : ClockReflects nbuckets es s) (hinv : EpochInv es s)
    (hclock : ClockSound nbuckets es s) (hstops : JoinedStops (es ++ [e]))
    (hrun : engineRun nbuckets es = some s) (hstep : Stepped s e s') {u : ℕ} {thu : RzThread}
    (hu : s'.threads u = some thu) :
    Reflects (stampAt nbuckets (es ++ [e])) (es.length + 1) thu.clock (known (es ++ [e]) u) := by
  have hleft : ∀ i < es.length, stampAt nbuckets (es ++ [e]) i = stampAt nbuckets es i :=
    fun i hi => stampAt_append_left hi
  by_cases hactor : u = e.actor
  · subst hactor
    rw [known_snoc_actor hstep.ne_create_actor]
    refine Reflects.succ ((h.reflects_incoming hinv hstep hu).superset ?_) hleft ?_
    · exact Finset.subset_insert ..
    · exact fun _ _ _ _ => Finset.mem_insert_self ..
  by_cases hchild : ∃ p, e = .create p u
  · obtain ⟨p, rfl⟩ := hchild
    cases hstep with
    | @create _ _ parent hp hc =>
      obtain rfl : (rzThreadCreate s.race parent).2.1 = thu := by simpa using hu
      have hup : u ≠ p := hactor
      rw [known_snoc_child hup, hclock.fresh u hc, Finset.empty_union,
        incoming_local (by simp) (by simp)]
      refine Reflects.succ ((h.tick_next hinv (h.thread p parent hp)).superset ?_) hleft ?_
      · exact Finset.subset_insert ..
      · exact fun _ _ _ _ => Finset.mem_insert_self ..
  · have hother : ∀ p, e ≠ .create p u := fun p hp => hchild ⟨p, hp⟩
    rw [known_snoc_other hactor hother]
    rw [hstep.thread_other hactor hother] at hu
    refine (h.thread u thu hu).succ hleft fun k ep hk hle => ?_
    have hlt := (hinv.stamp_past hstops hrun hk).thread u thu
      (fun hex => hactor (Option.some.inj hex).symm) hu
    omega

theorem ClockReflects.sync_step (h : ClockReflects nbuckets es s) (hinv : EpochInv es s)
    (hstops : JoinedStops (es ++ [e])) (hrun : engineRun nbuckets es = some s)
    (hstep : Stepped s e s') (m : ℕ) :
    Reflects (stampAt nbuckets (es ++ [e])) (es.length + 1) (s'.syncs m).clock
      (released (es ++ [e]) m) := by
  have hleft : ∀ i < es.length, stampAt nbuckets (es ++ [e]) i = stampAt nbuckets es i :=
    fun i hi => stampAt_append_left hi
  by_cases hrel : ∃ t, e = .release t m
  · obtain ⟨t, rfl⟩ := hrel
    cases hstep with
    | @release _ _ th ht =>
      rw [released_snoc_release, incoming_local (by simp) (by simp)]
      have hold : Reflects (stampAt nbuckets es) es.length ((s.syncs m).clock ⊔ th.clock)
          (released es m ∪ insert es.length (known es t)) :=
        ((h.sync m).sup (h.thread t th ht)).superset
          (Finset.union_subset_union_right (Finset.subset_insert ..))
      have hnew := hold.succ hleft fun _ _ _ _ =>
        Finset.mem_union_right _ (Finset.mem_insert_self ..)
      simpa [rzMutexRelease, Event.actor] using hnew
  · have hother : ∀ t, e ≠ .release t m := fun t ht => hrel ⟨t, ht⟩
    rw [released_snoc_other hother, hstep.sync_other hother]
    refine (h.sync m).succ hleft fun k ep hk hle => ?_
    have hlt := (hinv.stamp_past hstops hrun hk).sync m
    omega

theorem ClockReflects.step (h : ClockReflects nbuckets es s) (hinv : EpochInv es s)
    (hclock : ClockSound nbuckets es s) (hstops : JoinedStops (es ++ [e]))
    (hrun : engineRun nbuckets es = some s) (hfits : s.TicksFit e) (hstep : Stepped s e s') :
    ClockReflects nbuckets (es ++ [e]) s' := by
  have hlen : (es ++ [e]).length = es.length + 1 := by simp
  refine ⟨fun i k ep hi => h.owned_step hinv hstops hrun hfits hstep hi, ?_, ?_⟩
  · intro u thu hu
    rw [hlen]
    exact h.thread_step hinv hclock hstops hrun hstep hu
  · intro m
    rw [hlen]
    exact h.sync_step hinv hstops hrun hstep m

end ClockReflects

end Redzone.Race
