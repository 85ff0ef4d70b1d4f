/-
  Runtime/LockEvents.lean --- the lock events a wrapper records, and what really happened
  to the lock.

  The wrappers of mutexes, rwlocks and condition variables make the real call and record
  an acquire or a release.  Those that block record whatever the call returns, the
  try-locks only if it returns 0, and a release is recorded before the call is made.

  To speak about a whole call the process is observed: `Observed` has, for each thread,
  the wrapper it called last and the steps it has taken in it.  What a call has recorded is
  read off the clocks in front of its steps and behind them.  At the end of a call the steps
  are those of its script, so what is recorded follows what happened exactly when the
  system's answers and the room in the registry fit what the wrapper takes for granted.
-/
import Redzone.Runtime.Records

set_option autoImplicit false

namespace Redzone.Runtime

open Redzone.Foundation
open Redzone.Race

/-! ## Observed processes -/

/-- A step that a thread has taken in a wrapper. -/
structure Taken where
  before : Process
  m : Micro
  r : Result
  after : Process

/-- A process, the wrapper that each thread called last, and the steps it has taken in it. -/
structure Observed where
  process : Process
  called : ℕ → Option Call
  taken : ℕ → List Taken

namespace Observed

def initial (i : Init) : Observed := ⟨.initial i, fun _ => none, fun _ => []⟩

/-- One event, observed. -/
def step (o : Observed) (e : Event) : Option Observed :=
  (o.process.step e).map fun s' =>
    match e.action with
    | .call c =>
      { process := s'
        called := Function.update o.called e.thread (some c)
        taken := Function.update o.taken e.thread [] }
    | .step m r =>
      { o with
        process := s'
        taken := Function.update o.taken e.thread (o.taken e.thread ++ [⟨o.process, m, r, s'⟩]) }
    | _ => { o with process := s' }

/-- The wrapper that thread `t` called last has returned. -/
def Returned (o : Observed) (t : ℕ) (c : Call) : Prop :=
  o.called t = some c ∧ (o.process.threads t).todo = []

end Observed

/-- The observed process after `es`. -/
def observedRun (i : Init) (es : List Event) : Option Observed :=
  run Observed.step (.initial i) es

/-! ## What a call did and what it recorded -/

/-- The wrappers of mutexes, rwlocks and condition variables. -/
def Call.locks : Call → Bool
  | .pthreadMutexLock _ | .pthreadMutexUnlock _ | .pthreadMutexTrylock _ => true
  | .rwlockRdlock _ | .rwlockWrlock _ | .rwlockTryrdlock _ | .rwlockTrywrlock _ => true
  | .rwlockUnlock _ | .condWait _ | .condTimedwait _ => true
  | _ => false

/-- The shard has an object for the lock. -/
def SyncShard.has (sh : SyncShard) (key : ℕ) : Bool := sh.ents.any fun e => e.key == key

/-- The thread has a handle, and the registry an object for the lock. -/
def Process.Tracks (s : Process) (t key : ℕ) : Prop :=
  (∃ th, s.handles t = .live th) ∧ (s.syncs (syncShardOf key)).has key = true

/-- The step has joined the clock of the lock's object into that of its thread. -/
structure Taken.Joined (t key : ℕ) (x : Taken) : Prop where
  micro : x.m = .acquire key
  tracks : x.after.Tracks t key
  clock : x.after.clockOf t = x.before.clockOf t ⊔ x.before.syncClock key

/-- The step has published the clock of its thread in the lock's object, and the thread has
moved past it. -/
structure Taken.Published (t key : ℕ) (x : Taken) : Prop where
  micro : x.m = .release key
  tracks : x.after.Tracks t key
  published : x.after.syncClock key = x.before.syncClock key ⊔ x.before.clockOf t
  moved : ∃ th, x.before.handles t = .live th ∧ x.after.clockOf t = rzVcTick th.clock th.tid

/-- The thread has really got the lock. -/
def acquired (key : ℕ) (trace : List Taken) : Bool :=
  trace.any fun x => decide (x.m.imports = some key) && x.r.done

/-- The thread has really given the lock up. -/
def released (key : ℕ) (trace : List Taken) : Bool :=
  trace.any fun x => decide (x.m.publishes = some key) && x.r.done

/-- An acquire of the lock has been recorded. -/
def RecordsAcquire (t key : ℕ) (trace : List Taken) : Prop := ∃ x ∈ trace, x.Joined t key

/-- A release of the lock has been recorded. -/
def RecordsRelease (t key : ℕ) (trace : List Taken) : Prop := ∃ x ∈ trace, x.Published t key

/-- No thread and no lock has another clock. -/
def SameClocks (s s' : Process) : Prop :=
  (∀ t th, s.handles t = .live th → s'.handles t = .live th) ∧
    ∀ key, (s'.syncs (syncShardOf key)).clock key = (s.syncs (syncShardOf key)).clock key

/-- The events of a call are those that really happened, and where nothing happened no
clock has changed. -/
structure FollowsOutcome (t : ℕ) (trace : List Taken) : Prop where
  acquire : ∀ key, RecordsAcquire t key trace ↔ acquired key trace = true
  release : ∀ key, RecordsRelease t key trace ↔ released key trace = true
  failed : (∀ key, acquired key trace = false) → (∀ key, released key trace = false) →
    ∀ x ∈ trace, SameClocks x.before x.after

/-- `sync_for_in` finds an object, a free entry, or the memory for more entries. -/
def SyncShard.hasRoom (sh : SyncShard) (key : ℕ) (growOk : Bool) : Bool :=
  sh.has key || decide (sh.ents.length ≠ sh.cap) || growOk

def Handle.isLive : Handle → Bool
  | .live _ => true
  | .absent | .freed => false

/-- The thread has a handle, and there is room for the object of the lock. -/
def Process.hasRoom (s : Process) (t key : ℕ) (growOk : Bool) : Bool :=
  (s.handles t).isLive && (s.syncs (syncShardOf key)).hasRoom key growOk

/-- There is room for each acquire that the call comes to. -/
def roomToAcquire (t : ℕ) (trace : List Taken) : Bool :=
  trace.all fun x =>
    match x.m with
    | .acquire key => x.before.hasRoom t key x.r.alloc
    | _ => true

/-- There is room for each release that the call comes to. -/
def roomToRelease (t : ℕ) (trace : List Taken) : Bool :=
  trace.all fun x =>
    match x.m with
    | .release key => x.before.hasRoom t key x.r.alloc
    | _ => true

/-- The answer of the system is the one the wrapper takes for granted: what blocks takes
effect, a try-lock takes effect just when it returns 0, if there is room to record it. -/
def Taken.fits (t : ℕ) (trace : List Taken) (x : Taken) : Bool :=
  match x.m with
  | .lock _ _ | .waitLock _ => x.r.done == roomToAcquire t trace
  | .trylock _ _ => x.r.done == (x.r.rc == 0 && roomToAcquire t trace)
  | .unlock _ | .waitUnlock _ => x.r.done == roomToRelease t trace
  | _ => true

/-! ## The steps of a call -/

/-- The steps that the locking wrappers consist of. -/
def Micro.locking : Micro → Bool
  | .self | .acquire _ | .release _ => true
  | .lock _ _ | .trylock _ _ | .unlock _ | .waitUnlock _ | .waitLock _ => true
  | _ => false

/-- What is known of the last call of a thread: the steps it has taken are those of the
script up to the place it is at, or a try-lock has failed. -/
structure Observed.Traced (o : Observed) (t : ℕ) : Prop where
  steps : ∀ x ∈ o.taken t, x.before.step ⟨t, .step x.m x.r⟩ = some x.after
  place : ∀ c, o.called t = some c → c.locks = true →
    ((o.taken t).map Taken.m ++ (o.process.threads t).todo = c.script ∧
      ∀ x ∈ o.taken t, ∀ key mode, x.m = .trylock key mode → x.r.rc = 0) ∨
    ∃ x key mode, o.taken t = [x] ∧ x.m = .trylock key mode ∧ x.r.rc ≠ 0 ∧
      (o.process.threads t).todo = []

section Calls

variable {s s' : Process} {e : Event} {o o' : Observed} {t : ℕ} {c : Call} {m : Micro} {r : Result}

/-- The scripts of the locking wrappers have four shapes. -/
theorem Call.script_of_locks (hc : c.locks = true) : ∃ key mode,
    c.script = [.lock key mode, .self, .acquire key] ∨
    c.script = [.trylock key mode, .self, .acquire key] ∨
    c.script = [.self, .release key, .unlock key] ∨
    c.script = [.self, .release key, .waitUnlock key, .waitLock key, .self, .acquire key] := by
  cases c with
  | pthreadMutexLock key => exact ⟨key, .exclusive, .inl rfl⟩
  | rwlockRdlock key => exact ⟨key, .shared, .inl rfl⟩
  | rwlockWrlock key => exact ⟨key, .exclusive, .inl rfl⟩
  | pthreadMutexTrylock key => exact ⟨key, .exclusive, .inr (.inl rfl)⟩
  | rwlockTryrdlock key => exact ⟨key, .shared, .inr (.inl rfl)⟩
  | rwlockTrywrlock key => exact ⟨key, .exclusive, .inr (.inl rfl)⟩
  | pthreadMutexUnlock key => exact ⟨key, .exclusive, .inr (.inr (.inl rfl))⟩
  | rwlockUnlock key => exact ⟨key, .exclusive, .inr (.inr (.inl rfl))⟩
  | condWait key => exact ⟨key, .exclusive, .inr (.inr (.inr rfl))⟩
  | condTimedwait key => exact ⟨key, .exclusive, .inr (.inr (.inr rfl))⟩
  | _ => simp [Call.locks] at hc

theorem Call.locking_of_mem (hc : c.locks = true) (hm : m ∈ c.script) : m.locking = true := by
  obtain ⟨key, mode, h | h | h | h⟩ := Call.script_of_locks hc <;>
    · rw [h] at hm
      revert m
      simp [Micro.locking]

/-- A try-lock stands at the head of its script. -/
theorem Call.trylock_head (hc : c.locks = true) {pre rest : Script} {key : ℕ} {mode : Mode}
    (h : pre ++ .trylock key mode :: rest = c.script) : pre = [] := by
  have htail : Micro.trylock key mode ∉ c.script.tail := by
    obtain ⟨key', mode', h | h | h | h⟩ := Call.script_of_locks hc <;> simp [h]
  cases pre with
  | nil => rfl
  | cons a pre =>
      rw [← h] at htail
      exact absurd (List.mem_append_right pre List.mem_cons_self) htail

/-- After a step of a locking wrapper the rest of the script follows, unless a try-lock has
not returned 0. -/
theorem next_of_locking (hm : m.locking = true) (s : Process) (rest : Script) :
    (s.next r rest m = rest ∧ ∀ key mode, m = .trylock key mode → r.rc = 0) ∨
      (∃ key mode, m = .trylock key mode) ∧ r.rc ≠ 0 ∧ s.next r rest m = [] := by
  cases m with
  | trylock key mode =>
      rcases eq_or_ne r.rc 0 with hrc | hrc
      · exact .inl ⟨if_pos hrc, fun _ _ _ => hrc⟩
      · exact .inr ⟨⟨key, mode, rfl⟩, hrc, if_neg hrc⟩
  | self | acquire | release | lock | unlock | waitUnlock | waitLock =>
      exact .inl ⟨rfl, by simp⟩
  | _ => simp [Micro.locking] at hm

/-! ## Observed runs -/

/-- Observing changes nothing. -/
theorem Observed.step_process (h : o.step e = some o') :
    o.process.step e = some o'.process := by
  obtain ⟨s', hs', rfl⟩ := Option.map_eq_some_iff.mp h
  rw [hs']
  congr 1
  obtain ⟨u, action⟩ := e
  cases action <;> rfl

theorem observedRun_process {i : Init} {es : List Event} (h : observedRun i es = some o) :
    processRun i es = some o.process := by
  induction es using List.reverseRecOn generalizing o with
  | nil =>
      obtain rfl : Observed.initial i = o := by simpa [observedRun] using h
      rfl
  | append_singleton es e ih =>
      obtain ⟨m, hm, hstep⟩ := run_snoc_eq_some.mp h
      exact run_snoc_eq_some.mpr ⟨m.process, ih hm, Observed.step_process hstep⟩

/-- Every run can be observed. -/
theorem observedRun_of_run {i : Init} {es : List Event} (h : processRun i es = some s) :
    ∃ o, observedRun i es = some o ∧ o.process = s := by
  induction es using List.reverseRecOn generalizing s with
  | nil =>
      obtain rfl : Process.initial i = s := by simpa [processRun] using h
      exact ⟨.initial i, rfl, rfl⟩
  | append_singleton es e ih =>
      obtain ⟨m, hm, hstep⟩ := run_snoc_eq_some.mp h
      obtain ⟨o, ho, rfl⟩ := ih hm
      have hsome : o.step e ≠ none := by
        unfold Observed.step
        rw [hstep]
        exact Option.some_ne_none _
      obtain ⟨o', ho'⟩ := Option.ne_none_iff_exists'.mp hsome
      refine ⟨o', run_snoc_eq_some.mpr ⟨o, ho, ho'⟩, ?_⟩
      exact Option.some.inj ((Observed.step_process ho').symm.trans hstep)

/-- An event of another thread leaves what is observed of a thread as it is. -/
theorem Observed.step_other (h : o.step e = some o') (ht : t ≠ e.thread) :
    o'.called t = o.called t ∧ o'.taken t = o.taken t := by
  obtain ⟨s', hs', rfl⟩ := Option.map_eq_some_iff.mp h
  obtain ⟨u, action⟩ := e
  cases action with
  | call c => exact ⟨Function.update_of_ne ht .., Function.update_of_ne ht ..⟩
  | step m r => exact ⟨rfl, Function.update_of_ne ht ..⟩
  | exit => exact ⟨rfl, rfl⟩
  | detach thread target => exact ⟨rfl, rfl⟩

/-- A thread that ends, or detaches another, keeps its place and its locals. -/
theorem Stepped.idle (h : Stepped s e s')
    (he : e.action = .exit ∨ ∃ thread target, e.action = .detach thread target) :
    (s'.threads e.thread).todo = (s.threads e.thread).todo ∧
      (s'.threads e.thread).hits = (s.threads e.thread).hits ∧
      (s'.threads e.thread).hit = (s.threads e.thread).hit := by
  cases h with
  | call hrun htodo => simp at he
  | micro hrun htodo heff => simp at he
  | exit hrun htodo => simp
  | @detach u thread target hrun htodo hjoin =>
      rcases eq_or_ne u target with rfl | hne
      · simp
      · simp [setThread_of_ne hne]

/-- A thread calls a wrapper. -/
theorem Observed.Traced.call (hstep : o.process.step ⟨t, .call c⟩ = some s) :
    Observed.Traced
      { process := s
        called := Function.update o.called t (some c)
        taken := Function.update o.taken t [] } t := by
  have hst := Process.stepped hstep
  refine ⟨fun x hx => by simp at hx, fun c' hc' hlocks => .inl ⟨?_, by simp⟩⟩
  obtain rfl : c = c' := by simpa using hc'
  rcases hst.todo_self with ⟨c', hc', htodo⟩ | ⟨m, r, rest, s₁, haction, -⟩ | htodo
  · obtain rfl := Action.call.inj hc'
    simpa using htodo
  · simp at haction
  · cases hst with
    | call hrun hold => simp

/-- A thread takes the next step of its wrapper. -/
theorem Observed.Traced.micro (h : o.Traced t)
    (hstep : o.process.step ⟨t, .step m r⟩ = some s) :
    Observed.Traced { o with
      process := s
      taken := Function.update o.taken t (o.taken t ++ [⟨o.process, m, r, s⟩]) } t := by
  have hst := Process.stepped hstep
  refine ⟨fun x hx => ?_, fun c hc hlocks => ?_⟩
  · simp only [Function.update_self, List.mem_append, List.mem_singleton] at hx
    rcases hx with hx | rfl
    · exact h.steps x hx
    · exact hstep
  · simp only [Function.update_self]
    obtain ⟨rest, s₁, hold, rfl⟩ : ∃ rest, ∃ s₁ : Process,
        (o.process.threads t).todo = m :: rest ∧ s = s₁.setTodo t (o.process.next r rest m) := by
      cases hst with
      | micro hrun htodo heff => exact ⟨_, _, htodo, rfl⟩
    rcases h.place c hc hlocks with ⟨hplace, hzero⟩ | ⟨x, key, mode, -, -, -, hnil⟩
    · rw [hold] at hplace
      have hmem : m ∈ c.script := by
        rw [← hplace]
        exact List.mem_append_right _ List.mem_cons_self
      simp only [setTodo_self]
      rcases next_of_locking (r := r) (Call.locking_of_mem hlocks hmem) o.process rest with
        ⟨hnext, hrc⟩ | ⟨⟨key, mode, rfl⟩, hrc, hnext⟩
      · left
        refine ⟨by simpa [hnext] using hplace, fun x hx key mode hm => ?_⟩
        rcases List.mem_append.mp hx with hx | hx
        · exact hzero x hx key mode hm
        · obtain rfl := List.mem_singleton.mp hx
          exact hrc key mode hm
      · right
        have hfirst : (o.taken t).map Taken.m = [] := Call.trylock_head hlocks hplace
        have htaken : o.taken t = [] := List.map_eq_nil_iff.mp hfirst
        exact ⟨_, key, mode, by rw [htaken, List.nil_append], rfl, hrc, hnext⟩
    · rw [hnil] at hold
      exact absurd hold (by simp)

/-- A step that leaves the place of a thread and what is observed of it alone. -/
theorem Observed.Traced.same (h : o.Traced t) (hcalled : o'.called t = o.called t)
    (htaken : o'.taken t = o.taken t)
    (htodo : (o'.process.threads t).todo = (o.process.threads t).todo) : o'.Traced t := by
  refine ⟨by rw [htaken]; exact h.steps, fun c hc hlocks => ?_⟩
  rw [htaken, htodo]
  exact h.place c (hcalled ▸ hc) hlocks

/-- What is known of the last call of a thread stays known. -/
theorem Observed.Traced.step (hwf : o.process.WF) (h : o.Traced t) (hstep : o.step e = some o') :
    o'.Traced t := by
  have hst := Process.stepped (Observed.step_process hstep)
  rcases eq_or_ne t e.thread with rfl | ht
  · obtain ⟨u, action⟩ := e
    obtain ⟨s', hs', rfl⟩ := Option.map_eq_some_iff.mp hstep
    cases action with
    | call c => exact Observed.Traced.call hs'
    | step m r => exact h.micro hs'
    | exit => exact h.same rfl rfl (hst.idle (.inl rfl)).1
    | detach thread target => exact h.same rfl rfl (hst.idle (.inr ⟨thread, target, rfl⟩)).1
  · obtain ⟨hcalled, htaken⟩ := Observed.step_other hstep ht
    exact h.same hcalled htaken (hst.todo_other hwf ht)

/-- In every run, what a thread has taken is a part of the script of its last call. -/
theorem traced_of_run {i : Init} {es : List Event} (h : observedRun i es = some o) (t : ℕ) :
    o.process.WF ∧ o.Traced t := by
  refine run_invariant (I := fun o : Observed => o.process.WF ∧ o.Traced t) ⟨wf_initial i, ?_⟩
    (fun m e m' hm hstep => ⟨?_, hm.2.step hm.1 hstep⟩) es h
  · refine ⟨fun x hx => absurd hx List.not_mem_nil, fun c hc => absurd hc ?_⟩
    simp [Observed.initial]
  · exact hm.1.step (Process.stepped (Observed.step_process hstep))

end Calls

/-! ## What a step records -/

section Records

variable {s : Process} {sh sh' : SyncShard} {t key i : ℕ} {th : RzThread} {ok : Bool} {x : Taken}

theorem has_of_syncIndex (h : syncIndex sh.ents key = some i) : sh.has key = true := by
  obtain ⟨hi, hkey, -⟩ := List.findIdx?_eq_some_iff_getElem.mp h
  exact List.any_eq_true.mpr ⟨_, List.getElem_mem hi, hkey⟩

theorem has_of_none (h : syncIndex sh.ents key = none) : sh.has key = false :=
  List.any_eq_false.mpr fun e he => by simpa using List.findIdx?_eq_none_iff.mp h e he

/-- Setting the clock of an object does not take it away. -/
theorem has_setSync (h : syncIndex sh.ents key = some i) (m : RzSync) :
    (sh.setSync i m).has key = true := by
  have hfind : (sh.setSync i m).ents.find? (fun e => e.key == key) = some ⟨key, m⟩ :=
    (find?_modify_sync h m).trans (if_pos rfl)
  have hmem := List.mem_of_find?_eq_some hfind
  exact List.any_eq_true.mpr ⟨_, hmem, beq_self_eq_true key⟩

/-- Without room `sync_for_in` returns `NULL`. -/
theorem syncForIn_none (h : sh.hasRoom key ok = false) :
    syncForIn sh key ok = none ∧ sh.has key = false := by
  simp only [SyncShard.hasRoom, Bool.or_eq_false_iff, decide_eq_false_iff_not, not_not] at h
  obtain ⟨⟨hhas, hfull⟩, hok⟩ := h
  cases hidx : syncIndex sh.ents key with
  | some i =>
      rw [has_of_syncIndex hidx] at hhas
      simp at hhas
  | none => exact ⟨by simp [syncForIn, hidx, hfull, hok], hhas⟩

/-- With room it hands an object out. -/
theorem syncForIn_some (h : sh.hasRoom key ok = true) :
    ∃ i sh', syncForIn sh key ok = some (i, sh') := by
  unfold syncForIn
  cases hidx : syncIndex sh.ents key with
  | some i => exact ⟨i, sh, rfl⟩
  | none =>
      by_cases hfull : sh.ents.length = sh.cap
      · have hok : ok = true := by simpa [SyncShard.hasRoom, has_of_none hidx, hfull] using h
        simp [hfull, hok]
      · simp [hfull]

/-- Where there is no object and no room for one, nothing is recorded. -/
theorem acquireStep_none (h : (s.syncs (syncShardOf key)).hasRoom key ok = false) :
    s.acquireStep t th key ok = s := by
  unfold Process.acquireStep
  rw [(syncForIn_none h).1]

theorem releaseStep_none (h : (s.syncs (syncShardOf key)).hasRoom key ok = false) :
    s.releaseStep t th key ok = s := by
  unfold Process.releaseStep
  rw [(syncForIn_none h).1]

theorem tracks_set (h : sh.has key = true) :
    ((s.setSync key sh).setHandle t (.live th)).Tracks t key := by
  have hshard : (s.setSync key sh).syncs (syncShardOf key) = sh := Function.update_self ..
  refine ⟨⟨th, setHandle_self⟩, ?_⟩
  rw [setHandle_syncs, hshard]
  exact h

/-- The lock has an object behind an acquire for which there was room. -/
theorem acquireStep_tracks (h : (s.syncs (syncShardOf key)).hasRoom key ok = true) :
    (s.acquireStep t th key ok).Tracks t key := by
  obtain ⟨i, sh, hfor⟩ := syncForIn_some h
  unfold Process.acquireStep
  rw [hfor]
  exact tracks_set (has_of_syncIndex (syncForIn_spec hfor).1)

theorem releaseStep_tracks (h : (s.syncs (syncShardOf key)).hasRoom key ok = true) :
    (s.releaseStep t th key ok).Tracks t key := by
  obtain ⟨i, sh, hfor⟩ := syncForIn_some h
  unfold Process.releaseStep
  rw [hfor]
  exact tracks_set (has_setSync (syncForIn_spec hfor).1 _)

theorem hasRoom_of_live (hth : s.handles t = .live th) :
    s.hasRoom t key ok = (s.syncs (syncShardOf key)).hasRoom key ok := by
  rw [Process.hasRoom, hth, Handle.isLive, Bool.true_and]

/-- A thread without a handle has no room. -/
theorem hasRoom_of_absent (ht : s.handles t = .absent) : s.hasRoom t key ok = false := by
  rw [Process.hasRoom, ht, Handle.isLive, Bool.false_and]

/-- A lock that is not tracked before a step that changes nothing is not tracked behind it. -/
theorem not_tracks_of_noRoom (h : s.hasRoom t key ok = false) : ¬ s.Tracks t key := by
  rintro ⟨⟨th, hth⟩, hhas⟩
  rw [hasRoom_of_live hth] at h
  rw [(syncForIn_none h).2] at hhas
  simp at hhas

/-- An acquire is recorded exactly if there is room for it. -/
theorem joined_iff (hm : x.m = .acquire key)
    (hstep : x.before.step ⟨t, .step x.m x.r⟩ = some x.after) :
    x.Joined t key ↔ x.before.hasRoom t key x.r.alloc = true := by
  obtain ⟨s, m, r, s'⟩ := x
  obtain rfl : m = .acquire key := hm
  have hst : Stepped s ⟨t, .step (.acquire key) r⟩ s' := Process.stepped hstep
  cases hst with
  | @micro _ _ _ rest s₁ hrun htodo heff =>
      cases hroom : s.hasRoom t key r.alloc with
      | false =>
          refine iff_of_false (fun h => ?_) (by simp)
          have htracks : s₁.Tracks t key := h.tracks
          cases heff with
          | quiet hquiet => simp [Micro.quiet] at hquiet
          | skipped hneeds ht => exact not_tracks_of_noRoom hroom htracks
          | @acquire th _ ht =>
              rw [acquireStep_none (by rwa [hasRoom_of_live ht] at hroom)] at htracks
              exact not_tracks_of_noRoom hroom htracks
      | true =>
          refine iff_of_true ?_ rfl
          cases heff with
          | quiet hquiet => simp [Micro.quiet] at hquiet
          | skipped hneeds ht => simp [hasRoom_of_absent ht] at hroom
          | @acquire th _ ht =>
              rw [hasRoom_of_live ht] at hroom
              exact ⟨rfl, acquireStep_tracks hroom, (acquireStep_clocks ht).1⟩

/-- A release is recorded exactly if there is room for it. -/
theorem published_iff (hm : x.m = .release key)
    (hstep : x.before.step ⟨t, .step x.m x.r⟩ = some x.after) :
    x.Published t key ↔ x.before.hasRoom t key x.r.alloc = true := by
  obtain ⟨s, m, r, s'⟩ := x
  obtain rfl : m = .release key := hm
  have hst : Stepped s ⟨t, .step (.release key) r⟩ s' := Process.stepped hstep
  cases hst with
  | @micro _ _ _ rest s₁ hrun htodo heff =>
      cases hroom : s.hasRoom t key r.alloc with
      | false =>
          refine iff_of_false (fun h => ?_) (by simp)
          have htracks : s₁.Tracks t key := h.tracks
          cases heff with
          | quiet hquiet => simp [Micro.quiet] at hquiet
          | skipped hneeds ht => exact not_tracks_of_noRoom hroom htracks
          | @release th _ ht =>
              rw [releaseStep_none (by rwa [hasRoom_of_live ht] at hroom)] at htracks
              exact not_tracks_of_noRoom hroom htracks
      | true =>
          refine iff_of_true ?_ rfl
          cases heff with
          | quiet hquiet => simp [Micro.quiet] at hquiet
          | skipped hneeds ht => simp [hasRoom_of_absent ht] at hroom
          | @release th _ ht =>
              rw [hasRoom_of_live ht] at hroom
              obtain ⟨i, sh, hfor⟩ := syncForIn_some hroom
              have hsome : (syncForIn (s.syncs (syncShardOf key)) key r.alloc).isSome = true := by
                rw [hfor]
                rfl
              obtain ⟨hmoved, hpublished⟩ := releaseStep_clocks ht hsome
              refine ⟨rfl, releaseStep_tracks hroom, ?_, th, ht, hmoved⟩
              exact (hpublished key).trans (if_pos rfl)

end Records

/-! ## What is recorded and what happened -/

/-- What is recorded is what happened, lock by lock. -/
def EventsMatch (t : ℕ) (trace : List Taken) : Prop :=
  (∀ key, RecordsAcquire t key trace ↔ acquired key trace = true) ∧
    ∀ key, RecordsRelease t key trace ↔ released key trace = true

/-- The steps of a trace are steps of thread `t`. -/
def StepsOf (t : ℕ) (trace : List Taken) : Prop :=
  ∀ x ∈ trace, x.before.step ⟨t, .step x.m x.r⟩ = some x.after

/-- A trace that imports at one step, and records an acquire at one step, of one lock. -/
structure AcquiresOnce (key : ℕ) (trace : List Taken) (a d : Taken) : Prop where
  imports_mem : a ∈ trace
  record_mem : d ∈ trace
  imports : a.m.imports = some key
  record : d.m = .acquire key
  only : ∀ x ∈ trace, x.m.imports ≠ none → x = a
  onlyRecord : ∀ x ∈ trace, ∀ key', x.m = .acquire key' → x = d

/-- A trace that records a release at one step, and publishes at one step, of one lock. -/
structure ReleasesOnce (key : ℕ) (trace : List Taken) (b d : Taken) : Prop where
  record_mem : b ∈ trace
  publishes_mem : d ∈ trace
  record : b.m = .release key
  publishes : d.m.publishes = some key
  onlyRecord : ∀ x ∈ trace, ∀ key', x.m = .release key' → x = b
  only : ∀ x ∈ trace, x.m.publishes ≠ none → x = d

section Match

variable {t key : ℕ} {mode : Mode} {trace : List Taken} {x a b d f g k : Taken}

theorem acquired_iff : acquired key trace = true ↔
    ∃ x ∈ trace, x.m.imports = some key ∧ x.r.done = true := by
  simp [acquired]

theorem released_iff : released key trace = true ↔
    ∃ x ∈ trace, x.m.publishes = some key ∧ x.r.done = true := by
  simp [released]

/-- What is recorded, in terms of the room for it. -/
theorem recordsAcquire_iff (hsteps : StepsOf t trace) : RecordsAcquire t key trace ↔
    (trace.any fun x => x.m = .acquire key && x.before.hasRoom t key x.r.alloc) = true := by
  simp only [List.any_eq_true, Bool.and_eq_true, decide_eq_true_eq]
  constructor
  · rintro ⟨x, hx, hjoin⟩
    exact ⟨x, hx, hjoin.micro, (joined_iff hjoin.micro (hsteps x hx)).mp hjoin⟩
  · rintro ⟨x, hx, hm, hroom⟩
    exact ⟨x, hx, (joined_iff hm (hsteps x hx)).mpr hroom⟩

theorem recordsRelease_iff (hsteps : StepsOf t trace) : RecordsRelease t key trace ↔
    (trace.any fun x => x.m = .release key && x.before.hasRoom t key x.r.alloc) = true := by
  simp only [List.any_eq_true, Bool.and_eq_true, decide_eq_true_eq]
  constructor
  · rintro ⟨x, hx, hpub⟩
    exact ⟨x, hx, hpub.micro, (published_iff hpub.micro (hsteps x hx)).mp hpub⟩
  · rintro ⟨x, hx, hm, hroom⟩
    exact ⟨x, hx, (published_iff hm (hsteps x hx)).mpr hroom⟩

theorem AcquiresOnce.room_eq (h : AcquiresOnce key trace a d) :
    roomToAcquire t trace = d.before.hasRoom t key d.r.alloc := by
  rw [Bool.eq_iff_iff, roomToAcquire, List.all_eq_true]
  constructor
  · intro hroom
    have hd := hroom d h.record_mem
    rwa [h.record] at hd
  · intro hroom x hx
    cases hm : x.m with
    | acquire key' =>
        obtain rfl := h.onlyRecord x hx key' hm
        obtain rfl := Micro.acquire.inj (hm.symm.trans h.record)
        exact hroom
    | _ => rfl

theorem ReleasesOnce.room_eq (h : ReleasesOnce key trace b d) :
    roomToRelease t trace = b.before.hasRoom t key b.r.alloc := by
  rw [Bool.eq_iff_iff, roomToRelease, List.all_eq_true]
  constructor
  · intro hroom
    have hb := hroom b h.record_mem
    rwa [h.record] at hb
  · intro hroom x hx
    cases hm : x.m with
    | release key' =>
        obtain rfl := h.onlyRecord x hx key' hm
        obtain rfl := Micro.release.inj (hm.symm.trans h.record)
        exact hroom
    | _ => rfl

/-- The acquires that are recorded are those that happened, exactly if the lock is obtained
just when there is room to record it. -/
theorem AcquiresOnce.match_iff (h : AcquiresOnce key trace a d) (hsteps : StepsOf t trace) :
    (∀ key', RecordsAcquire t key' trace ↔ acquired key' trace = true) ↔
      a.r.done = roomToAcquire t trace := by
  have hjoined := joined_iff h.record (hsteps d h.record_mem)
  have hrecords : ∀ key', RecordsAcquire t key' trace ↔ key' = key ∧ d.Joined t key := by
    intro key'
    constructor
    · rintro ⟨x, hx, hjoin⟩
      obtain rfl := h.onlyRecord x hx key' hjoin.micro
      obtain rfl := Micro.acquire.inj (hjoin.micro.symm.trans h.record)
      exact ⟨rfl, hjoin⟩
    · rintro ⟨rfl, hjoin⟩
      exact ⟨d, h.record_mem, hjoin⟩
  have hacquired : ∀ key', acquired key' trace = true ↔ key' = key ∧ a.r.done = true := by
    intro key'
    rw [acquired_iff]
    constructor
    · rintro ⟨x, hx, himports, hdone⟩
      obtain rfl := h.only x hx (by simp [himports])
      exact ⟨Option.some.inj (himports.symm.trans h.imports), hdone⟩
    · rintro ⟨rfl, hdone⟩
      exact ⟨a, h.imports_mem, h.imports, hdone⟩
  rw [h.room_eq, Bool.eq_iff_iff, ← hjoined]
  constructor
  · intro hall
    have hkey := hall key
    rw [hrecords, hacquired] at hkey
    simpa [iff_comm] using hkey
  · intro hdone key'
    rw [hrecords, hacquired, hdone]

theorem ReleasesOnce.match_iff (h : ReleasesOnce key trace b d) (hsteps : StepsOf t trace) :
    (∀ key', RecordsRelease t key' trace ↔ released key' trace = true) ↔
      d.r.done = roomToRelease t trace := by
  have hpublished := published_iff h.record (hsteps b h.record_mem)
  have hrecords : ∀ key', RecordsRelease t key' trace ↔ key' = key ∧ b.Published t key := by
    intro key'
    constructor
    · rintro ⟨x, hx, hpub⟩
      obtain rfl := h.onlyRecord x hx key' hpub.micro
      obtain rfl := Micro.release.inj (hpub.micro.symm.trans h.record)
      exact ⟨rfl, hpub⟩
    · rintro ⟨rfl, hpub⟩
      exact ⟨b, h.record_mem, hpub⟩
  have hreleased : ∀ key', released key' trace = true ↔ key' = key ∧ d.r.done = true := by
    intro key'
    rw [released_iff]
    constructor
    · rintro ⟨x, hx, hpublishes, hdone⟩
      obtain rfl := h.only x hx (by simp [hpublishes])
      exact ⟨Option.some.inj (hpublishes.symm.trans h.publishes), hdone⟩
    · rintro ⟨rfl, hdone⟩
      exact ⟨d, h.publishes_mem, h.publishes, hdone⟩
  rw [h.room_eq, Bool.eq_iff_iff, ← hpublished]
  constructor
  · intro hall
    have hkey := hall key
    rw [hrecords, hreleased] at hkey
    simpa [iff_comm] using hkey
  · intro hdone key'
    rw [hrecords, hreleased, hdone]

/-- A trace without a release, and with nothing given up. -/
theorem releases_none (hrecord : ∀ x ∈ trace, ∀ key', x.m ≠ .release key')
    (hpublishes : ∀ x ∈ trace, x.m.publishes = none) (key' : ℕ) :
    RecordsRelease t key' trace ↔ released key' trace = true := by
  refine iff_of_false ?_ ?_
  · rintro ⟨x, hx, hpub⟩
    exact hrecord x hx key' hpub.micro
  · rw [released_iff]
    rintro ⟨x, hx, hpub, -⟩
    simp [hpublishes x hx] at hpub

/-- A trace without an acquire, and with nothing obtained. -/
theorem acquires_none (hrecord : ∀ x ∈ trace, ∀ key', x.m ≠ .acquire key')
    (himports : ∀ x ∈ trace, x.m.imports = none) (key' : ℕ) :
    RecordsAcquire t key' trace ↔ acquired key' trace = true := by
  refine iff_of_false ?_ ?_
  · rintro ⟨x, hx, hjoin⟩
    exact hrecord x hx key' hjoin.micro
  · rw [acquired_iff]
    rintro ⟨x, hx, himp, -⟩
    simp [himports x hx] at himp

/-- A lock, or a try-lock that returns 0. -/
theorem eventsMatch_lock (hsteps : StepsOf t [a, b, d])
    (ha : a.m = .lock key mode ∨ a.m = .trylock key mode ∧ a.r.rc = 0) (hb : b.m = .self)
    (hd : d.m = .acquire key) :
    EventsMatch t [a, b, d] ↔ ∀ x ∈ [a, b, d], x.fits t [a, b, d] = true := by
  have hacq : AcquiresOnce key [a, b, d] a d := by
    refine ⟨by simp, by simp, ?_, hd, ?_, ?_⟩
    · rcases ha with ha | ⟨ha, -⟩ <;> simp [ha, Micro.imports]
    · simp [hb, hd, Micro.imports]
    · rcases ha with ha | ⟨ha, -⟩ <;> simp [ha, hb]
  have hrel : ∀ key', RecordsRelease t key' [a, b, d] ↔ released key' [a, b, d] = true := by
    apply releases_none
    · rcases ha with ha | ⟨ha, -⟩ <;> simp [ha, hb, hd]
    · rcases ha with ha | ⟨ha, -⟩ <;> simp [ha, hb, hd, Micro.publishes]
  have hfits : (∀ x ∈ [a, b, d], x.fits t [a, b, d] = true) ↔
      a.r.done = roomToAcquire t [a, b, d] := by
    rcases ha with ha | ⟨ha, hrc⟩
    · simp [Taken.fits, ha, hb, hd]
    · simp [Taken.fits, ha, hrc, hb, hd]
  rw [hfits, ← hacq.match_iff hsteps]
  exact and_iff_left hrel

/-- A try-lock that returns something else. -/
theorem eventsMatch_failed (ha : a.m = .trylock key mode) (hrc : a.r.rc ≠ 0) :
    EventsMatch t [a] ↔ ∀ x ∈ [a], x.fits t [a] = true := by
  have hrel : ∀ key', RecordsRelease t key' [a] ↔ released key' [a] = true :=
    releases_none (by simp [ha]) (by simp [ha, Micro.publishes])
  have hacq : ∀ key', ¬ RecordsAcquire t key' [a] := by
    rintro key' ⟨x, hx, hjoin⟩
    have hm := hjoin.micro
    rw [List.mem_singleton.mp hx, ha] at hm
    simp at hm
  have hacquired : ∀ key', acquired key' [a] = true ↔ key = key' ∧ a.r.done = true := by
    intro key'
    simp [acquired, ha, Micro.imports]
  have hnot : (a.r.rc == 0) = false := beq_false_of_ne hrc
  have hfits : (∀ x ∈ [a], x.fits t [a] = true) ↔ a.r.done = false := by
    simp [Taken.fits, ha, hnot]
  rw [hfits]
  constructor
  · intro h
    have hkey := mt (h.1 key).mpr (hacq key)
    simpa [hacquired] using hkey
  · intro hdone
    refine ⟨fun key' => iff_of_false (hacq key') ?_, hrel⟩
    simp [hacquired, hdone]

theorem eventsMatch_unlock (hsteps : StepsOf t [a, b, d]) (ha : a.m = .self)
    (hb : b.m = .release key) (hd : d.m = .unlock key) :
    EventsMatch t [a, b, d] ↔ ∀ x ∈ [a, b, d], x.fits t [a, b, d] = true := by
  have hrel : ReleasesOnce key [a, b, d] b d :=
    ⟨by simp, by simp, hb, by simp [hd, Micro.publishes], by simp [ha, hd],
      by simp [ha, hb, Micro.publishes]⟩
  have hacq : ∀ key', RecordsAcquire t key' [a, b, d] ↔ acquired key' [a, b, d] = true :=
    acquires_none (by simp [ha, hb, hd]) (by simp [ha, hb, hd, Micro.imports])
  have hfits : (∀ x ∈ [a, b, d], x.fits t [a, b, d] = true) ↔
      d.r.done = roomToRelease t [a, b, d] := by
    simp [Taken.fits, ha, hb, hd]
  rw [hfits, ← hrel.match_iff hsteps]
  exact and_iff_right hacq

/-- A wait on a condition variable: the release and the unlock, the lock and the acquire. -/
theorem eventsMatch_wait (hsteps : StepsOf t [a, b, d, f, g, k]) (ha : a.m = .self)
    (hb : b.m = .release key) (hd : d.m = .waitUnlock key) (hf : f.m = .waitLock key)
    (hg : g.m = .self) (hk : k.m = .acquire key) :
    EventsMatch t [a, b, d, f, g, k] ↔
      ∀ x ∈ [a, b, d, f, g, k], x.fits t [a, b, d, f, g, k] = true := by
  have hrel : ReleasesOnce key [a, b, d, f, g, k] b d :=
    ⟨by simp, by simp, hb, by simp [hd, Micro.publishes], by simp [ha, hd, hf, hg, hk],
      by simp [ha, hb, hf, hg, hk, Micro.publishes]⟩
  have hacq : AcquiresOnce key [a, b, d, f, g, k] f k :=
    ⟨by simp, by simp, by simp [hf, Micro.imports], hk,
      by simp [ha, hb, hd, hg, hk, Micro.imports], by simp [ha, hb, hd, hf, hg]⟩
  have hfits : (∀ x ∈ [a, b, d, f, g, k], x.fits t [a, b, d, f, g, k] = true) ↔
      f.r.done = roomToAcquire t [a, b, d, f, g, k] ∧
        d.r.done = roomToRelease t [a, b, d, f, g, k] := by
    simp [Taken.fits, ha, hb, hd, hf, hg, hk, and_comm]
  rw [hfits, ← hacq.match_iff hsteps, ← hrel.match_iff hsteps]
  rfl

/-- A step that records nothing leaves the clocks alone. -/
theorem sameClocks_of_step (hm : x.m.locking = true)
    (hstep : x.before.step ⟨t, .step x.m x.r⟩ = some x.after)
    (hjoin : ∀ key, ¬ x.Joined t key) (hpub : ∀ key, ¬ x.Published t key) :
    SameClocks x.before x.after := by
  have hacquire : ∀ key, x.m = .acquire key → ¬ x.before.hasRoom t key x.r.alloc = true :=
    fun key hm => (joined_iff hm hstep).not.mp (hjoin key)
  have hrelease : ∀ key, x.m = .release key → ¬ x.before.hasRoom t key x.r.alloc = true :=
    fun key hm => (published_iff hm hstep).not.mp (hpub key)
  obtain ⟨s, m, r, s'⟩ := x
  have hst : Stepped s ⟨t, .step m r⟩ s' := Process.stepped hstep
  cases hst with
  | @micro _ _ _ rest s₁ hrun htodo heff =>
      -- the place in the wrapper has no clock
      show SameClocks s s₁
      cases heff with
      | quiet hquiet => exact ⟨fun _ _ h => h, fun _ => rfl⟩
      | skipped hneeds ht => exact ⟨fun _ _ h => h, fun _ => rfl⟩
      | self ht => exact ⟨fun _ _ h => h, fun _ => rfl⟩
      | selfInit ht =>
          refine ⟨fun u th hu => ?_, fun _ => rfl⟩
          have hne : u ≠ t := by
            rintro rfl
            simp [ht] at hu
          exact (setHandle_of_ne hne).trans hu
      | @acquire th key ht =>
          have hroom := hacquire key rfl
          rw [hasRoom_of_live ht, Bool.not_eq_true] at hroom
          rw [acquireStep_none hroom]
          exact ⟨fun _ _ h => h, fun _ => rfl⟩
      | @release th key ht =>
          have hroom := hrelease key rfl
          rw [hasRoom_of_live ht, Bool.not_eq_true] at hroom
          rw [releaseStep_none hroom]
          exact ⟨fun _ _ h => h, fun _ => rfl⟩
      | _ => simp [Micro.locking] at hm

/-- Where nothing is recorded no clock changes, so the events alone decide. -/
theorem followsOutcome_iff (hlocking : ∀ x ∈ trace, x.m.locking = true)
    (hsteps : StepsOf t trace) : FollowsOutcome t trace ↔ EventsMatch t trace := by
  constructor
  · exact fun h => ⟨h.acquire, h.release⟩
  · intro h
    refine ⟨h.1, h.2, fun hacq hrel x hx => ?_⟩
    apply sameClocks_of_step (hlocking x hx) (hsteps x hx)
    · intro key hjoin
      have hdone := (h.1 key).mp ⟨x, hx, hjoin⟩
      simp [hacq key] at hdone
    · intro key hpub
      have hdone := (h.2 key).mp ⟨x, hx, hpub⟩
      simp [hrel key] at hdone

/-- Three steps, by name. -/
theorem steps_of_three {m₁ m₂ m₃ : Micro} (h : trace.map Taken.m = [m₁, m₂, m₃]) :
    ∃ a b d, trace = [a, b, d] ∧ a.m = m₁ ∧ b.m = m₂ ∧ d.m = m₃ := by
  obtain ⟨a, l, rfl, ha, h⟩ := List.map_eq_cons_iff.mp h
  obtain ⟨b, l, rfl, hb, h⟩ := List.map_eq_cons_iff.mp h
  obtain ⟨d, l, rfl, hd, h⟩ := List.map_eq_cons_iff.mp h
  obtain rfl := List.map_eq_nil_iff.mp h
  exact ⟨a, b, d, rfl, ha, hb, hd⟩

/-- The condition is exact for a call that has returned. -/
theorem eventsMatch_of_returned {o : Observed} {c : Call} (h : o.Traced t)
    (hlocks : c.locks = true) (hret : o.Returned t c) :
    EventsMatch t (o.taken t) ↔ ∀ x ∈ o.taken t, x.fits t (o.taken t) = true := by
  obtain ⟨hcalled, htodo⟩ := hret
  have hsteps : StepsOf t (o.taken t) := h.steps
  rcases h.place c hcalled hlocks with ⟨hplace, hzero⟩ | ⟨x, key, mode, htaken, hm, hrc, -⟩
  · rw [htodo, List.append_nil] at hplace
    generalize o.taken t = trace at hplace hzero hsteps
    obtain ⟨key, mode, hscript | hscript | hscript | hscript⟩ := Call.script_of_locks hlocks
    · rw [hscript] at hplace
      obtain ⟨a, b, d, rfl, ha, hb, hd⟩ := steps_of_three hplace
      exact eventsMatch_lock hsteps (Or.inl ha) hb hd
    · rw [hscript] at hplace
      obtain ⟨a, b, d, rfl, ha, hb, hd⟩ := steps_of_three hplace
      have hrc := hzero a List.mem_cons_self key mode ha
      exact eventsMatch_lock hsteps (Or.inr ⟨ha, hrc⟩) hb hd
    · rw [hscript] at hplace
      obtain ⟨a, b, d, rfl, ha, hb, hd⟩ := steps_of_three hplace
      exact eventsMatch_unlock hsteps ha hb hd
    · rw [hscript] at hplace
      -- the wait takes three steps before it sleeps and three after
      have hparts : trace.map Taken.m = [.self, .release key, .waitUnlock key] ++
          [.waitLock key, .self, .acquire key] := hplace
      obtain ⟨l, l', rfl, hbefore, hafter⟩ := List.map_eq_append_iff.mp hparts
      obtain ⟨a, b, d, rfl, ha, hb, hd⟩ := steps_of_three hbefore
      obtain ⟨f, g, k, rfl, hf, hg, hk⟩ := steps_of_three hafter
      exact eventsMatch_wait hsteps ha hb hd hf hg hk
  · rw [htaken]
    exact eventsMatch_failed hm hrc

/-- The steps of a call that has been made are steps of its script. -/
theorem Observed.Traced.locking {o : Observed} {c : Call} (h : o.Traced t)
    (hlocks : c.locks = true) (hcalled : o.called t = some c) :
    ∀ x ∈ o.taken t, x.m.locking = true := by
  intro x hx
  rcases h.place c hcalled hlocks with ⟨hplace, -⟩ | ⟨y, key, mode, htaken, hm, -⟩
  · refine Call.locking_of_mem hlocks ?_
    rw [← hplace]
    exact List.mem_append_left _ (List.mem_map_of_mem hx)
  · rw [htaken, List.mem_singleton] at hx
    rw [hx, hm]
    rfl

/-- In every run, what the last locking call of a thread has recorded when it returns
follows what happened exactly when the system's answers fit. -/
theorem lockEvents_follow_iff {i : Init} {es : List Event} {o : Observed} {c : Call}
    (hrun : observedRun i es = some o) (hlocks : c.locks = true) (hret : o.Returned t c) :
    FollowsOutcome t (o.taken t) ↔ ∀ x ∈ o.taken t, x.fits t (o.taken t) = true := by
  have htraced := (traced_of_run hrun t).2
  exact (followsOutcome_iff (htraced.locking hlocks hret.1) htraced.steps).trans
    (eventsMatch_of_returned htraced hlocks hret)

end Match

/-! ## Rare return codes -/

/-- What is observed of thread `t` at a lock: the rest of its wrapper, whether it has got
and given up the lock, and whether there was room for an acquire and for a release. -/
def Observed.summary (o : Observed) (t key : ℕ) : Script × Bool × Bool × Bool × Bool :=
  ((o.process.threads t).todo, acquired key (o.taken t), released key (o.taken t),
    (o.taken t).any fun x => x.m = .acquire key && x.before.hasRoom t key x.r.alloc,
    (o.taken t).any fun x => x.m = .release key && x.before.hasRoom t key x.r.alloc)

/-- A try-lock that returns `EOWNERDEAD` and holds the lock. -/
def ownerDied : List Event :=
  [⟨0, .call (.pthreadMutexTrylock 64)⟩,
    ⟨0, .step (.trylock 64 .exclusive) { Result.ok with rc := 130 }⟩]

/-- A lock that returns `EDEADLK`. -/
def deadlock : List Event :=
  [⟨0, .call (.pthreadMutexLock 64)⟩,
    ⟨0, .step (.lock 64 .exclusive) { Result.ok with rc := 35, done := false }⟩,
    ⟨0, .step .self .ok⟩, ⟨0, .step (.acquire 64) .ok⟩]

/-- An unlock that returns `EPERM`. -/
def notOwner : List Event :=
  [⟨0, .call (.pthreadMutexUnlock 64)⟩, ⟨0, .step .self .ok⟩, ⟨0, .step (.release 64) .ok⟩,
    ⟨0, .step (.unlock 64) { Result.ok with rc := 1, done := false }⟩]

/-- A run with its summary, whose call has returned. -/
theorem observed_of_summary (es : List Event) (t key : ℕ) (c : Call)
    (acq rel recAcq recRel : Bool)
    (h : (observedRun .ok es).map (fun o => (o.called t, o.summary t key)) =
      some (some c, [], acq, rel, recAcq, recRel)) :
    ∃ o, observedRun .ok es = some o ∧ o.Returned t c ∧
      (acquired key (o.taken t) = acq ∧ (RecordsAcquire t key (o.taken t) ↔ recAcq = true)) ∧
      released key (o.taken t) = rel ∧ (RecordsRelease t key (o.taken t) ↔ recRel = true) := by
  obtain ⟨o, ho, hbits⟩ := Option.map_eq_some_iff.mp h
  simp only [Observed.summary, Prod.mk.injEq] at hbits
  obtain ⟨hcalled, htodo, hacq, hrel, hrecAcq, hrecRel⟩ := hbits
  have hsteps : StepsOf t (o.taken t) := (traced_of_run ho t).2.steps
  refine ⟨o, ho, ⟨hcalled, htodo⟩, ⟨hacq, ?_⟩, hrel, ?_⟩
  · rw [recordsAcquire_iff hsteps, hrecAcq]
  · rw [recordsRelease_iff hsteps, hrecRel]

/-- The lock is held and no acquire is recorded; an acquire, and a release, is recorded and
nothing has happened. -/
theorem lockEvents_rare_codes :
    (∃ o, observedRun .ok ownerDied = some o ∧ o.Returned 0 (.pthreadMutexTrylock 64) ∧
      acquired 64 (o.taken 0) = true ∧ ¬ RecordsAcquire 0 64 (o.taken 0) ∧
      ¬ FollowsOutcome 0 (o.taken 0)) ∧
    (∃ o, observedRun .ok deadlock = some o ∧ o.Returned 0 (.pthreadMutexLock 64) ∧
      acquired 64 (o.taken 0) = false ∧ RecordsAcquire 0 64 (o.taken 0) ∧
      ¬ FollowsOutcome 0 (o.taken 0)) ∧
    ∃ o, observedRun .ok notOwner = some o ∧ o.Returned 0 (.pthreadMutexUnlock 64) ∧
      released 64 (o.taken 0) = false ∧ RecordsRelease 0 64 (o.taken 0) ∧
      ¬ FollowsOutcome 0 (o.taken 0) := by
  refine ⟨?_, ?_, ?_⟩
  · obtain ⟨o, ho, hret, ⟨hacq, hrec⟩, -⟩ := observed_of_summary ownerDied 0 64
      (.pthreadMutexTrylock 64) true false false false (by decide +kernel)
    have hnot : ¬ RecordsAcquire 0 64 (o.taken 0) := by simp [hrec]
    exact ⟨o, ho, hret, hacq, hnot, fun h => hnot ((h.acquire 64).mpr hacq)⟩
  · obtain ⟨o, ho, hret, ⟨hacq, hrec⟩, -⟩ := observed_of_summary deadlock 0 64
      (.pthreadMutexLock 64) false false true false (by decide +kernel)
    have hjoin : RecordsAcquire 0 64 (o.taken 0) := hrec.mpr rfl
    refine ⟨o, ho, hret, hacq, hjoin, fun h => ?_⟩
    have hdone := (h.acquire 64).mp hjoin
    simp [hacq] at hdone
  · obtain ⟨o, ho, hret, -, hrel, hrec⟩ := observed_of_summary notOwner 0 64
      (.pthreadMutexUnlock 64) false false false true (by decide +kernel)
    have hpub : RecordsRelease 0 64 (o.taken 0) := hrec.mpr rfl
    refine ⟨o, ho, hret, hrel, hpub, fun h => ?_⟩
    have hdone := (h.release 64).mp hpub
    simp [hrel] at hdone

/-- Thread 0 unlocks a mutex, and thread 1 locks it. -/
def handOver : List Event :=
  wholeCreate 0 1 7 ++ wholeCall 0 (.pthreadMutexLock 64) ++ wholeCall 0 (.pthreadMutexUnlock 64) ++
    wholeCall 1 (.pthreadMutexLock 64)

/-- The lock follows its outcome, and by it thread 1 has got to know of the unlock: the epoch
of thread 0 that its clock has is the one in which the mutex was unlocked. -/
theorem lockEvents_follow_handOver : ∃ o, observedRun .ok handOver = some o ∧
    o.Returned 1 (.pthreadMutexLock 64) ∧ FollowsOutcome 1 (o.taken 1) ∧
    acquired 64 (o.taken 1) = true ∧ o.process.clockOf 1 0 = 2 := by
  have hany : (observedRun .ok handOver).any (fun o =>
      o.called 1 = some (.pthreadMutexLock 64) ∧ (o.process.threads 1).todo = [] ∧
        (∀ x ∈ o.taken 1, x.fits 1 (o.taken 1) = true) ∧ acquired 64 (o.taken 1) = true ∧
          o.process.clockOf 1 0 = 2) = true := by
    decide +kernel
  obtain ⟨o, ho, hend⟩ := (Option.any_eq_true ..).mp hany
  obtain ⟨hcalled, htodo, hfits, hacquired, hclock⟩ := of_decide_eq_true hend
  have hret : o.Returned 1 (.pthreadMutexLock 64) := ⟨hcalled, htodo⟩
  exact ⟨o, ho, hret, (lockEvents_follow_iff ho rfl hret).mpr hfits, hacquired, hclock⟩

end Redzone.Runtime
