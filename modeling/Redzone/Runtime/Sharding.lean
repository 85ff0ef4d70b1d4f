/-
  Runtime/Sharding.lean --- nobody can tell that the tables are sharded.

  `Merged s u` reads the shards of a process as the two maps of the ideal engine.  A word is
  looked up in one shard only, and so is the address of an object, so each step of the
  runtime does to the merged maps what the operation it stands for does to the ideal ones,
  provided that it finds room for the word or the object (`FindsRoom`).
-/
import Redzone.Runtime.Unsharded

set_option autoImplicit false

namespace Redzone.Runtime

open Redzone.Foundation
open Redzone.Race

/-! ## The merged maps -/

/-- The step finds room: its word has a bucket, the object that it releases can be
created.  A thread without a handle looks for nothing. -/
def Process.FindsRoom (s : Process) (t : ℕ) (r : Result) : Micro → Prop
  | .word _ w => (s.handles t).thread.isSome → FindsBucket (s.shards (shardOf w)) (w * 8)
  | .acquire key | .release key =>
    (s.handles t).thread.isSome → (syncForIn (s.syncs (syncShardOf key)) key r.alloc).isSome
  | _ => True

instance (s : Process) (t : ℕ) (r : Result) : (m : Micro) → Decidable (s.FindsRoom t r m)
  | .word _ _ => inferInstanceAs (Decidable (_ → _))
  | .acquire _ | .release _ => inferInstanceAs (Decidable (_ → _))
  | .self | .lock _ _ | .trylock _ _ | .unlock _ | .waitUnlock _ | .waitLock _ | .atomicOp _ _
  | .recordCreate | .create _ | .createUntracked | .register _ _ | .join _ | .takeThread _ _
  | .freeHandle _ | .finish _ => .isTrue trivial

/-- Every step of the run finds room. -/
def RoomThroughout (i : Init) (es : List Event) : Prop :=
  EveryStep Process.step (fun s e => e.OnStep s.FindsRoom) (.initial i) es

instance (i : Init) (es : List Event) : Decidable (RoomThroughout i es) :=
  decidableEveryStep Process.step (fun s e => e.OnStep s.FindsRoom) (.initial i) es

/-- The process with another table in one shard. -/
def Process.setShard (s : Process) (sh : ℕ) (table : RzRaceState) : Process :=
  { s with shards := Function.update s.shards sh table }

/-- The cells of a word, in the one shard that it is looked up in. -/
def Process.cellsAt (s : Process) (w : ℕ) : Cells :=
  ((s.shards (shardOf w)).cellsOf w).getD noCells

/-- The state of the runtime is that of the ideal engine, in shards. -/
structure Merged (s : Process) (u : Unsharded) : Prop where
  tables : ∀ sh, TableInv (s.shards sh)
  cells : ∀ w, u.cells w = s.cellsAt w
  clocks : ∀ key, u.clocks key = s.syncClock key
  threads : ∀ t, u.threads t = (s.handles t).thread
  nextTid : u.nextTid = s.gMeta.nextTid
  hits : ∀ t, (s.threads t).hits = (u.found t).length
  hit : ∀ t, (s.threads t).hit = (u.found t).head?

section Merged

variable {s s₁ s' : Process} {u : Unsharded} {e : Event} {t c key w : ℕ} {m : Micro} {r : Result}
  {th : RzThread} {h : Handle} {thread : Thread} {todo : Script} {a : Access}

theorem setShard_self {sh : ℕ} {table : RzRaceState} : (s.setShard sh table).shards sh = table :=
  Function.update_self ..

theorem setShard_of_ne {sh x : ℕ} {table : RzRaceState} (hx : x ≠ sh) :
    (s.setShard sh table).shards x = s.shards x := Function.update_of_ne hx ..

theorem wordOf_word : wordOf (w * 8) = w := Nat.mul_div_cancel w (by decide)

theorem thread_live (ht : s.handles t = .live th) : (s.handles t).thread = some th := by
  rw [ht]
  rfl

theorem Merged.thread_of (hm : Merged s u) (ht : s.handles t = .live th) :
    u.threads t = some th := (hm.threads t).trans (thread_live ht)

theorem Merged.thread_absent (hm : Merged s u) (ht : s.handles t = .absent) :
    u.threads t = none := by
  rw [hm.threads, ht]
  rfl

/-- A thread goes on with other hits. -/
theorem Merged.setFound (hm : Merged s u) {hits : List Hit} (hhits : thread.hits = hits.length)
    (hhit : thread.hit = hits.head?) : Merged (s.setThread t thread) (u.setFound t hits) := by
  refine ⟨hm.tables, hm.cells, hm.clocks, hm.threads, hm.nextTid, fun x => ?_, fun x => ?_⟩
  · by_cases hx : x = t
    · rw [hx, setThread_self, hhits, Unsharded.setFound_self]
    · rw [setThread_of_ne hx, hm.hits, Unsharded.setFound_of_ne hx]
  · by_cases hx : x = t
    · rw [hx, setThread_self, hhit, Unsharded.setFound_self]
    · rw [setThread_of_ne hx, hm.hit, Unsharded.setFound_of_ne hx]

/-- A thread goes on with the same hits. -/
theorem Merged.setThread (hm : Merged s u) (hhits : thread.hits = (s.threads t).hits)
    (hhit : thread.hit = (s.threads t).hit) : Merged (s.setThread t thread) u := by
  have hset := hm.setFound (t := t) (hhits.trans (hm.hits t)) (hhit.trans (hm.hit t))
  rwa [Unsharded.setFound, Function.update_eq_self] at hset

/-- A thread gets another handle. -/
theorem Merged.setHandle (hm : Merged s u) :
    Merged (s.setHandle t h) (u.setThread t h.thread) := by
  refine ⟨hm.tables, hm.cells, hm.clocks, fun x => ?_, hm.nextTid, hm.hits, hm.hit⟩
  by_cases hx : x = t
  · rw [hx, setHandle_self, Unsharded.setThread_self]
  · rw [setHandle_of_ne hx, Unsharded.setThread_of_ne hx, hm.threads]

/-- The next thread id is given out. -/
theorem Merged.setMeta (hm : Merged s u) {g : RzRaceState}
    (hg : g.nextTid = intSucc s.gMeta.nextTid) :
    Merged { s with gMeta := g } { u with nextTid := intSucc u.nextTid } := by
  refine ⟨hm.tables, hm.cells, hm.clocks, hm.threads, ?_, hm.hits, hm.hit⟩
  rw [hg, hm.nextTid]

/-- The object of a key gets another clock. -/
theorem Merged.setSync (hm : Merged s u) {sh : SyncShard} {c : RzVc}
    (hsh : ∀ key', sh.clock key' =
      if key' = key then c else (s.syncs (syncShardOf key)).clock key') :
    Merged (s.setSync key sh) (u.setClock key c) := by
  refine ⟨hm.tables, hm.cells, fun key' => ?_, hm.threads, hm.nextTid, hm.hits, hm.hit⟩
  rw [syncClock_setSync hsh]
  by_cases hk : key' = key
  · rw [if_pos hk, hk, Unsharded.setClock_self]
  · rw [if_neg hk, Unsharded.setClock_of_ne hk, hm.clocks]

/-- An object is looked for, and no clock changes. -/
theorem Merged.look (hm : Merged s u) {sh : SyncShard}
    (hsh : ∀ key', sh.clock key' = (s.syncs (syncShardOf key)).clock key') :
    Merged (s.setSync key sh) u := by
  have hset : Merged (s.setSync key sh) (u.setClock key (s.syncClock key)) := by
    apply hm.setSync
    intro key'
    rw [hsh]
    split
    · rename_i hk
      rw [hk]
      rfl
    · rfl
  rwa [← hm.clocks, Unsharded.setClock, Function.update_eq_self] at hset

/-! ## Steps of the runtime -/

theorem Merged.selfInit (hm : Merged s u) : Merged (s.selfInit t) (u.init t) := by
  have hset := (hm.setMeta (g := (rzThreadInit s.gMeta).2) rfl).setHandle (t := t)
    (h := .live (rzThreadInit s.gMeta).1)
  rw [Unsharded.init, hm.nextTid]
  rw [hm.nextTid] at hset
  exact hset

theorem Merged.acquire (hm : Merged s u) {ok : Bool}
    (hfor : (syncForIn (s.syncs (syncShardOf key)) key ok).isSome = true) :
    Merged (s.acquireStep t th key ok) (u.acquire t key th) := by
  obtain ⟨⟨i, sh⟩, hfor⟩ := Option.isSome_iff_exists.mp hfor
  obtain ⟨hidx, hclock⟩ := syncForIn_spec hfor
  have hset := (hm.look hclock).setHandle (t := t) (h := .live (rzMutexAcquire th (sh.syncAt i)))
  have hthread : (Handle.live (rzMutexAcquire th (sh.syncAt i))).thread =
      some { th with clock := th.clock ⊔ u.clocks key } := by
    rw [Handle.thread, rzMutexAcquire, rzVcJoin_eq_sup, syncAt_clock hidx, hclock, hm.clocks]
    rfl
  unfold Process.acquireStep
  rw [hfor]
  rw [hthread] at hset
  exact hset

theorem Merged.release (hm : Merged s u) {ok : Bool}
    (hfor : (syncForIn (s.syncs (syncShardOf key)) key ok).isSome = true) :
    Merged (s.releaseStep t th key ok) (u.release t key th) := by
  obtain ⟨⟨i, sh⟩, hfor⟩ := Option.isSome_iff_exists.mp hfor
  obtain ⟨hidx, hclock⟩ := syncForIn_spec hfor
  have hrel : (rzMutexRelease th (sh.syncAt i)).2.clock = u.clocks key ⊔ th.clock := by
    rw [rzMutexRelease, rzVcJoin_eq_sup, syncAt_clock hidx, hclock, hm.clocks]
    rfl
  have hshard : Merged (s.setSync key (sh.setSync i (rzMutexRelease th (sh.syncAt i)).2))
      (u.setClock key (u.clocks key ⊔ th.clock)) := by
    apply hm.setSync
    intro key'
    rw [clock_setSync hidx, hclock, hrel]
  have hset := hshard.setHandle (t := t) (h := .live (rzMutexRelease th (sh.syncAt i)).1)
  unfold Process.releaseStep
  rw [hfor]
  exact hset

theorem Merged.create (hm : Merged s u) : Merged (s.createStep t th c) (u.create t c th) := by
  have hset := ((hm.setMeta (g := (rzThreadCreate s.gMeta th).2.2) rfl).setHandle (t := t)
    (h := .live (rzThreadCreate s.gMeta th).1)).setHandle (t := c)
    (h := .live (rzThreadCreate s.gMeta th).2.1)
  rw [Unsharded.create, hm.nextTid]
  rw [hm.nextTid] at hset
  exact hset

/-- What a check that finds a bucket does to the cells of the words. -/
theorem cellsAt_setShard {isWrite : Bool} {file : Option String} {line : ℤ}
    {v : Option RzAccess × RzRaceState}
    (h : AccessEffect (s.shards (shardOf w)) th (wordOf (w * 8)) isWrite file line v) (x : ℕ) :
    (s.setShard (shardOf w) v.2).cellsAt x =
      if x = w then recordAccess (s.cellsAt w) th isWrite file line else s.cellsAt x := by
  have hother := h.other
  have hrecorded := h.recorded
  rw [wordOf_word] at hother hrecorded
  unfold Process.cellsAt
  by_cases hx : x = w
  · rw [if_pos hx, hx, setShard_self, hrecorded]
    rfl
  · rw [if_neg hx]
    by_cases hsh : shardOf x = shardOf w
    · rw [hsh, setShard_self, hother x hx]
    · rw [setShard_of_ne hsh]

/-- The tables are in order after it. -/
theorem tables_setShard {isWrite : Bool} {file : Option String} {line : ℤ}
    {v : Option RzAccess × RzRaceState} (htables : ∀ sh, TableInv (s.shards sh))
    (h : AccessEffect (s.shards (shardOf w)) th (wordOf (w * 8)) isWrite file line v) (sh : ℕ) :
    TableInv ((s.setShard (shardOf w) v.2).shards sh) := by
  by_cases hsh : sh = shardOf w
  · rw [hsh, setShard_self]
    exact h.inv
  · rw [setShard_of_ne hsh]
    exact htables sh

/-- The check of a word sees the cells that the ideal engine has for it. -/
theorem Merged.verdict_eq (hm : Merged s u) (th : RzThread) (a : Access)
    (hfinds : FindsBucket (s.shards (shardOf w)) (w * 8)) :
    (rzRaceAccessLoc (s.shards (shardOf w)) th (w * 8) a.isWrite a.file a.line).1 =
      conflictingCell (u.cells w) th a.isWrite := by
  rcases rzRaceAccessLoc_spec (hm.tables (shardOf w)) th (w * 8) a.isWrite a.file a.line with
    ⟨hfull, -⟩ | ⟨-, heffect⟩
  · exact absurd hfinds hfull
  · rw [heffect.found, wordOf_word, hm.cells, Process.cellsAt]

/-- The check of a word records the access in the one shard of the word. -/
theorem Merged.record (hm : Merged s u) (th : RzThread) (a : Access)
    (hfinds : FindsBucket (s.shards (shardOf w)) (w * 8)) :
    Merged (s.setShard (shardOf w)
        (rzRaceAccessLoc (s.shards (shardOf w)) th (w * 8) a.isWrite a.file a.line).2)
      (u.setCells w (recordAccess (u.cells w) th a.isWrite a.file a.line)) := by
  rcases rzRaceAccessLoc_spec (hm.tables (shardOf w)) th (w * 8) a.isWrite a.file a.line with
    ⟨hfull, -⟩ | ⟨-, heffect⟩
  · exact absurd hfinds hfull
  · refine ⟨tables_setShard hm.tables heffect, fun x => ?_, hm.clocks, hm.threads, hm.nextTid,
      hm.hits, hm.hit⟩
    rw [cellsAt_setShard heffect]
    by_cases hx : x = w
    · rw [if_pos hx, hx, Unsharded.setCells_self, hm.cells]
    · rw [if_neg hx, Unsharded.setCells_of_ne hx, hm.cells]

/-- The first race of an access is the one that is kept. -/
theorem Merged.addHit (hm : Merged s u) (t w : ℕ) (tid : ℤ) (p : Option RzAccess) :
    Merged (s.addHit t tid w p)
      (u.setFound t (u.found t ++ p.toList.map (Hit.mk tid (w * 8)))) := by
  cases p with
  | none =>
      rw [Option.toList_none, List.map_nil, List.append_nil, Unsharded.setFound,
        Function.update_eq_self]
      exact hm
  | some prev =>
      apply hm.setFound
      · rw [List.length_append, ← hm.hits]
        rfl
      · rw [hm.hits, hm.hit]
        cases u.found t with
        | nil => rfl
        | cons hit hits => rfl

theorem Merged.word (hm : Merged s u) (hfinds : FindsBucket (s.shards (shardOf w)) (w * 8)) :
    Merged (s.wordStep t th a w) (u.access t w a.isWrite a.file a.line th) := by
  have hverdict := hm.verdict_eq th a hfinds
  have hrecord := (hm.record th a hfinds).addHit t w th.tid
    (conflictingCell (u.cells w) th a.isWrite)
  rw [← hverdict] at hrecord
  unfold Unsharded.access
  rw [← hverdict]
  exact hrecord

theorem Merged.finish (hm : Merged s u) : Merged (s.finishStep t a) u := by
  refine ⟨fun sh => ?_, fun w => ?_, fun key => ?_, fun x => ?_, ?_, fun x => ?_, fun x => ?_⟩
  · rw [finishStep_shards]
    exact hm.tables sh
  · rw [hm.cells, Process.cellsAt, Process.cellsAt, finishStep_shards]
  · rw [hm.clocks, syncClock_congr finishStep_syncs]
  · rw [hm.threads, finishStep_handles]
  · rw [hm.nextTid, Process.finishStep]
    split <;> rfl
  · rw [finishStep_threads, hm.hits]
  · rw [finishStep_threads, hm.hit]

/-- A thread starts, without hits. -/
theorem Merged.start (hm : Merged s u) {v : ℕ} : Merged (s.start c v) ((Op.enter c).act u) := by
  have hset : Merged (s.setThread c (.started v)) (u.setFound c []) := hm.setFound rfl rfl
  exact ⟨hset.tables, hset.cells, hset.clocks, hset.threads, hset.nextTid, hset.hits, hset.hit⟩

theorem asksStep_quiet (hquiet : m.quiet r = true) : s.asksStep t r m = [] := by
  cases m with
  | recordCreate =>
      have halloc : r.alloc = false := by simpa [Micro.quiet] using hquiet
      rw [Process.asksStep, halloc]
      rfl
  | createUntracked =>
      have hrc : r.rc ≠ 0 := by simpa [Micro.quiet] using hquiet
      rw [Process.asksStep, if_neg hrc]
  | join | lock | trylock | unlock | waitUnlock | waitLock | atomicOp => rfl
  | _ => simp [Micro.quiet] at hquiet

theorem alloc_of_selfInit (ht : s.handles t = .absent)
    (h : s.effect t r .self = some (s.selfInit t)) : r.alloc = true := by
  by_contra halloc
  simp only [Process.effect, ht, halloc] at h
  have hhandle := congrArg (fun s : Process => s.handles t) (Option.some.inj h)
  simp [Process.selfInit, ht] at hhandle

/-- A step of a wrapper does what the operations that it stands for do. -/
theorem Merged.effected (hm : Merged s u) (h : s.effect t r m = some s₁)
    (hroom : s.FindsRoom t r m) : Merged s₁ (perform Op.act (s.asksStep t r m) u) := by
  cases Process.effected h with
  | quiet hquiet =>
      rw [asksStep_quiet hquiet]
      exact hm
  | skipped hneeds ht =>
      have hnone := hm.thread_absent ht
      cases m with
      | self =>
          have halloc : r.alloc = false := by simpa [Micro.needsHandle] using hneeds
          rw [Process.asksStep, halloc]
          exact hm
      | acquire | release | word =>
          rw [Process.asksStep, perform_cons, perform_nil, Op.act, hnone]
          exact hm
      | _ => simp [Micro.needsHandle] at hneeds
  | selfInit ht =>
      rw [Process.asksStep, if_pos (alloc_of_selfInit ht h), perform_cons, perform_nil, Op.act,
        hm.thread_absent ht]
      exact hm.selfInit
  | self ht =>
      rw [Process.asksStep]
      split
      · rw [perform_cons, perform_nil, Op.act, hm.thread_of ht]
        exact hm
      · exact hm
  | acquire ht =>
      rw [Process.asksStep, perform_cons, perform_nil, Op.act, hm.thread_of ht]
      exact hm.acquire (hroom (by rw [thread_live ht]; rfl))
  | release ht =>
      rw [Process.asksStep, perform_cons, perform_nil, Op.act, hm.thread_of ht]
      exact hm.release (hroom (by rw [thread_live ht]; rfl))
  | recordCreate halloc ht hc hfresh =>
      rw [Process.asksStep, if_pos halloc, perform_cons, perform_nil, Op.act, hm.thread_of ht]
      exact hm.create
  | create hrc hmay =>
      rw [Process.asksStep, if_pos hrc]
      exact hm.start
  | createFailed hrc =>
      rw [Process.asksStep, if_neg hrc]
      exact hm.setHandle
  | createUntracked hrc hc hmay =>
      rw [Process.asksStep, if_pos hrc]
      exact hm.start
  | register =>
      exact ⟨hm.tables, hm.cells, hm.clocks, hm.threads, hm.nextTid, hm.hits, hm.hit⟩
  | join hrc hjoin hexit => exact hm.setThread rfl rfl
  | takeNone hnone =>
      rw [Process.asksStep, hnone]
      exact ⟨hm.tables, hm.cells, hm.clocks, hm.threads, hm.nextTid, hm.hits, hm.hit⟩
  | @take thr joined c parent child hsome ht hc =>
      have htaken : Merged { s with registry := (takeThread s.registry thr).2 } u :=
        ⟨hm.tables, hm.cells, hm.clocks, hm.threads, hm.nextTid, hm.hits, hm.hit⟩
      rw [Process.asksStep, hsome, Option.toList_some, List.map_singleton, perform_cons,
        perform_nil, Op.act, hm.thread_of ht, hm.thread_of hc]
      have hset := htaken.setHandle (t := t) (h := .live (rzThreadJoin parent child))
      rw [rzThreadJoin, rzVcJoin_eq_sup] at hset ⊢
      exact hset
  | freeHandle => exact hm.setHandle
  | word ht =>
      rw [Process.asksStep, perform_cons, perform_nil, Op.act, hm.thread_of ht]
      exact hm.word (hroom (by rw [thread_live ht]; rfl))
  | finish => exact hm.finish

/-- What a step of a wrapper finds is what its operations find. -/
theorem Merged.answer_eq (hm : Merged s u) (hroom : e.OnStep s.FindsRoom) :
    s.answer e = answers Op.act Unsharded.answer u (s.asks e) := by
  obtain ⟨t, action⟩ := e
  cases action with
  | call c => rfl
  | exit => rfl
  | detach thread target => rfl
  | step m r =>
      cases m with
      | word a w =>
          change s.FindsRoom t r (.word a w) at hroom
          rw [Process.answer, Process.asks, Process.asksStep, answers, Unsharded.answer,
            hm.threads, answers, List.append_nil]
          cases hthread : (s.handles t).thread with
          | none => rfl
          | some th =>
              rw [Option.toList_some, List.map_singleton, List.map_singleton,
                hm.verdict_eq _ _ (hroom (by rw [hthread]; rfl))]
      | takeThread thr joined =>
          rw [Process.asks, Process.asksStep]
          cases (takeThread s.registry thr).1 <;> rfl
      | self | recordCreate | create | createUntracked =>
          rw [Process.asks, Process.asksStep]
          split <;> rfl
      | _ => rfl

/-- The step that an event performs. -/
theorem effect_of_step (h : s.step ⟨t, .step m r⟩ = some s') :
    ∃ rest s₁, (s.threads t).todo = m :: rest ∧ s.effect t r m = some s₁ ∧
      s' = s₁.setTodo t (s.next r rest m) := by
  unfold Process.step at h
  simp only at h
  split at h
  · simp at h
  split at h
  · rename_i haction _
    simp at haction
  · rename_i m₀ r₀ m' rest haction htodo
    obtain ⟨rfl, rfl⟩ := Action.step.inj haction
    split at h
    · rename_i heq
      obtain ⟨s₁, heffect, rfl⟩ := Option.map_eq_some_iff.mp h
      exact ⟨rest, s₁, heq ▸ htodo, heffect, rfl⟩
    · simp at h
  · rename_i haction _
    simp at haction
  · rename_i haction _
    simp at haction
  · simp at h

theorem Merged.step (hm : Merged s u) (hstep : s.step e = some s')
    (hroom : e.OnStep s.FindsRoom) : Merged s' (perform Op.act (s.asks e) u) := by
  cases Process.stepped hstep with
  | call hrun htodo => exact hm.setFound rfl rfl
  | @micro t m r rest s₁ hrun htodo heff =>
      obtain ⟨rest', s₂, -, heffect, hs'⟩ := effect_of_step hstep
      rw [hs']
      exact (hm.effected heffect hroom).setThread rfl rfl
  | exit hrun htodo => exact hm.setThread rfl rfl
  | detach hrun htodo hjoin => exact hm.setThread rfl rfl

/-- The runtime drives the ideal engine. -/
theorem drives_unsharded :
    Drives Process.step Process.answer Process.asks Op.act Unsharded.answer
      (fun s e => e.OnStep s.FindsRoom) Merged where
  keeps hm hroom hstep := hm.step hstep hroom
  agrees hm hroom _ := hm.answer_eq hroom

theorem cellsOf_init {n : ℕ} {ok : Bool} : (rzRaceStateInitN n ok).cellsOf w = none := by
  unfold RzRaceState.cellsOf
  split
  · rfl
  · exact if_neg (Nat.succ_ne_zero w).symm

theorem merged_initial (i : Init) : Merged (.initial i) (.initial i) := by
  have hthreads : ∀ t, ((Process.initial i).threads t).hits = 0 ∧
      ((Process.initial i).threads t).hit = none := by
    intro t
    by_cases ht : t = 0
    · simp [Process.initial, ht, Thread.started]
    · simp [Process.initial, ht, Thread.unborn]
  unfold Unsharded.initial
  cases hroot : i.rootOk with
  | false =>
      refine ⟨fun sh => tableInv_init .., fun w => ?_, fun key => rfl, fun t => ?_, ?_,
        fun t => (hthreads t).1, fun t => (hthreads t).2⟩
      · rw [Process.cellsAt, Process.initial, cellsOf_init]
        rfl
      · simp [Process.initial, hroot, Unsharded.empty, Handle.thread]
      · simp [Process.initial, hroot, Unsharded.empty, rzRaceStateInitN]
  | true =>
      refine ⟨fun sh => tableInv_init .., fun w => ?_, fun key => rfl, fun t => ?_, ?_,
        fun t => (hthreads t).1, fun t => (hthreads t).2⟩
      · rw [Process.cellsAt, Process.initial, cellsOf_init]
        rfl
      · by_cases ht : t = 0
        · simp [Process.initial, hroot, ht, Unsharded.init, Unsharded.setThread_self, Handle.thread,
            rzThreadInit, Unsharded.empty, rzRaceStateInitN]
        · simp [Process.initial, hroot, ht, Unsharded.init, Unsharded.setThread_of_ne ht,
            Handle.thread, Unsharded.empty]
      · simp [Process.initial, hroot, Unsharded.init, Unsharded.setThread, Unsharded.empty,
          rzThreadInit, rzRaceStateInitN]

end Merged

/-! ## The words of an access -/

section Words

variable {s s' : Process} {e : Event} {t w : ℕ} {a : Access} {es : List Event} {todo : Script}

/-- The words of an access that does not wrap are those that it touches, each once. -/
theorem words_exact (hwrap : a.addr + max a.size 1 ≤ wordSize) :
    a.words.Nodup ∧ ∀ w, w ∈ a.words ↔ a.Touches w := by
  have hsize : (if a.size = 0 then 1 else a.size) = max a.size 1 := by
    split
    · rename_i h
      rw [h]
      rfl
    · omega
  have hpos : 1 ≤ max a.size 1 := le_max_right ..
  have hlast : (a.addr + max a.size 1 - 1) % wordSize = a.addr + max a.size 1 - 1 :=
    Nat.mod_eq_of_lt (by omega)
  unfold Access.words
  simp only [hsize, hlast]
  refine ⟨List.nodup_range', fun w => ?_⟩
  rw [List.mem_range'_1, Access.Touches]
  unfold wordOf
  constructor
  · rintro ⟨hfirst, hw⟩
    refine ⟨max a.addr (w * 8), le_max_left .., ?_, ?_⟩
    · omega
    · omega
  · rintro ⟨x, hlo, hhi, rfl⟩
    omega

theorem wordsLeft_accessRange : wordsLeft (accessRange a) = a.words := by
  unfold accessRange wordsLeft
  rw [List.filterMap_cons_none rfl, List.filterMap_append, List.filterMap_map]
  exact (List.append_nil _).trans (List.filterMap_some ..)

/-- A call that is about an access runs `access_range`. -/
theorem script_of_access {c : Call} (h : c.access = some a) : c.script = accessRange a := by
  cases c with
  | read | write =>
      obtain rfl := Option.some.inj h
      rfl
  | _ => simp [Call.access] at h

/-- The operations of a step are on behalf of its thread. -/
theorem wordsOf_asks_of_ne (h : e.thread ≠ t) : wordsOf t (s.asks e) = [] := by
  obtain ⟨t', action⟩ := e
  cases action with
  | call c => rfl
  | exit => rfl
  | detach thread target => rfl
  | step m r =>
      cases m with
      | word a w =>
          refine (List.filterMap_cons_none ?_).trans rfl
          exact if_neg h
      | takeThread thr joined =>
          rw [Process.asks, Process.asksStep]
          cases (takeThread s.registry thr).1 <;> rfl
      | self | recordCreate | create | createUntracked =>
          rw [Process.asks, Process.asksStep]
          split <;> rfl
      | _ => rfl

theorem mem_accessRange {m : Micro} :
    m ∈ accessRange a ↔ m = .self ∨ (∃ w ∈ a.words, m = .word a w) ∨ m = .finish a := by
  unfold accessRange
  rw [List.mem_cons, List.mem_append, List.mem_map, List.mem_singleton]
  simp only [@eq_comm _ m]

/-- An access goes on step by step. -/
theorem next_in_access {m : Micro} {r : Result} {rest : Script}
    (h : m :: rest <:+ accessRange a) : s.next r rest m = rest ∧ rest <:+ accessRange a := by
  refine ⟨?_, (List.suffix_cons m rest).trans h⟩
  rcases mem_accessRange.mp (h.subset (List.mem_cons_self ..)) with rfl | ⟨w, -, rfl⟩ | rfl
  · rfl
  · rfl
  · rfl

/-- Where a thread is in an access, each of its steps checks the words that are then no
longer left. -/
theorem words_step (hwf : s.WF) (hstep : s.step e = some s')
    (hplace : (s.threads t).todo <:+ accessRange a) (hcall : ∀ c, e ≠ ⟨t, .call c⟩) :
    (s'.threads t).todo <:+ accessRange a ∧
      wordsOf t (s.asks e) ++ wordsLeft (s'.threads t).todo = wordsLeft (s.threads t).todo := by
  have hst := Process.stepped hstep
  by_cases ht : e.thread = t
  · subst ht
    cases hst with
    | call hrun htodo => exact absurd rfl (hcall _)
    | @micro t m r rest s₁ hrun htodo heff =>
        simp only at hplace hcall
        rw [htodo] at hplace
        obtain ⟨hnext, hrest⟩ := next_in_access (s := s) (r := r) hplace
        rw [setTodo_self, htodo, hnext]
        refine ⟨hrest, ?_⟩
        rcases mem_accessRange.mp (hplace.subset (List.mem_cons_self ..)) with
          rfl | ⟨w, -, rfl⟩ | rfl
        · rw [Process.asks, Process.asksStep]
          split <;> rfl
        · have hone : wordsOf t (s.asks ⟨t, .step (.word a w) r⟩) = [w] := by
            simp [Process.asks, Process.asksStep, wordsOf]
          rw [hone]
          rfl
        · rfl
    | exit hrun htodo =>
        rw [setThread_self]
        exact ⟨hplace, rfl⟩
    | @detach t thread c hrun htodo hjoin =>
        have htodo' : ((s.setThread c { s.threads c with detached := true }).threads t).todo =
            (s.threads t).todo := by
          by_cases htc : t = c
          · rw [htc, setThread_self]
          · rw [setThread_of_ne htc]
        rw [htodo']
        exact ⟨hplace, rfl⟩
  · rw [wordsOf_asks_of_ne ht, hst.todo_other hwf (Ne.symm ht)]
    exact ⟨hplace, rfl⟩

/-- Over the steps of an access: the words checked and those left are the same together. -/
theorem words_run (hwf : s.WF) (hrun : run Process.step s es = some s')
    (hplace : (s.threads t).todo <:+ accessRange a) (hcall : ∀ c, ⟨t, .call c⟩ ∉ es) :
    wordsOf t (observed Process.step Process.asks s es) ++ wordsLeft (s'.threads t).todo =
      wordsLeft (s.threads t).todo := by
  induction es generalizing s with
  | nil =>
      obtain rfl : s = s' := Option.some.inj hrun
      rfl
  | cons e es ih =>
      rw [run_cons] at hrun
      obtain ⟨m, hm, hrest⟩ := Option.bind_eq_some_iff.mp hrun
      have hnot : ∀ c, e ≠ ⟨t, .call c⟩ := fun c heq => hcall c (heq ▸ List.mem_cons_self ..)
      obtain ⟨hplace', hwords⟩ := words_step hwf hm hplace hnot
      have hkept := ih (hwf.step (Process.stepped hm)) hrest hplace' fun c hmem =>
        hcall c (List.mem_cons_of_mem e hmem)
      rw [observed_cons hm, wordsOf, List.filterMap_append, List.append_assoc, ← hwords, ← hkept]
      rfl

end Words

/-! ## Sharding is unobservable -/

/-- What a run of the runtime has come to is what the ideal engine has come to: the clocks
of the threads and the first races of the accesses are the same, each check of a word has
given the same verdict, and each access has been checked, or has still to be checked, at
exactly the words that it touches, each once. -/
theorem sharding_unobservable {i : Init} {es : List Event} {s : Process}
    (hrun : processRun i es = some s) (hroom : RoomThroughout i es) :
    (∀ t, (s.handles t).thread = (unshardedRun i es).threads t) ∧
    observed Process.step Process.answer (.initial i) es =
      answers Op.act Unsharded.answer (.initial i) (asked i es) ∧
    (∀ t, (s.threads t).hits = ((unshardedRun i es).found t).length ∧
      (s.threads t).hit = ((unshardedRun i es).found t).head?) ∧
    ∀ before after t c a, es = before ++ ⟨t, .call c⟩ :: after → c.access = some a →
      (∀ c', ⟨t, .call c'⟩ ∉ after) → a.addr + max a.size 1 ≤ wordSize →
      ∃ ws, wordsOf t (asked i es) = wordsOf t (asked i before) ++ ws ∧
        (ws ++ wordsLeft (s.threads t).todo).Nodup ∧
        ∀ w, w ∈ ws ++ wordsLeft (s.threads t).todo ↔ a.Touches w := by
  obtain ⟨hmerged, hanswers⟩ := drives_unsharded.run hroom hrun (merged_initial i)
  refine ⟨fun t => (hmerged.threads t).symm, hanswers,
    fun t => ⟨hmerged.hits t, hmerged.hit t⟩, ?_⟩
  rintro before after t c a rfl haccess hcall hwrap
  obtain ⟨m, hm, hrest⟩ := run_append_eq_some.mp hrun
  rw [run_cons] at hrest
  obtain ⟨m', hm', hafter⟩ := Option.bind_eq_some_iff.mp hrest
  have hwf : m.WF := run_invariant (wf_initial i)
    (fun _ _ _ hwf hstep => hwf.step (Process.stepped hstep)) before hm
  have htodo : (m'.threads t).todo = accessRange a := by
    rw [← script_of_access haccess]
    cases Process.stepped hm' with
    | call hrun htodo => rw [setThread_self]
  have hplace : (m'.threads t).todo <:+ accessRange a := by rw [htodo]
  have hwords := words_run (hwf.step (Process.stepped hm')) hafter hplace hcall
  rw [htodo, wordsLeft_accessRange] at hwords
  refine ⟨wordsOf t (observed Process.step Process.asks m' after), ?_, ?_⟩
  · unfold asked
    rw [observed_append hm, observed_cons hm']
    exact List.filterMap_append
  · rw [hwords]
    exact words_exact hwrap

/-- The first thread writes across two words under a lock, which the second one takes before
it reads them. -/
def handoverRun : List Event :=
  wholeCreate 0 1 1 ++ wholeCall 0 (.pthreadMutexLock 0x500) ++
    [⟨0, .call (.write 0x1005 8 none 3)⟩] ++
    (accessRange ⟨0x1005, 8, true, none, 3⟩).map (fun m => ⟨0, .step m .ok⟩) ++
    wholeCall 0 (.pthreadMutexUnlock 0x500) ++ wholeCall 1 (.read 0x1000 4 none 7) ++
    wholeCall 1 (.pthreadMutexLock 0x500) ++ wholeCall 1 (.read 0x1008 4 none 8)

theorem sharding_unobservable_handoverRun :
    ∃ s, processRun .ok handoverRun = some s ∧
      observed Process.step Process.answer (.initial .ok) handoverRun =
        answers Op.act Unsharded.answer (.initial .ok) (asked .ok handoverRun) := by
  have hsome : (processRun .ok handoverRun).isSome = true := by decide +kernel
  have hroom : RoomThroughout .ok handoverRun := by decide +kernel
  obtain ⟨s, hs⟩ := Option.isSome_iff_exists.mp hsome
  exact ⟨s, hs, (sharding_unobservable hs hroom).2.1⟩

end Redzone.Runtime
