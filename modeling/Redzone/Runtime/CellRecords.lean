/-
  Runtime/CellRecords.lean --- every race that the runtime counts has a cause.

  The cells of the shards are records of word checks (`CellsRecorded`): the check of the
  word by the thread with the id of the cell, at the epoch of the cell.  A cell that is in
  conflict is past the clock of the thread that checks the word, and where no order is lost
  that clock covers all that happens before; so the check behind the cell does not
  (`Racy`).  The hits of an access, and the race count, come from such checks.
-/
import Redzone.Race.EngineSound
import Redzone.Runtime.ClockCover
import Redzone.Runtime.Sharding

set_option autoImplicit false

namespace Redzone.Runtime

open Redzone.Foundation
open Redzone.Race

/-! ## Cells are records of checks -/

/-- A check of the word stands behind the cell: made in the epoch of the cell, and for a
write if the cell says so. -/
def RecordOf (i : Init) (es : List Event) (w : ℕ) (cell : RzAccess) : Prop :=
  ∃ n t a r, es[n]? = some ⟨t, .step (.word a w) r⟩ ∧
    (∀ k, slotOf cell.tid = some k → ∃ c, clockBefore i es n = some c ∧ c k = cell.epoch) ∧
    (cell.isWrite = true → a.isWrite = true)

/-- The tables are in order, and every cell in them is a record. -/
structure CellsRecorded (i : Init) (es : List Event) (s : Process) : Prop where
  tables : ∀ sh, TableInv (s.shards sh)
  recorded : ∀ w k, (s.cellsAt w k).valid = true → RecordOf i es w (s.cellsAt w k)

/-- Event `k` is a check of a word for which an earlier check by another thread, one of them
for a write, does not happen before it. -/
def Racy (es : List Event) (k : ℕ) : Prop :=
  ∃ n < k, ∃ e f, es[n]? = some e ∧ es[k]? = some f ∧ Conflict e f ∧ ¬ RealHB es n k

section Cells

variable {i : Init} {es fs : List Event} {s s₁ s' : Process} {e : Event} {t w k : ℕ} {m : Micro}
  {r : Result} {th : RzThread} {a : Access} {cell prev : RzAccess}

theorem RecordOf.append (h : RecordOf i es w cell) : RecordOf i (es ++ fs) w cell := by
  obtain ⟨n, t, a, r, hn, hclock, hwrite⟩ := h
  have hlt : n < es.length := (List.getElem?_eq_some_iff.mp hn).1
  refine ⟨n, t, a, r, ?_, fun k hk => ?_, hwrite⟩
  · rw [List.getElem?_append_left hlt, hn]
  · rw [clockBefore_append hlt]
    exact hclock k hk

/-- Earlier events decide whether a check is racy. -/
theorem Racy.append (h : Racy es k) : Racy (es ++ fs) k := by
  obtain ⟨n, hnk, e, f, he, hf, hconf, hhb⟩ := h
  have hk : k < es.length := (List.getElem?_eq_some_iff.mp hf).1
  refine ⟨n, hnk, e, f, ?_, ?_, hconf, ?_⟩
  · rw [List.getElem?_append_left (hnk.trans hk), he]
  · rw [List.getElem?_append_left hk, hf]
  · rwa [RealHB, happensBefore_append_left hk]

/-- Only the check of a word changes a shard. -/
theorem effected_shards (h : Effected s t r m s₁) (hm : ∀ a w, m ≠ .word a w) :
    s₁.shards = s.shards := by
  cases h with
  | word ht => exact absurd rfl (hm _ _)
  | acquire ht => exact acquireStep_shards
  | release ht => exact releaseStep_shards
  | finish => exact finishStep_shards
  | _ => rfl

theorem cellsAt_congr (h : s₁.shards = s.shards) : s₁.cellsAt w = s.cellsAt w := by
  rw [Process.cellsAt, Process.cellsAt, h]

theorem CellsRecorded.unchanged (h : CellsRecorded i es s) (hsame : s'.shards = s.shards) :
    CellsRecorded i (es ++ fs) s' := by
  refine ⟨fun sh => hsame ▸ h.tables sh, fun w k hvalid => ?_⟩
  rw [cellsAt_congr hsame] at hvalid ⊢
  exact (h.recorded w k hvalid).append

/-- The cell that a check is recorded in stands for the check, or, where the two are
combined, for the earlier one of the same epoch. -/
theorem recordOf_recordCell (hrun : processRun i es = some s) (ht : s.handles t = .live th)
    (hold : cell.valid = true → RecordOf i es w cell) :
    RecordOf i (es ++ [⟨t, .step (.word a w) r⟩]) w
      (recordCell cell th a.isWrite a.file a.line) := by
  by_cases hcombine : (cell.valid && cell.tid == th.tid && cell.epoch == curEpoch th) = true ∧
      a.isWrite = false ∧ cell.isWrite = true
  · obtain ⟨hsame, -, hwrite⟩ := hcombine
    simp only [Bool.and_eq_true, beq_iff_eq] at hsame
    obtain ⟨⟨hvalid, htid⟩, hepoch⟩ := hsame
    obtain ⟨n, t', a', r', hn, hclock, hw⟩ := (hold hvalid).append
    refine ⟨n, t', a', r', hn, fun k hk => ?_, fun _ => hw hwrite⟩
    obtain ⟨c, hc, hck⟩ := hclock k (htid ▸ hk)
    exact ⟨c, hc, hck.trans hepoch⟩
  · refine ⟨es.length, t, a, r, List.getElem?_concat_length, fun k hk => ?_, fun hwrite => ?_⟩
    · refine ⟨th.clock, ?_, ?_⟩
      · rw [clockBefore_last hrun, clockOf_live ht]
        rfl
      · simp only [recordCell, curEpoch] at hk ⊢
        rw [hk]
    · simp only [recordCell] at hwrite
      split at hwrite
      · rename_i hsame
        cases hread : a.isWrite with
        | true => rfl
        | false => exact absurd ⟨hsame, hread, by simpa [hread] using hwrite⟩ hcombine
      · exact hwrite

theorem CellsRecorded.step (h : CellsRecorded i es s) (hrun : processRun i es = some s)
    (hst : Stepped s e s') : CellsRecorded i (es ++ [e]) s' := by
  cases hst with
  | @micro t m r rest s₁ hrun' htodo heff =>
      by_cases hword : ∃ a w, m = .word a w
      · obtain ⟨a, w, rfl⟩ := hword
        cases heff with
        | quiet hquiet => simp [Micro.quiet] at hquiet
        | skipped hneeds ht => exact h.unchanged rfl
        | @word th _ _ ht =>
            have hshards : ((s.wordStep t th a w).setTodo t (s.next r rest (.word a w))).shards =
                (s.setShard (shardOf w)
                  (rzRaceAccessLoc (s.shards (shardOf w)) th (w * 8) a.isWrite a.file a.line).2).shards :=
              addHit_shards
            rcases rzRaceAccessLoc_spec (h.tables (shardOf w)) th (w * 8) a.isWrite a.file a.line with
              ⟨-, hfull⟩ | ⟨-, heffect⟩
            · apply h.unchanged
              rw [hshards, hfull]
              exact Function.update_eq_self ..
            · refine ⟨fun sh => ?_, fun x k hvalid => ?_⟩
              · rw [hshards]
                exact tables_setShard h.tables heffect sh
              · rw [cellsAt_congr hshards, cellsAt_setShard heffect] at hvalid ⊢
                by_cases hx : x = w
                · subst hx
                  rw [if_pos rfl, recordAccess] at hvalid ⊢
                  by_cases hslot : k = recordSlot (s.cellsAt x) th.tid
                  · rw [hslot, Function.update_self]
                    exact recordOf_recordCell hrun ht (h.recorded x _)
                  · rw [Function.update_of_ne hslot] at hvalid ⊢
                    exact (h.recorded x k hvalid).append
                · rw [if_neg hx] at hvalid ⊢
                  exact (h.recorded x k hvalid).append
      · apply h.unchanged
        rw [setTodo_shards]
        exact effected_shards heff fun a w hm => hword ⟨a, w, hm⟩
  | call hrun' htodo => exact h.unchanged rfl
  | exit hrun' htodo => exact h.unchanged rfl
  | detach hrun' htodo hjoin => exact h.unchanged rfl

/-- A check that finds a conflict is racy. -/
theorem racy_of_conflict (hinv : s.JoinInv) (hcover : ClocksCover i es s)
    (hcells : CellsRecorded i es s) (hhead : s.head t = some (.word a w))
    (hphase : (s.threads t).phase = .running) (ht : s.handles t = .live th)
    (hprev : (rzRaceAccessLoc (s.shards (shardOf w)) th (w * 8) a.isWrite a.file a.line).1 =
      some prev) : Racy (es ++ [⟨t, .step (.word a w) r⟩]) es.length := by
  rcases rzRaceAccessLoc_spec (hcells.tables (shardOf w)) th (w * 8) a.isWrite a.file a.line with
    ⟨-, hfull⟩ | ⟨-, heffect⟩
  · simp [hfull] at hprev
  rw [heffect.found, wordOf_word] at hprev
  obtain ⟨k, hk, hcheck⟩ := conflictingCell_eq_some hprev
  obtain ⟨hvalid, -, hwrite, slot, hslot, hlt⟩ := rzRaceCheck_eq_true.mp hcheck
  obtain ⟨n, u, b, r', hn, hclock, hw⟩ : RecordOf i es w prev := by
    have hcell : s.cellsAt w k = prev := hk
    rw [← hcell]
    apply hcells.recorded w k
    rw [hcell]
    exact hvalid
  have hnlt : n < es.length := (List.getElem?_eq_some_iff.mp hn).1
  have hlast : (es ++ [⟨t, .step (.word a w) r⟩])[es.length]? = some ⟨t, .step (.word a w) r⟩ :=
    List.getElem?_concat_length
  -- an earlier check would be below the clock, and the cell is past it
  have hhb : ¬ RealHB (es ++ [⟨t, .step (.word a w) r⟩]) n es.length := by
    intro hhb
    have hmem : n ∈ incoming es ⟨t, .step (.word a w) r⟩ :=
      (knowledge_exact rtOrder es).mem_incoming.mpr hhb
    rw [incoming_of_local rfl] at hmem
    obtain ⟨c, hc, hepoch⟩ := hclock slot hslot
    obtain ⟨rest, htodo⟩ : ∃ rest, (s.threads t).todo = .word a w :: rest :=
      List.head?_eq_some_iff.mp hhead
    have hsettled : Settled (s.threads t).todo := by
      rw [htodo]
      trivial
    have hlive := hinv.custody.running_handle hinv.wf hphase
    have hle := hcover.clock_le hlive hsettled hmem hc slot
    rw [clockOf_live ht, hepoch] at hle
    exact absurd hlt hle.not_gt
  have hn' : (es ++ [⟨t, .step (.word a w) r⟩])[n]? = some ⟨u, .step (.word b w) r'⟩ := by
    rw [List.getElem?_append_left hnlt, hn]
  refine ⟨n, hnlt, _, _, hn', hlast, ⟨b, a, w, rfl, rfl, ?_, hwrite.imp hw id⟩, hhb⟩
  intro hsame
  exact hhb (HappensBefore.of_actor hnlt hn' hlast hsame)

end Cells

/-! ## Hits -/

/-- The access that a step is part of. -/
def Micro.access : Micro → Option Access
  | .word a _ | .finish a => some a
  | _ => none

/-- A thread that checks a word is in `access_range`, and the hits it has are racy checks of
the same access. -/
structure HitsRacy (es : List Event) (s : Process) : Prop where
  place : ∀ t, ∀ m ∈ (s.threads t).todo, ∀ a, m.access = some a →
    (s.threads t).todo <:+ accessRange a
  hits : ∀ t, (s.threads t).hits ≠ 0 → ∃ a, (s.threads t).todo <:+ accessRange a ∧
    ∃ k w r, es[k]? = some ⟨t, .step (.word a w) r⟩ ∧ Racy es k

section Hits

variable {i : Init} {es fs : List Event} {s s₁ s' : Process} {e : Event} {t u w k : ℕ} {m : Micro}
  {r : Result} {th : RzThread} {a : Access} {rest : Script}

/-- A call that checks words runs `access_range`. -/
theorem script_place {c : Call} (hm : m ∈ c.script) (ha : m.access = some a) :
    c.script <:+ accessRange a := by
  have hrange : ∀ b : Access, c.script = accessRange b → c.script <:+ accessRange a := by
    intro b hscript
    rw [hscript] at hm ⊢
    rcases mem_accessRange.mp hm with rfl | ⟨w, -, rfl⟩ | rfl
    · simp [Micro.access] at ha
    · obtain rfl := Option.some.inj ha
      exact List.suffix_refl _
    · obtain rfl := Option.some.inj ha
      exact List.suffix_refl _
  have hother : (∀ m ∈ c.script, m.access = none) → c.script <:+ accessRange a := by
    intro hnone
    rw [hnone m hm] at ha
    simp at ha
  cases c with
  | read addr size file line => exact hrange _ rfl
  | write addr size file line => exact hrange _ rfl
  | atomic addr kind =>
      apply hother
      cases kind <;> simp [Call.script, instrumentedAtomic, rzRtAtomicAcquire, rzRtAtomicRelease,
        rzRtMutexLock, rzRtMutexUnlock, Micro.access]
  | condWait key | condTimedwait key =>
      apply hother
      simp [Call.script, rzRtPthreadCondWait, rzRtPthreadCondTimedwait, rzRtMutexLock,
        rzRtMutexUnlock, Micro.access]
  | pthreadMutexLock key | rwlockRdlock key | rwlockWrlock key | pthreadMutexTrylock key
  | rwlockTryrdlock key | rwlockTrywrlock key | mutexLock key =>
      apply hother
      simp [Call.script, rzRtPthreadMutexLock, rzRtPthreadRwlockRdlock, rzRtPthreadRwlockWrlock,
        rzRtPthreadMutexTrylock, rzRtPthreadRwlockTryrdlock, rzRtPthreadRwlockTrywrlock,
        rzRtMutexLock, Micro.access]
  | mutexUnlock key | pthreadMutexUnlock key | rwlockUnlock key =>
      apply hother
      simp [Call.script, rzRtPthreadMutexUnlock, rzRtPthreadRwlockUnlock, rzRtMutexUnlock,
        Micro.access]
  | create | join =>
      apply hother
      simp [Call.script, rzRtPthreadCreate, rzRtPthreadJoin, Micro.access]

/-- What is left after a step has its checks in the same place. -/
theorem next_place (hplace : ∀ m' ∈ m :: rest, ∀ a, m'.access = some a →
    m :: rest <:+ accessRange a) {m' : Micro} (hm' : m' ∈ s.next r rest m)
    (ha : m'.access = some a) : s.next r rest m <:+ accessRange a := by
  have hrest : m' ∈ rest := by
    rcases next_cases s r rest m with heq | heq | ⟨m₁, heq, hdyn, -⟩
    · exact heq ▸ hm'
    · simp [heq] at hm'
    · rw [heq] at hm'
      rcases List.mem_cons.mp hm' with rfl | hmem
      · cases m' <;> simp [Micro.static, Micro.access] at hdyn ha
      · exact hmem
  obtain ⟨hnext, hsuffix⟩ := next_in_access (s := s) (r := r)
    (hplace m' (List.mem_cons_of_mem m hrest) a ha)
  rw [hnext]
  exact hsuffix

/-- The hits of another thread stay, unless it starts. -/
theorem Stepped.hits_other (h : Stepped s e s') (hu : u ≠ e.thread) :
    (s'.threads u).hits = (s.threads u).hits ∨ (s'.threads u).hits = 0 := by
  cases h with
  | call hrun htodo =>
      rw [setThread_of_ne hu]
      exact Or.inl rfl
  | exit hrun htodo =>
      rw [setThread_of_ne hu]
      exact Or.inl rfl
  | @detach t thread c hrun htodo hjoin =>
      left
      by_cases huc : u = c
      · rw [huc, setThread_self]
      · rw [setThread_of_ne huc]
  | @micro t m r rest s₁ hrun htodo heff =>
      rw [setTodo_of_ne hu]
      rcases effected_threads heff with ⟨c, -, -, rfl, -⟩ | ⟨thr, -, -, -, -, rfl⟩ |
        ⟨-, hits, hit, hthreads⟩
      · by_cases huc : u = c
        · right
          rw [huc, Process.start]
          exact congrArg Thread.hits setThread_self
        · left
          exact congrArg Thread.hits (setThread_of_ne huc)
      · left
        by_cases huc : u = r.child
        · rw [huc, setThread_self]
        · rw [setThread_of_ne huc]
      · left
        rw [hthreads, Function.update_of_ne hu]

/-- A check adds a hit only where it finds a conflict. -/
theorem effected_hits (h : Effected s t r m s₁) (hmem : t ∈ s.names) :
    (s₁.threads t).hits = (s.threads t).hits ∨ ∃ a w th prev, m = .word a w ∧
      s.handles t = .live th ∧
      (rzRaceAccessLoc (s.shards (shardOf w)) th (w * 8) a.isWrite a.file a.line).1 = some prev := by
  have hstart : ∀ c v, s.MayStart c v →
      ((s.start c v).threads t).hits = (s.threads t).hits := by
    intro c v hmay
    have htc : t ≠ c := fun htc => hmay.1 (htc ▸ hmem)
    exact congrArg Thread.hits (setThread_of_ne htc)
  cases h with
  | create hrc hmay => exact Or.inl (hstart _ _ hmay)
  | createUntracked hrc hc hmay => exact Or.inl (hstart _ _ hmay)
  | join hrc hjoin hexit =>
      left
      by_cases htc : t = r.child
      · rw [htc, setThread_self]
      · rw [setThread_of_ne htc]
  | acquire ht => exact Or.inl (by rw [acquireStep_threads])
  | release ht => exact Or.inl (by rw [releaseStep_threads])
  | finish => exact Or.inl (by rw [finishStep_threads])
  | @word th a w ht =>
      cases hprev : (rzRaceAccessLoc (s.shards (shardOf w)) th (w * 8) a.isWrite a.file a.line).1 with
      | none =>
          left
          change (((s.setShard (shardOf w) _).addHit t th.tid w
            (rzRaceAccessLoc (s.shards (shardOf w)) th (w * 8) a.isWrite a.file a.line).1).threads
              t).hits = _
          rw [hprev]
          rfl
      | some prev => exact Or.inr ⟨a, w, th, prev, rfl, ht, hprev⟩
  | _ => exact Or.inl rfl

/-- The hits of the acting thread: those it had, in the same access, or that of a racy
check. -/
theorem HitsRacy.step_self (h : HitsRacy es s) (hinv : s.JoinInv) (hcover : ClocksCover i es s)
    (hcells : CellsRecorded i es s) (hst : Stepped s e s')
    (hhits : (s'.threads e.thread).hits ≠ 0) :
    ∃ a, (s'.threads e.thread).todo <:+ accessRange a ∧ ∃ k w r,
      (es ++ [e])[k]? = some ⟨e.thread, .step (.word a w) r⟩ ∧ Racy (es ++ [e]) k := by
  have hmem := hinv.wf.running_mem hst.running
  -- the hits that the thread had before, with what is then left of the access
  have hkeep : (s.threads e.thread).hits ≠ 0 →
      (∀ a, (s.threads e.thread).todo <:+ accessRange a →
        (s'.threads e.thread).todo <:+ accessRange a) →
      ∃ a, (s'.threads e.thread).todo <:+ accessRange a ∧ ∃ k w r,
        (es ++ [e])[k]? = some ⟨e.thread, .step (.word a w) r⟩ ∧ Racy (es ++ [e]) k := by
    intro hold hleft
    obtain ⟨a, hplace, k, w, r, hk, hracy⟩ := h.hits e.thread hold
    refine ⟨a, hleft a hplace, k, w, r, ?_, hracy.append⟩
    rw [List.getElem?_append_left (List.getElem?_eq_some_iff.mp hk).1, hk]
  cases hst with
  | call hrun htodo => simp at hhits
  | exit hrun htodo =>
      rw [setThread_self] at hhits
      refine hkeep hhits fun a hplace => ?_
      rw [setThread_self]
      exact hplace
  | @detach t thread c hrun htodo hjoin =>
      by_cases htc : t = c
      · subst htc
        rw [setThread_self] at hhits
        refine hkeep hhits fun a hplace => ?_
        rw [setThread_self]
        exact hplace
      · simp only [setThread_of_ne htc] at hhits
        refine hkeep hhits fun a hplace => ?_
        simp only [setThread_of_ne htc]
        exact hplace
  | @micro t m r rest s₁ hrun htodo heff =>
      simp only [setTodo_self] at hhits hkeep ⊢
      rcases effected_hits heff hmem with hsame | ⟨a, w, th, prev, rfl, ht, hprev⟩
      · refine hkeep (hsame ▸ hhits) fun a hplace => ?_
        rw [htodo] at hplace
        obtain ⟨hnext, hrest⟩ := next_in_access (s := s) (r := r) hplace
        rw [hnext]
        exact hrest
      · have hplace : (s.threads t).todo <:+ accessRange a :=
          h.place t (.word a w) (htodo ▸ List.mem_cons_self ..) a rfl
        have hhead : s.head t = some (.word a w) := by rw [Process.head, htodo, List.head?_cons]
        rw [htodo] at hplace
        refine ⟨a, (next_in_access (s := s) (r := r) hplace).2, es.length, w, r,
          List.getElem?_concat_length, ?_⟩
        exact racy_of_conflict hinv hcover hcells hhead hrun ht hprev

theorem HitsRacy.step (h : HitsRacy es s) (hinv : s.JoinInv) (hcover : ClocksCover i es s)
    (hcells : CellsRecorded i es s) (hst : Stepped s e s') : HitsRacy (es ++ [e]) s' := by
  constructor
  · intro t m hm a ha
    by_cases ht : t = e.thread
    · subst ht
      rcases hst.todo_self with ⟨c, -, htodo⟩ | ⟨m₀, r, rest, s₁, -, htodo, -, hs'⟩ | htodo
      · rw [htodo] at hm ⊢
        exact script_place hm ha
      · have hplace := h.place e.thread
        rw [htodo] at hplace
        simp only [hs', setTodo_self] at hm ⊢
        exact next_place hplace hm ha
      · simp [htodo] at hm
    · rw [hst.todo_other hinv.wf ht] at hm ⊢
      exact h.place t m hm a ha
  · intro t hhits
    by_cases ht : t = e.thread
    · subst ht
      exact h.step_self hinv hcover hcells hst hhits
    · rw [hst.todo_other hinv.wf ht]
      rcases hst.hits_other ht with hsame | hzero
      · obtain ⟨a, hplace, k, w, r, hk, hracy⟩ := h.hits t (hsame ▸ hhits)
        refine ⟨a, hplace, k, w, r, ?_, hracy.append⟩
        rw [List.getElem?_append_left (List.getElem?_eq_some_iff.mp hk).1, hk]
      · exact absurd hzero hhits

end Hits

/-! ## Runs -/

/-- Clocks, cells and hits together. -/
structure RacesSound (i : Init) (es : List Event) (s : Process) : Prop where
  inv : s.JoinInv
  cover : ClocksCover i es s
  cells : CellsRecorded i es s
  hits : HitsRacy es s

theorem racesSound_initial (i : Init) : RacesSound i [] (.initial i) := by
  refine ⟨joinInv_initial i, clocksCover_initial, ⟨fun sh => tableInv_init .., ?_⟩, ⟨?_, ?_⟩⟩
  · intro w k hvalid
    simp [Process.cellsAt, Process.initial, cellsOf_init, noCells, RzAccess.empty] at hvalid
  · intro t m hm
    have hhead := initial_head i t
    rw [Process.head, List.head?_eq_none_iff] at hhead
    simp [hhead] at hm
  · intro t hhits
    by_cases ht : t = 0
    · simp [Process.initial, ht, Thread.started] at hhits
    · simp [Process.initial, ht, Thread.unborn] at hhits

theorem RacesSound.step {i : Init} {es : List Event} {s s' : Process} {e : Event}
    (h : RacesSound i es s) (hrun : processRun i es = some s) (hcond : e.OnStep s.EdgesKept)
    (hst : Stepped s e s') : RacesSound i (es ++ [e]) s' :=
  ⟨h.inv.step (edgesKept_joinTracked hcond) hst, h.cover.step h.inv hrun hcond hst,
    h.cells.step hrun hst, h.hits.step h.inv h.cover h.cells hst⟩

theorem racesSound_of_run {i : Init} {es : List Event} {s : Process} (hkept : KeepsEdges i es)
    (hrun : processRun i es = some s) : RacesSound i es s :=
  run_induction (P := RacesSound i) (racesSound_initial i)
    (fun _ _ _ _ hs hcond h hstep => h.step hs hcond (Process.stepped hstep)) es hkept hrun

end Redzone.Runtime
