/-
  Race/EngineSound.lean --- the engine reports no ordered pair of accesses.

  The cells are records of real accesses of their word (`CellSound`).  A reported
  cell is past the clock of the accessing thread, and that clock covers the thread's
  past, so the access behind the cell is not in the past of the report.

  The one thing that can go wrong is the width of an epoch.  `rz_epoch_t` has 64
  bits; a thread that ticks `2 ^ 64` times starts again from 0, and from then on its
  clock is below accesses it performed earlier.  `wrapRun` is such a run.
-/
import Redzone.Race.EngineClocks

set_option autoImplicit false

namespace Redzone.Race

open Redzone.Foundation

/-! ## Cells are records of accesses -/

/-- An access of the run stands behind a cell of `word`: same word, same thread,
performed in the epoch of the cell, and a write if the cell says so. -/
def Recorded (nbuckets : ℕ) (es : List Event) (s : EngineState) (word : ℕ)
    (cell : RzAccess) : Prop :=
  ∃ i u addr isWrite file line th,
    es[i]? = some (.access u addr isWrite file line) ∧ wordOf addr = word ∧
      s.threads u = some th ∧ th.tid = cell.tid ∧
      (∀ k, slotOf cell.tid = some k → stampAt nbuckets es i = some (k, cell.epoch)) ∧
      (cell.isWrite = true → isWrite = true)

/-- The table is well formed and every cell in it is a record. -/
structure CellSound (nbuckets : ℕ) (es : List Event) (s : EngineState) : Prop where
  inv : TableInv s.race
  recorded : ∀ word cells, s.race.cellsOf word = some cells →
    ∀ i, (cells i).valid = true → Recorded nbuckets es s word (cells i)

section CellSound

variable {nbuckets : ℕ} {es : List Event} {e : Event} {s s' : EngineState} {word : ℕ}
  {cell : RzAccess}

theorem cellSound_initial : CellSound nbuckets [] (.initial nbuckets) := by
  have hinv : TableInv (EngineState.initial nbuckets).race := tableInv_init nbuckets true
  refine ⟨hinv, fun word cells hcells => ?_⟩
  obtain ⟨p, hkey, -⟩ := hinv.cellsOf_eq_some.mp hcells
  simp [EngineState.initial, rzRaceStateInitN, RzBucket.empty] at hkey

/-- Records stay records. -/
theorem Recorded.step (h : Recorded nbuckets es s word cell) (hfits : s.TicksFit e)
    (hstep : Stepped s e s') : Recorded nbuckets (es ++ [e]) s' word cell := by
  obtain ⟨i, u, addr, isWrite, file, line, th, hi, hword, hth, htid, hstamp, hw⟩ := h
  have hlt : i < es.length := (List.getElem?_eq_some_iff.mp hi).1
  obtain ⟨th', hth', htid', -⟩ := hstep.thread_mono hfits hth
  refine ⟨i, u, addr, isWrite, file, line, th', ?_, hword, hth', htid'.trans htid, ?_, hw⟩
  · rw [List.getElem?_append_left hlt, hi]
  · rw [stampAt_append_left hlt]
    exact hstamp

/-- A call other than an access leaves the table alone. -/
theorem Stepped.cellsOf_eq (hstep : Stepped s e s')
    (hlocal : ∀ t addr isWrite file line, e ≠ .access t addr isWrite file line) :
    s'.race.cellsOf = s.race.cellsOf ∧ (TableInv s.race → TableInv s'.race) := by
  cases hstep with
  | access ht => exact absurd rfl (hlocal _ _ _ _ _)
  | init ht => exact ⟨rfl, fun h => ⟨h.located, h.blank⟩⟩
  | create hp hc => exact ⟨rfl, fun h => ⟨h.located, h.blank⟩⟩
  | join hp hc => exact ⟨rfl, id⟩
  | acquire ht => exact ⟨rfl, id⟩
  | release ht => exact ⟨rfl, id⟩

/-- The cell a new access is recorded in stands for that access, or, where the two
are combined, for the earlier write of the same epoch. -/
theorem recorded_recordCell {t addr : ℕ} {isWrite : Bool} {file : Option String} {line : ℤ}
    {th : RzThread} {c : RzAccess} (hrun : engineRun nbuckets es = some s)
    (hstep : Stepped s (.access t addr isWrite file line) s')
    (ht : s.threads t = some th)
    (hold : c.valid = true → Recorded nbuckets es s (wordOf addr) c) :
    Recorded nbuckets (es ++ [.access t addr isWrite file line]) s' (wordOf addr)
      (recordCell c th isWrite file line) := by
  have hfits : s.TicksFit (.access t addr isWrite file line) := trivial
  obtain ⟨th', hth', htid', -⟩ := hstep.thread_mono hfits ht
  by_cases hcombine : (c.valid && c.tid == th.tid && c.epoch == curEpoch th) = true ∧
      isWrite = false ∧ c.isWrite = true
  · -- an earlier write in this epoch is what makes the cell a write
    obtain ⟨hsame, hread, hwrite⟩ := hcombine
    simp only [Bool.and_eq_true, beq_iff_eq] at hsame
    obtain ⟨⟨hvalid, htid⟩, hepoch⟩ := hsame
    obtain ⟨i, u, addr', w, f, l, thu, hi, hword, hthu, htidu, hstamp, hw⟩ :=
      (hold hvalid).step hfits hstep
    refine ⟨i, u, addr', w, f, l, thu, hi, hword, hthu, htidu.trans htid, ?_, fun _ => hw hwrite⟩
    simpa [recordCell, htid, hepoch] using hstamp
  · refine ⟨es.length, t, addr, isWrite, file, line, th', by simp, rfl, hth', htid', ?_, ?_⟩
    · intro k hk
      rw [stampAt_last hrun, EngineState.stamp_eq_some]
      exact ⟨th, ht, hk, by simp only [recordCell, curEpoch] at hk ⊢; rw [hk]⟩
    · intro hw
      simp only [recordCell] at hw
      split at hw
      · rename_i hsame
        cases hread : isWrite with
        | true => rfl
        | false => exact absurd ⟨hsame, hread, by simpa [hread] using hw⟩ hcombine
      · exact hw

/-- What holds of every cell before a call holds of every cell after it, if it holds of
the cell that an access records. -/
theorem Stepped.cells_step {P Q : ℕ → RzAccess → Prop} (hstep : Stepped s e s')
    (hinv : TableInv s.race)
    (hcells : ∀ word cells, s.race.cellsOf word = some cells →
      ∀ i, (cells i).valid = true → P word (cells i))
    (hkeep : ∀ word c, P word c → Q word c)
    (hrecord : ∀ t addr isWrite file line th i, e = .access t addr isWrite file line →
      s.threads t = some th →
      recordSlot ((s.race.cellsOf (wordOf addr)).getD noCells) th.tid = i →
      ((((s.race.cellsOf (wordOf addr)).getD noCells) i).valid = true →
        P (wordOf addr) (((s.race.cellsOf (wordOf addr)).getD noCells) i)) →
      Q (wordOf addr)
        (recordCell (((s.race.cellsOf (wordOf addr)).getD noCells) i) th isWrite file line)) :
    TableInv s'.race ∧ ∀ word cells, s'.race.cellsOf word = some cells →
      ∀ i, (cells i).valid = true → Q word (cells i) := by
  by_cases haccess : ∃ t addr isWrite file line, e = .access t addr isWrite file line
  · obtain ⟨t, addr, isWrite, file, line, rfl⟩ := haccess
    cases hstep with
    | @access _ _ _ _ _ th ht =>
      obtain ⟨-, hfull⟩ | ⟨-, heff⟩ := rzRaceAccessLoc_spec hinv th addr isWrite file line
      · -- a full table: nothing is recorded
        simp only [hfull]
        refine ⟨hinv, fun word cells hword i hvalid => ?_⟩
        exact hkeep word (cells i) (hcells word cells hword i hvalid)
      · refine ⟨heff.inv, fun word cells hword i hvalid => ?_⟩
        -- the cells of the accessed word before the access
        have hold : ∀ j, (((s.race.cellsOf (wordOf addr)).getD noCells) j).valid = true →
            P (wordOf addr) (((s.race.cellsOf (wordOf addr)).getD noCells) j) := by
          intro j hj
          cases hc : s.race.cellsOf (wordOf addr) with
          | none => simp [hc, noCells, RzAccess.empty] at hj
          | some old =>
            simp only [hc, Option.getD_some] at hj ⊢
            exact hcells _ old hc j hj
        by_cases hsame : word = wordOf addr
        · subst hsame
          obtain rfl := Option.some.inj (heff.recorded.symm.trans hword)
          simp only [recordAccess] at hvalid ⊢
          by_cases hslot : i = recordSlot ((s.race.cellsOf (wordOf addr)).getD noCells) th.tid
          · subst hslot
            rw [Function.update_self]
            exact hrecord t addr isWrite file line th _ rfl ht rfl (hold _)
          · rw [Function.update_of_ne hslot] at hvalid ⊢
            exact hkeep _ _ (hold i hvalid)
        · have hword' : s.race.cellsOf word = some cells :=
            (heff.other word hsame).symm.trans hword
          exact hkeep word (cells i) (hcells word cells hword' i hvalid)
  · have hlocal : ∀ t addr isWrite file line, e ≠ .access t addr isWrite file line :=
      fun t addr isWrite file line he => haccess ⟨t, addr, isWrite, file, line, he⟩
    obtain ⟨hcellsOf, hinv'⟩ := hstep.cellsOf_eq hlocal
    refine ⟨hinv' hinv, fun word cells hword i hvalid => ?_⟩
    rw [hcellsOf] at hword
    exact hkeep word (cells i) (hcells word cells hword i hvalid)

theorem CellSound.step (h : CellSound nbuckets es s) (hrun : engineRun nbuckets es = some s)
    (hfits : s.TicksFit e) (hstep : Stepped s e s') :
    CellSound nbuckets (es ++ [e]) s' := by
  obtain ⟨hinv, hrecorded⟩ := hstep.cells_step (P := Recorded nbuckets es s)
    (Q := Recorded nbuckets (es ++ [e]) s') h.inv h.recorded
    (fun _ _ hold => hold.step hfits hstep) (by
      intro t addr isWrite file line th i he ht _ hold
      subst he
      exact recorded_recordCell hrun hstep ht hold)
  exact ⟨hinv, hrecorded⟩

end CellSound

/-! ## No false positives -/

/-- Clocks and cells together, over every run whose epochs fit. -/
theorem engine_sound {nbuckets : ℕ} {es : List Event} {s : EngineState}
    (hfits : EpochsFit nbuckets es) (hrun : engineRun nbuckets es = some s) :
    ClockSound nbuckets es s ∧ CellSound nbuckets es s := by
  refine run_induction (P := fun es s => ClockSound nbuckets es s ∧ CellSound nbuckets es s)
    ⟨clockSound_initial, cellSound_initial⟩ ?_ es hfits hrun
  rintro es e m m' hm hfit ⟨hclock, hcell⟩ hstep
  have hstepped := EngineState.stepped hstep
  exact ⟨hclock.step hm hfit hstepped, hcell.step hm hfit hstepped⟩

/-- A cell that is in conflict with a new access passes the pairwise decision. -/
theorem conflictingCell_eq_some {cells : Cells} {t : RzThread} {isWrite : Bool}
    {cell : RzAccess} (h : conflictingCell cells t isWrite = some cell) :
    ∃ k, cells k = cell ∧ rzRaceCheck cell t.tid t.clock isWrite = true := by
  unfold conflictingCell at h
  obtain ⟨k, hk, rfl⟩ := Option.map_eq_some_iff.mp h
  exact ⟨k, rfl, by simpa using List.find?_some hk⟩

/-- What a report says: the cell is one of the accessed word, of another thread, in
conflict with the access, and past the clock of the accessing thread. -/
theorem CellSound.verdict_eq_some {nbuckets : ℕ} {es : List Event} {s : EngineState} {f : Event}
    {cell : RzAccess} (h : CellSound nbuckets es s) (hverdict : s.verdict f = some cell) :
    ∃ t addr isWrite file line th, f = .access t addr isWrite file line ∧
      s.threads t = some th ∧ cell.valid = true ∧ cell.tid ≠ th.tid ∧
      (cell.isWrite = true ∨ isWrite = true) ∧
      (∃ u, slotOf cell.tid = some u ∧ th.clock u < cell.epoch) ∧
      ∃ cells k, s.race.cellsOf (wordOf addr) = some cells ∧ cells k = cell := by
  cases f with
  | access t addr isWrite file line =>
    obtain ⟨th, ht, hverdict⟩ := Option.bind_eq_some_iff.mp hverdict
    obtain ⟨-, hfull⟩ | ⟨-, heff⟩ := rzRaceAccessLoc_spec h.inv th addr isWrite file line
    · simp [hfull] at hverdict
    rw [heff.found] at hverdict
    obtain ⟨k, hk, hcheck⟩ := conflictingCell_eq_some hverdict
    obtain ⟨hvalid, htid, hwrite, hpast⟩ := rzRaceCheck_eq_true.mp hcheck
    refine ⟨t, addr, isWrite, file, line, th, rfl, ht, hvalid, htid, hwrite, hpast, ?_⟩
    cases hc : s.race.cellsOf (wordOf addr) with
    | none =>
      rw [hc] at hk
      simp [← hk, noCells, RzAccess.empty] at hvalid
    | some cells =>
      rw [hc, Option.getD_some] at hk
      exact ⟨cells, k, rfl, hk⟩
  | _ => simp [EngineState.verdict] at hverdict

/-- An access that a cell stands for does not happen before an access whose clock the
cell is past. -/
theorem not_engineHB_of_stamp {nbuckets : ℕ} {es : List Event} {s : EngineState} {i j t addr : ℕ}
    {isWrite : Bool} {file : Option String} {line : ℤ} {th : RzThread} {u : Fin maxThreads}
    {epoch : ℕ} (hclock : ClockSound nbuckets (es.take j) s)
    (hf : es[j]? = some (.access t addr isWrite file line)) (ht : s.threads t = some th)
    (hstamp : stampAt nbuckets (es.take j) i = some (u, epoch)) (hpast : th.clock u < epoch) :
    ¬ EngineHB es i j := by
  intro hhb
  have hmem : i ∈ incoming (es.take j) (.access t addr isWrite file line) :=
    (mem_incoming_iff eventOrder hf).mpr hhb
  rw [incoming_local (by simp) (by simp)] at hmem
  have hle := hclock.thread t th ht i hmem u epoch hstamp
  omega

theorem lt_of_getElem?_take {es : List Event} {e : Event} {i j : ℕ}
    (h : (es.take j)[i]? = some e) : i < j ∧ es[i]? = some e := by
  have hlt : i < j := by
    have hlen := (List.getElem?_eq_some_iff.mp h).1
    simp only [List.length_take] at hlen
    omega
  exact ⟨hlt, by rwa [List.getElem?_take_of_lt hlt] at h⟩

/-- Every access the engine reports is unordered with an earlier conflicting access. -/
def NoFalsePositive (nbuckets : ℕ) (es : List Event) : Prop :=
  ∀ j, Reports nbuckets es j → ∃ i e f, i < j ∧ es[i]? = some e ∧ es[j]? = some f ∧
    Conflict e f ∧ ¬ EngineHB es i j

/-- **No false positives.**  In a run without epoch overflow, over any number of
threads, sync objects and words, an access that returns 1 conflicts with an earlier
access of another thread that does not happen before it. -/
theorem noFalsePositive_of_epochsFit (nbuckets : ℕ) (es : List Event)
    (hfits : EpochsFit nbuckets es) : NoFalsePositive nbuckets es := by
  rintro j ⟨s, f, hrun, hf, hverdict⟩
  obtain ⟨hclock, hcell⟩ := engine_sound (EveryStep.take hfits j) hrun
  obtain ⟨cell, hverdict⟩ := Option.isSome_iff_exists.mp hverdict
  obtain ⟨t, addr, isWrite, file, line, th, rfl, ht, hvalid, htid, hwrite, ⟨u, hu, hpast⟩,
    cells, k, hcells, rfl⟩ := hcell.verdict_eq_some hverdict
  -- the reported cell is a record of an earlier access
  obtain ⟨i, v, addr', isWrite', file', line', thv, hi, hword, hv, htidv, hstamp, hw⟩ :=
    hcell.recorded _ cells hcells k hvalid
  obtain ⟨hij, hi⟩ := lt_of_getElem?_take hi
  have hthread : v ≠ t := by
    rintro rfl
    obtain rfl : th = thv := by simpa [ht] using hv
    exact htid htidv.symm
  have hconflict : Conflict (.access v addr' isWrite' file' line')
      (.access t addr isWrite file line) := ⟨hword, hthread, hwrite.imp hw id⟩
  exact ⟨i, _, _, hij, hi, hf, hconflict,
    not_engineHB_of_stamp hclock hf ht (hstamp u hu) hpast⟩

/-- The theorem at a run that does report: two unordered writes. -/
theorem noFalsePositive_twoWrites :
    EpochsFit 4 [.init 0, .init 1, .access 0 64 true none 0, .access 1 64 true none 0] ∧
      NoFalsePositive 4
        [.init 0, .init 1, .access 0 64 true none 0, .access 1 64 true none 0] :=
  ⟨by decide, noFalsePositive_of_epochsFit _ _ (by decide)⟩

/-! ## Epoch overflow

`wrapRun n` hands a word over by a release and an acquire: thread 0 writes the word,
releases sync object 0 `n` times, releases sync object 1 once; thread 1 acquires sync
object 1 and writes the word. -/

/-- Two threads, and the first write. -/
def wrapPrefix : List Event := [.init 0, .init 1, .access 0 0 true none 0]

/-- Everything up to the second write. -/
def wrapHandover (n : ℕ) : List Event :=
  wrapPrefix ++ List.replicate n (.release 0 0) ++ [.release 0 1, .acquire 1 1]

/-- The handover and the second write. -/
def wrapRun (n : ℕ) : List Event := wrapHandover n ++ [.access 1 0 true none 0]

theorem wrapHandover_length (n : ℕ) : (wrapHandover n).length = n + 5 := by
  simp [wrapHandover, wrapPrefix]

/-- The clock of thread 0 after `n` releases. -/
def wrapClock (n : ℕ) : RzVc := Function.update rzVcInit 0 ((1 + n) % epochBound)

/-- The shadow after the first write. -/
def wrapShadow : RzRaceState :=
  (rzRaceAccessLoc ⟨fun _ => .empty, raceBuckets, 2⟩ ⟨0, wrapClock 0⟩ 0 true none 0).2

theorem slotOf_zero : slotOf 0 = some 0 := rfl

theorem rzVcTick_wrapClock (n : ℕ) : rzVcTick (wrapClock n) 0 = wrapClock (n + 1) := by
  rw [rzVcTick_of_slot slotOf_zero, wrapClock, wrapClock, Function.update_idem,
    Function.update_self]
  congr 1
  rw [Nat.mod_add_mod, Nat.add_assoc]

/-- `n` releases of sync object 0 move the epoch of thread 0 and nothing else that
matters to thread 1. -/
theorem run_releases {s : EngineState} {m : ℕ} (h0 : s.threads 0 = some ⟨0, wrapClock m⟩)
    (n : ℕ) :
    ∃ s', run EngineState.step s (List.replicate n (.release 0 0)) = some s' ∧
      s'.threads 0 = some ⟨0, wrapClock (m + n)⟩ ∧ s'.threads 1 = s.threads 1 ∧
      s'.syncs 1 = s.syncs 1 ∧ s'.race = s.race := by
  induction n with
  | zero => exact ⟨s, rfl, h0, rfl, rfl, rfl⟩
  | succ n ih =>
    obtain ⟨s', hs, h0', h1, hsync, hrace⟩ := ih
    rw [List.replicate_succ']
    have hstep := (Stepped.release (m := 0) h0').step_eq
    refine ⟨_, run_snoc_eq_some.mpr ⟨s', hs, hstep⟩, ?_, ?_, ?_, hrace⟩
    · simp [rzMutexRelease, rzVcTick_wrapClock, Nat.add_assoc]
    · simpa [EngineState.setThread] using h1
    · simpa using hsync

/-- What thread 1 knows after a release by thread 0 and an acquire. -/
theorem run_handover {s : EngineState} {m : ℕ} {c : RzVc}
    (h0 : s.threads 0 = some ⟨0, wrapClock m⟩) (h1 : s.threads 1 = some ⟨1, c⟩)
    (hsync : s.syncs 1 = rzSyncInit) :
    ∃ s', run EngineState.step s [.release 0 1, .acquire 1 1] = some s' ∧
      s'.threads 0 = some ⟨0, wrapClock (m + 1)⟩ ∧
      s'.threads 1 = some ⟨1, rzVcJoin c (rzVcJoin rzVcInit (wrapClock m))⟩ ∧
      s'.race = s.race := by
  obtain ⟨s₁, hrel, h0', h1', hsync', hrace'⟩ : ∃ s₁, s.step (.release 0 1) = some s₁ ∧
      s₁.threads 0 = some ⟨0, wrapClock (m + 1)⟩ ∧ s₁.threads 1 = some ⟨1, c⟩ ∧
      s₁.syncs 1 = ⟨rzVcJoin rzVcInit (wrapClock m)⟩ ∧ s₁.race = s.race := by
    refine ⟨_, (Stepped.release h0).step_eq, ?_, ?_, ?_, rfl⟩
    · simp [rzMutexRelease, rzVcTick_wrapClock]
    · simpa [EngineState.setThread] using h1
    · simp [hsync, rzMutexRelease, rzSyncInit]
  have hacq := (Stepped.acquire (m := 1) h1').step_eq
  refine ⟨s₁.setThread 1 (rzMutexAcquire ⟨1, c⟩ (s₁.syncs 1)), ?_, ?_, ?_, hrace'⟩
  · rw [run_cons, hrel, Option.bind_some, run_cons, hacq, Option.bind_some, run_nil]
  · simpa [EngineState.setThread] using h0'
  · rw [EngineState.setThread_self, hsync']
    rfl

/-- The state of the engine when thread 1 has acquired object 1, if the epoch of
thread 0 has wrapped to 0. -/
theorem run_wrapHandover {n : ℕ} (hn : (1 + n) % epochBound = 0) :
    ∃ s, engineRun raceBuckets (wrapHandover n) = some s ∧ s.race = wrapShadow ∧
      s.threads 1 = some
        ⟨1, rzVcJoin (rzVcTick rzVcInit 1) (rzVcJoin rzVcInit rzVcInit)⟩ := by
  have hclock : wrapClock n = rzVcInit := by
    rw [wrapClock, hn]
    exact Function.update_eq_self 0 rzVcInit
  obtain ⟨s₀, hs₀, h0, h1, hsync, hrace⟩ : ∃ s, engineRun raceBuckets wrapPrefix = some s ∧
      s.threads 0 = some ⟨0, wrapClock 0⟩ ∧ s.threads 1 = some ⟨1, rzVcTick rzVcInit 1⟩ ∧
      s.syncs 1 = rzSyncInit ∧ s.race = wrapShadow := ⟨_, rfl, rfl, rfl, rfl, rfl⟩
  obtain ⟨s₁, hs₁, h0', h1', hsync', hrace'⟩ := run_releases h0 n
  obtain ⟨s₂, hs₂, -, h1'', hrace''⟩ := run_handover h0' (h1'.trans h1) (hsync'.trans hsync)
  rw [Nat.zero_add, hclock] at h1''
  refine ⟨s₂, ?_, hrace''.trans (hrace'.trans hrace), h1''⟩
  exact run_append_eq_some.mpr ⟨s₁, run_append_eq_some.mpr ⟨s₀, hs₀, hs₁⟩, hs₂⟩

/-- After a wrap, thread 1 imports an epoch below the one thread 0 wrote in, and its
write is reported. -/
theorem wrapRun_reports {n : ℕ} (hn : (1 + n) % epochBound = 0) :
    Reports raceBuckets (wrapRun n) (n + 5) := by
  obtain ⟨s, hs, hrace, h1⟩ := run_wrapHandover hn
  refine ⟨s, .access 1 0 true none 0, ?_, ?_, ?_⟩
  · rw [wrapRun, List.take_left' (wrapHandover_length n), hs]
  · rw [wrapRun, ← wrapHandover_length n, List.getElem?_concat_length]
  · simp only [EngineState.verdict, h1, hrace, Option.bind_some]
    decide

/-- The two writes are ordered: program order to the release of object 1, the
acquire of it, program order again. -/
theorem wrapRun_ordered {n i : ℕ} {e : Event} (hi : (wrapRun n)[i]? = some e)
    (hconf : Conflict e (.access 1 0 true none 0)) (hlt : i < n + 5) :
    EngineHB (wrapRun n) i (n + 5) := by
  have hrel : (wrapRun n)[n + 3]? = some (.release 0 1) := by
    simp [wrapRun, wrapHandover, wrapPrefix]
  have hacq : (wrapRun n)[n + 4]? = some (.acquire 1 1) := by
    simp [wrapRun, wrapHandover, wrapPrefix]
  have hlast : (wrapRun n)[n + 5]? = some (.access 1 0 true none 0) := by
    simp [wrapRun, wrapHandover, wrapPrefix]
  have hactor : e = .access 0 0 true none 0 := by
    have hmem := List.mem_of_getElem? hi
    cases e with
    | access t addr isWrite file line =>
      have ht : t ≠ 1 := hconf.2.1
      simpa [wrapRun, wrapHandover, wrapPrefix, ht] using hmem
    | _ => simp [Conflict] at hconf
  subst hactor
  have hi₃ : i ≠ n + 3 := by
    rintro rfl
    simp [hrel] at hi
  have hi₄ : i ≠ n + 4 := by
    rintro rfl
    simp [hacq] at hi
  have hpo : EngineHB (wrapRun n) i (n + 3) := .of_actor (by omega) hi hrel rfl
  have hsync : EngineHB (wrapRun n) (n + 3) (n + 4) :=
    .of_object (by omega) hrel hacq (o := .sync 1) (by simp [eventOrder]) (by simp [eventOrder])
  exact (hpo.trans hsync).trans (.of_actor (by omega) hacq hlast rfl)

/-- A wrapped run is legitimate, and has a false positive. -/
theorem wrapRun_falsePositive {n : ℕ} (hn : (1 + n) % epochBound = 0) :
    JoinedStops (wrapRun n) ∧ ¬ NoFalsePositive raceBuckets (wrapRun n) := by
  have hlast : (wrapRun n)[n + 5]? = some (.access 1 0 true none 0) := by
    rw [wrapRun, ← wrapHandover_length, List.getElem?_concat_length]
  constructor
  · refine List.pairwise_of_forall_mem_list fun e he f _ => ?_
    cases e with
    | join p c => simp [wrapRun, wrapHandover, wrapPrefix] at he
    | _ => trivial
  · intro h
    obtain ⟨i, e, f, hlt, hi, hf, hconf, hhb⟩ := h _ (wrapRun_reports hn)
    obtain rfl : f = .access 1 0 true none 0 := by simpa [hlast] using hf.symm
    exact hhb (wrapRun_ordered hi hconf hlt)

/-- No false positives fails on the 64-bit counter: after `2 ^ 64 - 1` releases by
thread 0 the engine reports two writes that a release and an acquire order. -/
theorem epochWrap_reports_ordered :
    JoinedStops (wrapRun (2 ^ 64 - 1)) ∧
      ¬ NoFalsePositive raceBuckets (wrapRun (2 ^ 64 - 1)) :=
  wrapRun_falsePositive (by decide)

end Redzone.Race
