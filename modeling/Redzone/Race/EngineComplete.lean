/-
  Race/EngineComplete.lean --- which races the engine is sure to report.

  A word has `RZ_RACE_CELLS` cells and a thread at most one of them, so while no more
  than that many threads touch the word no cell is ever evicted.  Each of these
  threads then has a cell with the epoch of its latest access, marked as a write if it
  wrote in that epoch (`WordKept`).  An access that is not ordered after one of them
  has a clock below that epoch, by `ClockReflects`, and is reported.

  What a cell no longer represents is lost by design: the accesses of earlier epochs.
  And as in the other direction, an epoch that overflows loses races as well.
-/
import Redzone.Race.EngineEpochs

set_option autoImplicit false

namespace Redzone.Race

open Redzone.Foundation

/-! ## The accesses of one word -/

/-- The thread by which `e` is an access to `word`. -/
def Event.toucher (word : ℕ) : Event → Option ℕ
  | .access t addr _ _ _ => if wordOf addr = word then some t else none
  | _ => none

/-- The call is a write. -/
def Event.isWrite : Event → Bool
  | .access _ _ isWrite _ _ => isWrite
  | _ => false

/-- The threads that have touched `word`. -/
def touchers (es : List Event) (word : ℕ) : Finset ℕ :=
  (es.filterMap (Event.toucher word)).toFinset

/-- An access to `word` finds a bucket. -/
def EngineState.Finds (word : ℕ) (s : EngineState) : Event → Prop
  | .access _ addr _ _ _ => wordOf addr = word → FindsBucket s.race addr
  | _ => True

instance (word : ℕ) (s : EngineState) : (e : Event) → Decidable (s.Finds word e)
  | .access _ addr _ _ _ =>
    inferInstanceAs (Decidable (wordOf addr = word → FindsBucket s.race addr))
  | .init _ | .create _ _ | .join _ _ | .acquire _ _ | .release _ _ => .isTrue trivial

/-- The accesses to `word` have all found a bucket. -/
def AccessesFound (nbuckets : ℕ) (es : List Event) (word : ℕ) : Prop :=
  EveryStep EngineState.step (EngineState.Finds word) (.initial nbuckets) es

instance (nbuckets : ℕ) (es : List Event) (word : ℕ) :
    Decidable (AccessesFound nbuckets es word) := decidableEveryStep ..

section Touchers

variable {es : List Event} {e : Event} {word t addr : ℕ} {isWrite : Bool}
  {file : Option String} {line : ℤ}

theorem mem_touchers {u : ℕ} :
    u ∈ touchers es word ↔ ∃ (q : ℕ) (f : Event), es[q]? = some f ∧
      f.toucher word = some u := by
  simp only [touchers, List.mem_toFinset, List.mem_filterMap]
  constructor
  · rintro ⟨f, hmem, hf⟩
    obtain ⟨q, hq⟩ := List.mem_iff_getElem?.mp hmem
    exact ⟨q, f, hq, hf⟩
  · rintro ⟨q, f, hq, hf⟩
    exact ⟨f, List.mem_of_getElem? hq, hf⟩

theorem touchers_subset_snoc : touchers es word ⊆ touchers (es ++ [e]) word := by
  intro u hu
  simp only [touchers, List.filterMap_append, List.toFinset_append, Finset.mem_union] at hu ⊢
  exact Or.inl hu

theorem toucher_eq_some {u : ℕ} : e.toucher word = some u ↔
    ∃ addr isWrite file line, e = .access u addr isWrite file line ∧ wordOf addr = word := by
  constructor
  · intro h
    cases e with
    | access t addr isWrite file line =>
      simp only [Event.toucher] at h
      split at h
      · rename_i hword
        obtain rfl := Option.some.inj h
        exact ⟨addr, isWrite, file, line, rfl, hword⟩
      · simp at h
    | _ => simp [Event.toucher] at h
  · rintro ⟨addr, isWrite, file, line, rfl, hword⟩
    simp [Event.toucher, hword]

theorem toucher_actor {u : ℕ} (h : e.toucher word = some u) : e.actor = u := by
  obtain ⟨addr, isWrite, file, line, rfl, -⟩ := toucher_eq_some.mp h
  rfl

end Touchers

/-! ## The cell an access is recorded in -/

/-- No thread has two cells. -/
def DistinctTids (cells : Cells) : Prop :=
  ∀ i j, (cells i).valid = true → (cells j).valid = true → (cells i).tid = (cells j).tid →
    i = j

/-- The own cell if there is one; otherwise a free one, or, when all are taken, 0. -/
theorem recordSlot_spec (cells : Cells) (tid : ℤ) :
    ((cells (recordSlot cells tid)).valid = true ∧
      (cells (recordSlot cells tid)).tid = tid) ∨
    ((∀ i, (cells i).valid = true → (cells i).tid ≠ tid) ∧
      ((cells (recordSlot cells tid)).valid = false ∨ ∀ i, (cells i).valid = true)) := by
  unfold recordSlot
  cases hown : (List.finRange raceCells).find?
      fun i => (cells i).valid && (cells i).tid == tid with
  | some i =>
    have hi := List.find?_some hown
    simp only [Bool.and_eq_true, beq_iff_eq] at hi
    exact Or.inl hi
  | none =>
    have hnone : ∀ i, (cells i).valid = true → (cells i).tid ≠ tid := by
      intro i hvalid htid
      have := List.find?_eq_none.mp hown i (List.mem_finRange i)
      simp [hvalid, htid] at this
    refine Or.inr ⟨hnone, ?_⟩
    cases hfree : (List.finRange raceCells).find? fun i => !(cells i).valid with
    | some i =>
      have hi := List.find?_some hfree
      exact Or.inl (by simpa using hi)
    | none =>
      refine Or.inr fun i => ?_
      have := List.find?_eq_none.mp hfree i (List.mem_finRange i)
      simpa using this

/-- A cell that the new access does not use is left alone. -/
theorem recordAccess_of_ne {cells : Cells} {t : RzThread} {isWrite : Bool}
    {file : Option String} {line : ℤ} {i : Fin raceCells} (h : i ≠ recordSlot cells t.tid) :
    recordAccess cells t isWrite file line i = cells i :=
  Function.update_of_ne h ..

theorem recordAccess_self (cells : Cells) (t : RzThread) (isWrite : Bool)
    (file : Option String) (line : ℤ) :
    recordAccess cells t isWrite file line (recordSlot cells t.tid) =
      recordCell (cells (recordSlot cells t.tid)) t isWrite file line :=
  Function.update_self ..

theorem DistinctTids.recordAccess {cells : Cells} (h : DistinctTids cells) (t : RzThread)
    (isWrite : Bool) (file : Option String) (line : ℤ) :
    DistinctTids (recordAccess cells t isWrite file line) := by
  -- apart from the recorded cell, no cell belongs to the thread
  have halone : ∀ i, i ≠ recordSlot cells t.tid → (cells i).valid = true →
      (cells i).tid ≠ t.tid := by
    intro i hne hvalid htid
    obtain ⟨hslot, hslotTid⟩ | ⟨hnone, -⟩ := recordSlot_spec cells t.tid
    · exact hne (h i _ hvalid hslot (htid.trans hslotTid.symm))
    · exact hnone i hvalid htid
  intro i j hi hj htid
  by_cases hi' : i = recordSlot cells t.tid <;> by_cases hj' : j = recordSlot cells t.tid
  · exact hi'.trans hj'.symm
  · rw [hi', recordAccess_self, recordAccess_of_ne hj'] at htid
    rw [recordAccess_of_ne hj'] at hj
    exact absurd htid.symm (halone j hj' hj)
  · rw [hj', recordAccess_self, recordAccess_of_ne hi'] at htid
    rw [recordAccess_of_ne hi'] at hi
    exact absurd htid (halone i hi' hi)
  · rw [recordAccess_of_ne hi'] at hi htid
    rw [recordAccess_of_ne hj'] at hj htid
    exact h i j hi hj htid

/-! ## Every access is kept -/

/-- The cells of `word`. -/
def EngineState.cells (s : EngineState) (word : ℕ) : Cells :=
  (s.race.cellsOf word).getD noCells

/-- The access at position `q` is represented by `cell`: the cell belongs to the same
thread, is of the same or a later epoch, and, if of the same, is a write if the access
was one. -/
structure Represents (nbuckets : ℕ) (es : List Event) (s : EngineState) (q : ℕ)
    (cell : RzAccess) : Prop where
  valid : cell.valid = true
  owner : ∃ e th, es[q]? = some e ∧ s.threads e.actor = some th ∧ cell.tid = th.tid
  epoch : ∀ k ep, stampAt nbuckets es q = some (k, ep) → ep ≤ cell.epoch
  write : ∀ e k, es[q]? = some e → e.isWrite = true →
    stampAt nbuckets es q = some (k, cell.epoch) → cell.isWrite = true

/-- No thread has two cells of `word`, and every access to it is represented. -/
structure WordKept (nbuckets : ℕ) (es : List Event) (s : EngineState) (word : ℕ) : Prop where
  distinct : DistinctTids (s.cells word)
  kept : ∀ (q : ℕ) (e : Event) u, es[q]? = some e → e.toucher word = some u →
    ∃ i, Represents nbuckets es s q (s.cells word i)

section WordKept

variable {nbuckets : ℕ} {es : List Event} {e : Event} {s s' : EngineState} {word : ℕ}

theorem distinctTids_noCells : DistinctTids noCells := by
  intro i j hi
  simp [noCells, RzAccess.empty] at hi

theorem EngineState.cells_of_cellsOf_none (h : s.race.cellsOf word = none) :
    s.cells word = noCells := by
  simp [EngineState.cells, h]

/-- A valid cell is the record of an access. -/
theorem CellSound.recorded_cells (h : CellSound nbuckets es s) {i : Fin raceCells}
    (hvalid : (s.cells word i).valid = true) :
    Recorded nbuckets es s word (s.cells word i) := by
  cases hc : s.race.cellsOf word with
  | none => simp [EngineState.cells_of_cellsOf_none hc, noCells, RzAccess.empty] at hvalid
  | some cells =>
    have hcells : s.cells word = cells := by simp [EngineState.cells, hc]
    rw [hcells] at hvalid ⊢
    exact h.recorded word cells hc i hvalid

theorem Represents.step {q : ℕ} {cell : RzAccess} (h : Represents nbuckets es s q cell)
    (hfits : s.TicksFit e) (hstep : Stepped s e s') :
    Represents nbuckets (es ++ [e]) s' q cell := by
  obtain ⟨f, th, hf, hth, htid⟩ := h.owner
  have hlt : q < es.length := (List.getElem?_eq_some_iff.mp hf).1
  obtain ⟨th', hth', htid', -⟩ := hstep.thread_mono hfits hth
  have hget : (es ++ [e])[q]? = es[q]? := List.getElem?_append_left hlt
  refine ⟨h.valid, ⟨f, th', hget.trans hf, hth', htid.trans htid'.symm⟩, ?_, ?_⟩
  · rw [stampAt_append_left hlt]
    exact h.epoch
  · rw [stampAt_append_left hlt, hget]
    exact h.write

/-- While no more threads touch a word than it has cells, recording evicts nobody. -/
theorem WordKept.slot_free {t : ℕ} {th : RzThread} (hkept : WordKept nbuckets es s word)
    (hcell : CellSound nbuckets es s) (ht : s.threads t = some th)
    (he : e.toucher word = some t)
    (hfew : (touchers (es ++ [e]) word).card ≤ raceCells) :
    (s.cells word (recordSlot (s.cells word) th.tid)).valid = true →
      (s.cells word (recordSlot (s.cells word) th.tid)).tid = th.tid := by
  intro hvalid
  obtain ⟨-, hslot⟩ | ⟨hnone, hfree | hall⟩ := recordSlot_spec (s.cells word) th.tid
  · exact hslot
  · exact absurd hvalid (by simp [hfree])
  · -- all cells taken by others: with the new thread there are too many
    exfalso
    have howner : ∀ i, ∃ u thu, u ∈ touchers es word ∧ s.threads u = some thu ∧
        thu.tid = (s.cells word i).tid := by
      intro i
      obtain ⟨q, u, addr, w, f, l, thu, hq, hword, hthu, htid, -⟩ :=
        hcell.recorded_cells (hall i)
      refine ⟨u, thu, mem_touchers.mpr ⟨q, _, hq, ?_⟩, hthu, htid⟩
      simp [Event.toucher, hword]
    choose owner handle htouch hhandle htid using howner
    have hinj : Function.Injective owner := by
      intro i j hij
      have hsame : handle i = handle j := by
        have := hhandle i
        rw [hij, hhandle j] at this
        exact (Option.some.inj this).symm
      exact hkept.distinct i j (hall i) (hall j) (by rw [← htid i, ← htid j, hsame])
    have hnew : t ∉ Finset.univ.image owner := by
      simp only [Finset.mem_image, Finset.mem_univ, true_and, not_exists]
      rintro i rfl
      obtain rfl : handle i = th := by simpa [hhandle i] using ht
      exact hnone i (hall i) (htid i).symm
    have hsub : insert t (Finset.univ.image owner) ⊆ touchers (es ++ [e]) word := by
      intro u hu
      obtain rfl | hu := Finset.mem_insert.mp hu
      · exact mem_touchers.mpr ⟨es.length, e, by simp, he⟩
      · obtain ⟨i, -, rfl⟩ := Finset.mem_image.mp hu
        exact touchers_subset_snoc (htouch i)
    have hcard := Finset.card_le_card hsub
    rw [Finset.card_insert_of_notMem hnew, Finset.card_image_of_injective _ hinj,
      Finset.card_univ, Fintype.card_fin] at hcard
    omega

theorem curEpoch_of_slot {th : RzThread} {k : Fin maxThreads} (hk : slotOf th.tid = some k) :
    curEpoch th = th.clock k := by
  simp [curEpoch, hk]

/-- A thread is never behind an epoch it has been in. -/
theorem ClockReflects.stamp_le_own (hrefl : ClockReflects nbuckets es s)
    (hclock : ClockSound nbuckets es s) (hinv : EpochInv es s) {t q ep : ℕ} {th : RzThread}
    {k : Fin maxThreads} (ht : s.threads t = some th) (hk : slotOf th.tid = some k)
    (hq : stampAt nbuckets es q = some (k, ep)) : ep ≤ curEpoch th := by
  rw [curEpoch_of_slot hk]
  exact hclock.thread t th ht q (hrefl.mem_known hinv ht hk hq) k ep hq

/-- The cell a new access is recorded in represents that access. -/
theorem represents_new {t : ℕ} {th : RzThread} (hrun : engineRun nbuckets es = some s)
    (hfits : s.TicksFit e) (hstep : Stepped s e s') (hactor : e.actor = t)
    (ht : s.threads t = some th) (c : RzAccess) (file : Option String) (line : ℤ) :
    Represents nbuckets (es ++ [e]) s' es.length (recordCell c th e.isWrite file line) := by
  subst hactor
  obtain ⟨th', hth', htid', -⟩ := hstep.thread_mono hfits ht
  refine ⟨rfl, ⟨e, th', by simp, hth', htid'.symm⟩, ?_, ?_⟩
  · intro k ep hk
    rw [stampAt_last hrun, EngineState.stamp_eq_some] at hk
    obtain ⟨th₀, hth₀, hslot, rfl⟩ := hk
    obtain rfl : th = th₀ := by simpa [ht] using hth₀
    exact (curEpoch_of_slot hslot).ge
  · intro f k hf hwrite _
    obtain rfl : e = f := by simpa using hf
    simp [recordCell, hwrite]

/-- Recording over the thread's own cell keeps what the cell represented. -/
theorem Represents.merge {q t : ℕ} {th : RzThread} {c : RzAccess}
    (h : Represents nbuckets es s q c) (hcell : Recorded nbuckets es s word c)
    (hclock : ClockSound nbuckets es s) (hrefl : ClockReflects nbuckets es s)
    (hinv : EpochInv es s) (ht : s.threads t = some th) (htid : c.tid = th.tid)
    (isWrite : Bool) (file : Option String) (line : ℤ) :
    Represents nbuckets es s q (recordCell c th isWrite file line) := by
  obtain ⟨k, hk⟩ := hinv.slot_exists ht
  obtain ⟨f, thf, hf, hthf, htidf⟩ := h.owner
  -- a stamp of `q` is in the component of `t`
  have hsame : ∀ j ep, stampAt nbuckets es q = some (j, ep) → j = k := by
    intro j ep hj
    obtain ⟨-, f', thf', hf', hthf', hslot⟩ := hrefl.owned q j ep hj
    obtain rfl : f = f' := by simpa [hf] using hf'
    obtain rfl : thf = thf' := by simpa [hthf] using hthf'
    rw [← htidf, htid, hk] at hslot
    exact (Option.some.inj hslot).symm
  refine ⟨rfl, ⟨f, thf, hf, hthf, by rw [← htidf, htid]; rfl⟩, ?_, ?_⟩
  · intro j ep hj
    obtain rfl := hsame j ep hj
    exact hrefl.stamp_le_own hclock hinv ht hk hj
  · intro f' j hf' hwrite hj
    -- the access is of the current epoch: so is the cell, and the two are combined
    have hge : curEpoch th ≤ c.epoch := h.epoch j _ hj
    obtain ⟨i, -, -, -, -, -, -, -, -, -, -, hstamp, -⟩ := hcell
    have hle : c.epoch ≤ curEpoch th :=
      hrefl.stamp_le_own hclock hinv ht hk (hstamp k (htid ▸ hk))
    have hepoch : c.epoch = curEpoch th := Nat.le_antisymm hle hge
    have hold : c.isWrite = true := h.write f' j hf' hwrite (hepoch ▸ hj)
    simp [recordCell, h.valid, htid, hepoch, hold]

theorem WordKept.step_touch (h : WordKept nbuckets es s word)
    (hcell : CellSound nbuckets es s) (hclock : ClockSound nbuckets es s)
    (hrefl : ClockReflects nbuckets es s) (hinv : EpochInv es s)
    (hrun : engineRun nbuckets es = some s) (hfits : s.TicksFit e) (hstep : Stepped s e s')
    {t : ℕ} (htouch : e.toucher word = some t) (hfound : s.Finds word e)
    (hfew : (touchers (es ++ [e]) word).card ≤ raceCells) :
    WordKept nbuckets (es ++ [e]) s' word := by
  have hstepped := hstep
  obtain ⟨addr, isWrite, file, line, rfl, hword⟩ := toucher_eq_some.mp htouch
  cases hstep with
  | @access _ _ _ _ _ th ht =>
    obtain ⟨hfull, -⟩ | ⟨-, heff⟩ := rzRaceAccessLoc_spec hcell.inv th addr isWrite file line
    · exact absurd (hfound hword) hfull
    rw [hword] at heff
    have hcells : EngineState.cells
        { s with race := (rzRaceAccessLoc s.race th addr isWrite file line).2 } word =
          recordAccess (s.cells word) th isWrite file line := by
      unfold EngineState.cells
      rw [heff.recorded]
      rfl
    refine ⟨hcells ▸ h.distinct.recordAccess th isWrite file line, ?_⟩
    intro q f u hq hu
    rw [hcells]
    by_cases hlt : q < es.length
    · rw [List.getElem?_append_left hlt] at hq
      obtain ⟨i, hrep⟩ := h.kept q f u hq hu
      refine ⟨i, ?_⟩
      by_cases hi : i = recordSlot (s.cells word) th.tid
      · subst hi
        rw [recordAccess_self]
        have htid := h.slot_free hcell ht htouch hfew hrep.valid
        exact (hrep.merge (hcell.recorded_cells hrep.valid) hclock hrefl hinv ht htid
          isWrite file line).step hfits hstepped
      · rw [recordAccess_of_ne hi]
        exact hrep.step hfits hstepped
    · obtain rfl : q = es.length := by
        have := (List.getElem?_eq_some_iff.mp hq).1
        simp only [List.length_append, List.length_singleton] at this
        omega
      refine ⟨recordSlot (s.cells word) th.tid, ?_⟩
      rw [recordAccess_self]
      exact represents_new hrun hfits hstepped rfl ht _ file line

/-- A call that does not touch a word leaves its cells alone. -/
theorem CellSound.cells_untouched (hcell : CellSound nbuckets es s) (hstep : Stepped s e s')
    (htouch : e.toucher word = none) : s'.cells word = s.cells word := by
  by_cases haccess : ∃ t addr isWrite file line, e = .access t addr isWrite file line
  · obtain ⟨t, addr, isWrite, file, line, rfl⟩ := haccess
    have hword : word ≠ wordOf addr := by
      rintro rfl
      simp [Event.toucher] at htouch
    cases hstep with
    | @access _ _ _ _ _ th ht =>
      obtain ⟨-, hfull⟩ | ⟨-, heff⟩ := rzRaceAccessLoc_spec hcell.inv th addr isWrite file line
      · rw [hfull]
      · simp only [EngineState.cells, heff.other word hword]
  · have hlocal : ∀ t addr isWrite file line, e ≠ .access t addr isWrite file line :=
      fun t addr isWrite file line he => haccess ⟨t, addr, isWrite, file, line, he⟩
    simp only [EngineState.cells, (hstep.cellsOf_eq hlocal).1]

theorem WordKept.step_untouched (h : WordKept nbuckets es s word)
    (hcell : CellSound nbuckets es s) (hfits : s.TicksFit e) (hstep : Stepped s e s')
    (htouch : e.toucher word = none) : WordKept nbuckets (es ++ [e]) s' word := by
  have hcells := hcell.cells_untouched hstep htouch
  refine ⟨hcells ▸ h.distinct, ?_⟩
  intro q f u hq hu
  have hlt : q < es.length := by
    by_contra hge
    obtain rfl : q = es.length := by
      have := (List.getElem?_eq_some_iff.mp hq).1
      simp only [List.length_append, List.length_singleton] at this
      omega
    obtain rfl : e = f := by simpa using hq
    simp [htouch] at hu
  rw [List.getElem?_append_left hlt] at hq
  obtain ⟨i, hrep⟩ := h.kept q f u hq hu
  exact ⟨i, hcells ▸ hrep.step hfits hstep⟩

end WordKept

/-! ## Whole runs -/

/-- Everything that is known of an engine run whose epochs and thread ids fit. -/
structure EngineInv (nbuckets : ℕ) (es : List Event) (s : EngineState) : Prop where
  clock : ClockSound nbuckets es s
  cell : CellSound nbuckets es s
  epoch : EpochInv es s
  reflects : ClockReflects nbuckets es s
  kept : ∀ word, AccessesFound nbuckets es word → (touchers es word).card ≤ raceCells →
    WordKept nbuckets es s word

theorem engine_complete {nbuckets : ℕ} {es : List Event} {s : EngineState}
    (hfits : EpochsFit nbuckets es) (htids : TidsFit nbuckets es) (hstops : JoinedStops es)
    (hrun : engineRun nbuckets es = some s) : EngineInv nbuckets es s := by
  refine run_induction (P := fun es s => JoinedStops es → EngineInv nbuckets es s) ?_ ?_ es
    (EveryStep.and hfits htids) hrun hstops
  · intro _
    refine ⟨clockSound_initial, cellSound_initial, epochInv_initial, clockReflects_initial, ?_⟩
    intro word _ _
    refine ⟨?_, fun q e u hq => by simp at hq⟩
    have hnone : (EngineState.initial nbuckets).race.cellsOf word = none := by
      apply Option.eq_none_iff_forall_ne_some.mpr
      intro cells hcells
      obtain ⟨p, hkey, -⟩ := cellSound_initial.inv.cellsOf_eq_some.mp hcells
      simp [EngineState.initial, rzRaceStateInitN, RzBucket.empty] at hkey
    rw [EngineState.cells_of_cellsOf_none hnone]
    exact distinctTids_noCells
  · rintro es e s s' hrun ⟨hfit, htid⟩ ih hstep hstops
    have h := ih hstops.prefix
    have hstepped := EngineState.stepped hstep
    refine ⟨h.clock.step hrun hfit hstepped, h.cell.step hrun hfit hstepped,
      h.epoch.step hfit htid hstepped,
      h.reflects.step h.epoch h.clock hstops hrun hfit hstepped, ?_⟩
    intro word hfound hfew
    obtain ⟨hfoundEs, hfoundE⟩ := everyStep_snoc.mp hfound
    have hkept := h.kept word hfoundEs
      ((Finset.card_le_card touchers_subset_snoc).trans hfew)
    cases htouch : e.toucher word with
    | none => exact hkept.step_untouched h.cell hfit hstepped htouch
    | some t =>
      exact hkept.step_touch h.cell h.clock h.reflects h.epoch hrun hfit hstepped htouch
        (hfoundE s hrun) hfew

end Redzone.Race
