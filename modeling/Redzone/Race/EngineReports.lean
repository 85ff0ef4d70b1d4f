/-
  Race/EngineReports.lean --- the prior access that a report names.

  A cell stands for several accesses of one epoch: its kind is theirs combined, its
  location that of the latest.  Where a read follows a write, the cell is a write at the
  location of the read, and no access of the run is that.  `NamesAccess` says that the
  access at hand does not make such a cell; in a run of such accesses every cell is one
  access of the run in all its fields, and so is the `out_prev` of every report.
-/
import Redzone.Race.EngineSound

set_option autoImplicit false

namespace Redzone.Race

open Redzone.Foundation

/-! ## Cells that name an access -/

/-- The cell is in the thread's own epoch. -/
def RzAccess.Current (c : RzAccess) (th : RzThread) : Prop :=
  c.valid = true ∧ c.tid = th.tid ∧ c.epoch = curEpoch th

instance (c : RzAccess) (th : RzThread) : Decidable (c.Current th) :=
  inferInstanceAs (Decidable (_ ∧ _))

/-- A read does not take over the cell of a write of the same epoch, except one at its
own location. -/
def EngineState.NamesAccess (s : EngineState) : Event → Prop
  | .access t addr isWrite file line => ∀ th ∈ s.threads t,
    let cells := (s.race.cellsOf (wordOf addr)).getD noCells
    let c := cells (recordSlot cells th.tid)
    c.Current th → c.isWrite = true → isWrite = false → c.file = file ∧ c.line = line
  | _ => True

instance (s : EngineState) : (e : Event) → Decidable (s.NamesAccess e)
  | .access t _ _ _ _ => inferInstanceAs (Decidable (∀ th ∈ s.threads t, _))
  | .init _ | .create _ _ | .join _ _ | .acquire _ _ | .release _ _ => .isTrue trivial

/-- No access of the run makes a cell that names no access. -/
def CellsName (nbuckets : ℕ) (es : List Event) : Prop :=
  EveryStep EngineState.step EngineState.NamesAccess (.initial nbuckets) es

instance (nbuckets : ℕ) (es : List Event) : Decidable (CellsName nbuckets es) :=
  decidableEveryStep ..

/-- One access of the run has the kind, the location, the thread and the epoch of the
cell. -/
def NamedBy (nbuckets : ℕ) (es : List Event) (s : EngineState) (word : ℕ) (cell : RzAccess) :
    Prop :=
  ∃ i u addr th,
    es[i]? = some (.access u addr cell.isWrite cell.file cell.line) ∧ wordOf addr = word ∧
      s.threads u = some th ∧ th.tid = cell.tid ∧
      ∀ k, slotOf cell.tid = some k → stampAt nbuckets es i = some (k, cell.epoch)

/-- The table is well formed and every cell names an access. -/
structure CellsNamed (nbuckets : ℕ) (es : List Event) (s : EngineState) : Prop where
  inv : TableInv s.race
  named : ∀ word cells, s.race.cellsOf word = some cells →
    ∀ i, (cells i).valid = true → NamedBy nbuckets es s word (cells i)

section CellsNamed

variable {nbuckets : ℕ} {es : List Event} {e : Event} {s s' : EngineState} {word t addr : ℕ}
  {cell c : RzAccess} {isWrite : Bool} {file : Option String} {line : ℤ} {th : RzThread}

theorem recordCell_current (h : c.Current th) :
    recordCell c th isWrite file line =
      { c with isWrite := c.isWrite || isWrite, file := file, line := line } := by
  obtain ⟨hvalid, htid, hepoch⟩ := h
  simp [recordCell, hvalid, htid, hepoch]

theorem recordCell_other (h : ¬ c.Current th) :
    recordCell c th isWrite file line =
      ⟨true, th.tid, curEpoch th, isWrite, file, line⟩ := by
  have hcond : (c.valid && c.tid == th.tid && c.epoch == curEpoch th) = false := by
    by_contra hcond
    simp only [Bool.not_eq_false, Bool.and_eq_true, beq_iff_eq] at hcond
    exact h ⟨hcond.1.1, hcond.1.2, hcond.2⟩
  simp [recordCell, hcond]

theorem NamedBy.step (h : NamedBy nbuckets es s word cell) (hfits : s.TicksFit e)
    (hstep : Stepped s e s') : NamedBy nbuckets (es ++ [e]) s' word cell := by
  obtain ⟨i, u, addr, th, hi, hword, hth, htid, hstamp⟩ := h
  have hlt : i < es.length := (List.getElem?_eq_some_iff.mp hi).1
  obtain ⟨th', hth', htid', -⟩ := hstep.thread_mono hfits hth
  refine ⟨i, u, addr, th', ?_, hword, hth', htid'.trans htid, ?_⟩
  · rw [List.getElem?_append_left hlt, hi]
  · rw [stampAt_append_left hlt]
    exact hstamp

/-- A cell with the kind and location of the access it records names that access. -/
theorem namedBy_last (hrun : engineRun nbuckets es = some s)
    (hstep : Stepped s (.access t addr isWrite file line) s') (ht : s.threads t = some th)
    (hcell : cell = ⟨true, th.tid, curEpoch th, isWrite, file, line⟩) :
    NamedBy nbuckets (es ++ [.access t addr isWrite file line]) s' (wordOf addr) cell := by
  subst hcell
  obtain ⟨th', hth', htid', -⟩ := hstep.thread_mono trivial ht
  refine ⟨es.length, t, addr, th', by simp, rfl, hth', htid', fun k hk => ?_⟩
  rw [stampAt_last hrun, EngineState.stamp_eq_some]
  exact ⟨th, ht, hk, by simp only [curEpoch] at hk ⊢; rw [hk]⟩

theorem namedBy_recordCell (hrun : engineRun nbuckets es = some s)
    (hstep : Stepped s (.access t addr isWrite file line) s') (ht : s.threads t = some th)
    (hnames : c.Current th → c.isWrite = true → isWrite = false → c.file = file ∧ c.line = line)
    (hold : c.valid = true → NamedBy nbuckets es s (wordOf addr) c) :
    NamedBy nbuckets (es ++ [.access t addr isWrite file line]) s' (wordOf addr)
      (recordCell c th isWrite file line) := by
  by_cases hcurrent : c.Current th
  · rw [recordCell_current hcurrent]
    obtain ⟨hvalid, htid, hepoch⟩ := id hcurrent
    cases hwrite : c.isWrite with
    | false =>
        -- the cell was a read: it takes the kind of the new access
        apply namedBy_last hrun hstep ht
        rw [hvalid, htid, hepoch, Bool.false_or]
    | true =>
        cases isWrite with
        | true =>
            apply namedBy_last hrun hstep ht
            rw [hvalid, htid, hepoch, Bool.or_true]
        | false =>
            -- the cell stays the write it was
            obtain ⟨rfl, rfl⟩ := hnames hcurrent hwrite rfl
            have hsame : { c with isWrite := true || false } = c := by
              rw [Bool.or_false, ← hwrite]
            rw [hsame]
            exact (hold hvalid).step trivial hstep
  · exact namedBy_last hrun hstep ht (recordCell_other hcurrent)

theorem cellsNamed_initial : CellsNamed nbuckets [] (.initial nbuckets) := by
  refine ⟨cellSound_initial.inv, fun word cells hcells i hvalid => ?_⟩
  obtain ⟨n, u, addr, w, f, l, th, hn, -⟩ := cellSound_initial.recorded word cells hcells i hvalid
  simp at hn

theorem CellsNamed.step (h : CellsNamed nbuckets es s) (hrun : engineRun nbuckets es = some s)
    (hfits : s.TicksFit e) (hnames : s.NamesAccess e) (hstep : Stepped s e s') :
    CellsNamed nbuckets (es ++ [e]) s' := by
  obtain ⟨hinv, hnamed⟩ := hstep.cells_step (P := NamedBy nbuckets es s)
    (Q := NamedBy nbuckets (es ++ [e]) s') h.inv h.named
    (fun _ _ hold => hold.step hfits hstep) (by
      intro t addr isWrite file line th i he ht hi hold
      subst he hi
      exact namedBy_recordCell hrun hstep ht (hnames th ht) hold)
  exact ⟨hinv, hnamed⟩

end CellsNamed

theorem cellsNamed_of_run {nbuckets : ℕ} {es : List Event} {s : EngineState}
    (hfits : EpochsFit nbuckets es) (hnames : CellsName nbuckets es)
    (hrun : engineRun nbuckets es = some s) : CellsNamed nbuckets es s := by
  refine run_induction (P := CellsNamed nbuckets) cellsNamed_initial ?_ es
    (hfits.and hnames) hrun
  intro es e m m' hm hboth hnamed hstep
  exact hnamed.step hm hboth.1 hboth.2 (EngineState.stepped hstep)

/-! ## Reports -/

/-- The `out_prev` of every report is one earlier access of the run: on the same word, by
the thread `out_prev.tid`, with its kind, file and line, in conflict with the reported
access and not before it. -/
def ReportsReal (nbuckets : ℕ) (es : List Event) : Prop :=
  ∀ j s f prev, engineRun nbuckets (es.take j) = some s → es[j]? = some f →
    s.verdict f = some prev →
    ∃ i u addr th, i < j ∧ es[i]? = some (.access u addr prev.isWrite prev.file prev.line) ∧
      s.threads u = some th ∧ th.tid = prev.tid ∧
      Conflict (.access u addr prev.isWrite prev.file prev.line) f ∧ ¬ EngineHB es i j

/-- In a run without epoch overflow in which no read takes over the cell of a write of
its epoch, the reported prior accesses are real. -/
theorem reportsReal_of_cellsName (nbuckets : ℕ) (es : List Event)
    (hfits : EpochsFit nbuckets es) (hnames : CellsName nbuckets es) :
    ReportsReal nbuckets es := by
  intro j s f prev hrun hf hverdict
  obtain ⟨hclock, hcell⟩ := engine_sound (EveryStep.take hfits j) hrun
  have hnamed := cellsNamed_of_run (EveryStep.take hfits j) (EveryStep.take hnames j) hrun
  obtain ⟨t, addr, isWrite, file, line, th, rfl, ht, hvalid, htid, hwrite, ⟨k, hk, hpast⟩,
    cells, n, hcells, rfl⟩ := hcell.verdict_eq_some hverdict
  obtain ⟨i, u, addr', thu, hi, hword, hu, htidu, hstamp⟩ := hnamed.named _ cells hcells n hvalid
  obtain ⟨hij, hi⟩ := lt_of_getElem?_take hi
  have hthread : u ≠ t := by
    intro hut
    rw [hut, ht] at hu
    obtain rfl := Option.some.inj hu
    exact htid htidu.symm
  exact ⟨i, u, addr', thu, hij, hi, hu, htidu, ⟨hword, hthread, hwrite⟩,
    not_engineHB_of_stamp hclock hf ht (hstamp k hk) hpast⟩

/-- Thread 0 writes a word at line 10, and reads it at line 20 if `again` is set; then
thread 1 reads it. -/
def writeThenRead (again : Bool) : List Event :=
  [.init 0, .init 1, .access 0 64 true none 10] ++
    (if again then [.access 0 64 false none 20] else []) ++ [.access 1 64 false none 30]

theorem reportsReal_writeThenRead :
    Reports 4 (writeThenRead false) 3 ∧ ReportsReal 4 (writeThenRead false) :=
  ⟨⟨_, _, rfl, rfl, by decide⟩, reportsReal_of_cellsName _ _ (by decide) (by decide)⟩

/-- The report names a write at line 20, where the thread has read. -/
theorem writeThenRead_misnamed :
    EpochsFit 4 (writeThenRead true) ∧ ¬ ReportsReal 4 (writeThenRead true) := by
  refine ⟨by decide, fun h => ?_⟩
  obtain ⟨i, u, addr, th, hij, hi, -⟩ := h 4 _ _ ⟨true, 0, 1, true, none, 20⟩ rfl rfl (by decide)
  have hmem := List.mem_of_getElem? hi
  simp [writeThenRead] at hmem

end Redzone.Race
