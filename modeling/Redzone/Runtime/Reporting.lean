/-
  Runtime/Reporting.lean --- which races are printed, and how many are counted.

  An access that finds races in some of its words is one racing access.  It is counted word
  by word, and it may be printed: once, with the first of its words.  `should_report`
  remembers the line numbers of what has been printed and of nothing else, so two races
  at the same lines of different files count as one, and a word behind the first is never
  looked at.

  `Journal` collects the racing accesses of a run in the order in which they come to
  `should_report`.  What a run prints is what the filter by line numbers keeps of them.
-/
import Redzone.Foundation.FirstSeen
import Redzone.Runtime.LockEvents

set_option autoImplicit false

namespace Redzone.Runtime

open Redzone.Foundation
open Redzone.Race

/-! ## Racing accesses -/

/-- An access with the races that its words have found, in order. -/
structure Racing where
  access : Access
  first : Hit
  more : List Hit
  deriving DecidableEq, Repr

def Racing.hits (x : Racing) : List Hit := x.first :: x.more

/-- What is printed of it, if anything is. -/
def Racing.report (x : Racing) : RaceReport :=
  ⟨x.access.isWrite, x.first.tid, x.first.word, x.access.file, x.access.line, x.first.prev⟩

/-- A position in the source: file and line. -/
abbrev Position : Type := Option String × ℤ

/-- The positions of the current and of the prior access. -/
abbrev PositionPair : Type := Position × Position

/-- The pair of positions that is printed. -/
def RaceReport.pair (r : RaceReport) : PositionPair :=
  ((r.file, r.line), (r.prev.file, r.prev.line))

/-- What `should_report` compares. -/
def RaceReport.lines (r : RaceReport) : ℤ × ℤ := (r.line, r.prev.line)

/-- The line numbers of a pair of positions. -/
def PositionPair.lines (p : PositionPair) : ℤ × ℤ := (p.1.2, p.2.2)

/-- The pair of positions of an access: that of the prior access it names. -/
def Racing.accessPairs (x : Racing) : List PositionPair := [x.report.pair]

/-- The pairs of positions of all racing words of an access. -/
def Racing.wordPairs (x : Racing) : List PositionPair :=
  x.hits.map fun h => ((x.access.file, x.access.line), (h.prev.file, h.prev.line))

/-- The racing words of some accesses. -/
def racingWords (xs : List Racing) : ℕ := (xs.map fun x => x.hits.length).sum

/-! ## The racing accesses of a run -/

/-- The race that a step of `access_range` has found. -/
def Taken.hit (t : ℕ) (x : Taken) : Option Hit :=
  match x.m, x.before.handles t with
  | .word a w, .live th =>
    (rzRaceAccessLoc (x.before.shards (shardOf w)) th (w * 8) a.isWrite a.file a.line).1.map
      fun p => ⟨th.tid, w * 8, p⟩
  | _, _ => none

/-- The races that thread `t` has found in the call it is in. -/
def Observed.hits (o : Observed) (t : ℕ) : List Hit := (o.taken t).filterMap (Taken.hit t)

/-- The racing access that the event ends. -/
def Observed.racing (o : Observed) (e : Event) : Option Racing :=
  match e.action with
  | .step (.finish a) _ =>
    match o.hits e.thread with
    | [] => none
    | h :: hs => some ⟨a, h, hs⟩
  | _ => none

/-- An observed process and the racing accesses so far. -/
structure Journal where
  observed : Observed
  racing : List Racing

def Journal.initial (i : Init) : Journal := ⟨.initial i, []⟩

def Journal.step (j : Journal) (e : Event) : Option Journal :=
  (j.observed.step e).map fun o => ⟨o, j.racing ++ (j.observed.racing e).toList⟩

def journalRun (i : Init) (es : List Event) : Option Journal := run Journal.step (.initial i) es

/-- The racing accesses of a run, in the order of their ends. -/
def racingOf (i : Init) (es : List Event) : List Racing :=
  match journalRun i es with
  | some j => j.racing
  | none => []

/-! ## The locals of an access -/

section Locals

variable {s s' s₁ : Process} {e : Event} {o o' : Observed} {t u : ℕ} {m : Micro} {r : Result}

/-- `hits` and the locals of the first hit are those of the races found so far. -/
def Observed.Counts (o : Observed) (t : ℕ) : Prop :=
  (o.process.threads t).hits = (o.hits t).length ∧ (o.process.threads t).hit = (o.hits t).head?

/-- A word that finds a race adds it. -/
theorem addHit_locals {l : List Hit} {tid : ℤ} {w : ℕ} {p : Option RzAccess}
    (hhits : (s.threads t).hits = l.length) (hhit : (s.threads t).hit = l.head?) :
    ((s.addHit t tid w p).threads t).hits =
        (l ++ (p.map fun p => (⟨tid, w * 8, p⟩ : Hit)).toList).length ∧
      ((s.addHit t tid w p).threads t).hit =
        (l ++ (p.map fun p => (⟨tid, w * 8, p⟩ : Hit)).toList).head? := by
  cases p with
  | none => simpa [Process.addHit] using ⟨hhits, hhit⟩
  | some prev =>
      cases l with
      | nil =>
          have hzero : (s.threads t).hits = 0 := hhits
          simp [Process.addHit, hzero]
      | cons h l =>
          have hne : (s.threads t).hits ≠ 0 := by simp [hhits]
          simp [Process.addHit, hhits, hhit]

/-- A step of the thread itself adds the race it finds. -/
theorem effected_locals (h : Effected s t r m s₁) (s' : Process) (hmem : t ∈ s.names)
    {l : List Hit} (hhits : (s.threads t).hits = l.length) (hhit : (s.threads t).hit = l.head?) :
    (s₁.threads t).hits = (l ++ (Taken.hit t ⟨s, m, r, s'⟩).toList).length ∧
      (s₁.threads t).hit = (l ++ (Taken.hit t ⟨s, m, r, s'⟩).toList).head? := by
  have hsame : s₁.threads t = s.threads t → Taken.hit t ⟨s, m, r, s'⟩ = none →
      (s₁.threads t).hits = (l ++ (Taken.hit t ⟨s, m, r, s'⟩).toList).length ∧
        (s₁.threads t).hit = (l ++ (Taken.hit t ⟨s, m, r, s'⟩).toList).head? := by
    intro hth hnone
    rw [hth, hnone, Option.toList_none, List.append_nil]
    exact ⟨hhits, hhit⟩
  cases h with
  | @word th a w ht =>
      have hfound : Taken.hit t ⟨s, .word a w, r, s'⟩ =
          (rzRaceAccessLoc (s.shards (shardOf w)) th (w * 8) a.isWrite a.file a.line).1.map
            fun p => ⟨th.tid, w * 8, p⟩ := by
        simp [Taken.hit, ht]
      rw [hfound]
      exact addHit_locals hhits hhit
  | @skipped m hm ht =>
      refine hsame rfl ?_
      unfold Taken.hit
      simp [ht]
  | @quiet m hm =>
      refine hsame rfl ?_
      cases m <;> first | rfl | simp [Micro.quiet] at hm
  | @create c hrc hmay =>
      refine hsame ?_ rfl
      have hne : t ≠ c := fun h => hmay.1 (h ▸ hmem)
      simp [Process.start, setThread_of_ne hne]
  | createUntracked hrc hc hmay =>
      refine hsame ?_ rfl
      have hne : t ≠ r.child := fun h => hmay.1 (h ▸ hmem)
      simp [Process.start, setThread_of_ne hne]
  | join hrc hjoin hexit =>
      rcases eq_or_ne t r.child with heq | hne
      · simp only [← heq, setThread_self]
        simpa [Taken.hit] using ⟨hhits, hhit⟩
      · exact hsame (setThread_of_ne hne) rfl
  | selfInit => exact hsame (by simp [Process.selfInit]) rfl
  | finish => exact hsame (by simp) rfl
  | acquire => exact hsame (by simp) rfl
  | release => exact hsame (by simp) rfl
  | _ => exact hsame rfl rfl

/-- Another thread keeps its locals. -/
theorem Stepped.locals_other (h : Stepped s e s') (hwf : s.WF) (hu : u ≠ e.thread) :
    (s'.threads u).hits = (s.threads u).hits ∧ (s'.threads u).hit = (s.threads u).hit := by
  cases h with
  | call hrun htodo => rw [setThread_of_ne hu]; exact ⟨rfl, rfl⟩
  | exit hrun htodo => rw [setThread_of_ne hu]; exact ⟨rfl, rfl⟩
  | @detach t thread c hrun htodo hjoin =>
      rcases eq_or_ne u c with rfl | huc
      · simp
      · rw [setThread_of_ne huc]
        exact ⟨rfl, rfl⟩
  | @micro t m r rest s₁ hrun htodo heff =>
      rw [setTodo_of_ne hu]
      rcases effected_threads heff with ⟨c, -, hmay, rfl, -⟩ | ⟨thr, rfl, hrc, hjoin, hexit, rfl⟩ |
        ⟨-, hits, hit, hthreads⟩
      · rcases eq_or_ne u c with rfl | huc
        · simp [Process.start, hwf.unborn u hmay.1, Thread.unborn, Thread.started]
        · simp [Process.start, setThread_of_ne huc]
      · rcases eq_or_ne u r.child with rfl | huc
        · simp
        · rw [setThread_of_ne huc]
          exact ⟨rfl, rfl⟩
      · rw [hthreads, Function.update_of_ne hu]
        exact ⟨rfl, rfl⟩

theorem Observed.Counts.step (hwf : o.process.WF) (h : o.Counts t) (hstep : o.step e = some o') :
    o'.Counts t := by
  have hst := Process.stepped (Observed.step_process hstep)
  obtain ⟨hhits, hhit⟩ := h
  rcases eq_or_ne t e.thread with rfl | ht
  · obtain ⟨u, action⟩ := e
    obtain ⟨s', hs', rfl⟩ := Option.map_eq_some_iff.mp hstep
    cases action with
    | call c =>
        cases hst with
        | call hrun htodo => simp [Observed.Counts, Observed.hits]
    | step m r =>
        obtain ⟨rest, s₁, hrun, heff, rfl⟩ : ∃ rest, ∃ s₁ : Process,
            (o.process.threads u).phase = .running ∧ Effected o.process u r m s₁ ∧
              s' = s₁.setTodo u rest := by
          cases hst with
          | micro hrun htodo heff => exact ⟨_, _, hrun, heff, rfl⟩
        have hlocals := effected_locals heff (s₁.setTodo u rest) (hwf.running_mem hrun)
          hhits hhit
        unfold Observed.Counts Observed.hits at *
        simp only [setTodo_self, Function.update_self, List.filterMap_append] at hlocals ⊢
        have hlast : [(⟨o.process, m, r, s₁.setTodo u rest⟩ : Taken)].filterMap (Taken.hit u) =
            (Taken.hit u ⟨o.process, m, r, s₁.setTodo u rest⟩).toList := by
          cases hfound : Taken.hit u ⟨o.process, m, r, s₁.setTodo u rest⟩ <;> simp [hfound]
        rw [hlast]
        exact hlocals
    | exit =>
        obtain ⟨-, hits, hit⟩ := hst.idle (.inl rfl)
        exact ⟨hits.trans hhits, hit.trans hhit⟩
    | detach thread target =>
        obtain ⟨-, hits, hit⟩ := hst.idle (.inr ⟨thread, target, rfl⟩)
        exact ⟨hits.trans hhits, hit.trans hhit⟩
  · obtain ⟨-, htaken⟩ := Observed.step_other hstep ht
    obtain ⟨hits, hit⟩ := hst.locals_other hwf ht
    unfold Observed.Counts Observed.hits at *
    rw [htaken, hits, hit]
    exact ⟨hhits, hhit⟩

theorem counts_initial (i : Init) (t : ℕ) : (Observed.initial i).Counts t := by
  unfold Observed.Counts Observed.hits Observed.initial Process.initial
  rcases eq_or_ne t 0 with rfl | ht
  · simp [Thread.started]
  · simp [ht, Thread.unborn]

end Locals

/-! ## What is printed and counted -/

section Journals

variable {s s' s₁ : Process} {e : Event} {i : Init} {es : List Event} {j j' : Journal} {t : ℕ}
  {m : Micro} {r : Result}

theorem addHit_report {tid : ℤ} {w : ℕ} {p : Option RzAccess} :
    (s.addHit t tid w p).printed = s.printed ∧ (s.addHit t tid w p).reportLines = s.reportLines ∧
      (s.addHit t tid w p).races = s.races ∧ (s.addHit t tid w p).verbose = s.verbose := by
  cases p <;> exact ⟨rfl, rfl, rfl, rfl⟩

/-- Only the end of an access prints and counts. -/
theorem effected_report (h : Effected s t r m s₁) (hm : ∀ a, m ≠ .finish a) :
    s₁.printed = s.printed ∧ s₁.reportLines = s.reportLines ∧ s₁.races = s.races ∧
      s₁.verbose = s.verbose := by
  cases h with
  | acquire ht =>
      unfold Process.acquireStep
      split <;> exact ⟨rfl, rfl, rfl, rfl⟩
  | release ht =>
      unfold Process.releaseStep
      split <;> exact ⟨rfl, rfl, rfl, rfl⟩
  | word ht => exact addHit_report
  | @finish a => exact absurd rfl (hm a)
  | _ => exact ⟨rfl, rfl, rfl, rfl⟩

/-- What the process prints and counts is what the filter by line numbers keeps of the
racing accesses, and their words. -/
structure Journal.Reported (j : Journal) : Prop where
  quiet : j.observed.process.verbose = false
  printed : j.observed.process.printed =
    keepAll Racing.report RaceReport.lines reportCap j.racing
  lines : j.observed.process.reportLines = j.observed.process.printed.map RaceReport.lines
  races : j.observed.process.races = racingWords j.racing % wordSize

/-- The end of an access that has found races. -/
theorem finishStep_of_hits {a : Access} {h : Hit} {hs : List Hit}
    (hhits : (s.threads t).hits = (h :: hs).length) (hhit : (s.threads t).hit = some h) :
    s.finishStep t a =
      { s with
        races := (s.races + (h :: hs).length) % wordSize
        reportLines := (shouldReport s.reportLines s.verbose a.line h.prev.line).2
        printed :=
          if (shouldReport s.reportLines s.verbose a.line h.prev.line).1 then
            s.printed ++ [(Racing.mk a h hs).report]
          else s.printed } := by
  rw [List.length_cons] at hhits
  unfold Process.finishStep
  rw [hhits, hhit]
  rfl

theorem finishStep_of_none {a : Access} (hhits : (s.threads t).hits = 0) :
    s.finishStep t a = s := by
  unfold Process.finishStep
  rw [hhits]

/-- `should_report` is the filter: what it lets through is kept, and its table has the line
numbers of what is kept. -/
theorem shouldReport_keepNew (printed : List RaceReport) (x : Racing) :
    (if (shouldReport (printed.map RaceReport.lines) false x.access.line x.first.prev.line).1 then
        printed ++ [x.report]
      else printed) = keepNew Racing.report RaceReport.lines reportCap printed x ∧
    (shouldReport (printed.map RaceReport.lines) false x.access.line x.first.prev.line).2 =
      (keepNew Racing.report RaceReport.lines reportCap printed x).map RaceReport.lines := by
  have hlines : (x.access.line, x.first.prev.line) = x.report.lines := rfl
  unfold shouldReport keepNew
  rw [hlines]
  rcases Classical.em (x.report.lines ∈ printed.map RaceReport.lines) with hseen | hnew
  · simp [hseen]
  · rcases Nat.lt_or_ge printed.length reportCap with hroom | hfull
    · have hlt : ¬ reportCap ≤ printed.length := Nat.not_le.mpr hroom
      simp [hnew, hlt]
    · simp [hnew, hfull]

theorem racingWords_append (xs ys : List Racing) :
    racingWords (xs ++ ys) = racingWords xs + racingWords ys := by
  simp [racingWords]

/-- The end of an access that has found races prints and counts one racing access. -/
theorem Journal.Reported.finish (h : j.Reported) {a : Access}
    (hcounts : j.observed.Counts t) {s' : Process} {todo : Script}
    (hs' : s' = (j.observed.process.finishStep t a).setTodo t todo)
    {xs : List Racing} (hxs : xs = (j.observed.racing ⟨t, .step (.finish a) r⟩).toList) :
    s'.verbose = false ∧
    s'.printed = keepAll Racing.report RaceReport.lines reportCap (j.racing ++ xs) ∧
    s'.reportLines = s'.printed.map RaceReport.lines ∧
    s'.races = racingWords (j.racing ++ xs) % wordSize := by
  obtain ⟨hquiet, hprinted, hlines, hraces⟩ := h
  obtain ⟨hhits, hhit⟩ := hcounts
  cases hfound : j.observed.hits t with
  | nil =>
      have hnone : xs = [] := by
        rw [hxs]
        simp [Observed.racing, hfound]
      rw [hfound] at hhits
      have hsame : j.observed.process.finishStep t a = j.observed.process :=
        finishStep_of_none hhits
      rw [hs', hsame, hnone, List.append_nil]
      exact ⟨hquiet, hprinted, hlines, hraces⟩
  | cons h hs =>
      have hone : xs = [⟨a, h, hs⟩] := by
        rw [hxs]
        simp [Observed.racing, hfound]
      rw [hfound] at hhits hhit
      have hfin := finishStep_of_hits (a := a) hhits hhit
      have hfilter := shouldReport_keepNew j.observed.process.printed ⟨a, h, hs⟩
      rw [hquiet, hlines] at hfin
      rw [hs', hfin, hone, keepAll_snoc, ← hprinted]
      refine ⟨rfl, hfilter.1, ?_, ?_⟩
      · exact hfilter.2.trans (congrArg _ hfilter.1.symm)
      · show (j.observed.process.races + (h :: hs).length) % wordSize = _
        rw [hraces, racingWords_append, Nat.mod_add_mod]
        rfl

theorem Journal.Reported.step (h : j.Reported) (hcounts : ∀ t, j.observed.Counts t)
    (hstep : j.step e = some j') : j'.Reported := by
  obtain ⟨o', ho', rfl⟩ := Option.map_eq_some_iff.mp hstep
  have hproc := Observed.step_process ho'
  have hst := Process.stepped hproc
  -- an event that ends no access
  have hkeep : (∀ a r, e.action ≠ .step (.finish a) r) →
      o'.process.printed = j.observed.process.printed ∧
      o'.process.reportLines = j.observed.process.reportLines ∧
      o'.process.races = j.observed.process.races ∧
      o'.process.verbose = j.observed.process.verbose →
      Journal.Reported ⟨o', j.racing ++ (j.observed.racing e).toList⟩ := by
    intro hno ⟨hp, hl, hr, hv⟩
    have hnone : j.observed.racing e = none := by
      unfold Observed.racing
      split
      · rename_i a r haction
        exact absurd haction (hno a r)
      · rfl
    refine ⟨hv.trans h.quiet, ?_, ?_, ?_⟩
    · simpa [hnone] using hp.trans h.printed
    · simp only [hl, hp]
      exact h.lines
    · simpa [hnone] using hr.trans h.races
  generalize hs' : o'.process = s' at hst hkeep
  cases hst with
  | call hrun htodo => exact hkeep (by simp) ⟨rfl, rfl, rfl, rfl⟩
  | exit hrun htodo => exact hkeep (by simp) ⟨rfl, rfl, rfl, rfl⟩
  | detach hrun htodo hjoin => exact hkeep (by simp) ⟨rfl, rfl, rfl, rfl⟩
  | @micro t m r rest s₁ hrun htodo heff =>
      rcases Classical.em (∃ a, m = .finish a) with ⟨a, rfl⟩ | hm
      · cases heff with
        | quiet hq => simp [Micro.quiet] at hq
        | skipped hn => simp [Micro.needsHandle] at hn
        | finish =>
            obtain ⟨hv, hp, hl, hr⟩ := h.finish (r := r) (hcounts t) hs' rfl
            exact ⟨hv, hp, hl, hr⟩
      · have hno : ∀ a, m ≠ .finish a := fun a ha => hm ⟨a, ha⟩
        have hrep := effected_report heff hno
        exact hkeep (fun a r ha => hno a (Action.step.inj ha).1) hrep

theorem Journal.step_observed (h : j.step e = some j') :
    j.observed.step e = some j'.observed := by
  obtain ⟨o', ho', rfl⟩ := Option.map_eq_some_iff.mp h
  exact ho'

/-- In every run without `REDZONE_RACE_VERBOSE`. -/
theorem journalRun_reported (hquiet : i.verbose = false) (h : journalRun i es = some j) :
    j.Reported := by
  have hinv : j.observed.process.WF ∧ (∀ t, j.observed.Counts t) ∧ j.Reported := by
    refine run_invariant
      (I := fun j : Journal => j.observed.process.WF ∧ (∀ t, j.observed.Counts t) ∧ j.Reported)
      ⟨wf_initial i, counts_initial i, hquiet, rfl, rfl, rfl⟩ (fun m e m' hm hstep => ?_) es h
    obtain ⟨hwf, hcounts, hrep⟩ := hm
    have hobs := Journal.step_observed hstep
    exact ⟨hwf.step (Process.stepped (Observed.step_process hobs)),
      fun t => (hcounts t).step hwf hobs, hrep.step hcounts hstep⟩
  exact hinv.2.2

/-- Every run has a journal. -/
theorem journalRun_of_observed {o : Observed} (h : observedRun i es = some o) :
    ∃ j, journalRun i es = some j ∧ j.observed = o := by
  induction es using List.reverseRecOn generalizing o with
  | nil =>
      obtain rfl : Observed.initial i = o := by simpa [observedRun] using h
      exact ⟨.initial i, rfl, rfl⟩
  | append_singleton es e ih =>
      obtain ⟨m, hm, hstep⟩ := run_snoc_eq_some.mp h
      obtain ⟨j, hj, rfl⟩ := ih hm
      refine ⟨⟨o, j.racing ++ (j.observed.racing e).toList⟩, ?_, rfl⟩
      refine run_snoc_eq_some.mpr ⟨j, hj, ?_⟩
      unfold Journal.step
      rw [hstep]
      rfl

theorem journalRun_of_run (h : processRun i es = some s) :
    ∃ j, journalRun i es = some j ∧ j.observed.process = s := by
  obtain ⟨o, ho, rfl⟩ := observedRun_of_run h
  obtain ⟨j, hj, rfl⟩ := journalRun_of_observed ho
  exact ⟨j, hj, rfl⟩

/-- What a run prints and counts. -/
theorem report_of_run (hquiet : i.verbose = false) (h : processRun i es = some s) :
    s.printed = keepAll Racing.report RaceReport.lines reportCap (racingOf i es) ∧
      s.races = racingWords (racingOf i es) % wordSize := by
  obtain ⟨j, hj, rfl⟩ := journalRun_of_run h
  have hrep := journalRun_reported hquiet hj
  have hracing : racingOf i es = j.racing := by simp [racingOf, hj]
  rw [hracing]
  exact ⟨hrep.printed, hrep.races⟩

/-- Each pair of positions is printed just once, when it first occurs, and the count is that
of the racing words, exactly when line numbers tell the pairs of the run apart, an access
that is the first to have a pair has it at its first racing word, and the count does not
wrap.  The pairs may be those of the accesses or those of all racing words. -/
theorem reports_kept_iff (hquiet : i.verbose = false) (hrun : processRun i es = some s)
    {pairs : Racing → List PositionPair}
    (hpairs : pairs = Racing.accessPairs ∨ pairs = Racing.wordPairs)
    (hcap : ((racingOf i es).flatMap pairs).toFinset.card ≤ reportCap) :
    (KeepsFirst Racing.report RaceReport.pair pairs s.printed (racingOf i es) ∧
        s.races = racingWords (racingOf i es)) ↔
      Separates Racing.report RaceReport.pair pairs PositionPair.lines (racingOf i es) ∧
        racingWords (racingOf i es) < wordSize := by
  obtain ⟨hprinted, hraces⟩ := report_of_run hquiet hrun
  have hfirst : ∀ x : Racing, x.report.pair ∈ pairs x := by
    rcases hpairs with rfl | rfl
    · exact fun x => List.mem_singleton_self _
    · exact fun x => List.mem_cons_self
  rw [hprinted, hraces]
  refine and_congr (keepsFirst_iff (fun _ => rfl) hfirst hcap) ?_
  exact ⟨fun h => h ▸ Nat.mod_lt _ (by decide), Nat.mod_eq_of_lt⟩

/-- Two threads race at the same two lines of `a.c` and of `b.c`. -/
def twoFiles : List Event :=
  wholeCreate 0 1 7 ++
    wholeCall 0 (.write 0x1000 4 (some "a.c") 1) ++ wholeCall 1 (.write 0x1000 4 (some "a.c") 2) ++
    wholeCall 0 (.write 0x2000 4 (some "b.c") 1) ++ wholeCall 1 (.write 0x2000 4 (some "b.c") 2)

theorem reports_kept_twoFiles : ∃ s, processRun .ok twoFiles = some s ∧
    ((racingOf .ok twoFiles).flatMap Racing.accessPairs).toFinset.card ≤ reportCap ∧
    ((KeepsFirst Racing.report RaceReport.pair Racing.accessPairs s.printed
          (racingOf .ok twoFiles) ∧ s.races = racingWords (racingOf .ok twoFiles)) ↔
      Separates Racing.report RaceReport.pair Racing.accessPairs PositionPair.lines
          (racingOf .ok twoFiles) ∧ racingWords (racingOf .ok twoFiles) < wordSize) := by
  have hsome : (processRun .ok twoFiles).isSome = true := by decide +kernel
  obtain ⟨s, hs⟩ := Option.isSome_iff_exists.mp hsome
  have hcap : ((racingOf .ok twoFiles).flatMap Racing.accessPairs).toFinset.card ≤ reportCap := by
    decide +kernel
  exact ⟨s, hs, hcap, reports_kept_iff rfl hs (.inl rfl) hcap⟩

/-- The race in `b.c` is never printed. -/
theorem race_of_second_file_lost : Init.ok.verbose = false ∧ ∃ s,
    processRun .ok twoFiles = some s ∧
    ((racingOf .ok twoFiles).flatMap Racing.accessPairs).toFinset.card ≤ reportCap ∧
    ((some "b.c", 2), (some "b.c", 1)) ∈ (racingOf .ok twoFiles).flatMap Racing.accessPairs ∧
    s.printed.map RaceReport.pair = [((some "a.c", 2), (some "a.c", 1))] ∧ s.races = 2 ∧
    ¬ KeepsFirst Racing.report RaceReport.pair Racing.accessPairs s.printed
      (racingOf .ok twoFiles) := by
  have hmap : (processRun .ok twoFiles).map (fun s => (s.printed.map RaceReport.pair, s.races)) =
      some ([((some "a.c", 2), (some "a.c", 1))], 2) := by
    decide +kernel
  obtain ⟨s, hs, hpair⟩ := Option.map_eq_some_iff.mp hmap
  obtain ⟨hprinted, hraces⟩ := Prod.mk.inj hpair
  have hmem : ((some "b.c", 2), (some "b.c", 1)) ∈
      (racingOf .ok twoFiles).flatMap Racing.accessPairs := by
    decide +kernel
  refine ⟨rfl, s, hs, by decide +kernel, hmem, hprinted, hraces, fun h => ?_⟩
  -- an output with the pair would have to be among the printed ones
  obtain ⟨x, hx⟩ := exists_find?_of_mem hmem
  have hkept := h ((some "b.c", 2), (some "b.c", 1))
  rw [hx, Option.map_some, Option.toList_some] at hkept
  have hin := List.mem_filter.mp (hkept ▸ List.mem_singleton_self x.report)
  have hshown : ((some "b.c", 2), (some "b.c", 1)) ∈ s.printed.map RaceReport.pair :=
    List.mem_map.mpr ⟨x.report, hin.1, by simpa using hin.2⟩
  rw [hprinted] at hshown
  exact absurd hshown (by decide)

end Journals

end Redzone.Runtime
