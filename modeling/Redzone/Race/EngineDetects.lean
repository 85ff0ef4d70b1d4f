/-
  Race/EngineDetects.lean --- the races the engine is sure to report.

  `DetectsLatest` is the guarantee for one access: it is reported if it conflicts,
  unordered, with an access that another thread made in the epoch of its latest
  access to the word.  `FlagsRace` would be the guarantee for a whole run: a racy run
  reports something.  The first holds while epochs do not overflow.  The second does
  not hold: a cell keeps the latest epoch of its thread only, so a write that is
  followed by a release and a read is no longer there when the other thread reads.
  `flagsRace_of_lastingRace` says which races last.
-/
import Redzone.Race.EngineComplete

set_option autoImplicit false

namespace Redzone.Race

open Redzone.Foundation

/-- Position `q` is the latest access of thread `u` to `word` before position `j`. -/
def LatestAccess (es : List Event) (word u j q : ℕ) : Prop :=
  q < j ∧ es[q]?.bind (Event.toucher word) = some u ∧
    ∀ i, q < i → i < j → es[i]?.bind (Event.toucher word) ≠ some u

/-- An access to a word that at most `RZ_RACE_CELLS` threads have touched, always
finding a bucket, is reported if another thread has a conflicting access that does not
happen before it, in the epoch of that thread's latest access to the word. -/
def DetectsLatest (nbuckets : ℕ) (es : List Event) : Prop :=
  ∀ (j t addr : ℕ) (isWrite : Bool) (file : Option String) (line : ℤ),
    es[j]? = some (.access t addr isWrite file line) →
    (touchers (es.take j) (wordOf addr)).card ≤ raceCells →
    AccessesFound nbuckets (es.take j) (wordOf addr) →
    ∀ (i : ℕ) (e : Event) (q : ℕ), i < j → es[i]? = some e →
      Conflict e (.access t addr isWrite file line) →
      LatestAccess es (wordOf addr) e.actor j q →
      stampAt nbuckets es i = stampAt nbuckets es q →
      ¬ EngineHB es i j → Reports nbuckets es j

section Detect

variable {nbuckets : ℕ} {es : List Event} {s : EngineState} {e : Event} {word i j q : ℕ}

theorem stampAt_take (hi : i < j) : stampAt nbuckets (es.take j) i = stampAt nbuckets es i := by
  unfold stampAt
  rw [List.getElem?_take_of_lt hi, List.take_take, Nat.min_eq_left hi.le]

theorem JoinedStops.take (h : JoinedStops es) (n : ℕ) : JoinedStops (es.take n) :=
  List.Pairwise.sublist (List.take_sublist n es) h

/-- A thread that acts in a run has been in some epoch of its own component. -/
theorem EngineInv.stamped (h : EngineInv nbuckets (es.take i) s)
    (hrun : engineRun nbuckets (es.take i) = some s) (he : es[i]? = some e) {th : RzThread}
    (ht : s.threads e.actor = some th) : ∃ k ep, stampAt nbuckets es i = some (k, ep) := by
  obtain ⟨k, hk⟩ := h.epoch.slot_exists ht
  refine ⟨k, th.clock k, ?_⟩
  simp only [stampAt, he, hrun, Option.bind_some]
  exact EngineState.stamp_eq_some.mpr ⟨th, ht, hk, rfl⟩

/-- The epochs of a thread do not go back. -/
theorem stamp_mono (hfits : EpochsFit nbuckets es) {f : Event} (hi : es[i]? = some e)
    (hq : es[q]? = some f) (hactor : e.actor = f.actor) (hiq : i < q) {k : Fin maxThreads}
    {ep ep' : ℕ} (hsi : stampAt nbuckets es i = some (k, ep))
    (hsq : stampAt nbuckets es q = some (k, ep')) : ep ≤ ep' := by
  unfold stampAt at hsq
  rw [hq, Option.bind_some, Option.bind_eq_some_iff] at hsq
  obtain ⟨s, hrun, hstamp⟩ := hsq
  obtain ⟨th, hth, -, rfl⟩ := EngineState.stamp_eq_some.mp hstamp
  have hclock := (engine_sound (EveryStep.take hfits q) hrun).1
  refine hclock.thread f.actor th hth i ?_ k ep ((stampAt_take hiq).trans hsi)
  rw [← hactor]
  exact mem_known_of_actor (by rw [List.getElem?_take_of_lt hiq, hi])

theorem conflictingCell_isSome {cells : Cells} {t : RzThread} {isWrite : Bool}
    {c : Fin raceCells} (h : rzRaceCheck (cells c) t.tid t.clock isWrite = true) :
    (conflictingCell cells t isWrite).isSome = true := by
  unfold conflictingCell
  rw [Option.isSome_map, List.find?_isSome]
  exact ⟨c, List.mem_finRange c, h⟩

/-- A word that has cells has a bucket. -/
theorem findsBucket_of_cells {addr : ℕ} {c : Fin raceCells}
    (h : (s.cells (wordOf addr) c).valid = true) : FindsBucket s.race addr := by
  unfold FindsBucket findBucket
  cases hlookup : s.race.lookup (wordOf addr) with
  | none => simp [EngineState.cells, RzRaceState.cellsOf, hlookup, noCells, RzAccess.empty] at h
  | some p => by_cases hkey : (s.race.buckets p).key = wordOf addr + 1 <;> simp [hkey]

/-- A cell that conflicts with an access and is past the clock is reported. -/
theorem CellSound.verdict_isSome (hcell : CellSound nbuckets es s) {t addr : ℕ}
    {isWrite : Bool} {file : Option String} {line : ℤ} {th : RzThread}
    (ht : s.threads t = some th) {c : Fin raceCells}
    (hcheck : rzRaceCheck (s.cells (wordOf addr) c) th.tid th.clock isWrite = true) :
    (s.verdict (.access t addr isWrite file line)).isSome = true := by
  simp only [EngineState.verdict, ht, Option.bind_some]
  obtain ⟨hfull, -⟩ | ⟨-, heff⟩ := rzRaceAccessLoc_spec hcell.inv th addr isWrite file line
  · exact absurd (findsBucket_of_cells (rzRaceCheck_eq_true.mp hcheck).1) hfull
  · rw [heff.found]
    exact conflictingCell_isSome hcheck

/-- Every earlier access to a word with few enough threads has a cell and a stamp. -/
theorem EngineInv.represented (hinv : EngineInv nbuckets (es.take j) s)
    (hfits : EpochsFit nbuckets es) (htids : TidsFit nbuckets es) (hstops : JoinedStops es)
    (hrun : (engineRun nbuckets es).isSome = true)
    (hfew : (touchers (es.take j) word).card ≤ raceCells)
    (hfound : AccessesFound nbuckets (es.take j) word) {u : ℕ} (hij : i < j)
    (hi : es[i]? = some e) (htouch : e.toucher word = some u) :
    ∃ c thu k ep, Represents nbuckets (es.take j) s i (s.cells word c) ∧
      s.threads u = some thu ∧ (s.cells word c).tid = thu.tid ∧ slotOf thu.tid = some k ∧
      stampAt nbuckets es i = some (k, ep) := by
  have hi' : (es.take j)[i]? = some e := by rw [List.getElem?_take_of_lt hij, hi]
  obtain ⟨c, hrep⟩ := (hinv.kept word hfound hfew).kept i e u hi' htouch
  obtain ⟨f, thu, hf, hthu, htidu⟩ := hrep.owner
  obtain rfl : e = f := by simpa [hi'] using hf
  -- the state in which the access was made
  obtain ⟨s', hs'⟩ := Option.isSome_iff_exists.mp hrun
  obtain ⟨si, mi, hsi, hstepi, -⟩ := run_step_at hs' hi
  have hinvi := engine_complete (EveryStep.take hfits i) (EveryStep.take htids i)
    (hstops.take i) hsi
  obtain ⟨thi, hti⟩ : ∃ thi, si.threads e.actor = some thi := by
    obtain ⟨addr, isWrite, file, line, rfl, -⟩ := toucher_eq_some.mp htouch
    cases EngineState.stepped hstepi with
    | access ht => exact ⟨_, ht⟩
  obtain ⟨k, ep, hep⟩ := hinvi.stamped hsi hi hti
  obtain ⟨-, f, thf, hf, hthf, hkf⟩ :=
    hinv.reflects.owned i k ep ((stampAt_take hij).trans hep)
  obtain rfl : e = f := by simpa [hi'] using hf
  obtain rfl : thu = thf := by simpa [hthu] using hthf
  exact ⟨c, thu, k, ep, hrep, toucher_actor htouch ▸ hthu, htidu, hkf, hep⟩

/-- The clock of an access is below the epoch of every event it is not ordered after. -/
theorem EngineInv.unordered_lt (hinv : EngineInv nbuckets (es.take j) s) {t addr : ℕ}
    {isWrite : Bool} {file : Option String} {line : ℤ} {th : RzThread}
    (hj : es[j]? = some (.access t addr isWrite file line)) (ht : s.threads t = some th)
    (hij : i < j) (hhb : ¬ EngineHB es i j) {k : Fin maxThreads} {ep : ℕ}
    (hep : stampAt nbuckets es i = some (k, ep)) : th.clock k < ep := by
  by_contra hge
  have hlen : (es.take j).length = j :=
    List.length_take_of_le (List.getElem?_eq_some_iff.mp hj).1.le
  have hmem : i ∈ known (es.take j) t :=
    hinv.reflects.thread t th ht i (by rw [hlen]; exact hij) k ep
      ((stampAt_take hij).trans hep) (by omega)
  have hin : i ∈ incoming (es.take j) (.access t addr isWrite file line) := by
    rw [incoming_local (by simp) (by simp)]
    exact hmem
  exact hhb ((mem_incoming_iff eventOrder hj).mp hin)

/-- The converse: an event past the clock of an access is not ordered before it. -/
theorem EngineInv.not_hb_of_lt (hinv : EngineInv nbuckets (es.take j) s) {t addr : ℕ}
    {isWrite : Bool} {file : Option String} {line : ℤ} {th : RzThread}
    (hj : es[j]? = some (.access t addr isWrite file line)) (ht : s.threads t = some th)
    {k : Fin maxThreads} {ep : ℕ} (hep : stampAt nbuckets es i = some (k, ep))
    (hlt : th.clock k < ep) : ¬ EngineHB es i j := by
  intro hhb
  have hin : i ∈ incoming (es.take j) (.access t addr isWrite file line) :=
    (mem_incoming_iff eventOrder hj).mpr hhb
  rw [incoming_local (by simp) (by simp)] at hin
  have hle := hinv.clock.thread t th ht i hin k ep ((stampAt_take hhb.lt).trans hep)
  omega

/-- The cell of a thread is not past the epoch of its latest access. -/
theorem EngineInv.cell_le_latest (hinv : EngineInv nbuckets (es.take j) s)
    (hfits : EpochsFit nbuckets es) {u : ℕ} {thu : RzThread} {k : Fin maxThreads}
    {c : Fin raceCells} (hthu : s.threads u = some thu) (hk : slotOf thu.tid = some k)
    (hvalid : (s.cells word c).valid = true) (htid : (s.cells word c).tid = thu.tid)
    (hlatest : LatestAccess es word u j q) {ep : ℕ}
    (hep : stampAt nbuckets es q = some (k, ep)) : (s.cells word c).epoch ≤ ep := by
  obtain ⟨r, v, addr, w, f, l, thv, hr, hword, hthv, htidv, hstamp, -⟩ :=
    hinv.cell.recorded_cells hvalid
  obtain rfl : v = u := hinv.epoch.inj v u thv thu hthv hthu (htidv.trans htid)
  have hrj : r < j := by
    have := (List.getElem?_eq_some_iff.mp hr).1
    simp only [List.length_take] at this
    omega
  have hsr : stampAt nbuckets es r = some (k, (s.cells word c).epoch) :=
    (stampAt_take hrj).symm.trans (hstamp k (htid ▸ hk))
  rw [List.getElem?_take_of_lt hrj] at hr
  obtain ⟨-, hq, hafter⟩ := hlatest
  obtain hlt | rfl | hgt := Nat.lt_trichotomy r q
  · obtain ⟨g, hg, hgv⟩ := Option.bind_eq_some_iff.mp hq
    exact stamp_mono hfits hr hg (toucher_actor hgv).symm hlt hsr hep
  · rw [hep] at hsr
    exact (Prod.mk.inj (Option.some.inj hsr)).2.ge
  · exact absurd (by simp [hr, Event.toucher, hword]) (hafter r hgt hrj)

/-- **Detection.**  In a run without epoch overflow, in which joined threads stop, the
guarantee holds of every access. -/
theorem detectsLatest_of_epochsFit (nbuckets : ℕ) (es : List Event)
    (hrun : (engineRun nbuckets es).isSome = true) (htids : TidsFit nbuckets es)
    (hstops : JoinedStops es) (hfits : EpochsFit nbuckets es) :
    DetectsLatest nbuckets es := by
  intro j t addr isWrite file line hj hfew hfound i e q hij hi hconf hlatest hsame hhb
  obtain ⟨s', hs'⟩ := Option.isSome_iff_exists.mp hrun
  obtain ⟨s, m, hs, hstep, -⟩ := run_step_at hs' hj
  have hinv := engine_complete (EveryStep.take hfits j) (EveryStep.take htids j)
    (hstops.take j) hs
  cases EngineState.stepped hstep with
  | @access _ _ _ _ _ th ht =>
    cases e with
    | access u addr' isWrite' file' line' =>
      obtain ⟨hword, hne, hwrite⟩ := hconf
      obtain ⟨c, thu, k, ep, hrep, hthu, htidu, hk, hep⟩ :=
        hinv.represented hfits htids hstops hrun hfew hfound hij hi
          (u := u) (by simp [Event.toucher, hword])
      have hlt : th.clock k < ep := hinv.unordered_lt hj ht hij hhb hep
      have hepCell : ep ≤ (s.cells (wordOf addr) c).epoch :=
        hrep.epoch k ep ((stampAt_take hij).trans hep)
      have hcellWrite : (s.cells (wordOf addr) c).isWrite = true ∨ isWrite = true := by
        refine hwrite.imp (fun hw => ?_) id
        -- the latest access is of the same epoch, so the cell has not moved on
        have hle := hinv.cell_le_latest hfits hthu hk hrep.valid htidu hlatest (hsame ▸ hep)
        have hepoch := Nat.le_antisymm hle hepCell
        refine hrep.write (.access u addr' isWrite' file' line') k ?_ hw ?_
        · rw [List.getElem?_take_of_lt hij, hi]
        · rw [stampAt_take hij, hep, hepoch]
      have hcellTid : (s.cells (wordOf addr) c).tid ≠ th.tid := fun htid =>
        hne (hinv.epoch.inj u t thu th hthu ht (htidu.symm.trans htid))
      refine ⟨s, _, hs, hj, hinv.cell.verdict_isSome ht (c := c) ?_⟩
      exact rzRaceCheck_eq_true.mpr
        ⟨hrep.valid, hcellTid, hcellWrite, k, htidu ▸ hk, by omega⟩
    | _ => simp [Conflict] at hconf

end Detect

/-- The guarantee at a run of two unordered writes. -/
theorem detectsLatest_twoWrites :
    DetectsLatest 4 [.init 0, .init 1, .access 0 64 true none 0, .access 1 64 true none 0] :=
  detectsLatest_of_epochsFit _ _ (by decide) (by decide) (by decide) (by decide)

/-! ## Racy runs -/

/-- The run has two conflicting accesses that are not ordered. -/
def HasRace (es : List Event) : Prop :=
  ∃ (i j : ℕ) (e f : Event), i < j ∧ es[i]? = some e ∧ es[j]? = some f ∧ Conflict e f ∧
    ¬ EngineHB es i j

/-- A racy run reports something. -/
def FlagsRace (nbuckets : ℕ) (es : List Event) : Prop :=
  HasRace es → ∃ j, Reports nbuckets es j

/-- The word of an access. -/
def Event.word : Event → ℕ
  | .access _ addr _ _ _ => wordOf addr
  | _ => 0

/-- Thread `u` has written `word` in the epoch of its latest access to it before `j`. -/
def WritesInLatest (nbuckets : ℕ) (es : List Event) (word u j : ℕ) : Prop :=
  ∃ (q i : ℕ) (e : Event), LatestAccess es word u j q ∧ i < j ∧ es[i]? = some e ∧
    e.toucher word = some u ∧ e.isWrite = true ∧
    stampAt nbuckets es i = stampAt nbuckets es q

/-- The run has two conflicting accesses that are not ordered, where the later one is
a write, or the thread of the earlier one still has a write in its latest epoch. -/
def LastingRace (nbuckets : ℕ) (es : List Event) : Prop :=
  ∃ (i j : ℕ) (e f : Event), i < j ∧ es[i]? = some e ∧ es[j]? = some f ∧ Conflict e f ∧
    ¬ EngineHB es i j ∧
    (f.isWrite = true ∨ WritesInLatest nbuckets es f.word e.actor j)

/-- The access finds a bucket. -/
def EngineState.Found (s : EngineState) : Event → Prop
  | .access _ addr _ _ _ => FindsBucket s.race addr
  | _ => True

instance (s : EngineState) : (e : Event) → Decidable (s.Found e)
  | .access _ addr _ _ _ => inferInstanceAs (Decidable (FindsBucket s.race addr))
  | .init _ | .create _ _ | .join _ _ | .acquire _ _ | .release _ _ => .isTrue trivial

/-- No access of the run finds the table full. -/
def NoFullTable (nbuckets : ℕ) (es : List Event) : Prop :=
  EveryStep EngineState.step EngineState.Found (.initial nbuckets) es

instance (nbuckets : ℕ) (es : List Event) : Decidable (NoFullTable nbuckets es) :=
  decidableEveryStep ..

section Racy

variable {nbuckets : ℕ} {es : List Event} {word u i j q : ℕ}

theorem NoFullTable.accessesFound (h : NoFullTable nbuckets es) (word : ℕ) :
    AccessesFound nbuckets es word := by
  refine EveryStep.mono h fun s e hfound => ?_
  cases e with
  | access t addr isWrite file line => exact fun _ => hfound
  | _ => trivial

theorem touchers_take_subset (es : List Event) (word n : ℕ) :
    touchers (es.take n) word ⊆ touchers es word := by
  intro u hu
  obtain ⟨q, f, hq, hf⟩ := mem_touchers.mp hu
  refine mem_touchers.mpr ⟨q, f, ?_, hf⟩
  rw [List.getElem?_take] at hq
  split at hq
  · exact hq
  · simp at hq

theorem touchers_card_le {n : ℕ} (h : (es.map Event.actor).toFinset.card ≤ n) (word : ℕ) :
    (touchers es word).card ≤ n := by
  refine (Finset.card_le_card fun u hu => ?_).trans h
  obtain ⟨q, f, hq, hf⟩ := mem_touchers.mp hu
  rw [List.mem_toFinset, List.mem_map]
  exact ⟨f, List.mem_of_getElem? hq, toucher_actor hf⟩

/-- A thread that has touched a word has a latest access to it. -/
theorem exists_latestAccess (h : ∃ i < j, es[i]?.bind (Event.toucher word) = some u) :
    ∃ q, LatestAccess es word u j q ∧
      ∀ i < j, es[i]?.bind (Event.toucher word) = some u → i ≤ q := by
  obtain ⟨i, hij, hi⟩ := h
  have hbound : ∃ q, q < j ∧ es[q]?.bind (Event.toucher word) = some u := ⟨i, hij, hi⟩
  have hlast := Nat.findGreatest_spec (P := fun q =>
    q < j ∧ es[q]?.bind (Event.toucher word) = some u) hij.le ⟨hij, hi⟩
  have hmax : ∀ i < j, es[i]?.bind (Event.toucher word) = some u →
      i ≤ Nat.findGreatest (fun q => q < j ∧ es[q]?.bind (Event.toucher word) = some u) j :=
    fun i hij hi => Nat.le_findGreatest hij.le ⟨hij, hi⟩
  refine ⟨_, ⟨hlast.1, hlast.2, fun i hqi hij hi => ?_⟩, hmax⟩
  exact absurd (hmax i hij hi) (Nat.not_le.mpr hqi)

/-- **Lasting races are flagged.**  Without epoch overflow, and with joined threads
stopping, a race that lasts until the later access is reported there. -/
theorem flagsRace_of_lastingRace (nbuckets : ℕ) (es : List Event)
    (hrun : (engineRun nbuckets es).isSome = true) (htids : TidsFit nbuckets es)
    (hfew : ∀ word, (touchers es word).card ≤ raceCells) (htable : NoFullTable nbuckets es)
    (hstops : JoinedStops es) (hfits : EpochsFit nbuckets es)
    (hrace : LastingRace nbuckets es) : ∃ j, Reports nbuckets es j := by
  obtain ⟨i, j, e, f, hij, hi, hj, hconf, hhb, hlast⟩ := hrace
  obtain ⟨u, addr', isWrite', file', line', t, addr, isWrite, file, line, rfl, rfl⟩ :
      ∃ u addr' isWrite' file' line' t addr isWrite file line,
        e = .access u addr' isWrite' file' line' ∧ f = .access t addr isWrite file line := by
    cases e <;> cases f <;> simp [Conflict] at hconf
    exact ⟨_, _, _, _, _, _, _, _, _, _, rfl, rfl⟩
  obtain ⟨hword, hne, -⟩ := hconf
  have hfewj := (Finset.card_le_card (touchers_take_subset es (wordOf addr) j)).trans
    (hfew (wordOf addr))
  have hfoundj : AccessesFound nbuckets (es.take j) (wordOf addr) :=
    EveryStep.take (htable.accessesFound _) j
  have hitouch : es[i]?.bind (Event.toucher (wordOf addr)) = some u := by
    simp [hi, Event.toucher, hword]
  -- the latest access of the earlier thread is not ordered either
  obtain ⟨q, hlatest, hmax⟩ := exists_latestAccess ⟨i, hij, hitouch⟩
  obtain ⟨g, hg, hgu⟩ := Option.bind_eq_some_iff.mp hlatest.2.1
  have hqhb : ¬ EngineHB es q j := by
    intro hqj
    obtain hiq | rfl := (hmax i hij hitouch).lt_or_eq
    · exact hhb ((HappensBefore.of_actor hiq hi hg (toucher_actor hgu).symm).trans hqj)
    · exact hhb hqj
  have hdetect := detectsLatest_of_epochsFit nbuckets es hrun htids hstops hfits j t addr isWrite
    file line hj hfewj hfoundj
  refine ⟨j, ?_⟩
  obtain hw | ⟨q', i', e', hlatest', hij', hi', htouch', hwrite', hsame'⟩ := hlast
  · obtain ⟨addr'', w, fl, l, rfl, hword''⟩ := toucher_eq_some.mp hgu
    exact hdetect q _ q hlatest.1 hg ⟨hword'', hne, Or.inr hw⟩ hlatest rfl hqhb
  · -- the write is of the same epoch as the latest access, which the clock is below
    obtain ⟨addr'', w, fl, l, rfl, hword''⟩ := toucher_eq_some.mp htouch'
    refine hdetect i' _ q' hij' hi' ⟨hword'', hne, Or.inl hwrite'⟩ hlatest' hsame' ?_
    obtain rfl : q' = q := by
      obtain hlt | heq | hgt := Nat.lt_trichotomy q' q
      · exact absurd hlatest.2.1 (hlatest'.2.2 q hlt hlatest.1)
      · exact heq
      · exact absurd hlatest'.2.1 (hlatest.2.2 q' hgt hlatest'.1)
    obtain ⟨s', hs'⟩ := Option.isSome_iff_exists.mp hrun
    obtain ⟨s, m, hs, hstep, -⟩ := run_step_at hs' hj
    have hinv := engine_complete (EveryStep.take hfits j) (EveryStep.take htids j)
      (hstops.take j) hs
    cases EngineState.stepped hstep with
    | access ht =>
      obtain ⟨-, -, k, ep, -, -, -, -, hep⟩ :=
        hinv.represented hfits htids hstops hrun hfewj hfoundj hlatest.1 hg hgu
      have hlt := hinv.unordered_lt hj ht hlatest.1 hqhb hep
      exact hinv.not_hb_of_lt hj ht (hsame'.trans hep) hlt

end Racy

/-- The theorem at the run of two unordered writes. -/
theorem flagsRace_twoWrites :
    ∃ j, Reports 4
      [.init 0, .init 1, .access 0 64 true none 0, .access 1 64 true none 0] j := by
  refine flagsRace_of_lastingRace _ _ (by decide) (by decide)
    (touchers_card_le (by decide)) (by decide) (by decide) (by decide) ?_
  exact ⟨2, 3, _, _, by decide, rfl, rfl, by decide, by decide, Or.inl rfl⟩

/-! ## Races that are lost

The guarantee for whole runs fails in three ways: a cell that has moved on to a later
epoch, a thread that goes on after it has been joined, and an epoch that overflows. -/

/-- What a run must satisfy for `FlagsRace` to be asked of it. -/
structure Legitimate (nbuckets : ℕ) (es : List Event) : Prop where
  possible : (engineRun nbuckets es).isSome = true
  tids : TidsFit nbuckets es
  few : ∀ word, (touchers es word).card ≤ raceCells
  table : NoFullTable nbuckets es

/-- Thread 0 writes a word, releases, and reads the word; then thread 1 reads it. -/
def droppedRun : List Event :=
  [.init 0, .init 1, .access 0 0 true none 0, .release 0 0, .access 0 0 false none 0,
    .access 1 0 false none 0]

/-- Thread 1 writes a word after it has been joined; then thread 0 writes it. -/
def joinedRun : List Event :=
  [.init 0, .create 0 1, .join 0 1, .access 1 0 true none 0, .access 0 0 true none 0]

/-- `n` releases of thread 0 and a handover to thread 1. -/
def staleHandover (n : ℕ) : List Event :=
  [.init 0, .init 1] ++ List.replicate n (.release 0 0) ++ [.release 0 1, .acquire 1 1]

/-- The handover, and a write by both threads. -/
def staleRun (n : ℕ) : List Event :=
  staleHandover n ++ [.access 0 0 true none 0] ++ [.access 1 0 true none 0]

section Lost

variable {nbuckets n j : ℕ} {es : List Event}

theorem not_reports_of_not_access (h : ∀ t addr isWrite file line,
    es[j]? ≠ some (.access t addr isWrite file line)) : ¬ Reports nbuckets es j := by
  rintro ⟨s, e, -, he, hverdict⟩
  cases e with
  | access t addr isWrite file line => exact h t addr isWrite file line he
  | _ => simp [EngineState.verdict] at hverdict

theorem reports_iff : Reports nbuckets es j ↔
    ((engineRun nbuckets (es.take j)).bind fun s => es[j]?.bind s.verdict).isSome = true := by
  constructor
  · rintro ⟨s, e, hs, he, hverdict⟩
    simpa [hs, he] using hverdict
  · intro h
    cases hs : engineRun nbuckets (es.take j) with
    | none => simp [hs] at h
    | some s =>
      cases he : es[j]? with
      | none => simp [hs, he] at h
      | some e => exact ⟨s, e, hs, he, by simpa [hs, he] using h⟩

instance (nbuckets : ℕ) (es : List Event) (j : ℕ) : Decidable (Reports nbuckets es j) :=
  decidable_of_iff _ reports_iff.symm

theorem not_reports_of_forall_lt (h : ∀ j < es.length, ¬ Reports nbuckets es j) :
    ∀ j, ¬ Reports nbuckets es j := by
  intro j
  by_cases hj : j < es.length
  · exact h j hj
  · refine not_reports_of_not_access fun t addr isWrite file line he => ?_
    exact hj (List.getElem?_eq_some_iff.mp he).1

theorem droppedRun_lost :
    Legitimate 4 droppedRun ∧ JoinedStops droppedRun ∧ EpochsFit 4 droppedRun ∧
      ¬ FlagsRace 4 droppedRun := by
  refine ⟨⟨by decide, by decide, touchers_card_le (by decide), by decide⟩, by decide,
    by decide, fun h => ?_⟩
  obtain ⟨j, hj⟩ := h ⟨2, 5, _, _, by decide, rfl, rfl, by decide, by decide⟩
  exact not_reports_of_forall_lt (by decide) j hj

theorem joinedRun_lost :
    Legitimate 4 joinedRun ∧ EpochsFit 4 joinedRun ∧ LastingRace 4 joinedRun ∧
      ¬ FlagsRace 4 joinedRun := by
  refine ⟨⟨by decide, by decide, touchers_card_le (by decide), by decide⟩, by decide,
    ⟨3, 4, _, _, by decide, rfl, rfl, by decide, by decide, Or.inl rfl⟩, fun h => ?_⟩
  obtain ⟨j, hj⟩ := h ⟨3, 4, _, _, by decide, rfl, rfl, by decide, by decide⟩
  exact not_reports_of_forall_lt (by decide) j hj

theorem staleHandover_length (n : ℕ) : (staleHandover n).length = n + 4 := by
  simp [staleHandover]

/-- The write of thread 0, after the handover. -/
abbrev staleWrite : Event := .access 0 0 true none 0

/-- The write of thread 1, which nothing orders after that of thread 0. -/
abbrev staleConflict : Event := .access 1 0 true none 0

theorem staleRun_getElem?_write (n : ℕ) : (staleRun n)[n + 4]? = some staleWrite := by
  rw [← staleHandover_length n, staleRun, List.append_assoc,
    List.getElem?_append_right (Nat.le_refl _)]
  simp

theorem staleRun_getElem?_conflict (n : ℕ) : (staleRun n)[n + 5]? = some staleConflict := by
  have hlen : (staleHandover n ++ [staleWrite]).length = n + 5 := by
    simp [staleHandover_length]
  rw [staleRun, ← hlen, List.getElem?_concat_length]

theorem staleRun_take (n : ℕ) :
    (staleRun n).take (n + 5) = staleHandover n ++ [staleWrite] := by
  rw [staleRun]
  exact List.take_left' (by simp [staleHandover_length])

/-- The two writes are not ordered: thread 1 learnt from thread 0 before the first. -/
theorem staleRun_unordered (n : ℕ) : ¬ EngineHB (staleRun n) (n + 4) (n + 5) := by
  intro hhb
  have hin : n + 4 ∈ incoming ((staleRun n).take (n + 5)) staleConflict :=
    (mem_incoming_iff eventOrder (staleRun_getElem?_conflict n)).mpr hhb
  rw [incoming_local (by simp) (by simp), staleRun_take,
    known_snoc_other (by simp [Event.actor]) (by simp)] at hin
  have := lt_of_mem_known hin
  simp [staleHandover_length] at this

/-- No call of the handover accesses memory or brings a third thread to life. -/
theorem mem_staleHandover {e : Event} (h : e ∈ staleHandover n) :
    e = .init 0 ∨ e = .init 1 ∨ e = .release 0 0 ∨ e = .release 0 1 ∨ e = .acquire 1 1 := by
  simp only [staleHandover, List.mem_append, List.mem_cons, List.mem_replicate,
    List.not_mem_nil, or_false] at h
  tauto

/-- The engine after the handover, where the epoch of thread 0 is about to overflow when
it releases object 1. -/
theorem run_staleHandover (hn : 1 + n + 1 = epochBound) :
    ∃ s, engineRun raceBuckets (staleHandover n) = some s ∧
      s.threads 0 = some ⟨0, rzVcInit⟩ ∧
      s.threads 1 = some ⟨1, rzVcJoin (rzVcTick rzVcInit 1)
        (rzVcJoin rzVcInit (Function.update rzVcInit 0 (epochBound - 1)))⟩ ∧
      s.race = ⟨fun _ => .empty, raceBuckets, 2⟩ := by
  have hlast : wrapClock n = Function.update rzVcInit 0 (epochBound - 1) := by
    rw [wrapClock, Nat.mod_eq_of_lt (by omega), show 1 + n = epochBound - 1 by omega]
  have hwrap : wrapClock (n + 1) = rzVcInit := by
    rw [wrapClock, show 1 + (n + 1) = epochBound by omega, Nat.mod_self]
    exact Function.update_eq_self 0 rzVcInit
  obtain ⟨s₀, hs₀, h0, h1, hsync, hrace⟩ : ∃ s,
      engineRun raceBuckets [.init 0, .init 1] = some s ∧
      s.threads 0 = some ⟨0, wrapClock 0⟩ ∧ s.threads 1 = some ⟨1, rzVcTick rzVcInit 1⟩ ∧
      s.syncs 1 = rzSyncInit ∧ s.race = ⟨fun _ => .empty, raceBuckets, 2⟩ :=
    ⟨_, rfl, rfl, rfl, rfl, rfl⟩
  obtain ⟨s₁, hs₁, h0', h1', hsync', hrace'⟩ := run_releases h0 n
  obtain ⟨s₂, hs₂, h0'', h1'', hrace''⟩ :=
    run_handover h0' (h1'.trans h1) (hsync'.trans hsync)
  rw [Nat.zero_add, hwrap] at h0''
  rw [Nat.zero_add, hlast] at h1''
  refine ⟨s₂, ?_, h0'', h1'', hrace''.trans (hrace'.trans hrace)⟩
  exact run_append_eq_some.mpr ⟨s₁, run_append_eq_some.mpr ⟨s₀, hs₀, hs₁⟩, hs₂⟩

/-- The two writes after the handover: both find a bucket, neither is reported. -/
theorem run_staleRun (hn : 1 + n + 1 = epochBound) :
    ∃ s m m', engineRun raceBuckets (staleHandover n) = some s ∧
      s.step staleWrite = some m ∧ m.step staleConflict = some m' ∧
      s.Found staleWrite ∧ m.Found staleConflict ∧
      s.verdict staleWrite = none ∧ m.verdict staleConflict = none := by
  obtain ⟨s, hs, h0, h1, hrace⟩ := run_staleHandover hn
  obtain ⟨m, hm, h1', hrace'⟩ : ∃ m, s.step staleWrite = some m ∧
      m.threads 1 = s.threads 1 ∧ m.race =
        (rzRaceAccessLoc ⟨fun _ => .empty, raceBuckets, 2⟩ ⟨0, rzVcInit⟩ 0 true none 0).2 :=
    ⟨_, (Stepped.access h0).step_eq, rfl, by rw [hrace]⟩
  rw [h1] at h1'
  refine ⟨s, m, _, hs, hm, (Stepped.access h1').step_eq, ?_, ?_, ?_, ?_⟩
  · simp only [EngineState.Found, hrace]
    decide
  · simp only [EngineState.Found, hrace']
    decide
  · simp only [EngineState.verdict, h0, hrace, Option.bind_some]
    decide
  · simp only [EngineState.verdict, h1', hrace', Option.bind_some]
    decide

theorem staleRun_legitimate (hn : 1 + n + 1 = epochBound) :
    Legitimate raceBuckets (staleRun n) ∧ JoinedStops (staleRun n) := by
  obtain ⟨s, m, m', hs, hm, hm', hfound, hfound', -⟩ := run_staleRun hn
  have hsnoc : engineRun raceBuckets (staleHandover n ++ [staleWrite]) = some m :=
    run_snoc_eq_some.mpr ⟨s, hs, hm⟩
  refine ⟨⟨?_, ?_, ?_, ?_⟩, ?_⟩
  · exact Option.isSome_iff_exists.mpr ⟨m', run_snoc_eq_some.mpr ⟨m, hsnoc, hm'⟩⟩
  · have hsplit : staleRun n = [.init 0, .init 1] ++ (List.replicate n (.release 0 0) ++
        [.release 0 1, .acquire 1 1, staleWrite, staleConflict]) := by
      simp [staleRun, staleHandover]
    rw [hsplit]
    refine everyStep_append.mpr ⟨by decide, fun _ _ => everyStep_of_forall fun e he _ => ?_⟩
    simp only [List.mem_append, List.mem_replicate, List.mem_cons, List.not_mem_nil,
      or_false] at he
    obtain ⟨-, rfl⟩ | rfl | rfl | rfl | rfl := he <;> trivial
  · intro word
    have hsub : touchers (staleRun n) word ⊆ {0, 1} := by
      intro u hu
      obtain ⟨q, f, hq, hf⟩ := mem_touchers.mp hu
      have hmem := List.mem_of_getElem? hq
      rw [staleRun, List.mem_append, List.mem_append, List.mem_singleton,
        List.mem_singleton] at hmem
      rw [← toucher_actor hf]
      obtain (hmem | rfl) | rfl := hmem
      · obtain rfl | rfl | rfl | rfl | rfl := mem_staleHandover hmem <;> simp [Event.actor]
      · simp [Event.actor]
      · simp [Event.actor]
    exact (Finset.card_le_card hsub).trans (by decide)
  · refine everyStep_snoc.mpr ⟨everyStep_snoc.mpr ⟨?_, ?_⟩, ?_⟩
    · refine everyStep_of_forall fun e he _ => ?_
      obtain rfl | rfl | rfl | rfl | rfl := mem_staleHandover he <;> trivial
    · intro s' hs'
      obtain rfl : s = s' := by simpa [hs] using hs'.symm.trans hs |>.symm
      exact hfound
    · intro m₁ hm₁
      obtain rfl : m = m₁ := Option.some.inj (hsnoc.symm.trans hm₁)
      exact hfound'
  · refine List.pairwise_of_forall_mem_list fun e he f _ => ?_
    rw [staleRun, List.mem_append, List.mem_append, List.mem_singleton,
      List.mem_singleton] at he
    obtain (he | rfl) | rfl := he
    · obtain rfl | rfl | rfl | rfl | rfl := mem_staleHandover he <;> trivial
    · trivial
    · trivial

/-- Neither write is reported, nor is anything else. -/
theorem staleRun_not_reports (hn : 1 + n + 1 = epochBound) (j : ℕ) :
    ¬ Reports raceBuckets (staleRun n) j := by
  obtain ⟨s, m, m', hs, hm, hm', -, -, hquiet, hquiet'⟩ := run_staleRun hn
  have hsnoc : engineRun raceBuckets (staleHandover n ++ [staleWrite]) = some m :=
    run_snoc_eq_some.mpr ⟨s, hs, hm⟩
  obtain hlt | rfl | rfl | hgt : j < n + 4 ∨ j = n + 4 ∨ j = n + 5 ∨ n + 5 < j := by omega
  · refine not_reports_of_not_access fun t addr isWrite file line hj => ?_
    rw [staleRun, List.append_assoc, List.getElem?_append_left
      (by rw [staleHandover_length]; exact hlt)] at hj
    simpa using mem_staleHandover (List.mem_of_getElem? hj)
  · rw [reports_iff, staleRun_getElem?_write, staleRun, List.append_assoc,
      List.take_left' (staleHandover_length n), hs]
    simp [hquiet]
  · rw [reports_iff, staleRun_getElem?_conflict, staleRun_take, hsnoc]
    simp [hquiet']
  · refine not_reports_of_not_access fun t addr isWrite file line hj => ?_
    have := (List.getElem?_eq_some_iff.mp hj).1
    simp [staleRun, staleHandover_length] at this
    omega

end Lost

/-- A wrapped run loses the race of its two writes. -/
theorem staleRun_misses {n : ℕ} (hn : 1 + n + 1 = epochBound) :
    ¬ DetectsLatest raceBuckets (staleRun n) := by
  obtain ⟨hleg, -⟩ := staleRun_legitimate hn
  intro h
  refine staleRun_not_reports hn (n + 5) ?_
  refine h (n + 5) 1 0 true none 0 (staleRun_getElem?_conflict n)
    ((Finset.card_le_card (touchers_take_subset ..)).trans (hleg.few _))
    (EveryStep.take (hleg.table.accessesFound _) _) (n + 4) staleWrite (n + 4) (by omega)
    (staleRun_getElem?_write n) (by decide) ⟨by omega, ?_, by omega⟩ rfl (staleRun_unordered n)
  rw [staleRun_getElem?_write]
  rfl

/-- The guarantee for an access fails on the 64-bit counter: thread 1 has seen the last
epoch of thread 0, which then writes in epoch 0 and is not reported. -/
theorem epochWrap_misses_latest :
    Legitimate raceBuckets (staleRun (2 ^ 64 - 2)) ∧ JoinedStops (staleRun (2 ^ 64 - 2)) ∧
      ¬ DetectsLatest raceBuckets (staleRun (2 ^ 64 - 2)) := by
  have hn : 1 + (2 ^ 64 - 2) + 1 = epochBound := by decide
  obtain ⟨hleg, hstops⟩ := staleRun_legitimate hn
  exact ⟨hleg, hstops, staleRun_misses hn⟩

theorem staleRun_lost {n : ℕ} (hn : 1 + n + 1 = epochBound) :
    LastingRace raceBuckets (staleRun n) ∧ ¬ FlagsRace raceBuckets (staleRun n) := by
  refine ⟨⟨n + 4, n + 5, _, _, by omega, staleRun_getElem?_write n,
    staleRun_getElem?_conflict n, by decide, staleRun_unordered n, Or.inl rfl⟩, fun h => ?_⟩
  obtain ⟨j, hj⟩ := h ⟨n + 4, n + 5, _, _, by omega, staleRun_getElem?_write n,
    staleRun_getElem?_conflict n, by decide, staleRun_unordered n⟩
  exact staleRun_not_reports hn j hj

/-- Racy runs that are not flagged: one whose write has made way for a read of a later
epoch, and two whose race lasts, one with a joined thread that goes on and one with an
epoch that overflows. -/
theorem racyRuns_not_flagged :
    (Legitimate 4 droppedRun ∧ JoinedStops droppedRun ∧ EpochsFit 4 droppedRun ∧
      ¬ FlagsRace 4 droppedRun) ∧
    (Legitimate 4 joinedRun ∧ EpochsFit 4 joinedRun ∧ LastingRace 4 joinedRun ∧
      ¬ FlagsRace 4 joinedRun) ∧
    (Legitimate raceBuckets (staleRun (2 ^ 64 - 2)) ∧ JoinedStops (staleRun (2 ^ 64 - 2)) ∧
      LastingRace raceBuckets (staleRun (2 ^ 64 - 2)) ∧
      ¬ FlagsRace raceBuckets (staleRun (2 ^ 64 - 2))) := by
  have hn : 1 + (2 ^ 64 - 2) + 1 = epochBound := by decide
  obtain ⟨hleg, hstops⟩ := staleRun_legitimate hn
  obtain ⟨hrace, hlost⟩ := staleRun_lost hn
  exact ⟨droppedRun_lost, joinedRun_lost, hleg, hstops, hrace, hlost⟩

end Redzone.Race
