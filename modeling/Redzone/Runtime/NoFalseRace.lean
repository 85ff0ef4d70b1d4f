/-
  Runtime/NoFalseRace.lean --- when the race count stays 0.

  In a run in which no step loses an order, every hit is a check of a word that an earlier
  conflicting check does not happen before.  So where all conflicting checks of each word
  are ordered by the real operations, nothing is counted (`races_zero`).  An order is lost
  where the runtime runs out of memory for it, and where a join looks for an entry that the
  creator of the thread has not made yet.  Two unordered accesses to different bytes of one
  word are counted as well.
-/
import Redzone.Runtime.CellRecords

set_option autoImplicit false

namespace Redzone.Runtime

open Redzone.Foundation
open Redzone.Race

/-! ## Runs that lose no order -/

instance (i : Init) (es : List Event) : Decidable (KeepsEdges i es) :=
  decidableEveryStep Process.step (fun s e => e.OnStep s.EdgesKept) (.initial i) es

/-- All conflicting checks of each word are ordered by the real operations. -/
def Ordered (es : List Event) : Prop :=
  ∀ n k e f, n < k → es[n]? = some e → es[k]? = some f → Conflict e f → RealHB es n k

section Races

variable {i : Init} {es : List Event} {s s' : Process} {e : Event} {t k : ℕ} {a : Access}
  {r : Result}

theorem Ordered.not_racy (h : Ordered es) : ¬ Racy es k := by
  intro hracy
  obtain ⟨n, hnk, e, f, he, hf, hconf, hhb⟩ := hracy
  exact hhb (h n k e f hnk he hf hconf)

theorem Ordered.prefix {fs : List Event} (h : Ordered (es ++ fs)) : Ordered es := by
  intro n k e f hnk he hf hconf
  have hk : k < es.length := (List.getElem?_eq_some_iff.mp hf).1
  have hhb := h n k e f hnk (by rw [List.getElem?_append_left (hnk.trans hk), he])
    (by rw [List.getElem?_append_left hk, hf]) hconf
  rwa [RealHB, happensBefore_append_left hk] at hhb

theorem addHit_races {tid : ℤ} {w : ℕ} {p : Option RzAccess} :
    (s.addHit t tid w p).races = s.races := by
  cases p <;> rfl

/-- The race count changes at the end of an access that has hits. -/
theorem finishStep_races (h : (s.finishStep t a).races ≠ s.races) : (s.threads t).hits ≠ 0 := by
  intro hzero
  unfold Process.finishStep at h
  rw [hzero] at h
  exact h rfl

theorem Stepped.races_cases (h : Stepped s e s') (hraces : s'.races ≠ s.races) :
    ∃ a r, e.action = .step (.finish a) r ∧ (s.threads e.thread).hits ≠ 0 := by
  cases h with
  | @micro t m r rest s₁ hrun htodo heff =>
      rw [setTodo_races] at hraces
      cases heff with
      | @finish a => exact ⟨a, r, rfl, finishStep_races hraces⟩
      | acquire ht =>
          unfold Process.acquireStep at hraces
          split at hraces <;> exact absurd rfl hraces
      | release ht =>
          unfold Process.releaseStep at hraces
          split at hraces <;> exact absurd rfl hraces
      | @word th a w ht => exact absurd addHit_races hraces
      | _ => exact absurd rfl hraces
  | _ => exact absurd rfl hraces

/-- Where conflicting checks are ordered and no order is lost, no race is counted. -/
theorem races_zero (hkept : KeepsEdges i es) (hordered : Ordered es)
    (hrun : processRun i es = some s) : s.races = 0 := by
  refine run_induction (P := fun es s => RacesSound i es s ∧ (Ordered es → s.races = 0))
    ⟨racesSound_initial i, fun _ => rfl⟩ ?_ es hkept hrun |>.2 hordered
  intro es e s s' hs hcond hboth hstep
  obtain ⟨hsound, hzero⟩ := hboth
  have hst := Process.stepped hstep
  refine ⟨hsound.step hs hcond hst, fun hordered => ?_⟩
  by_contra hraces
  have hne : s'.races ≠ s.races := by rwa [hzero hordered.prefix]
  obtain ⟨a, r, -, hhits⟩ := hst.races_cases hne
  obtain ⟨-, -, k, -, -, -, hracy⟩ := hsound.hits.hits e.thread hhits
  exact hordered.prefix.not_racy hracy

end Races

/-- A run in which only two positions check words is ordered if these are. -/
theorem ordered_of_two {es : List Event} {i j : ℕ}
    (hwords : ∀ n < es.length, (es[n]?.bind Event.word?).isSome = true → n = i ∨ n = j)
    (hhb : RealHB es i j) : Ordered es := by
  intro n k e f hnk he hf hconf
  have hlt := hhb.lt
  obtain ⟨a, b, w, hea, hfb, -⟩ := hconf
  have hn := hwords n (List.getElem?_eq_some_iff.mp he).1 (by rw [he]; simp [hea])
  have hk := hwords k (List.getElem?_eq_some_iff.mp hf).1 (by rw [hf]; simp [hfb])
  rcases hn with rfl | rfl
  · rcases hk with rfl | rfl
    · exact absurd hnk (lt_irrefl _)
    · exact hhb
  · rcases hk with rfl | rfl
    · exact absurd hnk hlt.asymm
    · exact absurd hnk (lt_irrefl _)

/-! ## Bytes -/

/-- Conflicting accesses with a byte in common are ordered by the real operations. -/
def BytesOrdered (es : List Event) : Prop :=
  ∀ n k e f a b w, n < k → es[n]? = some e → es[k]? = some f → Conflict e f →
    e.word? = some (a, w) → f.word? = some (b, w) → a.Overlaps b → RealHB es n k

/-- No two unordered conflicting accesses share a word without a byte in common. -/
def WordsApart (es : List Event) : Prop :=
  ∀ n k e f a b w, n < k → es[n]? = some e → es[k]? = some f → Conflict e f →
    e.word? = some (a, w) → f.word? = some (b, w) → ¬ RealHB es n k → a.Overlaps b

theorem WordsApart.ordered {es : List Event} (h : WordsApart es) (hbytes : BytesOrdered es) :
    Ordered es := by
  intro n k e f hnk he hf hconf
  by_contra hhb
  obtain ⟨a, b, w, hea, hfb, -⟩ := id hconf
  exact hhb (hbytes n k e f a b w hnk he hf hconf hea hfb
    (h n k e f a b w hnk he hf hconf hea hfb hhb))

theorem Ordered.bytesOrdered {es : List Event} (h : Ordered es) : BytesOrdered es :=
  fun n k e f _ _ _ hnk he hf hconf _ _ _ => h n k e f hnk he hf hconf

/-- The end of access `a` by thread `t` at position `j` has a cause: a check of one of its
words, and an earlier access by another thread, one of them a write, that does not happen
before it and has a byte in common with it. -/
def HasCause (es : List Event) (j t : ℕ) (a : Access) : Prop :=
  ∃ n k w b u r r', n < k ∧ k < j ∧ es[n]? = some ⟨u, .step (.word b w) r'⟩ ∧
    es[k]? = some ⟨t, .step (.word a w) r⟩ ∧ u ≠ t ∧ (b.isWrite = true ∨ a.isWrite = true) ∧
    ¬ RealHB es n k ∧ b.Overlaps a

/-- Every access that raises the race count has a cause. -/
def RacesHaveCauses (i : Init) (es : List Event) : Prop :=
  ∀ j t a r s s', es[j]? = some ⟨t, .step (.finish a) r⟩ → processRun i (es.take j) = some s →
    s.step ⟨t, .step (.finish a) r⟩ = some s' → s'.races ≠ s.races → HasCause es j t a

/-- Where no order is lost and no two unordered accesses share a word without a byte in
common, every access that raises the race count has a cause. -/
theorem racesHaveCauses_of_wordsApart (i : Init) (es : List Event) (hkept : KeepsEdges i es)
    (hapart : WordsApart es) : RacesHaveCauses i es := by
  intro j t a r s s' hj hs hstep hraces
  have hsound := racesSound_of_run (EveryStep.take hkept j) hs
  have hst := Process.stepped hstep
  obtain ⟨-, -, -, hhits⟩ := hst.races_cases hraces
  obtain ⟨b, hplace, k, w, r', hk, n, hnk, e, f, he, hf, hconf, hhb⟩ := hsound.hits.hits t hhits
  -- the hit is one of the access that ends
  obtain ⟨rest, htodo⟩ : ∃ rest, (s.threads t).todo = .finish a :: rest :=
    List.head?_eq_some_iff.mp (hst.head_of_step rfl)
  rw [htodo] at hplace
  have hmem := mem_accessRange.mp (hplace.subset (List.mem_cons_self ..))
  obtain rfl : a = b := by simpa using hmem
  have hkj : k < j := by
    have hlt := (List.getElem?_eq_some_iff.mp hk).1
    simp only [List.length_take] at hlt
    omega
  rw [List.getElem?_take_of_lt hkj] at hk hf
  rw [List.getElem?_take_of_lt (hnk.trans hkj)] at he
  obtain rfl : f = ⟨t, .step (.word a w) r'⟩ := Option.some.inj (hf.symm.trans hk)
  have hhb' : ¬ RealHB es n k := by
    have hsplit : es = es.take j ++ es.drop j := (List.take_append_drop j es).symm
    have hlen : k < (es.take j).length := by
      have hlt := (List.getElem?_eq_some_iff.mp hk).1
      simp only [List.length_take]
      omega
    rw [hsplit, RealHB, happensBefore_append_left hlen]
    exact hhb
  obtain ⟨b, a', w', heb, hfa, hne, hwrite⟩ := id hconf
  obtain ⟨rfl, rfl⟩ : a = a' ∧ w = w' := by simpa [Event.word?] using hfa
  have hoverlap := hapart n k e _ b a w hnk he hk hconf heb hfa hhb'
  obtain ⟨u, action⟩ := e
  cases action with
  | step m r'' =>
      cases m with
      | word b' w' =>
          obtain ⟨rfl, rfl⟩ : b' = b ∧ w' = w := by simpa [Event.word?] using heb
          exact ⟨n, k, w', b', u, r', r'', hnk, hkj, he, hk, hne, hwrite, hhb', hoverlap⟩
      | _ => simp [Event.word?] at heb
  | _ => simp [Event.word?] at heb

/-- Accesses of one run that all overlap leave no word to different bytes. -/
theorem wordsApart_of_overlaps {es : List Event}
    (h : ∀ e ∈ es, ∀ f ∈ es, ∀ p ∈ e.word?, ∀ q ∈ f.word?, p.1.Overlaps q.1) : WordsApart es := by
  intro n k e f a b w _ he hf _ hea hfb _
  exact h e (List.mem_of_getElem? he) f (List.mem_of_getElem? hf) (a, w) hea (b, w) hfb

/-- Two threads write the same four bytes, and nothing orders the writes. -/
def sameBytesRun : List Event :=
  wholeCreate 0 1 7 ++ wholeCall 0 (.write 0x1000 4 none 1) ++ wholeCall 1 (.write 0x1000 4 none 2)

/-- Two threads write the two halves of a word. -/
def adjacentRun : List Event :=
  wholeCreate 0 1 7 ++ wholeCall 0 (.write 0x1000 4 none 1) ++ wholeCall 1 (.write 0x1004 4 none 2)

theorem racesHaveCauses_sameBytesRun :
    (processRun .ok sameBytesRun).any (fun s => s.races == 1) = true ∧
      RacesHaveCauses .ok sameBytesRun :=
  ⟨by decide +kernel, racesHaveCauses_of_wordsApart .ok sameBytesRun (by decide +kernel)
    (wordsApart_of_overlaps (by decide +kernel))⟩

/-- The second write is counted as a race, though the threads have no byte in common. -/
theorem adjacent_bytes_counted :
    KeepsEdges .ok adjacentRun ∧ ¬ RacesHaveCauses .ok adjacentRun := by
  refine ⟨by decide +kernel, fun h => ?_⟩
  have hany : (processRun .ok (adjacentRun.take 12)).any (fun s =>
      (s.step ⟨1, .step (.finish ⟨0x1004, 4, true, none, 2⟩) .ok⟩).any fun s' =>
        decide (s'.races ≠ s.races)) = true := by decide +kernel
  obtain ⟨s, hs, hstep⟩ := (Option.any_eq_true ..).mp hany
  obtain ⟨s', hs', hraces⟩ := (Option.any_eq_true ..).mp hstep
  obtain ⟨n, k, w, b, u, r, r', -, -, hn, hk, hne, -, -, hoverlap⟩ :=
    h 12 1 _ _ s s' rfl hs hs' (of_decide_eq_true hraces)
  have hnone : ∀ e ∈ adjacentRun, ∀ f ∈ adjacentRun, ∀ p ∈ e.word?, ∀ q ∈ f.word?,
      e.thread ≠ f.thread → ¬ p.1.Overlaps q.1 := by decide +kernel
  exact hnone _ (List.mem_of_getElem? hn) _ (List.mem_of_getElem? hk) _ rfl _ rfl hne hoverlap

/-! ## Exhausted memory -/

/-- Where no order is lost and no two unordered accesses share a word without a byte in
common, no race is counted if all accesses with a byte in common are ordered. -/
theorem races_zero_of_bytesOrdered {i : Init} {es : List Event} {s : Process}
    (hrun : processRun i es = some s) (hkept : KeepsEdges i es) (hapart : WordsApart es)
    (hordered : BytesOrdered es) : s.races = 0 :=
  races_zero hkept (hapart.ordered hordered) hrun

/-- Thread 0 writes a word under a lock, and then thread 1 does.  In the wrappers of the
first one the array of locks cannot grow if `alloc` is not set. -/
def lockedWrites (alloc : Bool) : List Event :=
  let r : Result := { Result.ok with alloc := alloc }
  wholeCreate 0 1 7 ++
    [⟨0, .call (.pthreadMutexLock 0x500)⟩, ⟨0, .step (.lock 0x500 .exclusive) .ok⟩,
      ⟨0, .step .self .ok⟩, ⟨0, .step (.acquire 0x500) r⟩] ++
    wholeCall 0 (.write 0x1000 4 none 1) ++
    [⟨0, .call (.pthreadMutexUnlock 0x500)⟩, ⟨0, .step .self .ok⟩, ⟨0, .step (.release 0x500) r⟩,
      ⟨0, .step (.unlock 0x500) .ok⟩] ++
    wholeCall 1 (.pthreadMutexLock 0x500) ++ wholeCall 1 (.write 0x1000 4 none 2)

/-- The two writes are ordered by the lock. -/
theorem lockedWrites_ordered (alloc : Bool) : Ordered (lockedWrites alloc) := by
  have hunlock : RealHB (lockedWrites alloc) 11 16 := .of_actor (by decide) rfl rfl rfl
  have hlock : RealHB (lockedWrites alloc) 16 18 :=
    .of_object (by decide) rfl rfl (o := .unlocked 0x500 .exclusive) (by decide) (by decide)
  have hwrite : RealHB (lockedWrites alloc) 18 23 := .of_actor (by decide) rfl rfl rfl
  apply ordered_of_two (i := 11) (j := 23)
  · cases alloc <;> decide +kernel
  · exact (hunlock.trans hlock).trans hwrite

theorem races_zero_lockedWrites :
    ∃ s, processRun .ok (lockedWrites true) = some s ∧ s.races = 0 := by
  have hsome : (processRun .ok (lockedWrites true)).isSome = true := by decide +kernel
  obtain ⟨s, hs⟩ := Option.isSome_iff_exists.mp hsome
  exact ⟨s, hs, races_zero_of_bytesOrdered hs (by decide +kernel)
    (wordsApart_of_overlaps (by decide +kernel)) (lockedWrites_ordered true).bytesOrdered⟩

/-- Without memory for the lock the release is not recorded, and the second write is
counted. -/
theorem exhausted_counts_race : BytesOrdered (lockedWrites false) ∧
    ∃ s, processRun .ok (lockedWrites false) = some s ∧ s.races ≠ 0 := by
  refine ⟨(lockedWrites_ordered false).bytesOrdered, ?_⟩
  have hany : (processRun .ok (lockedWrites false)).any (fun s => decide (s.races ≠ 0)) = true := by
    decide +kernel
  obtain ⟨s, hs, hraces⟩ := (Option.any_eq_true ..).mp hany
  exact ⟨s, hs, of_decide_eq_true hraces⟩

end Redzone.Runtime
