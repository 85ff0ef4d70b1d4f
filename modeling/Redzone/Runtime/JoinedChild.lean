/-
  Runtime/JoinedChild.lean --- which handle a join takes.

  `take_thread` looks a `pthread_t` value up in the registry; that is the joined thread
  only if no other entry has the value.  Values are handed out again once their thread
  has been joined or was detached and has exited, and an entry is removed by a join
  alone, after the real join has returned.  So a join may find the entry of another
  thread, or none.

  `Process.Unambiguous` is what keeps the lookup right: the entries, and the entries that
  are still to be made, have distinct values.  It holds as long as no value is handed
  out that one of them has (`ValueFresh`).  `Process.Custody` says that then a thread's
  handle is in the hands of the one thread that has joined it.
-/
import Redzone.Runtime.Threads

set_option autoImplicit false

namespace Redzone.Runtime

open Redzone.Foundation
open Redzone.Race

/-! ## Conditions -/

/-- The value that a step is about to register. -/
def Micro.registers : Micro → Option ℕ
  | .register thr _ => some thr
  | _ => none

/-- No entry of the registry has the value, and none that is still to be made. -/
def Process.ValueFresh (s : Process) (v : ℕ) : Prop :=
  (∀ slot ∈ s.registry, slot.used = true → slot.thr ≠ v) ∧
    ∀ t ∈ s.names, (s.head t).bind Micro.registers ≠ some v

instance (s : Process) (v : ℕ) : Decidable (s.ValueFresh v) := inferInstanceAs (Decidable (_ ∧ _))

/-- Thread `c` has an entry in the registry. -/
def Process.Registered (s : Process) (c : ℕ) : Prop :=
  ∃ slot ∈ s.registry, slot.used = true ∧ slot.self = c

instance (s : Process) (c : ℕ) : Decidable (s.Registered c) :=
  inferInstanceAs (Decidable (∃ slot ∈ s.registry, _))

/-- The value of a new thread is in no entry, made or still to be made, and a thread that
has been joined has its entry when the join looks for it. -/
def Process.JoinTracked (s : Process) (_ : ℕ) (r : Result) : Micro → Prop
  | .create _ => r.rc = 0 → s.ValueFresh r.value
  | .takeThread _ joined => s.Registered joined
  | _ => True

instance (s : Process) (t : ℕ) (r : Result) : (m : Micro) → Decidable (s.JoinTracked t r m)
  | .create _ => inferInstanceAs (Decidable (r.rc = 0 → s.ValueFresh r.value))
  | .takeThread _ joined => inferInstanceAs (Decidable (s.Registered joined))
  | .self | .acquire _ | .release _ | .lock _ _ | .trylock _ _ | .unlock _ | .waitUnlock _
  | .waitLock _ | .atomicOp _ _ | .recordCreate | .createUntracked | .register _ _ | .join _
  | .freeHandle _ | .word _ _ | .finish _ => .isTrue trivial

/-- The first entry for the value that is joined is the joined thread's own. -/
def Process.TakesJoined (s : Process) (_ : ℕ) (_ : Result) : Micro → Prop
  | .takeThread thr joined => FirstEntry s.registry thr joined
  | _ => True

/-! ## Unambiguous entries -/

/-- The entries of the registry, and those still to be made, have distinct values. -/
structure Process.Unambiguous (s : Process) : Prop where
  distinct : DistinctValues s.registry
  pending : ∀ t v c, s.head t = some (.register v c) →
    ∀ slot ∈ s.registry, slot.used = true → slot.thr ≠ v
  pending_unique : ∀ t u v c d, s.head t = some (.register v c) →
    s.head u = some (.register v d) → t = u
  taking : ∀ t v c, s.head t = some (.takeThread v c) → c ∈ s.names ∧ (s.threads c).value = v

section Unambiguous

variable {s s₁ s' : Process} {e : Event} {t u c v : ℕ} {m : Micro} {r : Result}

/-- An entry that comes to be registered has a value that was fresh. -/
theorem Stepped.registering_self (h : Stepped s e s') (hwf : s.WF)
    (hcond : e.OnStep s.JoinTracked) (hhead : s'.head e.thread = some (.register v c)) :
    s.ValueFresh v ∧ s'.registry = s.registry := by
  obtain ⟨m, r, s₁, todo, haction, -, heff, rfl, hcases⟩ := h.head_dynamic hwf hhead rfl
  rcases hcases with ⟨-, hm⟩ | ⟨c', rfl, hrc, hm⟩ | ⟨thr, -, -, hm⟩ | ⟨thr, joined, c', -, -, hm⟩
  · cases halloc : r.alloc <;> simp [halloc] at hm
  · obtain ⟨rfl, rfl⟩ := Micro.register.inj hm
    obtain ⟨t, action⟩ := e
    obtain rfl := haction
    refine ⟨hcond hrc, ?_⟩
    rcases effected_registry heff with heq | ⟨thr, c', hm', -⟩ | ⟨thr, joined, hm', -⟩
    · exact heq
    · simp at hm'
    · simp at hm'
  · simp at hm
  · simp at hm

/-- Entries of the registry differ from those that are still to be made. -/
theorem Process.Unambiguous.pending_step {slot : ThrEnt} (h : s.Unambiguous) (hwf : s.WF)
    (hcond : e.OnStep s.JoinTracked) (hst : Stepped s e s')
    (hhead : s'.head t = some (.register v c)) (hslot : slot ∈ s'.registry)
    (hused : slot.used = true) : slot.thr ≠ v := by
  by_cases ht : t = e.thread
  · subst ht
    obtain ⟨hfresh, heq⟩ := hst.registering_self hwf hcond hhead
    exact hfresh.1 slot (heq ▸ hslot) hused
  · rw [hst.head_other hwf ht] at hhead
    rcases hst.registry_cases with heq | ⟨thr, d, r, haction, heq⟩ | ⟨thr, joined, r, -, heq⟩
    · exact h.pending t v c hhead slot (heq ▸ hslot) hused
    · rw [heq] at hslot
      rcases mem_regThread hslot hused with rfl | hmem
      · rintro rfl
        exact ht (h.pending_unique t e.thread _ c d hhead (hst.head_of_step haction))
      · exact h.pending t v c hhead slot hmem hused
    · rw [heq] at hslot
      exact h.pending t v c hhead slot (mem_takeThread hslot hused) hused

/-- The acting thread is about to register a value that no other thread is about to. -/
theorem Stepped.registering_unique_self {d : ℕ} (hst : Stepped s e s') (hwf : s.WF)
    (hcond : e.OnStep s.JoinTracked) (ht : s'.head e.thread = some (.register v c))
    (hu : s'.head u = some (.register v d)) : e.thread = u := by
  by_contra hne
  rw [hst.head_other hwf (Ne.symm hne)] at hu
  have hmem : u ∈ s.names := by
    by_contra hnot
    simp [Process.head, hwf.unborn u hnot, Thread.unborn] at hu
  exact (hst.registering_self hwf hcond ht).1.2 u hmem (by simp [hu, Micro.registers])

theorem Process.Unambiguous.pending_unique_step {d : ℕ} (h : s.Unambiguous) (hwf : s.WF)
    (hcond : e.OnStep s.JoinTracked) (hst : Stepped s e s')
    (ht : s'.head t = some (.register v c)) (hu : s'.head u = some (.register v d)) : t = u := by
  refine unique_of_acting (P := fun t => ∃ c, s.head t = some (.register v c))
    (Q := fun t => ∃ c, s'.head t = some (.register v c)) (a := e.thread) ?_ ?_ ?_ ⟨c, ht⟩ ⟨d, hu⟩
  · rintro u hne ⟨d, hu⟩
    exact ⟨d, (hst.head_other hwf hne).symm.trans hu⟩
  · rintro u ⟨c, ht⟩ ⟨d, hu⟩
    exact hst.registering_unique_self hwf hcond ht hu
  · rintro t u ⟨c, ht⟩ ⟨d, hu⟩
    exact h.pending_unique t u v c d ht hu

/-- A thread is about to take what it has joined. -/
theorem Process.Unambiguous.taking_step (h : s.Unambiguous) (hwf : s.WF) (hst : Stepped s e s')
    (hhead : s'.head t = some (.takeThread v c)) : c ∈ s'.names ∧ (s'.threads c).value = v := by
  by_cases ht : t = e.thread
  · subst ht
    obtain ⟨m, r, s₁, todo, -, -, heff, -, hcases⟩ := hst.head_dynamic hwf hhead rfl
    rcases hcases with ⟨-, hm⟩ | ⟨c', -, -, hm⟩ | ⟨thr, rfl, hrc, hm⟩ | ⟨thr, joined, c', -, -, hm⟩
    · cases halloc : r.alloc <;> simp [halloc] at hm
    · simp at hm
    · obtain ⟨rfl, rfl⟩ := Micro.takeThread.inj hm
      cases heff with
      | quiet hquiet => simp [Micro.quiet, hrc] at hquiet
      | skipped hneeds => simp [Micro.needsHandle] at hneeds
      | join _ hjoin _ => exact hst.value_kept ⟨hjoin.1, hjoin.2.1⟩
    · simp at hm
  · rw [hst.head_other hwf ht] at hhead
    exact hst.value_kept (h.taking t v c hhead)

theorem Process.Unambiguous.step (h : s.Unambiguous) (hwf : s.WF)
    (hcond : e.OnStep s.JoinTracked) (hst : Stepped s e s') : s'.Unambiguous where
  distinct := by
    rcases hst.registry_cases with heq | ⟨thr, c, r, haction, heq⟩ | ⟨thr, joined, r, -, heq⟩
    · exact heq ▸ h.distinct
    · rw [heq]
      exact h.distinct.regThread (h.pending _ _ _ (hst.head_of_step haction))
    · rw [heq]
      exact h.distinct.takeThread
  pending _ _ _ hhead _ hslot hused := h.pending_step hwf hcond hst hhead hslot hused
  pending_unique _ _ _ _ _ ht hu := h.pending_unique_step hwf hcond hst ht hu
  taking _ _ _ hhead := h.taking_step hwf hst hhead

/-- Where entries are unambiguous, a join finds the joined thread. -/
theorem Process.Unambiguous.takesJoined (h : s.Unambiguous) (hwf : s.WF)
    (hhead : s.head t = some m) (hcond : s.JoinTracked t r m) : s.TakesJoined t r m := by
  cases m with
  | takeThread v c =>
      obtain ⟨slot, hslot, hused, rfl⟩ := hcond
      have hvalue := (hwf.registry slot hslot hused).2
      obtain ⟨-, hv⟩ := h.taking t v slot.self hhead
      have hfirst := h.distinct.firstEntry hslot hused
      rw [← hvalue, hv] at hfirst
      exact hfirst
  | _ => trivial

end Unambiguous

/-! ## Custody -/

/-- Thread `t` has joined `c` and deals with its handle. -/
def Process.Custodian (s : Process) (t c : ℕ) : Prop := (s.head t).bind Micro.custody = some c

/-- The handle of a thread that has been joined is in the hands of the one thread that
has joined it, until it is freed. -/
structure Process.Custody (s : Process) : Prop where
  joined : ∀ t c, s.Custodian t c → (s.threads c).joined = true
  unique : ∀ t u c, s.Custodian t c → s.Custodian u c → t = u
  freed : ∀ c, s.handles c = .freed → (s.threads c).joined = true ∧ ∀ t, ¬ s.Custodian t c

section Custody

variable {s s₁ s' : Process} {e : Event} {t u c v : ℕ} {m : Micro} {r : Result}

/-- How a thread comes to have a handle in its hands: it has just joined the thread, or
it had the handle before. -/
theorem Stepped.custodian_self (h : Stepped s e s') (hwf : s.WF) (hcond : e.OnStep s.TakesJoined)
    (hcust : s'.Custodian e.thread c) :
    ((s.threads c).joined = false ∧ (s'.threads c).joined = true) ∨
      s.Custodian e.thread c := by
  obtain ⟨m', hhead, hcustody⟩ := Option.bind_eq_some_iff.mp hcust
  have hdyn : m'.static = false := by
    cases m' <;> simp [Micro.custody] at hcustody <;> rfl
  obtain ⟨m, r, s₁, todo, haction, hold, heff, rfl, hcases⟩ := h.head_dynamic hwf hhead hdyn
  rcases hcases with ⟨-, rfl⟩ | ⟨c', -, -, rfl⟩ | ⟨thr, rfl, hrc, rfl⟩ |
    ⟨thr, joined, c', rfl, htake, rfl⟩
  · cases halloc : r.alloc <;> simp [halloc, Micro.custody] at hcustody
  · simp [Micro.custody] at hcustody
  · obtain rfl := Option.some.inj hcustody
    left
    cases heff with
    | quiet hquiet => simp [Micro.quiet, hrc] at hquiet
    | skipped hneeds => simp [Micro.needsHandle] at hneeds
    | join _ hjoin hexit =>
        have hne : r.child ≠ e.thread := by
          intro heq
          rw [heq, h.running] at hexit
          simp at hexit
        refine ⟨hjoin.2.2.1, ?_⟩
        rw [setTodo_of_ne hne]
        simp
  · -- the handle that is taken is that of the joined thread
    obtain rfl := Option.some.inj hcustody
    obtain ⟨t, action⟩ := e
    obtain rfl := haction
    obtain rfl : joined = c' :=
      Option.some.inj ((takeThread_of_firstEntry hcond).symm.trans htake)
    right
    rw [Process.Custodian, hold]
    rfl

theorem Stepped.custodian_other (h : Stepped s e s') (hwf : s.WF) (hu : u ≠ e.thread) :
    s'.Custodian u c ↔ s.Custodian u c := by
  rw [Process.Custodian, Process.Custodian, h.head_other hwf hu]

/-- A running thread has not been joined, so nobody has freed its handle. -/
theorem Process.Custody.running_handle (h : s.Custody) (hwf : s.WF)
    (hrun : (s.threads t).phase = .running) : s.handles t ≠ .freed := by
  intro hfreed
  have hexit := hwf.joined t (h.freed t hfreed).1
  simp [hrun] at hexit

theorem Process.Custody.joined_step (h : s.Custody) (hwf : s.WF)
    (hcond : e.OnStep s.TakesJoined) (hst : Stepped s e s') (hcust : s'.Custodian t c) :
    (s'.threads c).joined = true := by
  by_cases ht : t = e.thread
  · subst ht
    rcases hst.custodian_self hwf hcond hcust with ⟨-, hj⟩ | hold
    · exact hj
    · exact hst.joined_mono hwf (h.joined _ c hold)
  · rw [hst.custodian_other hwf ht] at hcust
    exact hst.joined_mono hwf (h.joined t c hcust)

theorem Process.Custody.unique_step (h : s.Custody) (hwf : s.WF)
    (hcond : e.OnStep s.TakesJoined) (hst : Stepped s e s') (ht : s'.Custodian t c)
    (hu : s'.Custodian u c) : t = u := by
  refine unique_of_acting (P := fun t => s.Custodian t c) (Q := fun t => s'.Custodian t c)
    (fun u hne => (hst.custodian_other hwf hne).mp) (fun u ht hu => ?_)
    (fun t u => h.unique t u c) ht hu
  by_contra hne
  rw [hst.custodian_other hwf (Ne.symm hne)] at hu
  rcases hst.custodian_self hwf hcond ht with ⟨hnot, -⟩ | hold
  · simp [h.joined u c hu] at hnot
  · exact hne (h.unique _ _ c hold hu)

/-- A handle that has been freed stays in nobody's hands. -/
theorem Process.Custody.still_freed (h : s.Custody) (hwf : s.WF)
    (hcond : e.OnStep s.TakesJoined) (hst : Stepped s e s') (hfreed : s.handles c = .freed) :
    (s'.threads c).joined = true ∧ ∀ t, ¬ s'.Custodian t c := by
  obtain ⟨hj, hno⟩ := h.freed c hfreed
  refine ⟨hst.joined_mono hwf hj, fun t hcust => ?_⟩
  by_cases ht : t = e.thread
  · subst ht
    rcases hst.custodian_self hwf hcond hcust with ⟨hnot, -⟩ | hbefore
    · simp [hj] at hnot
    · exact hno _ hbefore
  · exact hno t ((hst.custodian_other hwf ht).mp hcust)

/-- A handle that is being freed leaves the hands of its custodian. -/
theorem Process.Custody.newly_freed (h : s.Custody) (hwf : s.WF) (hst : Stepped s e s')
    (haction : e.action = .step (.freeHandle c) r) :
    (s'.threads c).joined = true ∧ ∀ t, ¬ s'.Custodian t c := by
  have hcust : s.Custodian e.thread c := by
    rw [Process.Custodian, hst.head_of_step haction]
    rfl
  refine ⟨hst.joined_mono hwf (h.joined _ c hcust), fun t hcust' => ?_⟩
  by_cases ht : t = e.thread
  · subst ht
    obtain ⟨m', hhead, hcustody⟩ := Option.bind_eq_some_iff.mp hcust'
    have hdyn : m'.static = false := by
      cases m' <;> simp [Micro.custody] at hcustody <;> rfl
    obtain ⟨m, r', s₁, todo, haction', -, -, -, hcases⟩ := hst.head_dynamic hwf hhead hdyn
    obtain ⟨rfl, rfl⟩ := Action.step.inj (haction.symm.trans haction')
    simp at hcases
  · exact ht (h.unique t e.thread c ((hst.custodian_other hwf ht).mp hcust') hcust)

/-- The acting thread loses its own handle only by freeing it. -/
theorem Stepped.freed_self (h : Stepped s e s') (hfreed : s'.handles e.thread = .freed) :
    s.handles e.thread = .freed ∨ ∃ r, e.action = .step (.freeHandle e.thread) r := by
  cases h with
  | @micro t m r rest s₁ hrun htodo heff =>
      rcases effected_handles_self heff hfreed with hf | rfl
      · exact Or.inl hf
      · exact Or.inr ⟨r, rfl⟩
  | _ => exact Or.inl hfreed

theorem Process.Custody.freed_step (h : s.Custody) (hwf : s.WF) (hcond : e.OnStep s.TakesJoined)
    (hst : Stepped s e s') (hfreed : s'.handles c = .freed) :
    (s'.threads c).joined = true ∧ ∀ t, ¬ s'.Custodian t c := by
  by_cases hc : c = e.thread
  · subst hc
    rcases hst.freed_self hfreed with hold | ⟨r, haction⟩
    · exact h.still_freed hwf hcond hst hold
    · exact h.newly_freed hwf hst haction
  · rcases hst.handles_other hc with hsame | ⟨r, -, -, -, -, th, hlive⟩ | ⟨r, -, habsent⟩ |
      ⟨r, haction, -⟩
    · exact h.still_freed hwf hcond hst (hsame ▸ hfreed)
    · simp [hlive] at hfreed
    · simp [habsent] at hfreed
    · exact h.newly_freed hwf hst haction

theorem Process.Custody.step (h : s.Custody) (hwf : s.WF) (hcond : e.OnStep s.TakesJoined)
    (hst : Stepped s e s') : s'.Custody where
  joined _ _ hcust := h.joined_step hwf hcond hst hcust
  unique _ _ _ ht hu := h.unique_step hwf hcond hst ht hu
  freed _ hfreed := h.freed_step hwf hcond hst hfreed

theorem unambiguous_initial (i : Init) : (Process.initial i).Unambiguous := by
  have hhead : ∀ t, (Process.initial i).head t = none := initial_head i
  refine ⟨List.Pairwise.nil, ?_, ?_, ?_⟩
  · intro t v c h
    simp [hhead] at h
  · intro t u v c d h
    simp [hhead] at h
  · intro t v c h
    simp [hhead] at h

theorem custody_initial (i : Init) : (Process.initial i).Custody := by
  have hno : ∀ t c, ¬ (Process.initial i).Custodian t c := by
    intro t c
    simp [Process.Custodian, initial_head i t]
  refine ⟨fun t c h => absurd h (hno t c), fun t u c h => absurd h (hno t c), fun c h => ?_⟩
  simp only [Process.initial] at h
  split at h <;> simp at h

end Custody

/-- The state of the registry and the handles behind every join that finds its thread. -/
structure Process.JoinInv (s : Process) : Prop where
  wf : s.WF
  unambiguous : s.Unambiguous
  custody : s.Custody

theorem joinInv_initial (i : Init) : (Process.initial i).JoinInv :=
  ⟨wf_initial i, unambiguous_initial i, custody_initial i⟩

section JoinInv

variable {s s' : Process} {e : Event}

theorem Process.JoinInv.takesJoined (h : s.JoinInv) (hcond : e.OnStep s.JoinTracked)
    (hst : Stepped s e s') : e.OnStep s.TakesJoined := by
  cases hst with
  | @micro t m r rest s₁ hrun htodo heff =>
      have hhead : s.head t = some m := by rw [Process.head, htodo, List.head?_cons]
      exact h.unambiguous.takesJoined h.wf hhead hcond
  | _ => trivial

theorem Process.JoinInv.step (h : s.JoinInv) (hcond : e.OnStep s.JoinTracked)
    (hst : Stepped s e s') : s'.JoinInv :=
  ⟨h.wf.step hst, h.unambiguous.step h.wf hcond hst,
    h.custody.step h.wf (h.takesJoined hcond hst) hst⟩

end JoinInv

/-! ## Joins take the right child -/

/-- What is expected of one step from `s` to `s'`.  A join imports the clock of the thread
that has really been joined, which has ended, and keeps its handle for freeing; the
handle that is freed is that of a thread that has ended. -/
def JoinsRight (s s' : Process) (t : ℕ) (_ : Result) : Micro → Prop
  | .takeThread _ joined =>
    (s.threads joined).phase = .exited ∧ ∃ parent child, s.handles t = .live parent ∧
      s.handles joined = .live child ∧ s'.handles t = .live (rzThreadJoin parent child) ∧
      s'.head t = some (.freeHandle joined)
  | .freeHandle c => (s.threads c).phase = .exited
  | _ => True

theorem Process.JoinInv.joinsRight {s s' : Process} {e : Event} (h : s.JoinInv)
    (hcond : e.OnStep s.JoinTracked) (hst : Stepped s e s') : e.OnStep (JoinsRight s s') := by
  have htakes := h.takesJoined hcond hst
  cases hst with
  | @micro t m r rest s₁ hrun htodo heff =>
      have hcust : ∀ c, m.custody = some c → (s.threads c).phase = .exited := by
        intro c hc
        refine h.wf.joined c (h.custody.joined t c ?_)
        rw [Process.Custodian, Process.head, htodo, List.head?_cons]
        exact hc
      cases m with
      | takeThread thr joined =>
          have hfirst := takeThread_of_firstEntry htakes
          refine ⟨hcust joined rfl, ?_⟩
          cases heff with
          | quiet hquiet => simp [Micro.quiet] at hquiet
          | skipped hneeds => simp [Micro.needsHandle] at hneeds
          | takeNone hnone => simp [hfirst] at hnone
          | @take _ _ c parent child hsome ht hc =>
              obtain rfl := Option.some.inj (hfirst.symm.trans hsome)
              refine ⟨parent, child, ht, hc, by simp, ?_⟩
              simp [Process.head, Process.next, hfirst]
      | freeHandle c => exact hcust c rfl
      | _ => trivial
  | _ => trivial

/-- In every run in which no `pthread_t` value is handed out that an entry of the
registry has, made or still to be made, and in which every joined thread has its entry
when the join looks for it, every join takes the thread that it has joined. -/
theorem joinsRight_of_joinTracked (i : Init) (es : List Event)
    (hcond : EveryStep Process.step (fun s e => e.OnStep s.JoinTracked) (.initial i) es) :
    EveryStep Process.step (fun s e => ∀ s' ∈ s.step e, e.OnStep (JoinsRight s s'))
      (.initial i) es := by
  refine hcond.of_invariant (I := Process.JoinInv) (joinInv_initial i) ?_ ?_
  · exact fun s e s' hinv hc hstep => hinv.step hc (Process.stepped hstep)
  · exact fun s e hinv hc s' hstep => hinv.joinsRight hc (Process.stepped hstep)

/-- The theorem at a run with one thread that is created, exits and is joined. -/
theorem joinsRight_createJoin :
    EveryStep Process.step (fun s e => e.OnStep s.JoinTracked) (.initial .ok)
      (wholeCreate 0 1 7 ++ ⟨1, .exit⟩ :: wholeJoin 0 7 1) ∧
    EveryStep Process.step (fun s e => ∀ s' ∈ s.step e, e.OnStep (JoinsRight s s')) (.initial .ok)
      (wholeCreate 0 1 7 ++ ⟨1, .exit⟩ :: wholeJoin 0 7 1) :=
  ⟨by decide +kernel, joinsRight_of_joinTracked _ _ (by decide +kernel)⟩

/-! ## Reused values -/

/-- Thread 1 is detached and exits; its value 7 is handed out again, to thread 2, which
thread 0 joins. -/
def reuseAfterDetach : List Event :=
  wholeCreate 0 1 7 ++ ⟨0, .detach 7 1⟩ :: ⟨1, .exit⟩ :: wholeCreate 0 2 7 ++
    ⟨2, .exit⟩ :: realJoin 0 7 2

/-- Thread 0 has joined thread 2, of value 7.  Before it looks for its entry, thread 3
creates a thread 4, which is given the value again and the slot that thread 1 had. -/
def reuseAfterJoin : List Event :=
  wholeCreate 0 3 9 ++ wholeCreate 0 1 5 ++ wholeCreate 0 2 7 ++ ⟨1, .exit⟩ :: wholeJoin 0 5 1 ++
    ⟨2, .exit⟩ :: realJoin 0 7 2 ++ wholeCreate 3 4 7 ++
    [⟨0, .step (.takeThread 7 2) .ok⟩, ⟨0, .step (.freeHandle 4) .ok⟩]

/-- A join takes the stale entry of a detached thread instead of that of the thread that
has been joined; and a join that is overtaken by a create frees the handle of the
running thread. -/
theorem join_takes_other :
    (∃ s s', processRun .ok reuseAfterDetach = some s ∧
      s.step ⟨0, .step (.takeThread 7 2) .ok⟩ = some s' ∧
      s'.head 0 = some (.freeHandle 1) ∧ ¬ JoinsRight s s' 0 .ok (.takeThread 7 2)) ∧
    ∃ s, processRun .ok reuseAfterJoin = some s ∧ (s.threads 4).phase = .running ∧
      s.handles 4 = .freed := by
  constructor
  · have hany : (processRun .ok reuseAfterDetach).any (fun s =>
        (s.step ⟨0, .step (.takeThread 7 2) .ok⟩).any fun s' =>
          decide (s'.head 0 = some (.freeHandle 1))) = true := by decide +kernel
    obtain ⟨s, hs, hstep⟩ := (Option.any_eq_true ..).mp hany
    obtain ⟨s', hs', hhead⟩ := (Option.any_eq_true ..).mp hstep
    have hhead := of_decide_eq_true hhead
    refine ⟨s, s', hs, hs', hhead, ?_⟩
    rintro ⟨-, parent, child, -, -, -, hhead'⟩
    simp [hhead] at hhead'
  · have hany : (processRun .ok reuseAfterJoin).any (fun s =>
        decide ((s.threads 4).phase = .running) && match s.handles 4 with
          | .freed => true
          | _ => false) = true := by decide +kernel
    obtain ⟨s, hs, hbad⟩ := (Option.any_eq_true ..).mp hany
    rw [Bool.and_eq_true] at hbad
    refine ⟨s, hs, of_decide_eq_true hbad.1, ?_⟩
    cases hh : s.handles 4 with
    | freed => rfl
    | absent => simp [hh] at hbad
    | live th => simp [hh] at hbad

end Redzone.Runtime
