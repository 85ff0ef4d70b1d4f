/-
  Foundation/Transition.lean --- guarded step functions and their finite runs.

  A system is a function `step : σ → ε → Option σ`: `step s e` is the state after
  event `e`, or `none` where the event is not possible in `s`.  One definition is
  replayed on concrete traces, inverted in proofs, and folded over whole runs.

  The file has the two induction rules everything else rests on: an invariant of
  the states (`run_invariant`) and an invariant of the state together with the
  events that led to it (`run_induction`), the latter for runs whose steps all
  meet a side condition (`EveryStep`).
-/
import Mathlib.Data.List.Induction

set_option autoImplicit false

namespace Redzone.Foundation

variable {σ ε : Type}

/-- Perform `events` from `s`; `none` if one of them is not possible. -/
def run (step : σ → ε → Option σ) (s : σ) (events : List ε) : Option σ :=
  events.foldlM step s

section Run

variable {step : σ → ε → Option σ} {s s' : σ} {e : ε} {es fs : List ε}

@[simp] theorem run_nil : run step s [] = some s := rfl

@[simp] theorem run_cons :
    run step s (e :: es) = (step s e).bind fun m => run step m es := rfl

/-- A run splits at every cut point of its events. -/
theorem run_append :
    run step s (es ++ fs) = (run step s es).bind fun m => run step m fs := by
  simp [run, List.foldlM_append]

theorem run_append_eq_some :
    run step s (es ++ fs) = some s' ↔
      ∃ m, run step s es = some m ∧ run step m fs = some s' := by
  rw [run_append, Option.bind_eq_some_iff]

theorem run_snoc_eq_some :
    run step s (es ++ [e]) = some s' ↔
      ∃ m, run step s es = some m ∧ step m e = some s' := by
  rw [run_append_eq_some]
  simp [run]

/-- Every prefix of a possible run is possible. -/
theorem run_take (h : run step s es = some s') (n : ℕ) :
    ∃ m, run step s (es.take n) = some m := by
  rw [← List.take_append_drop n es, run_append_eq_some] at h
  obtain ⟨m, hm, -⟩ := h
  exact ⟨m, hm⟩

/-- The step that event `n` of a possible run takes. -/
theorem run_step_at (h : run step s es = some s') {n : ℕ} (he : es[n]? = some e) :
    ∃ m m', run step s (es.take n) = some m ∧ step m e = some m' ∧
      run step s (es.take (n + 1)) = some m' := by
  obtain ⟨m', hm'⟩ := run_take h (n + 1)
  have hsplit : es.take (n + 1) = es.take n ++ [e] := by
    rw [List.take_add_one, he]
    rfl
  obtain ⟨m, hm, hstep⟩ := run_snoc_eq_some.mp (hsplit ▸ hm')
  exact ⟨m, m', hm, hstep, hm'⟩

/-- A property of states that every step keeps holds after every run. -/
theorem run_invariant {I : σ → Prop} (h₀ : I s)
    (hstep : ∀ m e m', I m → step m e = some m' → I m') :
    ∀ es, ∀ {s'}, run step s es = some s' → I s' := by
  intro es
  induction es using List.reverseRecOn with
  | nil =>
    intro s' h
    obtain rfl : s = s' := by simpa using h
    exact h₀
  | append_singleton es e ih =>
    intro s' h
    obtain ⟨m, hm, hme⟩ := run_snoc_eq_some.mp h
    exact hstep m e s' (ih hm) hme

end Run

/-! ## Side conditions on the steps of a run -/

/-- `Q` holds of every step of the run: of the state before it and its event. -/
def EveryStep (step : σ → ε → Option σ) (Q : σ → ε → Prop) : σ → List ε → Prop
  | _, [] => True
  | s, e :: es => Q s e ∧ ∀ m ∈ step s e, EveryStep step Q m es

instance decidableEveryStep (step : σ → ε → Option σ) (Q : σ → ε → Prop)
    [∀ s e, Decidable (Q s e)] : ∀ s es, Decidable (EveryStep step Q s es)
  | _, [] => inferInstanceAs (Decidable True)
  | s, e :: es =>
    have : ∀ m, Decidable (EveryStep step Q m es) :=
      fun m => decidableEveryStep step Q m es
    inferInstanceAs (Decidable (Q s e ∧ ∀ m ∈ step s e, EveryStep step Q m es))

section EveryStep

variable {step : σ → ε → Option σ} {Q R : σ → ε → Prop} {s s' : σ} {e : ε} {es fs : List ε}

theorem everyStep_append :
    EveryStep step Q s (es ++ fs) ↔
      EveryStep step Q s es ∧ ∀ m, run step s es = some m → EveryStep step Q m fs := by
  induction es generalizing s with
  | nil => simp [EveryStep]
  | cons e es ih =>
    simp only [List.cons_append, EveryStep, ih, run_cons]
    cases hstep : step s e with
    | none => simp
    | some m => simp [and_assoc]

theorem everyStep_snoc :
    EveryStep step Q s (es ++ [e]) ↔
      EveryStep step Q s es ∧ ∀ m, run step s es = some m → Q m e := by
  rw [everyStep_append]
  simp [EveryStep]

theorem EveryStep.mono (h : EveryStep step Q s es) (hQR : ∀ m e, Q m e → R m e) :
    EveryStep step R s es := by
  induction es generalizing s with
  | nil => trivial
  | cons e es ih => exact ⟨hQR _ _ h.1, fun m hm => ih (h.2 m hm)⟩

theorem EveryStep.and (hQ : EveryStep step Q s es) (hR : EveryStep step R s es) :
    EveryStep step (fun m e => Q m e ∧ R m e) s es := by
  induction es generalizing s with
  | nil => trivial
  | cons e es ih => exact ⟨⟨hQ.1, hR.1⟩, fun m hm => ih (hQ.2 m hm) (hR.2 m hm)⟩

/-- A side condition that follows from another one and an invariant. -/
theorem EveryStep.of_invariant {I : σ → Prop} (h : EveryStep step Q s es) (h₀ : I s)
    (hstep : ∀ m e m', I m → Q m e → step m e = some m' → I m')
    (hQR : ∀ m e, I m → Q m e → R m e) : EveryStep step R s es := by
  induction es generalizing s with
  | nil => trivial
  | cons e es ih =>
    exact ⟨hQR s e h₀ h.1, fun m hm => ih (h.2 m hm) (hstep s e m h₀ h.1 hm)⟩

/-- The same for the steps of a possible run. -/
theorem EveryStep.of_run {I : σ → Prop} (h : EveryStep step Q s es) (h₀ : I s)
    (hrun : run step s es = some s')
    (hstep : ∀ m e m', I m → Q m e → step m e = some m' → I m' ∧ R m e) :
    EveryStep step R s es := by
  induction es generalizing s with
  | nil => trivial
  | cons e es ih =>
    rw [run_cons] at hrun
    obtain ⟨m, hm, hrest⟩ := Option.bind_eq_some_iff.mp hrun
    refine ⟨(hstep s e m h₀ h.1 hm).2, fun m' hm' => ?_⟩
    obtain rfl : m = m' := Option.some.inj (hm.symm.trans hm')
    exact ih (h.2 m hm) (hstep s e m h₀ h.1 hm).1 hrest

/-- A side condition that the events meet in every state. -/
theorem everyStep_of_forall (h : ∀ e ∈ es, ∀ m, Q m e) : EveryStep step Q s es := by
  induction es generalizing s with
  | nil => trivial
  | cons e es ih =>
    exact ⟨h e (by simp) s, fun m _ => ih fun f hf => h f (List.mem_cons_of_mem e hf)⟩

theorem EveryStep.take (h : EveryStep step Q s es) (n : ℕ) :
    EveryStep step Q s (es.take n) := by
  rw [← List.take_append_drop n es] at h
  exact (everyStep_append.mp h).1

/-- The side condition at one step of the run. -/
theorem EveryStep.at (h : EveryStep step Q s es) {n : ℕ} (he : es[n]? = some e) {m : σ}
    (hm : run step s (es.take n) = some m) : Q m e := by
  have hlt : n < es.length := (List.getElem?_eq_some_iff.mp he).1
  have hsplit : es = (es.take n ++ [e]) ++ es.drop (n + 1) := by
    conv_lhs => rw [← List.take_append_drop (n + 1) es, List.take_add_one, he]
    rfl
  rw [hsplit] at h
  exact (everyStep_snoc.mp (everyStep_append.mp h).1).2 m hm

/-- Induction over runs, one event at a time at the end, for a property of the
events performed and the state they lead to. -/
theorem run_induction {P : List ε → σ → Prop} (h₀ : P [] s)
    (hstep : ∀ es e m m', run step s es = some m → Q m e → P es m →
      step m e = some m' → P (es ++ [e]) m') :
    ∀ es, EveryStep step Q s es → ∀ {s'}, run step s es = some s' → P es s' := by
  intro es
  induction es using List.reverseRecOn with
  | nil =>
    intro _ s' h
    obtain rfl : s = s' := by simpa using h
    exact h₀
  | append_singleton es e ih =>
    intro hQ s' h
    obtain ⟨m, hm, hme⟩ := run_snoc_eq_some.mp h
    obtain ⟨hes, he⟩ := everyStep_snoc.mp hQ
    exact hstep es e m s' hm (he m hm) (ih hes hm) hme

end EveryStep

/-! ## Monitors -/

/-- A monitor stops the run at the first event that it flags: the number of events before
it. -/
def firstFlag (step : σ → ε → Option σ) (flag : σ → ε → Bool) : σ → List ε → Option ℕ
  | _, [] => none
  | s, e :: es =>
    if flag s e then some 0
    else
      match step s e with
      | none => none
      | some m => (firstFlag step flag m es).map (· + 1)

/-- The system with a monitor: a flagged event is not possible. -/
def monitored (step : σ → ε → Option σ) (flag : σ → ε → Bool) (s : σ) (e : ε) : Option σ :=
  if flag s e then none else step s e

section Monitor

variable {step : σ → ε → Option σ} {flag flag' : σ → ε → Bool} {s s' : σ} {e : ε} {es : List ε}

theorem monitored_eq_some :
    monitored step flag s e = some s' ↔ flag s e = false ∧ step s e = some s' := by
  unfold monitored
  cases flag s e with
  | true => simp
  | false => simp

/-- A monitor that flags less misses nothing exactly if it flags what the other one flags
first. -/
theorem firstFlag_le_iff (hsub : ∀ s e, flag' s e = true → flag s e = true) :
    (∀ k, firstFlag step flag s es = some k → ∃ j ≤ k, firstFlag step flag' s es = some j) ↔
      EveryStep (monitored step flag) (fun s e => flag s e = true → flag' s e = true) s es := by
  induction es generalizing s with
  | nil => simp [firstFlag, EveryStep]
  | cons e es ih =>
    simp only [EveryStep]
    cases hflag : flag s e with
    | true =>
      have hstop : monitored step flag s e = none := by simp [monitored, hflag]
      rw [hstop]
      cases hflag' : flag' s e with
      | true => simp [firstFlag, hflag, hflag']
      | false =>
        refine iff_of_false (fun h => ?_) (by simp)
        obtain ⟨j, hj, hfirst⟩ := h 0 (by simp [firstFlag, hflag])
        obtain rfl : j = 0 := Nat.le_zero.mp hj
        simp only [firstFlag, hflag', Bool.false_eq_true, if_false] at hfirst
        cases hstep : step s e with
        | none => simp [hstep] at hfirst
        | some m => simp [hstep] at hfirst
    | false =>
      have hflag' : flag' s e = false := by
        by_contra h
        rw [hsub s e (by simpa using h)] at hflag
        simp at hflag
      have hgo : monitored step flag s e = step s e := by simp [monitored, hflag]
      rw [hgo]
      cases hstep : step s e with
      | none => simp [firstFlag, hflag, hflag', hstep]
      | some m =>
        have hrest := ih (s := m)
        simp only [firstFlag, hflag, hflag', hstep, Bool.false_eq_true, if_false,
          Option.map_eq_some_iff,
          IsEmpty.forall_iff, true_and, Option.mem_some_iff, forall_eq']
        rw [← hrest]
        constructor
        · intro h k hk
          obtain ⟨j, hj, j', hfirst, rfl⟩ := h (k + 1) ⟨k, hk, rfl⟩
          exact ⟨j', Nat.le_of_succ_le_succ hj, hfirst⟩
        · rintro h k ⟨k', hk, rfl⟩
          obtain ⟨j, hj, hfirst⟩ := h k' hk
          exact ⟨j + 1, Nat.succ_le_succ hj, j, hfirst, rfl⟩

end Monitor

end Redzone.Foundation
