/-
  Foundation/Driven.lean --- a machine that is driven by the run of another one.

  The second machine is ideal: it performs every operation that it is asked for and answers
  it.  A system drives it where each step asks for some operations; the machine refines the
  system where the step sees what the operations answer and a relation between the two
  states is kept (`Drives`).  Then whole runs see the same (`Drives.run`).
-/
import Redzone.Foundation.Pending
import Redzone.Foundation.Transition

set_option autoImplicit false

namespace Redzone.Foundation

section Observed

variable {σ ε β : Type} (step : σ → ε → Option σ) (see : σ → ε → List β)

/-- What is seen in the steps of a run. -/
def observed : σ → List ε → List β
  | _, [] => []
  | s, e :: es => see s e ++ (step s e).elim [] fun m => observed m es

variable {step see} {s m : σ} {e : ε} {es fs : List ε}

@[simp] theorem observed_nil : observed step see s [] = [] := rfl

theorem observed_cons (h : step s e = some m) :
    observed step see s (e :: es) = see s e ++ observed step see m es := by
  rw [observed, h]
  rfl

/-- What is seen of a run that goes on. -/
theorem observed_append (h : run step s es = some m) :
    observed step see s (es ++ fs) = observed step see s es ++ observed step see m fs := by
  induction es generalizing s with
  | nil =>
      obtain rfl : s = m := Option.some.inj h
      rfl
  | cons e es ih =>
      rw [run_cons] at h
      obtain ⟨n, hn, hrest⟩ := Option.bind_eq_some_iff.mp h
      rw [List.cons_append, observed_cons hn, observed_cons hn, ih hrest, List.append_assoc]

end Observed

section Driven

variable {σ ε τ ω β : Type}

/-- What the machine answers to operations, the first one first. -/
def answers (act : ω → τ → τ) (out : τ → ω → List β) : τ → List ω → List β
  | _, [] => []
  | u, a :: todo => out u a ++ answers act out (act a u) todo

/-- Each step of a run drives the machine, under a side condition on the steps. -/
structure Drives (step : σ → ε → Option σ) (see : σ → ε → List β) (asks : σ → ε → List ω)
    (act : ω → τ → τ) (out : τ → ω → List β) (Q : σ → ε → Prop) (R : σ → τ → Prop) : Prop where
  keeps : ∀ {s s' e u}, R s u → Q s e → step s e = some s' → R s' (perform act (asks s e) u)
  agrees : ∀ {s s' e u}, R s u → Q s e → step s e = some s' →
    see s e = answers act out u (asks s e)

variable {step : σ → ε → Option σ} {see : σ → ε → List β} {asks : σ → ε → List ω}
  {act : ω → τ → τ} {out : τ → ω → List β} {Q : σ → ε → Prop} {R : σ → τ → Prop}
  {s s' : σ} {u : τ} {es : List ε} {todo todo' : List ω}

theorem answers_append :
    answers act out u (todo ++ todo') =
      answers act out u todo ++ answers act out (perform act todo u) todo' := by
  induction todo generalizing u with
  | nil => rfl
  | cons a todo ih => rw [List.cons_append, answers, ih, answers, perform_cons, List.append_assoc]

/-- The relation is kept over a run, and the run sees what the machine answers. -/
theorem Drives.run (h : Drives step see asks act out Q R) (hQ : EveryStep step Q s es)
    (hrun : run step s es = some s') (hR : R s u) :
    R s' (perform act (observed step asks s es) u) ∧
      observed step see s es = answers act out u (observed step asks s es) := by
  induction es generalizing s u with
  | nil =>
      obtain rfl : s = s' := Option.some.inj hrun
      exact ⟨hR, rfl⟩
  | cons e es ih =>
      rw [run_cons] at hrun
      obtain ⟨m, hm, hrest⟩ := Option.bind_eq_some_iff.mp hrun
      obtain ⟨hkept, hsame⟩ := ih (hQ.2 m hm) hrest (h.keeps hR hQ.1 hm)
      rw [observed_cons hm, observed_cons hm, perform_append, answers_append]
      refine ⟨hkept, ?_⟩
      rw [h.agrees hR hQ.1 hm, hsame]

end Driven

end Redzone.Foundation
