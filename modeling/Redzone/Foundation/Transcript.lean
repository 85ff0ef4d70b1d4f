/-
  Foundation/Transcript.lean --- machines that answer requests, and what refines them.

  A machine answers a request and goes on, or it stops with a last word.  Its transcript
  is what a client sees: the answers in order, the last word included.  A machine refines
  another one where a relation between their states makes the same answer to every request
  that the client may make; the clients of both then see the same transcript.

  What a client may ask is a condition on the state of the specification, so that it can
  be checked without knowing the implementation.
-/
import Mathlib.Data.List.Basic

set_option autoImplicit false

namespace Redzone.Foundation

variable {σ τ ε α χ : Type}

/-- The answers to the requests, up to the one that stops the machine. -/
def transcript (serve : σ → ε → Except χ (α × σ)) : σ → List ε → List (Except χ α)
  | _, [] => []
  | s, e :: es =>
    match serve s e with
    | .error x => [.error x]
    | .ok (a, s') => .ok a :: transcript serve s' es

/-- The state after the requests, if none of them stops the machine. -/
def served (serve : σ → ε → Except χ (α × σ)) : σ → List ε → Option σ
  | s, [] => some s
  | s, e :: es =>
    match serve s e with
    | .error _ => none
    | .ok (_, s') => served serve s' es

/-- How the machine ends up after the requests. -/
def outcome (serve : σ → ε → Except χ (α × σ)) : σ → List ε → Except χ σ
  | s, [] => .ok s
  | s, e :: es =>
    match serve s e with
    | .error x => .error x
    | .ok (_, s') => outcome serve s' es

/-- Every request that the machine comes to meets the condition. -/
def EveryRequest (serve : σ → ε → Except χ (α × σ)) (Q : σ → ε → Prop) : σ → List ε → Prop
  | _, [] => True
  | s, e :: es =>
    Q s e ∧
      match serve s e with
      | .error _ => True
      | .ok (_, s') => EveryRequest serve Q s' es

instance decidableEveryRequest (serve : σ → ε → Except χ (α × σ)) (Q : σ → ε → Prop)
    [∀ s e, Decidable (Q s e)] : ∀ s es, Decidable (EveryRequest serve Q s es)
  | _, [] => inferInstanceAs (Decidable True)
  | s, e :: es =>
    have : Decidable (match serve s e with
        | .error _ => True
        | .ok (_, s') => EveryRequest serve Q s' es) :=
      match serve s e with
      | .error _ => inferInstanceAs (Decidable True)
      | .ok (_, s') => decidableEveryRequest serve Q s' es
    inferInstanceAs (Decidable (_ ∧ _))

section Runs

variable {serve : σ → ε → Except χ (α × σ)} {Q : σ → ε → Prop} {s s' : σ} {e : ε} {a : α}
  {es fs : List ε}

theorem transcript_cons_ok (h : serve s e = .ok (a, s')) :
    transcript serve s (e :: es) = .ok a :: transcript serve s' es := by
  rw [transcript, h]

theorem transcript_cons_error {x : χ} (h : serve s e = .error x) :
    transcript serve s (e :: es) = [.error x] := by
  rw [transcript, h]

theorem served_cons_ok (h : serve s e = .ok (a, s')) :
    served serve s (e :: es) = served serve s' es := by
  rw [served, h]

theorem EveryRequest.tail (h : EveryRequest serve Q s (e :: es)) (he : serve s e = .ok (a, s')) :
    EveryRequest serve Q s' es := by
  have hrest := h.2
  rw [he] at hrest
  exact hrest

theorem EveryRequest.left (h : EveryRequest serve Q s (es ++ fs)) : EveryRequest serve Q s es := by
  induction es generalizing s with
  | nil => trivial
  | cons e es ih =>
      refine ⟨h.1, ?_⟩
      cases he : serve s e with
      | error x => trivial
      | ok r => exact ih (h.tail he)

theorem EveryRequest.right (h : EveryRequest serve Q s (es ++ fs))
    (hs : served serve s es = some s') : EveryRequest serve Q s' fs := by
  induction es generalizing s with
  | nil =>
      obtain rfl : s = s' := Option.some.inj hs
      exact h
  | cons e es ih =>
      cases he : serve s e with
      | error x => simp [served, he] at hs
      | ok r =>
          obtain ⟨a, m⟩ := r
          rw [served_cons_ok he] at hs
          exact ih (h.tail he) hs

end Runs

/-! ## Refinement -/

/-- The two machines stop with the same word, or give the same answer and go on in related
states. -/
inductive Related (R : σ → τ → Prop) : Except χ (α × σ) → Except χ (α × τ) → Prop
  | stop (x : χ) : Related R (.error x) (.error x)
  | go (a : α) {s : σ} {t : τ} (h : R s t) : Related R (.ok (a, s)) (.ok (a, t))

/-- The relation makes the machine answer as the specification does to every request that
the client may make. -/
def Refines (serve : σ → ε → Except χ (α × σ)) (spec : τ → ε → Except χ (α × τ))
    (Q : τ → ε → Prop) (R : σ → τ → Prop) : Prop :=
  ∀ s t e, R s t → Q t e → Related R (serve s e) (spec t e)

section Refines

variable {β σ' τ' : Type} {serve : σ → ε → Except χ (α × σ)} {spec : τ → ε → Except χ (α × τ)}
  {Q : τ → ε → Prop} {R : σ → τ → Prop} {R' : σ' → τ' → Prop} {s : σ} {t : τ} {es : List ε}

/-- The answer may be read differently, and the states may be put into larger ones. -/
theorem Related.map {r : Except χ (α × σ)} {q : Except χ (α × τ)} (h : Related R r q)
    (f : α → β) (g : σ → σ') (g' : τ → τ') (hg : ∀ s t, R s t → R' (g s) (g' t)) :
    Related R' (r.map (Prod.map f g)) (q.map (Prod.map f g')) := by
  cases h with
  | stop x => exact .stop x
  | go a hR => exact .go (f a) (hg _ _ hR)

/-- The client of the machine sees what the client of the specification sees. -/
theorem Refines.transcript_eq (h : Refines serve spec Q R) (hR : R s t)
    (hQ : EveryRequest spec Q t es) : transcript serve s es = transcript spec t es := by
  induction es generalizing s t with
  | nil => rfl
  | cons e es ih =>
      have hstep := h s t e hR hQ.1
      generalize hs : serve s e = r at hstep
      generalize ht : spec t e = q at hstep
      cases hstep with
      | stop x => rw [transcript_cons_error hs, transcript_cons_error ht]
      | go a hR' => rw [transcript_cons_ok hs, transcript_cons_ok ht, ih hR' (hQ.tail ht)]

/-- Where the machine has come, the specification has come to a related state. -/
theorem Refines.served_spec {s' : σ} (h : Refines serve spec Q R) (hR : R s t)
    (hQ : EveryRequest spec Q t es) (hs : served serve s es = some s') :
    ∃ t', served spec t es = some t' ∧ R s' t' := by
  induction es generalizing s t with
  | nil =>
      obtain rfl : s = s' := Option.some.inj hs
      exact ⟨t, rfl, hR⟩
  | cons e es ih =>
      have hstep := h s t e hR hQ.1
      generalize hserve : serve s e = r at hstep
      generalize hspec : spec t e = q at hstep
      cases hstep with
      | stop x => simp [served, hserve] at hs
      | go a hR' =>
          rw [served_cons_ok hserve] at hs
          rw [served_cons_ok hspec]
          exact ih hR' (hQ.tail hspec) hs

/-- The machine ends up as the specification does: stopped with the same word, or in a
related state. -/
theorem Refines.outcome (h : Refines serve spec Q R) (hR : R s t) (hQ : EveryRequest spec Q t es) :
    (∃ x, outcome serve s es = .error x ∧ outcome spec t es = .error x) ∨
      ∃ s' t', outcome serve s es = .ok s' ∧ outcome spec t es = .ok t' ∧ R s' t' := by
  induction es generalizing s t with
  | nil => exact .inr ⟨s, t, rfl, rfl, hR⟩
  | cons e es ih =>
      have hstep := h s t e hR hQ.1
      unfold Foundation.outcome
      generalize hserve : serve s e = r at hstep
      generalize hspec : spec t e = q at hstep
      cases hstep with
      | stop x => exact .inl ⟨x, rfl, rfl⟩
      | go a hR' => exact ih hR' (hQ.tail hspec)

end Refines

end Redzone.Foundation
