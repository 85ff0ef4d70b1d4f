/-
  Foundation/Schedules.lean --- schedules that differ in the order of independent operations.

  Operations of a machine are independent where neither writes what the other one touches.
  Such operations commute, and each of them gets the same answer in both orders
  (`Footprint.swappable`).  Two schedules of the same operations that keep the order of
  those which are not independent (`SameOrder`) then end in the same state, and give
  everybody the same answers.  Operations that are idle when their turn comes can be left
  out first (`busy`).

  The proof takes the first operation of one schedule to the front of the other one: what
  stands before it there is independent of it.
-/
import Redzone.Foundation.Driven

set_option autoImplicit false

namespace Redzone.Foundation

variable {ω τ β κ ρ : Type}

/-! ## The order of operations -/

/-- Both lists have the same operations, and any two that depend on each other in the same
order. -/
def SameOrder [DecidableEq ω] (dep : ω → ω → Prop) (l l' : List ω) : Prop :=
  ∀ a ∈ l ++ l', ∀ b ∈ l ++ l', dep a b →
    l.filter (fun x => x = a ∨ x = b) = l'.filter fun x => x = a ∨ x = b

instance [DecidableEq ω] (dep : ω → ω → Prop) [DecidableRel dep] (l l' : List ω) :
    Decidable (SameOrder dep l l') :=
  inferInstanceAs (Decidable (∀ a ∈ l ++ l', ∀ b ∈ l ++ l', dep a b → _))

section SameOrder

variable [DecidableEq ω] {dep : ω → ω → Prop} {l l' p q : List ω} {a : ω}

theorem SameOrder.eq_nil (h : SameOrder dep [] l') (hrefl : ∀ a, dep a a) : l' = [] := by
  refine List.eq_nil_iff_forall_not_mem.mpr fun a ha => ?_
  have heq := h a ha a ha (hrefl a)
  have hmem : a ∈ l'.filter fun x => x = a ∨ x = a := List.mem_filter.mpr ⟨ha, by simp⟩
  rw [← heq] at hmem
  exact absurd hmem List.not_mem_nil

/-- What stands before the first operation of the other list is independent of it. -/
theorem SameOrder.first (h : SameOrder dep (a :: l) l') (hrefl : ∀ a, dep a a) :
    ∃ p q, l' = p ++ a :: q ∧ a ∉ p ∧ ∀ x ∈ p, ¬ dep a x := by
  have hhead : a ∈ (a :: l) ++ l' := List.mem_append_left _ List.mem_cons_self
  have hself := h a hhead a hhead (hrefl a)
  have hmem : a ∈ l' := by
    have hfilter : a ∈ (a :: l).filter fun x => x = a ∨ x = a :=
      List.mem_filter.mpr ⟨List.mem_cons_self, by simp⟩
    rw [hself] at hfilter
    exact (List.mem_filter.mp hfilter).1
  obtain ⟨p, q, rfl, hp⟩ := List.eq_append_cons_of_mem hmem
  refine ⟨p, q, rfl, hp, fun x hx hdep => ?_⟩
  have hxmem : x ∈ (a :: l) ++ (p ++ a :: q) :=
    List.mem_append_right _ (List.mem_append_left _ hx)
  have heq := h a hhead x hxmem hdep
  rw [List.filter_cons_of_pos (by simp), List.filter_append] at heq
  -- the first of the two that stands in `p` would have to be `a`
  cases hfilter : p.filter fun y => y = a ∨ y = x with
  | nil =>
      have hxp := List.filter_eq_nil_iff.mp hfilter x hx
      exact hxp (by simp)
  | cons y ys =>
      rw [hfilter, List.cons_append] at heq
      have hy : y ∈ p := (List.mem_filter.mp (hfilter ▸ List.mem_cons_self)).1
      rw [← (List.cons.inj heq).1] at hy
      exact hp hy

/-- The order of the rest. -/
theorem SameOrder.tail (h : SameOrder dep (a :: l) (p ++ a :: q)) (hsymm : ∀ a b, dep a b → dep b a)
    (hp : a ∉ p) (hfree : ∀ x ∈ p, ¬ dep a x) : SameOrder dep l (p ++ q) := by
  intro b hb c hc hdep
  have hsub : ∀ x ∈ l ++ (p ++ q), x ∈ (a :: l) ++ (p ++ a :: q) := by
    intro x hx
    simp only [List.mem_append, List.mem_cons] at hx ⊢
    tauto
  have heq := h b (hsub b hb) c (hsub c hc) hdep
  rcases Classical.em (a = b ∨ a = c) with hin | hout
  · -- neither `b` nor `c` stands in `p`
    have hnone : p.filter (fun x => x = b ∨ x = c) = [] := by
      refine List.filter_eq_nil_iff.mpr fun x hx => ?_
      simp only [decide_eq_true_eq]
      rcases hin with rfl | rfl
      · rintro (rfl | rfl)
        · exact hp hx
        · exact hfree x hx hdep
      · rintro (rfl | rfl)
        · exact hfree x hx (hsymm x a hdep)
        · exact hp hx
    rw [List.filter_cons_of_pos (by simpa using hin), List.filter_append, hnone, List.nil_append,
      List.filter_cons_of_pos (by simpa using hin)] at heq
    rw [List.filter_append, hnone, List.nil_append]
    exact (List.cons.inj heq).2
  · rw [List.filter_cons_of_neg (by simpa using hout), List.filter_append,
      List.filter_cons_of_neg (by simpa using hout)] at heq
    rw [List.filter_append, heq]

end SameOrder

/-! ## Operations that commute -/

/-- The order of the two operations makes no difference, and their answers go to different
addressees. -/
structure Swappable (act : ω → τ → τ) (out : τ → ω → List β) (key : β → κ) (a b : ω) : Prop where
  acts : Commutes act a b
  left : ∀ u, out (act b u) a = out u a
  right : ∀ u, out (act a u) b = out u b
  apart : ∀ u v, ∀ x ∈ out u a, ∀ y ∈ out v b, key x ≠ key y

section Swappable

variable {act : ω → τ → τ} {out : τ → ω → List β} {key : β → κ} {p q : List ω} {a : ω} {u : τ}

theorem perform_front (h : ∀ x ∈ p, Swappable act out key a x) :
    perform act (p ++ a :: q) u = perform act (a :: (p ++ q)) u := by
  induction p generalizing u with
  | nil => rfl
  | cons x p ih =>
      rw [List.cons_append, perform_cons, ih fun y hy => h y (List.mem_cons_of_mem x hy),
        perform_cons, (h x List.mem_cons_self).acts u]
      rfl

variable [DecidableEq κ]

/-- What one addressee gets of two lists of answers, one of which has nothing for it. -/
theorem filter_comm {xs ys : List β} {k : κ} (h : ∀ x ∈ xs, ∀ y ∈ ys, key x ≠ key y) :
    xs.filter (fun x => key x = k) ++ ys.filter (fun x => key x = k) =
      ys.filter (fun x => key x = k) ++ xs.filter fun x => key x = k := by
  cases hxs : xs.filter fun x => key x = k with
  | nil => rw [List.nil_append, List.append_nil]
  | cons x rest =>
      obtain ⟨hx, hxk⟩ := List.mem_filter.mp (hxs ▸ List.mem_cons_self (a := x) (l := rest))
      have hys : ys.filter (fun x => key x = k) = [] := by
        refine List.filter_eq_nil_iff.mpr fun y hy hyk => h x hx y hy ?_
        rw [of_decide_eq_true hxk, of_decide_eq_true hyk]
      rw [hys, List.nil_append, List.append_nil]

theorem answers_front (h : ∀ x ∈ p, Swappable act out key a x) (k : κ) :
    (answers act out u (p ++ a :: q)).filter (fun x => key x = k) =
      (answers act out u (a :: (p ++ q))).filter fun x => key x = k := by
  induction p generalizing u with
  | nil => rfl
  | cons x p ih =>
      have hx := h x List.mem_cons_self
      have hswap := filter_comm (k := k) (hx.apart u u)
      rw [List.cons_append, answers, List.filter_append,
        ih fun y hy => h y (List.mem_cons_of_mem x hy), answers, List.filter_append, hx.left,
        hx.acts u, ← List.append_assoc, ← hswap]
      simp only [List.cons_append, answers, List.filter_append, hx.right, List.append_assoc]

/-- Schedules with the same order end in the same state, and give each addressee the same
answers. -/
theorem SameOrder.same [DecidableEq ω] {dep : ω → ω → Prop} {l l' : List ω}
    (h : SameOrder dep l l') (hrefl : ∀ a, dep a a) (hsymm : ∀ a b, dep a b → dep b a)
    (hcomm : ∀ a b, ¬ dep a b → Swappable act out key a b) :
    perform act l u = perform act l' u ∧
      ∀ k, (answers act out u l).filter (fun x => key x = k) =
        (answers act out u l').filter fun x => key x = k := by
  induction l generalizing l' u with
  | nil =>
      rw [h.eq_nil hrefl]
      exact ⟨rfl, fun _ => rfl⟩
  | cons a l ih =>
      obtain ⟨p, q, rfl, hp, hfree⟩ := h.first hrefl
      have hfront : ∀ x ∈ p, Swappable act out key a x := fun x hx => hcomm a x (hfree x hx)
      obtain ⟨hstate, hanswers⟩ := ih (u := act a u) (h.tail hsymm hp hfree)
      refine ⟨?_, fun k => ?_⟩
      · rw [perform_front hfront, perform_cons, perform_cons, hstate]
      · rw [answers_front hfront, answers, answers, List.filter_append, List.filter_append,
          hanswers]

end Swappable

/-! ## Idle operations -/

/-- The operations that are not idle when their turn comes. -/
def busy (idle : τ → ω → Bool) (act : ω → τ → τ) : τ → List ω → List ω
  | _, [] => []
  | u, a :: todo => if idle u a then busy idle act u todo else a :: busy idle act (act a u) todo

section Busy

variable {idle : τ → ω → Bool} {act : ω → τ → τ} {out : τ → ω → List β} {u : τ} {todo : List ω}

/-- Idle operations can be left out. -/
theorem busy_spec (hact : ∀ u a, idle u a = true → act a u = u)
    (hout : ∀ u a, idle u a = true → out u a = []) :
    perform act (busy idle act u todo) u = perform act todo u ∧
      answers act out u (busy idle act u todo) = answers act out u todo := by
  induction todo generalizing u with
  | nil => exact ⟨rfl, rfl⟩
  | cons a todo ih =>
      obtain ⟨hstate, hanswers⟩ := ih (u := act a u)
      rw [busy]
      split
      · rename_i hidle
        rw [hact u a hidle] at hstate hanswers
        rw [perform_cons, answers, hact u a hidle, hout u a hidle]
        exact ⟨hstate, hanswers⟩
      · rw [perform_cons, perform_cons, answers, answers, hstate, hanswers]
        exact ⟨rfl, rfl⟩

end Busy

/-! ## Footprints -/

/-- What each operation touches, and what of that it may change. -/
structure Footprint {V : ρ → Type} (get : ∀ r, τ → V r) (act : ω → τ → τ)
    (out : τ → ω → List β) (touches writes : ω → List ρ) : Prop where
  ext : ∀ {u v}, (∀ r, get r u = get r v) → u = v
  subset : ∀ {a r}, r ∈ writes a → r ∈ touches a
  frame : ∀ {a r} u, r ∉ writes a → get r (act a u) = get r u
  acts : ∀ {a u v}, (∀ r ∈ touches a, get r u = get r v) →
    ∀ r ∈ touches a, get r (act a u) = get r (act a v)
  answers : ∀ {a u v}, (∀ r ∈ touches a, get r u = get r v) → out u a = out v a

/-- Neither operation writes what the other one touches. -/
def Unrelated (touches writes : ω → List ρ) (a b : ω) : Prop :=
  (∀ r ∈ writes a, r ∉ touches b) ∧ ∀ r ∈ writes b, r ∉ touches a

instance [DecidableEq ρ] (touches writes : ω → List ρ) :
    DecidableRel (Unrelated touches writes) := fun a b =>
  inferInstanceAs (Decidable ((∀ r ∈ writes a, r ∉ touches b) ∧ ∀ r ∈ writes b, r ∉ touches a))

theorem Unrelated.symm {touches writes : ω → List ρ} {a b : ω}
    (h : Unrelated touches writes a b) : Unrelated touches writes b a := ⟨h.2, h.1⟩

/-- Independent operations commute. -/
theorem Footprint.swappable {V : ρ → Type} {get : ∀ r, τ → V r} {act : ω → τ → τ}
    {out : τ → ω → List β} {touches writes : ω → List ρ} {key : β → κ} {a b : ω}
    (h : Footprint get act out touches writes) (hab : Unrelated touches writes a b)
    (hapart : ∀ u v, ∀ x ∈ out u a, ∀ y ∈ out v b, key x ≠ key y) :
    Swappable act out key a b := by
  have hkeep : ∀ {c d}, Unrelated touches writes c d → ∀ u, ∀ r ∈ touches c,
      get r (act d u) = get r u := fun hcd u r hr =>
    h.frame u fun hw => hcd.2 r hw hr
  have hone : ∀ {c d}, Unrelated touches writes c d → ∀ u, ∀ r ∈ touches c,
      get r (act c (act d u)) = get r (act d (act c u)) := by
    intro c d hcd u r hr
    calc get r (act c (act d u)) = get r (act c u) := h.acts (hkeep hcd u) r hr
      _ = get r (act d (act c u)) := (hkeep hcd (act c u) r hr).symm
  refine ⟨fun u => h.ext fun r => ?_, fun u => h.answers (hkeep hab u),
    fun u => h.answers (hkeep hab.symm u), hapart⟩
  rcases Classical.em (r ∈ touches a) with hra | hra
  · exact hone hab u r hra
  rcases Classical.em (r ∈ touches b) with hrb | hrb
  · exact (hone hab.symm u r hrb).symm
  · rw [h.frame _ fun hw => hra (h.subset hw), h.frame _ fun hw => hrb (h.subset hw),
      h.frame _ fun hw => hrb (h.subset hw), h.frame _ fun hw => hra (h.subset hw)]

end Redzone.Foundation
