/-
  Foundation/Pending.lean --- parties that owe updates of a shared state.

  A party has taken a decision, and the updates that follow from it are still to be made.
  The settled state is the state in which every party has made all of its updates.  Where
  the updates of different parties commute, the order of the parties does not matter
  (`settle_perm`), and the updates of one party can be made last (`settle_perform`).
-/
import Mathlib.Tactic

set_option autoImplicit false

namespace Redzone.Foundation

section Pending

variable {σ ω β : Type} (act : ω → σ → σ)

/-- Make the updates, the first one first. -/
def perform (todo : List ω) (s : σ) : σ := todo.foldl (fun s a => act a s) s

/-- The state in which all parties have made their updates. -/
def settle (owed : List (List ω)) (s : σ) : σ := owed.foldl (fun s todo => perform act todo s) s

/-- Two updates can be made in either order. -/
def Commutes (a b : ω) : Prop := ∀ s, act a (act b s) = act b (act a s)

/-- All updates of one party commute with all updates of the other. -/
def Independent (todo todo' : List ω) : Prop := ∀ a ∈ todo, ∀ b ∈ todo', Commutes act a b

variable {act} {a b : ω} {todo todo' rest : List ω} {owed owed' : List (List ω)} {s : σ}

@[simp] theorem perform_nil : perform act [] s = s := rfl

@[simp] theorem perform_cons : perform act (a :: todo) s = perform act todo (act a s) := rfl

theorem perform_append :
    perform act (todo ++ todo') s = perform act todo' (perform act todo s) :=
  List.foldl_append

@[simp] theorem settle_nil : settle act [] s = s := rfl

@[simp] theorem settle_cons :
    settle act (todo :: owed) s = settle act owed (perform act todo s) := rfl

theorem Commutes.symm (h : Commutes act a b) : Commutes act b a := fun s => (h s).symm

theorem Independent.symm (h : Independent act todo todo') : Independent act todo' todo :=
  fun b hb a ha => (h a ha b hb).symm

/-- Fewer updates commute all the more. -/
theorem Independent.mono (h : Independent act todo todo') (hsub : ∀ a ∈ rest, a ∈ todo) :
    Independent act rest todo' :=
  fun a ha => h a (hsub a ha)

/-- A map that commutes with single updates commutes with all of them. -/
theorem perform_comm {f : σ → σ} (h : ∀ a ∈ todo, ∀ s, f (act a s) = act a (f s)) :
    f (perform act todo s) = perform act todo (f s) := by
  induction todo generalizing s with
  | nil => rfl
  | cons a todo ih =>
      rw [perform_cons, perform_cons, ih fun b hb => h b (List.mem_cons_of_mem a hb)]
      rw [h a (List.mem_cons_self ..)]

theorem settle_comm {f : σ → σ} (h : ∀ todo ∈ owed, ∀ a ∈ todo, ∀ s, f (act a s) = act a (f s)) :
    f (settle act owed s) = settle act owed (f s) := by
  induction owed generalizing s with
  | nil => rfl
  | cons todo owed ih =>
      rw [settle_cons, settle_cons, ih fun t ht => h t (List.mem_cons_of_mem todo ht)]
      rw [perform_comm (h todo (List.mem_cons_self ..))]

/-- What no update changes is the same in the settled state. -/
theorem perform_congr {f : σ → β} (h : ∀ a ∈ todo, ∀ s, f (act a s) = f s) :
    f (perform act todo s) = f s := by
  induction todo generalizing s with
  | nil => rfl
  | cons a todo ih =>
      rw [perform_cons, ih fun b hb => h b (List.mem_cons_of_mem a hb)]
      exact h a (List.mem_cons_self ..) s

theorem settle_congr {f : σ → β} (h : ∀ todo ∈ owed, ∀ a ∈ todo, ∀ s, f (act a s) = f s) :
    f (settle act owed s) = f s := by
  induction owed generalizing s with
  | nil => rfl
  | cons todo owed ih =>
      rw [settle_cons, ih fun t ht => h t (List.mem_cons_of_mem todo ht)]
      exact perform_congr (h todo (List.mem_cons_self ..))

theorem Independent.perform_swap (h : Independent act todo todo') :
    perform act todo (perform act todo' s) = perform act todo' (perform act todo s) := by
  apply perform_comm (f := perform act todo)
  intro b hb s
  exact (perform_comm (f := act b) fun a ha s => (h a ha b hb s).symm).symm

/-- The order of independent parties does not matter. -/
theorem settle_perm (hp : owed.Perm owed') (h : owed.Pairwise (Independent act)) :
    settle act owed s = settle act owed' s := by
  have : Std.Symm (Independent act) := ⟨fun _ _ h => h.symm⟩
  apply hp.foldl_eq'
  intro t ht t' ht' s
  by_cases heq : t = t'
  · rw [heq]
  · exact (h.forall ht ht' heq).symm.perform_swap

/-- The updates of one party can be made last. -/
theorem settle_perform (h : ∀ t ∈ owed, Independent act todo t) :
    settle act owed (perform act todo s) = perform act todo (settle act owed s) := by
  induction owed generalizing s with
  | nil => rfl
  | cons t owed ih =>
      rw [settle_cons, settle_cons, ← (h t (List.mem_cons_self ..)).perform_swap]
      exact ih fun t' ht' => h t' (List.mem_cons_of_mem t ht')

end Pending

end Redzone.Foundation
