/-
  Foundation/Terms.lean --- terms over atoms, as a compiler builds its constants.

  A term is an atom or the application of one term to another; an operator with several
  operands is applied to them one by one.  `bind` puts a term for each atom, which is what
  replacing all uses of a symbol does.  `number` gives every term a number of its own, so
  that two operands can be compared by their numbers.
-/
import Mathlib.Data.Nat.Pairing
import Mathlib.Data.List.Basic

set_option autoImplicit false

namespace Redzone.Foundation

/-- A term over atoms. -/
inductive Term (α : Type) where
  | atom (a : α)
  | app (f x : Term α)
  deriving DecidableEq, Repr

namespace Term

variable {α β γ : Type}

/-- The atoms of a term, from left to right. -/
def atoms : Term α → List α
  | atom a => [a]
  | app f x => f.atoms ++ x.atoms

/-- A term in place of each atom. -/
def bind (s : α → Term β) : Term α → Term β
  | atom a => s a
  | app f x => app (f.bind s) (x.bind s)

/-- A number for each term, from numbers for its atoms. -/
def number (code : α → ℕ) : Term α → ℕ
  | atom a => Nat.pair 0 (code a)
  | app f x => Nat.pair 1 (Nat.pair (f.number code) (x.number code))

/-- The value of a term, from values for its atoms. -/
def eval {δ : Type} (val : α → δ) (apply : δ → δ → δ) : Term α → δ
  | atom a => val a
  | app f x => apply (f.eval val apply) (x.eval val apply)

@[simp] theorem atoms_atom (a : α) : (atom a).atoms = [a] := rfl

@[simp] theorem atoms_app (f x : Term α) : (app f x).atoms = f.atoms ++ x.atoms := rfl

@[simp] theorem bind_atom (s : α → Term β) (a : α) : (atom a).bind s = s a := rfl

@[simp] theorem bind_app (s : α → Term β) (f x : Term α) :
    (app f x).bind s = app (f.bind s) (x.bind s) := rfl

theorem bind_bind (s : α → Term β) (r : β → Term γ) (t : Term α) :
    (t.bind s).bind r = t.bind fun a => (s a).bind r := by
  induction t with
  | atom a => rfl
  | app f x ihf ihx => rw [bind_app, bind_app, bind_app, ihf, ihx]

/-- Atoms in place of themselves change nothing. -/
theorem bind_eq_self {s : α → Term α} {t : Term α} (h : ∀ a ∈ t.atoms, s a = atom a) :
    t.bind s = t := by
  induction t with
  | atom a => exact h a (List.mem_singleton.mpr rfl)
  | app f x ihf ihx =>
    rw [bind_app, ihf fun a ha => h a (List.mem_append_left _ ha),
      ihx fun a ha => h a (List.mem_append_right _ ha)]

/-- The atoms of a term after terms have been put for its atoms. -/
theorem mem_atoms_bind {s : α → Term β} {t : Term α} {b : β} :
    b ∈ (t.bind s).atoms ↔ ∃ a ∈ t.atoms, b ∈ (s a).atoms := by
  induction t with
  | atom a => simp only [bind_atom, atoms_atom, List.mem_singleton, exists_eq_left]
  | app f x ihf ihx =>
    rw [bind_app, atoms_app, atoms_app, List.mem_append, ihf, ihx]
    simp only [List.mem_append, or_and_right, exists_or]

/-- The value of a term after terms have been put for its atoms. -/
theorem eval_bind {δ : Type} (val : β → δ) (apply : δ → δ → δ) (s : α → Term β) (t : Term α) :
    (t.bind s).eval val apply = t.eval (fun a => (s a).eval val apply) apply := by
  induction t with
  | atom a => rfl
  | app f x ihf ihx => rw [bind_app, eval, ihf, ihx, eval]

/-- Only the values of the atoms in a term matter. -/
theorem eval_congr {δ : Type} {val val' : α → δ} {apply : δ → δ → δ} {t : Term α}
    (h : ∀ a ∈ t.atoms, val a = val' a) : t.eval val apply = t.eval val' apply := by
  induction t with
  | atom a => exact h a (List.mem_singleton.mpr rfl)
  | app f x ihf ihx =>
    rw [eval, ihf fun a ha => h a (List.mem_append_left _ ha),
      ihx fun a ha => h a (List.mem_append_right _ ha), eval]

/-- Terms with the same number are the same. -/
theorem number_injective {code : α → ℕ} (hcode : Function.Injective code) :
    Function.Injective (number code) := by
  intro s t h
  induction s generalizing t with
  | atom a =>
    cases t with
    | atom b => exact congrArg atom (hcode (Nat.pair_eq_pair.mp h).2)
    | app f x => exact absurd (Nat.pair_eq_pair.mp h).1 Nat.zero_ne_one
  | app f x ihf ihx =>
    cases t with
    | atom b => exact absurd (Nat.pair_eq_pair.mp h).1 Nat.one_ne_zero
    | app g y =>
      obtain ⟨hf, hx⟩ := Nat.pair_eq_pair.mp (Nat.pair_eq_pair.mp h).2
      rw [ihf hf, ihx hx]

end Term

end Redzone.Foundation
