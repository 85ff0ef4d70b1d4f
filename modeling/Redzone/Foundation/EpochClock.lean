/-
  Foundation/EpochClock.lean --- vector clocks as finite summaries of sets of
  events.

  A clock is a function from components to natural numbers, ordered and joined
  pointwise.  Each position of a history may carry a stamp: a component and the
  epoch that component was in.  A clock is compared with a set of positions in two
  directions:

      Covers   stamp c S    every stamped position of S is at or below c
      Reflects stamp n c S  every position below n that c is at or above is in S
      BoundedBy val c S     the whole clocks of the positions of S are at or below c

  `Covers` is what a race detector needs so as not to report an ordered pair,
  `Reflects` so as not to miss an unordered one.  Both pass through joins, which is
  all that synchronization does to a clock.
-/
import Mathlib.Data.Finset.Insert
import Mathlib.Data.Finset.Union
import Mathlib.Data.Finset.Lattice.Basic
import Mathlib.Order.Lattice

set_option autoImplicit false

namespace Redzone.Foundation

/-- One logical epoch per component. -/
abbrev Clock (κ : Type) : Type := κ → ℕ

/-- The component and epoch of a position, if it is tracked. -/
abbrev Stamping (κ : Type) : Type := ℕ → Option (κ × ℕ)

variable {κ : Type} {stamp stamp' : Stamping κ} {c d : Clock κ} {A B : Finset ℕ} {n : ℕ}

/-- Every stamped position of `A` lies at or below the clock. -/
def Covers (stamp : Stamping κ) (c : Clock κ) (A : Finset ℕ) : Prop :=
  ∀ i ∈ A, ∀ k e, stamp i = some (k, e) → e ≤ c k

theorem Covers.empty : Covers stamp c ∅ := by
  intro i hi
  simp at hi

theorem Covers.mono (h : Covers stamp c A) (hcd : c ≤ d) : Covers stamp d A :=
  fun i hi k e hs => (h i hi k e hs).trans (hcd k)

theorem Covers.subset (h : Covers stamp c A) (hBA : B ⊆ A) : Covers stamp c B :=
  fun i hi => h i (hBA hi)

theorem Covers.union (hA : Covers stamp c A) (hB : Covers stamp c B) :
    Covers stamp c (A ∪ B) := by
  intro i hi
  obtain hi | hi := Finset.mem_union.mp hi
  · exact hA i hi
  · exact hB i hi

theorem Covers.sup (hA : Covers stamp c A) (hB : Covers stamp d B) :
    Covers stamp (c ⊔ d) (A ∪ B) :=
  (hA.mono le_sup_left).union (hB.mono le_sup_right)

theorem Covers.insert (h : Covers stamp c A)
    (hn : ∀ k e, stamp n = some (k, e) → e ≤ c k) : Covers stamp c (Insert.insert n A) := by
  intro i hi
  obtain rfl | hi := Finset.mem_insert.mp hi
  · exact hn
  · exact h i hi

theorem Covers.congr (h : Covers stamp c A) (hs : ∀ i ∈ A, stamp' i = stamp i) :
    Covers stamp' c A :=
  fun i hi k e hk => h i hi k e (hs i hi ▸ hk)

/-- Every stamped position below `n` that lies at or below the clock is in `A`. -/
def Reflects (stamp : Stamping κ) (n : ℕ) (c : Clock κ) (A : Finset ℕ) : Prop :=
  ∀ i < n, ∀ k e, stamp i = some (k, e) → e ≤ c k → i ∈ A

theorem Reflects.superset (h : Reflects stamp n c A) (hAB : A ⊆ B) :
    Reflects stamp n c B :=
  fun i hi k e hs hle => hAB (h i hi k e hs hle)

theorem Reflects.sup (hA : Reflects stamp n c A) (hB : Reflects stamp n d B) :
    Reflects stamp n (c ⊔ d) (A ∪ B) := by
  intro i hi k e hs hle
  rw [Finset.mem_union]
  obtain hle | hle := le_sup_iff.mp hle
  · exact Or.inl (hA i hi k e hs hle)
  · exact Or.inr (hB i hi k e hs hle)

/-- A clock that moves in one component only, where all the positions stamped in
that component are in the set anyway. -/
theorem Reflects.advance (h : Reflects stamp n c A) {k : κ} (hoff : ∀ j, j ≠ k → d j = c j)
    (hown : ∀ i < n, ∀ e, stamp i = some (k, e) → i ∈ A) : Reflects stamp n d A := by
  intro i hi j e hs hle
  by_cases hj : j = k
  · exact hown i hi e (hj ▸ hs)
  · exact h i hi j e hs (hoff j hj ▸ hle)

/-- One more position: its stamp is past the clock, or it is in the set. -/
theorem Reflects.succ (h : Reflects stamp n c A) (hs : ∀ i < n, stamp' i = stamp i)
    (hn : ∀ k e, stamp' n = some (k, e) → e ≤ c k → n ∈ A) :
    Reflects stamp' (n + 1) c A := by
  intro i hi k e hk hle
  obtain hlt | rfl := Nat.lt_succ_iff_lt_or_eq.mp hi
  · exact h i hlt k e (hs i hlt ▸ hk) hle
  · exact hn k e hk hle

/-! ## Whole clocks -/

/-- Every position of `A` that has a value has one at or below `c`. -/
def BoundedBy {α : Type} [LE α] (val : ℕ → Option α) (c : α) (A : Finset ℕ) : Prop :=
  ∀ i ∈ A, ∀ v, val i = some v → v ≤ c

section BoundedBy

variable {α : Type} [SemilatticeSup α] {val val' : ℕ → Option α} {a b : α}

theorem BoundedBy.empty : BoundedBy val a ∅ := by
  intro i hi
  simp at hi

theorem BoundedBy.mono (h : BoundedBy val a A) (hab : a ≤ b) : BoundedBy val b A :=
  fun i hi v hv => (h i hi v hv).trans hab

theorem BoundedBy.union (hA : BoundedBy val a A) (hB : BoundedBy val a B) :
    BoundedBy val a (A ∪ B) := by
  intro i hi
  rcases Finset.mem_union.mp hi with hi | hi
  · exact hA i hi
  · exact hB i hi

theorem BoundedBy.insert (h : BoundedBy val a A) (hn : ∀ v, val n = some v → v ≤ a) :
    BoundedBy val a (Insert.insert n A) := by
  intro i hi
  rcases Finset.mem_insert.mp hi with rfl | hi
  · exact hn
  · exact h i hi

theorem BoundedBy.biUnion {O : Type} {S : Finset O} {f : O → Finset ℕ}
    (h : ∀ o ∈ S, BoundedBy val a (f o)) [DecidableEq O] : BoundedBy val a (S.biUnion f) := by
  intro i hi
  obtain ⟨o, ho, hi⟩ := Finset.mem_biUnion.mp hi
  exact h o ho i hi

theorem BoundedBy.congr (h : BoundedBy val a A) (hval : ∀ i ∈ A, val' i = val i) :
    BoundedBy val' a A :=
  fun i hi v hv => h i hi v (hval i hi ▸ hv)

end BoundedBy

end Redzone.Foundation
