/-
  Foundation/Groups.lean --- totals over the groups of a list, and of disjoint intervals.

  The items of a list fall into groups by a key.  The totals of the groups, one for each
  key that occurs, add up to the total of the list.  Intervals that are disjoint and lie
  below a bound are together no longer than the bound.
-/
import Mathlib.Data.List.Nodup
import Mathlib.Data.List.Perm.Subperm
import Mathlib.Algebra.BigOperators.Group.List.Basic
import Mathlib.Algebra.Order.Ring.Nat

set_option autoImplicit false

namespace Redzone.Foundation

variable {α κ : Type}

/-! ## Groups -/

/-- The items with one key. -/
def group [DecidableEq κ] (key : α → κ) (k : κ) (xs : List α) : List α :=
  xs.filter fun x => key x = k

/-- The keys that occur, in the order of their first items. -/
def keys [DecidableEq κ] (key : α → κ) (xs : List α) : List κ := (xs.map key).eraseDups

section Groups

variable [DecidableEq κ] {key : α → κ} {k : κ} {x : α} {xs : List α}

theorem mem_keys : k ∈ keys key xs ↔ ∃ x ∈ xs, key x = k := by
  unfold keys
  rw [List.mem_eraseDups, List.mem_map]

theorem keys_cons : keys key (x :: xs) =
    key x :: keys key (xs.filter fun y => ¬ key y = key x) := by
  unfold keys
  rw [List.map_cons, List.eraseDups_cons, List.filter_map]
  congr 4
  funext y
  exact (decide_not (p := key y = key x)).symm

/-- Induction that takes away the group of the first item. -/
theorem group_induction (key : α → κ) {P : List α → Prop} (nil : P [])
    (cons : ∀ x xs, P (xs.filter fun y => ¬ key y = key x) → P (x :: xs)) : ∀ xs, P xs
  | [] => nil
  | x :: xs => cons x xs (group_induction key nil cons _)
termination_by xs => xs.length
decreasing_by exact Nat.lt_succ_of_le (List.length_filter_le _ _)

theorem ne_of_mem_filter {y : α} (h : y ∈ xs.filter fun y => ¬ key y = k) : key y ≠ k :=
  of_decide_eq_true (List.mem_filter.mp h).2

theorem keys_nodup : (keys key xs).Nodup := by
  induction xs using group_induction key with
  | nil => exact List.nodup_nil
  | cons x xs ih =>
    rw [keys_cons, List.nodup_cons]
    refine ⟨?_, ih⟩
    rw [mem_keys]
    rintro ⟨y, hy, heq⟩
    exact ne_of_mem_filter hy heq

/-- Without the items of one key the other groups stay as they are. -/
theorem group_filter_ne {k' : κ} (h : k ≠ k') :
    group key k (xs.filter fun y => ¬ key y = k') = group key k xs := by
  unfold group
  rw [List.filter_filter]
  refine List.filter_congr fun y _ => ?_
  by_cases hy : key y = k
  · simp [hy, h]
  · simp [hy]

theorem sum_filter_add (w : α → ℕ) (p : α → Prop) [DecidablePred p] :
    ((xs.filter fun x => p x).map w).sum + ((xs.filter fun x => ¬ p x).map w).sum =
      (xs.map w).sum := by
  induction xs with
  | nil => rfl
  | cons x xs ih =>
    by_cases hx : p x
    · simp [hx, ← ih, Nat.add_assoc]
    · simp [hx, ← ih, Nat.add_left_comm]

/-- The totals of the groups add up. -/
theorem sum_groups (key : α → κ) (w : α → ℕ) (xs : List α) :
    ((keys key xs).map fun k => ((group key k xs).map w).sum).sum = (xs.map w).sum := by
  induction xs using group_induction key with
  | nil => rfl
  | cons x xs ih =>
    have hothers : ∀ k ∈ keys key (xs.filter fun y => ¬ key y = key x),
        ((group key k (x :: xs)).map w).sum =
          ((group key k (xs.filter fun y => ¬ key y = key x)).map w).sum := by
      intro k hk
      obtain ⟨y, hy, rfl⟩ := mem_keys.mp hk
      have hne : key y ≠ key x := ne_of_mem_filter hy
      rw [group_filter_ne hne, group, List.filter_cons,
        if_neg (by rw [decide_eq_false (Ne.symm hne)]; exact Bool.false_ne_true)]
      rfl
    rw [keys_cons, List.map_cons, List.sum_cons, List.map_congr_left hothers, ih]
    unfold group
    rw [List.filter_cons, if_pos (decide_eq_true rfl), List.map_cons, List.sum_cons,
      Nat.add_assoc, sum_filter_add w fun y => key y = key x, List.map_cons, List.sum_cons]

/-- Every item is in one group. -/
theorem sum_lengths (key : α → κ) (xs : List α) :
    ((keys key xs).map fun k => (group key k xs).length).sum = xs.length := by
  have h := sum_groups key (fun _ => 1) xs
  simpa using h

end Groups

/-! ## Disjoint intervals -/

/-- Disjoint intervals below `n` have at most `n` points. -/
theorem sum_intervals_le {lo hi : α → ℕ} {xs : List α} {n : ℕ}
    (hdisj : xs.Pairwise fun x y => hi x ≤ lo y ∨ hi y ≤ lo x) (hhi : ∀ x ∈ xs, hi x ≤ n) :
    (xs.map fun x => hi x - lo x).sum ≤ n := by
  have hnodup : (xs.flatMap fun x => List.range' (lo x) (hi x - lo x)).Nodup := by
    refine List.nodup_flatMap.mpr ⟨fun x _ => List.nodup_range', ?_⟩
    refine hdisj.imp fun hxy p hp hp' => ?_
    rw [List.mem_range'_1] at hp hp'
    omega
  have hsub : (xs.flatMap fun x => List.range' (lo x) (hi x - lo x)) ⊆ List.range n := by
    intro p hp
    obtain ⟨x, hx, hmem⟩ := List.mem_flatMap.mp hp
    have hle := hhi x hx
    rw [List.mem_range'_1] at hmem
    rw [List.mem_range]
    omega
  have hlen := (hnodup.subperm hsub).length_le
  simpa [List.length_flatMap] using hlen

end Redzone.Foundation
