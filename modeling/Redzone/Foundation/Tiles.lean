/-
  Foundation/Tiles.lean --- functions on addresses that are painted tile by tile.

  A tile is an interval of addresses with a value for each of them.  A function is tiled
  by a list of tiles if the tiles are disjoint, it has the value of a tile on the tile,
  and one blank value elsewhere.

  The rules say how a tiling changes when the function changes on one tile only: a tile
  is laid, taken up, or painted over.
-/
import Mathlib.Tactic

set_option autoImplicit false

namespace Redzone.Foundation

/-- The interval `[lo, hi)` with a value for each address. -/
structure Tile (V : Type) where
  lo : ℕ
  hi : ℕ
  val : ℕ → V

namespace Tile

variable {V : Type} {t t' : Tile V} {x : ℕ}

def Mem (t : Tile V) (x : ℕ) : Prop := t.lo ≤ x ∧ x < t.hi

def Disjoint (t t' : Tile V) : Prop := t.hi ≤ t'.lo ∨ t'.hi ≤ t.lo

instance (t : Tile V) (x : ℕ) : Decidable (t.Mem x) := inferInstanceAs (Decidable (_ ∧ _))

theorem Disjoint.symm (h : t.Disjoint t') : t'.Disjoint t := Or.symm h

instance : Std.Symm (Disjoint (V := V)) := ⟨fun _ _ h => h.symm⟩

theorem Disjoint.not_mem (h : t.Disjoint t') (hx : t.Mem x) : ¬ t'.Mem x := by
  rintro ⟨hlo, hhi⟩
  obtain ⟨hlo', hhi'⟩ := hx
  rcases h with h | h <;> omega

end Tile

/-- `f` has the value of each tile on it, and is blank elsewhere. -/
structure Tiling {V : Type} (f : ℕ → V) (blank : V) (ts : List (Tile V)) : Prop where
  inside : ∀ t ∈ ts, ∀ x, t.Mem x → f x = t.val x
  outside : ∀ x, (∀ t ∈ ts, ¬ t.Mem x) → f x = blank
  disjoint : ts.Pairwise Tile.Disjoint

namespace Tiling

variable {V : Type} {f f' : ℕ → V} {blank : V} {ts ts' : List (Tile V)} {t t' : Tile V} {x : ℕ}

theorem nil (h : ∀ x, f x = blank) : Tiling f blank [] :=
  ⟨by simp, fun x _ => h x, List.Pairwise.nil⟩

theorem perm (h : Tiling f blank ts) (hp : ts.Perm ts') : Tiling f blank ts' := by
  refine ⟨fun t ht => h.inside t (hp.mem_iff.mpr ht), fun x hx => ?_, ?_⟩
  · exact h.outside x fun t ht => hx t (hp.mem_iff.mp ht)
  · exact h.disjoint.perm hp fun hd => hd.symm

/-- An address is in one tile only. -/
theorem eq_of_mem (h : Tiling f blank ts) (ht : t ∈ ts) (ht' : t' ∈ ts) (hx : t.Mem x)
    (hx' : t'.Mem x) : t = t' := by
  by_contra hne
  exact (h.disjoint.forall ht ht' hne).not_mem hx hx'

/-- A tile is laid where no tile is. -/
theorem insert (h : Tiling f blank ts) (hdisj : ∀ t' ∈ ts, t.Disjoint t')
    (hf : ∀ x, f' x = if t.Mem x then t.val x else f x) : Tiling f' blank (t :: ts) := by
  refine ⟨?_, ?_, List.pairwise_cons.mpr ⟨hdisj, h.disjoint⟩⟩
  · intro t' ht' x hx
    rw [hf x]
    rcases List.mem_cons.mp ht' with rfl | ht'
    · rw [if_pos hx]
    · rw [if_neg ((hdisj t' ht').symm.not_mem hx)]
      exact h.inside t' ht' x hx
  · intro x hx
    rw [hf x, if_neg (hx t (List.mem_cons_self ..))]
    exact h.outside x fun t' ht' => hx t' (List.mem_cons_of_mem t ht')

/-- A tile is taken up: what was under it is blank. -/
theorem remove (h : Tiling f blank (t :: ts))
    (hf : ∀ x, f' x = if t.Mem x then blank else f x) : Tiling f' blank ts := by
  obtain ⟨hdisj, hpair⟩ := List.pairwise_cons.mp h.disjoint
  refine ⟨?_, ?_, hpair⟩
  · intro t' ht' x hx
    rw [hf x, if_neg ((hdisj t' ht').symm.not_mem hx)]
    exact h.inside t' (List.mem_cons_of_mem t ht') x hx
  · intro x hx
    rw [hf x]
    split
    · rfl
    · rename_i hnot
      refine h.outside x fun t' ht' => ?_
      rcases List.mem_cons.mp ht' with rfl | ht'
      · exact hnot
      · exact hx t' ht'

/-- A tile is painted over. -/
theorem replace (h : Tiling f blank (t :: ts)) (hlo : t'.lo = t.lo) (hhi : t'.hi = t.hi)
    (hf : ∀ x, f' x = if t'.Mem x then t'.val x else f x) : Tiling f' blank (t' :: ts) := by
  obtain ⟨hdisj, hpair⟩ := List.pairwise_cons.mp h.disjoint
  have hmem : ∀ x, t'.Mem x ↔ t.Mem x := by
    intro x
    unfold Tile.Mem
    rw [hlo, hhi]
  have hrest : Tiling (fun x => if t.Mem x then blank else f x) blank ts := h.remove fun _ => rfl
  refine hrest.insert ?_ fun x => ?_
  · intro t'' ht''
    unfold Tile.Disjoint
    rw [hlo, hhi]
    exact hdisj t'' ht''
  · rw [hf x]
    by_cases hx : t.Mem x
    · rw [if_pos ((hmem x).mpr hx)]
      rw [if_pos ((hmem x).mpr hx)]
    · have hx' : ¬ t'.Mem x := fun hx' => hx ((hmem x).mp hx')
      rw [if_neg hx', if_neg hx', if_neg hx]

end Tiling

end Redzone.Foundation
