/-
  Foundation/Regions.lean --- guarded regions of an address space.

  A region is an extent of addresses around an inner range.  It guards the addresses
  of its extent, except those of the inner range while it is live.  A list of disjoint
  regions tiles a predicate on addresses if the predicate holds of the guarded
  addresses and of no others.

  The rules say how a tiling changes when one region is added, removed or replaced and
  the predicate changes inside the extent of that region only.
-/
import Redzone.Foundation.Word

set_option autoImplicit false

namespace Redzone.Foundation

/-- A region `[lo, hi)` around the inner range `[innerLo, innerHi)`. -/
structure Region where
  lo : ℕ
  hi : ℕ
  innerLo : ℕ
  innerHi : ℕ
  live : Bool
  deriving DecidableEq, Repr

namespace Region

/-- The inner range lies within the extent. -/
structure WF (r : Region) : Prop where
  lo_le : r.lo ≤ r.innerLo
  inner_le : r.innerLo ≤ r.innerHi
  le_hi : r.innerHi ≤ r.hi

def Mem (r : Region) (x : ℕ) : Prop := r.lo ≤ x ∧ x < r.hi

/-- The address is in the inner range of a live region. -/
def User (r : Region) (x : ℕ) : Prop := r.live = true ∧ r.innerLo ≤ x ∧ x < r.innerHi

def Guards (r : Region) (x : ℕ) : Prop := r.Mem x ∧ ¬ r.User x

def Disjoint (r r' : Region) : Prop := r.hi ≤ r'.lo ∨ r'.hi ≤ r.lo

instance (r : Region) (x : ℕ) : Decidable (r.Mem x) := inferInstanceAs (Decidable (_ ∧ _))
instance (r : Region) (x : ℕ) : Decidable (r.User x) := inferInstanceAs (Decidable (_ ∧ _))
instance (r : Region) (x : ℕ) : Decidable (r.Guards x) := inferInstanceAs (Decidable (_ ∧ _))

variable {r r' : Region} {x : ℕ}

theorem Disjoint.symm (h : r.Disjoint r') : r'.Disjoint r := Or.symm h

instance : Std.Symm Region.Disjoint := ⟨fun _ _ h => h.symm⟩

theorem Disjoint.not_mem (h : r.Disjoint r') (hx : r.Mem x) : ¬ r'.Mem x := by
  rintro ⟨hlo, hhi⟩
  obtain ⟨hlo', hhi'⟩ := hx
  rcases h with h | h <;> omega

theorem WF.mem_of_user (hwf : r.WF) (hx : r.User x) : r.Mem x := by
  obtain ⟨-, hlo, hhi⟩ := hx
  exact ⟨hwf.lo_le.trans hlo, hhi.trans_le hwf.le_hi⟩

/-- The intervals that a region guards: left and right of the inner range while it is
live, the whole extent afterwards. -/
def guardIntervals (r : Region) : List (ℕ × ℕ) :=
  if r.live then [(r.lo, r.innerLo), (r.innerHi, r.hi)] else [(r.lo, r.hi)]

theorem WF.guards_iff (hwf : r.WF) :
    r.Guards x ↔ ∃ g ∈ r.guardIntervals, g.1 ≤ x ∧ x < g.2 := by
  have hlo := hwf.lo_le
  have hin := hwf.inner_le
  have hhi := hwf.le_hi
  unfold guardIntervals Guards Mem User
  cases r.live with
  | true =>
      simp only [true_and, if_true, List.mem_cons, List.not_mem_nil, or_false,
        exists_eq_or_imp, exists_eq_left]
      omega
  | false => simp

end Region

/-- The regions are well formed and disjoint, and `bad` holds of what they guard. -/
structure Tiled (bad : ℕ → Prop) (rs : List Region) : Prop where
  bad_iff : ∀ x, bad x ↔ ∃ r ∈ rs, r.Guards x
  wf : ∀ r ∈ rs, r.WF
  disjoint : rs.Pairwise Region.Disjoint

section Tiled

variable {bad bad' : ℕ → Prop} {rs rs' : List Region} {r r' : Region} {x : ℕ}

theorem tiled_nil (h : ∀ x, ¬ bad x) : Tiled bad [] :=
  ⟨by simpa using h, by simp, List.Pairwise.nil⟩

theorem Tiled.congr (h : Tiled bad rs) (hbad : ∀ x, bad' x ↔ bad x) : Tiled bad' rs :=
  ⟨fun x => (hbad x).trans (h.bad_iff x), h.wf, h.disjoint⟩

theorem Tiled.perm (h : Tiled bad rs) (hp : rs.Perm rs') : Tiled bad rs' := by
  refine ⟨fun x => ?_, fun r hr => h.wf r (hp.mem_iff.mpr hr), ?_⟩
  · rw [h.bad_iff]
    simp only [hp.mem_iff]
  · exact h.disjoint.perm hp fun hd => hd.symm

/-- Adding a region: `bad` becomes what the region guards within its extent. -/
theorem Tiled.insert (h : Tiled bad rs) (hwf : r.WF) (hdisj : ∀ r' ∈ rs, r.Disjoint r')
    (hin : ∀ x, r.Mem x → (bad' x ↔ r.Guards x)) (hout : ∀ x, ¬ r.Mem x → (bad' x ↔ bad x)) :
    Tiled bad' (r :: rs) := by
  refine ⟨fun x => ?_, ?_, List.pairwise_cons.mpr ⟨hdisj, h.disjoint⟩⟩
  · by_cases hx : r.Mem x
    · rw [hin x hx]
      constructor
      · exact fun hg => ⟨r, List.mem_cons_self .., hg⟩
      · rintro ⟨r', hr', hg⟩
        rcases List.mem_cons.mp hr' with rfl | hr'
        · exact hg
        · exact absurd hg.1 ((hdisj r' hr').not_mem hx)
    · rw [hout x hx, h.bad_iff]
      constructor
      · rintro ⟨r', hr', hg⟩
        exact ⟨r', List.mem_cons_of_mem r hr', hg⟩
      · rintro ⟨r', hr', hg⟩
        rcases List.mem_cons.mp hr' with rfl | hr'
        · exact absurd hg.1 hx
        · exact ⟨r', hr', hg⟩
  · intro r' hr'
    rcases List.mem_cons.mp hr' with rfl | hr'
    · exact hwf
    · exact h.wf r' hr'

/-- Removing a region: nothing of its extent is bad any more. -/
theorem Tiled.remove (h : Tiled bad (r :: rs)) (hin : ∀ x, r.Mem x → ¬ bad' x)
    (hout : ∀ x, ¬ r.Mem x → (bad' x ↔ bad x)) : Tiled bad' rs := by
  obtain ⟨hdisj, hpair⟩ := List.pairwise_cons.mp h.disjoint
  refine ⟨fun x => ?_, fun r' hr' => h.wf r' (List.mem_cons_of_mem r hr'), hpair⟩
  by_cases hx : r.Mem x
  · refine iff_of_false (hin x hx) ?_
    rintro ⟨r', hr', hg⟩
    exact (hdisj r' hr').not_mem hx hg.1
  · rw [hout x hx, h.bad_iff]
    constructor
    · rintro ⟨r', hr', hg⟩
      rcases List.mem_cons.mp hr' with rfl | hr'
      · exact absurd hg.1 hx
      · exact ⟨r', hr', hg⟩
    · rintro ⟨r', hr', hg⟩
      exact ⟨r', List.mem_cons_of_mem r hr', hg⟩

/-- Replacing a region by one of the same extent. -/
theorem Tiled.replace (h : Tiled bad (r :: rs)) (hwf : r'.WF)
    (hmem : ∀ x, r'.Mem x ↔ r.Mem x) (hdisj : ∀ r'' ∈ rs, r'.Disjoint r'')
    (hin : ∀ x, r'.Mem x → (bad' x ↔ r'.Guards x))
    (hout : ∀ x, ¬ r'.Mem x → (bad' x ↔ bad x)) : Tiled bad' (r' :: rs) := by
  have hrest : Tiled (fun x => ¬ r.Mem x ∧ bad x) rs := by
    refine h.remove (fun x hx hb => hb.1 hx) fun x hx => ?_
    exact and_iff_right hx
  refine hrest.insert hwf hdisj hin fun x hx => (hout x hx).trans ?_
  exact (and_iff_right fun hr => hx ((hmem x).mpr hr)).symm

/-- Disjoint regions: an address is in the extent of one of them only. -/
theorem Tiled.eq_of_mem (h : Tiled bad rs) (hr : r ∈ rs) (hr' : r' ∈ rs) (hx : r.Mem x)
    (hx' : r'.Mem x) : r = r' := by
  by_contra hne
  exact (h.disjoint.forall hr hr' hne).not_mem hx hx'

/-- In the extent of a region, the region decides. -/
theorem Tiled.bad_of_mem (h : Tiled bad rs) (hr : r ∈ rs) (hx : r.Mem x) :
    bad x ↔ ¬ r.User x := by
  rw [h.bad_iff]
  constructor
  · rintro ⟨r', hr', hg⟩
    obtain rfl := h.eq_of_mem hr hr' hx hg.1
    exact hg.2
  · exact fun hu => ⟨r, hr, hx, hu⟩

/-- A bad address lies in an interval of bad addresses that a region guards. -/
theorem Tiled.exists_interval (h : Tiled bad rs) :
    bad x ↔ ∃ r ∈ rs, ∃ g ∈ r.guardIntervals, g.1 ≤ x ∧ x < g.2 := by
  rw [h.bad_iff]
  constructor
  · rintro ⟨r, hr, hg⟩
    exact ⟨r, hr, (h.wf r hr).guards_iff.mp hg⟩
  · rintro ⟨r, hr, hg⟩
    exact ⟨r, hr, (h.wf r hr).guards_iff.mpr hg⟩

end Tiled

end Redzone.Foundation
