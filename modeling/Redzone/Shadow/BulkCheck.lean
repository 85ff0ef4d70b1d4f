/-
  Shadow/BulkCheck.lean --- the two-byte check on ranges of any length.

  The wrappers of `memcpy`, `memmove` and `memset` test the first and the last byte of
  a range.  That decides every byte of the range exactly when no guard of an object lies
  in the range as a whole: a guard is an interval of poisoned bytes, and one that
  reaches beyond the range covers its first or its last byte.
-/
import Redzone.Shadow.Exact

set_option autoImplicit false

namespace Redzone.Shadow

open Redzone.Foundation

/-! ## Ranges -/

/-- `x` is one of the `n` bytes from `a` on, in the arithmetic of `uintptr_t`. -/
def InRange (a n x : ℕ) : Prop := ∃ i < n, (a + i) % wordSize = x

/-- Two bytes of a range decide: if the check passes, every byte is addressable. -/
def CheckDecides (s : Rt) (a n : ℕ) (isWrite : Bool) (file : Option String) (line : ℤ) : Prop :=
  redzoneCheck s a n isWrite file line = .ok () →
    ∀ x, InRange a n x → bytePoisoned s.shadow x = false

/-- A guard of an object lies in the range as a whole: its left or right red zone while
it is live, its whole extent once it is freed. -/
def World.GuardInside (w : World) (a n : ℕ) : Prop :=
  ∃ o ∈ w.objs, ∃ g ∈ o.region.guardIntervals, g.1 < g.2 ∧
    ∀ x, g.1 ≤ x → x < g.2 → InRange a n x

section Range

variable {a n x : ℕ}

/-- An interval that meets a range and has neither its first nor its last byte lies in
the range. -/
theorem inRange_of_interval {lo hi y : ℕ} (ha : a < wordSize) (hn : 0 < n) (hlt : n < wordSize)
    (hhi : hi ≤ wordSize) (hx : InRange a n x) (hlo : lo ≤ x) (hxhi : x < hi)
    (hfirst : ¬ (lo ≤ a ∧ a < hi))
    (hlast : ¬ (lo ≤ (a + n - 1) % wordSize ∧ (a + n - 1) % wordSize < hi))
    (hy : lo ≤ y) (hyhi : y < hi) : InRange a n y := by
  obtain ⟨i, hi', rfl⟩ := hx
  simp only [InRange, wordSize] at *
  rcases Nat.lt_or_ge y a with hya | hay
  · -- behind the wrap
    refine ⟨y + 2 ^ 64 - a, ?_, ?_⟩ <;> omega
  · refine ⟨y - a, ?_, ?_⟩ <;> omega

end Range

/-! ## When two bytes suffice -/

section Decides

variable {w : World} {a n : ℕ} {isWrite : Bool} {file : Option String} {line : ℤ}

/-- Objects end below `SHADOW_LIMIT`, and so do their guards. -/
theorem World.Inv.guard_le (h : w.Inv) {o : Obj} (ho : o ∈ w.objs) {g : ℕ × ℕ}
    (hg : g ∈ o.region.guardIntervals) : g.2 ≤ wordSize := by
  have hok := h.ok o ho
  have htop := hok.top_le
  have hwf := hok.wf
  have hround : roundUp8 o.top ≤ wordSize := by
    simp only [roundUp8, shadowLimit, wordSize] at htop ⊢
    omega
  have hhi : o.region.hi ≤ wordSize := hround
  have hin := hwf.inner_le
  have hle := hwf.le_hi
  unfold Region.guardIntervals at hg
  split at hg
  · rcases List.mem_pair.mp hg with rfl | rfl
    · exact (hin.trans hle).trans hhi
    · exact hhi
  · obtain rfl := List.mem_singleton.mp hg
    exact hhi

theorem World.Inv.poisoned_of_guard (h : w.Inv) {o : Obj} (ho : o ∈ w.objs) {g : ℕ × ℕ}
    (hg : g ∈ o.region.guardIntervals) {x : ℕ} (hx : g.1 ≤ x ∧ x < g.2) :
    bytePoisoned w.rt.shadow x = true :=
  h.tiled.exists_interval.mpr ⟨o.region, List.mem_map_of_mem ho, g, hg, hx⟩

/-- The check decides a range if one of the two bytes it reads is poisoned, or no guard
lies in the range as a whole; and only then. -/
theorem World.Inv.checkDecides_iff (h : w.Inv) (ha : a < wordSize) (hn : 0 < n)
    (hlt : n < wordSize) :
    CheckDecides w.rt a n isWrite file line ↔
      bytePoisoned w.rt.shadow a = true ∨
      bytePoisoned w.rt.shadow ((a + n - 1) % wordSize) = true ∨ ¬ w.GuardInside a n := by
  unfold CheckDecides
  rw [redzoneCheck_ok hn]
  constructor
  · intro hdecides
    by_contra hno
    obtain ⟨hfirst, hno⟩ := not_or.mp hno
    obtain ⟨hlast, hinside⟩ := not_or.mp hno
    obtain ⟨o, ho, g, hg, hne, hall⟩ := not_not.mp hinside
    have hbad := h.poisoned_of_guard ho hg ⟨le_rfl, hne⟩
    have hok := hdecides ⟨by simpa using hfirst, by simpa using hlast⟩ g.1 (hall g.1 le_rfl hne)
    rw [hbad] at hok
    simp at hok
  · rintro hcond ⟨hfirst, hlast⟩ x hx
    rcases hcond with hbad | hbad | hinside
    · simp [hbad] at hfirst
    · simp [hbad] at hlast
    · by_contra hbad
      obtain ⟨r, hr, g, hg, hxg⟩ := h.tiled.exists_interval.mp (by simpa using hbad)
      obtain ⟨o, ho, rfl⟩ := List.mem_map.mp hr
      -- the guard of `x` covers neither end, so it lies inside
      refine hinside ⟨o, ho, g, hg, hxg.1.trans_lt hxg.2, fun y hlo hhi => ?_⟩
      refine inRange_of_interval ha hn hlt (h.guard_le ho hg) hx hxg.1 hxg.2 ?_ ?_ hlo hhi
      · intro hcover
        simp [h.poisoned_of_guard ho hg hcover] at hfirst
      · intro hcover
        simp [h.poisoned_of_guard ho hg hcover] at hlast

/-- No guard is smaller than a red zone. -/
theorem World.Inv.guard_size (h : w.Inv) {o : Obj} (ho : o ∈ w.objs) {g : ℕ × ℕ}
    (hg : g ∈ o.region.guardIntervals) (hne : g.1 < g.2) : g.1 + redzoneSize ≤ g.2 := by
  have hok := h.ok o ho
  have hleft := hok.left
  have hguard := hok.guard
  have huser := hok.user_le
  have hlo := hok.lo_le
  have hround : o.top ≤ roundUp8 o.top := by
    simp only [roundUp8]
    omega
  unfold Region.guardIntervals at hg
  split at hg
  · rcases List.mem_pair.mp hg with rfl | rfl
    · simp only [Obj.region] at hne ⊢
      exact hleft.resolve_left fun heq => absurd hne (by simp [heq])
    · exact hguard.trans hround
  · obtain rfl := List.mem_singleton.mp hg
    exact (Nat.add_le_add_right (hlo.trans huser) _).trans (hguard.trans hround)

/-- Loads and stores of at most 17 bytes are decided: a red zone does not fit between
their first and their last byte. -/
theorem World.Inv.checkDecides_of_le (h : w.Inv) (ha : a < wordSize) (hn : 0 < n)
    (hle : n ≤ redzoneSize + 1) : CheckDecides w.rt a n isWrite file line := by
  have hlt : n < wordSize := by
    simp only [redzoneSize, wordSize] at hle ⊢
    omega
  rw [h.checkDecides_iff ha hn hlt]
  by_contra hno
  obtain ⟨hfirst, hno⟩ := not_or.mp hno
  obtain ⟨hlast, hinside⟩ := not_or.mp hno
  obtain ⟨o, ho, g, hg, hne, hall⟩ := not_not.mp hinside
  have hsize := h.guard_size ho hg hne
  have hend := h.guard_le ho hg
  have hnot : ∀ x, ¬ bytePoisoned w.rt.shadow x = true → ¬ (g.1 ≤ x ∧ x < g.2) :=
    fun x hx hxg => hx (h.poisoned_of_guard ho hg hxg)
  obtain ⟨i, hi, hfst⟩ := hall g.1 le_rfl hne
  obtain ⟨j, hj, hlst⟩ := hall (g.2 - 1) (by omega) (by omega)
  have hnfirst := hnot _ hfirst
  have hnlast := hnot _ hlast
  simp only [redzoneSize, wordSize] at *
  omega

end Decides

/-- For every reachable state and every range, the check decides exactly if one of the
two bytes it reads is poisoned or no guard lies in the range as a whole. -/
theorem bulkCheck_decides_iff {ops : List Op} {w : World} (hw : worldRun ops = some w) {a n : ℕ}
    (ha : a < wordSize) (hn : 0 < n) (hlt : n < wordSize) (isWrite : Bool)
    (file : Option String) (line : ℤ) :
    CheckDecides w.rt a n isWrite file line ↔
      bytePoisoned w.rt.shadow a = true ∨
      bytePoisoned w.rt.shadow ((a + n - 1) % wordSize) = true ∨ ¬ w.GuardInside a n :=
  (World.inv_of_run hw).checkDecides_iff ha hn hlt

/-- Two blocks of 8 bytes, one after the other. -/
def twoBlocks : List Op :=
  [.heap (.malloc 8 none 0 ⟨some 0x1000, true⟩), .heap (.malloc 8 none 0 ⟨some 0x1030, true⟩)]

theorem bulkCheck_decides_twoBlocks : ∃ w, worldRun twoBlocks = some w ∧
    (CheckDecides w.rt 0x1010 8 true none 0 ↔
      bytePoisoned w.rt.shadow 0x1010 = true ∨
      bytePoisoned w.rt.shadow ((0x1010 + 8 - 1) % wordSize) = true ∨
      ¬ w.GuardInside 0x1010 8) := by
  have hsome : (worldRun twoBlocks).isSome = true := by decide +kernel
  obtain ⟨w, hw⟩ := Option.isSome_iff_exists.mp hsome
  exact ⟨w, hw, bulkCheck_decides_iff hw (by decide) (by decide) (by decide) true none 0⟩

/-- A `memset` from the first block into the second passes over the red zones between
them: it is performed, although byte `0x1018` of its range is poisoned. -/
theorem memset_over_redZone : ∃ w, worldRun twoBlocks = some w ∧
    redzoneCheck w.rt 0x1010 0x31 true none 0 = .ok () ∧
    (∃ r, redzoneMemset w.rt 0x1010 0 0x31 none 0 = .ok r) ∧
    InRange 0x1010 0x31 0x1018 ∧ bytePoisoned w.rt.shadow 0x1018 = true := by
  have hany : (worldRun twoBlocks).any (fun w => !bytePoisoned w.rt.shadow 0x1010 &&
      !bytePoisoned w.rt.shadow 0x1040 && bytePoisoned w.rt.shadow 0x1018) = true := by
    decide +kernel
  obtain ⟨w, hw, hbytes⟩ := (Option.any_eq_true ..).mp hany
  simp only [Bool.and_eq_true, Bool.not_eq_true'] at hbytes
  have hcheck : redzoneCheck w.rt 0x1010 0x31 true none 0 = .ok () :=
    (redzoneCheck_ok (by decide)).mpr hbytes.1
  exact ⟨w, hw, hcheck, ⟨_, redzoneMemset_eq hcheck⟩, ⟨8, by decide, by decide⟩, hbytes.2⟩

end Redzone.Shadow
