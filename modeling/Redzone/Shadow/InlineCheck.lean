/-
  Shadow/InlineCheck.lean --- the test that the pass puts before every load and store.

  `RedzonePass::run` emits the fast path of the check inline: it loads the shadow byte
  of the first and of the last byte of the access, and calls `__redzone_check` only if
  one of them is poisoned.  The emitted loads have no range guard; a load outside the
  reservation of `SHADOW_BYTES` bytes has no value here (`none`).
-/
import Redzone.Shadow.BulkCheck

set_option autoImplicit false

namespace Redzone.Shadow

open Redzone.Foundation

/-! ## The emitted code -/

/-- `poisoned`: the test of one byte. -/
def inlinePoisoned (sh : ShadowMap) (addr : ℕ) : Option Bool :=
  let idx := addr / 8
  if idx < shadowBytes then
    let sb := sh idx
    let off : ℤ := (addr % 8 : ℕ)
    some (sb != 0 && decide (off ≥ sb))
  else none

/-- `Bad`: the condition of the branch to `__redzone_check`. -/
def inlineTest (sh : ShadowMap) (addr size : ℕ) : Option Bool :=
  match inlinePoisoned sh addr with
  | none => none
  | some bad =>
    if size > 1 then
      match inlinePoisoned sh ((addr + (size - 1)) % wordSize) with
      | none => none
      | some bad' => some (bad || bad')
    else some bad

section Inline

variable {sh : ShadowMap} {addr size : ℕ} {bad : Bool}

/-- Where the load is inside the reservation, the test is `byte_poisoned`. -/
theorem inlinePoisoned_of_lt (h : addr < shadowLimit) :
    inlinePoisoned sh addr = some (bytePoisoned sh addr) := by
  have hidx : addr / 8 < shadowBytes := by
    simp only [shadowLimit, shadowBytes] at *
    omega
  unfold inlinePoisoned bytePoisoned shadowLoad
  simp only [hidx, if_true]
  congr 1
  rcases lt_trichotomy (sh (addr / 8)) 0 with hneg | hzero | hpos
  · have hle : sh (addr / 8) ≤ (addr : ℤ) % 8 := by omega
    simp [hneg, hneg.ne, hle]
  · simp [hzero]
  · simp [hpos.ne', hpos.not_gt]

/-- Beyond `SHADOW_LIMIT` the load is outside the reservation. -/
theorem inlinePoisoned_of_le (h : shadowLimit ≤ addr) : inlinePoisoned sh addr = none := by
  have hidx : ¬ addr / 8 < shadowBytes := by
    simp only [shadowLimit, shadowBytes] at *
    omega
  unfold inlinePoisoned
  rw [if_neg hidx]

/-- Beyond `SHADOW_LIMIT` nothing is poisoned. -/
theorem bytePoisoned_of_le (h : shadowLimit ≤ addr) : bytePoisoned sh addr = false := by
  have hidx : ¬ addr / 8 < shadowBytes := by
    simp only [shadowLimit, shadowBytes] at *
    omega
  simp [bytePoisoned, shadowLoad, hidx]

/-- Inside the reservation the branch is taken if the first or the last byte is
poisoned. -/
theorem inlineTest_eq (hsize : 0 < size) (hfirst : addr < shadowLimit)
    (hlast : (addr + size - 1) % wordSize < shadowLimit) :
    inlineTest sh addr size =
      some (bytePoisoned sh addr || bytePoisoned sh ((addr + size - 1) % wordSize)) := by
  have hmod : addr % wordSize = addr :=
    Nat.mod_eq_of_lt (hfirst.trans (by simp only [shadowLimit, wordSize]; norm_num))
  unfold inlineTest
  rw [inlinePoisoned_of_lt hfirst]
  by_cases hone : size > 1
  · have hsum : addr + (size - 1) = addr + size - 1 := by omega
    simp only [hone, if_true, hsum, inlinePoisoned_of_lt hlast]
  · obtain rfl : size = 1 := by omega
    simp [hmod]

end Inline

/-! ## Exactness -/

section Exact

variable {w : World} {a size : ℕ} {isWrite : Bool} {file : Option String} {line : ℤ}

/-- A flagged access does not pass `__redzone_check`. -/
theorem redzoneCheck_flags (hsize : 0 < size)
    (hflag : (bytePoisoned w.rt.shadow a ||
      bytePoisoned w.rt.shadow ((a + size - 1) % wordSize)) = true) :
    ∃ r, redzoneCheck w.rt a size isWrite file line = .error (.access r) := by
  have hnot : ¬ redzoneCheck w.rt a size isWrite file line = .ok () := by
    rw [redzoneCheck_ok hsize]
    rintro ⟨hfirst, hlast⟩
    simp [hfirst, hlast] at hflag
  unfold redzoneCheck at hnot ⊢
  rw [if_neg hsize.ne'] at hnot ⊢
  simp only at hnot ⊢
  split
  · rename_i hpass
    rw [if_pos hpass] at hnot
    exact absurd rfl hnot
  · split
    · exact ⟨_, rfl⟩
    · exact ⟨_, rfl⟩

/-- A small access with a poisoned byte has a poisoned byte at one of its ends. -/
theorem World.Inv.flagged_iff (h : w.Inv) (hsize : 0 < size) (hle : size ≤ redzoneSize + 1)
    (hend : a + size - 1 < shadowLimit) :
    (bytePoisoned w.rt.shadow a ||
      bytePoisoned w.rt.shadow ((a + size - 1) % wordSize)) = true ↔
      ∃ x, a ≤ x ∧ x < a + size ∧ bytePoisoned w.rt.shadow x = true := by
  simp only [shadowLimit] at hend
  have hlt : a < wordSize := by
    simp only [wordSize]
    omega
  have hmod : (a + size - 1) % wordSize = a + size - 1 :=
    Nat.mod_eq_of_lt (by simp only [wordSize]; omega)
  rw [Bool.or_eq_true]
  constructor
  · rintro (hfirst | hlast)
    · exact ⟨a, le_rfl, by omega, hfirst⟩
    · exact ⟨a + size - 1, by omega, by omega, by rw [← hmod]; exact hlast⟩
  · rintro ⟨x, hlo, hhi, hbad⟩
    by_contra hno
    obtain ⟨hfirst, hlast⟩ := not_or.mp hno
    -- both ends are addressable, so the check decides the whole range
    have hpass : redzoneCheck w.rt a size false none 0 = .ok () :=
      (redzoneCheck_ok hsize).mpr ⟨by simpa using hfirst, by simpa using hlast⟩
    have hin : InRange a size x :=
      ⟨x - a, by omega, by
        rw [Nat.add_sub_cancel' hlo, Nat.mod_eq_of_lt]
        simp only [wordSize]
        omega⟩
    have hok := h.checkDecides_of_le hlt hsize hle hpass x hin
    rw [hbad] at hok
    simp at hok

/-- Scalar checks are exact: the inline test stays inside the reservation, branches to
`__redzone_check` if and only if some byte of the access is poisoned, and then
`__redzone_check` reports the access. -/
theorem inlineTest_exact {ops : List Op} (hw : worldRun ops = some w) (hsize : 1 ≤ size)
    (hle : size ≤ 16) (hend : a + size - 1 < 2 ^ 47) (isWrite : Bool) (file : Option String)
    (line : ℤ) :
    inlineTest w.rt.shadow a size ≠ none ∧
    (inlineTest w.rt.shadow a size = some true ↔
      ∃ x, a ≤ x ∧ x < a + size ∧ bytePoisoned w.rt.shadow x = true) ∧
    (inlineTest w.rt.shadow a size = some true →
      ∃ r, redzoneCheck w.rt a size isWrite file line = .error (.access r)) := by
  have hfirst : a < shadowLimit := by
    simp only [shadowLimit]
    omega
  have hlast : (a + size - 1) % wordSize < shadowLimit := by
    rw [Nat.mod_eq_of_lt (by simp only [wordSize]; omega)]
    exact hend
  rw [inlineTest_eq hsize hfirst hlast]
  refine ⟨by simp, ?_, ?_⟩
  · rw [Option.some_inj]
    exact (World.inv_of_run hw).flagged_iff hsize (by simp only [redzoneSize]; omega) hend
  · intro hflag
    exact redzoneCheck_flags hsize (Option.some.inj hflag)

end Exact

theorem inlineTest_exact_smallRun : ∃ w, worldRun smallRun = some w ∧
    inlineTest w.rt.shadow 0x7010 8 ≠ none ∧
    (inlineTest w.rt.shadow 0x7010 8 = some true ↔
      ∃ x, 0x7010 ≤ x ∧ x < 0x7010 + 8 ∧ bytePoisoned w.rt.shadow x = true) ∧
    (inlineTest w.rt.shadow 0x7010 8 = some true →
      ∃ r, redzoneCheck w.rt 0x7010 8 true none 0 = .error (.access r)) := by
  have hsome : (worldRun smallRun).isSome = true := by decide +kernel
  obtain ⟨w, hw⟩ := Option.isSome_iff_exists.mp hsome
  exact ⟨w, hw, inlineTest_exact hw (by decide) (by decide) (by decide) true none 0⟩

end Redzone.Shadow
