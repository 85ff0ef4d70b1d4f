/-
  Shadow/Memory.lean --- the shadow of `runtime/redzone_rt.c`.

  One signed shadow byte per aligned 8-byte chunk of application memory: 0 if all of
  the chunk is addressable, 1 to 7 if that many leading bytes are, negative if none is.
  The shadow covers the addresses below `SHADOW_LIMIT`; beyond it stores are dropped
  and loads give 0.  `mmap` has reserved the shadow before anything runs, so the model
  has no state in which it is missing.

  The operations come first, as the source has them with their 64-bit arithmetic, then
  what each does to the shadow byte of a chunk and to the predicate `bytePoisoned`.
-/
import Redzone.Foundation.Word

set_option autoImplicit false

namespace Redzone.Shadow

open Redzone.Foundation

/-! ## Operations -/

/-- `REDZONE_SIZE`. -/
abbrev redzoneSize : ℕ := 16

/-- `RZ_POISON`: heap red zone. -/
abbrev rzPoison : ℤ := -6

/-- `STACK_RZ`. -/
abbrev stackRz : ℤ := -15

/-- `GLOBAL_RZ`. -/
abbrev globalRz : ℤ := -7

/-- `FREED_POISON`. -/
abbrev freedPoison : ℤ := -3

/-- `SHADOW_LIMIT`: the covered 47-bit user space. -/
abbrev shadowLimit : ℕ := 2 ^ 47

/-- `SHADOW_BYTES`. -/
abbrev shadowBytes : ℕ := 2 ^ 44

/-- The shadow bytes by chunk number. -/
abbrev ShadowMap : Type := ℕ → ℤ

/-- The shadow as `mmap` hands it out. -/
def ShadowMap.zero : ShadowMap := fun _ => 0

/-- `shadow_load`. -/
def shadowLoad (sh : ShadowMap) (app : ℕ) : ℤ :=
  if app / 8 < shadowBytes then sh (app / 8) else 0

/-- `set_shadow_byte`. -/
def setShadowByte (sh : ShadowMap) (app : ℕ) (val : ℤ) : ShadowMap :=
  if app / 8 < shadowBytes then Function.update sh (app / 8) val else sh

/-- `set_shadow_range`: the chunks that overlap `[start, start + len)`.  The number of
bytes handed to `memset` is a `size_t`. -/
def setShadowRange (sh : ShadowMap) (start len : ℕ) (val : ℤ) : ShadowMap :=
  if len = 0 then sh
  else
    let lo := clearLow start 8 / 8
    let hi := clearLow ((start + len + 7) % wordSize) 8 / 8
    if shadowBytes ≤ lo then sh
    else
      let hi := if hi > shadowBytes then shadowBytes else hi
      let count := (hi + wordSize - lo) % wordSize
      fun i => if lo ≤ i ∧ i < lo + count then val else sh i

/-- `byte_poisoned`: is the byte at `app` off-limits? -/
def bytePoisoned (sh : ShadowMap) (app : ℕ) : Bool :=
  let sv := shadowLoad sh app
  if sv = 0 then false
  else if sv < 0 then true
  else decide (sv ≤ (app % 8 : ℕ))

/-- The carving that follows every poisoning: the user bytes become addressable, the
last chunk only as far as they reach. -/
def carveUser (sh : ShadowMap) (user size : ℕ) : ShadowMap :=
  let aligned := clearLow size 8
  let rem := size % 8
  let sh := if aligned ≠ 0 then setShadowRange sh user aligned 0 else sh
  if rem ≠ 0 then setShadowByte sh ((user + aligned) % wordSize) rem else sh

section Operations

variable {sh : ShadowMap} {start len x user size : ℕ} {val : ℤ}

/-! ## What the operations do to chunks -/

@[simp] theorem setShadowRange_zero_len : setShadowRange sh start 0 val = sh := if_pos rfl

/-- Beyond the shadow a load gives 0. -/
theorem shadowLoad_of_le (h : shadowLimit ≤ x) : shadowLoad sh x = 0 := by
  have hidx : ¬ x / 8 < shadowBytes := by
    simp only [shadowLimit, shadowBytes] at *
    omega
  rw [shadowLoad, if_neg hidx]

/-- A range that is set, in any place: the stores beyond the shadow are dropped. -/
theorem shadowLoad_setShadowRange_any (hlen : 0 < len) (hend : start + len ≤ wordSize)
    (hwrap : 8 ≤ start ∨ start + len + 7 < wordSize) :
    shadowLoad (setShadowRange sh start len val) x =
      if x < shadowLimit ∧ start / 8 ≤ x / 8 ∧ x / 8 < (start + len + 7) / 8 then val
      else shadowLoad sh x := by
  have hlo : clearLow start 8 / 8 = start / 8 := by
    rw [clearLow_eight (by omega), Nat.mul_div_cancel _ (by omega)]
  have hhi : clearLow ((start + len + 7) % wordSize) 8 / 8 =
      (start + len + 7) % wordSize / 8 := by
    rw [clearLow_eight (Nat.mod_lt _ (by decide)), Nat.mul_div_cancel _ (by omega)]
  unfold setShadowRange shadowLoad
  simp only [hlo, hhi, Nat.ne_of_gt hlen, if_false]
  simp only [shadowBytes, shadowLimit, wordSize] at *
  by_cases hx : x / 8 < 2 ^ 44
  · have hlt : x < 2 ^ 47 := by omega
    simp only [hx, hlt, if_true, true_and]
    split
    · rename_i hout
      have hnot : ¬ (start / 8 ≤ x / 8 ∧ x / 8 < (start + len + 7) / 8) := by omega
      rw [if_neg hnot]
    · rename_i hin
      refine if_congr ?_ rfl rfl
      split <;> omega
  · have hge : ¬ x < 2 ^ 47 := by omega
    rw [if_neg hx, if_neg (fun h => hge h.1), if_neg hx]

/-- The same for a range below `SHADOW_LIMIT`. -/
theorem shadowLoad_setShadowRange (hlen : 0 < len) (hend : start + len ≤ shadowLimit) :
    shadowLoad (setShadowRange sh start len val) x =
      if start / 8 ≤ x / 8 ∧ x / 8 < (start + len + 7) / 8 then val else shadowLoad sh x := by
  have hfits : start + len + 7 < wordSize := by
    simp only [shadowLimit, wordSize] at *
    omega
  simp only [shadowLimit] at hend
  rw [shadowLoad_setShadowRange_any hlen (by omega) (.inr hfits)]
  refine if_congr ?_ rfl rfl
  simp only [shadowLimit]
  omega

/-- A single chunk that is set. -/
theorem shadowLoad_setShadowByte {app : ℕ} :
    shadowLoad (setShadowByte sh app val) x =
      if x < shadowLimit ∧ x / 8 = app / 8 then val else shadowLoad sh x := by
  unfold setShadowByte shadowLoad
  by_cases hin : x / 8 < shadowBytes
  · have hlt : x < shadowLimit := by
      simp only [shadowLimit, shadowBytes] at *
      omega
    by_cases heq : x / 8 = app / 8
    · rw [← heq]
      simp [hin, hlt]
    · have hne : ¬ (x < shadowLimit ∧ x / 8 = app / 8) := fun h => heq h.2
      simp only [hin, hne, if_true, if_false]
      split
      · rw [Function.update_of_ne heq]
      · rfl
  · have hge : ¬ x < shadowLimit := by
      simp only [shadowLimit, shadowBytes] at *
      omega
    simp [hin, hge]

/-- Carving, in any place. -/
theorem shadowLoad_carveUser_any (sh : ShadowMap) (x : ℕ) (huser : user % 8 = 0)
    (hend : user + size < wordSize) (hwrap : 8 ≤ user ∨ user + size + 15 < wordSize) :
    shadowLoad (carveUser sh user size) x =
      if x < shadowLimit ∧ user ≤ x ∧ x < user + roundUp8 size then
        if x / 8 * 8 + 8 ≤ user + size then 0 else ((user + size - x / 8 * 8 : ℕ) : ℤ)
      else shadowLoad sh x := by
  have haligned : clearLow size 8 = size / 8 * 8 := clearLow_eight (by omega)
  have hmod : (user + size / 8 * 8) % wordSize = user + size / 8 * 8 :=
    Nat.mod_eq_of_lt (by omega)
  -- the whole chunks
  have hwhole : shadowLoad
      (if size / 8 * 8 ≠ 0 then setShadowRange sh user (size / 8 * 8) 0 else sh) x =
        if x < shadowLimit ∧ user ≤ x ∧ x < user + size / 8 * 8 then 0 else shadowLoad sh x := by
    by_cases hzero : size / 8 * 8 = 0
    · have hout : ¬ (x < shadowLimit ∧ user ≤ x ∧ x < user + size / 8 * 8) := by omega
      rw [if_neg (by simpa using hzero), if_neg hout]
    · rw [if_pos hzero, shadowLoad_setShadowRange_any (by omega) (by omega) (by omega)]
      refine if_congr ?_ rfl rfl
      omega
  unfold carveUser
  simp only [haligned, hmod]
  unfold roundUp8
  by_cases hrem : size % 8 = 0
  · rw [if_neg (by simpa using hrem), hwhole]
    by_cases hx : x < shadowLimit ∧ user ≤ x ∧ x < user + size / 8 * 8
    · have hx' : x < shadowLimit ∧ user ≤ x ∧ x < user + (size + 7) / 8 * 8 := by omega
      have hfull : x / 8 * 8 + 8 ≤ user + size := by omega
      rw [if_pos hx, if_pos hx', if_pos hfull]
    · have hx' : ¬ (x < shadowLimit ∧ user ≤ x ∧ x < user + (size + 7) / 8 * 8) := by omega
      rw [if_neg hx, if_neg hx']
  · rw [if_pos hrem]
    rw [shadowLoad_setShadowByte, hwhole]
    by_cases htail : x < shadowLimit ∧ x / 8 = (user + size / 8 * 8) / 8
    · have hx' : x < shadowLimit ∧ user ≤ x ∧ x < user + (size + 7) / 8 * 8 := by omega
      have hfull : ¬ x / 8 * 8 + 8 ≤ user + size := by omega
      have hcount : size % 8 = user + size - x / 8 * 8 := by omega
      rw [if_pos htail, if_pos hx', if_neg hfull, hcount]
    · rw [if_neg htail]
      by_cases hx : x < shadowLimit ∧ user ≤ x ∧ x < user + size / 8 * 8
      · have hx' : x < shadowLimit ∧ user ≤ x ∧ x < user + (size + 7) / 8 * 8 := by omega
        have hfull : x / 8 * 8 + 8 ≤ user + size := by omega
        rw [if_pos hx, if_pos hx', if_pos hfull]
      · have hx' : ¬ (x < shadowLimit ∧ user ≤ x ∧ x < user + (size + 7) / 8 * 8) := by omega
        rw [if_neg hx, if_neg hx']

/-! ## What the operations do to bytes -/

/-- A range that is set to a negative value is poisoned, chunk by chunk. -/
theorem bytePoisoned_setShadowRange_neg (hlen : 0 < len) (hend : start + len ≤ shadowLimit)
    (hval : val < 0) : bytePoisoned (setShadowRange sh start len val) x =
      if start / 8 ≤ x / 8 ∧ x / 8 < (start + len + 7) / 8 then true else bytePoisoned sh x := by
  unfold bytePoisoned
  rw [shadowLoad_setShadowRange hlen hend]
  split
  · simp [hval.ne, hval]
  · rfl

/-- A range that is set to 0 is addressable, chunk by chunk. -/
theorem bytePoisoned_setShadowRange_zero (hlen : 0 < len) (hend : start + len ≤ shadowLimit) :
    bytePoisoned (setShadowRange sh start len 0) x =
      if start / 8 ≤ x / 8 ∧ x / 8 < (start + len + 7) / 8 then false
      else bytePoisoned sh x := by
  unfold bytePoisoned
  rw [shadowLoad_setShadowRange hlen hend]
  split
  · simp
  · rfl

/-- Carving makes the user bytes addressable, poisons the rest of a partial last chunk
and leaves the other chunks alone. -/
theorem bytePoisoned_carveUser (huser : user % 8 = 0) (hend : user + size ≤ shadowLimit) :
    bytePoisoned (carveUser sh user size) x =
      if user ≤ x ∧ x < user + roundUp8 size then decide (user + size ≤ x)
      else bytePoisoned sh x := by
  have hfits : user + size + 15 < wordSize := by
    simp only [shadowLimit, wordSize] at *
    omega
  have hload := shadowLoad_carveUser_any sh x huser (by omega) (.inr hfits)
  unfold bytePoisoned
  by_cases hx : user ≤ x ∧ x < user + roundUp8 size
  · have hlt : x < shadowLimit := by
      simp only [roundUp8, shadowLimit] at *
      omega
    rw [if_pos ⟨hlt, hx⟩] at hload
    rw [hload, if_pos hx]
    by_cases hfull : x / 8 * 8 + 8 ≤ user + size
    · have hin : ¬ user + size ≤ x := by omega
      simp [hfull, hin]
    · -- the chunk that holds the last user bytes
      have hlast : x / 8 * 8 < user + size := by
        simp only [roundUp8] at hx
        omega
      have hpos : ((user + size - x / 8 * 8 : ℕ) : ℤ) ≠ 0 := by omega
      have hneg : ¬ ((user + size - x / 8 * 8 : ℕ) : ℤ) < 0 := by omega
      simp only [if_neg hfull, if_neg hpos, if_neg hneg, Nat.cast_le, decide_eq_decide]
      omega
  · rw [if_neg (fun h => hx h.2)] at hload
    rw [hload, if_neg hx]

/-- Poisoning an extent and carving a user region out of it: exactly the user bytes of
the extent, rounded up to whole chunks, are addressable. -/
theorem bytePoisoned_guard (sh : ShadowMap) (start user size top : ℕ) (val : ℤ) (x : ℕ)
    (hstart : start % 8 = 0) (hle : start ≤ user) (huser : user % 8 = 0)
    (htop : user + size < top) (hend : top ≤ shadowLimit) (hval : val < 0) :
    bytePoisoned (carveUser (setShadowRange sh start (top - start) val) user size) x =
      if start ≤ x ∧ x < roundUp8 top then decide ¬ (user ≤ x ∧ x < user + size)
      else bytePoisoned sh x := by
  rw [bytePoisoned_carveUser huser (by omega), bytePoisoned_setShadowRange_neg (by omega)
    (by omega) hval, Nat.add_sub_cancel' (by omega)]
  unfold roundUp8
  by_cases hin : start ≤ x ∧ x < (top + 7) / 8 * 8
  · have hchunk : start / 8 ≤ x / 8 ∧ x / 8 < (top + 7) / 8 := by omega
    rw [if_pos hin, if_pos hchunk]
    by_cases hcarve : user ≤ x ∧ x < user + (size + 7) / 8 * 8
    · rw [if_pos hcarve]
      congr 1
      apply propext
      omega
    · have hnot : ¬ (user ≤ x ∧ x < user + size) := by omega
      rw [if_neg hcarve]
      simp [hnot]
  · have hchunk : ¬ (start / 8 ≤ x / 8 ∧ x / 8 < (top + 7) / 8) := by omega
    have hcarve : ¬ (user ≤ x ∧ x < user + (size + 7) / 8 * 8) := by omega
    rw [if_neg hin, if_neg hcarve, if_neg hchunk]

/-- A trailing guard: everything from the end of the user bytes to the end of the last
chunk of the extent is poisoned. -/
theorem bytePoisoned_guard_right {zone : ℕ} (huser : user % 8 = 0) (hzone : 0 < zone)
    (hend : user + size + zone ≤ shadowLimit) (hval : val < 0) :
    bytePoisoned (carveUser (setShadowRange sh (user + size) zone val) user size) x =
      if user ≤ x ∧ x < roundUp8 (user + size + zone) then decide ¬ (user ≤ x ∧ x < user + size)
      else bytePoisoned sh x := by
  rw [bytePoisoned_carveUser huser (by omega), bytePoisoned_setShadowRange_neg hzone
    (by omega) hval]
  unfold roundUp8
  by_cases hcarve : user ≤ x ∧ x < user + (size + 7) / 8 * 8
  · have hin : user ≤ x ∧ x < (user + size + zone + 7) / 8 * 8 := by omega
    rw [if_pos hcarve, if_pos hin]
    congr 1
    apply propext
    omega
  · rw [if_neg hcarve]
    by_cases hin : user ≤ x ∧ x < (user + size + zone + 7) / 8 * 8
    · have hchunk : (user + size) / 8 ≤ x / 8 ∧ x / 8 < (user + size + zone + 7) / 8 := by omega
      have hnot : ¬ (user ≤ x ∧ x < user + size) := by omega
      rw [if_pos hin, if_pos hchunk]
      simp [hnot]
    · have hchunk : ¬ ((user + size) / 8 ≤ x / 8 ∧ x / 8 < (user + size + zone + 7) / 8) := by
        omega
      rw [if_neg hin, if_neg hchunk]

end Operations

end Redzone.Shadow
