/-
  Pass/Layout.lean --- the red zones that `RedzonePass::run` puts around variables, and
  the shadow that the runtime gives them.

  The pass lays an object out once, at compile time: so many bytes of red zone, the
  object, so many bytes again.  The runtime gets an address and the size of the object
  and works the extent out anew, in chunks of 8 bytes.  The two have to agree for every
  size: a chunk too many is a chunk of the neighbour, one too few a hole in the guard.
-/
import Redzone.Shadow.CodesRun
import Redzone.Stack.Body

set_option autoImplicit false

namespace Redzone.Pass

open Redzone.Foundation
open Redzone.Shadow
open Redzone.Stack (allocaTotal)

/-! ## What the pass lays out -/

/-- `kRedzone`. -/
abbrev kRedzone : ℕ := 16

/-- An object between its red zones, in bytes. -/
structure Wrapper where
  left : ℕ
  size : ℕ
  right : ℕ
  deriving DecidableEq, Repr

def Wrapper.total (w : Wrapper) : ℕ := w.left + w.size + w.right

/-- The address of the object in a wrapper at `base`. -/
def Wrapper.object (w : Wrapper) (base : ℕ) : ℕ := base + w.left

/-- `total`: the bytes of the alloca that takes the place of one of `Sz` bytes. -/
def stackTotal (Sz : ℕ) : ℕ :=
  (kRedzone + clearLow ((Sz + 7) % wordSize) 8 + kRedzone) % wordSize

/-- `pad`: so that the trailing zone stays 8-aligned. -/
def globalPad (S : ℕ) : ℕ := (8 - S % 8) % 8

/-- `NTy`: the struct that takes the place of a global of `S` bytes. -/
def globalWrapper (isExternal : Bool) (S : ℕ) : Wrapper :=
  if isExternal then ⟨0, S, kRedzone + globalPad S⟩
  else ⟨kRedzone, S, kRedzone + globalPad S⟩

/-- What `__redzone_global_ctor` does for a global of `S` bytes whose wrapper is at
`base`. -/
def globalCtor (isExternal : Bool) (base S : ℕ) (s : Rt) : Rt :=
  let data := (globalWrapper isExternal S).object base
  if isExternal then redzoneGlobalRegisterRight s data S else redzoneGlobalRegister s data S

/-! ## Agreement -/

/-- Some value of the shadow byte of `x` is replaced. -/
def Writes (f : Rt → Rt) (x : ℕ) : Prop :=
  ∃ s, shadowLoad (f s).shadow x ≠ shadowLoad s.shadow x

/-- Entering and leaving a variable write the shadow of its alloca and no other, and
leaving clears it. -/
structure StackAgrees (base S : ℕ) : Prop where
  total : stackTotal S = kRedzone + roundUp8 S + kRedzone
  enter : ∀ x, Writes (redzoneStackEnter · base S) x ↔
    (base ≤ x ∧ x < base + stackTotal S) ∧ x < shadowLimit
  leave : ∀ x, Writes (redzoneStackLeave · base S) x ↔
    (base ≤ x ∧ x < base + stackTotal S) ∧ x < shadowLimit
  cleared : ∀ s x, base ≤ x → x < base + stackTotal S →
    shadowLoad (redzoneStackLeave s base S).shadow x = 0

/-- Registering a global writes no shadow outside its wrapper, leaves the data addressable
and poisons the rest of the wrapper behind them. -/
structure GlobalAgrees (isExternal : Bool) (base S : ℕ) : Prop where
  outside : ∀ s x, x < base ∨ base + (globalWrapper isExternal S).total ≤ x →
    shadowLoad (globalCtor isExternal base S s).shadow x = shadowLoad s.shadow x
  data : ∀ s i, i < S →
    bytePoisoned (globalCtor isExternal base S s).shadow
      ((globalWrapper isExternal S).object base + i) = false
  zone : ∀ s x, (globalWrapper isExternal S).object base + S ≤ x →
    x < base + (globalWrapper isExternal S).total → x < shadowLimit →
    bytePoisoned (globalCtor isExternal base S s).shadow x = true
  width : (globalWrapper isExternal S).object base + S + kRedzone ≤
    base + (globalWrapper isExternal S).total

section Layout

variable {base S x : ℕ} {isExternal : Bool}

/-- The 64-bit arithmetic of the pass does not wrap for an alloca that fits. -/
theorem stackTotal_eq (h : base + allocaTotal S < wordSize) : stackTotal S = allocaTotal S := by
  unfold allocaTotal roundUp8 at *
  simp only [redzoneSize, wordSize] at *
  unfold stackTotal
  rw [Nat.mod_eq_of_lt (a := S + 7) (by simp only [wordSize]; omega),
    clearLow_eight (by simp only [wordSize]; omega)]
  exact Nat.mod_eq_of_lt (by simp only [wordSize, kRedzone]; omega)

/-- The zone behind the data of a global ends with a chunk. -/
theorem globalWrapper_total (isExternal : Bool) (S : ℕ) :
    (globalWrapper isExternal S).total =
      (globalWrapper isExternal S).left + roundUp8 S + kRedzone := by
  unfold globalWrapper Wrapper.total globalPad roundUp8
  split <;> simp only <;> omega

/-- The tile of a variable on the stack is its alloca. -/
theorem stackVar_tile (hbase : base % 16 = 0) (hend : base + allocaTotal S < wordSize) :
    (StackVar.mk base S).obj.Laid ∧
      ∀ x, (Zoned.tile ⟨(StackVar.mk base S).obj, stackRz⟩).Mem x ↔
        base ≤ x ∧ x < base + stackTotal S := by
  rw [stackTotal_eq hend]
  unfold allocaTotal roundUp8 at *
  simp only [redzoneSize, wordSize] at *
  refine ⟨?_, fun x => ?_⟩
  · constructor <;> simp only [StackVar.obj, redzoneSize, wordSize] <;> omega
  · simp only [Zoned.tile, Tile.Mem, StackVar.obj, roundUp8, redzoneSize]
    omega

/-- The tile of a global is its wrapper. -/
theorem externalGlobal_tile (hbase : base % 16 = 0)
    (hend : base + (globalWrapper true S).total < wordSize) :
    (GlobalVar.mk base S).externalObj.Laid ∧
      ∀ x, (Zoned.tile ⟨(GlobalVar.mk base S).externalObj, globalRz⟩).Mem x ↔
        base ≤ x ∧ x < base + (globalWrapper true S).total := by
  have htotal : (globalWrapper true S).total = 0 + roundUp8 S + kRedzone :=
    globalWrapper_total true S
  rw [htotal] at hend ⊢
  unfold roundUp8 at *
  simp only [kRedzone, wordSize] at *
  refine ⟨?_, fun x => ?_⟩
  · refine ⟨hbase, le_rfl, .inl rfl, ?_, ?_, ?_, ?_, ?_⟩ <;>
      simp only [GlobalVar.externalObj, redzoneSize, wordSize] <;> omega
  · simp only [Zoned.tile, Tile.Mem, GlobalVar.externalObj, roundUp8, redzoneSize]
    omega

theorem internalGlobal_tile (hbase : base % 16 = 0)
    (hend : base + (globalWrapper false S).total < wordSize) :
    (GlobalVar.mk (base + kRedzone) S).internalObj.Laid ∧
      ∀ x, (Zoned.tile ⟨(GlobalVar.mk (base + kRedzone) S).internalObj, globalRz⟩).Mem x ↔
        base ≤ x ∧ x < base + (globalWrapper false S).total := by
  have htotal : (globalWrapper false S).total = kRedzone + roundUp8 S + kRedzone :=
    globalWrapper_total false S
  rw [htotal] at hend ⊢
  unfold roundUp8 at *
  simp only [kRedzone, wordSize] at *
  refine ⟨?_, fun x => ?_⟩
  · constructor <;> simp only [GlobalVar.internalObj, redzoneSize, wordSize] <;> omega
  · simp only [Zoned.tile, Tile.Mem, GlobalVar.internalObj, roundUp8, redzoneSize]
    omega

/-- A step that repaints a tile with values that are fixed, and nothing else. -/
theorem writes_of_tile {f : Rt → Rt} {lo hi : ℕ} {val : ℕ → ℤ}
    (h : ∀ s x, shadowLoad (f s).shadow x =
      if lo ≤ x ∧ x < hi then if x < shadowLimit then val x else 0
      else shadowLoad s.shadow x) (x : ℕ) :
    Writes f x ↔ (lo ≤ x ∧ x < hi) ∧ x < shadowLimit := by
  constructor
  · rintro ⟨s, hs⟩
    rw [h] at hs
    by_contra hout
    by_cases hin : lo ≤ x ∧ x < hi
    · have hge : ¬ x < shadowLimit := fun hlt => hout ⟨hin, hlt⟩
      rw [if_pos hin, if_neg hge, shadowLoad_of_le (Nat.not_lt.mp hge)] at hs
      exact hs rfl
    · rw [if_neg hin] at hs
      exact hs rfl
  · rintro ⟨hin, hlt⟩
    -- a shadow that holds another value everywhere
    refine ⟨⟨[], 0, fun _ => val x + 1, fun _ => 0⟩, ?_⟩
    have hidx : x / 8 < shadowBytes := by
      simp only [shadowLimit, shadowBytes] at *
      omega
    rw [h, if_pos hin, if_pos hlt]
    simp only [shadowLoad, hidx, if_true]
    omega

/-- Stack variables of every size. -/
theorem stack_agrees (hbase : base % 16 = 0) (hend : base + allocaTotal S < wordSize) :
    StackAgrees base S := by
  obtain ⟨hlaid, htile⟩ := stackVar_tile hbase hend
  have hleave : ∀ (s : Rt) x, shadowLoad (redzoneStackLeave s base S).shadow x =
      if base ≤ x ∧ x < base + stackTotal S then 0 else shadowLoad s.shadow x := by
    intro s x
    rw [← if_congr (htile x) rfl rfl]
    exact shadowLoad_stackLeave hlaid x
  have henter : ∀ (s : Rt) x, shadowLoad (redzoneStackEnter s base S).shadow x =
      if base ≤ x ∧ x < base + stackTotal S then
        if x < shadowLimit then Zoned.code ⟨(StackVar.mk base S).obj, stackRz⟩ x else 0
      else shadowLoad s.shadow x := by
    intro s x
    rw [← if_congr (htile x) rfl rfl]
    exact shadowLoad_stackEnter hlaid x
  have hclear : ∀ (s : Rt) x, shadowLoad (redzoneStackLeave s base S).shadow x =
      if base ≤ x ∧ x < base + stackTotal S then if x < shadowLimit then 0 else 0
      else shadowLoad s.shadow x := by
    intro s x
    rw [hleave, ite_self]
  refine ⟨stackTotal_eq hend, writes_of_tile henter, writes_of_tile hclear, fun s x hlo hhi => ?_⟩
  rw [hleave, if_pos ⟨hlo, hhi⟩]

/-- What the code of an object says about a byte: the object's bytes are addressable, the
bytes of the guards are not. -/
theorem bytePoisoned_of_code {sh : ShadowMap} {z : Zoned} (hlive : z.obj.live = true)
    (hzone : z.zone < 0) (hal : z.obj.userLo % 8 = 0)
    (h : shadowLoad sh x = if x < shadowLimit then z.code x else 0) :
    (z.obj.userLo ≤ x → x < z.obj.userHi → bytePoisoned sh x = false) ∧
      (z.obj.userHi ≤ x → x < shadowLimit → bytePoisoned sh x = true) := by
  unfold bytePoisoned
  rw [h]
  refine ⟨fun hlo hhi => ?_, fun hhi hlt => ?_⟩
  · have hin : z.obj.userLo ≤ x / 8 * 8 ∧ x / 8 * 8 < z.obj.userHi := by omega
    split
    · rename_i hlt
      simp only [Zoned.code, if_pos hin, hlive, if_true]
      split
      · rfl
      · have hpos : ((z.obj.userHi - x / 8 * 8 : ℕ) : ℤ) ≠ 0 := by omega
        have hneg : ¬ ((z.obj.userHi - x / 8 * 8 : ℕ) : ℤ) < 0 := by omega
        simp only [hpos, hneg, if_false, decide_eq_false_iff_not]
        omega
    · rfl
  · simp only [if_pos hlt, Zoned.code, hlive, if_true]
    by_cases hin : z.obj.userLo ≤ x / 8 * 8 ∧ x / 8 * 8 < z.obj.userHi
    · have hpart : ¬ x / 8 * 8 + 8 ≤ z.obj.userHi := by omega
      have hpos : ((z.obj.userHi - x / 8 * 8 : ℕ) : ℤ) ≠ 0 := by omega
      have hneg : ¬ ((z.obj.userHi - x / 8 * 8 : ℕ) : ℤ) < 0 := by omega
      simp only [if_pos hin, if_neg hpart, hpos, hneg, if_false, decide_eq_true_eq]
      omega
    · simp only [if_neg hin, hzone.ne, hzone, if_false, if_true]

theorem globalRz_neg : globalRz < 0 := by decide

/-- Globals of every size and both linkages. -/
theorem global_agrees (hbase : base % 16 = 0)
    (hend : base + (globalWrapper isExternal S).total < wordSize) :
    GlobalAgrees isExternal base S := by
  -- the object that is registered, with its tile and what the constructor does to it
  obtain ⟨z, hz, hobj, hlaid, htile, hload⟩ : ∃ z : Zoned, (z.obj.live = true ∧ z.zone < 0) ∧
      (z.obj.userLo = (globalWrapper isExternal S).object base ∧
        z.obj.userHi = (globalWrapper isExternal S).object base + S) ∧
      z.obj.Laid ∧
      (∀ x, z.tile.Mem x ↔ base ≤ x ∧ x < base + (globalWrapper isExternal S).total) ∧
      ∀ s x, shadowLoad (globalCtor isExternal base S s).shadow x =
        if z.tile.Mem x then z.tile.val x else shadowLoad s.shadow x := by
    cases isExternal with
    | true =>
        obtain ⟨hlaid, htile⟩ := externalGlobal_tile hbase hend
        exact ⟨_, ⟨rfl, globalRz_neg⟩, ⟨rfl, rfl⟩, hlaid, htile,
          fun s x => shadowLoad_globalRegisterRight hlaid x⟩
    | false =>
        obtain ⟨hlaid, htile⟩ := internalGlobal_tile hbase hend
        exact ⟨_, ⟨rfl, globalRz_neg⟩, ⟨rfl, rfl⟩, hlaid, htile,
          fun s x => shadowLoad_globalRegister (Nat.le_add_left _ _) hlaid x⟩
  have htotal := globalWrapper_total isExternal S
  have hround : S ≤ roundUp8 S := by
    unfold roundUp8
    omega
  have hbyte : ∀ s x, base ≤ x → x < base + (globalWrapper isExternal S).total →
      (z.obj.userLo ≤ x → x < z.obj.userHi →
        bytePoisoned (globalCtor isExternal base S s).shadow x = false) ∧
      (z.obj.userHi ≤ x → x < shadowLimit →
        bytePoisoned (globalCtor isExternal base S s).shadow x = true) := by
    intro s x hlo hhi
    refine bytePoisoned_of_code hz.1 hz.2 hlaid.user_aligned ?_
    rw [hload, if_pos ((htile x).mpr ⟨hlo, hhi⟩)]
    rfl
  unfold Wrapper.object at hobj
  refine ⟨fun s x hx => ?_, fun s i hi => ?_, fun s x hlo hhi hlt => ?_, ?_⟩
  · rw [hload, if_neg]
    rw [htile]
    omega
  · unfold Wrapper.object
    exact (hbyte s _ (by omega) (by omega)).1 (by omega) (by omega)
  · unfold Wrapper.object at hlo
    exact (hbyte s x (by omega) hhi).2 (by omega) hlt
  · unfold Wrapper.object
    omega

/-- The layout of the pass and the poisoning of the runtime agree, for an object of any
size wherever its wrapper fits. -/
theorem layout_agrees (S base : ℕ) (hbase : base % 16 = 0) :
    (base + (kRedzone + roundUp8 S + kRedzone) < wordSize → StackAgrees base S) ∧
      ∀ isExternal, base + (globalWrapper isExternal S).total < wordSize →
        GlobalAgrees isExternal base S :=
  ⟨stack_agrees hbase, fun _ => global_agrees hbase⟩

/-- Thirteen bytes at 4096, in a wrapper of each kind. -/
theorem layout_agrees_thirteen : 4096 % 16 = 0 ∧
    4096 + (kRedzone + roundUp8 13 + kRedzone) < wordSize ∧ StackAgrees 4096 13 ∧
    4096 + (globalWrapper true 13).total < wordSize ∧ GlobalAgrees true 4096 13 ∧
    4096 + (globalWrapper false 13).total < wordSize ∧ GlobalAgrees false 4096 13 :=
  ⟨by decide, by decide, (layout_agrees 13 4096 (by decide)).1 (by decide), by decide,
    (layout_agrees 13 4096 (by decide)).2 true (by decide), by decide,
    (layout_agrees 13 4096 (by decide)).2 false (by decide)⟩

end Layout

end Redzone.Pass
