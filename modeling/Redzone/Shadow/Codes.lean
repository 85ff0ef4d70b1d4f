/-
  Shadow/Codes.lean --- which shadow byte stands where.

  `Shadow/Exact.lean` says which bytes are poisoned; this file says with which code.  An
  object paints the chunks of its extent: the poison code of its guards around the user
  bytes, 0 or a count on the user bytes while it is live, `FREED_POISON` afterwards.
  Chunks of no object are 0.  Beyond `SHADOW_LIMIT` everything reads 0.

  The extents need not lie below `SHADOW_LIMIT` here: `World.stepWith` is the step of the
  process with the extents that the system may hand out as a parameter, and `World.step`
  is the instance with `World.Fresh`.
-/
import Redzone.Foundation.Tiles
import Redzone.Shadow.Exact

set_option autoImplicit false

namespace Redzone.Shadow

open Redzone.Foundation

/-! ## Objects and their codes -/

/-- The layout of an object, wherever its extent is. -/
structure Obj.Laid (o : Obj) : Prop where
  lo_aligned : o.lo % 16 = 0
  lo_le : o.lo ≤ o.userLo
  left : o.userLo = o.lo ∨ o.lo + redzoneSize ≤ o.userLo
  user_aligned : o.userLo % 8 = 0
  user_le : o.userLo ≤ o.userHi
  guard : o.userHi + redzoneSize ≤ o.top
  top_lt : o.top < wordSize
  /-- The end of the extent can be rounded up, or the extent does not start at 0. -/
  wrap : 8 ≤ o.lo ∨ o.top + 7 < wordSize

/-- An object and the poison code of its guards. -/
structure Zoned where
  obj : Obj
  zone : ℤ

/-- The shadow byte that the object gives to the chunk of `x`. -/
def Zoned.code (z : Zoned) (x : ℕ) : ℤ :=
  if z.obj.userLo ≤ x / 8 * 8 ∧ x / 8 * 8 < z.obj.userHi then
    if z.obj.live then
      if x / 8 * 8 + 8 ≤ z.obj.userHi then 0 else ((z.obj.userHi - x / 8 * 8 : ℕ) : ℤ)
    else freedPoison
  else z.zone

def Zoned.tile (z : Zoned) : Tile ℤ :=
  ⟨z.obj.lo, roundUp8 z.obj.top, fun x => if x < shadowLimit then z.code x else 0⟩

section Paint

variable {sh : ShadowMap} {z : Zoned} {x : ℕ}

/-- Poisoning the guards of an object and carving the user bytes out paints the object;
without a left guard it is enough to poison from the end of the user bytes on. -/
theorem shadowLoad_paint_from (sh : ShadowMap) (z : Zoned) (x start : ℕ) (h : z.obj.Laid)
    (hlive : z.obj.live = true)
    (hstart : start = z.obj.lo ∨ start = z.obj.userHi ∧ z.obj.userLo = z.obj.lo) :
    shadowLoad (carveUser (setShadowRange sh start (z.obj.top - start) z.zone)
      z.obj.userLo (z.obj.userHi - z.obj.userLo)) x =
        if z.tile.Mem x then z.tile.val x else shadowLoad sh x := by
  obtain ⟨hal, hle, hleft, hual, hule, hguard, htop, hwrap⟩ := h
  simp only [redzoneSize] at hleft hguard
  have hstop : start ≤ z.obj.top := by omega
  rw [shadowLoad_carveUser_any _ _ hual (by omega) (by omega),
    shadowLoad_setShadowRange_any (by omega) (by omega) (by omega)]
  simp only [Zoned.tile, Tile.Mem, Zoned.code, hlive, if_true, roundUp8, Nat.add_sub_cancel' hule,
    Nat.add_sub_cancel' hstop]
  by_cases hx : x < shadowLimit
  · by_cases huser : z.obj.userLo ≤ x / 8 * 8 ∧ x / 8 * 8 < z.obj.userHi
    · have hcarve : z.obj.userLo ≤ x ∧
          x < z.obj.userLo + (z.obj.userHi - z.obj.userLo + 7) / 8 * 8 := by omega
      have hin : z.obj.lo ≤ x ∧ x < (z.obj.top + 7) / 8 * 8 := by omega
      rw [if_pos ⟨hx, hcarve⟩, if_pos hin, if_pos hx, if_pos huser]
    · have hcarve : ¬ (z.obj.userLo ≤ x ∧
          x < z.obj.userLo + (z.obj.userHi - z.obj.userLo + 7) / 8 * 8) := by omega
      rw [if_neg (fun h => hcarve h.2), if_pos hx, if_neg huser]
      refine if_congr ?_ rfl rfl
      omega
  · rw [if_neg (fun h => hx h.1), if_neg (fun h => hx h.1), if_neg hx,
      shadowLoad_of_le (Nat.not_lt.mp hx), ite_self]

/-- Poisoning an extent and carving the user bytes out of it paints the object. -/
theorem shadowLoad_paint (sh : ShadowMap) (z : Zoned) (x : ℕ) (h : z.obj.Laid)
    (hlive : z.obj.live = true) :
    shadowLoad (carveUser (setShadowRange sh z.obj.lo (z.obj.top - z.obj.lo) z.zone)
      z.obj.userLo (z.obj.userHi - z.obj.userLo)) x =
        if z.tile.Mem x then z.tile.val x else shadowLoad sh x :=
  shadowLoad_paint_from sh z x z.obj.lo h hlive (.inl rfl)

/-- The same for an object without a left red zone, whose extent is poisoned from the
end of the user bytes on. -/
theorem shadowLoad_paint_right (sh : ShadowMap) (z : Zoned) (x : ℕ) (h : z.obj.Laid)
    (hlive : z.obj.live = true)
    (hnoleft : z.obj.userLo = z.obj.lo) :
    shadowLoad (carveUser (setShadowRange sh z.obj.userHi (z.obj.top - z.obj.userHi) z.zone)
      z.obj.userLo (z.obj.userHi - z.obj.userLo)) x =
        if z.tile.Mem x then z.tile.val x else shadowLoad sh x :=
  shadowLoad_paint_from sh z x z.obj.userHi h hlive (.inr ⟨rfl, hnoleft⟩)

end Paint

/-! ## The invariant -/

/-- The objects are laid out properly, and the shadow has their codes. -/
structure Painted (sh : ShadowMap) (zs : List Zoned) : Prop where
  laid : ∀ z ∈ zs, z.obj.Laid
  tiling : Tiling (shadowLoad sh) 0 (zs.map Zoned.tile)

/-- All objects, with the codes of their guards. -/
def World.zoned (w : World) : List Zoned :=
  w.rt.blocks.map (fun b => ⟨b.obj, rzPoison⟩) ++
    (w.stack.map (fun v => ⟨v.obj, stackRz⟩) ++
      (w.internals.map (fun g => ⟨g.internalObj, globalRz⟩) ++
        w.externals.map fun g => ⟨g.externalObj, globalRz⟩))

section Painted

variable {sh sh' : ShadowMap} {zs zs' : List Zoned} {z z' : Zoned} {x : ℕ}

theorem painted_nil : Painted .zero [] :=
  ⟨by simp, .nil fun x => by simp [shadowLoad, ShadowMap.zero]⟩

theorem Painted.perm (h : Painted sh zs) (hp : zs.Perm zs') : Painted sh zs' :=
  ⟨fun z hz => h.laid z (hp.mem_iff.mpr hz), h.tiling.perm (hp.map _)⟩

/-- Aligned extents that are disjoint stay disjoint when they are rounded up. -/
theorem Zoned.tile_disjoint (h : z.obj.Laid) (h' : z'.obj.Laid)
    (hd : z.obj.top ≤ z'.obj.lo ∨ z'.obj.top ≤ z.obj.lo) : z.tile.Disjoint z'.tile := by
  have hal := h.lo_aligned
  have hal' := h'.lo_aligned
  simp only [Tile.Disjoint, Zoned.tile, roundUp8]
  omega

theorem Painted.insert (h : Painted sh zs) (hlaid : z.obj.Laid)
    (hfresh : ∀ z' ∈ zs, z.obj.top ≤ z'.obj.lo ∨ z'.obj.top ≤ z.obj.lo)
    (hsh : ∀ x, shadowLoad sh' x = if z.tile.Mem x then z.tile.val x else shadowLoad sh x) :
    Painted sh' (z :: zs) := by
  refine ⟨List.forall_mem_cons.mpr ⟨hlaid, h.laid⟩, ?_⟩
  rw [List.map_cons]
  refine h.tiling.insert ?_ hsh
  intro t ht
  obtain ⟨z', hz', rfl⟩ := List.mem_map.mp ht
  exact Zoned.tile_disjoint hlaid (h.laid z' hz') (hfresh z' hz')

theorem Painted.remove (h : Painted sh (z :: zs))
    (hsh : ∀ x, shadowLoad sh' x = if z.tile.Mem x then 0 else shadowLoad sh x) :
    Painted sh' zs := by
  have htiling := h.tiling
  rw [List.map_cons] at htiling
  exact ⟨fun z' hz' => h.laid z' (List.mem_cons_of_mem z hz'), htiling.remove hsh⟩

/-- The chunks of an object have its codes. -/
theorem Painted.load_of_mem (h : Painted sh zs) (hz : z ∈ zs) (hx : z.tile.Mem x)
    (hlt : x < shadowLimit) : shadowLoad sh x = z.code x := by
  rw [h.tiling.inside z.tile (List.mem_map_of_mem hz) x hx]
  simp [Zoned.tile, hlt]

/-- The user bytes of an object die: its user chunks become `FREED_POISON`. -/
theorem Painted.kill (h : Painted sh (z :: zs))
    (hsh : ∀ x, shadowLoad sh' x =
      if x < shadowLimit ∧ z.obj.userLo ≤ x ∧ x < roundUp8 z.obj.userHi then freedPoison
      else shadowLoad sh x) :
    Painted sh' (⟨{ z.obj with live := false }, z.zone⟩ :: zs) := by
  have hlaid := h.laid z (List.mem_cons_self ..)
  have hle := hlaid.lo_le
  have hal := hlaid.user_aligned
  have hguard := hlaid.guard
  simp only [redzoneSize] at hguard
  refine ⟨List.forall_mem_cons.mpr ⟨⟨hlaid.lo_aligned, hlaid.lo_le, hlaid.left,
    hlaid.user_aligned, hlaid.user_le, hlaid.guard, hlaid.top_lt, hlaid.wrap⟩,
    fun z' hz' => h.laid z' (List.mem_cons_of_mem z hz')⟩, ?_⟩
  have htiling := h.tiling
  rw [List.map_cons] at htiling ⊢
  refine htiling.replace rfl rfl fun x => ?_
  have hround : roundUp8 z.obj.userHi = (z.obj.userHi + 7) / 8 * 8 := rfl
  have htop : roundUp8 z.obj.top = (z.obj.top + 7) / 8 * 8 := rfl
  rw [hsh x, hround]
  simp only [Zoned.tile, Tile.Mem]
  rw [htop]
  by_cases hin : z.obj.lo ≤ x ∧ x < (z.obj.top + 7) / 8 * 8
  · rw [if_pos hin]
    by_cases hx : x < shadowLimit
    · have hold := h.load_of_mem (List.mem_cons_self ..) hin hx
      simp only [hold, Zoned.code, hx, true_and, if_true, Bool.false_eq_true, if_false]
      by_cases huser : z.obj.userLo ≤ x / 8 * 8 ∧ x / 8 * 8 < z.obj.userHi
      · have hcarve : z.obj.userLo ≤ x ∧ x < (z.obj.userHi + 7) / 8 * 8 := by omega
        rw [if_pos hcarve, if_pos huser]
      · have hcarve : ¬ (z.obj.userLo ≤ x ∧ x < (z.obj.userHi + 7) / 8 * 8) := by omega
        rw [if_neg hcarve, if_neg huser, if_neg huser]
    · have hcarve : ¬ (x < shadowLimit ∧ z.obj.userLo ≤ x ∧ x < (z.obj.userHi + 7) / 8 * 8) :=
        fun h => hx h.1
      rw [if_neg hcarve, if_neg hx, shadowLoad_of_le (Nat.not_lt.mp hx)]
  · have hcarve : ¬ (x < shadowLimit ∧ z.obj.userLo ≤ x ∧ x < (z.obj.userHi + 7) / 8 * 8) := by
      omega
    rw [if_neg hin, if_neg hcarve]

end Painted

end Redzone.Shadow
