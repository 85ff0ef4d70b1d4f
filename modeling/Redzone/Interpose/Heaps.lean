/-
  Interpose/Heaps.lean --- which heap a pointer is handed to.

  Outside of a locked section the interposer asks `__redzone_owns`, which finds exactly
  the blocks that start below `SHADOW_LIMIT`.  Inside of one `free` asks the shadow, which
  errs on the safe side for these blocks, and `realloc` does not ask at all.
-/
import Redzone.Interpose.Calls

set_option autoImplicit false

namespace Redzone.Interpose

open Redzone.Foundation
open Redzone.Shadow

/-! ## The condition -/

/-- The program stores to addressable bytes only. -/
def MayStore (w : World) : Event → Prop
  | .op o => w.MayStore o
  | .call _ _ _ => True

instance (w : World) : (ev : Event) → Decidable (MayStore w ev)
  | .op o => inferInstanceAs (Decidable (w.MayStore o))
  | .call _ _ _ => .isTrue trivial

/-- The pointer is handed to the heap it belongs to. -/
def Handoff.Right (s : Rt) : Handoff → Prop
  | .sysFree p | .sysRealloc p => ∀ b ∈ s.blocks, b.userAddr ≠ p
  | .redzoneFree p | .redzoneRealloc p => ∃ b ∈ s.blocks, b.userAddr = p

/-- All pointers that the call hands over go to the heap they belong to. -/
def RightHandoffs (w : World) (ev : Event) : Prop := ∀ h ∈ handoffs w ev, h.Right w.rt

/-- The pointer that the call releases. -/
def Entry.released : Entry → Option ℕ
  | .free p | .zoneFree p => some p
  | _ => none

/-- The pointer that the call resizes. -/
def Entry.resized : Entry → Option ℕ
  | .realloc p _ | .zoneRealloc p _ => some p
  | _ => none

/-- Blocks that the call releases or resizes start below the limit of the shadow, and none
is resized under the lock. -/
def Routed (w : World) : Event → Prop
  | .op _ => True
  | .call n e _ => ∀ b ∈ w.rt.blocks,
      (e.released = some b.userAddr → b.userAddr ≤ shadowLimit) ∧
      (e.resized = some b.userAddr → n = 0 ∧ b.userAddr ≤ shadowLimit)

/-! ## Runs -/

section Runs

variable {w w' : World} {ev : Event} {a : Answers} {p n : ℕ}

/-- A new extent is addressable. -/
theorem fresh_addressable (h : w.Painted) {lo top x : ℕ} (hfresh : w.FreshAnywhere lo top)
    (hlo : lo ≤ x) (hhi : x < top) : bytePoisoned w.rt.shadow x = false := by
  obtain ⟨hal, -, -, hdisj⟩ := hfresh
  have hload : shadowLoad w.rt.shadow x = 0 := by
    refine h.tiling.outside x fun t ht => ?_
    obtain ⟨z, hz, rfl⟩ := List.mem_map.mp ht
    have hobj : z.obj ∈ w.objs := by
      rw [← World.zoned_obj]
      exact List.mem_map_of_mem hz
    have hmem : z.tile.Mem x ↔ z.obj.lo ≤ x ∧ x < (z.obj.top + 7) / 8 * 8 := Iff.rfl
    rw [hmem]
    rcases hdisj z.obj hobj with hd | hd <;> omega
  simp [bytePoisoned, hload]

/-- What is known of the objects, their codes and the headers. -/
def Sound (w : World) : Prop := w.Painted ∧ w.rt.Roomy ∧ w.rt.Headed

theorem sound_initial : Sound .initial :=
  ⟨painted_initial, by simp [Rt.Roomy, World.initial, Rt.initial], headed_initial⟩

/-- A step of the process. -/
theorem Sound.stepWith (h : Sound w) {o : Op} (hmay : w.MayStore o)
    (hstep : w.stepWith World.FreshAnywhere o = some w') : Sound w' := by
  obtain ⟨hp, hr, hh⟩ := h
  exact ⟨hp.stepWith soundFresh_anywhere hstep, hr.stepWith soundFresh_anywhere hstep,
    hp.headed_step hr hh soundFresh_anywhere hmay hstep⟩

/-- Every event keeps what is known. -/
theorem Sound.istep (h : Sound w) (hmay : MayStore w ev) (hstep : istep w ev = some w') :
    Sound w' := by
  cases ev with
  | op o => exact h.stepWith hmay hstep
  | call n e a =>
      simp only [Interpose.istep] at hstep
      split at hstep
      · simp at hstep
      · rename_i c hanswer
        split at hstep
        · rename_i hextents
          obtain ⟨hfresh, hsys⟩ := hextents
          obtain rfl := Option.some.inj hstep
          rcases Nat.eq_zero_or_pos n with hn | hn
          · rcases perform_outside (c := ⟨w.rt, n, []⟩) hn hanswer with hsame | ⟨hc, hout, hcall⟩
            · rw [hsame]
              exact h
            · -- the step that the allocator takes for the program
              refine h.stepWith (o := .heap hc) ?_ ?_
              · simp only at hcall
                simp [World.MayStore, hcall, hout]
              · simp only at hcall
                simp only [World.stepWith, hcall]
                exact if_pos hfresh
          · obtain ⟨mem, hrt, hmem⟩ := perform_inside (c := ⟨w.rt, n, []⟩) hn hanswer
            obtain ⟨hp, hr, hh⟩ := h
            simp only at hrt hmem
            rw [hrt]
            refine ⟨hp, hr, hp.headed_write hr hh fun x hx => ?_⟩
            rcases hmem x with hsame | ⟨y, hy, hlo, hhi⟩
            · exact hsame
            · rw [fresh_addressable hp (hsys hn.ne' y hy) hlo hhi] at hx
              simp at hx
        · simp at hstep

/-- `__redzone_owns` finds the blocks that start below `SHADOW_LIMIT`. -/
theorem Sound.lookup_isSome (h : Sound w) :
    (blockFromUserPtr w.rt p).isSome = true ↔
      ∃ b ∈ w.rt.blocks, b.userAddr = p ∧ p ≤ shadowLimit := by
  obtain ⟨hp, hr, hh⟩ := h
  constructor
  · intro hsome
    obtain ⟨i, hi⟩ := Option.isSome_iff_exists.mp hsome
    obtain ⟨b, hb, rfl⟩ := blockFromUserPtr_eq_some hi
    exact ⟨b, List.mem_of_getElem? hb, rfl, ((hp.blockFromUserPtr_eq hr hb).mp hi).1⟩
  · rintro ⟨b, hb, rfl, hlim⟩
    obtain ⟨i, hi⟩ := List.mem_iff_getElem?.mp hb
    rw [(hp.blockFromUserPtr_eq hr hi).mpr ⟨hlim, hh i b hi hlim⟩]
    rfl

/-- `__redzone_maybe_owns` says yes for these blocks, and no for the others. -/
theorem Sound.maybeOwns_iff (h : Sound w) {b : Block} (hb : b ∈ w.rt.blocks) :
    (headerSize ≤ b.userAddr ∧ shadowLoad w.rt.shadow (b.userAddr - 8) = rzPoison) ↔
      b.userAddr ≤ shadowLimit := by
  obtain ⟨hp, hr, -⟩ := h
  obtain ⟨hroom, hal⟩ := hr b hb
  simp only [redzoneSize] at hroom
  constructor
  · rintro ⟨-, hload⟩
    by_contra hfar
    rw [shadowLoad_of_le (by simp only [shadowLimit] at hfar ⊢; omega)] at hload
    exact absurd hload (by decide)
  · intro hlim
    refine ⟨by simp only [headerSize]; omega, ?_⟩
    exact hp.left_zone hb (by omega) (by omega) (by omega)

/-- No block starts at `NULL`. -/
theorem Sound.userAddr_ne_zero (h : Sound w) {b : Block} (hb : b ∈ w.rt.blocks) :
    b.userAddr ≠ 0 := by
  have hroom := (h.2.1 b hb).1
  simp only [redzoneSize] at hroom
  omega

/-- Outside of a locked section the header decides. -/
theorem exec_owned {α : Type} {c : Ctx} {m m' : Call α} (hin : c.inRuntime = 0) (hp : p ≠ 0) :
    exec (do if ← redzoneOwns p then m else m') c =
      if (blockFromUserPtr c.rt p).isSome then exec m c else exec m' c := by
  have howns : exec (redzoneOwns p) c = (.ok (blockFromUserPtr c.rt p).isSome, c) := by
    unfold redzoneOwns
    rw [if_neg hp, exec_locked_of_eq_zero hin]
  rw [exec_bind, howns]
  exact exec_ite ..

/-- Pointers of a block that is known go to `__redzone_free` and `__redzone_realloc`. -/
theorem right_of_known {α : Type} {m : Call α} {b : Block} (hb : b ∈ w.rt.blocks)
    (hm : HandsOnly (fun h => h = .redzoneFree b.userAddr ∨ h = .redzoneRealloc b.userAddr) m) :
    ∀ h ∈ (exec m ⟨w.rt, n, []⟩).2.handed, h.Right w.rt := by
  intro h hh
  rcases hm ⟨w.rt, n, []⟩ h hh with hnil | rfl | rfl
  · simp at hnil
  · exact ⟨b, hb, rfl⟩
  · exact ⟨b, hb, rfl⟩

/-- `rz_i_free` hands the pointer to the right heap exactly if it is no block beyond the
limit. -/
theorem Sound.rzIFree_right (h : Sound w) :
    (∀ hd ∈ (exec (rzIFree p) ⟨w.rt, n, []⟩).2.handed, hd.Right w.rt) ↔
      ∀ b ∈ w.rt.blocks, b.userAddr = p → p ≤ shadowLimit := by
  by_cases hp : p = 0
  · refine iff_of_true ?_ ?_
    · unfold rzIFree
      rw [if_pos hp]
      simp
    · rintro b hb rfl
      exact absurd hp (h.userAddr_ne_zero hb)
  rcases Nat.eq_zero_or_pos n with rfl | hn
  · unfold rzIFree
    rw [if_neg hp, exec_unguarded rfl, exec_owned rfl hp]
    by_cases hsome : (blockFromUserPtr w.rt p).isSome = true
    · rw [if_pos hsome]
      obtain ⟨b, hb, rfl, hlim⟩ := h.lookup_isSome.mp hsome
      exact iff_of_true (right_of_known hb (HandsOnly.lockedFree (Or.inl rfl)))
        fun _ _ _ => hlim
    · rw [if_neg hsome]
      unfold sysFree
      rw [exec_hand]
      simp only [List.nil_append, List.forall_mem_singleton, Handoff.Right]
      refine forall₂_congr fun b hb => ⟨fun hne hu => absurd hu hne, fun hlim hu => ?_⟩
      exact hsome (h.lookup_isSome.mpr ⟨b, hb, hu, hlim hu⟩)
  · rw [exec_rzIFree_inside (c := ⟨w.rt, n, []⟩) hn]
    simp only
    by_cases howns : headerSize ≤ p ∧ shadowLoad w.rt.shadow (p - 8) = rzPoison
    · rw [if_pos (Or.inr howns)]
      refine iff_of_true (by simp) ?_
      rintro b hb rfl
      exact (h.maybeOwns_iff hb).mp howns
    · rw [if_neg (not_or.mpr ⟨hp, howns⟩)]
      simp only [List.nil_append, List.forall_mem_singleton, Handoff.Right]
      refine forall₂_congr fun b hb => ⟨fun hne hu => absurd hu hne, fun hlim hu => ?_⟩
      subst hu
      exact howns ((h.maybeOwns_iff hb).mpr (hlim rfl))

/-- `rz_i_realloc` hands the pointer to the right heap exactly if it is no block beyond the
limit, and no block at all under the lock. -/
theorem Sound.rzIRealloc_right {size : ℕ} (h : Sound w) :
    (∀ hd ∈ (exec (rzIRealloc p size a) ⟨w.rt, n, []⟩).2.handed, hd.Right w.rt) ↔
      ∀ b ∈ w.rt.blocks, b.userAddr = p → n = 0 ∧ p ≤ shadowLimit := by
  unfold rzIRealloc
  rcases Nat.eq_zero_or_pos n with rfl | hn
  · rw [exec_unguarded rfl]
    by_cases hp : p = 0
    · rw [if_pos hp]
      refine iff_of_true ?_ ?_
      · intro hd hh
        have hnone : HandsOnly (fun _ => False) (lockedMalloc size none 0 a.sys) :=
          HandsOnly.lockedMalloc
        rcases hnone _ hd hh with hnil | hfalse
        · simp at hnil
        · exact hfalse.elim
      · rintro b hb rfl
        exact absurd hp (h.userAddr_ne_zero hb)
    rw [if_neg hp, exec_owned rfl hp]
    by_cases hsome : (blockFromUserPtr w.rt p).isSome = true
    · rw [if_pos hsome]
      obtain ⟨b, hb, rfl, hlim⟩ := h.lookup_isSome.mp hsome
      refine iff_of_true (right_of_known hb ?_) fun _ _ _ => ⟨rfl, hlim⟩
      exact HandsOnly.lockedRealloc (Or.inr rfl) (Or.inl rfl)
    · rw [if_neg hsome]
      unfold sysRealloc
      rw [exec_bind, exec_hand]
      simp only [exec_pure, List.nil_append, List.forall_mem_singleton, Handoff.Right]
      refine forall₂_congr fun b hb => ⟨fun hne hu => absurd hu hne, fun hlim hu => ?_⟩
      exact hsome (h.lookup_isSome.mpr ⟨b, hb, hu, (hlim hu).2⟩)
  · rw [exec_guarded hn]
    unfold sysRealloc
    rw [exec_bind, exec_hand]
    simp only [exec_pure, List.nil_append, List.forall_mem_singleton, Handoff.Right]
    refine forall₂_congr fun b _ => ⟨fun hne hu => absurd hu hne, fun hout hu => ?_⟩
    exact hn.ne' (hout hu).1

/-- A call that releases and resizes nothing hands nothing over. -/
theorem handsNothing {e : Entry} (hfree : e.released = none) (hsize : e.resized = none) :
    HandsOnly (fun _ => False) (e.perform a) := by
  cases e with
  | malloc size => exact HandsOnly.discard HandsOnly.rzIMalloc
  | calloc nmemb size => exact HandsOnly.discard HandsOnly.rzICalloc
  | mallocSize ptr => exact HandsOnly.discard HandsOnly.rzIMallocSize
  | zoneFromPtr ptr => exact HandsOnly.discard HandsOnly.rzIZoneFromPtr
  | zoneSize ptr => exact HandsOnly.discard HandsOnly.redzoneUsableSize
  | zoneMalloc size | zoneValloc size => exact HandsOnly.discard HandsOnly.lockedMalloc
  | zoneCalloc nmemb size => exact HandsOnly.discard HandsOnly.lockedCalloc
  | realloc ptr size | zoneRealloc ptr size => simp [Entry.resized] at hsize
  | free ptr | zoneFree ptr => simp [Entry.released] at hfree

theorem nothing_iff {e : Entry} (hfree : e.released = none) (hsize : e.resized = none) :
    RightHandoffs w (.call n e a) ↔ Routed w (.call n e a) := by
  refine iff_of_true ?_ ?_
  · intro hd hh
    rcases handsNothing hfree hsize ⟨w.rt, n, []⟩ hd hh with hnil | hfalse
    · simp at hnil
    · exact hfalse.elim
  · intro b _
    simp [hfree, hsize]

theorem Sound.released_iff {e : Entry} (h : Sound w) (hfree : e.released = some p)
    (hsize : e.resized = none) (hexec : ∀ c, exec (e.perform a) c = exec (rzIFree p) c) :
    RightHandoffs w (.call n e a) ↔ Routed w (.call n e a) := by
  simp only [RightHandoffs, handoffs, answer, Routed]
  rw [hexec, h.rzIFree_right]
  refine forall₂_congr fun b _ => ?_
  rw [hfree, hsize]
  constructor
  · intro hlim
    refine ⟨fun hp => ?_, by simp⟩
    obtain rfl := Option.some.inj hp
    exact hlim rfl
  · rintro ⟨hlim, -⟩ rfl
    exact hlim rfl

theorem Sound.resized_iff {e : Entry} {size : ℕ} (h : Sound w) (hfree : e.released = none)
    (hsize : e.resized = some p)
    (hexec : ∀ c, exec (e.perform a) c = exec (discard (rzIRealloc p size a)) c) :
    RightHandoffs w (.call n e a) ↔ Routed w (.call n e a) := by
  simp only [RightHandoffs, handoffs, answer, Routed]
  rw [hexec, exec_discard, h.rzIRealloc_right]
  refine forall₂_congr fun b _ => ?_
  rw [hfree, hsize]
  constructor
  · intro hout
    refine ⟨by simp, fun hp => ?_⟩
    obtain rfl := Option.some.inj hp
    exact hout rfl
  · rintro ⟨-, hout⟩ rfl
    exact hout rfl

/-- One event: releases and resizes are the only ones that matter. -/
theorem Sound.right_iff (h : Sound w) (ev : Event) : RightHandoffs w ev ↔ Routed w ev := by
  cases ev with
  | op o => exact iff_of_true (by simp [RightHandoffs, handoffs]) trivial
  | call n e a =>
      cases e with
      | malloc | calloc | mallocSize | zoneFromPtr | zoneSize | zoneMalloc | zoneValloc
      | zoneCalloc => exact nothing_iff rfl rfl
      | realloc ptr size | zoneRealloc ptr size => exact h.resized_iff rfl rfl fun _ => rfl
      | free ptr | zoneFree ptr => exact h.released_iff rfl rfl fun _ => rfl

end Runs

/-- In every run of the process under interposition in which the program stores to
addressable bytes: a call hands its pointers to the heaps they belong to exactly if the
blocks it releases or resizes start below the limit of the shadow, and it resizes none
under the lock. -/
theorem rightHandoffs_iff {es : List Event} (hstores : EveryStep istep MayStore .initial es) :
    EveryStep istep (fun w ev => RightHandoffs w ev ↔ Routed w ev) .initial es := by
  refine hstores.of_invariant (I := Sound) sound_initial ?_ ?_
  · intro w ev w' h hmay hstep
    exact h.istep hmay hstep
  · intro w ev h _
    exact h.right_iff ev

/-- A block that is allocated outside, and resized and freed under the lock. -/
def heldRun : List Event :=
  [.call 0 (.malloc 24) ⟨⟨some 0x1000, true⟩, none, 0, true, 0⟩,
    .call 1 (.realloc 0x1010 48) ⟨⟨none, true⟩, some 0x4000, 0, true, 0⟩,
    .call 1 (.free 0x1010) ⟨⟨none, true⟩, none, 0, true, 0⟩]

theorem rightHandoffs_iff_heldRun :
    EveryStep istep (fun w ev => RightHandoffs w ev ↔ Routed w ev) .initial heldRun :=
  rightHandoffs_iff (by decide +kernel)

/-- The reallocation under the lock hands the block to the system. -/
theorem realloc_underLock : ¬ EveryStep istep RightHandoffs .initial heldRun := by
  intro h
  have hany : (istep .initial (.call 0 (.malloc 24) ⟨⟨some 0x1000, true⟩, none, 0, true, 0⟩)).any
      (fun w : World => decide (⟨0x1000, 56, 0x1010, 24, false, none, 0⟩ ∈ w.rt.blocks)) = true := by
    decide +kernel
  obtain ⟨w, hw, hb⟩ := (Option.any_eq_true ..).mp hany
  have hright := (h.2 w hw).1 (.sysRealloc 0x1010) (List.mem_singleton.mpr rfl)
  exact hright _ (of_decide_eq_true hb) rfl

end Redzone.Interpose
