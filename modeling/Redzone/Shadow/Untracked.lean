/-
  Shadow/Untracked.lean --- addresses that the shadow does not cover.

  The shadow covers the addresses below `SHADOW_LIMIT`.  Beyond it the runtime drops
  stores and loads 0, the inline test of the pass has no guard, and a block has an entry
  in the table but no header that `block_from_user_ptr` would read.  The file says for
  which accesses the two fast paths agree, and which blocks can be freed.
-/
import Redzone.Shadow.FreePointer
import Redzone.Shadow.InlineCheck

set_option autoImplicit false

namespace Redzone.Shadow

open Redzone.Foundation

/-! ## The two fast paths -/

/-- The fast path of `__redzone_check`: does the check go on to its slow path? -/
def checkFast (sh : ShadowMap) (a size : ℕ) : Bool :=
  size != 0 && (bytePoisoned sh a || bytePoisoned sh ((a + size - 1) % wordSize))

/-- Both bytes that the inline test reads are covered by the shadow; an access of no bytes
is tested at its address, too. -/
def Covered (sh : ShadowMap) (a size : ℕ) : Prop :=
  a < shadowLimit ∧
    if size = 0 then bytePoisoned sh a = false else (a + size - 1) % wordSize < shadowLimit

section FastPaths

variable {s : Rt} {sh : ShadowMap} {a size : ℕ} {isWrite : Bool} {file : Option String} {line : ℤ}

theorem checkFast_eq_false :
    checkFast s.shadow a size = false ↔ redzoneCheck s a size isWrite file line = .ok () := by
  rcases Nat.eq_zero_or_pos size with rfl | hsize
  · simp [checkFast, redzoneCheck]
  · rw [redzoneCheck_ok hsize]
    simp [checkFast, hsize.ne']

/-- The inline test stays inside the reservation and agrees with the fast path of
`__redzone_check` exactly for covered accesses. -/
theorem inlineTest_agrees_iff :
    inlineTest sh a size = some (checkFast sh a size) ↔ Covered sh a size := by
  by_cases ha : a < shadowLimit
  · rcases Nat.eq_zero_or_pos size with rfl | hsize
    · unfold inlineTest
      rw [inlinePoisoned_of_lt ha]
      simp [checkFast, Covered, ha]
    · unfold Covered
      rw [if_neg hsize.ne']
      by_cases hlast : (a + size - 1) % wordSize < shadowLimit
      · rw [inlineTest_eq hsize ha hlast]
        refine iff_of_true ?_ ⟨ha, hlast⟩
        simp [checkFast, hsize.ne']
      · refine iff_of_false ?_ (fun h => hlast h.2)
        -- the last byte is another one than the first
        have hone : size > 1 := by
          by_contra hle
          obtain rfl : size = 1 := by omega
          refine hlast ?_
          rw [Nat.add_sub_cancel, Nat.mod_eq_of_lt]
          · exact ha
          · exact ha.trans (by norm_num)
        have hsum : a + (size - 1) = a + size - 1 := by omega
        unfold inlineTest
        rw [inlinePoisoned_of_lt ha]
        simp [hone, hsum, inlinePoisoned_of_le (Nat.not_lt.mp hlast)]
  · refine iff_of_false ?_ (fun h => ha h.1)
    unfold inlineTest
    rw [inlinePoisoned_of_le (Nat.not_lt.mp ha)]
    simp

end FastPaths

/-! ## Blocks beyond the limit -/

section Blocks

variable {w : World} {b b' : Block} {i j : ℕ}

/-- Two entries of the table have different user pointers. -/
theorem World.Painted.userAddr_injective (h : w.Painted)
    (hb : w.rt.blocks[i]? = some b) (hb' : w.rt.blocks[j]? = some b')
    (hu : b.userAddr = b'.userAddr) : i = j := by
  have hpair : w.rt.blocks.Pairwise fun b b' =>
      (Zoned.tile ⟨b.obj, rzPoison⟩).Disjoint (Zoned.tile ⟨b'.obj, rzPoison⟩) := by
    have hall := List.pairwise_map.mp h.tiling.disjoint
    rw [World.zoned_eq, List.pairwise_append] at hall
    exact (List.pairwise_map (f := fun b : Block => (⟨b.obj, rzPoison⟩ : Zoned))).mp hall.1
  have hin : ∀ {k : ℕ} {c : Block}, w.rt.blocks[k]? = some c →
      (Zoned.tile ⟨c.obj, rzPoison⟩).Mem c.userAddr := by
    intro k c hc
    have hmem := List.mem_of_getElem? hc
    have hz : (⟨c.obj, rzPoison⟩ : Zoned) ∈ w.zoned := by
      rw [World.zoned_eq]
      exact List.mem_append_left _ (List.mem_map_of_mem hmem)
    have hlaid := h.laid _ hz
    have hle := hlaid.lo_le
    have hule := hlaid.user_le
    have hguard := hlaid.guard
    simp only [Block.obj, redzoneSize] at hle hule hguard
    refine Block.tile_mem ⟨hle, ?_⟩ _
    omega
  obtain ⟨hi, rfl⟩ := List.getElem?_eq_some_iff.mp hb
  obtain ⟨hj, rfl⟩ := List.getElem?_eq_some_iff.mp hb'
  have hget := List.pairwise_iff_getElem.mp hpair
  rcases Nat.lt_trichotomy i j with hlt | heq | hgt
  · have hnot := (hget i j hi hj hlt).not_mem (hin hb)
    rw [hu] at hnot
    exact absurd (hin hb') hnot
  · exact heq
  · have hnot := (hget j i hj hi hgt).not_mem (hin hb')
    rw [← hu] at hnot
    exact absurd (hin hb) hnot

/-- Freeing a live block succeeds exactly if the block starts below `SHADOW_LIMIT` and has
its header. -/
theorem World.Painted.free_iff (h : w.Painted) (hr : w.rt.Roomy)
    (hb : w.rt.blocks[i]? = some b) (hlive : b.freed = false) :
    (∃ rt, redzoneFree w.rt b.userAddr = .ok rt) ↔
      b.userAddr ≤ shadowLimit ∧ HeaderAt w.rt.mem b.userAddr i := by
  have hmem := List.mem_of_getElem? hb
  have hroom := (hr b hmem).1
  simp only [redzoneSize] at hroom
  have hne : b.userAddr ≠ 0 := by omega
  rw [← h.blockFromUserPtr_eq hr hb]
  constructor
  · rintro ⟨rt, hok⟩
    cases hfound : blockFromUserPtr w.rt b.userAddr with
    | none =>
        -- the scan of the table finds the block
        have hz : (⟨b.obj, rzPoison⟩ : Zoned) ∈ w.zoned := by
          rw [World.zoned_eq]
          exact List.mem_append_left _ (List.mem_map_of_mem hmem)
        have hlaid := h.laid _ hz
        have hle := hlaid.lo_le
        have hule := hlaid.user_le
        have hguard := hlaid.guard
        have htop := hlaid.top_lt
        simp only [Block.obj, redzoneSize] at hle hule hguard htop
        rw [redzoneFree_of_none hne hfound] at hok
        cases hfind : findBlock w.rt b.userAddr with
        | none =>
            have hnot := List.find?_eq_none.mp hfind b hmem
            rw [Bool.and_eq_true, decide_eq_true_eq, decide_eq_true_eq,
              Nat.mod_eq_of_lt htop] at hnot
            exact absurd ⟨hle, by omega⟩ hnot
        | some b' =>
            rw [hfind] at hok
            simp at hok
    | some j =>
        obtain ⟨b', hb', hu⟩ := blockFromUserPtr_eq_some hfound
        rw [h.userAddr_injective hb hb' hu.symm]
  · intro hfound
    rw [redzoneFree_of_found hne hfound hb, if_neg (by simp [hlive])]
    exact ⟨_, rfl⟩

end Blocks

/-- In every state that is reached with extents anywhere in the address space: the two
fast paths agree exactly on covered accesses; a live block can be freed exactly if it
starts below `SHADOW_LIMIT` and has its header; and it has its header if the program
stores to addressable bytes only. -/
theorem untracked_iff {ops : List Op} {w : World}
    (hrun : run (World.stepWith World.FreshAnywhere) .initial ops = some w) :
    (∀ a size, inlineTest w.rt.shadow a size = some (checkFast w.rt.shadow a size) ↔
      Covered w.rt.shadow a size) ∧
    (∀ i b, w.rt.blocks[i]? = some b → b.freed = false →
      ((∃ rt, redzoneFree w.rt b.userAddr = .ok rt) ↔
        b.userAddr ≤ shadowLimit ∧ HeaderAt w.rt.mem b.userAddr i)) ∧
    (EveryStep (World.stepWith World.FreshAnywhere) World.MayStore .initial ops →
      ∀ i b, w.rt.blocks[i]? = some b → b.userAddr ≤ shadowLimit →
        HeaderAt w.rt.mem b.userAddr i) := by
  obtain ⟨hpainted, hroomy⟩ := World.laidOut_of_run soundFresh_anywhere hrun
  refine ⟨fun a size => inlineTest_agrees_iff, ?_, ?_⟩
  · intro i b hb hlive
    exact hpainted.free_iff hroomy hb hlive
  · exact World.headed_of_run soundFresh_anywhere hrun

/-- A block of 8 bytes at `SHADOW_LIMIT`. -/
def farRun : List Op := [.heap (.malloc 8 none 0 ⟨some 0x800000000000, true⟩)]

theorem untracked_iff_farRun : ∃ w,
    run (World.stepWith World.FreshAnywhere) .initial farRun = some w ∧
    (∀ a size, inlineTest w.rt.shadow a size = some (checkFast w.rt.shadow a size) ↔
      Covered w.rt.shadow a size) ∧
    (∀ i b, w.rt.blocks[i]? = some b → b.freed = false →
      ((∃ rt, redzoneFree w.rt b.userAddr = .ok rt) ↔
        b.userAddr ≤ shadowLimit ∧ HeaderAt w.rt.mem b.userAddr i)) ∧
    (EveryStep (World.stepWith World.FreshAnywhere) World.MayStore .initial farRun →
      ∀ i b, w.rt.blocks[i]? = some b → b.userAddr ≤ shadowLimit →
        HeaderAt w.rt.mem b.userAddr i) := by
  have hsome : (run (World.stepWith World.FreshAnywhere) .initial farRun).isSome = true := by
    decide +kernel
  obtain ⟨w, hw⟩ := Option.isSome_iff_exists.mp hsome
  exact ⟨w, hw, untracked_iff hw⟩

/-- The block at `SHADOW_LIMIT` cannot be freed: its only free is reported as invalid.  And
a load from it indexes the shadow outside the reservation, although `__redzone_check`
would let it pass. -/
theorem free_beyond_limit : ∃ w,
    run (World.stepWith World.FreshAnywhere) .initial farRun = some w ∧
    (∃ b ∈ w.rt.blocks, b.freed = false ∧ b.userAddr = 0x800000000010 ∧
      redzoneFree w.rt b.userAddr = .error (.freeError "invalid-free" b.userAddr)) ∧
    inlineTest w.rt.shadow 0x800000000010 8 = none ∧
    redzoneCheck w.rt 0x800000000010 8 false none 0 = .ok () := by
  have hany : (run (World.stepWith World.FreshAnywhere) .initial farRun).any (fun w : World =>
      decide (⟨0x800000000000, 40, 0x800000000010, 8, false, none, 0⟩ ∈ w.rt.blocks) &&
      (blockFromUserPtr w.rt 0x800000000010).isNone &&
      (findBlock w.rt 0x800000000010).isSome) = true := by
    decide +kernel
  obtain ⟨w, hw, hstate⟩ := (Option.any_eq_true ..).mp hany
  simp only [Bool.and_eq_true, decide_eq_true_eq, Option.isNone_iff_eq_none] at hstate
  obtain ⟨⟨hmem, hnone⟩, hfind⟩ := hstate
  obtain ⟨b, hb⟩ := Option.isSome_iff_exists.mp hfind
  refine ⟨w, hw, ⟨_, hmem, rfl, rfl, ?_⟩, ?_, ?_⟩
  · rw [redzoneFree_of_none (by decide) hnone, hb]
  · unfold inlineTest
    rw [inlinePoisoned_of_le (by decide)]
  · rw [redzoneCheck_ok (by decide)]
    exact ⟨bytePoisoned_of_le (by decide), bytePoisoned_of_le (by decide)⟩

end Redzone.Shadow
