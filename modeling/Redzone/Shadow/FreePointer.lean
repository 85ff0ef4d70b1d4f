/-
  Shadow/FreePointer.lean --- what `__redzone_free` makes of a pointer.

  The header lookup agrees with the table in every state that is reached by heap calls
  and stores to addressable bytes, so `__redzone_free` tells the user pointers of blocks,
  other pointers into blocks, and foreign pointers apart.
-/
import Redzone.Shadow.Header

set_option autoImplicit false

namespace Redzone.Shadow

open Redzone.Foundation

section Free

variable {s : Rt} {w w' : World} {b : Block} {i p : ℕ}

/-! ## The cases of `__redzone_free` -/

/-- A pointer with a header. -/
theorem redzoneFree_of_found (hp : p ≠ 0) (hfound : blockFromUserPtr s p = some i)
    (hb : s.blocks[i]? = some b) : redzoneFree s p =
      if b.freed then .error (.freeError "double-free" p)
      else .ok { s with
        blocks := s.blocks.set i { b with freed := true }
        shadow := setShadowRange s.shadow b.userAddr
          (clearLow ((b.userSize + 7) % wordSize) 8) freedPoison } := by
  unfold redzoneFree
  rw [if_neg hp, hfound]
  simp only [hb]

/-- A pointer without a header. -/
theorem redzoneFree_of_none (hp : p ≠ 0) (hnone : blockFromUserPtr s p = none) :
    redzoneFree s p =
      match findBlock s p with
      | none => .ok s
      | some _ => .error (.freeError "invalid-free" p) := by
  unfold redzoneFree
  cases findBlock s p with
  | none => simp [hp, hnone]
  | some b => simp [hp, hnone]

/-! ## Below the limit of the shadow -/

/-- Objects end below `SHADOW_LIMIT`, so all blocks start there. -/
theorem World.Inv.userAddr_le (h : w.Inv) (hb : b ∈ w.rt.blocks) :
    b.userAddr ≤ shadowLimit := by
  have hok := h.ok b.obj (World.mem_objs.mpr (Or.inl ⟨b, hb, rfl⟩))
  have hule := hok.user_le
  have hguard := hok.guard
  have htop := hok.top_le
  simp only [Block.obj, redzoneSize] at hule hguard htop
  omega

/-- The user pointer of a block lies in its extent. -/
theorem World.Inv.userAddr_mem (h : w.Inv) (hb : b ∈ w.rt.blocks) :
    b.realBase ≤ b.userAddr ∧ b.userAddr < b.realBase + b.totalSize := by
  have hok := h.ok b.obj (World.mem_objs.mpr (Or.inl ⟨b, hb, rfl⟩))
  have hle := hok.lo_le
  have hule := hok.user_le
  have hguard := hok.guard
  simp only [Block.obj, redzoneSize] at hle hule hguard
  omega

/-- The header lookup agrees with the table. -/
theorem World.Inv.lookup_iff (h : w.Inv) (hp : w.Painted) (hr : w.rt.Roomy) (hh : w.rt.Headed) :
    blockFromUserPtr w.rt p = some i ↔ ∃ b, w.rt.blocks[i]? = some b ∧ b.userAddr = p := by
  constructor
  · exact blockFromUserPtr_eq_some
  · rintro ⟨b, hb, rfl⟩
    have hlim := h.userAddr_le (List.mem_of_getElem? hb)
    exact (hp.blockFromUserPtr_eq hr hb).mpr ⟨hlim, hh i b hb hlim⟩

/-- A pointer that is no user pointer has no header. -/
theorem blockFromUserPtr_none (h : ∀ b ∈ s.blocks, b.userAddr ≠ p) :
    blockFromUserPtr s p = none := by
  rw [Option.eq_none_iff_forall_ne_some]
  intro i hfound
  obtain ⟨b, hb, hu⟩ := blockFromUserPtr_eq_some hfound
  exact h b (List.mem_of_getElem? hb) hu

/-- Freeing a live block poisons its user bytes, and no others. -/
theorem World.Inv.free_poisons (h : w.Inv) {rt : Rt} (heff : FreeEffect w.rt rt i b) (x : ℕ) :
    bytePoisoned rt.shadow x = true ↔
      bytePoisoned w.rt.shadow x = true ∨ (b.userAddr ≤ x ∧ x < b.userAddr + b.userSize) := by
  have hb := List.mem_of_getElem? heff.found
  have ho : b.obj ∈ w.objs := World.mem_objs.mpr (Or.inl ⟨b, hb, rfl⟩)
  have hok := h.ok b.obj ho
  rw [heff.bytePoisoned_eq hok x]
  by_cases hx : b.userAddr ≤ x ∧ x < roundUp8 (b.userAddr + b.userSize)
  · rw [if_pos hx]
    refine iff_of_true rfl ?_
    by_cases huser : x < b.userAddr + b.userSize
    · exact Or.inr ⟨hx.1, huser⟩
    · -- the rest of the last chunk was poisoned before
      have hle := hok.lo_le
      have hguard := hok.guard
      simp only [Block.obj, redzoneSize] at hle hguard
      have hmem : b.obj.region.Mem x := by
        refine ⟨hle.trans hx.1, hx.2.trans_le ?_⟩
        simp only [Obj.region, Block.obj, roundUp8]
        omega
      exact Or.inl ((h.poisoned_of_mem ho hmem).mpr fun hu => huser hu.2.2)
  · rw [if_neg hx]
    have hnot : ¬ (b.userAddr ≤ x ∧ x < b.userAddr + b.userSize) := by
      simp only [roundUp8] at hx
      omega
    simp [hnot]

/-! ## States whose headers are intact -/

/-- The invariants behind the header lookup. -/
structure World.Intact (w : World) : Prop where
  inv : w.Inv
  painted : w.Painted
  roomy : w.rt.Roomy
  headed : w.rt.Headed

/-- They hold in every state that is reached by heap calls and stores to addressable
bytes. -/
theorem World.intact_of_run {ops : List Op} (hw : worldRun ops = some w)
    (hstores : EveryStep World.step World.MayStore .initial ops) : w.Intact := by
  have hrun := hw
  unfold worldRun at hrun
  rw [World.step_eq_stepWith] at hrun hstores
  obtain ⟨hpainted, hroomy⟩ := World.laidOut_of_run soundFresh_fresh hrun
  exact ⟨World.inv_of_run hw, hpainted, hroomy, World.headed_of_run soundFresh_fresh hrun hstores⟩

/-- Every step of the process keeps shadow and headers intact, as far as the program keeps
to addressable bytes. -/
theorem World.Intact.step (h : w.Intact) {op : Op} (hmay : w.MayStore op)
    (hstep : w.step op = some w') : w'.Intact := by
  have hwith := hstep
  rw [World.step_eq_stepWith] at hwith
  exact ⟨h.inv.step hstep, h.painted.stepWith soundFresh_fresh hwith,
    h.roomy.stepWith soundFresh_fresh hwith,
    h.painted.headed_step h.roomy h.headed soundFresh_fresh hmay hwith⟩

theorem World.Intact.lookup_iff (h : w.Intact) :
    blockFromUserPtr w.rt p = some i ↔ ∃ b, w.rt.blocks[i]? = some b ∧ b.userAddr = p :=
  h.inv.lookup_iff h.painted h.roomy h.headed

theorem World.Intact.userAddr_ne (h : w.Intact) (hb : b ∈ w.rt.blocks) : b.userAddr ≠ 0 := by
  have hroom := (h.roomy b hb).1
  simp only [redzoneSize] at hroom
  omega

/-- Two blocks whose extents share an address have one user region. -/
theorem World.Inv.block_unique (h : w.Inv) {b' : Block} {x : ℕ} (hb : b ∈ w.rt.blocks)
    (hb' : b' ∈ w.rt.blocks) (hx : b.realBase ≤ x ∧ x < b.realBase + b.totalSize)
    (hx' : b'.realBase ≤ x ∧ x < b'.realBase + b'.totalSize) : b.obj.region = b'.obj.region := by
  have hround : ∀ y, y ≤ roundUp8 y := by
    intro y
    simp only [roundUp8]
    omega
  refine Tiled.eq_of_mem h.tiled
    (List.mem_map_of_mem (World.mem_objs.mpr (Or.inl ⟨b, hb, rfl⟩)))
    (List.mem_map_of_mem (World.mem_objs.mpr (Or.inl ⟨b', hb', rfl⟩))) (x := x) ?_ ?_
  · exact ⟨hx.1, hx.2.trans_le (hround _)⟩
  · exact ⟨hx'.1, hx'.2.trans_le (hround _)⟩

/-- The user pointer of a live block: the block is freed. -/
theorem World.Intact.free_live (h : w.Intact) (hb : w.rt.blocks[i]? = some b)
    (hlive : b.freed = false) :
    ∃ rt, redzoneFree w.rt b.userAddr = .ok rt ∧ FreeEffect w.rt rt i b ∧ rt.cap = w.rt.cap ∧
      rt.mem = w.rt.mem := by
  have hok := redzoneFree_of_found (h.userAddr_ne (List.mem_of_getElem? hb))
    (h.lookup_iff.mpr ⟨b, hb, rfl⟩) hb
  rw [if_neg (by simp [hlive])] at hok
  exact ⟨_, hok, ⟨hb, hlive, rfl, rfl⟩, rfl, rfl⟩

theorem World.Intact.free_freed (h : w.Intact) (hb : b ∈ w.rt.blocks) (hfreed : b.freed = true) :
    redzoneFree w.rt b.userAddr = .error (.freeError "double-free" b.userAddr) := by
  obtain ⟨i, hi⟩ := List.mem_iff_getElem?.mp hb
  rw [redzoneFree_of_found (h.userAddr_ne hb) (h.lookup_iff.mpr ⟨b, hi, rfl⟩) hi, if_pos hfreed]

/-- Another pointer into a block has no header, and is found in no other block. -/
theorem World.Inv.interior (h : w.Inv) (hb : b ∈ w.rt.blocks) (hlo : b.realBase ≤ p)
    (hhi : p < b.realBase + b.totalSize) (hu : b.userAddr ≠ p) :
    blockFromUserPtr w.rt p = none ∧
      ∃ b', findBlock w.rt p = some b' ∧ b' ∈ w.rt.blocks ∧ b'.obj.region = b.obj.region := by
  constructor
  · refine blockFromUserPtr_none fun b' hb' hu' => ?_
    have hin := h.userAddr_mem hb'
    rw [hu'] at hin
    have hreg := h.block_unique hb' hb hin ⟨hlo, hhi⟩
    have huser : b'.userAddr = b.userAddr := congrArg Region.innerLo hreg
    exact hu (huser.symm.trans hu')
  · cases hfind : findBlock w.rt p with
    | none => exact absurd ⟨hlo, hhi⟩ (h.findBlock_none hfind hb)
    | some b' =>
        obtain ⟨hb', hin⟩ := h.findBlock_some hfind
        exact ⟨b', rfl, hb', h.block_unique hb' hb hin ⟨hlo, hhi⟩⟩

theorem World.Inv.free_interior (h : w.Inv) (hb : b ∈ w.rt.blocks) (hlo : b.realBase ≤ p)
    (hhi : p < b.realBase + b.totalSize) (hu : b.userAddr ≠ p) (hp : p ≠ 0) :
    redzoneFree w.rt p = .error (.freeError "invalid-free" p) := by
  obtain ⟨hnone, b', hfind, -⟩ := h.interior hb hlo hhi hu
  rw [redzoneFree_of_none hp hnone, hfind]

/-- A pointer into no block. -/
theorem World.Inv.foreign (h : w.Inv)
    (hout : ∀ b ∈ w.rt.blocks, ¬ (b.realBase ≤ p ∧ p < b.realBase + b.totalSize)) :
    blockFromUserPtr w.rt p = none ∧ findBlock w.rt p = none := by
  constructor
  · refine blockFromUserPtr_none fun b hb hu => hout b hb ?_
    rw [← hu]
    exact h.userAddr_mem hb
  · cases hfind : findBlock w.rt p with
    | none => rfl
    | some b =>
        obtain ⟨hb, hin⟩ := h.findBlock_some hfind
        exact absurd hin (hout b hb)

theorem World.Inv.free_foreign (h : w.Inv)
    (hout : ∀ b ∈ w.rt.blocks, ¬ (b.realBase ≤ p ∧ p < b.realBase + b.totalSize)) :
    redzoneFree w.rt p = .ok w.rt := by
  rcases eq_or_ne p 0 with rfl | hp
  · rfl
  · obtain ⟨hnone, hfind⟩ := h.foreign hout
    rw [redzoneFree_of_none hp hnone, hfind]

/-- In every state that is reached by heap calls and stores to addressable bytes, the
header lookup agrees with the table, and `__redzone_free` classifies every pointer. -/
theorem freePointer_exact {ops : List Op} (hw : worldRun ops = some w)
    (hstores : EveryStep World.step World.MayStore .initial ops) (p : ℕ) :
    (∀ i, blockFromUserPtr w.rt p = some i ↔
      ∃ b, w.rt.blocks[i]? = some b ∧ b.userAddr = p) ∧
    (∀ i b, w.rt.blocks[i]? = some b → b.userAddr = p → b.freed = false →
      ∃ rt, redzoneFree w.rt p = .ok rt ∧ rt.blocks = w.rt.blocks.set i { b with freed := true } ∧
        rt.cap = w.rt.cap ∧ rt.mem = w.rt.mem ∧
        ∀ x, bytePoisoned rt.shadow x = true ↔
          bytePoisoned w.rt.shadow x = true ∨ (b.userAddr ≤ x ∧ x < b.userAddr + b.userSize)) ∧
    (∀ b ∈ w.rt.blocks, b.userAddr = p → b.freed = true →
      redzoneFree w.rt p = .error (.freeError "double-free" p)) ∧
    (∀ b ∈ w.rt.blocks, b.realBase ≤ p → p < b.realBase + b.totalSize → b.userAddr ≠ p → p ≠ 0 →
      redzoneFree w.rt p = .error (.freeError "invalid-free" p)) ∧
    ((p = 0 ∨ ∀ b ∈ w.rt.blocks, ¬ (b.realBase ≤ p ∧ p < b.realBase + b.totalSize)) →
      redzoneFree w.rt p = .ok w.rt) := by
  have hintact := World.intact_of_run hw hstores
  refine ⟨fun i => hintact.lookup_iff, ?_, ?_, ?_, ?_⟩
  · intro i b hb hu hlive
    subst hu
    obtain ⟨rt, hfree, heff, hcap, hmem⟩ := hintact.free_live hb hlive
    exact ⟨rt, hfree, heff.blocks, hcap, hmem, hintact.inv.free_poisons heff⟩
  · intro b hb hu hfreed
    subst hu
    exact hintact.free_freed hb hfreed
  · intro b hb hlo hhi hu hp
    exact hintact.inv.free_interior hb hlo hhi hu hp
  · intro hout
    rcases hout with rfl | hout
    · rfl
    · exact hintact.inv.free_foreign hout

end Free

/-- A live and a freed block, a store into the live one, and a reallocation. -/
def storeRun : List Op :=
  [.heap (.malloc 40 none 0 ⟨some 0x2000, true⟩), .heap (.free 0x2010),
    .heap (.malloc 13 none 0 ⟨some 0x1000, true⟩), .store 0x1012 7,
    .heap (.realloc 0x1010 24 none 0 ⟨some 0x3000, true⟩)]

theorem freePointer_exact_storeRun : ∃ w, worldRun storeRun = some w ∧
    (∀ i, blockFromUserPtr w.rt 0x3010 = some i ↔
      ∃ b, w.rt.blocks[i]? = some b ∧ b.userAddr = 0x3010) ∧
    (∀ i b, w.rt.blocks[i]? = some b → b.userAddr = 0x3010 → b.freed = false →
      ∃ rt, redzoneFree w.rt 0x3010 = .ok rt ∧
        rt.blocks = w.rt.blocks.set i { b with freed := true } ∧
        rt.cap = w.rt.cap ∧ rt.mem = w.rt.mem ∧
        ∀ x, bytePoisoned rt.shadow x = true ↔
          bytePoisoned w.rt.shadow x = true ∨ (b.userAddr ≤ x ∧ x < b.userAddr + b.userSize)) ∧
    (∀ b ∈ w.rt.blocks, b.userAddr = 0x3010 → b.freed = true →
      redzoneFree w.rt 0x3010 = .error (.freeError "double-free" 0x3010)) ∧
    (∀ b ∈ w.rt.blocks, b.realBase ≤ 0x3010 → 0x3010 < b.realBase + b.totalSize →
      b.userAddr ≠ 0x3010 → 0x3010 ≠ 0 →
      redzoneFree w.rt 0x3010 = .error (.freeError "invalid-free" 0x3010)) ∧
    ((0x3010 = 0 ∨ ∀ b ∈ w.rt.blocks, ¬ (b.realBase ≤ 0x3010 ∧ 0x3010 < b.realBase + b.totalSize)) →
      redzoneFree w.rt 0x3010 = .ok w.rt) := by
  have hsome : (worldRun storeRun).isSome = true := by decide +kernel
  obtain ⟨w, hw⟩ := Option.isSome_iff_exists.mp hsome
  have hstores : EveryStep World.step World.MayStore .initial storeRun := by decide +kernel
  exact ⟨w, hw, freePointer_exact hw hstores 0x3010⟩

end Redzone.Shadow
