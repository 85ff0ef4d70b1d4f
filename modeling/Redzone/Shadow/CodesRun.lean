/-
  Shadow/CodesRun.lean --- the codes of the shadow in every reachable state.

  `World.stepWith` is a step of the process in which the predicate `fresh` says which
  extents the system may hand out.  Of such a predicate only `SoundFresh` is needed: the
  extents are 16-aligned, lie in the address space and are disjoint from all objects.
  `World.Fresh` adds that they lie below `SHADOW_LIMIT`; `World.FreshAnywhere` does not.
-/
import Redzone.Shadow.Codes

set_option autoImplicit false

namespace Redzone.Shadow

open Redzone.Foundation

/-! ## Steps with extents from a given source -/

/-- An extent anywhere in the address space: aligned, not at `NULL`, and disjoint from
every object. -/
def World.FreshAnywhere (w : World) (lo top : ℕ) : Prop :=
  lo % 16 = 0 ∧ 0 < lo ∧ top < wordSize ∧ ∀ o ∈ w.objs, top ≤ o.lo ∨ o.top ≤ lo

instance (w : World) (lo top : ℕ) : Decidable (w.FreshAnywhere lo top) :=
  inferInstanceAs (Decidable (_ ∧ _))

/-- What every source of extents promises. -/
structure SoundFresh (fresh : World → ℕ → ℕ → Prop) : Prop where
  aligned : ∀ {w lo top}, fresh w lo top → lo % 16 = 0
  top_lt : ∀ {w lo top}, fresh w lo top → top < wordSize
  wrap : ∀ {w lo top}, fresh w lo top → 8 ≤ lo ∨ top + 7 < wordSize
  disjoint : ∀ {w lo top}, fresh w lo top → ∀ o ∈ w.objs, top ≤ o.lo ∨ o.top ≤ lo

theorem soundFresh_fresh : SoundFresh World.Fresh := by
  refine ⟨fun h => h.1, fun h => ?_, fun h => Or.inr ?_, fun h => h.2.2⟩
  · have htop := h.2.1
    simp only [shadowLimit, wordSize] at htop ⊢
    omega
  · have htop := h.2.1
    simp only [shadowLimit, wordSize] at htop ⊢
    omega

theorem soundFresh_anywhere : SoundFresh World.FreshAnywhere := by
  refine ⟨fun h => h.1, fun h => h.2.2.1, fun h => Or.inl ?_, fun h => h.2.2.2⟩
  obtain ⟨hal, hpos, -⟩ := h
  omega

/-- Perform one step, as `World.step` does, with the extents that `fresh` allows. -/
def World.stepWith (fresh : World → ℕ → ℕ → Prop) [∀ w lo top, Decidable (fresh w lo top)]
    (w : World) : Op → Option World
  | .heap c =>
    match w.rt.heapCall c with
    | .error _ => none
    | .ok rt =>
      if ∀ b ∈ rt.blocks.drop w.rt.blocks.length, fresh w b.realBase (b.realBase + b.totalSize)
      then some { w with rt := rt }
      else none
  | .stackEnter v =>
    if fresh w v.base (v.base + v.size + 2 * redzoneSize) then
      some { w with rt := redzoneStackEnter w.rt v.base v.size, stack := v :: w.stack }
    else none
  | .stackLeave v =>
    if v ∈ w.stack then
      some { w with rt := redzoneStackLeave w.rt v.base v.size, stack := w.stack.erase v }
    else none
  | .globalRegister g =>
    if redzoneSize ≤ g.data ∧ fresh w (g.data - redzoneSize) (g.data + g.size + redzoneSize) then
      some { w with rt := redzoneGlobalRegister w.rt g.data g.size, internals := g :: w.internals }
    else none
  | .globalRegisterRight g =>
    if fresh w g.data (g.data + g.size + redzoneSize) then
      some { w with
        rt := redzoneGlobalRegisterRight w.rt g.data g.size, externals := g :: w.externals }
    else none
  | .store addr byte =>
    some { w with rt := { w.rt with mem := Function.update w.rt.mem addr byte } }

theorem World.step_eq_stepWith : World.step = World.stepWith World.Fresh := by
  funext w op
  cases op <;> rfl

/-- The shadow of the world has the codes of its objects. -/
def World.Painted (w : World) : Prop := Shadow.Painted w.rt.shadow w.zoned

section Painted

variable {fresh : World → ℕ → ℕ → Prop} {w w' : World} {rt s s' : Rt} {b : Block}
  {align i : ℕ} {zs : List Zoned}

/-! ## Effects -/

theorem Block.obj_laid {lo top user size : ℕ} (hal : lo % 16 = 0) (htop : top < wordSize)
    (hwrap : 8 ≤ lo ∨ top + 7 < wordSize) (hleft : lo + redzoneSize ≤ user)
    (huser : user % 8 = 0) (hguard : user + size + redzoneSize ≤ top) (live : Bool) :
    Obj.Laid ⟨lo, top, user, user + size, live⟩ := by
  refine ⟨hal, ?_, Or.inr hleft, huser, ?_, hguard, htop, hwrap⟩
  · exact (Nat.le_add_right _ _).trans hleft
  · exact Nat.le_add_right _ _

theorem AllocEffect.laid (h : AllocEffect s s' b align) (hal : b.realBase % 16 = 0)
    (htop : b.realBase + b.totalSize < wordSize)
    (hwrap : 8 ≤ b.realBase ∨ b.realBase + b.totalSize + 7 < wordSize) : b.obj.Laid := by
  obtain ⟨hleft, huser, hguard⟩ := h.layout hal htop.le
  exact Block.obj_laid hal htop hwrap hleft (by omega) hguard _

theorem AllocEffect.painted (h : AllocEffect s s' b align) (hp : Painted s.shadow zs)
    (hlaid : b.obj.Laid)
    (hfresh : ∀ z ∈ zs, b.realBase + b.totalSize ≤ z.obj.lo ∨ z.obj.top ≤ b.realBase) :
    Painted s'.shadow (⟨b.obj, rzPoison⟩ :: zs) := by
  refine hp.insert hlaid hfresh fun x => ?_
  have hpaint := shadowLoad_paint s.shadow ⟨b.obj, rzPoison⟩ x hlaid
    (by simp [Block.obj, h.live])
  rw [h.shadow, ← hpaint]
  simp only [Block.obj, Nat.add_sub_cancel_left]

theorem FreeEffect.painted (h : FreeEffect s s' i b)
    (hp : Painted s.shadow (⟨b.obj, rzPoison⟩ :: zs)) :
    Painted s'.shadow (⟨Block.obj { b with freed := true }, rzPoison⟩ :: zs) := by
  have hlaid := hp.laid _ (List.mem_cons_self ..)
  have hguard := hlaid.guard
  have htop := hlaid.top_lt
  have hal := hlaid.user_aligned
  have hlo := hlaid.lo_le
  have hwrap := hlaid.wrap
  simp only [Block.obj, redzoneSize] at hguard htop hal hlo hwrap
  have hsum : b.userSize + 7 < wordSize := by omega
  have hround : roundUp8 (b.userAddr + b.userSize) = b.userAddr + roundUp8 b.userSize := by
    simp only [roundUp8]
    omega
  have hle : roundUp8 b.userSize ≤ b.userSize + 7 := Nat.div_mul_le_self ..
  have hmul : roundUp8 b.userSize % 8 = 0 := Nat.mul_mod_left _ _
  have hlen : (b.userSize + 7) / 8 * 8 = roundUp8 b.userSize := rfl
  refine hp.kill fun x => ?_
  show shadowLoad s'.shadow x =
    if x < shadowLimit ∧ b.userAddr ≤ x ∧ x < roundUp8 (b.userAddr + b.userSize) then freedPoison
    else shadowLoad s.shadow x
  rw [h.shadow, Nat.mod_eq_of_lt hsum, clearLow_eight hsum, hlen, hround]
  rcases Nat.eq_zero_or_pos (roundUp8 b.userSize) with hzero | hpos
  · have hout : ¬ (x < shadowLimit ∧ b.userAddr ≤ x ∧ x < b.userAddr + roundUp8 b.userSize) := by
      omega
    rw [if_neg hout, hzero, setShadowRange_zero_len]
  · rw [shadowLoad_setShadowRange_any hpos (by omega) (by omega)]
    refine if_congr ?_ rfl rfl
    omega

theorem Block.tile_mem {a : ℕ} (h : b.realBase ≤ a ∧ a < b.realBase + b.totalSize) (zone : ℤ) :
    (Zoned.tile ⟨b.obj, zone⟩).Mem a := by
  have hround : b.realBase + b.totalSize ≤ roundUp8 (b.realBase + b.totalSize) := by
    simp only [roundUp8]
    omega
  exact ⟨h.1, h.2.trans_le hround⟩

/-! ## Steps -/

theorem painted_initial : World.initial.Painted := painted_nil

theorem World.zoned_obj (w : World) : w.zoned.map Zoned.obj = w.objs := by
  simp only [World.zoned, World.objs, List.map_append, List.map_map]
  rfl

theorem SoundFresh.disjoint_zoned (hf : SoundFresh fresh) {lo top : ℕ} (h : fresh w lo top) :
    ∀ z ∈ w.zoned, top ≤ z.obj.lo ∨ z.obj.top ≤ lo := by
  intro z hz
  refine hf.disjoint h z.obj ?_
  rw [← World.zoned_obj]
  exact List.mem_map_of_mem hz

/-- The objects besides the heap blocks, with their codes. -/
def World.otherZoned (w : World) : List Zoned :=
  w.stack.map (fun v => ⟨v.obj, stackRz⟩) ++
    (w.internals.map (fun g => ⟨g.internalObj, globalRz⟩) ++
      w.externals.map fun g => ⟨g.externalObj, globalRz⟩)

theorem World.zoned_eq (w : World) :
    w.zoned = w.rt.blocks.map (fun b => ⟨b.obj, rzPoison⟩) ++ w.otherZoned := rfl

theorem World.Painted.alloc (h : w.Painted) (hf : SoundFresh fresh)
    (heff : AllocEffect w.rt rt b align)
    (hfresh : fresh w b.realBase (b.realBase + b.totalSize)) :
    World.Painted { w with rt := rt } := by
  have hlaid := heff.laid (hf.aligned hfresh) (hf.top_lt hfresh) (hf.wrap hfresh)
  refine (heff.painted h hlaid (hf.disjoint_zoned hfresh)).perm ?_
  rw [World.zoned_eq, World.zoned_eq, heff.blocks, List.map_append, List.append_assoc]
  exact List.perm_middle.symm

theorem World.Painted.free (h : w.Painted) (heff : FreeEffect w.rt rt i b) :
    World.Painted { w with rt := rt } := by
  obtain ⟨rest, hbefore, hafter⟩ := heff.perm
  let zoned (b : Block) : Zoned := ⟨b.obj, rzPoison⟩
  have hp : Shadow.Painted w.rt.shadow (zoned b :: (rest.map zoned ++ w.otherZoned)) :=
    Shadow.Painted.perm h ((hbefore.map zoned).append_right _)
  exact (heff.painted hp).perm ((hafter.map zoned).append_right _).symm

theorem World.Painted.heap (h : w.Painted) (hf : SoundFresh fresh) {c : HeapCall}
    (hcall : w.rt.heapCall c = .ok rt) (hfresh : ∀ b ∈ rt.blocks.drop w.rt.blocks.length,
      fresh w b.realBase (b.realBase + b.totalSize)) : World.Painted { w with rt := rt } := by
  rcases heapCall_ok hcall with rfl | ⟨b, align, heff, -⟩ | ⟨i, b, heff, -⟩ |
    ⟨s₁, b, align, i, b', ⟨ha, -⟩, hfr, -⟩
  · exact h
  · refine h.alloc hf heff (hfresh b ?_)
    simp [heff.blocks]
  · exact h.free heff
  · obtain ⟨b'', hmem, hbase, htotal⟩ := ha.fresh_of_free hfr
    have hb := hfresh b'' hmem
    rw [hbase, htotal] at hb
    exact World.Painted.free (w := { w with rt := s₁ }) (h.alloc hf ha hb) hfr

/-- Entering a variable paints it. -/
theorem shadowLoad_stackEnter {v : StackVar} (hlaid : v.obj.Laid) (x : ℕ) :
    shadowLoad (redzoneStackEnter s v.base v.size).shadow x =
      if (Zoned.tile ⟨v.obj, stackRz⟩).Mem x then (Zoned.tile ⟨v.obj, stackRz⟩).val x
      else shadowLoad s.shadow x := by
  have htop := hlaid.top_lt
  simp only [StackVar.obj, redzoneSize] at htop
  have huser : (v.base + redzoneSize) % wordSize = v.base + redzoneSize :=
    Nat.mod_eq_of_lt (by simp only [redzoneSize]; omega)
  have htotal : (v.size + 2 * redzoneSize) % wordSize = v.size + 2 * redzoneSize :=
    Nat.mod_eq_of_lt (by simp only [redzoneSize]; omega)
  have hpaint := shadowLoad_paint s.shadow ⟨v.obj, stackRz⟩ x hlaid rfl
  simp only [redzoneStackEnter, huser, htotal]
  rw [← hpaint]
  simp only [StackVar.obj, Nat.add_assoc, Nat.add_sub_cancel_left]
  simp only [← Nat.add_assoc, Nat.add_sub_cancel_left]

/-- Leaving a variable clears its tile. -/
theorem shadowLoad_stackLeave {v : StackVar} (hlaid : v.obj.Laid) (x : ℕ) :
    shadowLoad (redzoneStackLeave s v.base v.size).shadow x =
      if (Zoned.tile ⟨v.obj, stackRz⟩).Mem x then 0 else shadowLoad s.shadow x := by
  have hal := hlaid.lo_aligned
  have htop := hlaid.top_lt
  have hwrap := hlaid.wrap
  simp only [StackVar.obj, redzoneSize] at hal htop hwrap
  have htotal : (v.size + 2 * redzoneSize) % wordSize = v.size + 2 * redzoneSize :=
    Nat.mod_eq_of_lt (by simp only [redzoneSize]; omega)
  have hmem : (Zoned.tile ⟨v.obj, stackRz⟩).Mem x ↔
      v.base ≤ x ∧ x < (v.base + v.size + 2 * redzoneSize + 7) / 8 * 8 := Iff.rfl
  simp only [redzoneStackLeave, htotal]
  rw [shadowLoad_setShadowRange_any (by simp only [redzoneSize]; omega)
    (by simp only [redzoneSize]; omega) (by simp only [redzoneSize]; omega)]
  by_cases hx : x < shadowLimit
  · refine if_congr ?_ rfl rfl
    rw [hmem]
    simp only [redzoneSize]
    omega
  · rw [if_neg (fun h => hx h.1), shadowLoad_of_le (Nat.not_lt.mp hx), ite_self]

/-- Registering an internal global paints it. -/
theorem shadowLoad_globalRegister {g : GlobalVar} (hdata : redzoneSize ≤ g.data)
    (hlaid : g.internalObj.Laid) (x : ℕ) :
    shadowLoad (redzoneGlobalRegister s g.data g.size).shadow x =
      if (Zoned.tile ⟨g.internalObj, globalRz⟩).Mem x then
        (Zoned.tile ⟨g.internalObj, globalRz⟩).val x
      else shadowLoad s.shadow x := by
  have htop := hlaid.top_lt
  simp only [GlobalVar.internalObj, redzoneSize] at htop hdata
  have hbase : (g.data + wordSize - redzoneSize) % wordSize = g.data - redzoneSize := by
    simp only [redzoneSize, wordSize] at htop ⊢
    omega
  have htotal : (g.size + 2 * redzoneSize) % wordSize = g.size + 2 * redzoneSize :=
    Nat.mod_eq_of_lt (by simp only [redzoneSize]; omega)
  have hpaint := shadowLoad_paint s.shadow ⟨g.internalObj, globalRz⟩ x hlaid rfl
  have hlen : g.data + g.size + redzoneSize - (g.data - redzoneSize) =
      g.size + 2 * redzoneSize := by
    simp only [redzoneSize]
    omega
  simp only [redzoneGlobalRegister, hbase, htotal]
  rw [← hpaint]
  simp only [GlobalVar.internalObj, hlen, Nat.add_sub_cancel_left]

/-- Registering an external global paints it. -/
theorem shadowLoad_globalRegisterRight {g : GlobalVar} (hlaid : g.externalObj.Laid) (x : ℕ) :
    shadowLoad (redzoneGlobalRegisterRight s g.data g.size).shadow x =
      if (Zoned.tile ⟨g.externalObj, globalRz⟩).Mem x then
        (Zoned.tile ⟨g.externalObj, globalRz⟩).val x
      else shadowLoad s.shadow x := by
  have htop := hlaid.top_lt
  simp only [GlobalVar.externalObj, redzoneSize] at htop
  have hend : (g.data + g.size) % wordSize = g.data + g.size := Nat.mod_eq_of_lt (by omega)
  have hpaint := shadowLoad_paint_right s.shadow ⟨g.externalObj, globalRz⟩ x hlaid rfl rfl
  simp only [redzoneGlobalRegisterRight, hend]
  rw [← hpaint]
  simp only [GlobalVar.externalObj, Nat.add_sub_cancel_left]

theorem World.Painted.stackEnter (h : w.Painted) (hf : SoundFresh fresh) {v : StackVar}
    (hfresh : fresh w v.base (v.base + v.size + 2 * redzoneSize)) :
    World.Painted
      { w with rt := redzoneStackEnter w.rt v.base v.size, stack := v :: w.stack } := by
  have hal := hf.aligned hfresh
  have htop := hf.top_lt hfresh
  have hwrap := hf.wrap hfresh
  have hlaid : v.obj.Laid :=
    Block.obj_laid hal htop hwrap le_rfl (by simp only [redzoneSize]; omega)
      (by simp only [redzoneSize]; omega) true
  have hins : Shadow.Painted (redzoneStackEnter w.rt v.base v.size).shadow
      (⟨v.obj, stackRz⟩ :: w.zoned) :=
    Painted.insert h hlaid (hf.disjoint_zoned hfresh) (shadowLoad_stackEnter hlaid)
  refine hins.perm ?_
  simp only [World.zoned, List.map_cons]
  exact List.perm_middle.symm

theorem World.Painted.stackLeave (h : w.Painted) {v : StackVar} (hv : v ∈ w.stack) :
    World.Painted
      { w with rt := redzoneStackLeave w.rt v.base v.size, stack := w.stack.erase v } := by
  have hperm : w.zoned.Perm (⟨v.obj, stackRz⟩ :: World.zoned
      { w with rt := redzoneStackLeave w.rt v.base v.size, stack := w.stack.erase v }) := by
    have hstack := (List.perm_cons_erase hv).map fun v => (⟨v.obj, stackRz⟩ : Zoned)
    refine ((hstack.append_right _).append_left _).trans ?_
    exact List.perm_middle
  have hp := Painted.perm h hperm
  exact hp.remove (shadowLoad_stackLeave (hp.laid _ List.mem_cons_self))

theorem World.Painted.globalRegister (h : w.Painted) (hf : SoundFresh fresh) {g : GlobalVar}
    (hdata : redzoneSize ≤ g.data)
    (hfresh : fresh w (g.data - redzoneSize) (g.data + g.size + redzoneSize)) :
    World.Painted { w with
      rt := redzoneGlobalRegister w.rt g.data g.size, internals := g :: w.internals } := by
  have hal := hf.aligned hfresh
  have htop := hf.top_lt hfresh
  have hwrap := hf.wrap hfresh
  simp only [redzoneSize] at hal htop hwrap hdata
  have hlaid : g.internalObj.Laid :=
    Block.obj_laid hal htop hwrap (by simp only [redzoneSize]; omega) (by omega) le_rfl true
  have hins : Shadow.Painted (redzoneGlobalRegister w.rt g.data g.size).shadow
      (⟨g.internalObj, globalRz⟩ :: w.zoned) :=
    Painted.insert h hlaid (hf.disjoint_zoned hfresh) (shadowLoad_globalRegister hdata hlaid)
  refine hins.perm ?_
  simp only [World.zoned, List.map_cons, List.cons_append]
  exact (List.perm_middle.symm.trans (List.perm_middle.append_left _).symm)

theorem World.Painted.globalRegisterRight (h : w.Painted) (hf : SoundFresh fresh)
    {g : GlobalVar} (hfresh : fresh w g.data (g.data + g.size + redzoneSize)) :
    World.Painted { w with
      rt := redzoneGlobalRegisterRight w.rt g.data g.size, externals := g :: w.externals } := by
  have hal := hf.aligned hfresh
  have htop := hf.top_lt hfresh
  have hwrap := hf.wrap hfresh
  simp only [redzoneSize] at htop hwrap
  have hlaid : g.externalObj.Laid := by
    refine ⟨hal, le_rfl, Or.inl rfl, ?_, ?_, ?_, ?_, ?_⟩ <;>
      simp only [GlobalVar.externalObj, redzoneSize] <;> omega
  have hins : Shadow.Painted (redzoneGlobalRegisterRight w.rt g.data g.size).shadow
      (⟨g.externalObj, globalRz⟩ :: w.zoned) :=
    Painted.insert h hlaid (hf.disjoint_zoned hfresh) (shadowLoad_globalRegisterRight hlaid)
  refine hins.perm ?_
  simp only [World.zoned, List.map_cons, ← List.append_assoc]
  exact List.perm_middle.symm

/-- Every step keeps the codes. -/
theorem World.Painted.stepWith [∀ w lo top, Decidable (fresh w lo top)] (h : w.Painted)
    (hf : SoundFresh fresh) {op : Op} (hstep : w.stepWith fresh op = some w') : w'.Painted := by
  cases op with
  | heap c =>
      simp only [World.stepWith] at hstep
      split at hstep
      · simp at hstep
      · rename_i rt hcall
        split at hstep
        · rename_i hfresh
          obtain rfl := Option.some.inj hstep
          exact h.heap hf hcall hfresh
        · simp at hstep
  | stackEnter v =>
      simp only [World.stepWith] at hstep
      split at hstep
      · rename_i hfresh
        obtain rfl := Option.some.inj hstep
        exact h.stackEnter hf hfresh
      · simp at hstep
  | stackLeave v =>
      simp only [World.stepWith] at hstep
      split at hstep
      · rename_i hv
        obtain rfl := Option.some.inj hstep
        exact h.stackLeave hv
      · simp at hstep
  | globalRegister g =>
      simp only [World.stepWith] at hstep
      split at hstep
      · rename_i hfresh
        obtain rfl := Option.some.inj hstep
        exact h.globalRegister hf hfresh.1 hfresh.2
      · simp at hstep
  | globalRegisterRight g =>
      simp only [World.stepWith] at hstep
      split at hstep
      · rename_i hfresh
        obtain rfl := Option.some.inj hstep
        exact h.globalRegisterRight hf hfresh
      · simp at hstep
  | store addr byte =>
      obtain rfl := Option.some.inj hstep
      exact h

/-- The codes of every reachable state. -/
theorem World.painted_of_run {ops : List Op} (h : worldRun ops = some w) : w.Painted := by
  unfold worldRun at h
  rw [World.step_eq_stepWith] at h
  exact run_invariant painted_initial
    (fun _ _ _ hp hstep => World.Painted.stepWith hp soundFresh_fresh hstep) ops h

/-! ## Bytes -/

theorem World.zone_neg {z : Zoned} (hz : z ∈ w.zoned) : z.zone < 0 := by
  have hrz : rzPoison < 0 := by decide
  have hstack : stackRz < 0 := by decide
  have hglobal : globalRz < 0 := by decide
  rw [World.zoned_eq] at hz
  rcases List.mem_append.mp hz with hz | hz
  · obtain ⟨b, -, rfl⟩ := List.mem_map.mp hz
    exact hrz
  rcases List.mem_append.mp hz with hz | hz
  · obtain ⟨v, -, rfl⟩ := List.mem_map.mp hz
    exact hstack
  rcases List.mem_append.mp hz with hz | hz
  · obtain ⟨g, -, rfl⟩ := List.mem_map.mp hz
    exact hglobal
  · obtain ⟨g, -, rfl⟩ := List.mem_map.mp hz
    exact hglobal

/-- A shadow byte that is not 0 belongs to an object. -/
theorem World.Painted.exists_of_load (h : w.Painted) {x : ℕ}
    (hload : shadowLoad w.rt.shadow x ≠ 0) :
    ∃ z ∈ w.zoned, z.tile.Mem x ∧ x < shadowLimit := by
  by_contra hnone
  push Not at hnone
  refine hload (h.tiling.outside x fun t ht hx => ?_)
  obtain ⟨z, hz, rfl⟩ := List.mem_map.mp ht
  exact hload (shadowLoad_of_le (hnone z hz hx))

/-- In the extent of an object the guards are poisoned, and no other bytes. -/
theorem World.Painted.bytePoisoned_of_mem (h : w.Painted) {z : Zoned} (hz : z ∈ w.zoned) {x : ℕ}
    (hx : z.tile.Mem x) (hlim : x < shadowLimit) :
    bytePoisoned w.rt.shadow x = true ↔ z.obj.region.Guards x := by
  have hlaid := h.laid z hz
  have hual := hlaid.user_aligned
  have hzone := World.zone_neg hz
  have hmem : z.obj.region.Mem x := hx
  have huser : z.obj.region.User x ↔
      z.obj.live = true ∧ z.obj.userLo ≤ x ∧ x < z.obj.userHi := Iff.rfl
  unfold bytePoisoned Region.Guards
  rw [Shadow.Painted.load_of_mem h hz hx hlim, huser, Zoned.code]
  simp only [hmem, true_and]
  by_cases hchunk : z.obj.userLo ≤ x / 8 * 8 ∧ x / 8 * 8 < z.obj.userHi
  · rw [if_pos hchunk]
    cases hlive : z.obj.live with
    | false => simp [freedPoison]
    | true =>
        by_cases hfull : x / 8 * 8 + 8 ≤ z.obj.userHi
        · have hin : z.obj.userLo ≤ x ∧ x < z.obj.userHi := by omega
          simp [hfull, hin]
        · have hpos : ¬ ((z.obj.userHi - x / 8 * 8 : ℕ) : ℤ) = 0 := by omega
          have hneg : ¬ ((z.obj.userHi - x / 8 * 8 : ℕ) : ℤ) < 0 := by omega
          rw [if_pos rfl, if_neg hfull, if_neg hpos, if_neg hneg, decide_eq_true_eq]
          have hlo : z.obj.userLo ≤ x := by omega
          simp only [hlo, true_and]
          omega
  · rw [if_neg hchunk, if_neg hzone.ne, if_pos hzone]
    refine iff_of_true rfl ?_
    rintro ⟨-, hlo, hhi⟩
    exact hchunk (by omega)

/-- The poisoned bytes are the guards of objects, as far as the shadow reaches. -/
theorem World.Painted.bytePoisoned_iff (h : w.Painted) (x : ℕ) :
    bytePoisoned w.rt.shadow x = true ↔
      x < shadowLimit ∧ ∃ o ∈ w.objs, o.region.Guards x := by
  constructor
  · intro hbad
    have hload : shadowLoad w.rt.shadow x ≠ 0 := by
      intro hzero
      simp [bytePoisoned, hzero] at hbad
    obtain ⟨z, hz, hx, hlim⟩ := h.exists_of_load hload
    refine ⟨hlim, z.obj, ?_, (h.bytePoisoned_of_mem hz hx hlim).mp hbad⟩
    rw [← World.zoned_obj]
    exact List.mem_map_of_mem hz
  · rintro ⟨hlim, o, ho, hguard⟩
    rw [← World.zoned_obj] at ho
    obtain ⟨z, hz, rfl⟩ := List.mem_map.mp ho
    exact (h.bytePoisoned_of_mem hz hguard.1 hlim).mpr hguard

end Painted

end Redzone.Shadow
