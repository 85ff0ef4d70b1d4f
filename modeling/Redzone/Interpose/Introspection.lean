/-
  Interpose/Introspection.lean --- what the runtime answers when it is asked about a
  pointer.

  `__redzone_owns` goes by the header, `__redzone_maybe_owns` by one shadow byte, and
  `__redzone_usable_size` by the recorded size, for which 0 also means that the pointer is
  not a block.  A block may have 0 bytes, so the last answer is ambiguous: it is right for
  all pointers exactly while no such block, and none beyond `SHADOW_LIMIT`, is recorded.
-/
import Redzone.Interpose.Heaps
import Redzone.Shadow.FreePointer

set_option autoImplicit false

namespace Redzone.Interpose

open Redzone.Foundation
open Redzone.Shadow

/-- The answer to a question that is asked outside of a locked section. -/
def ask {α : Type} (w : World) (m : Call α) : Except Stop α := (exec m ⟨w.rt, 0, []⟩).1

/-- A recorded block starts at the pointer. -/
def StartsBlock (w : World) (ptr : ℕ) : Prop := ∃ b ∈ w.rt.blocks, b.userAddr = ptr

/-- The answers about a pointer are consistent, and the two sizes that the system is told
recognise it exactly if it is a block. -/
structure Agrees (w : World) (ptr : ℕ) : Prop where
  predicates : ∃ owned maybe size, ask w (redzoneOwns ptr) = .ok owned ∧
    ask w (redzoneMaybeOwns ptr) = .ok maybe ∧ ask w (redzoneUsableSize ptr) = .ok size ∧
    (owned = true → maybe = true) ∧ (size ≠ 0 ↔ owned = true)
  zoneSize : ∃ size, ask w (rzZoneSize ptr) = .ok size ∧ (size ≠ 0 ↔ StartsBlock w ptr)
  mallocSize : ∀ a, ∃ size, ask w (rzIMallocSize ptr a) = .ok size ∧
    (StartsBlock w ptr → size ≠ 0) ∧
    (¬ StartsBlock w ptr → size = if ptr = 0 then 0 else a.defaultSize)

/-- The size that the table has for a pointer, 0 without a block. -/
def recordedSize (s : Rt) (ptr : ℕ) : ℕ :=
  ((blockFromUserPtr s ptr).bind fun i => s.blocks[i]?).elim 0 Block.userSize

section Answers

variable {w : World} {ptr i : ℕ} {b : Block} {a : Answers}

/-- There is no room for a header below `NULL`. -/
theorem blockFromUserPtr_null {s : Rt} : blockFromUserPtr s 0 = none := rfl

theorem ask_redzoneOwns :
    ask w (redzoneOwns ptr) = .ok (blockFromUserPtr w.rt ptr).isSome := by
  unfold ask redzoneOwns
  rcases eq_or_ne ptr 0 with rfl | hp
  · rw [if_pos rfl, blockFromUserPtr_null]
    rfl
  · rw [if_neg hp, exec_locked_of_eq_zero rfl]

theorem ask_redzoneUsableSize :
    ask w (redzoneUsableSize ptr) = .ok (recordedSize w.rt ptr) := by
  unfold ask redzoneUsableSize recordedSize
  rcases eq_or_ne ptr 0 with rfl | hp
  · rw [if_pos rfl, blockFromUserPtr_null]
    rfl
  · rw [if_neg hp, exec_locked_of_eq_zero rfl]

theorem ask_redzoneMaybeOwns : ask w (redzoneMaybeOwns ptr) =
    .ok (decide (headerSize ≤ ptr ∧ shadowLoad w.rt.shadow (ptr - 8) = rzPoison)) := by
  unfold ask
  rw [exec_redzoneMaybeOwns]

/-- `malloc_size` asks the default zone about what the runtime does not own. -/
theorem ask_rzIMallocSize : ask w (rzIMallocSize ptr a) =
    .ok (if (blockFromUserPtr w.rt ptr).isSome then recordedSize w.rt ptr
      else if ptr = 0 then 0 else a.defaultSize) := by
  unfold ask rzIMallocSize
  rcases eq_or_ne ptr 0 with rfl | hp
  · rw [if_pos rfl, blockFromUserPtr_null]
    rfl
  · rw [if_neg hp, exec_owned rfl hp, if_neg hp]
    split
    · exact ask_redzoneUsableSize
    · rfl

/-- What is owned may be owned: the header lookup asks the same shadow byte first. -/
theorem maybe_of_found {s : Rt} (h : (blockFromUserPtr s ptr).isSome = true) :
    headerSize ≤ ptr ∧ shadowLoad s.shadow (ptr - 8) = rzPoison := by
  unfold blockFromUserPtr at h
  split at h
  · simp at h
  split at h
  · simp at h
  · rename_i hroom hload
    exact ⟨Nat.not_lt.mp hroom, not_not.mp hload⟩

end Answers

section Reachable

variable {w : World} {ptr : ℕ} {es : List Event}

/-- Without a block at the pointer all answers are no. -/
theorem Sound.agrees_foreign (hno : ¬ StartsBlock w ptr) : Agrees w ptr := by
  have hnone : blockFromUserPtr w.rt ptr = none :=
    blockFromUserPtr_none fun b hb hptr => hno ⟨b, hb, hptr⟩
  have hsize : recordedSize w.rt ptr = 0 := by
    unfold recordedSize
    rw [hnone]
    rfl
  refine ⟨⟨_, _, _, ask_redzoneOwns, ask_redzoneMaybeOwns, ask_redzoneUsableSize, ?_, ?_⟩,
    ⟨_, ask_redzoneUsableSize, ?_⟩, fun a => ⟨_, ask_rzIMallocSize, ?_, fun _ => ?_⟩⟩
  · simp [hnone]
  · simp [hnone, hsize]
  · simp [hsize, hno]
  · exact fun hyes => absurd hyes hno
  · simp [hnone]

/-- The answers about a block agree if it has bytes and the shadow covers its start. -/
theorem Sound.agrees_block (h : Sound w) {b : Block} (hb : b ∈ w.rt.blocks) :
    Agrees w b.userAddr ↔ b.userSize ≠ 0 ∧ b.userAddr ≤ shadowLimit := by
  have hyes : StartsBlock w b.userAddr := ⟨b, hb, rfl⟩
  obtain ⟨i, hi⟩ := List.mem_iff_getElem?.mp hb
  rcases Nat.lt_or_ge shadowLimit b.userAddr with hfar | hlim
  · -- beyond the limit the zone does not recognise the block
    refine iff_of_false (fun hagrees => ?_) fun hcond => absurd hcond.2 (Nat.not_le.mpr hfar)
    obtain ⟨size, hask, hrec⟩ := hagrees.zoneSize
    have hnone : blockFromUserPtr w.rt b.userAddr = none := by
      rw [← Option.not_isSome_iff_eq_none, h.lookup_isSome]
      rintro ⟨_, -, -, hle⟩
      exact absurd hle (Nat.not_le.mpr hfar)
    have hsize : ask w (rzZoneSize b.userAddr) = .ok 0 := by
      unfold rzZoneSize
      rw [ask_redzoneUsableSize, recordedSize, hnone]
      rfl
    obtain rfl := Except.ok.inj (hask.symm.trans hsize)
    exact hrec.mpr hyes rfl
  · have hfound : blockFromUserPtr w.rt b.userAddr = some i := by
      obtain ⟨hp, hr, hh⟩ := h
      exact (hp.blockFromUserPtr_eq hr hi).mpr ⟨hlim, hh i b hi hlim⟩
    have hsize : recordedSize w.rt b.userAddr = b.userSize := by
      unfold recordedSize
      rw [hfound, Option.bind_some, hi]
      rfl
    constructor
    · intro hagrees
      obtain ⟨size, hask, hrec⟩ := hagrees.zoneSize
      have hzone : ask w (rzZoneSize b.userAddr) = .ok b.userSize := by
        unfold rzZoneSize
        rw [ask_redzoneUsableSize, hsize]
      obtain rfl := Except.ok.inj (hask.symm.trans hzone)
      exact ⟨hrec.mpr hyes, hlim⟩
    · rintro ⟨hne, -⟩
      refine ⟨⟨_, _, _, ask_redzoneOwns, ask_redzoneMaybeOwns, ask_redzoneUsableSize, ?_, ?_⟩,
        ⟨_, ask_redzoneUsableSize, ?_⟩, fun a => ⟨_, ask_rzIMallocSize, fun _ => ?_, ?_⟩⟩
      · exact fun hsome => decide_eq_true (maybe_of_found hsome)
      · simp [hfound, hsize, hne]
      · simp [hsize, hne, hyes]
      · simp [hfound, hsize, hne]
      · exact fun hno => absurd hyes hno

/-- What is known holds in every state of a run. -/
theorem sound_of_run (hrun : run istep .initial es = some w)
    (hstores : EveryStep istep MayStore .initial es) : Sound w :=
  run_induction (P := fun _ w => Sound w) sound_initial
    (fun _ _ _ _ _ hmay h hstep => h.istep hmay hstep) es hstores hrun

/-- In every state that a process under interposition reaches, the answers about a pointer
agree exactly if a block that starts there has bytes and starts below the limit of the
shadow. -/
theorem introspection_agrees_iff (hrun : run istep .initial es = some w)
    (hstores : EveryStep istep MayStore .initial es) (ptr : ℕ) :
    Agrees w ptr ↔
      ∀ b ∈ w.rt.blocks, b.userAddr = ptr → b.userSize ≠ 0 ∧ b.userAddr ≤ shadowLimit := by
  have h := sound_of_run hrun hstores
  constructor
  · rintro hagrees b hb rfl
    exact (h.agrees_block hb).mp hagrees
  · intro hcond
    rcases Classical.em (StartsBlock w ptr) with ⟨b, hb, rfl⟩ | hno
    · exact (h.agrees_block hb).mpr (hcond b hb rfl)
    · exact Sound.agrees_foreign hno

/-- `malloc(0)`. -/
def emptyBlockRun : List Event :=
  [.call 0 (.malloc 0) ⟨⟨some 0x1000, true⟩, none, 0, true, 0⟩]

theorem emptyBlockRun_world : ∃ w, run istep .initial emptyBlockRun = some w ∧
    ⟨0x1000, 32, 0x1010, 0, false, none, 0⟩ ∈ w.rt.blocks := by
  have hany : (run istep .initial emptyBlockRun).any (fun w : World =>
      decide (⟨0x1000, 32, 0x1010, 0, false, none, 0⟩ ∈ w.rt.blocks)) = true := by
    decide +kernel
  obtain ⟨w, hw, hb⟩ := (Option.any_eq_true ..).mp hany
  exact ⟨w, hw, of_decide_eq_true hb⟩

theorem introspection_agrees_iff_emptyBlock : ∃ w, run istep .initial emptyBlockRun = some w ∧
    (Agrees w 0x1010 ↔ ∀ b ∈ w.rt.blocks, b.userAddr = 0x1010 →
      b.userSize ≠ 0 ∧ b.userAddr ≤ shadowLimit) := by
  obtain ⟨w, hw, -⟩ := emptyBlockRun_world
  exact ⟨w, hw, introspection_agrees_iff hw (by decide +kernel) 0x1010⟩

/-- The runtime owns the block, and says that it has no size. -/
theorem emptyBlock_disagrees : ∃ w, run istep .initial emptyBlockRun = some w ∧
    ask w (redzoneOwns 0x1010) = .ok true ∧ ask w (redzoneUsableSize 0x1010) = .ok 0 ∧
    ¬ Agrees w 0x1010 := by
  obtain ⟨w, hw, hb⟩ := emptyBlockRun_world
  have h := sound_of_run hw (by decide +kernel)
  have howned : (blockFromUserPtr w.rt 0x1010).isSome = true :=
    h.lookup_isSome.mpr ⟨_, hb, rfl, by decide⟩
  obtain ⟨i, hi⟩ := List.mem_iff_getElem?.mp hb
  have hfound : blockFromUserPtr w.rt 0x1010 = some i := by
    obtain ⟨hp, hr, hh⟩ := h
    exact (hp.blockFromUserPtr_eq hr hi).mpr ⟨by decide, hh i _ hi (by decide)⟩
  refine ⟨w, hw, by rw [ask_redzoneOwns, howned], ?_, fun hagrees => ?_⟩
  · rw [ask_redzoneUsableSize, recordedSize, hfound, Option.bind_some, hi]
    rfl
  · exact ((h.agrees_block hb).mp hagrees).1 rfl

end Reachable

end Redzone.Interpose
