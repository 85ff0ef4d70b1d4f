/-
  Shadow/ReallocBad.lean --- `__redzone_realloc` of pointers that are no live block.

  The copy has one length rule for all pointers.  A foreign pointer has no block, so none
  of its bytes are carried over; a pointer into a live block is copied from with the size
  of the whole block, wherever it points.  What is wrong with the pointer comes out only in
  the free at the end, if the allocation before it succeeds.
-/
import Redzone.Shadow.Realloc

set_option autoImplicit false

namespace Redzone.Shadow

open Redzone.Foundation

section Outcome

variable {s s₁ : Rt} {ptr size np : ℕ} {file : Option String} {line : ℤ} {sys : Sys}

/-- Where the request is not granted, nothing comes of the pointer. -/
theorem redzoneRealloc_refused (file : Option String) (line : ℤ) (hp : ptr ≠ 0)
    (hsize : size ≠ 0) (hno : ¬ s.Grants size sys) :
    (∃ s', redzoneRealloc s ptr size file line sys = .ok (none, s')) ∨
      redzoneRealloc s ptr size file line sys = .error .outOfMemory := by
  rw [redzoneRealloc_eq hp hsize]
  cases hmalloc : redzoneMalloc s size file line sys with
  | error e =>
      obtain ⟨rfl, -⟩ := redzoneMalloc_error hmalloc
      exact Or.inr rfl
  | ok result =>
      obtain ⟨r, s'⟩ := result
      cases r with
      | none => exact Or.inl ⟨s', rfl⟩
      | some np => exact absurd (redzoneMalloc_isSome.mp ⟨np, s', hmalloc⟩) hno

theorem redzoneRealloc_of_malloc (hp : ptr ≠ 0) (hsize : size ≠ 0)
    (hmalloc : redzoneMalloc s size file line sys = .ok (some np, s₁)) :
    redzoneRealloc s ptr size file line sys =
      (redzoneFree (s₁.copied np ptr (reallocCopy s₁ ptr size)) ptr).map (some np, ·) := by
  rw [redzoneRealloc_eq hp hsize, hmalloc]
  simp only
  cases redzoneFree (s₁.copied np ptr (reallocCopy s₁ ptr size)) ptr with
  | error e => rfl
  | ok s' => rfl

end Outcome

/-! ## Foreign pointers -/

/-- A block of `len` bytes at `ptr` that the runtime has not allocated. -/
structure World.Foreign (w : World) (ptr len : ℕ) (sys : Sys) (total : ℕ) : Prop where
  nonnull : ptr ≠ 0
  outside : ∀ b ∈ w.rt.blocks, ¬ (b.realBase ≤ ptr ∧ ptr < b.realBase + b.totalSize)
  /-- What the system hands out now is apart from it. -/
  apart : ∀ base, sys.malloc = some base →
    base + total ≤ ptr ∨ (ptr < base ∧ ptr + len ≤ base)

/-- A successful reallocation to `size` bytes keeps what the block has in it. -/
def World.KeepsForeign (w : World) (ptr len size : ℕ) (file : Option String) (line : ℤ)
    (sys : Sys) : Prop :=
  ∀ np rt, redzoneRealloc w.rt ptr size file line sys = .ok (some np, rt) →
    ∀ k < min len size, rt.mem (np + k) = w.rt.mem (ptr + k)

section Foreign

variable {w : World} {rt : Rt} {b : Block} {ptr len size np : ℕ} {file : Option String}
  {line : ℤ} {sys : Sys}

/-- Nothing is copied, and the free ignores the pointer. -/
theorem World.Intact.realloc_foreign (h : w.Intact) (hsize : 1 ≤ size)
    (hfresh : w.HandsOut sys (size + 2 * redzoneSize))
    (hforeign : w.Foreign ptr len sys (size + 2 * redzoneSize))
    (hmalloc : redzoneMalloc w.rt size file line sys = .ok (some np, rt)) :
    redzoneRealloc w.rt ptr size file line sys = .ok (some np, rt) ∧
      ∃ base, sys.malloc = some base ∧ np = base + redzoneSize ∧
        ∀ x, np ≤ x → x < np + size → rt.mem x = w.rt.mem x := by
  obtain ⟨b, rfl, hm⟩ := h.malloc hfresh hmalloc
  have hout : ∀ c ∈ rt.blocks, ¬ (c.realBase ≤ ptr ∧ ptr < c.realBase + c.totalSize) := by
    intro c hc
    rw [hm.blocks, List.mem_append, List.mem_singleton] at hc
    rcases hc with hc | rfl
    · exact hforeign.outside c hc
    · have hapart := hforeign.apart _ hm.malloc
      have htotal := hm.total
      omega
  have hcopy : reallocCopy rt ptr size = 0 := by
    obtain ⟨hnone, hfind⟩ := hm.intact.inv.foreign hout
    have hsource : reallocSource rt ptr = none := by
      unfold reallocSource
      rw [hnone]
      exact hfind
    unfold reallocCopy
    rw [hsource]
  refine ⟨?_, b.realBase, hm.malloc, hm.user, fun x hlo hhi => ?_⟩
  · have hfree : redzoneFree rt ptr = .ok rt := hm.intact.inv.free_foreign hout
    have hsame : rt.copied b.userAddr ptr 0 = rt := rfl
    rw [redzoneRealloc_of_malloc hforeign.nonnull (by omega) hmalloc, hcopy, hsame, hfree]
    rfl
  · refine hm.mem_outside fun hin => ?_
    have huser := hm.user
    omega

theorem World.Intact.keepsForeign_iff (h : w.Intact) (hsize : 1 ≤ size)
    (hfresh : w.HandsOut sys (size + 2 * redzoneSize))
    (hforeign : w.Foreign ptr len sys (size + 2 * redzoneSize)) :
    w.KeepsForeign ptr len size file line sys ↔ (w.rt.Grants size sys →
      ∀ base, sys.malloc = some base →
        ∀ k < min len size, w.rt.mem (base + redzoneSize + k) = w.rt.mem (ptr + k)) := by
  constructor
  · intro hkeeps hgrants base hbase k hk
    obtain ⟨np, rt, hmalloc⟩ : ∃ np rt, redzoneMalloc w.rt size file line sys = .ok (some np, rt) :=
      redzoneMalloc_isSome.mpr hgrants
    obtain ⟨hrealloc, base', hbase', rfl, hmem⟩ := h.realloc_foreign hsize hfresh hforeign hmalloc
    obtain rfl : base = base' := Option.some.inj (hbase.symm.trans hbase')
    rw [← hkeeps _ _ hrealloc k hk, hmem _ (by omega) (by omega)]
  · intro hcond np rt hrealloc k hk
    have hgrants : w.rt.Grants size sys := by
      by_contra hno
      rcases redzoneRealloc_refused file line hforeign.nonnull
        (by omega : size ≠ 0) hno with ⟨s', hnull⟩ | habort
      · simp [hnull] at hrealloc
      · simp [habort] at hrealloc
    obtain ⟨np', rt', hmalloc⟩ : ∃ np rt,
        redzoneMalloc w.rt size file line sys = .ok (some np, rt) :=
      redzoneMalloc_isSome.mpr hgrants
    obtain ⟨hrealloc', base, hbase, hnp, hmem⟩ := h.realloc_foreign hsize hfresh hforeign hmalloc
    obtain ⟨hnp', rfl⟩ := Prod.mk.inj (Except.ok.inj (hrealloc.symm.trans hrealloc'))
    obtain rfl := Option.some.inj hnp'
    rw [hmem _ (by omega) (by omega), hnp]
    exact hcond hgrants base hbase k hk

end Foreign

/-- A reallocation keeps what a foreign block has in it exactly if the bytes that the
system hands out happen to be the same. -/
theorem foreign_realloc_iff {ops : List Op} {w : World} (hw : worldRun ops = some w)
    (hstores : EveryStep World.step World.MayStore .initial ops) {ptr len size : ℕ}
    (hsize : 1 ≤ size) (file : Option String) (line : ℤ) {sys : Sys}
    (hfresh : w.HandsOut sys (size + 2 * redzoneSize))
    (hforeign : w.Foreign ptr len sys (size + 2 * redzoneSize)) :
    w.KeepsForeign ptr len size file line sys ↔ (w.rt.Grants size sys →
      ∀ base, sys.malloc = some base →
        ∀ k < min len size, w.rt.mem (base + redzoneSize + k) = w.rt.mem (ptr + k)) :=
  (World.intact_of_run hw hstores).keepsForeign_iff hsize hfresh hforeign

/-- The program stores 7 in a block of one byte at `0x9000` that it has from a library. -/
def foreignRun : List Op := [.store 0x9000 7]

theorem foreign_foreignRun {w : World} (hw : worldRun foreignRun = some w) :
    w.Foreign 0x9000 1 ⟨some 0x1000, true⟩ (1 + 2 * redzoneSize) := by
  have hblocks : w.rt.blocks = [] := by
    obtain rfl := Option.some.inj hw
    rfl
  refine ⟨by decide, by simp [hblocks], ?_⟩
  intro base hbase
  obtain rfl := Option.some.inj hbase
  exact Or.inl (by decide)

theorem foreign_realloc_iff_foreignRun : ∃ w, worldRun foreignRun = some w ∧
    (w.KeepsForeign 0x9000 1 1 none 0 ⟨some 0x1000, true⟩ ↔
      (w.rt.Grants 1 ⟨some 0x1000, true⟩ → ∀ base, some 0x1000 = some base →
        ∀ k < min 1 1, w.rt.mem (base + redzoneSize + k) = w.rt.mem (0x9000 + k))) := by
  obtain ⟨w, hw⟩ : ∃ w, worldRun foreignRun = some w := ⟨_, rfl⟩
  have hfresh : w.HandsOut ⟨some 0x1000, true⟩ (1 + 2 * redzoneSize) := by
    obtain rfl := Option.some.inj hw
    decide +kernel
  exact ⟨w, hw, foreign_realloc_iff hw (by decide +kernel) (by decide) none 0 hfresh
    (foreign_foreignRun hw)⟩

/-- The byte 7 is lost. -/
theorem foreign_realloc_loses : ∃ w, worldRun foreignRun = some w ∧
    w.HandsOut ⟨some 0x1000, true⟩ (1 + 2 * redzoneSize) ∧
    w.Foreign 0x9000 1 ⟨some 0x1000, true⟩ (1 + 2 * redzoneSize) ∧
    ¬ w.KeepsForeign 0x9000 1 1 none 0 ⟨some 0x1000, true⟩ := by
  obtain ⟨w, hw⟩ : ∃ w, worldRun foreignRun = some w := ⟨_, rfl⟩
  have hfresh : w.HandsOut ⟨some 0x1000, true⟩ (1 + 2 * redzoneSize) := by
    obtain rfl := Option.some.inj hw
    decide +kernel
  refine ⟨w, hw, hfresh, foreign_foreignRun hw, fun hkeeps => ?_⟩
  have hintact := World.intact_of_run hw (by decide +kernel)
  have hcond := (hintact.keepsForeign_iff (by decide) hfresh (foreign_foreignRun hw)).mp hkeeps
  obtain rfl := Option.some.inj hw
  exact absurd (hcond (by decide +kernel) 0x1000 rfl 0 (by decide)) (by decide +kernel)

/-! ## Pointers into blocks -/

/-- The bytes that the copy reads. -/
def reallocReads (s : Rt) (ptr size : ℕ) (file : Option String) (line : ℤ) (sys : Sys) :
    Finset ℕ :=
  match redzoneMalloc s size file line sys with
  | .ok (some _, s) => Finset.Ico ptr (ptr + reallocCopy s ptr size)
  | _ => ∅

/-- The pointer lies in the extent of block `b`, and is not the start of a live block. -/
structure BadPointer (b : Block) (ptr : ℕ) : Prop where
  nonnull : ptr ≠ 0
  left : b.realBase ≤ ptr
  right : ptr < b.realBase + b.totalSize
  bad : ¬ (b.userAddr = ptr ∧ b.freed = false)

/-- The call ends in the report that `__redzone_free` gives for the pointer, and reads
user bytes of the block at most. -/
def World.ReportsCleanly (w : World) (b : Block) (ptr size : ℕ) (file : Option String) (line : ℤ)
    (sys : Sys) : Prop :=
  (∃ kind, redzoneFree w.rt ptr = .error (.freeError kind ptr) ∧
    redzoneRealloc w.rt ptr size file line sys = .error (.freeError kind ptr)) ∧
  ∀ x ∈ reallocReads w.rt ptr size file line sys,
    b.userAddr ≤ x ∧ x < b.userAddr + b.userSize

/-- What the copy would read from the pointer on is in the user region of the block. -/
def CopiesInside (b : Block) (ptr size : ℕ) : Prop :=
  b.freed = true ∨ b.userSize = 0 ∨
    (b.userAddr ≤ ptr ∧ ptr + min b.userSize size ≤ b.userAddr + b.userSize)

instance (b : Block) (ptr size : ℕ) : Decidable (CopiesInside b ptr size) :=
  inferInstanceAs (Decidable (_ ∨ _ ∨ _))

section Bad

variable {w : World} {rt : Rt} {b : Block} {ptr len size np : ℕ} {file : Option String}
  {line : ℤ} {sys : Sys}

/-- The report for a bad pointer. -/
theorem World.Intact.free_bad (h : w.Intact) (hb : b ∈ w.rt.blocks) (hbad : BadPointer b ptr) :
    redzoneFree w.rt ptr =
      .error (.freeError (if b.userAddr = ptr then "double-free" else "invalid-free") ptr) := by
  split
  · rename_i hu
    subst hu
    have hfreed : b.freed = true := by simpa using fun hlive => hbad.bad ⟨rfl, hlive⟩
    exact h.free_freed hb hfreed
  · rename_i hu
    exact h.inv.free_interior hb hbad.left hbad.right hu hbad.nonnull

/-- How many bytes are copied from a bad pointer. -/
theorem World.Intact.reallocCopy_bad (h : w.Intact) (hb : b ∈ w.rt.blocks)
    (hbad : BadPointer b ptr) :
    reallocCopy w.rt ptr size = if b.freed then 0 else min b.userSize size := by
  rcases eq_or_ne b.userAddr ptr with hu | hu
  · subst hu
    obtain ⟨i, hi⟩ := List.mem_iff_getElem?.mp hb
    unfold reallocCopy reallocSource
    rw [h.lookup_iff.mpr ⟨b, hi, rfl⟩]
    simp only [hi]
  · obtain ⟨hnone, c, hfind, -, hregion⟩ := h.inv.interior hb hbad.left hbad.right hu
    have hfreed : c.freed = b.freed := by
      have hlive := congrArg Region.live hregion
      simpa [Obj.region, Block.obj] using hlive
    have hsize : c.userSize = b.userSize := by
      have hlo := congrArg Region.innerLo hregion
      have hhi := congrArg Region.innerHi hregion
      simp only [Obj.region, Block.obj] at hlo hhi
      omega
    unfold reallocCopy reallocSource
    rw [hnone]
    simp only [hfind, hfreed, hsize]

/-- With a block for the copy, the report is that of the free. -/
theorem World.Intact.realloc_bad (h : w.Intact) (hsize : 1 ≤ size)
    (hfresh : w.HandsOut sys (size + 2 * redzoneSize)) (hb : b ∈ w.rt.blocks)
    (hbad : BadPointer b ptr)
    (hmalloc : redzoneMalloc w.rt size file line sys = .ok (some np, rt)) :
    redzoneRealloc w.rt ptr size file line sys =
        .error (.freeError (if b.userAddr = ptr then "double-free" else "invalid-free") ptr) ∧
      reallocReads w.rt ptr size file line sys =
        Finset.Ico ptr (ptr + if b.freed then 0 else min b.userSize size) := by
  obtain ⟨b', rfl, hm⟩ := h.malloc hfresh hmalloc
  have hb₁ : b ∈ rt.blocks := by
    rw [hm.blocks]
    exact List.mem_append_left _ hb
  have hcopy : reallocCopy rt ptr size = if b.freed then 0 else min b.userSize size :=
    hm.intact.reallocCopy_bad hb₁ hbad
  constructor
  · have hcopied := hm.copied ptr (reallocCopy_le : reallocCopy rt ptr size ≤ size)
    have hfree := hcopied.free_bad (by simpa [copied_blocks] using hb₁) hbad
    rw [redzoneRealloc_of_malloc hbad.nonnull (by omega) hmalloc]
    simp only at hfree
    rw [hfree]
    rfl
  · unfold reallocReads
    rw [hmalloc]
    simp only [hcopy]

theorem World.Intact.reportsCleanly_iff (h : w.Intact) (hsize : 1 ≤ size)
    (hfresh : w.HandsOut sys (size + 2 * redzoneSize)) (hb : b ∈ w.rt.blocks)
    (hbad : BadPointer b ptr) :
    w.ReportsCleanly b ptr size file line sys ↔
      w.rt.Grants size sys ∧ CopiesInside b ptr size := by
  have hfree := h.free_bad hb hbad
  rcases Classical.em (w.rt.Grants size sys) with hgrants | hno
  · obtain ⟨np, rt, hmalloc⟩ : ∃ np rt, redzoneMalloc w.rt size file line sys = .ok (some np, rt) :=
      redzoneMalloc_isSome.mpr hgrants
    obtain ⟨hrealloc, hreads⟩ := h.realloc_bad hsize hfresh hb hbad hmalloc
    have hreport : ∃ kind, redzoneFree w.rt ptr = .error (.freeError kind ptr) ∧
        redzoneRealloc w.rt ptr size file line sys = .error (.freeError kind ptr) :=
      ⟨_, hfree, hrealloc⟩
    unfold World.ReportsCleanly
    rw [and_iff_right hreport, and_iff_right hgrants, hreads]
    unfold CopiesInside
    cases hfreed : b.freed with
    | true => simp
    | false =>
        simp only [Bool.false_eq_true, if_false, false_or, Finset.mem_Ico]
        constructor
        · intro hin
          rcases Nat.eq_zero_or_pos b.userSize with hzero | hpos
          · exact Or.inl hzero
          · have hfirst := hin ptr (by omega)
            have hlast := hin (ptr + min b.userSize size - 1) (by omega)
            omega
        · intro hin x hx
          omega
  · refine iff_of_false (fun hclean => ?_) fun hcond => hno hcond.1
    obtain ⟨⟨kind, -, hrealloc⟩, -⟩ := hclean
    rcases redzoneRealloc_refused file line hbad.nonnull
      (by omega : size ≠ 0) hno with ⟨s', hnull⟩ | habort
    · simp [hnull] at hrealloc
    · simp [habort] at hrealloc

end Bad

/-- A reallocation of a bad pointer is reported as its free would be, without a read outside
the user region, exactly if the request is granted and the copy stays inside. -/
theorem bad_realloc_iff {ops : List Op} {w : World} (hw : worldRun ops = some w)
    (hstores : EveryStep World.step World.MayStore .initial ops) {b : Block}
    (hb : b ∈ w.rt.blocks) {ptr size : ℕ} (hbad : BadPointer b ptr) (hsize : 1 ≤ size)
    (file : Option String) (line : ℤ) {sys : Sys}
    (hfresh : w.HandsOut sys (size + 2 * redzoneSize)) :
    w.ReportsCleanly b ptr size file line sys ↔
      w.rt.Grants size sys ∧ CopiesInside b ptr size :=
  (World.intact_of_run hw hstores).reportsCleanly_iff hsize hfresh hb hbad

/-- A live block of 40 bytes at `0x1010`. -/
def liveRun : List Op := [.heap (.malloc 40 none 0 ⟨some 0x1000, true⟩)]

def liveBlock : Block := ⟨0x1000, 72, 0x1010, 40, false, none, 0⟩

theorem liveRun_world : ∃ w, worldRun liveRun = some w ∧ liveBlock ∈ w.rt.blocks ∧
    (∀ size, w.HandsOut ⟨none, true⟩ size) ∧
    w.HandsOut ⟨some 0x2000, true⟩ (40 + 2 * redzoneSize) := by
  have hany : (worldRun liveRun).any (fun w : World =>
      decide (liveBlock ∈ w.rt.blocks) &&
        decide (w.HandsOut ⟨some 0x2000, true⟩ (40 + 2 * redzoneSize))) = true := by
    decide +kernel
  obtain ⟨w, hw, hcond⟩ := (Option.any_eq_true ..).mp hany
  rw [Bool.and_eq_true, decide_eq_true_eq, decide_eq_true_eq] at hcond
  exact ⟨w, hw, hcond.1, fun size base hbase => by simp at hbase, hcond.2⟩

theorem badPointer_liveBlock : BadPointer liveBlock 0x1018 :=
  ⟨by decide, by decide, by decide, by decide⟩

/-- From offset 8 at most 32 bytes can be copied. -/
theorem bad_realloc_iff_liveRun : ∃ w, worldRun liveRun = some w ∧
    (w.ReportsCleanly liveBlock 0x1018 40 none 0 ⟨some 0x2000, true⟩ ↔
      w.rt.Grants 40 ⟨some 0x2000, true⟩ ∧ CopiesInside liveBlock 0x1018 40) := by
  obtain ⟨w, hw, hb, -, hfresh⟩ := liveRun_world
  exact ⟨w, hw, bad_realloc_iff hw (by decide +kernel) hb badPointer_liveBlock (by decide) none 0
    hfresh⟩

/-- The copy from offset 8 reads 8 bytes behind the user region; and without memory for a
new block nothing is reported. -/
theorem bad_realloc_overreads : ∃ w, worldRun liveRun = some w ∧ liveBlock ∈ w.rt.blocks ∧
    BadPointer liveBlock 0x1018 ∧
    ¬ w.ReportsCleanly liveBlock 0x1018 40 none 0 ⟨some 0x2000, true⟩ ∧
    ¬ w.ReportsCleanly liveBlock 0x1018 40 none 0 ⟨none, true⟩ := by
  obtain ⟨w, hw, hb, hnull, hfresh⟩ := liveRun_world
  have hintact := World.intact_of_run hw (by decide +kernel)
  refine ⟨w, hw, hb, badPointer_liveBlock, fun hclean => ?_, fun hclean => ?_⟩
  · have hcond := (hintact.reportsCleanly_iff (by decide) hfresh hb badPointer_liveBlock).mp hclean
    exact absurd hcond.2 (by decide)
  · have hcond := (hintact.reportsCleanly_iff (by decide) (hnull _) hb
      badPointer_liveBlock).mp hclean
    exact hcond.1.2.1 rfl

end Redzone.Shadow
