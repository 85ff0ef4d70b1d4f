/-
  Interpose/Calls.lean --- what the calls of the interposer do to the runtime.

  Outside of a locked section a call that returns does what one call of the allocator
  does, or nothing (`perform_outside`); inside of one it writes the block that the system
  handed out, at most (`perform_inside`).  `HandsOnly` and `LooksOnly` follow the parts of
  a call: which pointers are handed over, and that the runtime stays as it is.
-/
import Redzone.Interpose.Locking

set_option autoImplicit false

namespace Redzone.Interpose

open Redzone.Foundation
open Redzone.Shadow

/-! ## What is handed over -/

/-- The call hands over pointers with `P` only. -/
def HandsOnly {α : Type} (P : Handoff → Prop) (m : Call α) : Prop :=
  ∀ c, ∀ h ∈ (exec m c).2.handed, h ∈ c.handed ∨ P h

section Hands

variable {α β : Type} {P : Handoff → Prop} {a : Answers} {size nmemb ptr : ℕ}
  {file : Option String} {line : ℤ}

theorem HandsOnly.pure (x : α) : HandsOnly P (Pure.pure x : Call α) := fun _ _ h => Or.inl h

theorem HandsOnly.bind {m : Call α} {f : α → Call β} (hm : HandsOnly P m)
    (hf : ∀ x, HandsOnly P (f x)) : HandsOnly P (m >>= f) := by
  intro c h hh
  rw [exec_bind] at hh
  have hfirst := hm c h
  rcases hexec : exec m c with ⟨e | x, c₁⟩
  · rw [hexec] at hh hfirst
    exact hfirst hh
  · rw [hexec] at hh hfirst
    rcases hf x c₁ h hh with hin | hP
    · exact hfirst hin
    · exact Or.inr hP

theorem HandsOnly.ite {p : Prop} [Decidable p] {m m' : Call α} (hm : HandsOnly P m)
    (hm' : HandsOnly P m') : HandsOnly P (if p then m else m') := by
  split
  · exact hm
  · exact hm'

theorem HandsOnly.hand {h : Handoff} (hP : P h) : HandsOnly P (hand h) := by
  intro c h' hh
  rw [exec_hand] at hh
  rcases List.mem_append.mp hh with hin | hlast
  · exact Or.inl hin
  · rw [List.mem_singleton.mp hlast]
    exact Or.inr hP

theorem HandsOnly.modify {f : Ctx → Ctx} (hf : ∀ c, (f c).handed = c.handed) :
    HandsOnly P (modify f) := by
  intro c h hh
  rw [exec_modify] at hh
  exact Or.inl (hf c ▸ hh)

theorem HandsOnly.locked {f : Rt → Except Abort (α × Rt)} : HandsOnly P (locked f) := by
  intro c h hh
  refine Or.inl ?_
  rcases Nat.eq_zero_or_pos c.inRuntime with hin | hin
  · rw [exec_locked_of_eq_zero hin] at hh
    split at hh
    · exact hh
    · exact hh
  · rw [exec_locked_of_pos hin] at hh
    exact hh

theorem HandsOnly.lockedMalloc : HandsOnly P (lockedMalloc size file line a.sys) := by
  unfold Interpose.lockedMalloc lockedAllocate
  refine HandsOnly.ite (HandsOnly.pure _) ?_
  split
  · exact HandsOnly.pure _
  · exact HandsOnly.locked

theorem HandsOnly.lockedCalloc : HandsOnly P (lockedCalloc nmemb size file line a.sys) := by
  unfold Interpose.lockedCalloc
  refine HandsOnly.ite (HandsOnly.pure _) (HandsOnly.bind HandsOnly.lockedMalloc fun r => ?_)
  cases r with
  | none => exact HandsOnly.pure _
  | some p => exact HandsOnly.bind (HandsOnly.modify fun _ => rfl) fun _ => HandsOnly.pure _

theorem HandsOnly.lockedFree (hP : P (.redzoneFree ptr)) : HandsOnly P (lockedFree ptr) := by
  unfold Interpose.lockedFree
  refine HandsOnly.bind (HandsOnly.hand hP) fun _ => ?_
  exact HandsOnly.ite (HandsOnly.pure _) HandsOnly.locked

theorem HandsOnly.lockedRealloc (hP : P (.redzoneRealloc ptr)) (hP' : P (.redzoneFree ptr)) :
    HandsOnly P (lockedRealloc ptr size file line a.sys) := by
  have hfree : HandsOnly P (Interpose.lockedFree ptr) := HandsOnly.lockedFree hP'
  unfold Interpose.lockedRealloc
  refine HandsOnly.bind (HandsOnly.hand hP) fun _ => HandsOnly.ite HandsOnly.lockedMalloc ?_
  refine HandsOnly.ite (HandsOnly.bind hfree fun _ => HandsOnly.pure _) ?_
  refine HandsOnly.bind HandsOnly.lockedMalloc fun r => ?_
  cases r with
  | none => exact HandsOnly.pure _
  | some np =>
      refine HandsOnly.bind HandsOnly.locked fun copy => ?_
      have hlast : HandsOnly P (do Interpose.lockedFree ptr; return some np) :=
        HandsOnly.bind hfree fun _ => HandsOnly.pure _
      exact HandsOnly.ite (HandsOnly.bind (HandsOnly.modify fun _ => rfl) fun _ => hlast) hlast

theorem HandsOnly.discard {m : Call α} (h : HandsOnly P m) : HandsOnly P (discard m) := by
  intro c
  rw [exec_discard]
  exact h c

theorem HandsOnly.redzoneOwns : HandsOnly P (redzoneOwns ptr) :=
  HandsOnly.ite (HandsOnly.pure _) HandsOnly.locked

theorem HandsOnly.redzoneUsableSize : HandsOnly P (redzoneUsableSize ptr) :=
  HandsOnly.ite (HandsOnly.pure _) HandsOnly.locked

theorem HandsOnly.redzoneInRuntime : HandsOnly P redzoneInRuntime := fun _ _ h => Or.inl h

theorem HandsOnly.rzIMalloc : HandsOnly P (rzIMalloc size a) :=
  HandsOnly.bind HandsOnly.redzoneInRuntime fun _ =>
    HandsOnly.ite (HandsOnly.pure _) HandsOnly.lockedMalloc

theorem HandsOnly.rzICalloc : HandsOnly P (rzICalloc nmemb size a) := by
  unfold Interpose.rzICalloc
  refine HandsOnly.bind HandsOnly.redzoneInRuntime fun _ => HandsOnly.ite ?_ HandsOnly.lockedCalloc
  split
  · exact HandsOnly.pure _
  · exact HandsOnly.bind (HandsOnly.modify fun _ => rfl) fun _ => HandsOnly.pure _

theorem HandsOnly.rzIMallocSize : HandsOnly P (rzIMallocSize ptr a) := by
  unfold Interpose.rzIMallocSize
  refine HandsOnly.ite (HandsOnly.pure _) (HandsOnly.bind HandsOnly.redzoneOwns fun owned => ?_)
  exact HandsOnly.ite HandsOnly.redzoneUsableSize (HandsOnly.pure _)

theorem HandsOnly.rzIZoneFromPtr : HandsOnly P (rzIZoneFromPtr ptr a) := by
  have hrest : ∀ owned : Bool, HandsOnly P (do
      if owned then return ZoneOf.redzone
      if a.asksZones then Functor.discard (rzZoneSize ptr)
      return ZoneOf.other a.zoneFromPtr) := by
    intro owned
    refine HandsOnly.ite (HandsOnly.pure _) (HandsOnly.ite ?_ (HandsOnly.pure _))
    exact HandsOnly.bind (HandsOnly.discard HandsOnly.redzoneUsableSize) fun _ => HandsOnly.pure _
  exact HandsOnly.ite (HandsOnly.bind (HandsOnly.pure _) hrest)
    (HandsOnly.bind HandsOnly.redzoneOwns hrest)

end Hands

/-! ## Calls that only look -/

/-- The call leaves the runtime as it is. -/
def LooksOnly {α : Type} (m : Call α) : Prop := ∀ c, (exec m c).2.rt = c.rt

section Looks

variable {α β : Type} {a : Answers} {ptr : ℕ}

theorem LooksOnly.pure (x : α) : LooksOnly (Pure.pure x : Call α) := fun _ => rfl

theorem LooksOnly.bind {m : Call α} {f : α → Call β} (hm : LooksOnly m)
    (hf : ∀ x, LooksOnly (f x)) : LooksOnly (m >>= f) := by
  intro c
  rw [exec_bind]
  have hfirst := hm c
  rcases hexec : exec m c with ⟨e | x, c₁⟩
  · rw [hexec] at hfirst
    exact hfirst
  · rw [hexec] at hfirst
    exact (hf x c₁).trans hfirst

theorem LooksOnly.ite {p : Prop} [Decidable p] {m m' : Call α} (hm : LooksOnly m)
    (hm' : LooksOnly m') : LooksOnly (if p then m else m') := by
  split
  · exact hm
  · exact hm'

theorem LooksOnly.discard {m : Call α} (h : LooksOnly m) : LooksOnly (discard m) := by
  intro c
  rw [exec_discard]
  exact h c

theorem LooksOnly.locked (f : Rt → α) : LooksOnly (locked fun s => .ok (f s, s)) := by
  intro c
  rcases Nat.eq_zero_or_pos c.inRuntime with hin | hin
  · rw [exec_locked_of_eq_zero hin]
  · rw [exec_locked_of_pos hin]

theorem LooksOnly.redzoneOwns : LooksOnly (redzoneOwns ptr) :=
  LooksOnly.ite (LooksOnly.pure _) (LooksOnly.locked _)

theorem LooksOnly.redzoneUsableSize : LooksOnly (redzoneUsableSize ptr) :=
  LooksOnly.ite (LooksOnly.pure _) (LooksOnly.locked _)

theorem LooksOnly.rzIMallocSize : LooksOnly (rzIMallocSize ptr a) := by
  unfold Interpose.rzIMallocSize
  refine LooksOnly.ite (LooksOnly.pure _) (LooksOnly.bind LooksOnly.redzoneOwns fun owned => ?_)
  exact LooksOnly.ite LooksOnly.redzoneUsableSize (LooksOnly.pure _)

theorem LooksOnly.rzIZoneFromPtr : LooksOnly (rzIZoneFromPtr ptr a) := by
  have hrest : ∀ owned : Bool, LooksOnly (do
      if owned then return ZoneOf.redzone
      if a.asksZones then Functor.discard (rzZoneSize ptr)
      return ZoneOf.other a.zoneFromPtr) := by
    intro owned
    refine LooksOnly.ite (LooksOnly.pure _) (LooksOnly.ite ?_ (LooksOnly.pure _))
    exact LooksOnly.bind (LooksOnly.discard LooksOnly.redzoneUsableSize) fun _ => LooksOnly.pure _
  exact LooksOnly.ite (LooksOnly.bind (LooksOnly.pure _) hrest)
    (LooksOnly.bind LooksOnly.redzoneOwns hrest)

end Looks

/-! ## Calls outside of a locked section -/

section Outside

variable {α : Type} {c c' : Ctx} {a : Answers} {size nmemb ptr : ℕ} {file : Option String}
  {line : ℤ}

theorem exec_hand_ok {hd : Handoff} (h : c.inRuntime = 0)
    (hok : exec (hand hd) c = (.ok (), c')) : c'.inRuntime = 0 ∧ c'.rt = c.rt := by
  rw [exec_hand] at hok
  obtain ⟨-, rfl⟩ := Prod.mk.inj hok
  exact ⟨h, rfl⟩

/-- A locked section that returns does what it does without the lock. -/
theorem exec_locked_ok {f : Rt → Except Abort (α × Rt)} (h : c.inRuntime = 0) {r : α}
    (hok : exec (locked f) c = (.ok r, c')) : f c.rt = .ok (r, c'.rt) ∧ c'.inRuntime = 0 := by
  rw [exec_locked_of_eq_zero h] at hok
  split at hok
  · simp at hok
  · rename_i r' rt heq
    obtain ⟨hr, rfl⟩ := Prod.mk.inj hok
    obtain rfl := Except.ok.inj hr
    exact ⟨heq, h⟩

/-- A refused request does not change the runtime. -/
theorem redzoneMalloc_of_refused {s : Rt} (h : Refused size a) :
    redzoneMalloc s size file line a.sys = .ok (none, s) := by
  unfold redzoneMalloc rzAllocate
  simp only [gt_iff_lt, lt_self_iff_false, if_false, Nat.sub_zero]
  rcases h with hsize | hsys
  · rw [if_pos hsize]
  · rw [hsys]
    exact ite_self _

theorem exec_lockedMalloc_ok (h : c.inRuntime = 0) {r : Option ℕ}
    (hok : exec (lockedMalloc size file line a.sys) c = (.ok r, c')) :
    redzoneMalloc c.rt size file line a.sys = .ok (r, c'.rt) ∧ c'.inRuntime = 0 := by
  rw [exec_lockedMalloc] at hok
  split at hok
  · rename_i hrefused
    obtain ⟨hr, rfl⟩ := Prod.mk.inj hok
    obtain rfl := Except.ok.inj hr
    exact ⟨redzoneMalloc_of_refused hrefused, h⟩
  · exact exec_locked_ok h hok

theorem exec_lockedCalloc_ok (h : c.inRuntime = 0) {r : Option ℕ}
    (hok : exec (lockedCalloc nmemb size file line a.sys) c = (.ok r, c')) :
    redzoneCalloc c.rt nmemb size file line a.sys = .ok (r, c'.rt) := by
  unfold lockedCalloc at hok
  unfold redzoneCalloc
  by_cases hover : size ≠ 0 ∧ nmemb > sizeMax / size
  · rw [if_pos hover] at hok ⊢
    obtain ⟨hr, rfl⟩ := Prod.mk.inj hok
    rw [← Except.ok.inj hr]
  · rw [if_neg hover] at hok ⊢
    obtain ⟨p, c₁, hm, hok⟩ := exec_bind_ok hok
    rw [(exec_lockedMalloc_ok h hm).1]
    cases p with
    | none =>
        obtain ⟨hr, rfl⟩ := Prod.mk.inj hok
        rw [← Except.ok.inj hr]
    | some p =>
        simp only [exec_bind, exec_modify, exec_pure] at hok
        obtain ⟨hr, rfl⟩ := Prod.mk.inj hok
        rw [← Except.ok.inj hr]

theorem exec_lockedFree_ok (h : c.inRuntime = 0)
    (hok : exec (lockedFree ptr) c = (.ok (), c')) : redzoneFree c.rt ptr = .ok c'.rt := by
  unfold lockedFree at hok
  obtain ⟨_, c₁, hhand, hok⟩ := exec_bind_ok hok
  obtain ⟨h₁, hrt₁⟩ := exec_hand_ok h hhand
  rw [← hrt₁]
  by_cases hp : ptr = 0
  · subst hp
    obtain ⟨-, rfl⟩ := Prod.mk.inj hok
    rfl
  · rw [if_neg hp] at hok
    obtain ⟨hsec, -⟩ := exec_locked_ok h₁ hok
    cases hfree : redzoneFree c₁.rt ptr with
    | error e => simp [hfree, Except.map] at hsec
    | ok rt =>
        simp only [hfree, Except.map, Except.ok.injEq, Prod.mk.injEq, true_and] at hsec
        rw [hsec]

theorem exec_lockedRealloc_ok (h : c.inRuntime = 0) {r : Option ℕ}
    (hok : exec (lockedRealloc ptr size file line a.sys) c = (.ok r, c')) :
    redzoneRealloc c.rt ptr size file line a.sys = .ok (r, c'.rt) := by
  unfold lockedRealloc at hok
  unfold redzoneRealloc
  obtain ⟨_, c₁, hhand, hok⟩ := exec_bind_ok hok
  obtain ⟨h₁, hrt₁⟩ := exec_hand_ok h hhand
  rw [← hrt₁]
  by_cases hp : ptr = 0
  · rw [if_pos hp] at hok ⊢
    exact (exec_lockedMalloc_ok h₁ hok).1
  rw [if_neg hp] at hok ⊢
  by_cases hsize : size = 0
  · rw [if_pos hsize] at hok ⊢
    obtain ⟨_, c₂, hfree, hok⟩ := exec_bind_ok hok
    have hrt := exec_lockedFree_ok h₁ hfree
    obtain ⟨hr, rfl⟩ := Prod.mk.inj hok
    rw [hrt, ← Except.ok.inj hr]
  rw [if_neg hsize] at hok ⊢
  obtain ⟨p, c₂, hm, hok⟩ := exec_bind_ok hok
  obtain ⟨hrt, h₂⟩ := exec_lockedMalloc_ok h₁ hm
  rw [hrt]
  cases p with
  | none =>
      obtain ⟨hr, rfl⟩ := Prod.mk.inj hok
      rw [← Except.ok.inj hr]
  | some np =>
      obtain ⟨copy, c₃, hsec, hok⟩ := exec_bind_ok hok
      obtain ⟨hcopy, h₃⟩ := exec_locked_ok h₂ hsec
      obtain ⟨hcarried, hsame⟩ := Prod.mk.inj (Except.ok.inj hcopy)
      have hmem : ∃ c₄, c₄.inRuntime = 0 ∧ c₄.rt = (if copy ≠ 0 then
          { c₂.rt with mem := memmove c₂.rt.mem np ptr copy } else c₂.rt) ∧
          exec (do lockedFree ptr; return some np) c₄ = (.ok r, c') := by
        by_cases hzero : copy ≠ 0
        · rw [if_pos hzero] at hok ⊢
          obtain ⟨_, c₄, hmod, hok⟩ := exec_bind_ok hok
          rw [exec_modify] at hmod
          obtain ⟨-, rfl⟩ := Prod.mk.inj hmod
          exact ⟨{ c₃ with rt := { c₃.rt with mem := memmove c₃.rt.mem np ptr copy } }, h₃,
            by rw [hsame], hok⟩
        · rw [if_neg hzero] at hok ⊢
          exact ⟨c₃, h₃, hsame.symm, hok⟩
      obtain ⟨c₄, h₄, hrt₄, hok⟩ := hmem
      obtain ⟨_, c₅, hfree, hok⟩ := exec_bind_ok hok
      have hfreed := exec_lockedFree_ok h₄ hfree
      obtain ⟨hr, rfl⟩ := Prod.mk.inj hok
      rw [hrt₄, ← hcarried] at hfreed
      dsimp only
      split
      · rename_i e hbad
        exact absurd (hfreed.symm.trans hbad) (by simp)
      · rename_i s hgood
        rw [Except.ok.inj (hgood.symm.trans hfreed), ← Except.ok.inj hr]

/-- `__redzone_owns` looks up the header. -/
theorem exec_redzoneOwns_ok (h : c.inRuntime = 0) {owned : Bool}
    (hok : exec (redzoneOwns ptr) c = (.ok owned, c')) :
    c'.inRuntime = 0 ∧ c'.rt = c.rt := by
  unfold redzoneOwns at hok
  by_cases hp : ptr = 0
  · rw [if_pos hp] at hok
    obtain ⟨-, rfl⟩ := Prod.mk.inj hok
    exact ⟨h, rfl⟩
  · rw [if_neg hp] at hok
    obtain ⟨hsec, h'⟩ := exec_locked_ok h hok
    exact ⟨h', (Prod.mk.inj (Except.ok.inj hsec)).2.symm⟩

/-- Outside of a locked section the counter of the thread is 0. -/
theorem exec_unguarded {m m' : Call α} (h : c.inRuntime = 0) :
    exec (do if (← redzoneInRuntime) ≠ 0 then m else m') c = exec m' c := by
  rw [exec_bind, exec_redzoneInRuntime, h]
  rfl

theorem exec_rzIRealloc_ok (h : c.inRuntime = 0) {r : Option ℕ}
    (hok : exec (rzIRealloc ptr size a) c = (.ok r, c')) :
    c'.rt = c.rt ∨ redzoneRealloc c.rt ptr size none 0 a.sys = .ok (r, c'.rt) := by
  unfold rzIRealloc at hok
  rw [exec_unguarded h] at hok
  by_cases hp : ptr = 0
  · rw [if_pos hp] at hok
    refine Or.inr ?_
    unfold redzoneRealloc
    rw [if_pos hp]
    exact (exec_lockedMalloc_ok h hok).1
  · rw [if_neg hp] at hok
    obtain ⟨owned, c₁, howns, hok⟩ := exec_bind_ok hok
    obtain ⟨h₁, hsame⟩ := exec_redzoneOwns_ok h howns
    rw [← hsame]
    cases owned with
    | true => exact Or.inr (exec_lockedRealloc_ok h₁ hok)
    | false =>
        obtain ⟨-, rfl⟩ := Prod.mk.inj hok
        exact Or.inl rfl

theorem exec_rzIFree_ok (h : c.inRuntime = 0) (hok : exec (rzIFree ptr) c = (.ok (), c')) :
    c'.rt = c.rt ∨ redzoneFree c.rt ptr = .ok c'.rt := by
  unfold rzIFree at hok
  by_cases hp : ptr = 0
  · rw [if_pos hp] at hok
    obtain ⟨-, rfl⟩ := Prod.mk.inj hok
    exact Or.inl rfl
  · rw [if_neg hp] at hok
    rw [exec_unguarded h] at hok
    obtain ⟨owned, c₁, howns, hok⟩ := exec_bind_ok hok
    obtain ⟨h₁, hsame⟩ := exec_redzoneOwns_ok h howns
    rw [← hsame]
    cases owned with
    | true => exact Or.inr (exec_lockedFree_ok h₁ hok)
    | false =>
        obtain ⟨-, rfl⟩ := Prod.mk.inj hok
        exact Or.inl rfl

theorem exec_discard_ok {m : Call α} (hok : exec (discard m) c = (.ok (), c')) :
    ∃ r, exec m c = (.ok r, c') := by
  rw [exec_discard] at hok
  rcases hm : exec m c with ⟨e | r, c₁⟩
  · simp [hm, Except.map] at hok
  · rw [hm] at hok
    obtain ⟨-, rfl⟩ := Prod.mk.inj hok
    exact ⟨r, rfl⟩

/-- A call that returns does nothing to the runtime, or what one call of the allocator
does. -/
theorem perform_outside (h : c.inRuntime = 0) {e : Entry}
    (hok : exec (e.perform a) c = (.ok (), c')) :
    c'.rt = c.rt ∨ ∃ hc : HeapCall, hc.out = [] ∧ c.rt.heapCall hc = .ok c'.rt := by
  have hmalloc : ∀ {size : ℕ} {r : Option ℕ},
      exec (lockedMalloc size none 0 a.sys) c = (.ok r, c') →
      ∃ hc : HeapCall, hc.out = [] ∧ c.rt.heapCall hc = .ok c'.rt := by
    intro size r hr
    refine ⟨.malloc size none 0 a.sys, rfl, ?_⟩
    simp only [Rt.heapCall, (exec_lockedMalloc_ok h hr).1]
    rfl
  have hcalloc : ∀ {nmemb size : ℕ} {r : Option ℕ},
      exec (lockedCalloc nmemb size none 0 a.sys) c = (.ok r, c') →
      ∃ hc : HeapCall, hc.out = [] ∧ c.rt.heapCall hc = .ok c'.rt := by
    intro nmemb size r hr
    refine ⟨.calloc nmemb size none 0 a.sys, rfl, ?_⟩
    simp only [Rt.heapCall, exec_lockedCalloc_ok h hr]
    rfl
  have hlook : ∀ {β : Type} {m : Call β}, LooksOnly m → exec (discard m) c = (.ok (), c') →
      c'.rt = c.rt := by
    intro β m hm hr
    have hsame := hm.discard c
    rw [hr] at hsame
    exact hsame
  cases e with
  | malloc size =>
      obtain ⟨r, hr⟩ := exec_discard_ok hok
      unfold rzIMalloc at hr
      rw [exec_unguarded h] at hr
      exact Or.inr (hmalloc hr)
  | zoneMalloc size | zoneValloc size =>
      obtain ⟨r, hr⟩ := exec_discard_ok hok
      exact Or.inr (hmalloc hr)
  | calloc nmemb size =>
      obtain ⟨r, hr⟩ := exec_discard_ok hok
      unfold rzICalloc at hr
      rw [exec_unguarded h] at hr
      exact Or.inr (hcalloc hr)
  | zoneCalloc nmemb size =>
      obtain ⟨r, hr⟩ := exec_discard_ok hok
      exact Or.inr (hcalloc hr)
  | realloc ptr size | zoneRealloc ptr size =>
      obtain ⟨r, hr⟩ := exec_discard_ok hok
      rcases exec_rzIRealloc_ok h hr with hsame | hcall
      · exact Or.inl hsame
      · refine Or.inr ⟨.realloc ptr size none 0 a.sys, rfl, ?_⟩
        simp only [Rt.heapCall, hcall]
        rfl
  | free ptr | zoneFree ptr =>
      rcases exec_rzIFree_ok h hok with hsame | hcall
      · exact Or.inl hsame
      · exact Or.inr ⟨.free ptr, rfl, hcall⟩
  | mallocSize ptr => exact Or.inl (hlook LooksOnly.rzIMallocSize hok)
  | zoneFromPtr ptr => exact Or.inl (hlook LooksOnly.rzIZoneFromPtr hok)
  | zoneSize ptr => exact Or.inl (hlook LooksOnly.redzoneUsableSize hok)

end Outside

/-! ## Calls inside of a locked section -/

section Inside

variable {c c' : Ctx} {a : Answers} {size nmemb ptr : ℕ}

theorem exec_lockedMalloc_inside (hin : 0 < c.inRuntime) :
    (exec (lockedMalloc size none 0 a.sys) c).2 = c := by
  rw [exec_lockedMalloc]
  split
  · rfl
  · rw [exec_locked_of_pos hin]

theorem exec_lockedCalloc_inside (hin : 0 < c.inRuntime) :
    (exec (lockedCalloc nmemb size none 0 a.sys) c).2 = c := by
  unfold lockedCalloc
  by_cases hover : size ≠ 0 ∧ nmemb > sizeMax / size
  · rw [if_pos hover]
    rfl
  · rw [if_neg hover, exec_bind, exec_lockedMalloc]
    by_cases hrefused : Refused (nmemb * size) a
    · rw [if_pos hrefused]
      rfl
    · rw [if_neg hrefused, exec_locked_of_pos hin]

/-- Inside of a locked section the counter of the thread is not 0. -/
theorem exec_guarded {α : Type} {m m' : Call α} (hin : 0 < c.inRuntime) :
    exec (do if (← redzoneInRuntime) ≠ 0 then m else m') c = exec m c := by
  rw [exec_bind, exec_redzoneInRuntime]
  simp only [hin.ne', ne_eq, not_false_eq_true, if_true]

theorem exec_rzIFree_inside (hin : 0 < c.inRuntime) :
    exec (rzIFree ptr) c =
      if ptr = 0 ∨ (headerSize ≤ ptr ∧ shadowLoad c.rt.shadow (ptr - 8) = rzPoison) then
        (.ok (), c)
      else (.ok (), { c with handed := c.handed ++ [.sysFree ptr] }) := by
  unfold rzIFree
  by_cases hp : ptr = 0
  · rw [if_pos hp, if_pos (Or.inl hp)]
    rfl
  · rw [if_neg hp, exec_guarded hin, exec_bind, exec_redzoneMaybeOwns]
    by_cases howns : headerSize ≤ ptr ∧ shadowLoad c.rt.shadow (ptr - 8) = rzPoison
    · rw [if_pos (Or.inr howns)]
      simp [howns]
    · rw [if_neg (not_or.mpr ⟨hp, howns⟩)]
      simp only [howns, decide_false, Bool.not_false, if_true]
      rfl

/-- A call writes the new block that the system handed out, at most. -/
theorem perform_inside (hin : 0 < c.inRuntime) {e : Entry}
    (hok : exec (e.perform a) c = (.ok (), c')) :
    ∃ mem, c'.rt = { c.rt with mem := mem } ∧
      ∀ x, mem x = c.rt.mem x ∨ ∃ y ∈ e.sysExtent a, y.1 ≤ x ∧ x < y.2 := by
  have hsame : c'.rt = c.rt → ∃ mem, c'.rt = { c.rt with mem := mem } ∧
      ∀ x, mem x = c.rt.mem x ∨ ∃ y ∈ e.sysExtent a, y.1 ≤ x ∧ x < y.2 :=
    fun h => ⟨c.rt.mem, h, fun x => Or.inl rfl⟩
  have hlook : ∀ {β : Type} {m : Call β}, (exec m c).2.rt = c.rt →
      exec (discard m) c = (.ok (), c') → c'.rt = c.rt := by
    intro β m hm hr
    rw [exec_discard] at hr
    rw [← (Prod.mk.inj hr).2]
    exact hm
  cases e with
  | malloc size =>
      refine hsame (hlook ?_ hok)
      unfold rzIMalloc
      rw [exec_guarded hin]
      rfl
  | calloc nmemb size =>
      obtain ⟨r, hr⟩ := exec_discard_ok hok
      unfold rzICalloc at hr
      rw [exec_guarded hin] at hr
      cases hsys : a.sys.malloc with
      | none =>
          rw [hsys] at hr
          obtain ⟨-, rfl⟩ := Prod.mk.inj hr
          exact hsame rfl
      | some p =>
          rw [hsys] at hr
          obtain ⟨-, rfl⟩ := Prod.mk.inj hr
          refine ⟨memset c.rt.mem p 0 (nmemb * size % wordSize), rfl, fun x => ?_⟩
          by_cases hx : p ≤ x ∧ x < p + nmemb * size % wordSize
          · exact Or.inr ⟨(p, p + nmemb * size % wordSize), by simp [Entry.sysExtent, hsys], hx⟩
          · exact Or.inl (if_neg hx)
  | realloc ptr size | zoneRealloc ptr size =>
      have hrealloc : (exec (rzIRealloc ptr size a) c).2.rt = c.rt := by
        unfold rzIRealloc
        rw [exec_guarded hin]
        rfl
      exact hsame (hlook hrealloc hok)
  | free ptr | zoneFree ptr =>
      refine hsame ?_
      have hfree : exec (rzIFree ptr) c = (.ok (), c') := hok
      rw [exec_rzIFree_inside hin] at hfree
      split at hfree
      · rw [← (Prod.mk.inj hfree).2]
      · rw [← (Prod.mk.inj hfree).2]
  | mallocSize ptr => exact hsame (hlook (LooksOnly.rzIMallocSize c) hok)
  | zoneFromPtr ptr => exact hsame (hlook (LooksOnly.rzIZoneFromPtr c) hok)
  | zoneSize ptr => exact hsame (hlook (LooksOnly.redzoneUsableSize c) hok)
  | zoneMalloc size | zoneValloc size =>
      exact hsame (hlook (congrArg Ctx.rt (exec_lockedMalloc_inside hin)) hok)
  | zoneCalloc nmemb size =>
      exact hsame (hlook (congrArg Ctx.rt (exec_lockedCalloc_inside hin)) hok)

end Inside

end Redzone.Interpose
