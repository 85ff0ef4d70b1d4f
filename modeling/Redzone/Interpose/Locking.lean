/-
  Interpose/Locking.lean --- calls under the lock.

  The runtime calls libc while it holds `g_table_lock`, and libc calls back: the
  interposed functions, and the callbacks of the zone.  A call returns then exactly if it
  does not reach a locked section.
-/
import Redzone.Interpose.Interposer

set_option autoImplicit false

namespace Redzone.Interpose

open Redzone.Foundation
open Redzone.Shadow

/-- The request is refused before the locked section of `rz_allocate`. -/
def Refused (size : ℕ) (a : Answers) : Prop :=
  size > sizeMax - 2 * redzoneSize ∨ a.sys.malloc = none

instance (size : ℕ) (a : Answers) : Decidable (Refused size a) :=
  inferInstanceAs (Decidable (_ ∨ _))

/-- The call does not reach a locked section: it forwards to the system, or it has nothing
to look up or to allocate. -/
def Entry.Guarded (a : Answers) : Entry → Prop
  | .malloc _ | .calloc _ _ | .realloc _ _ | .free _ | .zoneRealloc _ _ | .zoneFree _ => True
  | .mallocSize ptr | .zoneFromPtr ptr | .zoneSize ptr => ptr = 0
  | .zoneMalloc size | .zoneValloc size => Refused size a
  | .zoneCalloc nmemb size =>
    (size ≠ 0 ∧ nmemb > sizeMax / size) ∨ Refused (nmemb * size) a

/-- The call returns. -/
def Returns {α : Type} (m : Call α) (c : Ctx) : Prop := ∃ r, (exec m c).1 = .ok r

section Locked

variable {α β : Type} {c : Ctx} {a : Answers} {size nmemb ptr : ℕ}

theorem returns_discard {m : Call α} : (exec (discard m) c).1 = .ok () ↔ Returns m c := by
  rw [exec_discard]
  unfold Returns
  cases (exec m c).1 with
  | error e => simp [Except.map]
  | ok r => simp [Except.map]

/-- A call returns only if its first part does. -/
theorem Returns.of_bind {m : Call α} {f : α → Call β} (h : Returns (m >>= f) c) :
    Returns m c := by
  obtain ⟨r, hr⟩ := h
  rw [exec_bind] at hr
  unfold Returns
  cases hm : exec m c with
  | mk res c' =>
      rw [hm] at hr
      cases res with
      | error e => simp at hr
      | ok x => exact ⟨x, rfl⟩

theorem not_returns_locked {f : Rt → Except Abort (α × Rt)} (hin : 0 < c.inRuntime) :
    ¬ Returns (locked f) c := by
  rintro ⟨r, hr⟩
  rw [exec_locked_of_pos hin] at hr
  simp at hr

/-- A refused request returns at once; any other one enters a locked section. -/
theorem exec_lockedMalloc {file : Option String} {line : ℤ} :
    exec (lockedMalloc size file line a.sys) c =
      if Refused size a then (.ok none, c)
      else exec (locked fun s => redzoneMalloc s size file line a.sys) c := by
  obtain ⟨⟨malloc, growOk⟩, realloc, defaultSize, asksZones, zone⟩ := a
  unfold lockedMalloc lockedAllocate Refused
  by_cases hsize : size > sizeMax - 2 * redzoneSize
  · simp [hsize]
  · cases malloc with
    | none => simp [hsize]
    | some base =>
        simp [hsize]
        rfl

theorem lockedMalloc_returns (hin : 0 < c.inRuntime) :
    Returns (lockedMalloc size none 0 a.sys) c ↔ Refused size a := by
  unfold Returns
  rw [exec_lockedMalloc]
  by_cases h : Refused size a
  · rw [if_pos h]
    exact iff_of_true ⟨none, rfl⟩ h
  · rw [if_neg h]
    exact iff_of_false (not_returns_locked hin) h

theorem lockedCalloc_returns (hin : 0 < c.inRuntime) :
    Returns (lockedCalloc nmemb size none 0 a.sys) c ↔
      (size ≠ 0 ∧ nmemb > sizeMax / size) ∨ Refused (nmemb * size) a := by
  unfold lockedCalloc
  by_cases hover : size ≠ 0 ∧ nmemb > sizeMax / size
  · rw [if_pos hover]
    exact iff_of_true ⟨none, rfl⟩ (Or.inl hover)
  · rw [if_neg hover]
    by_cases hrefused : Refused (nmemb * size) a
    · refine iff_of_true ?_ (Or.inr hrefused)
      unfold Returns
      rw [exec_bind, exec_lockedMalloc, if_pos hrefused]
      exact ⟨none, rfl⟩
    · refine iff_of_false (fun h => hrefused ?_) (not_or.mpr ⟨hover, hrefused⟩)
      exact (lockedMalloc_returns hin).mp h.of_bind

theorem redzoneOwns_returns (hin : 0 < c.inRuntime) : Returns (redzoneOwns ptr) c ↔ ptr = 0 := by
  unfold redzoneOwns
  by_cases hp : ptr = 0
  · rw [if_pos hp]
    exact iff_of_true ⟨false, rfl⟩ hp
  · rw [if_neg hp]
    exact iff_of_false (not_returns_locked hin) hp

theorem redzoneUsableSize_returns (hin : 0 < c.inRuntime) :
    Returns (redzoneUsableSize ptr) c ↔ ptr = 0 := by
  unfold redzoneUsableSize
  by_cases hp : ptr = 0
  · rw [if_pos hp]
    exact iff_of_true ⟨0, rfl⟩ hp
  · rw [if_neg hp]
    exact iff_of_false (not_returns_locked hin) hp

theorem exec_redzoneMaybeOwns : exec (redzoneMaybeOwns ptr) c =
    (.ok (decide (headerSize ≤ ptr ∧ shadowLoad c.rt.shadow (ptr - 8) = rzPoison)), c) := by
  unfold redzoneMaybeOwns
  by_cases hp : ptr < headerSize
  · have hnot : ¬ headerSize ≤ ptr := Nat.not_le.mpr hp
    simp [hp, hnot, Except.map]
  · have hle : headerSize ≤ ptr := Nat.not_lt.mp hp
    simp [hp, hle, Except.map]

/-- The four allocation functions forward to the system. -/
theorem rzIMalloc_returns (hin : 0 < c.inRuntime) : Returns (rzIMalloc size a) c := by
  unfold rzIMalloc Returns
  simp [hin.ne']

theorem rzICalloc_returns (hin : 0 < c.inRuntime) : Returns (rzICalloc nmemb size a) c := by
  unfold rzICalloc Returns
  cases hsys : a.sys.malloc with
  | none => simp [hin.ne']
  | some p => simp [hin.ne', Except.map]

theorem rzIRealloc_returns (hin : 0 < c.inRuntime) : Returns (rzIRealloc ptr size a) c := by
  unfold rzIRealloc sysRealloc Returns
  simp [hin.ne', Except.map]

theorem rzIFree_returns (ptr : ℕ) (hin : 0 < c.inRuntime) : Returns (rzIFree ptr) c := by
  unfold rzIFree sysFree Returns
  by_cases hp : ptr = 0
  · simp [hp]
  · simp only [hp, if_false, exec_bind, exec_redzoneInRuntime, hin.ne', ne_eq, not_false_eq_true,
      if_true, exec_redzoneMaybeOwns]
    split
    · exact ⟨(), rfl⟩
    · exact ⟨(), rfl⟩

theorem rzIMallocSize_returns (hin : 0 < c.inRuntime) :
    Returns (rzIMallocSize ptr a) c ↔ ptr = 0 := by
  unfold rzIMallocSize
  by_cases hp : ptr = 0
  · rw [if_pos hp]
    exact iff_of_true ⟨0, rfl⟩ hp
  · rw [if_neg hp]
    refine iff_of_false (fun h => hp ?_) hp
    exact (redzoneOwns_returns hin).mp h.of_bind

theorem rzIZoneFromPtr_returns (hin : 0 < c.inRuntime) :
    Returns (rzIZoneFromPtr ptr a) c ↔ ptr = 0 := by
  unfold rzIZoneFromPtr
  by_cases hp : ptr = 0
  · refine iff_of_true ?_ hp
    unfold Returns rzZoneSize redzoneUsableSize
    subst hp
    cases a.asksZones <;> simp [Except.map]
  · rw [if_neg hp]
    refine iff_of_false (fun h => hp ?_) hp
    exact (redzoneOwns_returns hin).mp h.of_bind

/-- Inside a locked section a call returns exactly if it is guarded. -/
theorem perform_iff (hin : 0 < c.inRuntime) (e : Entry) :
    (exec (e.perform a) c).1 = .ok () ↔ e.Guarded a := by
  cases e with
  | malloc size => exact iff_of_true (returns_discard.mpr (rzIMalloc_returns hin)) trivial
  | calloc nmemb size => exact iff_of_true (returns_discard.mpr (rzICalloc_returns hin)) trivial
  | realloc ptr size => exact iff_of_true (returns_discard.mpr (rzIRealloc_returns hin)) trivial
  | zoneRealloc ptr size => exact iff_of_true (returns_discard.mpr (rzIRealloc_returns hin)) trivial
  | free ptr | zoneFree ptr =>
      obtain ⟨r, hr⟩ := rzIFree_returns ptr hin
      exact iff_of_true hr trivial
  | mallocSize ptr => exact returns_discard.trans (rzIMallocSize_returns hin)
  | zoneFromPtr ptr => exact returns_discard.trans (rzIZoneFromPtr_returns hin)
  | zoneSize ptr => exact returns_discard.trans (redzoneUsableSize_returns hin)
  | zoneMalloc size | zoneValloc size => exact returns_discard.trans (lockedMalloc_returns hin)
  | zoneCalloc nmemb size => exact returns_discard.trans (lockedCalloc_returns hin)

end Locked

/-! ## Runs -/

/-- A call that is made under the lock returns, without locking again. -/
def NoSelfDeadlock (w : World) : Event → Prop
  | .op _ => True
  | .call n e a => 0 < n → (answer w n e a).1 = .ok ()

/-- Calls that are made under the lock are guarded. -/
def GuardedCalls (_ : World) : Event → Prop
  | .op _ => True
  | .call n e a => 0 < n → e.Guarded a

theorem noSelfDeadlock_iff_guarded (w : World) (ev : Event) :
    NoSelfDeadlock w ev ↔ GuardedCalls w ev := by
  cases ev with
  | op o => exact Iff.rfl
  | call n e a => exact forall_congr' fun hin => perform_iff (c := ⟨w.rt, n, []⟩) hin e

/-- In a run of the process under interposition, from any state, all calls that are made
under the lock return exactly if all of them are guarded. -/
theorem noSelfDeadlock_iff (w : World) (es : List Event) :
    EveryStep istep NoSelfDeadlock w es ↔ EveryStep istep GuardedCalls w es := by
  constructor
  · intro h
    exact h.mono fun m ev hev => (noSelfDeadlock_iff_guarded m ev).mp hev
  · intro h
    exact h.mono fun m ev hev => (noSelfDeadlock_iff_guarded m ev).mpr hev

/-- While a thread holds the lock, libc allocates a buffer through the interposed `malloc`,
which is forwarded to the system, and asks for its size. -/
def askSize : List Event :=
  [.call 1 (.malloc 64) ⟨⟨some 0x1000, true⟩, none, 0, true, 0⟩,
    .call 1 (.mallocSize 0x1000) ⟨⟨none, true⟩, none, 64, true, 0⟩]

/-- The question for the size locks again. -/
theorem mallocSize_selfDeadlocks : ¬ EveryStep istep NoSelfDeadlock .initial askSize := by
  rw [noSelfDeadlock_iff]
  intro h
  have hfirst : (istep .initial
      (.call 1 (.malloc 64) ⟨⟨some 0x1000, true⟩, none, 0, true, 0⟩)).isSome
      = true := by
    decide +kernel
  obtain ⟨m, hm⟩ := Option.isSome_iff_exists.mp hfirst
  have hguarded : (0x1000 : ℕ) = 0 := (h.2 m hm).1 Nat.one_pos
  exact absurd hguarded (by decide)

end Redzone.Interpose
