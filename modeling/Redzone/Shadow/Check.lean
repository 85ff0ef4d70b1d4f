/-
  Shadow/Check.lean --- stack and global red zones, the access check, and the bulk
  memory operations of `runtime/redzone_rt.c`.

  Stack variables and globals have no table entry: their guards exist in the shadow
  only.  The check reads the shadow of the first and the last byte of an access and
  goes to the table only to name a violation.
-/
import Redzone.Shadow.Heap

set_option autoImplicit false

namespace Redzone.Shadow

open Redzone.Foundation

/-! ## Stack and global red zones -/

/-- `__redzone_stack_enter`. -/
def redzoneStackEnter (s : Rt) (base userSize : ℕ) : Rt :=
  let user := (base + redzoneSize) % wordSize
  let total := (userSize + 2 * redzoneSize) % wordSize
  { s with shadow := carveUser (setShadowRange s.shadow base total stackRz) user userSize }

/-- `__redzone_stack_leave`. -/
def redzoneStackLeave (s : Rt) (base userSize : ℕ) : Rt :=
  let total := (userSize + 2 * redzoneSize) % wordSize
  { s with shadow := setShadowRange s.shadow base total 0 }

/-- `__redzone_global_register`: red zones on both sides of an internal global. -/
def redzoneGlobalRegister (s : Rt) (data size : ℕ) : Rt :=
  let base := (data + wordSize - redzoneSize) % wordSize
  let total := (size + 2 * redzoneSize) % wordSize
  { s with shadow := carveUser (setShadowRange s.shadow base total globalRz) data size }

/-- `__redzone_global_register_right`: a red zone after the data of an external global. -/
def redzoneGlobalRegisterRight (s : Rt) (data size : ℕ) : Rt :=
  { s with
    shadow := carveUser
      (setShadowRange s.shadow ((data + size) % wordSize) redzoneSize globalRz) data size }

/-! ## The check -/

/-- The name of a violation outside the heap, by the poison code of whichever checked
byte carries one. -/
def poisonKind (s1 s2 : ℤ) : String :=
  let code := if s1 < 0 then s1 else if s2 < 0 then s2 else 0
  if code = globalRz then "global-buffer-overflow"
  else if code = stackRz then "stack-buffer-overflow"
  else "buffer-overflow"

/-- `__redzone_check`. -/
def redzoneCheck (s : Rt) (a size : ℕ) (isWrite : Bool) (file : Option String) (line : ℤ) :
    Except Abort Unit :=
  if size = 0 then .ok ()
  else
    let last := (a + size - 1) % wordSize
    if !bytePoisoned s.shadow a && !bytePoisoned s.shadow last then .ok ()
    else
      match findBlock s a with
      | some b =>
        .error (.access ⟨if b.freed then "use-after-free" else "heap-buffer-overflow",
          a, size, isWrite, file, line, some b⟩)
      | none =>
        .error (.access ⟨poisonKind (shadowLoad s.shadow a) (shadowLoad s.shadow last),
          a, size, isWrite, file, line, none⟩)

/-! ## Bulk memory operations -/

/-- `__redzone_memcpy`. -/
def redzoneMemcpy (s : Rt) (dst src n : ℕ) (file : Option String) (line : ℤ) :
    Except Abort (ℕ × Rt) := do
  redzoneCheck s dst n true file line
  redzoneCheck s src n false file line
  return (dst, { s with mem := memmove s.mem dst src n })

/-- `__redzone_memmove`. -/
def redzoneMemmove (s : Rt) (dst src n : ℕ) (file : Option String) (line : ℤ) :
    Except Abort (ℕ × Rt) := do
  redzoneCheck s dst n true file line
  redzoneCheck s src n false file line
  return (dst, { s with mem := memmove s.mem dst src n })

/-- `__redzone_memset`. -/
def redzoneMemset (s : Rt) (dst : ℕ) (c : UInt8) (n : ℕ) (file : Option String) (line : ℤ) :
    Except Abort (ℕ × Rt) := do
  redzoneCheck s dst n true file line
  return (dst, { s with mem := memset s.mem dst c n })

section Check

variable {s : Rt} {a size : ℕ} {isWrite : Bool} {file : Option String} {line : ℤ}

/-- The check passes exactly when the first and the last byte are addressable. -/
theorem redzoneCheck_ok (hsize : 0 < size) :
    redzoneCheck s a size isWrite file line = .ok () ↔
      bytePoisoned s.shadow a = false ∧
        bytePoisoned s.shadow ((a + size - 1) % wordSize) = false := by
  unfold redzoneCheck
  rw [if_neg (by omega)]
  simp only
  split
  · rename_i h
    simpa using h
  · rename_i h
    have hno : ¬ (bytePoisoned s.shadow a = false ∧
        bytePoisoned s.shadow ((a + size - 1) % wordSize) = false) := by simpa using h
    refine iff_of_false ?_ hno
    split <;> simp

/-- A copy is performed only after both of its ranges have passed. -/
theorem redzoneMemcpy_ok {dst src n : ℕ} {r : ℕ × Rt}
    (h : redzoneMemcpy s dst src n file line = .ok r) :
    redzoneCheck s dst n true file line = .ok () ∧
      redzoneCheck s src n false file line = .ok () := by
  unfold redzoneMemcpy at h
  cases hd : redzoneCheck s dst n true file line with
  | error e => simp [hd, bind, Except.bind] at h
  | ok u =>
      cases hs : redzoneCheck s src n false file line with
      | error e => simp [hd, hs, bind, Except.bind] at h
      | ok v => exact ⟨rfl, rfl⟩

theorem redzoneMemset_ok {dst n : ℕ} {c : UInt8} {r : ℕ × Rt}
    (h : redzoneMemset s dst c n file line = .ok r) :
    redzoneCheck s dst n true file line = .ok () := by
  unfold redzoneMemset at h
  cases hd : redzoneCheck s dst n true file line with
  | error e => simp [hd, bind, Except.bind] at h
  | ok u => rfl

theorem redzoneMemset_eq {dst n : ℕ} {c : UInt8}
    (h : redzoneCheck s dst n true file line = .ok ()) :
    redzoneMemset s dst c n file line = .ok (dst, { s with mem := memset s.mem dst c n }) := by
  simp only [redzoneMemset, h, bind, Except.bind, pure, Except.pure]

end Check

end Redzone.Shadow
