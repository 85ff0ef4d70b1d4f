/-
  Concurrent/Writes.lean --- the updates that are made without the table lock.

  `rz_allocate` records a block under the lock, and poisons, carves and stores the header
  afterwards.  `__redzone_free` marks the block under the lock and poisons it afterwards.
  Entering and leaving a stack variable takes no lock at all.  Each of these updates is one
  `Write`; two of them commute where no shadow byte and no byte of memory is written by
  both, so above all where they are within different objects.
-/
import Redzone.Foundation.Pending
import Redzone.Shadow.Header

set_option autoImplicit false

namespace Redzone.Concurrent

open Redzone.Foundation
open Redzone.Shadow

/-! ## Updates -/

/-- An update of the shadow or of memory. -/
inductive Write where
  /-- `set_shadow_range` -/
  | range (start len : ℕ) (val : ℤ)
  /-- `set_shadow_byte` -/
  | byte (app : ℕ) (val : ℤ)
  /-- A word of a header. -/
  | word (a w : ℕ)
  /-- `memset(p, 0, n)` -/
  | zero (p n : ℕ)
  deriving DecidableEq, Repr

def Write.onShadow : Write → ShadowMap → ShadowMap
  | .range start len val => fun sh => setShadowRange sh start len val
  | .byte app val => fun sh => setShadowByte sh app val
  | .word _ _ | .zero _ _ => id

def Write.onMem : Write → Bytes → Bytes
  | .word a w => fun mem => store64 mem a w
  | .zero p n => fun mem => memset mem p 0 n
  | .range _ _ _ | .byte _ _ => id

def Write.act (a : Write) (s : Rt) : Rt :=
  { s with shadow := a.onShadow s.shadow, mem := a.onMem s.mem }

/-- The user bytes become addressable. -/
def carveWrites (user size : ℕ) : List Write :=
  (if clearLow size 8 ≠ 0 then [.range user (clearLow size 8) 0] else []) ++
    if size % 8 ≠ 0 then [.byte ((user + clearLow size 8) % wordSize) (size % 8 : ℕ)] else []

/-- What `rz_allocate` does after it has recorded the block. -/
def allocWrites (b : Block) (idx : ℕ) : List Write :=
  .range b.realBase b.totalSize rzPoison :: carveWrites b.userAddr b.userSize ++
    [.word (b.userAddr - headerSize) headerMagic, .word (b.userAddr - 8) idx]

/-- What `__redzone_free` does after it has marked the block. -/
def freeWrites (b : Block) : List Write :=
  [.range b.userAddr (clearLow ((b.userSize + 7) % wordSize) 8) freedPoison]

/-- `__redzone_stack_enter`. -/
def enterWrites (v : StackVar) : List Write :=
  .range v.base ((v.size + 2 * redzoneSize) % wordSize) stackRz ::
    carveWrites ((v.base + redzoneSize) % wordSize) v.size

/-- `__redzone_stack_leave`. -/
def leaveWrites (v : StackVar) : List Write :=
  [.range v.base ((v.size + 2 * redzoneSize) % wordSize) 0]

section Perform

variable {s : Rt}

/-- The updates in terms of the functions of the runtime. -/
theorem perform_carveWrites (user size : ℕ) :
    perform Write.act (carveWrites user size) s =
      { s with shadow := carveUser s.shadow user size } := by
  unfold carveWrites carveUser
  by_cases haligned : clearLow size 8 = 0
  · by_cases hrem : size % 8 = 0
    · simp [haligned, hrem]
    · simp [haligned, hrem, Write.act, Write.onShadow, Write.onMem]
  · by_cases hrem : size % 8 = 0
    · simp [haligned, hrem, Write.act, Write.onShadow, Write.onMem]
    · simp [haligned, hrem, Write.act, Write.onShadow, Write.onMem]

theorem perform_allocWrites (b : Block) (idx : ℕ) :
    perform Write.act (allocWrites b idx) s = { s with
      shadow := carveUser (setShadowRange s.shadow b.realBase b.totalSize rzPoison) b.userAddr
        b.userSize
      mem := store64 (store64 s.mem (b.userAddr - headerSize) headerMagic) (b.userAddr - 8) idx } := by
  unfold allocWrites
  rw [List.cons_append, perform_cons, perform_append, perform_carveWrites]
  rfl

theorem perform_enterWrites (v : StackVar) :
    perform Write.act (enterWrites v) s = redzoneStackEnter s v.base v.size := by
  unfold enterWrites
  rw [perform_cons, perform_carveWrites]
  rfl

theorem perform_leaveWrites (v : StackVar) :
    perform Write.act (leaveWrites v) s = redzoneStackLeave s v.base v.size := rfl

end Perform

/-! ## What an update leaves alone -/

/-- The shadow byte of chunk `i` stays as it is. -/
def Write.KeepsChunk (a : Write) (i : ℕ) : Prop := ∀ sh, a.onShadow sh i = sh i

/-- The byte of memory at `x` stays as it is. -/
def Write.KeepsByte (a : Write) (x : ℕ) : Prop := ∀ mem, a.onMem mem x = mem x

/-- The update is within the object. -/
structure Write.Within (a : Write) (o : Obj) : Prop where
  chunks : ∀ i, ¬ (o.lo ≤ 8 * i ∧ 8 * i < o.top) → a.KeepsChunk i
  bytes : ∀ x, ¬ (o.lo ≤ x ∧ x < o.top) → a.KeepsByte x

/-- The update leaves memory alone. -/
def Write.OnShadow (a : Write) : Prop := ∀ x, a.KeepsByte x

/-- The update leaves the shadow alone. -/
def Write.OnMem (a : Write) : Prop := ∀ i, a.KeepsChunk i

/-- The extent and the user bytes of a block, freed or not. -/
def place (b : Block) : Obj := { b.obj with live := true }

theorem place_ok {b : Block} (h : b.obj.OK) : (place b).OK :=
  ⟨h.lo_aligned, h.lo_le, h.left, h.user_aligned, h.user_le, h.guard, h.top_le⟩

/-- The extents of two objects have no byte in common. -/
def Obj.Apart (o o' : Obj) : Prop := o.top ≤ o'.lo ∨ o'.top ≤ o.lo

section Keeps

variable {a b : Write} {o o' : Obj} {i x start len app w p n : ℕ} {val : ℤ}

theorem onMem_word : (Write.word p w).OnMem := fun _ _ => rfl

theorem onMem_zero : (Write.zero p n).OnMem := fun _ _ => rfl

theorem onShadow_range : (Write.range start len val).OnShadow := fun _ _ => rfl

theorem onShadow_byte : (Write.byte app val).OnShadow := fun _ _ => rfl

/-- A place that is written under a fixed condition. -/
theorem keeps_or {α : Type} (C : Prop) [Decidable C] (val : α) (i : ℕ) :
    (∀ f : ℕ → α, (if C then val else f i) = f i) ∨
      ∃ v, ∀ f : ℕ → α, (if C then val else f i) = v := by
  by_cases hC : C
  · exact Or.inr ⟨val, fun _ => if_pos hC⟩
  · exact Or.inl fun _ => if_neg hC

/-- A chunk that an update changes gets the same shadow byte whatever it had before. -/
theorem keepsChunk_or (a : Write) (i : ℕ) : a.KeepsChunk i ∨ ∃ v, ∀ sh, a.onShadow sh i = v := by
  cases a with
  | range start len val =>
      by_cases hlen : len = 0
      · exact Or.inl fun sh => by simp [Write.onShadow, setShadowRange, hlen]
      by_cases hout : shadowBytes ≤ clearLow start 8 / 8
      · exact Or.inl fun sh => by simp [Write.onShadow, setShadowRange, hout]
      simp only [Write.KeepsChunk, Write.onShadow, setShadowRange, hlen, hout, if_false]
      exact keeps_or _ val i
  | byte app val =>
      simp only [Write.KeepsChunk, Write.onShadow, setShadowByte]
      split
      · simp only [Function.update_apply]
        exact keeps_or _ val i
      · exact Or.inl fun _ => rfl
  | word p w => exact Or.inl (onMem_word i)
  | zero p n => exact Or.inl (onMem_zero i)

/-- The same for bytes of memory. -/
theorem keepsByte_or (a : Write) (x : ℕ) : a.KeepsByte x ∨ ∃ v, ∀ mem, a.onMem mem x = v := by
  cases a with
  | range start len val => exact Or.inl (onShadow_range x)
  | byte app val => exact Or.inl (onShadow_byte x)
  | word p w => exact keeps_or _ _ x
  | zero p n => exact keeps_or _ _ x

/-- An update commutes with a store to a byte that it leaves alone. -/
theorem Write.KeepsByte.onMem_update (h : a.KeepsByte x) (mem : Bytes) (byte : UInt8) :
    a.onMem (Function.update mem x byte) = Function.update (a.onMem mem) x byte := by
  funext y
  by_cases hy : y = x
  · subst hy
    rw [h, Function.update_self, Function.update_self]
  · rw [Function.update_of_ne hy]
    rcases keepsByte_or a y with hkeep | ⟨v, hset⟩
    · rw [hkeep, hkeep, Function.update_of_ne hy]
    · rw [hset, hset]

/-- Updates that write nothing in common commute. -/
theorem commutes_of_keeps (hshadow : ∀ i, a.KeepsChunk i ∨ b.KeepsChunk i)
    (hmem : ∀ x, a.KeepsByte x ∨ b.KeepsByte x) : Commutes Write.act a b := by
  have hsh : ∀ sh, a.onShadow (b.onShadow sh) = b.onShadow (a.onShadow sh) := by
    intro sh
    funext i
    rcases hshadow i with ha | hb
    · rcases keepsChunk_or b i with hb | ⟨v, hb⟩
      · rw [ha, hb, hb, ha]
      · rw [ha, hb, hb]
    · rcases keepsChunk_or a i with ha | ⟨v, ha⟩
      · rw [ha, hb, hb, ha]
      · rw [hb, ha, ha]
  have hbytes : ∀ mem, a.onMem (b.onMem mem) = b.onMem (a.onMem mem) := by
    intro mem
    funext x
    rcases hmem x with ha | hb
    · rcases keepsByte_or b x with hb | ⟨v, hb⟩
      · rw [ha, hb, hb, ha]
      · rw [ha, hb, hb]
    · rcases keepsByte_or a x with ha | ⟨v, ha⟩
      · rw [ha, hb, hb, ha]
      · rw [hb, ha, ha]
  intro s
  simp only [Write.act, hsh, hbytes]

/-- Updates within different objects commute. -/
theorem Write.Within.commutes (ha : a.Within o) (hb : b.Within o') (h : Obj.Apart o o') :
    Commutes Write.act a b := by
  apply commutes_of_keeps
  · intro i
    by_cases hi : o.lo ≤ 8 * i ∧ 8 * i < o.top
    · refine Or.inr (hb.chunks i ?_)
      unfold Obj.Apart at h
      omega
    · exact Or.inl (ha.chunks i hi)
  · intro x
    by_cases hx : o.lo ≤ x ∧ x < o.top
    · refine Or.inr (hb.bytes x ?_)
      unfold Obj.Apart at h
      omega
    · exact Or.inl (ha.bytes x hx)

/-- Updates of the shadow commute with updates of memory. -/
theorem commutes_of_kinds (ha : a.OnShadow) (hb : b.OnMem) : Commutes Write.act a b :=
  commutes_of_keeps (fun i => Or.inr (hb i)) fun x => Or.inl (ha x)

end Keeps

/-! ## The updates of a call are within its object -/

section Within

variable {o : Obj} {a : Write} {start len app w p n user size : ℕ} {val : ℤ}

/-- The chunks that `set_shadow_range` sets. -/
theorem keepsChunk_range {i : ℕ} (hend : start + len ≤ shadowLimit)
    (hi : ¬ (start / 8 ≤ i ∧ i < (start + len + 7) / 8)) :
    (Write.range start len val).KeepsChunk i := by
  intro sh
  simp only [shadowLimit] at hend
  have hwrap : (start + len + 7) % wordSize = start + len + 7 :=
    Nat.mod_eq_of_lt (by simp only [wordSize]; omega)
  have hlo : clearLow start 8 / 8 = start / 8 := by
    rw [clearLow_eight (by simp only [wordSize]; omega), Nat.mul_div_cancel _ (by omega)]
  have hhi : clearLow (start + len + 7) 8 / 8 = (start + len + 7) / 8 := by
    rw [clearLow_eight (by simp only [wordSize]; omega), Nat.mul_div_cancel _ (by omega)]
  have hfit : ¬ (start + len + 7) / 8 > shadowBytes := by
    simp only [shadowBytes]
    omega
  have hcount : ((start + len + 7) / 8 + wordSize - start / 8) % wordSize =
      (start + len + 7) / 8 - start / 8 := by
    simp only [wordSize]
    omega
  simp only [Write.onShadow, setShadowRange, hwrap, hlo, hhi, hfit, hcount, if_false]
  split
  · rfl
  · split
    · rfl
    · exact if_neg (by omega)

theorem within_range (hlo : o.lo ≤ start) (hal : o.lo % 16 = 0)
    (hend : start + len ≤ o.top)
    (hfit : start + len ≤ shadowLimit) : (Write.range start len val).Within o := by
  refine ⟨fun i hi => keepsChunk_range hfit ?_, fun x _ => onShadow_range x⟩
  omega

theorem within_byte (hlo : o.lo ≤ app) (hal : o.lo % 16 = 0) (htop : app < o.top) :
    (Write.byte app val).Within o := by
  refine ⟨fun i hi sh => ?_, fun x _ => onShadow_byte x⟩
  simp only [Write.onShadow, setShadowByte]
  split
  · refine Function.update_of_ne ?_ ..
    omega
  · rfl

theorem within_word (hlo : o.lo ≤ p) (htop : p + 8 ≤ o.top) : (Write.word p w).Within o := by
  refine ⟨fun i _ => onMem_word i, fun x hx mem => if_neg ?_⟩
  omega

theorem within_zero (hlo : o.lo ≤ p) (htop : p + n ≤ o.top) : (Write.zero p n).Within o := by
  refine ⟨fun i _ => onMem_zero i, fun x hx mem => if_neg ?_⟩
  omega

theorem within_carveWrites (hok : o.OK) (h : a ∈ carveWrites o.userLo (o.userHi - o.userLo)) :
    a.Within o := by
  obtain ⟨hal, hle, -, hual, hule, hguard, htop⟩ := hok
  simp only [redzoneSize, shadowLimit] at hguard htop
  have hclear : clearLow (o.userHi - o.userLo) 8 = (o.userHi - o.userLo) / 8 * 8 :=
    clearLow_eight (by simp only [wordSize]; omega)
  have hmod : (o.userLo + (o.userHi - o.userLo) / 8 * 8) % wordSize =
      o.userLo + (o.userHi - o.userLo) / 8 * 8 :=
    Nat.mod_eq_of_lt (by simp only [wordSize]; omega)
  unfold carveWrites at h
  rw [hclear, hmod] at h
  rcases List.mem_append.mp h with h | h
  · split at h
    · rw [List.mem_singleton.mp h]
      apply within_range hle hal (by omega) (by simp only [shadowLimit]; omega)
    · simp at h
  · split at h
    · rw [List.mem_singleton.mp h]
      apply within_byte (by omega) hal (by omega)
    · simp at h

end Within

section Calls

variable {a : Write} {b : Block} {v : StackVar} {idx : ℕ}

theorem within_allocWrites (hok : (place b).OK) (hroom : b.realBase + redzoneSize ≤ b.userAddr)
    (h : a ∈ allocWrites b idx) : a.Within (place b) := by
  have hcarve := within_carveWrites (a := a) hok
  obtain ⟨hal, hle, -, hual, hule, hguard, htop⟩ := hok
  simp only [place, Block.obj, redzoneSize, Nat.add_sub_cancel_left]
    at hal hle hual hguard htop hroom hcarve
  have hlimit : b.userAddr < shadowLimit := by omega
  unfold allocWrites at h
  simp only [List.cons_append, List.mem_cons, List.mem_append, List.not_mem_nil, or_false] at h
  rcases h with rfl | h | rfl | rfl
  · exact within_range le_rfl hal le_rfl htop
  · exact hcarve h
  · apply within_word
    · simp only [place, Block.obj, headerSize]
      omega
    · simp only [place, Block.obj, headerSize]
      omega
  · apply within_word
    · simp only [place, Block.obj]
      omega
    · simp only [place, Block.obj]
      omega

theorem within_freeWrites (hok : (place b).OK) (h : a ∈ freeWrites b) : a.Within (place b) := by
  obtain ⟨hal, hle, -, hual, hule, hguard, htop⟩ := hok
  simp only [place, Block.obj, redzoneSize, shadowLimit] at hal hle hual hguard htop
  have hsum : b.userSize + 7 < wordSize := by
    simp only [wordSize]
    omega
  rw [List.mem_singleton.mp h, Nat.mod_eq_of_lt hsum, clearLow_eight hsum]
  apply within_range
  · exact hle
  · exact hal
  · simp only [place, Block.obj]
    omega
  · simp only [shadowLimit]
    omega

theorem within_enterWrites (hok : v.obj.OK) (h : a ∈ enterWrites v) : a.Within v.obj := by
  have hcarve := within_carveWrites (a := a) hok
  obtain ⟨hal, hle, -, hual, hule, hguard, htop⟩ := hok
  simp only [StackVar.obj, redzoneSize, Nat.add_sub_cancel_left, shadowLimit] at hal htop hcarve
  unfold enterWrites at h
  rw [Nat.mod_eq_of_lt (by simp only [redzoneSize, wordSize]; omega),
    Nat.mod_eq_of_lt (by simp only [redzoneSize, wordSize]; omega)] at h
  rcases List.mem_cons.mp h with rfl | h
  · apply within_range
    · exact le_rfl
    · exact hal
    · simp only [StackVar.obj, redzoneSize]
      omega
    · simp only [redzoneSize, shadowLimit]
      omega
  · exact hcarve h

theorem within_leaveWrites (hok : v.obj.OK) (h : a ∈ leaveWrites v) : a.Within v.obj := by
  obtain ⟨hal, hle, -, hual, hule, hguard, htop⟩ := hok
  simp only [StackVar.obj, redzoneSize, shadowLimit] at hal htop
  unfold leaveWrites at h
  rw [List.mem_singleton.mp h, Nat.mod_eq_of_lt (by simp only [redzoneSize, wordSize]; omega)]
  apply within_range
  · exact le_rfl
  · exact hal
  · simp only [StackVar.obj, redzoneSize]
    omega
  · simp only [redzoneSize, shadowLimit]
    omega

/-! ## Which updates are of the shadow -/

theorem onShadow_carveWrites {user size : ℕ} (h : a ∈ carveWrites user size) : a.OnShadow := by
  unfold carveWrites at h
  rcases List.mem_append.mp h with h | h
  · split at h
    · rw [List.mem_singleton.mp h]
      exact onShadow_range
    · simp at h
  · split at h
    · rw [List.mem_singleton.mp h]
      exact onShadow_byte
    · simp at h

theorem onShadow_enterWrites (h : a ∈ enterWrites v) : a.OnShadow := by
  rcases List.mem_cons.mp h with rfl | h
  · exact onShadow_range
  · exact onShadow_carveWrites h

theorem onShadow_leaveWrites (h : a ∈ leaveWrites v) : a.OnShadow := by
  rw [List.mem_singleton.mp h]
  exact onShadow_range

theorem onShadow_freeWrites (h : a ∈ freeWrites b) : a.OnShadow := by
  rw [List.mem_singleton.mp h]
  exact onShadow_range

/-- Freeing a block leaves the shadow below the user bytes alone. -/
theorem keepsChunk_freeWrites (hok : (place b).OK) (h : a ∈ freeWrites b) {i : ℕ}
    (hi : 8 * i < b.userAddr) : a.KeepsChunk i := by
  obtain ⟨-, -, -, hual, -, hguard, htop⟩ := hok
  simp only [place, Block.obj, redzoneSize, shadowLimit] at hual hguard htop
  have hsum : b.userSize + 7 < wordSize := by
    simp only [wordSize]
    omega
  rw [List.mem_singleton.mp h, Nat.mod_eq_of_lt hsum, clearLow_eight hsum]
  apply keepsChunk_range
  · simp only [shadowLimit]
    omega
  · omega

end Calls

end Redzone.Concurrent
