/-
  Stack/Body.lean --- function bodies, as `RedzonePass::run` reads them in address mode.

  Of an instruction the model keeps what the pass looks at: the pointer operand and the
  store size of an access, the size and alignment of an alloca, and whether it is a call.
  An invoke is a call at the end of its block.  `strip` is
  `stripAndAccumulateConstantOffsets`: the value a pointer is at a constant distance from.

  The pass decides here which accesses get no check (`skipped`) and which allocas are
  wrapped (`Alloca.wrapped`).  It does so before it wraps them.
-/
import Redzone.Pass.RaceMode
import Redzone.Shadow.Memory

set_option autoImplicit false

namespace Redzone.Stack

open Redzone.Pass (Value TypeSize)
open Redzone.Foundation
open Redzone.Shadow

/-! ## Functions -/

/-- An alloca instruction. -/
structure Alloca where
  id : ℕ
  /-- `isStaticAlloca` -/
  isStatic : Bool
  /-- `getAllocationSize` -/
  size : Option TypeSize
  align : ℕ
  deriving DecidableEq, Repr

/-- What the constant offsets of a pointer start from. -/
inductive Base where
  | alloca (a : Alloca)
  | value (v : Value)
  deriving DecidableEq, Repr

/-- An instruction that does not end a block. -/
inductive Inst where
  | alloca (a : Alloca)
  | load (dst ptr : Value) (size : TypeSize)
  | store (ptr : Value) (size : TypeSize)
  /-- Any `CallBase`. -/
  | call (dst : Value)
  | other (dst : Value)
  deriving DecidableEq, Repr

/-- How a block ends. -/
inductive Terminator where
  /-- `ReturnInst` -/
  | ret
  | br (succs : List ℕ)
  /-- `ResumeInst` -/
  | resume
  deriving DecidableEq, Repr

structure Block where
  insts : List Inst
  term : Terminator
  deriving DecidableEq, Repr

/-- The pointer operand of an access. -/
def Inst.pointer : Inst → Option Value
  | .load _ ptr _ | .store ptr _ => some ptr
  | _ => none

def Inst.isWrite : Inst → Bool
  | .store _ _ => true
  | _ => false

/-- What an instruction defines. -/
def Inst.defines : Inst → Option Base
  | .alloca a => some (.alloca a)
  | .load dst _ _ | .call dst | .other dst => some (.value dst)
  | .store _ _ => none

/-- The first instruction uses a pointer that starts from what the second one defines. -/
def Clobbers (strip : Value → Base × ℤ) (I J : Inst) : Bool :=
  match I.pointer with
  | some p => J.defines == some (strip p).1
  | none => false

/-- A function.  In a block nothing is used before it is defined. -/
structure Function where
  blocks : List Block
  strip : Value → Base × ℤ
  ssa : ∀ B ∈ blocks, (∀ I ∈ B.insts, Clobbers strip I I = false) ∧
    B.insts.Pairwise fun I J => Clobbers strip I J = false

/-- The instructions of block `b`. -/
def Function.insts (f : Function) (b : ℕ) : List Inst := (f.blocks[b]?).elim [] Block.insts

/-! ## Which accesses are skipped -/

/-- `accessInfo`. -/
def accessInfo : Inst → Option (Value × ℕ)
  | .load _ ptr (.fixed size) | .store ptr (.fixed size) => some (ptr, size)
  | _ => none

/-- `provablySafeAlloca`. -/
def provablySafeAlloca (strip : Value → Base × ℤ) (ptr : Value) (size : ℕ) : Bool :=
  match strip ptr with
  | (.alloca a, off) =>
    a.isStatic &&
      match a.size with
      | some (.fixed objSize) =>
        decide (0 ≤ off) && decide (off.toNat ≤ objSize) && decide (objSize - off.toNat ≥ size)
      | _ => false
  | (.value _, _) => false

/-- `checked`: for a pointer the largest size already checked, and the place of the check. -/
abbrev Checked : Type := Value → Option (ℕ × ℕ)

/-- The largest size already checked; 0 if there is none. -/
def Checked.maxChecked (c : Checked) (ptr : Value) : ℕ := (c ptr).elim 0 Prod.fst

/-- One instruction of the loop over a block, at place `k`. -/
def scanInst (strip : Value → Base × ℤ) (c : Checked) (k : ℕ) (I : Inst) : Checked :=
  match I with
  | .call _ => fun _ => none
  | I =>
    match accessInfo I with
    | none => c
    | some (ptr, size) =>
      if provablySafeAlloca strip ptr size then c
      else if c.maxChecked ptr ≥ size ∧ c.maxChecked ptr ≠ 0 then c
      else if size > c.maxChecked ptr then Function.update c ptr (some (size, k))
      else c

/-- `checked` in front of place `k` of a block. -/
def checkedAt (strip : Value → Base × ℤ) (insts : List Inst) : ℕ → Checked
  | 0 => fun _ => none
  | k + 1 =>
    match insts[k]? with
    | some I => scanInst strip (checkedAt strip insts k) k I
    | none => checkedAt strip insts k

/-- The check that makes the access at place `k` redundant: its size and its place. -/
def covering (strip : Value → Base × ℤ) (insts : List Inst) (k : ℕ) : Option (ℕ × ℕ) :=
  match insts[k]? with
  | none => none
  | some I =>
    match accessInfo I with
    | none => none
    | some (ptr, size) =>
      if provablySafeAlloca strip ptr size then none
      else
        match checkedAt strip insts k ptr with
        | some (m, i) => if m ≥ size ∧ m ≠ 0 then some (m, i) else none
        | none => none

/-- The access at place `k` is provably safe. -/
def safeAt (strip : Value → Base × ℤ) (insts : List Inst) (k : ℕ) : Bool :=
  match insts[k]? with
  | none => false
  | some I =>
    match accessInfo I with
    | none => false
    | some (ptr, size) => provablySafeAlloca strip ptr size

/-- `skip`. -/
def skipped (strip : Value → Base × ℤ) (insts : List Inst) (k : ℕ) : Bool :=
  safeAt strip insts k || (covering strip insts k).isSome

/-! ## Which allocas are wrapped -/

/-- The size of the variable, if the pass wraps the alloca. -/
def Alloca.wrapped (a : Alloca) : Option ℕ :=
  if !a.isStatic then none
  else
    match a.size with
    | some (.fixed size) => if size = 0 ∨ a.align > redzoneSize then none else some size
    | _ => none

/-- `total`: the size of the alloca that takes the place of a wrapped one. -/
def allocaTotal (size : ℕ) : ℕ := redzoneSize + roundUp8 size + redzoneSize

/-! ## What has been checked -/

section Checked

variable {strip : Value → Base × ℤ} {insts : List Inst} {k m i : ℕ} {ptr : Value}

/-- What is known to be checked after an instruction was known before, or is the check of
this instruction. -/
theorem scanInst_eq_some {c : Checked} {I : Inst}
    (h : scanInst strip c k I ptr = some (m, i)) :
    (∀ dst, I ≠ .call dst) ∧ (c ptr = some (m, i) ∨
      (i = k ∧ accessInfo I = some (ptr, m) ∧ provablySafeAlloca strip ptr m = false ∧
        c.maxChecked ptr < m)) := by
  have hcall : ∀ dst, I ≠ .call dst := by
    rintro dst rfl
    simp [scanInst] at h
  refine ⟨hcall, ?_⟩
  have hscan : scanInst strip c k I = match accessInfo I with
      | none => c
      | some (ptr, size) =>
        if provablySafeAlloca strip ptr size then c
        else if c.maxChecked ptr ≥ size ∧ c.maxChecked ptr ≠ 0 then c
        else if size > c.maxChecked ptr then Function.update c ptr (some (size, k))
        else c := by
    cases I with
    | call dst => exact absurd rfl (hcall dst)
    | alloca | load | store | other => rfl
  rw [hscan] at h
  cases haccess : accessInfo I with
  | none =>
      rw [haccess] at h
      exact Or.inl h
  | some access =>
      obtain ⟨p, size⟩ := access
      rw [haccess] at h
      simp only at h
      split at h
      · exact Or.inl h
      rename_i hsafe
      split at h
      · exact Or.inl h
      split at h
      · rename_i hmore
        by_cases hp : ptr = p
        · subst hp
          rw [Function.update_self] at h
          obtain ⟨rfl, rfl⟩ := Prod.mk.inj (Option.some.inj h)
          exact Or.inr ⟨rfl, rfl, by simpa using hsafe, hmore⟩
        · rw [Function.update_of_ne hp] at h
          exact Or.inl h
      · exact Or.inl h

/-- A check is at an earlier place, and of some bytes. -/
theorem checkedAt_lt (h : checkedAt strip insts k ptr = some (m, i)) : i < k ∧ 0 < m := by
  induction k with
  | zero => simp [checkedAt] at h
  | succ k ih =>
      unfold checkedAt at h
      cases hI : insts[k]? with
      | none =>
          rw [hI] at h
          exact ⟨(ih h).1.trans (Nat.lt_succ_self k), (ih h).2⟩
      | some I =>
          rw [hI] at h
          rcases (scanInst_eq_some h).2 with hold | ⟨rfl, -, -, hmore⟩
          · exact ⟨(ih hold).1.trans (Nat.lt_succ_self k), (ih hold).2⟩
          · exact ⟨Nat.lt_succ_self i, (Nat.zero_le _).trans_lt hmore⟩

/-- The place of a check is an access of this size through the pointer. -/
theorem checkedAt_access (h : checkedAt strip insts k ptr = some (m, i)) :
    ∃ I, insts[i]? = some I ∧ accessInfo I = some (ptr, m) := by
  induction k with
  | zero => simp [checkedAt] at h
  | succ k ih =>
      unfold checkedAt at h
      cases hI : insts[k]? with
      | none =>
          rw [hI] at h
          exact ih h
      | some I =>
          rw [hI] at h
          rcases (scanInst_eq_some h).2 with hold | ⟨rfl, haccess, -⟩
          · exact ih hold
          · exact ⟨I, hI, haccess⟩

end Checked

end Redzone.Stack
