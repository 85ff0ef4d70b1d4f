/-
  Race/Engine.lean --- the happens-before engine of `runtime/redzone_race.{h,c}`.

  Vector clocks, the pairwise race decision, the hashed shadow of access cells and
  the synchronization events, each under the name it has in the source.  Pointers
  to a structure become the structure passed in and the structure returned.

  Machine integers.  Epochs are `uint64_t`: `rzVcTick` adds one modulo `2 ^ 64`.
  Thread ids are `int`: `next_tid++` wraps as two's complement does.  Both wraps are
  kept, because the properties of the engine depend on them.
-/
import Redzone.Foundation.EpochClock
import Mathlib.Tactic

set_option autoImplicit false

namespace Redzone.Race

open Redzone.Foundation

/-! ## Vector clocks -/

/-- `RZ_RACE_MAX_THREADS`. -/
abbrev maxThreads : ℕ := 64

/-- `RZ_RACE_CELLS`. -/
abbrev raceCells : ℕ := 4

/-- `RZ_RACE_BUCKETS`. -/
def raceBuckets : ℕ := 2 ^ 14

/-- The number of values of `rz_epoch_t`. -/
def epochBound : ℕ := 2 ^ 64

/-- `rz_vc`: one epoch per tracked thread. -/
abbrev RzVc : Type := Clock (Fin maxThreads)

/-- The clock component of a thread id, where `0 ≤ tid < RZ_RACE_MAX_THREADS`. -/
def slotOf (tid : ℤ) : Option (Fin maxThreads) :=
  if h : 0 ≤ tid ∧ tid < maxThreads then some ⟨tid.toNat, by omega⟩ else none

/-- `rz_vc_init`. -/
def rzVcInit : RzVc := fun _ => 0

/-- `rz_vc_tick`: a thread id outside the clock ticks nothing. -/
def rzVcTick (c : RzVc) (tid : ℤ) : RzVc :=
  match slotOf tid with
  | some k => Function.update c k ((c k + 1) % epochBound)
  | none => c

/-- `rz_vc_join`. -/
def rzVcJoin (dst src : RzVc) : RzVc :=
  fun k => if src k > dst k then src k else dst k

@[simp] theorem rzVcJoin_eq_sup (dst src : RzVc) : rzVcJoin dst src = dst ⊔ src := by
  funext k
  simp only [rzVcJoin, Pi.sup_apply]
  split <;> omega

theorem slotOf_eq_some {tid : ℤ} {k : Fin maxThreads} :
    slotOf tid = some k ↔ tid = (k.val : ℤ) := by
  unfold slotOf
  constructor
  · intro h
    split at h
    · obtain rfl := Option.some.inj h
      simp only
      omega
    · simp at h
  · rintro rfl
    have hk := k.isLt
    simp only [maxThreads] at hk
    rw [dif_pos ⟨by omega, by simp only [maxThreads]; omega⟩]
    simp

theorem slotOf_injective {tid tid' : ℤ} {k : Fin maxThreads}
    (h : slotOf tid = some k) (h' : slotOf tid' = some k) : tid = tid' := by
  rw [slotOf_eq_some] at h h'
  rw [h, h']

theorem rzVcTick_of_slot {c : RzVc} {tid : ℤ} {k : Fin maxThreads}
    (h : slotOf tid = some k) :
    rzVcTick c tid = Function.update c k ((c k + 1) % epochBound) := by
  simp [rzVcTick, h]

theorem rzVcTick_of_none {c : RzVc} {tid : ℤ} (h : slotOf tid = none) :
    rzVcTick c tid = c := by
  simp [rzVcTick, h]

/-- Ticking one component leaves the others as they were. -/
theorem rzVcTick_of_ne {c : RzVc} {tid : ℤ} {k : Fin maxThreads}
    (h : slotOf tid ≠ some k) : rzVcTick c tid k = c k := by
  cases hs : slotOf tid with
  | none => rw [rzVcTick_of_none hs]
  | some j =>
    rw [rzVcTick_of_slot hs, Function.update_of_ne]
    rintro rfl
    exact h hs

/-- The epoch a tick may be performed in without overflowing `rz_epoch_t`. -/
def TickFits (c : RzVc) (tid : ℤ) : Prop :=
  ∀ k ∈ slotOf tid, c k + 1 < epochBound

instance (c : RzVc) (tid : ℤ) : Decidable (TickFits c tid) :=
  inferInstanceAs (Decidable (∀ k ∈ slotOf tid, c k + 1 < epochBound))

theorem rzVcTick_self {c : RzVc} {tid : ℤ} {k : Fin maxThreads} (h : slotOf tid = some k)
    (hfits : TickFits c tid) : rzVcTick c tid k = c k + 1 := by
  rw [rzVcTick_of_slot h, Function.update_self, Nat.mod_eq_of_lt (hfits k h)]

/-- A tick that does not overflow only moves the clock forward. -/
theorem le_rzVcTick {c : RzVc} {tid : ℤ} (hfits : TickFits c tid) : c ≤ rzVcTick c tid := by
  intro k
  by_cases h : slotOf tid = some k
  · rw [rzVcTick_self h hfits]
    exact Nat.le_succ (c k)
  · rw [rzVcTick_of_ne h]

/-! ## Accesses and the pairwise decision -/

/-- `rz_access`: one shadow cell. -/
structure RzAccess where
  valid : Bool
  tid : ℤ
  epoch : ℕ
  isWrite : Bool
  file : Option String
  line : ℤ
  deriving DecidableEq, Repr

/-- A cell as `calloc` leaves it. -/
def RzAccess.empty : RzAccess := ⟨false, 0, 0, false, none, 0⟩

/-- `rz_race_check`: does a new access by `tid` with clock `cur` race with `prev`? -/
def rzRaceCheck (prev : RzAccess) (tid : ℤ) (cur : RzVc) (isWrite : Bool) : Bool :=
  if !prev.valid then false
  else if prev.tid = tid then false
  else if !prev.isWrite && !isWrite then false
  else
    match slotOf prev.tid with
    | none => false
    | some u => decide (prev.epoch > cur u)

theorem rzRaceCheck_eq_true {prev : RzAccess} {tid : ℤ} {cur : RzVc} {isWrite : Bool} :
    rzRaceCheck prev tid cur isWrite = true ↔
      prev.valid = true ∧ prev.tid ≠ tid ∧ (prev.isWrite = true ∨ isWrite = true) ∧
        ∃ u, slotOf prev.tid = some u ∧ cur u < prev.epoch := by
  unfold rzRaceCheck
  cases prev.valid <;> cases prev.isWrite <;> cases isWrite <;>
    by_cases htid : prev.tid = tid <;> cases hs : slotOf prev.tid <;> simp [htid]

/-! ## The shadow -/

/-- `rz_bucket`: `key` is the word plus one, 0 means empty. -/
structure RzBucket where
  key : ℕ
  cells : Fin raceCells → RzAccess

def RzBucket.empty : RzBucket := ⟨0, fun _ => .empty⟩

/-- `rz_race_state`.  `buckets == NULL` is `nbuckets = 0`: that is what a failed
`rz_race_state_init_n` and `rz_race_state_destroy` leave behind. -/
structure RzRaceState where
  buckets : ℕ → RzBucket
  nbuckets : ℕ
  nextTid : ℤ

/-- `rz_race_state_init_n`; `ok` tells whether `calloc` succeeds. -/
def rzRaceStateInitN (nbuckets : ℕ) (ok : Bool) : RzRaceState :=
  ⟨fun _ => .empty, if ok then nbuckets else 0, 0⟩

/-- `rz_thread`. -/
structure RzThread where
  tid : ℤ
  clock : RzVc

/-- `rz_sync`. -/
structure RzSync where
  clock : RzVc

/-- `rz_sync_init`. -/
def rzSyncInit : RzSync := ⟨rzVcInit⟩

/-- `next_tid++` on an `int`. -/
def intSucc (n : ℤ) : ℤ := if n = 2 ^ 31 - 1 then -2 ^ 31 else n + 1

/-- `rz_thread_init`. -/
def rzThreadInit (s : RzRaceState) : RzThread × RzRaceState :=
  (⟨s.nextTid, rzVcTick rzVcInit s.nextTid⟩, { s with nextTid := intSucc s.nextTid })

/-- The multiplier of the hash in `find_bucket`, `shard_of` and `sync_shard_of`. -/
def hashMultiplier : ℕ := 0x9E3779B97F4A7C15

/-- Where the probe sequence of a word starts. -/
def RzRaceState.hash (s : RzRaceState) (word : ℕ) : ℕ :=
  word * hashMultiplier % 2 ^ 64 &&& (s.nbuckets - 1)

/-- The probe loop of `find_bucket` from step `i` on, with `fuel` buckets left: it
stops at the first bucket that has the key or is empty. -/
def probe (buckets : ℕ → RzBucket) (key h mask : ℕ) : ℕ → ℕ → Option ℕ
  | _, 0 => none
  | i, fuel + 1 =>
    let p := (h + i) &&& mask
    if (buckets p).key = key ∨ (buckets p).key = 0 then some p
    else probe buckets key h mask (i + 1) fuel

/-- The bucket at which the probe loop stops for `word`. -/
def RzRaceState.lookup (s : RzRaceState) (word : ℕ) : Option ℕ :=
  probe s.buckets (word + 1) (s.hash word) (s.nbuckets - 1) 0 s.nbuckets

/-- `find_bucket`: the bucket of `word` and the table afterwards.  An empty bucket
is claimed for the word if `create`. -/
def findBucket (s : RzRaceState) (word : ℕ) (create : Bool) : Option ℕ × RzRaceState :=
  match s.lookup word with
  | none => (none, s)
  | some p =>
    if (s.buckets p).key = word + 1 then (some p, s)
    else if create then
      (some p, { s with
        buckets := Function.update s.buckets p { s.buckets p with key := word + 1 } })
    else (none, s)

/-- The epoch `rz_race_access_loc` stamps on an access: 0 for a thread id that the
clock does not cover. -/
def curEpoch (t : RzThread) : ℕ :=
  match slotOf t.tid with
  | some k => t.clock k
  | none => 0

/-- The first recorded cell that conflicts with the new access. -/
def conflictingCell (cells : Fin raceCells → RzAccess) (t : RzThread) (isWrite : Bool) :
    Option RzAccess :=
  ((List.finRange raceCells).find? fun i =>
    rzRaceCheck (cells i) t.tid t.clock isWrite).map cells

/-- The cell the new access is recorded in: the thread's own, else the first free
one, else cell 0. -/
def recordSlot (cells : Fin raceCells → RzAccess) (tid : ℤ) : Fin raceCells :=
  match (List.finRange raceCells).find? fun i => (cells i).valid && (cells i).tid == tid with
  | some i => i
  | none =>
    match (List.finRange raceCells).find? fun i => !(cells i).valid with
    | some i => i
    | none => 0

/-- What the chosen cell holds afterwards.  Two accesses of one thread in one epoch
are combined: a read and a write in one epoch are a write in that epoch. -/
def recordCell (c : RzAccess) (t : RzThread) (isWrite : Bool) (file : Option String)
    (line : ℤ) : RzAccess :=
  { valid := true
    tid := t.tid
    epoch := curEpoch t
    isWrite :=
      if c.valid && c.tid == t.tid && c.epoch == curEpoch t then c.isWrite || isWrite
      else isWrite
    file := file
    line := line }

/-- Record the access among the cells of its word. -/
def recordAccess (cells : Fin raceCells → RzAccess) (t : RzThread) (isWrite : Bool)
    (file : Option String) (line : ℤ) : Fin raceCells → RzAccess :=
  let slot := recordSlot cells t.tid
  Function.update cells slot (recordCell (cells slot) t isWrite file line)

/-- The 8-byte word of an address. -/
def wordOf (addr : ℕ) : ℕ := addr / 8

/-- `rz_race_access_loc`: the conflicting prior access, if there is one (the return
value is 1 exactly then), and the shadow with the new access recorded. -/
def rzRaceAccessLoc (s : RzRaceState) (t : RzThread) (addr : ℕ) (isWrite : Bool)
    (file : Option String) (line : ℤ) : Option RzAccess × RzRaceState :=
  match findBucket s (wordOf addr) true with
  | (none, s) => (none, s)
  | (some p, s) =>
    (conflictingCell (s.buckets p).cells t isWrite,
      { s with buckets := Function.update s.buckets p { s.buckets p with
          cells := recordAccess (s.buckets p).cells t isWrite file line } })

/-! ## Synchronization events -/

/-- `rz_mutex_release`: publish the clock, then move past it. -/
def rzMutexRelease (t : RzThread) (m : RzSync) : RzThread × RzSync :=
  ({ t with clock := rzVcTick t.clock t.tid }, ⟨rzVcJoin m.clock t.clock⟩)

/-- `rz_mutex_acquire`. -/
def rzMutexAcquire (t : RzThread) (m : RzSync) : RzThread :=
  { t with clock := rzVcJoin t.clock m.clock }

/-- `rz_thread_create`: the parent and the child afterwards. -/
def rzThreadCreate (s : RzRaceState) (parent : RzThread) :
    RzThread × RzThread × RzRaceState :=
  let child : RzThread := ⟨s.nextTid, rzVcTick parent.clock s.nextTid⟩
  ({ parent with clock := rzVcTick parent.clock parent.tid }, child,
    { s with nextTid := intSucc s.nextTid })

/-- `rz_thread_join`. -/
def rzThreadJoin (parent child : RzThread) : RzThread :=
  { parent with clock := rzVcJoin parent.clock child.clock }

end Redzone.Race
