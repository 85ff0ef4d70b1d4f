/-
  Runtime/Registry.lean --- the tables of `runtime/redzone_race_rt.c`.

  The runtime keeps, besides the shadow of the engine, a registry of the threads it
  has created (for join), sharded registries from the address of a lock or an atomic
  to its clock, and the list of line pairs it has reported.  The arrays grow by
  `realloc`, which may fail; whether it does is an argument.

  A handle (`rz_thread *`) is named by the thread it was allocated for.
-/
import Redzone.Foundation.Word
import Redzone.Race.Table

set_option autoImplicit false

namespace Redzone.Runtime

open Redzone.Foundation
open Redzone.Race

/-! ## The thread registry -/

/-- `rz_thr_ent`: a slot of `g_threads`. -/
structure ThrEnt where
  /-- The `pthread_t` value. -/
  thr : ℕ
  /-- The handle. -/
  self : ℕ
  used : Bool
  deriving DecidableEq, Repr

/-- The first slot that is not in use is filled with `e`. -/
def claimSlot : List ThrEnt → ThrEnt → Option (List ThrEnt)
  | [], _ => none
  | slot :: rest, e =>
    if !slot.used then some (e :: rest) else (claimSlot rest e).map (slot :: ·)

/-- `reg_thread`: without memory for a larger array the mapping is dropped. -/
def regThread (reg : List ThrEnt) (thr self : ℕ) (growOk : Bool) : List ThrEnt :=
  match claimSlot reg ⟨thr, self, true⟩ with
  | some reg => reg
  | none =>
    let old := reg.length
    let cap := if old ≠ 0 then old * 2 else 16
    if growOk then reg ++ ⟨thr, self, true⟩ :: List.replicate (cap - old - 1) ⟨0, 0, false⟩
    else reg

/-- `take_thread`: the handle of the first slot in use for `thr`, and the array with
that slot freed. -/
def takeThread : List ThrEnt → ℕ → Option ℕ × List ThrEnt
  | [], _ => (none, [])
  | slot :: rest, thr =>
    if slot.used && slot.thr == thr then (some slot.self, { slot with used := false } :: rest)
    else ((takeThread rest thr).1, slot :: (takeThread rest thr).2)

/-- The first slot in use for `thr` has the handle `self`. -/
def FirstEntry : List ThrEnt → ℕ → ℕ → Prop
  | [], _, _ => False
  | slot :: rest, thr, self =>
    if slot.used = true ∧ slot.thr = thr then slot.self = self else FirstEntry rest thr self

instance decidableFirstEntry :
    (reg : List ThrEnt) → (thr self : ℕ) → Decidable (FirstEntry reg thr self)
  | [], _, _ => .isFalse id
  | slot :: rest, thr, self =>
    have := decidableFirstEntry rest thr self
    inferInstanceAs (Decidable (if slot.used = true ∧ slot.thr = thr then slot.self = self
      else FirstEntry rest thr self))

theorem takeThread_of_firstEntry {reg : List ThrEnt} {thr self : ℕ}
    (h : FirstEntry reg thr self) : (takeThread reg thr).1 = some self := by
  induction reg with
  | nil => exact h.elim
  | cons slot rest ih =>
      unfold FirstEntry at h
      unfold takeThread
      split at h
      · rename_i hslot
        rw [if_pos (by simpa using hslot), h]
      · rename_i hslot
        rw [if_neg (by simpa using hslot)]
        exact ih h

section Registry

variable {reg reg' : List ThrEnt} {thr self c : ℕ} {growOk : Bool} {slot e : ThrEnt}

theorem mem_claimSlot (h : claimSlot reg e = some reg') (hslot : slot ∈ reg') :
    slot = e ∨ slot ∈ reg := by
  induction reg generalizing reg' with
  | nil => simp [claimSlot] at h
  | cons first rest ih =>
      unfold claimSlot at h
      split at h
      · obtain rfl := Option.some.inj h
        rcases List.mem_cons.mp hslot with rfl | hrest
        · exact Or.inl rfl
        · exact Or.inr (List.mem_cons_of_mem _ hrest)
      · obtain ⟨rest', hrest', rfl⟩ := Option.map_eq_some_iff.mp h
        rcases List.mem_cons.mp hslot with rfl | hmem
        · exact Or.inr (List.mem_cons_self ..)
        · exact (ih hrest' hmem).imp id (List.mem_cons_of_mem _)

/-- Registering fills one slot. -/
theorem mem_regThread (hslot : slot ∈ regThread reg thr self growOk) (hused : slot.used = true) :
    slot = ⟨thr, self, true⟩ ∨ slot ∈ reg := by
  unfold regThread at hslot
  split at hslot
  · rename_i hclaim
    exact mem_claimSlot hclaim hslot
  · simp only at hslot
    split at hslot
    · rcases List.mem_append.mp hslot with hold | hnew
      · exact Or.inr hold
      · rcases List.mem_cons.mp hnew with rfl | hblank
        · exact Or.inl rfl
        · rw [List.eq_of_mem_replicate hblank] at hused
          simp at hused
    · exact Or.inr hslot

/-- Taking a thread leaves a part of the entries. -/
theorem mem_takeThread (hslot : slot ∈ (takeThread reg thr).2) (hused : slot.used = true) :
    slot ∈ reg := by
  induction reg with
  | nil => simp [takeThread] at hslot
  | cons first rest ih =>
      unfold takeThread at hslot
      split at hslot
      · rcases List.mem_cons.mp hslot with rfl | hrest
        · simp at hused
        · exact List.mem_cons_of_mem _ hrest
      · rcases List.mem_cons.mp hslot with rfl | hrest
        · exact List.mem_cons_self ..
        · exact List.mem_cons_of_mem _ (ih hrest)

/-- What is taken is in an entry for the value. -/
theorem takeThread_eq_some (h : (takeThread reg thr).1 = some c) :
    ∃ slot ∈ reg, slot.used = true ∧ slot.thr = thr ∧ slot.self = c := by
  induction reg with
  | nil => simp [takeThread] at h
  | cons first rest ih =>
      unfold takeThread at h
      split at h
      · rename_i hfirst
        simp only [Bool.and_eq_true, beq_iff_eq] at hfirst
        exact ⟨first, List.mem_cons_self .., hfirst.1, hfirst.2, Option.some.inj h⟩
      · obtain ⟨slot, hmem, hslot⟩ := ih h
        exact ⟨slot, List.mem_cons_of_mem _ hmem, hslot⟩

/-- No two slots in use are for one `pthread_t` value. -/
def DistinctValues (reg : List ThrEnt) : Prop :=
  reg.Pairwise fun a b => a.used = true → b.used = true → a.thr ≠ b.thr

theorem DistinctValues.claimSlot (h : DistinctValues reg) (hclaim : claimSlot reg e = some reg')
    (hnew : ∀ slot ∈ reg, slot.used = true → slot.thr ≠ e.thr) : DistinctValues reg' := by
  induction reg generalizing reg' with
  | nil => simp [Runtime.claimSlot] at hclaim
  | cons first rest ih =>
      obtain ⟨hfirst, hrest⟩ := List.pairwise_cons.mp h
      unfold Runtime.claimSlot at hclaim
      split at hclaim
      · obtain rfl := Option.some.inj hclaim
        refine List.pairwise_cons.mpr ⟨fun b hb _ hused => ?_, hrest⟩
        exact (hnew b (List.mem_cons_of_mem _ hb) hused).symm
      · obtain ⟨rest', hrest', rfl⟩ := Option.map_eq_some_iff.mp hclaim
        refine List.pairwise_cons.mpr ⟨fun b hb hfu hbu => ?_, ?_⟩
        · rcases mem_claimSlot hrest' hb with rfl | hmem
          · exact hnew first (List.mem_cons_self ..) hfu
          · exact hfirst b hmem hfu hbu
        · exact ih hrest hrest' fun slot hslot => hnew slot (List.mem_cons_of_mem _ hslot)

/-- Registering a value that no slot has keeps the values distinct. -/
theorem DistinctValues.regThread (h : DistinctValues reg)
    (hnew : ∀ slot ∈ reg, slot.used = true → slot.thr ≠ thr) :
    DistinctValues (regThread reg thr self growOk) := by
  unfold Runtime.regThread
  split
  · rename_i hclaim
    exact h.claimSlot hclaim hnew
  · simp only
    split
    · refine List.pairwise_append.mpr ⟨h, List.pairwise_cons.mpr ⟨?_, ?_⟩, ?_⟩
      · intro b hb _ hused
        rw [List.eq_of_mem_replicate hb] at hused
        simp at hused
      · refine List.pairwise_of_forall_mem_list fun a ha b _ hused => ?_
        rw [List.eq_of_mem_replicate ha] at hused
        simp at hused
      · intro a ha b hb hau hbu
        rcases List.mem_cons.mp hb with rfl | hblank
        · exact hnew a ha hau
        · rw [List.eq_of_mem_replicate hblank] at hbu
          simp at hbu
    · exact h

theorem DistinctValues.takeThread (h : DistinctValues reg) :
    DistinctValues (takeThread reg thr).2 := by
  induction reg with
  | nil => exact List.Pairwise.nil
  | cons first rest ih =>
      obtain ⟨hfirst, hrest⟩ := List.pairwise_cons.mp h
      unfold Runtime.takeThread
      split
      · refine List.pairwise_cons.mpr ⟨fun b _ hused => ?_, hrest⟩
        simp at hused
      · refine List.pairwise_cons.mpr ⟨fun b hb hfu hbu => ?_, ih hrest⟩
        exact hfirst b (mem_takeThread hb hbu) hfu hbu

/-- Where the values are distinct, every entry is the first for its value. -/
theorem DistinctValues.firstEntry (h : DistinctValues reg) (hslot : slot ∈ reg)
    (hused : slot.used = true) : FirstEntry reg slot.thr slot.self := by
  induction reg with
  | nil => simp at hslot
  | cons first rest ih =>
      obtain ⟨hfirst, hrest⟩ := List.pairwise_cons.mp h
      unfold FirstEntry
      rcases List.mem_cons.mp hslot with rfl | hmem
      · rw [if_pos ⟨hused, rfl⟩]
      · rw [if_neg]
        · exact ih hrest hmem
        · rintro ⟨hfu, heq⟩
          exact hfirst slot hmem hfu hused heq

end Registry

/-! ## The sync registries -/

/-- `rz_sync_ent`. -/
structure SyncEnt where
  /-- The address of the object. -/
  key : ℕ
  sync : RzSync

/-- `rz_sync_shard`: `ents[0 .. len)` and `cap`. -/
structure SyncShard where
  ents : List SyncEnt
  cap : ℕ

/-- A shard before its first use. -/
def SyncShard.empty : SyncShard := ⟨[], 0⟩

/-- `sync_shard_of`, with `RZ_NSYNC = 16`. -/
def syncShardOf (key : ℕ) : ℕ := (key * hashMultiplier % wordSize) / 2 ^ 36 % 16

/-- Where an object is in the array. -/
def syncIndex (ents : List SyncEnt) (key : ℕ) : Option ℕ := ents.findIdx? fun e => e.key == key

/-- `sync_for_in`: the index of the object of `key`, created if it is not there.  `none`
is the `NULL` of a failed `realloc`, which leaves the shard as it is. -/
def syncForIn (sh : SyncShard) (key : ℕ) (growOk : Bool) : Option (ℕ × SyncShard) :=
  match syncIndex sh.ents key with
  | some i => some (i, sh)
  | none =>
    if sh.ents.length = sh.cap then
      if growOk then
        some (sh.ents.length,
          ⟨sh.ents ++ [⟨key, rzSyncInit⟩], if sh.cap ≠ 0 then sh.cap * 2 else 8⟩)
      else none
    else some (sh.ents.length, { sh with ents := sh.ents ++ [⟨key, rzSyncInit⟩] })

/-- The object at an index. -/
def SyncShard.syncAt (sh : SyncShard) (i : ℕ) : RzSync :=
  match sh.ents[i]? with
  | some e => e.sync
  | none => rzSyncInit

/-- The shard with another clock in the object at an index. -/
def SyncShard.setSync (sh : SyncShard) (i : ℕ) (m : RzSync) : SyncShard :=
  { sh with ents := sh.ents.modify i fun e => { e with sync := m } }

/-- The clock that the shard has for `key`: that of a fresh object if it has none. -/
def SyncShard.clock (sh : SyncShard) (key : ℕ) : RzVc :=
  match sh.ents.find? fun e => e.key == key with
  | some e => e.sync.clock
  | none => rzVcInit

section SyncShard

variable {sh sh' : SyncShard} {key key' i : ℕ} {growOk : Bool}

theorem syncForIn_of_mem (h : syncIndex sh.ents key = some i) :
    syncForIn sh key growOk = some (i, sh) := by
  simp [syncForIn, h]

/-- A fresh object at the end changes no clock. -/
theorem clock_append_init (hkey : syncIndex sh.ents key = none) {cap : ℕ} :
    (SyncShard.mk (sh.ents ++ [⟨key, rzSyncInit⟩]) cap).clock key' = sh.clock key' := by
  have hnone : sh.ents.find? (fun e => e.key == key) = none := by
    rw [List.find?_eq_none]
    intro e he
    exact (List.findIdx?_eq_none_iff.mp hkey e he) ▸ by simp
  unfold SyncShard.clock
  rw [List.find?_append]
  cases hfind : sh.ents.find? (fun e => e.key == key') with
  | some e => simp
  | none =>
      by_cases hk : key = key'
      · simp [hk, rzSyncInit]
      · simp [hk]

/-- What `sync_for_in` hands out: the object of `key`, with no clock changed. -/
theorem syncForIn_spec (h : syncForIn sh key growOk = some (i, sh')) :
    syncIndex sh'.ents key = some i ∧ ∀ key', sh'.clock key' = sh.clock key' := by
  unfold syncForIn at h
  cases hidx : syncIndex sh.ents key with
  | some j =>
      rw [hidx] at h
      obtain ⟨rfl, rfl⟩ := Prod.mk.inj (Option.some.inj h)
      exact ⟨hidx, fun _ => rfl⟩
  | none =>
      rw [hidx] at h
      have happend : syncIndex (sh.ents ++ [⟨key, rzSyncInit⟩]) key = some sh.ents.length := by
        unfold syncIndex at hidx ⊢
        simp [List.findIdx?_append, hidx]
      simp only at h
      split at h
      · split at h
        · obtain ⟨rfl, rfl⟩ := Prod.mk.inj (Option.some.inj h)
          exact ⟨happend, fun _ => clock_append_init hidx⟩
        · simp at h
      · obtain ⟨rfl, rfl⟩ := Prod.mk.inj (Option.some.inj h)
        exact ⟨happend, fun _ => clock_append_init hidx⟩

theorem syncIndex_cons {e : SyncEnt} {es : List SyncEnt} :
    syncIndex (e :: es) key = if e.key = key then some 0 else (syncIndex es key).map (· + 1) := by
  unfold syncIndex
  rw [List.findIdx?_cons]
  by_cases h : e.key = key
  · simp [h]
  · simp [h]

/-- The object at the index of `key` has the clock of `key`. -/
theorem syncAt_clock (h : syncIndex sh.ents key = some i) : (sh.syncAt i).clock = sh.clock key := by
  obtain ⟨hi, hkey, hfirst⟩ := List.findIdx?_eq_some_iff_getElem.mp h
  have hfind : sh.ents.find? (fun e => e.key == key) = some sh.ents[i] :=
    List.find?_eq_some_iff_getElem.mpr ⟨hkey, i, hi, rfl, fun j hj => by simpa using hfirst j hj⟩
  unfold SyncShard.syncAt SyncShard.clock
  rw [hfind, List.getElem?_eq_getElem hi]

/-- Setting the first object of `key` changes what is found for `key` only. -/
theorem find?_modify_sync {ents : List SyncEnt} (h : syncIndex ents key = some i) (m : RzSync) :
    ((ents.modify i fun e => { e with sync := m }).find? fun e => e.key == key') =
      if key' = key then some ⟨key, m⟩ else ents.find? fun e => e.key == key' := by
  induction ents generalizing i with
  | nil => simp [syncIndex] at h
  | cons e es ih =>
      rw [syncIndex_cons] at h
      by_cases he : e.key = key
      · rw [if_pos he] at h
        obtain rfl := Option.some.inj h
        by_cases hk : key' = key
        · simp [he, hk]
        · have hne : (e.key == key') = false := by simpa [he] using Ne.symm hk
          simp [hk, hne]
      · rw [if_neg he] at h
        obtain ⟨j, hj, rfl⟩ := Option.map_eq_some_iff.mp h
        rw [List.modify_succ_cons, List.find?_cons, List.find?_cons, ih hj]
        by_cases hk : key' = key
        · have hne : (e.key == key) = false := by simpa using he
          simp [hk, hne]
        · simp [hk]

/-- Setting the object of one key. -/
theorem clock_setSync (h : syncIndex sh.ents key = some i) (m : RzSync) :
    (sh.setSync i m).clock key' = if key' = key then m.clock else sh.clock key' := by
  unfold SyncShard.clock SyncShard.setSync
  rw [find?_modify_sync h]
  by_cases hk : key' = key
  · simp [hk]
  · simp [hk]

end SyncShard

end Redzone.Runtime
