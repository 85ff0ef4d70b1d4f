/-
  Shadow/Heap.lean --- the allocation table and the allocator of
  `runtime/redzone_rt.c`.

  The state of the runtime is the table, the shadow and the contents of memory (user
  data, and the headers the runtime keeps in the left red zones).  What the system
  answers is an argument: the address `rz_sys_malloc` returns, if any, and whether the
  table can grow.  A call that aborts the process has no state afterwards.

  `AllocEffect` and `FreeEffect` say what a call that succeeds does to table and
  shadow; everything later is proved from them.
-/
import Redzone.Shadow.Memory

set_option autoImplicit false

namespace Redzone.Shadow

open Redzone.Foundation

/-! ## The state -/

/-- `Block`: one recorded allocation. -/
structure Block where
  realBase : ℕ
  totalSize : ℕ
  userAddr : ℕ
  userSize : ℕ
  freed : Bool
  allocFile : Option String
  allocLine : ℤ
  deriving DecidableEq, Repr

/-- The contents of memory. -/
abbrev Bytes : Type := ℕ → UInt8

/-- The runtime: `g_blocks[0 .. g_count)`, `g_cap`, the shadow, and memory. -/
structure Rt where
  blocks : List Block
  cap : ℕ
  shadow : ShadowMap
  mem : Bytes

/-- The runtime before the first call. -/
def Rt.initial : Rt := ⟨[], 0, .zero, fun _ => 0⟩

/-- What the system answers during one call. -/
structure Sys where
  /-- `rz_sys_malloc` -/
  malloc : Option ℕ
  /-- `rz_sys_realloc` of the table succeeds. -/
  growOk : Bool
  deriving DecidableEq, Repr

/-- A finding of the access check. -/
structure Report where
  kind : String
  addr : ℕ
  size : ℕ
  isWrite : Bool
  file : Option String
  line : ℤ
  /-- The heap block the address belongs to. -/
  block : Option Block
  deriving DecidableEq, Repr

/-- How a call ends the process. -/
inductive Abort where
  /-- "redzone: out of memory tracking allocations" -/
  | outOfMemory
  /-- `report_free_error` -/
  | freeError (kind : String) (ptr : ℕ)
  /-- `report` and `report_simple` -/
  | access (r : Report)
  deriving DecidableEq, Repr

/-! ## Memory -/

/-- A little-endian 64-bit load. -/
def load64 (mem : Bytes) (a : ℕ) : ℕ :=
  ((List.range 8).map fun i => (mem (a + i)).toNat * 256 ^ i).sum

/-- A little-endian 64-bit store. -/
def store64 (mem : Bytes) (a w : ℕ) : Bytes := fun x =>
  if a ≤ x ∧ x < a + 8 then UInt8.ofNat (w / 256 ^ (x - a)) else mem x

/-- `memset`. -/
def memset (mem : Bytes) (dst : ℕ) (c : UInt8) (n : ℕ) : Bytes := fun x =>
  if dst ≤ x ∧ x < dst + n then c else mem x

/-- `memmove`, and `memcpy` where the ranges do not overlap. -/
def memmove (mem : Bytes) (dst src n : ℕ) : Bytes := fun x =>
  if dst ≤ x ∧ x < dst + n then mem (src + (x - dst)) else mem x

/-! ## The allocation table -/

/-- `find_block`: the first block whose full extent has the address. -/
def findBlock (s : Rt) (addr : ℕ) : Option Block :=
  s.blocks.find? fun b =>
    b.realBase ≤ addr && addr < (b.realBase + b.totalSize) % wordSize

/-- `record_block`: the index of the new block. -/
def recordBlock (s : Rt) (b : Block) (growOk : Bool) : Except Abort (ℕ × Rt) :=
  if s.blocks.length = s.cap then
    if growOk then
      .ok (s.blocks.length,
        { s with cap := if s.cap ≠ 0 then s.cap * 2 else 64, blocks := s.blocks ++ [b] })
    else .error .outOfMemory
  else .ok (s.blocks.length, { s with blocks := s.blocks ++ [b] })

/-- `RZ_HEADER_MAGIC`. -/
def headerMagic : ℕ := 0x7265647A6F6E6521

/-- `sizeof(Header)`. -/
abbrev headerSize : ℕ := 16

/-- `block_from_user_ptr`: the index of the block whose user region starts at `u`, by
the header below it. -/
def blockFromUserPtr (s : Rt) (u : ℕ) : Option ℕ :=
  if u < headerSize then none
  else if shadowLoad s.shadow (u - 8) ≠ rzPoison then none
  else
    let magic := load64 s.mem (u - headerSize)
    let index := load64 s.mem (u - 8)
    if magic ≠ headerMagic ∨ index ≥ s.blocks.length then none
    else
      match s.blocks[index]? with
      | some b => if b.userAddr = u then some index else none
      | none => none

/-! ## Allocation -/

/-- `SIZE_MAX`. -/
abbrev sizeMax : ℕ := wordSize - 1

/-- `rz_allocate`. -/
def rzAllocate (s : Rt) (size align : ℕ) (file : Option String) (line : ℤ) (sys : Sys) :
    Except Abort (Option ℕ × Rt) :=
  let slack := if align > redzoneSize then align else 0
  if size > sizeMax - 2 * redzoneSize - slack then .ok (none, s)
  else
    let total := size + 2 * redzoneSize + slack
    match sys.malloc with
    | none => .ok (none, s)
    | some base =>
      let user := clearLow ((base + redzoneSize + (align - 1)) % wordSize) align
      match recordBlock s ⟨base, total, user, size, false, file, line⟩ sys.growOk with
      | .error e => .error e
      | .ok (idx, s) =>
        .ok (some user, { s with
          shadow := carveUser (setShadowRange s.shadow base total rzPoison) user size
          mem := store64 (store64 s.mem (user - headerSize) headerMagic) (user - 8) idx })

/-- `__redzone_malloc`. -/
def redzoneMalloc (s : Rt) (size : ℕ) (file : Option String) (line : ℤ) (sys : Sys) :
    Except Abort (Option ℕ × Rt) :=
  rzAllocate s size redzoneSize file line sys

/-- `__redzone_aligned_alloc`. -/
def redzoneAlignedAlloc (s : Rt) (alignment size : ℕ) (file : Option String) (line : ℤ)
    (sys : Sys) : Except Abort (Option ℕ × Rt) :=
  if !isPow2 alignment then .ok (none, s)
  else
    rzAllocate s size (if alignment < redzoneSize then redzoneSize else alignment) file line sys

/-- `EINVAL`. -/
abbrev einval : ℤ := 22

/-- `ENOMEM`. -/
abbrev enomem : ℤ := 12

/-- `__redzone_posix_memalign`: the return code, and the pointer stored at `memptr`. -/
def redzonePosixMemalign (s : Rt) (memptr alignment size : ℕ) (file : Option String)
    (line : ℤ) (sys : Sys) : Except Abort (ℤ × Rt) :=
  if memptr = 0 then .ok (einval, s)
  else if !isPow2 alignment || alignment % 8 != 0 then .ok (einval, s)
  else
    match rzAllocate s size (if alignment < redzoneSize then redzoneSize else alignment)
      file line sys with
    | .error e => .error e
    | .ok (none, s) => .ok (enomem, s)
    | .ok (some p, s) => .ok (0, { s with mem := store64 s.mem memptr p })

/-- `__redzone_calloc`. -/
def redzoneCalloc (s : Rt) (nmemb size : ℕ) (file : Option String) (line : ℤ) (sys : Sys) :
    Except Abort (Option ℕ × Rt) :=
  if size ≠ 0 ∧ nmemb > sizeMax / size then .ok (none, s)
  else
    match redzoneMalloc s (nmemb * size) file line sys with
    | .error e => .error e
    | .ok (none, s) => .ok (none, s)
    | .ok (some p, s) => .ok (some p, { s with mem := memset s.mem p 0 (nmemb * size) })

/-- `__redzone_free`. -/
def redzoneFree (s : Rt) (ptr : ℕ) : Except Abort Rt :=
  if ptr = 0 then .ok s
  else
    match blockFromUserPtr s ptr with
    | none =>
      match findBlock s ptr with
      | none => .ok s
      | some _ => .error (.freeError "invalid-free" ptr)
    | some i =>
      match s.blocks[i]? with
      | none => .ok s
      | some b =>
        if b.freed then .error (.freeError "double-free" ptr)
        else
          .ok { s with
            blocks := s.blocks.set i { b with freed := true }
            shadow := setShadowRange s.shadow b.userAddr
              (clearLow ((b.userSize + 7) % wordSize) 8) freedPoison }

/-- The block `__redzone_realloc` copies from. -/
def reallocSource (s : Rt) (ptr : ℕ) : Option Block :=
  match blockFromUserPtr s ptr with
  | some i => s.blocks[i]?
  | none => findBlock s ptr

/-- `__redzone_realloc`. -/
def redzoneRealloc (s : Rt) (ptr size : ℕ) (file : Option String) (line : ℤ) (sys : Sys) :
    Except Abort (Option ℕ × Rt) :=
  if ptr = 0 then redzoneMalloc s size file line sys
  else if size = 0 then
    match redzoneFree s ptr with
    | .error e => .error e
    | .ok s => .ok (none, s)
  else
    match redzoneMalloc s size file line sys with
    | .error e => .error e
    | .ok (none, s) => .ok (none, s)
    | .ok (some np, s) =>
      let copy :=
        match reallocSource s ptr with
        | some old => if old.freed then 0 else min old.userSize size
        | none => 0
      let s := if copy ≠ 0 then { s with mem := memmove s.mem np ptr copy } else s
      match redzoneFree s ptr with
      | .error e => .error e
      | .ok s => .ok (some np, s)

/-! ## Effects -/

/-- A block has been allocated: recorded last, guarded in the shadow. -/
structure AllocEffect (s s' : Rt) (b : Block) (align : ℕ) : Prop where
  blocks : s'.blocks = s.blocks ++ [b]
  shadow : s'.shadow = carveUser (setShadowRange s.shadow b.realBase b.totalSize rzPoison)
    b.userAddr b.userSize
  live : b.freed = false
  pow2 : ∃ k, align = 2 ^ k
  le_align : redzoneSize ≤ align
  total : b.totalSize = b.userSize + 2 * redzoneSize + (if align > redzoneSize then align else 0)
  user : b.userAddr = clearLow ((b.realBase + redzoneSize + (align - 1)) % wordSize) align

/-- Block `i` has been freed: marked in the table, its user region poisoned. -/
structure FreeEffect (s s' : Rt) (i : ℕ) (b : Block) : Prop where
  found : s.blocks[i]? = some b
  live : b.freed = false
  blocks : s'.blocks = s.blocks.set i { b with freed := true }
  shadow : s'.shadow = setShadowRange s.shadow b.userAddr
    (clearLow ((b.userSize + 7) % wordSize) 8) freedPoison

/-- A block has been allocated, and memory is as before but for the header, the user bytes
and the places in `out`. -/
structure Allocated (s s' : Rt) (b : Block) (align : ℕ) (out : List ℕ) : Prop where
  effect : AllocEffect s s' b align
  mem : ∀ x, ¬ (b.userAddr ≤ x ∧ x < b.userAddr + b.userSize) → x ∉ out →
    s'.mem x = store64 (store64 s.mem (b.userAddr - headerSize) headerMagic) (b.userAddr - 8)
      s.blocks.length x

/-- Block `i` has been freed, and memory is as before. -/
structure Freed (s s' : Rt) (i : ℕ) (b : Block) : Prop where
  effect : FreeEffect s s' i b
  mem : s'.mem = s.mem

/-- The 8 bytes of a pointer at `memptr`. -/
def pointerAt (memptr : ℕ) : List ℕ := List.range' memptr 8

section Effects

variable {s s' : Rt} {size align ptr : ℕ} {file : Option String} {line : ℤ} {sys : Sys}
  {out : List ℕ}

theorem recordBlock_ok {b : Block} {growOk : Bool} {idx : ℕ}
    (h : recordBlock s b growOk = .ok (idx, s')) :
    idx = s.blocks.length ∧ s'.blocks = s.blocks ++ [b] ∧ s'.shadow = s.shadow ∧
      s'.mem = s.mem := by
  unfold recordBlock at h
  split at h
  · split at h
    · obtain ⟨rfl, rfl⟩ := Prod.mk.inj (Except.ok.inj h)
      exact ⟨rfl, rfl, rfl, rfl⟩
    · simp at h
  · obtain ⟨rfl, rfl⟩ := Prod.mk.inj (Except.ok.inj h)
    exact ⟨rfl, rfl, rfl, rfl⟩

theorem rzAllocate_ok {r : Option ℕ} (hpow : ∃ k, align = 2 ^ k) (halign : redzoneSize ≤ align)
    (h : rzAllocate s size align file line sys = .ok (r, s')) :
    (r = none ∧ s' = s) ∨
      ∃ b, r = some b.userAddr ∧ b.userSize = size ∧ Allocated s s' b align [] := by
  unfold rzAllocate at h
  simp only at h
  generalize hslack : (if align > redzoneSize then align else 0) = slack at h
  split at h
  · obtain ⟨rfl, rfl⟩ := Prod.mk.inj (Except.ok.inj h)
    exact Or.inl ⟨rfl, rfl⟩
  split at h
  · obtain ⟨rfl, rfl⟩ := Prod.mk.inj (Except.ok.inj h)
    exact Or.inl ⟨rfl, rfl⟩
  · rename_i base hbase
    split at h
    · simp at h
    · rename_i idx s₁ hrecord
      obtain ⟨rfl, hblocks, hshadow, hmem⟩ := recordBlock_ok hrecord
      obtain ⟨rfl, rfl⟩ := Prod.mk.inj (Except.ok.inj h)
      refine Or.inr ⟨⟨base, size + 2 * redzoneSize + slack,
        clearLow ((base + redzoneSize + (align - 1)) % wordSize) align, size, false, file,
        line⟩, rfl, rfl, ?_, fun x _ _ => by rw [hmem]⟩
      exact ⟨hblocks, by rw [hshadow], rfl, hpow, halign, by rw [hslack], rfl⟩

theorem redzoneMalloc_ok {r : Option ℕ} (h : redzoneMalloc s size file line sys = .ok (r, s')) :
    (r = none ∧ s' = s) ∨
      ∃ b, r = some b.userAddr ∧ b.userSize = size ∧ Allocated s s' b redzoneSize [] :=
  rzAllocate_ok ⟨4, rfl⟩ le_rfl h

/-- The alignment that the aligned allocators pass on. -/
theorem alignment_ok {alignment : ℕ} (h : isPow2 alignment = true) :
    (∃ k, (if alignment < redzoneSize then redzoneSize else alignment) = 2 ^ k) ∧
      redzoneSize ≤ if alignment < redzoneSize then redzoneSize else alignment := by
  split
  · exact ⟨⟨4, rfl⟩, le_rfl⟩
  · rename_i hlt
    exact ⟨isPow2_eq_true.mp h, Nat.not_lt.mp hlt⟩

theorem redzoneAlignedAlloc_ok {alignment : ℕ} {r : Option ℕ}
    (h : redzoneAlignedAlloc s alignment size file line sys = .ok (r, s')) :
    (r = none ∧ s' = s) ∨ ∃ b align, r = some b.userAddr ∧ Allocated s s' b align [] := by
  unfold redzoneAlignedAlloc at h
  split at h
  · obtain ⟨rfl, rfl⟩ := Prod.mk.inj (Except.ok.inj h)
    exact Or.inl ⟨rfl, rfl⟩
  · rename_i hpow
    obtain ⟨hk, hle⟩ := alignment_ok (by simpa using hpow)
    rcases rzAllocate_ok hk hle h with hnone | ⟨b, hr, -, halloc⟩
    · exact Or.inl hnone
    · exact Or.inr ⟨b, _, hr, halloc⟩

/-- Memory may change after an allocation. -/
theorem AllocEffect.mem {b : Block} (h : AllocEffect s s' b align) (mem : Bytes) :
    AllocEffect s { s' with mem := mem } b align :=
  ⟨h.blocks, h.shadow, h.live, h.pow2, h.le_align, h.total, h.user⟩

/-- After an allocation the user bytes may be written, and the places in `out`. -/
theorem Allocated.write {b : Block} {out' : List ℕ} {mem : Bytes}
    (h : Allocated s s' b align out) (hout : out ⊆ out')
    (hmem : ∀ x, ¬ (b.userAddr ≤ x ∧ x < b.userAddr + b.userSize) → x ∉ out' →
      mem x = s'.mem x) : Allocated s { s' with mem := mem } b align out' := by
  refine ⟨h.effect.mem mem, fun x hx hx' => ?_⟩
  rw [← h.mem x hx fun ho => hx' (hout ho)]
  exact hmem x hx hx'

theorem redzonePosixMemalign_ok {memptr alignment : ℕ} {rc : ℤ}
    (h : redzonePosixMemalign s memptr alignment size file line sys = .ok (rc, s')) :
    (rc ≠ 0 ∧ s' = s) ∨ (rc = 0 ∧ ∃ b align, Allocated s s' b align (pointerAt memptr)) := by
  unfold redzonePosixMemalign at h
  split at h
  · obtain ⟨rfl, rfl⟩ := Prod.mk.inj (Except.ok.inj h)
    exact Or.inl ⟨by decide, rfl⟩
  split at h
  · obtain ⟨rfl, rfl⟩ := Prod.mk.inj (Except.ok.inj h)
    exact Or.inl ⟨by decide, rfl⟩
  rename_i hpow
  simp only [Bool.or_eq_true, not_or] at hpow
  obtain ⟨hk, hle⟩ := alignment_ok (by simpa using hpow.1)
  split at h
  · simp at h
  · rename_i s₁ halloc
    obtain ⟨rfl, rfl⟩ := Prod.mk.inj (Except.ok.inj h)
    rcases rzAllocate_ok hk hle halloc with ⟨-, rfl⟩ | ⟨b, hr, -⟩
    · exact Or.inl ⟨by decide, rfl⟩
    · simp at hr
  · rename_i p s₁ halloc
    obtain ⟨rfl, rfl⟩ := Prod.mk.inj (Except.ok.inj h)
    rcases rzAllocate_ok hk hle halloc with ⟨hr, -⟩ | ⟨b, -, -, hb⟩
    · simp at hr
    · refine Or.inr ⟨rfl, b, _, hb.write (List.nil_subset _) fun x _ hx => ?_⟩
      exact if_neg fun hin => hx (List.mem_range'_1.mpr hin)

theorem redzoneCalloc_ok {nmemb : ℕ} {r : Option ℕ}
    (h : redzoneCalloc s nmemb size file line sys = .ok (r, s')) :
    (r = none ∧ s' = s) ∨
      ∃ b, r = some b.userAddr ∧ Allocated s s' b redzoneSize [] := by
  unfold redzoneCalloc at h
  split at h
  · obtain ⟨rfl, rfl⟩ := Prod.mk.inj (Except.ok.inj h)
    exact Or.inl ⟨rfl, rfl⟩
  split at h
  · simp at h
  · rename_i s₁ halloc
    obtain ⟨rfl, rfl⟩ := Prod.mk.inj (Except.ok.inj h)
    rcases redzoneMalloc_ok halloc with ⟨-, rfl⟩ | ⟨b, hr, -⟩
    · exact Or.inl ⟨rfl, rfl⟩
    · simp at hr
  · rename_i p s₁ halloc
    obtain ⟨rfl, rfl⟩ := Prod.mk.inj (Except.ok.inj h)
    rcases redzoneMalloc_ok halloc with ⟨hr, -⟩ | ⟨b, hr, hsize, hb⟩
    · simp at hr
    · obtain rfl := Option.some.inj hr
      refine Or.inr ⟨b, rfl, hb.write (List.nil_subset _) fun x hx _ => ?_⟩
      rw [hsize] at hx
      exact if_neg hx

/-- A header lookup that finds a block has read the magic number and the block's index. -/
theorem blockFromUserPtr_some {u i : ℕ} (h : blockFromUserPtr s u = some i) :
    load64 s.mem (u - headerSize) = headerMagic ∧ load64 s.mem (u - 8) = i ∧
      ∃ b, s.blocks[i]? = some b ∧ b.userAddr = u := by
  unfold blockFromUserPtr at h
  split at h
  · simp at h
  split at h
  · simp at h
  simp only at h
  split at h
  · simp at h
  rename_i hok
  split at h
  · rename_i b hb
    split at h
    · rename_i hu
      obtain rfl := Option.some.inj h
      exact ⟨not_not.mp (not_or.mp hok).1, rfl, b, hb, hu⟩
    · simp at h
  · simp at h

/-- A header lookup finds a block that starts at the pointer. -/
theorem blockFromUserPtr_eq_some {u i : ℕ} (h : blockFromUserPtr s u = some i) :
    ∃ b, s.blocks[i]? = some b ∧ b.userAddr = u :=
  (blockFromUserPtr_some h).2.2

theorem redzoneFree_ok (h : redzoneFree s ptr = .ok s') :
    s' = s ∨ ∃ i b, b.userAddr = ptr ∧ Freed s s' i b := by
  unfold redzoneFree at h
  split at h
  · exact Or.inl (Except.ok.inj h).symm
  split at h
  · split at h
    · exact Or.inl (Except.ok.inj h).symm
    · simp at h
  · rename_i i hi
    obtain ⟨b, hb, hu⟩ := blockFromUserPtr_eq_some hi
    rw [hb] at h
    simp only at h
    split at h
    · simp at h
    · rename_i hfreed
      obtain rfl := Except.ok.inj h
      exact Or.inr ⟨i, b, hu, ⟨hb, by simpa using hfreed, rfl, rfl⟩, rfl⟩

/-- A reallocation is an allocation, a change of memory, and a free. -/
theorem redzoneRealloc_ok {r : Option ℕ}
    (h : redzoneRealloc s ptr size file line sys = .ok (r, s')) :
    s' = s ∨ (∃ b, Allocated s s' b redzoneSize []) ∨ (∃ i b, Freed s s' i b) ∨
      ∃ s₁ b i b', Allocated s s₁ b redzoneSize [] ∧ Freed s₁ s' i b' := by
  unfold redzoneRealloc at h
  split at h
  · rcases redzoneMalloc_ok h with ⟨-, rfl⟩ | ⟨b, -, -, hb⟩
    · exact Or.inl rfl
    · exact Or.inr (Or.inl ⟨b, hb⟩)
  split at h
  · split at h
    · simp at h
    · rename_i s₁ hfree
      obtain ⟨-, rfl⟩ := Prod.mk.inj (Except.ok.inj h)
      rcases redzoneFree_ok hfree with rfl | ⟨i, b, -, hb⟩
      · exact Or.inl rfl
      · exact Or.inr (Or.inr (Or.inl ⟨i, b, hb⟩))
  split at h
  · simp at h
  · rename_i s₁ halloc
    obtain ⟨-, rfl⟩ := Prod.mk.inj (Except.ok.inj h)
    rcases redzoneMalloc_ok halloc with ⟨-, rfl⟩ | ⟨b, hr, -⟩
    · exact Or.inl rfl
    · simp at hr
  · rename_i np s₁ halloc
    rcases redzoneMalloc_ok halloc with ⟨hr, -⟩ | ⟨b, hr, hsize, hb⟩
    · simp at hr
    obtain rfl := Option.some.inj hr
    -- at most the user bytes of the new block are written
    have hcopied : ∀ n ≤ size, Allocated s
        (if n ≠ 0 then { s₁ with mem := memmove s₁.mem b.userAddr ptr n } else s₁) b redzoneSize
        [] := by
      intro n hn
      split
      · refine hb.write (List.nil_subset _) fun x hx _ => ?_
        have hout : ¬ (b.userAddr ≤ x ∧ x < b.userAddr + n) := by omega
        exact if_neg hout
      · exact hb
    have hcopy : (match reallocSource s₁ ptr with
        | some old => if old.freed then 0 else min old.userSize size
        | none => 0) ≤ size := by
      split
      · split
        · exact Nat.zero_le _
        · exact Nat.min_le_right _ _
      · exact Nat.zero_le _
    simp only at h
    split at h
    · simp at h
    · rename_i s₂ hfree
      obtain ⟨-, rfl⟩ := Prod.mk.inj (Except.ok.inj h)
      rcases redzoneFree_ok hfree with rfl | ⟨i, b', -, hfreed⟩
      · exact Or.inr (Or.inl ⟨b, hcopied _ hcopy⟩)
      · exact Or.inr (Or.inr (Or.inr ⟨_, b, i, b', hcopied _ hcopy, hfreed⟩))

end Effects

end Redzone.Shadow
