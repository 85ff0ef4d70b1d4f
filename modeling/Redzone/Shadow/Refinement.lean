/-
  Shadow/Refinement.lean --- the runtime is an object store.

  `World.serve` is the runtime under the requests of `Shadow/ObjectStore.lean`: the calls go
  to the functions of `runtime/redzone_rt.c`, with shadow, headers and machine arithmetic,
  and an access of the program goes through `__redzone_check` first.  `Represents` relates
  it to the store: the tables are the same, the shadow and the headers are intact, and
  memory holds the data wherever there is no header.

  Each function keeps the relation and answers as the store does, so a client sees the same
  transcript of both, whatever it asks.
-/
import Redzone.Shadow.ObjectStore
import Redzone.Shadow.ReportKind

set_option autoImplicit false

namespace Redzone.Shadow

open Redzone.Foundation

/-! ## The runtime -/

/-- A heap call with what it returns. -/
def Rt.reply (s : Rt) : HeapCall → Except Abort (Reply × Rt)
  | .malloc size file line sys =>
    (redzoneMalloc s size file line sys).map (Prod.map .pointer id)
  | .alignedAlloc alignment size file line sys =>
    (redzoneAlignedAlloc s alignment size file line sys).map (Prod.map .pointer id)
  | .posixMemalign memptr alignment size file line sys =>
    (redzonePosixMemalign s memptr alignment size file line sys).map (Prod.map .code id)
  | .calloc nmemb size file line sys =>
    (redzoneCalloc s nmemb size file line sys).map (Prod.map .pointer id)
  | .realloc ptr size file line sys =>
    (redzoneRealloc s ptr size file line sys).map (Prod.map .pointer id)
  | .free ptr => (redzoneFree s ptr).map fun s => (.done, s)

/-- What the runtime replies, and what becomes of the process. -/
def World.serve (w : World) : Request → Except Abort (Reply × World)
  | .heap c => (w.rt.reply c).map (Prod.map id fun rt => { w with rt := rt })
  | .owns ptr => .ok (.owned (decide (ptr ≠ 0) && (blockFromUserPtr w.rt ptr).isSome), w)
  | .usableSize ptr =>
    .ok (.size (if ptr = 0 then 0
      else ((blockFromUserPtr w.rt ptr).bind fun i => w.rt.blocks[i]?).elim 0 Block.userSize), w)
  | .stackEnter v =>
    .ok (.done, { w with rt := redzoneStackEnter w.rt v.base v.size, stack := v :: w.stack })
  | .stackLeave v =>
    .ok (.done, { w with rt := redzoneStackLeave w.rt v.base v.size, stack := w.stack.erase v })
  | .globalRegister g =>
    .ok (.done,
      { w with rt := redzoneGlobalRegister w.rt g.data g.size, internals := g :: w.internals })
  | .globalRegisterRight g =>
    .ok (.done,
      { w with rt := redzoneGlobalRegisterRight w.rt g.data g.size, externals := g :: w.externals })
  | .check a size isWrite file line => do
    redzoneCheck w.rt a size isWrite file line
    return (.done, w)
  | .memcpy dst src n file line =>
    (redzoneMemcpy w.rt dst src n file line).map
      (Prod.map (fun p => .pointer (some p)) fun rt => { w with rt := rt })
  | .memmove dst src n file line =>
    (redzoneMemmove w.rt dst src n file line).map
      (Prod.map (fun p => .pointer (some p)) fun rt => { w with rt := rt })
  | .memset dst c n file line =>
    (redzoneMemset w.rt dst c n file line).map
      (Prod.map (fun p => .pointer (some p)) fun rt => { w with rt := rt })
  | .load a n file line => do
    redzoneCheck w.rt a n false file line
    return (.bytes (readBytes w.rt.mem a n), w)
  | .store a bytes file line => do
    redzoneCheck w.rt a bytes.length true file line
    return (.done, { w with rt := { w.rt with mem := writeBytes w.rt.mem a bytes } })

/-! ## The relation -/

/-- The room of the table for `n` entries: 0, 64, 128, ... -/
def RoomFor (n cap : ℕ) : Prop :=
  n = 0 ∧ cap = 0 ∨ ∃ k, cap = 64 * 2 ^ k ∧ n ≤ cap ∧ 0 < n ∧ (k = 0 ∨ cap < 2 * n)

/-- The process has the objects of the store, and the data of the store are in memory
wherever there is no header. -/
structure Represents (w : World) (t : Store) : Prop where
  intact : w.Intact
  blocks : t.blocks = w.rt.blocks
  stack : t.stack = w.stack
  internals : t.internals = w.internals
  externals : t.externals = w.externals
  room : RoomFor w.rt.blocks.length w.rt.cap
  data : ∀ x, (∀ b ∈ w.rt.blocks, ¬ (b.userAddr - headerSize ≤ x ∧ x < b.userAddr)) →
    w.rt.mem x = t.data x

theorem represents_initial : Represents .initial .initial := by
  have hnone : worldRun [] = some World.initial := rfl
  have hinv : World.initial.Inv := World.inv_of_run hnone
  have hroomy : World.initial.rt.Roomy := by simp [Rt.Roomy, World.initial, Rt.initial]
  exact ⟨⟨hinv, painted_initial, hroomy, headed_initial⟩, rfl, rfl, rfl, rfl, .inl ⟨rfl, rfl⟩,
    fun _ _ => rfl⟩

/-! ### Room -/

section Room

variable {n cap : ℕ}

/-- The table is full where it has to grow. -/
theorem RoomFor.full_iff (h : RoomFor n cap) : n = cap ↔ TableFull n := by
  unfold TableFull
  rcases h with ⟨rfl, rfl⟩ | ⟨k, rfl, hle, hpos, hk⟩
  · simp
  constructor
  · rintro rfl
    refine .inr ⟨Nat.mul_mod_right 64 _, ?_⟩
    rw [Nat.mul_div_cancel_left _ (by omega)]
    exact isPow2_eq_true.mpr ⟨k, rfl⟩
  · rintro (rfl | ⟨hmod, hpow⟩)
    · omega
    obtain ⟨j, hj⟩ := isPow2_eq_true.mp hpow
    have hn : n = 64 * 2 ^ j := by omega
    subst hn
    -- neither a smaller power of two nor a larger one fits
    have hjk : j ≤ k := by
      rw [← Nat.pow_le_pow_iff_right (a := 2) (by omega)]
      omega
    rcases hk with rfl | hk
    · obtain rfl : j = 0 := Nat.le_zero.mp hjk
      rfl
    · have hkj : k < j + 1 := by
        rw [← Nat.pow_lt_pow_iff_right (a := 2) (by omega), pow_succ]
        omega
      obtain rfl : j = k := by omega
      rfl

/-- `record_block` keeps the room. -/
theorem RoomFor.push (h : RoomFor n cap) :
    RoomFor (n + 1) (if n = cap then if cap ≠ 0 then cap * 2 else 64 else cap) := by
  right
  rcases h with ⟨rfl, rfl⟩ | ⟨k, rfl, hle, hpos, hk⟩
  · exact ⟨0, by simp⟩
  split
  · rename_i hfull
    refine ⟨k + 1, ?_, ?_, by omega, .inr ?_⟩
    · rw [if_pos (by omega), pow_succ]
      ring
    · rw [if_pos (by omega)]
      omega
    · rw [if_pos (by omega)]
      omega
  · exact ⟨k, rfl, by omega, by omega, by omega⟩

/-- `record_block` fails where the table is full and cannot grow. -/
theorem recordBlock_error {s : Rt} {b : Block} {growOk : Bool} {e : Abort}
    (h : recordBlock s b growOk = .error e) :
    e = .outOfMemory ∧ s.blocks.length = s.cap ∧ growOk = false := by
  unfold recordBlock at h
  split at h
  · rename_i hfull
    split at h
    · simp at h
    · rename_i hgrow
      exact ⟨(Except.error.inj h).symm, hfull, by simpa using hgrow⟩
  · simp at h

/-- Where it succeeds there is room for the new entry. -/
theorem recordBlock_room {s s' : Rt} {b : Block} {growOk : Bool} {idx : ℕ}
    (hroom : RoomFor s.blocks.length s.cap) (h : recordBlock s b growOk = .ok (idx, s')) :
    RoomFor s'.blocks.length s'.cap ∧ (s.blocks.length = s.cap → growOk = true) := by
  have hpush := hroom.push
  unfold recordBlock at h
  split at h
  · rename_i hfull
    split at h
    · rename_i hgrow
      obtain ⟨-, rfl⟩ := Prod.mk.inj (Except.ok.inj h)
      rw [if_pos hfull] at hpush
      refine ⟨?_, fun _ => hgrow⟩
      rw [List.length_append]
      exact hpush
    · simp at h
  · rename_i hfull
    obtain ⟨-, rfl⟩ := Prod.mk.inj (Except.ok.inj h)
    rw [if_neg hfull] at hpush
    refine ⟨?_, fun heq => absurd heq hfull⟩
    rw [List.length_append]
    exact hpush

end Room

/-! ### Reading the relation -/

section Represents

variable {w : World} {t : Store} {x ptr i a size : ℕ}

theorem Represents.objs (h : Represents w t) : t.objs = w.objs := by
  simp only [Store.objs, Store.zones, World.objs, h.blocks, h.stack, h.internals, h.externals,
    List.map_append, List.map_map]
  rfl

theorem Represents.fresh {lo top : ℕ} (h : Represents w t) (hf : t.Fresh lo top) :
    w.Fresh lo top := by
  unfold Store.Fresh at hf
  rwa [h.objs] at hf

/-- The shadow poisons what is off limits. -/
theorem Represents.poisoned_iff (h : Represents w t) :
    bytePoisoned w.rt.shadow x = true ↔ t.OffLimits x := by
  unfold Store.OffLimits
  rw [h.objs, h.intact.inv.tiled.bad_iff x]
  simp only [List.mem_map, exists_exists_and_eq_and]

theorem Represents.addressable_iff (h : Represents w t) :
    bytePoisoned w.rt.shadow x = false ↔ ¬ t.OffLimits x := by
  rw [← h.poisoned_iff, Bool.not_eq_true]

/-- Headers are off limits, so the other bytes hold the data. -/
theorem Represents.data_eq (h : Represents w t) (hx : ¬ t.OffLimits x) :
    w.rt.mem x = t.data x := by
  refine h.data x fun b hb hin => ?_
  have hle := h.intact.inv.userAddr_le hb
  refine hx (h.poisoned_iff.mp ?_)
  exact h.intact.painted.header_poisoned h.intact.roomy hb hle hin.1 hin.2

/-- The header lookup finds the block that starts at the pointer. -/
theorem Represents.find_eq (h : Represents w t) : blockFromUserPtr w.rt ptr = t.find ptr := by
  unfold Store.find
  rw [h.blocks]
  cases hfind : w.rt.blocks.findIdx? fun b => decide (b.userAddr = ptr) with
  | none =>
      refine blockFromUserPtr_none fun b hb hu => ?_
      have hnot := List.findIdx?_eq_none_iff.mp hfind b hb
      simp [hu] at hnot
  | some i =>
      obtain ⟨hi, hb, -⟩ := List.findIdx?_eq_some_iff_getElem.mp hfind
      refine h.intact.lookup_iff.mpr ⟨w.rt.blocks[i], List.getElem?_eq_getElem hi, ?_⟩
      simpa using hb

/-- `find_block` finds the block that encloses the address. -/
theorem Represents.enclosing_eq (h : Represents w t) : findBlock w.rt x = t.enclosing x := by
  unfold findBlock Store.enclosing
  rw [h.blocks]
  refine List.find?_congr fun b hb => ?_
  rw [h.intact.inv.block_end hb]

/-- Nothing starts at `NULL`. -/
theorem Represents.find_null (h : Represents w t) : t.find 0 = none := by
  rw [← h.find_eq]
  rfl

/-- What starts at a pointer is in the table. -/
theorem Store.find_some (hfind : t.find ptr = some i) :
    ∃ b, t.blocks[i]? = some b ∧ b.userAddr = ptr := by
  obtain ⟨hi, hb, -⟩ := List.findIdx?_eq_some_iff_getElem.mp hfind
  exact ⟨t.blocks[i], List.getElem?_eq_getElem hi, by simpa using hb⟩

theorem Store.enclosing_some {b : Block} (hfind : t.enclosing x = some b) :
    b ∈ t.blocks ∧ b.realBase ≤ x ∧ x < b.realBase + b.totalSize := by
  have hin := List.find?_some hfind
  simp only [Bool.and_eq_true, decide_eq_true_eq] at hin
  exact ⟨List.mem_of_find?_eq_some hfind, hin⟩

theorem Store.enclosing_none (hfind : t.enclosing x = none) {b : Block} (hb : b ∈ t.blocks) :
    ¬ (b.realBase ≤ x ∧ x < b.realBase + b.totalSize) := by
  have hnot := List.find?_eq_none.mp hfind b hb
  simpa using hnot

/-- Memory and data may change together, the memory not where it is poisoned. -/
theorem Represents.write (h : Represents w t) {mem data : Bytes}
    (hmem : ∀ x, t.OffLimits x → mem x = w.rt.mem x)
    (hdata : ∀ x, w.rt.mem x = t.data x → mem x = data x) :
    Represents { w with rt := { w.rt with mem := mem } } { t with data := data } := by
  refine ⟨h.intact.write fun x hx => hmem x (h.poisoned_iff.mp hx), h.blocks, h.stack,
    h.internals, h.externals, h.room, fun x hx => hdata x (h.data x hx)⟩

end Represents

/-! ## Allocation -/

/-- The relation between the runtime and the store, the other objects being those of `w`. -/
abbrev World.Holds (w : World) (rt : Rt) (t : Store) : Prop := Represents { w with rt := rt } t

section Allocate

variable {w : World} {t : Store} {rt : Rt} {b : Block} {size align nmemb alignment base : ℕ}
  {file : Option String} {line : ℤ} {sys : Sys}

/-- A block in a fresh extent keeps shadow and headers intact. -/
theorem World.Intact.alloc (h : w.Intact) (halloc : Allocated w.rt rt b align [])
    (hfresh : w.Fresh b.realBase (b.realBase + b.totalSize)) :
    World.Intact { w with rt := rt } := by
  have hpainted := h.painted.alloc soundFresh_fresh halloc.effect hfresh
  have hroomy := h.roomy.alloc soundFresh_fresh halloc.effect hfresh
  exact ⟨h.inv.alloc halloc.effect hfresh, hpainted, hroomy,
    World.Painted.headed_alloc h.headed soundFresh_fresh halloc hfresh hpainted hroomy (by simp)⟩

/-- The size test does not wrap for the alignments that are passed on. -/
theorem refuses_iff (hpow : ∃ k, align = 2 ^ k) (hlt : align < wordSize) :
    size > sizeMax - 2 * redzoneSize - slackOf align ↔
      wordSize ≤ size + 2 * redzoneSize + slackOf align := by
  obtain ⟨k, rfl⟩ := hpow
  have hk : k < 64 := (Nat.pow_lt_pow_iff_right (by omega : 1 < 2)).mp hlt
  have hle : 2 ^ k ≤ 2 ^ 63 := Nat.pow_le_pow_right (by omega) (by omega)
  have hslack : slackOf (2 ^ k) ≤ 2 ^ 63 := by
    unfold slackOf
    split
    · exact hle
    · omega
  simp only [sizeMax, wordSize, redzoneSize]
  omega

/-- The user address needs no machine arithmetic. -/
theorem userAddr_eq (hpow : ∃ k, align = 2 ^ k) (hle : redzoneSize ≤ align)
    (hfresh : w.Fresh base (base + (size + 2 * redzoneSize + slackOf align))) :
    clearLow ((base + redzoneSize + (align - 1)) % wordSize) align =
      (base + redzoneSize + (align - 1)) / align * align := by
  obtain ⟨k, rfl⟩ := hpow
  have htop : base + (size + 2 * redzoneSize + slackOf (2 ^ k)) ≤ wordSize :=
    hfresh.2.1.trans (by decide)
  have hfits := (placed rfl hle hfresh.1 htop).fits
  have hk : k ≤ 64 := by
    refine (Nat.pow_le_pow_iff_right (by omega : 1 < 2)).mp ?_
    simp only [wordSize, redzoneSize] at hfits
    omega
  rw [Nat.mod_eq_of_lt hfits, clearLow_two_pow hfits hk]

/-- A block that is recorded and guarded, as the store has it. -/
theorem Represents.push (h : Represents w t) (align : ℕ) (halloc : Allocated w.rt rt b align [])
    (hcap : RoomFor rt.blocks.length rt.cap)
    (hmem : rt.mem = store64 (store64 w.rt.mem (b.userAddr - headerSize) headerMagic)
      (b.userAddr - 8) w.rt.blocks.length)
    (hfresh : w.Fresh b.realBase (b.realBase + b.totalSize)) :
    w.Holds rt { t with blocks := t.blocks ++ [b] } := by
  have hintact := h.intact.alloc halloc hfresh
  have hblocks := halloc.effect.blocks
  refine ⟨hintact, by rw [h.blocks, hblocks], h.stack, h.internals, h.externals, hcap, ?_⟩
  intro x hx
  -- only the header of the new block has been written
  have hhead : ¬ (b.userAddr - headerSize ≤ x ∧ x < b.userAddr) := hx b (by simp [hblocks])
  have hroom := (hintact.roomy b (by simp [hblocks])).1
  simp only [redzoneSize] at hroom
  simp only [headerSize] at hhead
  have hsame : rt.mem x = w.rt.mem x := by
    rw [hmem, store64_of_out (by omega), store64_of_out (by simp only [headerSize]; omega)]
  refine hsame.trans (h.data x fun b' hb' => hx b' ?_)
  simp [hblocks, hb']

/-- `rz_allocate`. -/
theorem Represents.allocate (h : Represents w t) (size : ℕ) (file : Option String) (line : ℤ)
    (hpow : ∃ k, align = 2 ^ k) (hle : redzoneSize ≤ align) (hlt : align < wordSize)
    (hsupplied : ∀ base ∈ sys.malloc, size + 2 * redzoneSize + slackOf align < wordSize →
      t.Fresh base (base + (size + 2 * redzoneSize + slackOf align))) :
    Related w.Holds (rzAllocate w.rt size align file line sys)
      (t.allocate size align file line sys) := by
  have hslack : (if align > redzoneSize then align else 0) = slackOf align := rfl
  unfold rzAllocate Store.allocate
  simp only [hslack]
  by_cases hbig : wordSize ≤ size + 2 * redzoneSize + slackOf align
  · rw [if_pos ((refuses_iff hpow hlt).mpr hbig), if_pos hbig]
    exact .go none h
  rw [if_neg (fun hgt => hbig ((refuses_iff hpow hlt).mp hgt)), if_neg hbig]
  cases hmalloc : sys.malloc with
  | none => exact .go none h
  | some base =>
      have hfresh := h.fresh (hsupplied base hmalloc (Nat.not_le.mp hbig))
      have huser := userAddr_eq hpow hle hfresh
      simp only [huser]
      cases hrecord : recordBlock w.rt ⟨base, size + 2 * redzoneSize + slackOf align,
          (base + redzoneSize + (align - 1)) / align * align, size, false, file, line⟩
          sys.growOk with
      | error e =>
          obtain ⟨rfl, hfull, hgrow⟩ := recordBlock_error hrecord
          rw [if_pos ⟨by rw [h.blocks]; exact h.room.full_iff.mp hfull, hgrow⟩]
          exact .stop _
      | ok r =>
          obtain ⟨idx, s₁⟩ := r
          obtain ⟨rfl, hblocks, hshadow, hmem⟩ := recordBlock_ok hrecord
          obtain ⟨hcap, hgrow⟩ := recordBlock_room h.room hrecord
          have hroom : ¬ (TableFull t.blocks.length ∧ sys.growOk = false) := by
            rintro ⟨hfull, hno⟩
            rw [h.blocks] at hfull
            have hyes := hgrow (h.room.full_iff.mpr hfull)
            simp [hno] at hyes
          rw [if_neg hroom]
          refine .go _ (h.push align ⟨?_, fun x _ _ => ?_⟩ hcap ?_ hfresh)
          · exact ⟨hblocks, by rw [hshadow], rfl, hpow, hle, rfl, huser.symm⟩
          · rw [hmem]
          · rw [hmem]

end Allocate

/-! ## The allocators -/

section Allocators

variable {w : World} {t : Store} {rt : Rt} {size alignment nmemb memptr np : ℕ}
  {file : Option String} {line : ℤ} {sys : Sys}

/-- `__redzone_malloc`. -/
theorem Represents.malloc (h : Represents w t) (size : ℕ) (file : Option String) (line : ℤ)
    (hsupplied : ∀ base ∈ sys.malloc, size + 2 * redzoneSize + slackOf redzoneSize < wordSize →
      t.Fresh base (base + (size + 2 * redzoneSize + slackOf redzoneSize))) :
    Related w.Holds (redzoneMalloc w.rt size file line sys)
      (t.allocate size redzoneSize file line sys) :=
  h.allocate size file line ⟨4, rfl⟩ le_rfl (by decide) hsupplied

/-- The alignment that is passed on. -/
theorem effective_eq : (if alignment < redzoneSize then redzoneSize else alignment) =
    max alignment redzoneSize := by
  split <;> omega

theorem effective_lt (hlt : alignment < wordSize) : max alignment redzoneSize < wordSize :=
  max_lt hlt (by decide)

/-- The new block's bytes are not off limits. -/
theorem World.Holds.open_new (h : w.Holds rt t)
    (hok : redzoneMalloc w.rt size file line sys = .ok (some np, rt)) {x : ℕ}
    (hx : np ≤ x ∧ x < np + size) : ¬ t.OffLimits x := by
  obtain ⟨b, hnp, hsize, halloc⟩ := (redzoneMalloc_ok hok).resolve_left fun h => by simp at h
  obtain rfl : np = b.userAddr := Option.some.inj hnp
  refine h.addressable_iff.mp (h.intact.inv.userByte_ok (.inl ⟨b, ?_, halloc.effect.live, ?_⟩))
  · simp [halloc.effect.blocks]
  · rw [hsize]
    exact hx

/-- `__redzone_aligned_alloc`. -/
theorem Represents.alignedAlloc (h : Represents w t) (hlt : alignment < wordSize)
    (hsupplied : t.Supplied (.alignedAlloc alignment size file line sys)) :
    Related w.Holds (redzoneAlignedAlloc w.rt alignment size file line sys)
      (t.alignedAlloc alignment size file line sys) := by
  unfold redzoneAlignedAlloc Store.alignedAlloc
  cases hpow : isPow2 alignment with
  | false => exact .go none h
  | true =>
      obtain ⟨hk, hle⟩ := alignment_ok hpow
      rw [effective_eq] at hk hle
      simp only [effective_eq]
      exact h.allocate size file line hk hle (effective_lt hlt) (hsupplied _ rfl)

/-- `__redzone_posix_memalign`. -/
theorem Represents.posixMemalign (h : Represents w t) (hlt : alignment < wordSize)
    (hsupplied : t.Supplied (.posixMemalign memptr alignment size file line sys))
    (hdelivered : ∀ t', t.posixMemalign memptr alignment size file line sys = .ok (0, t') →
      ∀ x ∈ pointerAt memptr, ¬ t'.OffLimits x) :
    Related w.Holds (redzonePosixMemalign w.rt memptr alignment size file line sys)
      (t.posixMemalign memptr alignment size file line sys) := by
  unfold redzonePosixMemalign
  unfold Store.posixMemalign at hdelivered ⊢
  simp only [effective_eq]
  by_cases hptr : memptr = 0
  · rw [if_pos hptr, if_neg (fun hall => hall.1 hptr)]
    exact .go einval h
  rw [if_neg hptr]
  by_cases hgood : isPow2 alignment = true ∧ 8 ∣ alignment
  · have hbad : ¬ (!isPow2 alignment || alignment % 8 != 0) = true := by
      simp [hgood.1, Nat.mod_eq_zero_of_dvd hgood.2]
    rw [if_neg hbad, if_pos ⟨hptr, hgood⟩]
    rw [if_pos ⟨hptr, hgood⟩] at hdelivered
    obtain ⟨hk, hle⟩ := alignment_ok hgood.1
    rw [effective_eq] at hk hle
    have hrel := h.allocate size file line hk hle (effective_lt hlt) (hsupplied _ rfl)
    generalize rzAllocate w.rt size (max alignment redzoneSize) file line sys = r at hrel ⊢
    generalize t.allocate size (max alignment redzoneSize) file line sys = q at hrel hdelivered ⊢
    cases hrel with
    | stop e => exact .stop e
    | go p hkept =>
        cases p with
        | none => exact .go enomem hkept
        | some p =>
            refine .go 0 (hkept.write (fun x hx => if_neg fun hin => ?_) fun x hsame => ?_)
            · exact hdelivered _ rfl x (List.mem_range'_1.mpr hin) hx
            · exact if_congr Iff.rfl rfl hsame
  · have hbad : (!isPow2 alignment || alignment % 8 != 0) = true := by
      rw [Bool.or_eq_true, Bool.not_eq_true', bne_iff_ne, ← Bool.not_eq_true, Ne,
        ← Nat.dvd_iff_mod_eq_zero]
      exact not_and_or.mp hgood
    rw [if_pos hbad, if_neg (fun hall => hgood hall.2)]
    exact .go einval h

/-- The overflow test of `__redzone_calloc`. -/
theorem overflows_iff : size ≠ 0 ∧ nmemb > sizeMax / size ↔ wordSize ≤ nmemb * size := by
  rcases Nat.eq_zero_or_pos size with rfl | hpos
  · simp
  · have hdiv : nmemb > sizeMax / size ↔ sizeMax < nmemb * size := Nat.div_lt_iff_lt_mul hpos
    rw [hdiv]
    have hne : size ≠ 0 := hpos.ne'
    simp only [hne, ne_eq, not_false_eq_true, true_and]
    generalize nmemb * size = n
    simp only [sizeMax, wordSize]
    omega

/-- `__redzone_calloc`. -/
theorem Represents.calloc (h : Represents w t)
    (hsupplied : t.Supplied (.calloc nmemb size file line sys)) :
    Related w.Holds (redzoneCalloc w.rt nmemb size file line sys)
      (t.calloc nmemb size file line sys) := by
  unfold redzoneCalloc Store.calloc
  by_cases hbig : wordSize ≤ nmemb * size
  · rw [if_pos (overflows_iff.mpr hbig), if_pos hbig]
    exact .go none h
  rw [if_neg (fun hover => hbig (overflows_iff.mp hover)), if_neg hbig]
  have hrel := h.malloc (nmemb * size) file line (hsupplied _ rfl)
  generalize hr : redzoneMalloc w.rt (nmemb * size) file line sys = r at hrel ⊢
  generalize t.allocate (nmemb * size) redzoneSize file line sys = q at hrel ⊢
  cases hrel with
  | stop e => exact .stop e
  | go p hkept =>
      cases p with
      | none => exact .go none hkept
      | some p =>
          refine .go (some p) (hkept.write (fun x hx => if_neg fun hin => ?_) fun x hsame => ?_)
          · exact World.Holds.open_new hkept hr hin hx
          · exact if_congr Iff.rfl rfl hsame

end Allocators

/-! ## Free and realloc -/

section Free

variable {α : Type} {w : World} {t : Store} {rt s : Rt} {b : Block} {size ptr np i : ℕ}
  {file : Option String} {line : ℤ} {sys : Sys}

/-- A free leaves the entries as they are, up to the mark. -/
theorem FreeEffect.map_eq {β : Type} (h : FreeEffect s rt i b) (f : Block → β)
    (hf : ∀ b : Block, f { b with freed := true } = f b) :
    rt.blocks.map f = s.blocks.map f := by
  obtain ⟨hi, rfl⟩ := List.getElem?_eq_some_iff.mp h.found
  have hlen : i < (s.blocks.map f).length := by simpa using hi
  have hself := List.set_getElem_self hlen
  rw [h.blocks, List.map_set, hf]
  simpa using hself

/-- A block that has been freed, as the store has it. -/
theorem Represents.retire (h : Represents w t) (heff : FreeEffect w.rt rt i b)
    (hcap : rt.cap = w.rt.cap) (hmem : rt.mem = w.rt.mem) :
    w.Holds rt { t with blocks := t.blocks.set i { b with freed := true } } := by
  have hlen : rt.blocks.length = w.rt.blocks.length := by rw [heff.blocks, List.length_set]
  refine ⟨h.intact.free heff hmem, by rw [h.blocks, heff.blocks], h.stack, h.internals,
    h.externals, ?_, fun x hx => ?_⟩
  · show RoomFor rt.blocks.length rt.cap
    rw [hlen, hcap]
    exact h.room
  · show rt.mem x = t.data x
    rw [hmem]
    refine h.data x ?_
    have hall : ∀ u ∈ rt.blocks.map Block.userAddr, ¬ (u - headerSize ≤ x ∧ x < u) :=
      List.forall_mem_map.mpr hx
    rw [heff.map_eq Block.userAddr fun _ => rfl] at hall
    exact fun b' hb' => hall b'.userAddr (List.mem_map_of_mem hb')

/-- A pointer at which nothing starts is no user pointer. -/
theorem Store.find_none (hfind : t.find ptr = none) (hb : b ∈ t.blocks) : b.userAddr ≠ ptr := by
  have hnot := List.findIdx?_eq_none_iff.mp hfind b hb
  simpa using hnot

/-- `__redzone_free`, in a call that returns `a`. -/
theorem Represents.free (h : Represents w t) (ptr : ℕ) (a : α) :
    Related w.Holds ((redzoneFree w.rt ptr).map fun s => (a, s))
      ((t.free ptr).map fun t => (a, t)) := by
  unfold Store.free
  cases hfind : t.find ptr with
  | some i =>
      obtain ⟨b, hb, rfl⟩ := Store.find_some hfind
      simp only [hb]
      rw [h.blocks] at hb
      cases hfreed : b.freed with
      | true =>
          rw [h.intact.free_freed (List.mem_of_getElem? hb) hfreed]
          exact .stop _
      | false =>
          obtain ⟨rt, hok, heff, hcap, hmem⟩ := h.intact.free_live hb hfreed
          rw [hok]
          exact .go a (h.retire heff hcap hmem)
  | none =>
      by_cases hptr : ptr = 0
      · subst hptr
        exact .go a h
      cases hin : t.enclosing ptr with
      | some b =>
          obtain ⟨hb, hlo, hhi⟩ := Store.enclosing_some hin
          have hu := Store.find_none hfind hb
          rw [h.blocks] at hb
          rw [h.intact.inv.free_interior hb hlo hhi hu hptr, if_pos ⟨hptr, rfl⟩]
          exact .stop _
      | none =>
          have hout : ∀ b ∈ w.rt.blocks,
              ¬ (b.realBase ≤ ptr ∧ ptr < b.realBase + b.totalSize) := by
            rw [← h.blocks]
            exact fun b hb => Store.enclosing_none hin hb
          rw [h.intact.inv.free_foreign hout, if_neg (fun hboth => by simp at hboth)]
          exact .go a h

/-- How many bytes `__redzone_realloc` carries over, where the pointer is not inside a
block. -/
theorem Represents.kept_eq (h : Represents w t)
    (hin : t.find ptr = none → t.enclosing ptr = none) :
    reallocCopy w.rt ptr size = t.kept ptr size := by
  unfold reallocCopy reallocSource Store.kept
  rw [h.find_eq, h.enclosing_eq]
  cases hfind : t.find ptr with
  | some i =>
      cases hb : w.rt.blocks[i]? with
      | none => simp [h.blocks, hb]
      | some b => simp [h.blocks, hb]
  | none => simp only [hin hfind, Option.bind_none]

/-- The bytes that are kept are those of a live block. -/
theorem Represents.kept_open (h : Represents w t) {x : ℕ}
    (hx : ptr ≤ x ∧ x < ptr + t.kept ptr size) : ¬ t.OffLimits x := by
  unfold Store.kept at hx
  cases hfind : t.find ptr with
  | none =>
      simp only [hfind, Option.bind_none] at hx
      omega
  | some i =>
      obtain ⟨b, hb, rfl⟩ := Store.find_some hfind
      simp only [hfind, Option.bind_some, hb] at hx
      split at hx
      · omega
      · rename_i hlive
        rw [h.blocks] at hb
        refine h.addressable_iff.mp (h.intact.inv.userByte_ok ?_)
        exact .inl ⟨b, List.mem_of_getElem? hb, by simpa using hlive, by omega⟩

/-- The copy of a reallocation, as the store makes it. -/
theorem World.Holds.carry (h : w.Holds rt t)
    (hok : redzoneMalloc w.rt size file line sys = .ok (some np, rt))
    (hin : t.find ptr = none → t.enclosing ptr = none) :
    w.Holds (rt.copied np ptr (reallocCopy rt ptr size))
      { t with data := memmove t.data np ptr (t.kept ptr size) } := by
  have hcount : reallocCopy rt ptr size = t.kept ptr size := Represents.kept_eq h hin
  rw [copied_eq, hcount]
  refine Represents.write h (fun x hx => copied_outside fun hto => ?_) fun x hsame => ?_
  · have hle : t.kept ptr size ≤ size := hcount ▸ reallocCopy_le
    exact World.Holds.open_new h hok ⟨hto.1, by omega⟩ hx
  · by_cases hto : np ≤ x ∧ x < np + t.kept ptr size
    · have hx : x = np + (x - np) := by omega
      have hcopied : (rt.copied np ptr (t.kept ptr size)).mem (np + (x - np)) =
          rt.mem (ptr + (x - np)) := copied_inside (by omega)
      rw [← hx] at hcopied
      have hspan : ptr ≤ ptr + (x - np) ∧ ptr + (x - np) < ptr + t.kept ptr size := by omega
      have hfrom : rt.mem (ptr + (x - np)) = t.data (ptr + (x - np)) :=
        Represents.data_eq h (Represents.kept_open h hspan)
      exact (hcopied.trans hfrom).trans (if_pos hto).symm
    · rw [copied_outside hto]
      exact hsame.trans (if_neg hto).symm

/-- A pointer inside a block: whatever has been copied, the free stops the process. -/
theorem World.Holds.free_inside (h : w.Holds rt t) (hptr : ptr ≠ 0) (hfind : t.find ptr = none)
    (hin : t.enclosing ptr ≠ none) (mem : Bytes) :
    redzoneFree { rt with mem := mem } ptr = .error (.freeError "invalid-free" ptr) := by
  obtain ⟨b, hb⟩ := Option.ne_none_iff_exists'.mp hin
  obtain ⟨hmem, hlo, hhi⟩ := Store.enclosing_some hb
  have hu := Store.find_none hfind hmem
  rw [Represents.blocks h] at hmem
  have hinv : World.Inv { w with rt := { rt with mem := mem } } := h.intact.inv
  exact hinv.free_interior hmem hlo hhi hu hptr

/-- `__redzone_realloc`. -/
theorem Represents.realloc (h : Represents w t)
    (hsupplied : t.Supplied (.realloc ptr size file line sys)) :
    Related w.Holds (redzoneRealloc w.rt ptr size file line sys)
      (t.realloc ptr size file line sys) := by
  unfold Store.realloc
  by_cases hptr : ptr = 0
  · subst hptr
    exact h.malloc size file line (hsupplied _ rfl)
  by_cases hsize : size = 0
  · subst hsize
    have hfree := h.free ptr (none : Option ℕ)
    unfold redzoneRealloc
    rw [if_neg hptr, if_pos rfl, if_neg hptr, if_pos rfl]
    cases hr : redzoneFree w.rt ptr with
    | error e => rwa [hr] at hfree
    | ok rt => rwa [hr] at hfree
  rw [redzoneRealloc_eq hptr hsize, if_neg hptr, if_neg hsize]
  have hrel := h.malloc size file line (hsupplied _ (if_neg fun hboth => hsize hboth.2))
  generalize hr : redzoneMalloc w.rt size file line sys = r at hrel ⊢
  generalize t.allocate size redzoneSize file line sys = q at hrel ⊢
  cases hrel with
  | stop e => exact .stop e
  | @go p rt₁ t₁ h₁ =>
      cases p with
      | none => exact .go none h₁
      | some np =>
          -- a pointer inside a block: the copy is made, and the free stops the process
          by_cases hin : t₁.find ptr = none → t₁.enclosing ptr = none
          · have hkept := World.Holds.carry h₁ hr hin
            have hfree := Represents.free hkept ptr (some np)
            cases hf : redzoneFree (rt₁.copied np ptr (reallocCopy rt₁ ptr size)) ptr with
            | error e =>
                rw [hf] at hfree
                simp only [hf]
                exact hfree
            | ok rt =>
                rw [hf] at hfree
                simp only [hf]
                exact hfree
          · obtain ⟨hfind, henc⟩ := Classical.not_imp.mp hin
            obtain ⟨b, hb⟩ := Option.ne_none_iff_exists'.mp henc
            have hstop := World.Holds.free_inside h₁ hptr hfind henc
              (rt₁.copied np ptr (reallocCopy rt₁ ptr size)).mem
            rw [← copied_eq] at hstop
            simp only [hstop, Store.free]
            have hf : Store.find { t₁ with data := memmove t₁.data np ptr (t₁.kept ptr size) } ptr =
              none := hfind
            have he : Store.enclosing { t₁ with data := memmove t₁.data np ptr (t₁.kept ptr size) }
              ptr = some b := hb
            simp only [hf, he]
            rw [if_pos ⟨hptr, rfl⟩]
            exact .stop _

end Free

/-! ## The check -/

/-- The code of a guard. -/
def Zone.code : Zone → ℤ
  | .heap => rzPoison
  | .stack => stackRz
  | .global => globalRz

section Check

variable {w : World} {t : Store} {o : Obj} {z : Zone} {a n size x : ℕ} {isWrite : Bool}
  {file : Option String} {line : ℤ}

theorem Represents.zoned_eq (h : Represents w t) :
    w.zoned = t.zones.map fun z => ⟨z.1, z.2.code⟩ := by
  simp only [World.zoned, Store.zones, h.blocks, h.stack, h.internals, h.externals,
    List.map_append, List.map_map]
  rfl

/-- Only blocks die. -/
theorem Store.live_of_zones (h : (o, z) ∈ t.zones) (hz : z ≠ .heap) : o.live = true := by
  simp only [Store.zones, List.mem_append, List.mem_map, Prod.mk.injEq] at h
  rcases h with ⟨b, -, -, rfl⟩ | ⟨v, -, rfl, -⟩ | ⟨g, -, rfl, -⟩ | ⟨g, -, rfl, -⟩
  · exact absurd rfl hz
  · rfl
  · rfl
  · rfl

/-- The shadow byte of a chunk that an object has: negative exactly where none of its bytes
is a user byte. -/
theorem Represents.load_of_mem (h : Represents w t) (hz : (o, z) ∈ t.zones)
    (hx : o.region.Mem x) :
    (o.Blank x → shadowLoad w.rt.shadow x = z.code ∨
      z = .heap ∧ shadowLoad w.rt.shadow x = freedPoison) ∧
    (¬ o.Blank x → 0 ≤ shadowLoad w.rt.shadow x) := by
  have hmem : (⟨o, z.code⟩ : Zoned) ∈ w.zoned := by
    rw [h.zoned_eq]
    exact List.mem_map_of_mem hz
  have htop := (h.intact.inv.ok o (World.mem_objs_of_zoned hmem)).top_le
  have hlim : x < shadowLimit := by
    have hhi := hx.2
    simp only [Obj.region, roundUp8, shadowLimit] at hhi htop ⊢
    omega
  rw [Shadow.Painted.load_of_mem h.intact.painted hmem hx hlim]
  unfold Obj.Blank Zoned.code
  simp only [hx, true_and]
  by_cases huser : o.userLo ≤ x / 8 * 8 ∧ x / 8 * 8 < o.userHi
  · simp only [huser, and_self, and_true, if_true]
    cases hlive : o.live with
    | false =>
        have hheap : z = .heap := by
          by_contra hne
          simp [Store.live_of_zones hz hne] at hlive
        simp [hheap]
    | true =>
        simp only [not_true_eq_false, IsEmpty.forall_iff, not_false_eq_true, if_true,
          forall_true_left, true_and]
        split <;> omega
  · simp [huser]

/-- The shadow byte of a chunk that is a guard. -/
theorem Represents.load_guard (h : Represents w t) (hguard : t.guardOf x = some z) :
    shadowLoad w.rt.shadow x = z.code ∨ z = .heap ∧ shadowLoad w.rt.shadow x = freedPoison := by
  obtain ⟨⟨o, z'⟩, hfind, rfl⟩ := Option.map_eq_some_iff.mp hguard
  have hblank : o.Blank x := by simpa using List.find?_some hfind
  exact (h.load_of_mem (List.mem_of_find?_eq_some hfind) hblank.1).1 hblank

/-- The shadow byte of a chunk that is no guard. -/
theorem Represents.load_other (h : Represents w t) (hguard : t.guardOf x = none) :
    0 ≤ shadowLoad w.rt.shadow x := by
  by_contra hneg
  obtain ⟨z, hz, hx, -⟩ := h.intact.painted.exists_of_load (x := x) (by omega)
  rw [h.zoned_eq] at hz
  obtain ⟨⟨o, zone⟩, hmem, rfl⟩ := List.mem_map.mp hz
  refine hneg ((h.load_of_mem hmem hx).2 fun hblank => ?_)
  have hnone := List.find?_eq_none.mp (Option.map_eq_none_iff.mp hguard) _ hmem
  simp [hblank] at hnone

/-- The poison code names the guard. -/
theorem Represents.kind_eq (h : Represents w t) (a last : ℕ) :
    poisonKind (shadowLoad w.rt.shadow a) (shadowLoad w.rt.shadow last) = t.kindOf a last := by
  have hneg : ∀ z : Zone, z.code < 0 := by
    intro z
    cases z <;> decide
  have hname : ∀ {x z}, t.guardOf x = some z →
      shadowLoad w.rt.shadow x < 0 ∧ (if shadowLoad w.rt.shadow x = globalRz then
        "global-buffer-overflow"
      else if shadowLoad w.rt.shadow x = stackRz then "stack-buffer-overflow"
      else "buffer-overflow") = match z with
        | .stack => "stack-buffer-overflow"
        | .global => "global-buffer-overflow"
        | .heap => "buffer-overflow" := by
    intro x z hguard
    rcases h.load_guard hguard with hcode | ⟨rfl, hcode⟩
    · rw [hcode]
      refine ⟨hneg z, ?_⟩
      cases z <;> decide
    · rw [hcode]
      decide
  unfold poisonKind Store.kindOf
  cases ha : t.guardOf a with
  | some z =>
      obtain ⟨hlt, hkind⟩ := hname ha
      rw [if_pos hlt, Option.some_or]
      refine hkind.trans ?_
      cases z <;> rfl
  | none =>
      rw [if_neg (not_lt.mpr (h.load_other ha)), Option.none_or]
      cases hlast : t.guardOf last with
      | some z =>
          obtain ⟨hlt, hkind⟩ := hname hlast
          rw [if_pos hlt]
          refine hkind.trans ?_
          cases z <;> rfl
      | none =>
          rw [if_neg (not_lt.mpr (h.load_other hlast))]
          decide

/-- `__redzone_check`. -/
theorem Represents.check_eq (h : Represents w t) (a size : ℕ) (isWrite : Bool)
    (file : Option String) (line : ℤ) :
    redzoneCheck w.rt a size isWrite file line = t.check a size isWrite file line := by
  unfold redzoneCheck Store.check
  simp only [h.enclosing_eq, h.kind_eq]
  by_cases hsize : size = 0
  · rw [if_pos hsize, if_pos (.inl hsize)]
  rw [if_neg hsize]
  by_cases hfine : ¬ t.OffLimits a ∧ ¬ t.OffLimits ((a + size - 1) % wordSize)
  · have hpass : (!bytePoisoned w.rt.shadow a &&
        !bytePoisoned w.rt.shadow ((a + size - 1) % wordSize)) = true := by
      rw [h.addressable_iff.mpr hfine.1, h.addressable_iff.mpr hfine.2]
      rfl
    rw [if_pos hpass, if_pos (.inr hfine)]
  · have hstop : ¬ (!bytePoisoned w.rt.shadow a &&
        !bytePoisoned w.rt.shadow ((a + size - 1) % wordSize)) = true := by
      rw [Bool.and_eq_true, Bool.not_eq_true', Bool.not_eq_true', h.addressable_iff,
        h.addressable_iff]
      exact hfine
    exact (if_neg hstop).trans (if_neg fun hor => hor.elim hsize hfine).symm

end Check

/-! ## Accesses -/

section Accesses

variable {α : Type} {w : World} {t : Store} {a n dst src x : ℕ} {isWrite : Bool} {c : UInt8}
  {file : Option String} {line : ℤ}

theorem Store.check_ok (hn : 0 < n) (hcheck : t.check a n isWrite file line = .ok ()) :
    ¬ t.OffLimits a ∧ ¬ t.OffLimits ((a + n - 1) % wordSize) := by
  by_contra hbad
  unfold Store.check at hcheck
  rw [if_neg (fun hor => hor.elim hn.ne' hbad)] at hcheck
  cases hin : t.enclosing a with
  | none => simp [hin] at hcheck
  | some b => simp [hin] at hcheck

/-- A guard is at least 16 bytes long, so it does not fit between the ends of a small
access. -/
theorem Represents.open_of_small (h : Represents w t) (hn : n ≤ 16) (hfirst : ¬ t.OffLimits a)
    (hlast : ¬ t.OffLimits ((a + n - 1) % wordSize)) {i : ℕ} (hi : i < n) :
    ¬ t.OffLimits (a + i) := by
  rintro ⟨o, ho, hguard⟩
  rw [h.objs] at ho
  have hok := h.intact.inv.ok o ho
  obtain ⟨g, hg, hlo, hhi⟩ := (hok.wf.guards_iff).mp hguard
  have hends : ∀ y, ¬ t.OffLimits y → ¬ (g.1 ≤ y ∧ y < g.2) := by
    intro y hy hin
    refine hy ⟨o, by rwa [h.objs], hok.wf.guards_iff.mpr ⟨g, hg, hin⟩⟩
  have hnot₁ := hends a hfirst
  have hnot₂ := hends _ hlast
  have hle := hok.lo_le
  have hleft := hok.left
  have hule := hok.user_le
  have hright := hok.guard
  have htop := hok.top_le
  -- each interval is empty or longer than the access, and below the limit of the shadow
  have hlong : (g.1 = g.2 ∨ g.1 + 16 ≤ g.2) ∧ g.2 ≤ shadowLimit := by
    simp only [redzoneSize] at hleft hright
    unfold Region.guardIntervals at hg
    simp only [shadowLimit] at htop ⊢
    split at hg
    · rcases List.mem_cons.mp hg with rfl | hg
      · simp only [Obj.region]
        omega
      · obtain rfl := List.mem_singleton.mp hg
        simp only [Obj.region, roundUp8]
        omega
    · obtain rfl := List.mem_singleton.mp hg
      simp only [Obj.region, roundUp8]
      omega
  have hnowrap : (a + n - 1) % wordSize = a + n - 1 := by
    simp only [shadowLimit] at hlong
    exact Nat.mod_eq_of_lt (by simp only [wordSize]; omega)
  rw [hnowrap] at hnot₂
  omega

/-- An access that passes its check touches nothing that is off limits. -/
theorem Represents.open_of_check (h : Represents w t) (hs : t.Seamless a n)
    (hcheck : t.check a n isWrite file line = .ok ()) {i : ℕ} (hi : i < n) :
    ¬ t.OffLimits (a + i) := by
  obtain ⟨hfirst, hlast⟩ := Store.check_ok (by omega) hcheck
  rcases hs with hn | hopen
  · exact h.open_of_small hn hfirst hlast hi
  · exact hopen hfirst hlast i hi

/-- The same for an address in the range. -/
theorem Represents.open_range (h : Represents w t) (hs : t.Seamless a n)
    (hcheck : t.check a n isWrite file line = .ok ()) (hx : a ≤ x ∧ x < a + n) :
    ¬ t.OffLimits x := by
  have hopen := h.open_of_check hs hcheck (i := x - a) (by omega)
  rwa [Nat.add_sub_cancel' hx.1] at hopen

/-- A load. -/
theorem Represents.load (h : Represents w t) (hs : t.Seamless a n) :
    Related Represents (w.serve (.load a n file line)) (t.load a n file line) := by
  unfold Store.load World.serve
  simp only [h.check_eq]
  cases hcheck : t.check a n false file line with
  | error e => exact .stop e
  | ok u =>
      have hsame : readBytes w.rt.mem a n = readBytes t.data a n :=
        List.map_congr_left fun i hi =>
          h.data_eq (h.open_of_check hs hcheck (List.mem_range.mp hi))
      simp only [bind, Except.bind, pure, Except.pure, hsame]
      exact .go _ h

/-- A store. -/
theorem Represents.store {bytes : List UInt8} (h : Represents w t)
    (hs : t.Seamless a bytes.length) :
    Related Represents (w.serve (.store a bytes file line)) (t.store a bytes file line) := by
  unfold Store.store World.serve
  simp only [h.check_eq]
  cases hcheck : t.check a bytes.length true file line with
  | error e => exact .stop e
  | ok u =>
      refine .go Reply.done (h.write (fun x hx => if_neg fun hin => ?_) fun x hsame => ?_)
      · exact h.open_range hs hcheck hin hx
      · exact if_congr Iff.rfl rfl hsame

/-- `__redzone_memset`. -/
theorem Represents.fill (h : Represents w t) (hs : t.Seamless dst n) :
    Related Represents (w.serve (.memset dst c n file line)) (t.fill dst c n file line) := by
  unfold Store.fill World.serve redzoneMemset
  simp only [h.check_eq]
  cases hcheck : t.check dst n true file line with
  | error e => exact .stop e
  | ok u =>
      refine .go _ (h.write (fun x hx => if_neg fun hin => ?_) fun x hsame => ?_)
      · exact h.open_range hs hcheck hin hx
      · exact if_congr Iff.rfl rfl hsame

/-- `__redzone_memmove`, and `__redzone_memcpy`. -/
theorem Represents.copy (h : Represents w t) (hd : t.Seamless dst n) (hs : t.Seamless src n) :
    Related Represents (w.serve (.memmove dst src n file line)) (t.copy dst src n file line) := by
  unfold Store.copy World.serve redzoneMemmove
  simp only [h.check_eq]
  cases hto : t.check dst n true file line with
  | error e => exact .stop e
  | ok u =>
      cases hfrom : t.check src n false file line with
      | error e => exact .stop e
      | ok u =>
          refine .go _ (h.write (fun x hx => if_neg fun hin => ?_) fun x hsame => ?_)
          · exact h.open_range hd hto hin hx
          · refine ite_congr rfl (fun hin => ?_) fun _ => hsame
            exact h.data_eq (h.open_of_check hs hfrom (by omega))

end Accesses

/-! ## The other requests -/

section Serve

variable {w w' : World} {t t' : Store} {op : Op} {c : HeapCall}

/-- A step that leaves table and memory alone. -/
theorem Represents.regard (h : Represents w t) (op : Op) (hmay : w.MayStore op)
    (hstep : w.step op = some w') (hblocks : w'.rt.blocks = w.rt.blocks)
    (hcap : w'.rt.cap = w.rt.cap) (hmem : w'.rt.mem = w.rt.mem)
    (ht : t'.blocks = t.blocks ∧ t'.data = t.data) (hstack : t'.stack = w'.stack)
    (hint : t'.internals = w'.internals) (hext : t'.externals = w'.externals) :
    Represents w' t' := by
  refine ⟨h.intact.step hmay hstep, ?_, hstack, hint, hext, ?_, ?_⟩
  · rw [ht.1, hblocks, h.blocks]
  · rw [hblocks, hcap]
    exact h.room
  · rw [hblocks, hmem, ht.2]
    exact h.data

/-- A heap call. -/
theorem Represents.heap (h : Represents w t) (hlt : c.alignment < wordSize)
    (hsupplied : t.Supplied c) (hdelivered : t.Delivered c) :
    Related w.Holds (w.rt.reply c) (t.heap c) := by
  cases c with
  | malloc size file line sys =>
      exact (h.malloc size file line (hsupplied _ rfl)).map _ id id fun _ _ hR => hR
  | alignedAlloc alignment size file line sys =>
      exact (h.alignedAlloc hlt hsupplied).map _ id id fun _ _ hR => hR
  | posixMemalign memptr alignment size file line sys =>
      have halign : alignment < wordSize := hlt
      refine (h.posixMemalign halign hsupplied fun t' ht' => ?_).map _ id id fun _ _ hR => hR
      have hheap : t.heap (.posixMemalign memptr alignment size file line sys) =
          .ok (.code 0, t') := by
        rw [Store.heap, ht']
        rfl
      unfold Store.Delivered at hdelivered
      rw [hheap] at hdelivered
      exact hdelivered rfl
  | calloc nmemb size file line sys =>
      exact (h.calloc hsupplied).map _ id id fun _ _ hR => hR
  | realloc ptr size file line sys =>
      exact (h.realloc hsupplied).map _ id id fun _ _ hR => hR
  | free ptr => exact h.free ptr Reply.done

/-- The runtime answers as the store does to whatever a client may ask. -/
theorem runtime_refines : Refines World.serve Store.serve Store.Allowed Represents := by
  intro w t r h hallowed
  cases r with
  | heap c =>
      obtain ⟨hlt, hsupplied, hdelivered⟩ := hallowed
      have hrel := h.heap hlt hsupplied hdelivered
      have hmap := hrel.map id (fun rt => { w with rt := rt }) id fun _ _ hR => hR
      have hid : (t.heap c).map (Prod.map id id) = t.heap c := by
        cases t.heap c <;> rfl
      rw [hid] at hmap
      exact hmap
  | owns ptr =>
      have hsame : (decide (ptr ≠ 0) && (blockFromUserPtr w.rt ptr).isSome) =
          (t.find ptr).isSome := by
        rw [h.find_eq]
        by_cases hptr : ptr = 0
        · rw [hptr, h.find_null]
          rfl
        · simp [hptr]
      simp only [World.serve, Store.serve, hsame]
      exact .go _ h
  | usableSize ptr =>
      have hsame : (if ptr = 0 then 0
          else ((blockFromUserPtr w.rt ptr).bind fun i => w.rt.blocks[i]?).elim 0
            Block.userSize) =
          ((t.find ptr).bind fun i => t.blocks[i]?).elim 0 Block.userSize := by
        rw [h.find_eq, h.blocks]
        split
        · rename_i hptr
          rw [hptr, h.find_null]
          rfl
        · rfl
      simp only [World.serve, Store.serve, hsame]
      exact .go _ h
  | stackEnter v =>
      refine .go Reply.done (h.regard (.stackEnter v) trivial (if_pos (h.fresh hallowed)) rfl rfl
        rfl ⟨rfl, rfl⟩ ?_ h.internals h.externals)
      rw [h.stack]
  | stackLeave v =>
      have hv : v ∈ w.stack := h.stack ▸ hallowed
      refine .go Reply.done (h.regard (.stackLeave v) trivial (if_pos hv) rfl rfl rfl ⟨rfl, rfl⟩
        ?_ h.internals h.externals)
      rw [h.stack]
  | globalRegister g =>
      refine .go Reply.done (h.regard (.globalRegister g) trivial
        (if_pos ⟨hallowed.1, h.fresh hallowed.2⟩) rfl rfl rfl ⟨rfl, rfl⟩ h.stack ?_ h.externals)
      rw [h.internals]
  | globalRegisterRight g =>
      refine .go Reply.done (h.regard (.globalRegisterRight g) trivial
        (if_pos (h.fresh hallowed)) rfl rfl rfl ⟨rfl, rfl⟩ h.stack h.internals ?_)
      rw [h.externals]
  | check a size isWrite file line =>
      simp only [World.serve, Store.serve, h.check_eq]
      cases t.check a size isWrite file line with
      | error e => exact .stop e
      | ok u => exact .go Reply.done h
  | memcpy dst src n file line => exact h.copy hallowed.1 hallowed.2.1
  | memmove dst src n file line => exact h.copy hallowed.1 hallowed.2
  | memset dst c n file line => exact h.fill hallowed
  | load a n file line => exact h.load hallowed
  | store a bytes file line => exact h.store hallowed

end Serve

/-- A client sees the same transcript of the runtime and of the object store: every pointer,
size and byte that is returned, and the report that ends the process. -/
theorem runtime_is_object_store (reqs : List Request)
    (hallowed : EveryRequest Store.serve Store.Allowed .initial reqs) :
    transcript World.serve .initial reqs = transcript Store.serve .initial reqs :=
  runtime_refines.transcript_eq represents_initial hallowed

/-- A client that allocates, stores, resizes and loads, keeps a variable on the stack, and
loads from a block that it has freed. -/
def clientRun : List Request :=
  [.heap (.calloc 3 8 none 0 ⟨some 0x1000, true⟩), .store 0x1012 [7, 9] none 3,
    .heap (.realloc 0x1010 40 none 0 ⟨some 0x2000, true⟩), .load 0x2010 16 none 5,
    .stackEnter ⟨0x7000, 5⟩, .store 0x7010 [1] none 6, .owns 0x2010, .usableSize 0x2018,
    .heap (.alignedAlloc 64 10 none 0 ⟨some 0x3010, true⟩), .memmove 0x3040 0x2012 2 none 7,
    .heap (.free 0x2010), .stackLeave ⟨0x7000, 5⟩, .load 0x2010 4 none 8, .load 0x3040 2 none 9]

theorem clientRun_transcripts :
    transcript World.serve .initial clientRun = transcript Store.serve .initial clientRun :=
  runtime_is_object_store clientRun (by decide +kernel)

end Redzone.Shadow
