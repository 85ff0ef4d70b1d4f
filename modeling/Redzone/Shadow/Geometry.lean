/-
  Shadow/Geometry.lean --- the allocators in 64-bit arithmetic.

  `SizeT` has `rz_allocate` and the entry points on top of it with `size_t` arguments and
  every operation modulo `2 ^ 64`, as the machine computes them.  Where the system hands
  out an aligned extent that does not wrap, none of these operations wraps: the calls are
  those of `Shadow.Heap`, and the user region, its red zones and the header lie in the
  extent.
-/
import Redzone.Shadow.Exact
import Redzone.Shadow.Header

set_option autoImplicit false

namespace Redzone.Shadow

open Redzone.Foundation

/-! ## The calls -/

namespace SizeT

/-- `is_pow2`. -/
def isPow2 (x : UInt64) : Bool := x != 0 && (x &&& (x - 1)) == 0

/-- `SIZE_MAX`. -/
def sizeMax : UInt64 := 0 - 1

/-- `slack` of `rz_allocate`. -/
def slack (align : UInt64) : UInt64 := if align > 16 then align else 0

/-- `total`, which `rz_allocate` asks of the system. -/
def request (size align : UInt64) : UInt64 := size + 2 * 16 + slack align

/-- `user` of `rz_allocate`. -/
def userAddr (base align : UInt64) : UInt64 := (base + 16 + (align - 1)) &&& ~~~(align - 1)

/-- `rz_allocate`. -/
def rzAllocate (s : Rt) (size align : UInt64) (file : Option String) (line : ℤ) (sys : Sys) :
    Except Abort (Option ℕ × Rt) :=
  if size > sizeMax - 2 * 16 - slack align then .ok (none, s)
  else
    match sys.malloc with
    | none => .ok (none, s)
    | some base =>
      let total := (request size align).toNat
      let user := userAddr (.ofNat base) align
      match recordBlock s ⟨base, total, user.toNat, size.toNat, false, file, line⟩ sys.growOk with
      | .error e => .error e
      | .ok (idx, s) =>
        .ok (some user.toNat, { s with
          shadow := carveUser (setShadowRange s.shadow base total rzPoison) user.toNat size.toNat
          mem := store64 (store64 s.mem (user - 16).toNat headerMagic) (user - 8).toNat idx })

/-- `__redzone_malloc`. -/
def redzoneMalloc (s : Rt) (size : UInt64) (file : Option String) (line : ℤ) (sys : Sys) :
    Except Abort (Option ℕ × Rt) :=
  rzAllocate s size 16 file line sys

/-- The alignment that `__redzone_aligned_alloc` and `__redzone_posix_memalign` pass on. -/
def effective (alignment : UInt64) : UInt64 := if alignment < 16 then 16 else alignment

/-- `__redzone_aligned_alloc`. -/
def redzoneAlignedAlloc (s : Rt) (alignment size : UInt64) (file : Option String) (line : ℤ)
    (sys : Sys) : Except Abort (Option ℕ × Rt) :=
  if !isPow2 alignment then .ok (none, s)
  else rzAllocate s size (effective alignment) file line sys

/-- `__redzone_posix_memalign`. -/
def redzonePosixMemalign (s : Rt) (memptr : ℕ) (alignment size : UInt64) (file : Option String)
    (line : ℤ) (sys : Sys) : Except Abort (ℤ × Rt) :=
  if memptr = 0 then .ok (einval, s)
  else if !isPow2 alignment || alignment % 8 != 0 then .ok (einval, s)
  else
    match rzAllocate s size (effective alignment) file line sys with
    | .error e => .error e
    | .ok (none, s) => .ok (enomem, s)
    | .ok (some p, s) => .ok (0, { s with mem := store64 s.mem memptr p })

/-- `__redzone_calloc`. -/
def redzoneCalloc (s : Rt) (nmemb size : UInt64) (file : Option String) (line : ℤ) (sys : Sys) :
    Except Abort (Option ℕ × Rt) :=
  if size ≠ 0 ∧ nmemb > sizeMax / size then .ok (none, s)
  else
    match redzoneMalloc s (nmemb * size) file line sys with
    | .error e => .error e
    | .ok (none, s) => .ok (none, s)
    | .ok (some p, s) => .ok (some p, { s with mem := memset s.mem p 0 (nmemb * size).toNat })

end SizeT

/-! ## No operation wraps -/

section Arithmetic

variable {size align base nmemb : UInt64}

theorem wordIsPow2_eq : SizeT.isPow2 align = isPow2 align.toNat := by
  unfold SizeT.isPow2 isPow2
  cases hzero : align == 0 with
  | true =>
      obtain rfl := beq_iff_eq.mp hzero
      rfl
  | false =>
      have hne : align ≠ 0 := by simpa using hzero
      have hpos : align.toNat ≠ 0 := fun h => hne (UInt64.toNat_inj.mp h)
      have hle : (1 : UInt64) ≤ align := by
        rw [UInt64.le_iff_toNat_le]
        exact Nat.one_le_iff_ne_zero.mpr hpos
      have hand : (align &&& (align - 1)).toNat = align.toNat &&& (align.toNat - 1) := by
        rw [UInt64.toNat_and, UInt64.toNat_sub_of_le _ _ hle]
        rfl
      have hbeq : ((align &&& (align - 1)) == 0) = ((align.toNat &&& (align.toNat - 1)) == 0) := by
        rw [← hand, Bool.eq_iff_iff, beq_iff_eq, beq_iff_eq, ← UInt64.toNat_inj]
        rfl
      rw [hbeq]
      simp [bne, hzero, hpos]

theorem word_slack_toNat : (SizeT.slack align).toNat = slackOf align.toNat := by
  unfold SizeT.slack slackOf
  by_cases hgt : align > 16
  · have hgt' : align.toNat > redzoneSize := UInt64.lt_iff_toNat_lt.mp hgt
    rw [if_pos hgt, if_pos hgt']
  · have hgt' : ¬ align.toNat > redzoneSize := fun h => hgt (UInt64.lt_iff_toNat_lt.mpr h)
    rw [if_neg hgt, if_neg hgt']
    rfl

/-- A power of two in a word is at most half of it. -/
theorem toNat_le_of_isPow2 (hpow : isPow2 align.toNat = true) : align.toNat ≤ 2 ^ 63 := by
  obtain ⟨k, hk⟩ := isPow2_eq_true.mp hpow
  have hlt := align.toNat_lt
  rw [hk] at hlt ⊢
  have hk64 : k < 64 := (Nat.pow_lt_pow_iff_right (by omega)).mp hlt
  exact Nat.pow_le_pow_right (by omega) (by omega)

theorem slackOf_le (hpow : isPow2 align.toNat = true) : slackOf align.toNat ≤ 2 ^ 63 := by
  have hle := toNat_le_of_isPow2 hpow
  unfold slackOf
  split <;> omega

/-- The bound that `size` is compared with. -/
theorem word_limit_toNat (hpow : isPow2 align.toNat = true) :
    (SizeT.sizeMax - 2 * 16 - SizeT.slack align).toNat =
      sizeMax - 2 * redzoneSize - slackOf align.toNat := by
  have hle := slackOf_le hpow
  have hmax : (SizeT.sizeMax - 2 * 16).toNat = 2 ^ 64 - 1 - 32 := rfl
  rw [UInt64.toNat_sub, hmax, word_slack_toNat]
  simp only [sizeMax, wordSize, redzoneSize]
  omega

theorem word_refuses_iff (hpow : isPow2 align.toNat = true) :
    size > SizeT.sizeMax - 2 * 16 - SizeT.slack align ↔
      size.toNat > sizeMax - 2 * redzoneSize - slackOf align.toNat := by
  rw [gt_iff_lt, UInt64.lt_iff_toNat_lt, word_limit_toNat hpow]

/-- A request that is made does not wrap. -/
theorem word_request_toNat (hpow : isPow2 align.toNat = true)
    (hfits : ¬ size.toNat > sizeMax - 2 * redzoneSize - slackOf align.toNat) :
    (SizeT.request size align).toNat = size.toNat + 2 * redzoneSize + slackOf align.toNat := by
  have hle := slackOf_le hpow
  have h32 : (2 * 16 : UInt64).toNat = 32 := rfl
  simp only [sizeMax, wordSize, redzoneSize] at hfits
  unfold SizeT.request
  rw [UInt64.toNat_add, UInt64.toNat_add, word_slack_toNat, h32]
  simp only [redzoneSize]
  omega

/-- Masking the complement clears the low bits. -/
theorem word_userAddr_toNat (halign : redzoneSize ≤ align.toNat) :
    (SizeT.userAddr base align).toNat =
      clearLow ((base.toNat + redzoneSize + (align.toNat - 1)) % wordSize) align.toNat := by
  have hlt := align.toNat_lt
  have h16 : (16 : UInt64).toNat = 16 := rfl
  have hle : (1 : UInt64) ≤ align := by
    rw [UInt64.le_iff_toNat_le]
    exact (by decide : 1 ≤ redzoneSize).trans halign
  have hone : (align - 1).toNat = align.toNat - 1 := UInt64.toNat_sub_of_le _ _ hle
  have hmask : UInt64.size - 1 - (align.toNat - 1) = wordSize - align.toNat := by
    simp only [UInt64.size, wordSize, redzoneSize] at halign ⊢
    omega
  unfold SizeT.userAddr clearLow
  rw [UInt64.toNat_and, UInt64.toNat_not, UInt64.toNat_add, UInt64.toNat_add, hone, hmask, h16]
  congr 1
  simp only [redzoneSize, wordSize]
  omega

/-- The product that `__redzone_calloc` lets through does not wrap. -/
theorem word_mul_toNat (h : ¬ (size ≠ 0 ∧ nmemb > SizeT.sizeMax / size)) :
    (nmemb * size).toNat = nmemb.toNat * size.toNat := by
  rw [UInt64.toNat_mul, Nat.mod_eq_of_lt]
  rcases eq_or_ne size 0 with rfl | hzero
  · simp
  · have hle : ¬ nmemb > SizeT.sizeMax / size := fun hgt => h ⟨hzero, hgt⟩
    have hmax : SizeT.sizeMax.toNat = 2 ^ 64 - 1 := rfl
    rw [gt_iff_lt, UInt64.lt_iff_toNat_lt, UInt64.toNat_div, hmax, Nat.not_lt] at hle
    have hmul : nmemb.toNat * size.toNat ≤ 2 ^ 64 - 1 :=
      (Nat.mul_le_mul_right _ hle).trans (Nat.div_mul_le_self ..)
    omega

theorem word_calloc_refuses_iff :
    (size ≠ 0 ∧ nmemb > SizeT.sizeMax / size) ↔
      (size.toNat ≠ 0 ∧ nmemb.toNat > sizeMax / size.toNat) := by
  have hmax : SizeT.sizeMax.toNat = sizeMax := rfl
  rw [gt_iff_lt, UInt64.lt_iff_toNat_lt, UInt64.toNat_div, hmax, ne_eq, ← UInt64.toNat_inj]
  rfl

end Arithmetic

/-! ## The calls are those of the model -/

/-- An extent of `total` bytes that the system hands out is 16-aligned and does not
wrap. -/
def Sys.Serves (sys : Sys) (total : ℕ) : Prop :=
  ∀ base, sys.malloc = some base → base % 16 = 0 ∧ base + total < wordSize

instance (sys : Sys) (total : ℕ) : Decidable (sys.Serves total) :=
  match h : sys.malloc with
  | none => .isTrue fun base hbase => by simp [h] at hbase
  | some base => decidable_of_iff (base % 16 = 0 ∧ base + total < wordSize)
      ⟨fun hserves base' hbase => by
        obtain rfl : base = base' := Option.some.inj (h.symm.trans hbase)
        exact hserves, fun hserves => hserves base h⟩

section Refines

variable {s : Rt} {size align nmemb alignment : UInt64} {file : Option String} {line : ℤ}
  {sys : Sys}

/-- The header lies where 64-bit subtraction puts it. -/
theorem word_header_toNat {user : UInt64} (huser : headerSize ≤ user.toNat) :
    (user - 16).toNat = user.toNat - headerSize ∧ (user - 8).toNat = user.toNat - 8 := by
  simp only [headerSize] at huser ⊢
  have h16 : (16 : UInt64) ≤ user := UInt64.le_iff_toNat_le.mpr huser
  have h8 : (8 : UInt64) ≤ user := UInt64.le_iff_toNat_le.mpr ((by decide : 8 ≤ 16).trans huser)
  exact ⟨UInt64.toNat_sub_of_le _ _ h16, UInt64.toNat_sub_of_le _ _ h8⟩

theorem word_rzAllocate (hpow : isPow2 align.toNat = true) (halign : redzoneSize ≤ align.toNat)
    (hserves : sys.Serves (SizeT.request size align).toNat) :
    SizeT.rzAllocate s size align file line sys =
      rzAllocate s size.toNat align.toNat file line sys := by
  unfold SizeT.rzAllocate rzAllocate
  rw [← slackOf]
  simp only [word_refuses_iff hpow]
  split
  · rfl
  · rename_i hfits
    have htotal := word_request_toNat hpow hfits
    rw [htotal] at hserves ⊢
    cases hmalloc : sys.malloc with
    | none => rfl
    | some base =>
        obtain ⟨hbase, htop⟩ := hserves base hmalloc
        obtain ⟨k, hk⟩ := isPow2_eq_true.mp hpow
        have hplaced := placed hk halign hbase htop.le
        have hbase64 : (UInt64.ofNat base).toNat = base := by
          rw [UInt64.toNat_ofNat']
          apply Nat.mod_eq_of_lt
          simp only [wordSize] at htop
          omega
        have huser : (SizeT.userAddr (.ofNat base) align).toNat =
            clearLow ((base + redzoneSize + (align.toNat - 1)) % wordSize) align.toNat := by
          rw [word_userAddr_toNat halign, hbase64]
        have hroom : headerSize ≤ (SizeT.userAddr (.ofNat base) align).toNat := by
          rw [huser]
          exact (Nat.le_add_left ..).trans hplaced.left
        obtain ⟨h16, h8⟩ := word_header_toNat hroom
        dsimp only
        -- the user address and the addresses of the header words, by name
        generalize (SizeT.userAddr (.ofNat base) align - 16).toNat = magicAt at h16 ⊢
        generalize (SizeT.userAddr (.ofNat base) align - 8).toNat = indexAt at h8 ⊢
        generalize (SizeT.userAddr (.ofNat base) align).toNat = user at huser h16 h8 ⊢
        subst h16 h8 huser
        rfl

/-- What the aligned allocators pass on. -/
theorem word_effective (hpow : SizeT.isPow2 alignment = true) :
    (SizeT.effective alignment).toNat =
        (if alignment.toNat < redzoneSize then redzoneSize else alignment.toNat) ∧
      isPow2 (SizeT.effective alignment).toNat = true ∧
      redzoneSize ≤ (SizeT.effective alignment).toNat ∧
      alignment.toNat ∣ (SizeT.effective alignment).toNat := by
  rw [wordIsPow2_eq] at hpow
  have heq : (SizeT.effective alignment).toNat =
      (if alignment.toNat < redzoneSize then redzoneSize else alignment.toNat) := by
    unfold SizeT.effective
    by_cases hlt : alignment < 16
    · have hlt' : alignment.toNat < redzoneSize := UInt64.lt_iff_toNat_lt.mp hlt
      rw [if_pos hlt, if_pos hlt']
      rfl
    · have hlt' : ¬ alignment.toNat < redzoneSize := fun h => hlt (UInt64.lt_iff_toNat_lt.mpr h)
      rw [if_neg hlt, if_neg hlt']
  obtain ⟨hk, hle⟩ := alignment_ok hpow
  refine ⟨heq, ?_, heq ▸ hle, ?_⟩
  · rw [heq]
    exact isPow2_eq_true.mpr hk
  · rw [heq]
    split
    · rename_i hlt
      obtain ⟨k, hk⟩ := isPow2_eq_true.mp hpow
      rw [hk] at hlt ⊢
      have hk4 : k < 4 := (Nat.pow_lt_pow_iff_right (by omega : 1 < 2)).mp hlt
      exact Nat.pow_dvd_pow 2 hk4.le
    · exact dvd_rfl

theorem word_redzoneMalloc (hserves : sys.Serves (SizeT.request size 16).toNat) :
    SizeT.redzoneMalloc s size file line sys = redzoneMalloc s size.toNat file line sys :=
  word_rzAllocate rfl le_rfl hserves

theorem word_redzoneCalloc (hserves : sys.Serves (SizeT.request (nmemb * size) 16).toNat) :
    SizeT.redzoneCalloc s nmemb size file line sys =
      redzoneCalloc s nmemb.toNat size.toNat file line sys := by
  unfold SizeT.redzoneCalloc redzoneCalloc
  rw [word_redzoneMalloc hserves]
  by_cases hbig : size ≠ 0 ∧ nmemb > SizeT.sizeMax / size
  · rw [if_pos hbig, if_pos (word_calloc_refuses_iff.mp hbig)]
  · have hmul := word_mul_toNat hbig
    rw [if_neg hbig, if_neg fun h => hbig (word_calloc_refuses_iff.mpr h)]
    generalize nmemb.toNat * size.toNat = product at hmul ⊢
    subst hmul
    rfl

theorem word_redzoneAlignedAlloc
    (hserves : sys.Serves (SizeT.request size (SizeT.effective alignment)).toNat) :
    SizeT.redzoneAlignedAlloc s alignment size file line sys =
      redzoneAlignedAlloc s alignment.toNat size.toNat file line sys := by
  unfold SizeT.redzoneAlignedAlloc redzoneAlignedAlloc
  rw [← wordIsPow2_eq]
  cases hpow : SizeT.isPow2 alignment with
  | false => simp
  | true =>
      obtain ⟨heq, hpow', hle, -⟩ := word_effective hpow
      rw [word_rzAllocate hpow' hle hserves, heq]

theorem word_redzonePosixMemalign {memptr : ℕ}
    (hserves : sys.Serves (SizeT.request size (SizeT.effective alignment)).toNat) :
    SizeT.redzonePosixMemalign s memptr alignment size file line sys =
      redzonePosixMemalign s memptr alignment.toNat size.toNat file line sys := by
  have hmod : (alignment % 8 != 0) = (alignment.toNat % 8 != 0) := by
    rw [Bool.eq_iff_iff, bne_iff_ne, bne_iff_ne, ne_eq, ← UInt64.toNat_inj, UInt64.toNat_mod]
    rfl
  unfold SizeT.redzonePosixMemalign redzonePosixMemalign
  rw [← wordIsPow2_eq, hmod]
  cases hpow : SizeT.isPow2 alignment with
  | false => simp
  | true =>
      obtain ⟨heq, hpow', hle, -⟩ := word_effective hpow
      have hcall : SizeT.rzAllocate s size (SizeT.effective alignment) file line sys =
          rzAllocate s size.toNat (SizeT.effective alignment).toNat file line sys :=
        word_rzAllocate hpow' hle hserves
      rw [heq] at hcall
      generalize SizeT.rzAllocate s size (SizeT.effective alignment) file line sys = result at hcall ⊢
      subst hcall
      rfl

end Refines

/-! ## Every outcome of an allocation -/

/-- The call returns, with `P` for its result and the state afterwards.  It ends the
process only where the table is full and cannot grow. -/
def Returns {α : Type} (s : Rt) (sys : Sys) (P : α → Rt → Prop) : Except Abort (α × Rt) → Prop
  | .ok (r, s') => P r s'
  | .error e => e = .outOfMemory ∧ s.blocks.length = s.cap ∧ sys.growOk = false

/-- `size` bytes at a multiple of `alignment` in the extent of `total` bytes at `base`, for
which `rz_allocate` was asked for `align`. -/
structure Geometry (base total size alignment align user : ℕ) : Prop where
  aligned : alignment ∣ user
  left : base + redzoneSize ≤ user
  right : user + size + redzoneSize ≤ base + total
  header_above : headerSize ≤ user
  header_left : base ≤ user - headerSize
  /-- The sums that the code forms are those of the integers. -/
  total_eq : total = size + 2 * redzoneSize + slackOf align
  rounded : base + redzoneSize + (align - 1) < wordSize
  top : base + total < wordSize

/-- The call has failed and left everything as it was, or the table has one more block,
laid out in the extent that the system has handed out. -/
def Outcome (s : Rt) (sys : Sys) (total size alignment align : ℕ) : Option ℕ → Rt → Prop
  | none, s' => s' = s
  | some user, s' => ∃ b, sys.malloc = some b.realBase ∧ s'.blocks = s.blocks ++ [b] ∧
    b.totalSize = total ∧ b.userAddr = user ∧ b.userSize = size ∧
    Geometry b.realBase total size alignment align user

section Outcomes

variable {s s' : Rt} {size align nmemb alignment : UInt64} {file : Option String} {line : ℤ}
  {sys : Sys} {total n a a' : ℕ}

theorem recordBlock_returns (s : Rt) (sys : Sys) (b : Block) :
    Returns s sys (fun idx s' => idx = s.blocks.length ∧ s'.blocks = s.blocks ++ [b])
      (recordBlock s b sys.growOk) := by
  unfold recordBlock
  split
  · rename_i hfull
    cases hgrow : sys.growOk with
    | true => exact ⟨rfl, rfl⟩
    | false => exact ⟨rfl, hfull, hgrow⟩
  · exact ⟨rfl, rfl⟩

/-- A block that is laid out for an alignment is laid out for its divisors. -/
theorem Outcome.of_dvd {r : Option ℕ} (h : Outcome s sys total n a a r s') (hdvd : a' ∣ a) :
    Outcome s sys total n a' a r s' := by
  cases r with
  | none => exact h
  | some user =>
      obtain ⟨b, hmalloc, hblocks, htotal, huser, hsize, hgeometry⟩ := h
      exact ⟨b, hmalloc, hblocks, htotal, huser, hsize,
        { hgeometry with aligned := hdvd.trans hgeometry.aligned }⟩

/-- Memory may change after an allocation. -/
theorem Outcome.write {user : ℕ} {mem : Bytes} (h : Outcome s sys total n a a' (some user) s') :
    Outcome s sys total n a a' (some user) { s' with mem := mem } := h

theorem rzAllocate_returns (s : Rt) (file : Option String) (line : ℤ)
    (hpow : isPow2 align.toNat = true) (halign : redzoneSize ≤ align.toNat)
    (hserves : sys.Serves (SizeT.request size align).toNat) :
    Returns s sys
      (Outcome s sys (SizeT.request size align).toNat size.toNat align.toNat align.toNat)
      (SizeT.rzAllocate s size align file line sys) := by
  rw [word_rzAllocate hpow halign hserves]
  unfold rzAllocate
  rw [← slackOf]
  simp only
  split
  · rfl
  · rename_i hfits
    have htotal := word_request_toNat hpow hfits
    rw [htotal] at hserves ⊢
    split
    · rfl
    · rename_i base hmalloc
      obtain ⟨hbase, htop⟩ := hserves base hmalloc
      obtain ⟨k, hk⟩ := isPow2_eq_true.mp hpow
      have hplaced := placed hk halign hbase htop.le
      have hrecord := recordBlock_returns s sys ⟨base,
        size.toNat + 2 * redzoneSize + slackOf align.toNat,
        clearLow ((base + redzoneSize + (align.toNat - 1)) % wordSize) align.toNat,
        size.toNat, false, file, line⟩
      split
      · rename_i e he
        rw [he] at hrecord
        exact hrecord
      · rename_i idx s₁ hok
        rw [hok] at hrecord
        refine ⟨_, hmalloc, hrecord.2, rfl, rfl, rfl, hplaced.aligned, hplaced.left,
          hplaced.right, ?_, ?_, rfl, hplaced.fits, htop⟩
        · exact (Nat.le_add_left ..).trans hplaced.left
        · exact Nat.le_sub_of_add_le hplaced.left

theorem redzoneMalloc_returns (s : Rt) (file : Option String) (line : ℤ)
    (hserves : sys.Serves (SizeT.request size 16).toNat) :
    Returns s sys (Outcome s sys (SizeT.request size 16).toNat size.toNat redzoneSize redzoneSize)
      (SizeT.redzoneMalloc s size file line sys) :=
  rzAllocate_returns s file line rfl le_rfl hserves

/-- The size of the block is the product of the integers. -/
theorem redzoneCalloc_returns (hserves : sys.Serves (SizeT.request (nmemb * size) 16).toNat) :
    Returns s sys
      (Outcome s sys (SizeT.request (nmemb * size) 16).toNat (nmemb.toNat * size.toNat)
        redzoneSize redzoneSize)
      (SizeT.redzoneCalloc s nmemb size file line sys) := by
  unfold SizeT.redzoneCalloc
  split
  · rfl
  · rename_i hbig
    have hmalloc := redzoneMalloc_returns s file line hserves
    rw [← word_mul_toNat hbig]
    split
    · rename_i e he
      rw [he] at hmalloc
      exact hmalloc
    · rename_i s₁ hok
      rw [hok] at hmalloc
      exact hmalloc
    · rename_i p s₁ hok
      rw [hok] at hmalloc
      exact hmalloc.write

theorem redzoneAlignedAlloc_returns
    (hserves : sys.Serves (SizeT.request size (SizeT.effective alignment)).toNat) :
    Returns s sys
      (Outcome s sys (SizeT.request size (SizeT.effective alignment)).toNat size.toNat
        alignment.toNat (SizeT.effective alignment).toNat)
      (SizeT.redzoneAlignedAlloc s alignment size file line sys) := by
  unfold SizeT.redzoneAlignedAlloc
  split
  · rfl
  · rename_i hpow
    obtain ⟨-, hpow', hle, hdvd⟩ := word_effective (by simpa using hpow)
    have halloc := rzAllocate_returns s file line hpow' hle hserves
    cases hresult : SizeT.rzAllocate s size (SizeT.effective alignment) file line sys with
    | error e =>
        rw [hresult] at halloc
        exact halloc
    | ok result =>
        rw [hresult] at halloc
        exact halloc.of_dvd hdvd

/-- The pointer is found at `memptr`. -/
theorem redzonePosixMemalign_returns {memptr : ℕ}
    (hserves : sys.Serves (SizeT.request size (SizeT.effective alignment)).toNat) :
    Returns s sys
      (fun rc s' => (rc ≠ 0 ∧ s' = s) ∨ (rc = 0 ∧
        Outcome s sys (SizeT.request size (SizeT.effective alignment)).toNat size.toNat
          alignment.toNat (SizeT.effective alignment).toNat (some (load64 s'.mem memptr)) s'))
      (SizeT.redzonePosixMemalign s memptr alignment size file line sys) := by
  unfold SizeT.redzonePosixMemalign
  split
  · exact Or.inl ⟨by decide, rfl⟩
  split
  · exact Or.inl ⟨by decide, rfl⟩
  · rename_i hpow
    simp only [Bool.or_eq_true, not_or] at hpow
    obtain ⟨-, hpow', hle, hdvd⟩ := word_effective (by simpa using hpow.1)
    have halloc := rzAllocate_returns s file line hpow' hle hserves
    split
    · rename_i e he
      rw [he] at halloc
      exact halloc
    · rename_i s₁ hok
      rw [hok] at halloc
      exact Or.inl ⟨by decide, halloc⟩
    · rename_i p s₁ hok
      rw [hok] at halloc
      have hword : p < wordSize := by
        obtain ⟨b, -, -, -, -, -, hgeometry⟩ := halloc
        have hright := hgeometry.right
        have htop := hgeometry.top
        omega
      refine Or.inr ⟨rfl, ?_⟩
      rw [load64_store64 hword]
      change Outcome _ _ _ _ _ _ (some p) s₁ at halloc
      exact (halloc.of_dvd hdvd).write

end Outcomes

/-- For all sizes and alignments, and every extent that the system hands out for the
request, the four allocators fail and change nothing, or return a user region that lies in
the extent with its red zones and its header, at a multiple of the alignment; no sum or
product on the way wraps. -/
theorem allocation_geometry (s : Rt) (size nmemb alignment : UInt64) (memptr : ℕ)
    (file : Option String) (line : ℤ) (sys : Sys) :
    (sys.Serves (SizeT.request size 16).toNat →
      Returns s sys (Outcome s sys (SizeT.request size 16).toNat size.toNat redzoneSize redzoneSize)
        (SizeT.redzoneMalloc s size file line sys)) ∧
    (sys.Serves (SizeT.request (nmemb * size) 16).toNat →
      Returns s sys
        (Outcome s sys (SizeT.request (nmemb * size) 16).toNat (nmemb.toNat * size.toNat)
          redzoneSize redzoneSize)
        (SizeT.redzoneCalloc s nmemb size file line sys)) ∧
    (sys.Serves (SizeT.request size (SizeT.effective alignment)).toNat →
      Returns s sys
        (Outcome s sys (SizeT.request size (SizeT.effective alignment)).toNat size.toNat
          alignment.toNat (SizeT.effective alignment).toNat)
        (SizeT.redzoneAlignedAlloc s alignment size file line sys) ∧
      Returns s sys
        (fun rc s' => (rc ≠ 0 ∧ s' = s) ∨ (rc = 0 ∧
          Outcome s sys (SizeT.request size (SizeT.effective alignment)).toNat size.toNat
            alignment.toNat (SizeT.effective alignment).toNat (some (load64 s'.mem memptr)) s'))
        (SizeT.redzonePosixMemalign s memptr alignment size file line sys)) :=
  ⟨redzoneMalloc_returns s file line, redzoneCalloc_returns, fun hserves =>
    ⟨redzoneAlignedAlloc_returns hserves, redzonePosixMemalign_returns hserves⟩⟩

/-- What holds of a call that is seen to return. -/
theorem Returns.of_value {α : Type} {s : Rt} {sys : Sys} {P : α → Rt → Prop}
    {result : Except Abort (α × Rt)} (h : Returns s sys P result) {r : α}
    (hvalue : result.toOption.map Prod.fst = some r) :
    ∃ s', result = .ok (r, s') ∧ P r s' := by
  cases result with
  | error e => simp [Except.toOption] at hvalue
  | ok x =>
      obtain rfl := Option.some.inj hvalue
      exact ⟨x.2, rfl, h⟩

/-- Requests of 100 bytes, of 7 times 100 bytes, and of 100 bytes at a multiple of 64, each
answered with the extent at `0x10000`: the pointers. -/
theorem allocation_geometry_answered :
    let sys : Sys := ⟨some 0x10000, true⟩
    (∃ s', SizeT.redzoneMalloc .initial 100 none 0 sys = .ok (some 0x10010, s') ∧
      Outcome .initial sys 132 100 16 16 (some 0x10010) s') ∧
    (∃ s', SizeT.redzoneCalloc .initial 7 100 none 0 sys = .ok (some 0x10010, s') ∧
      Outcome .initial sys 732 700 16 16 (some 0x10010) s') ∧
    (∃ s', SizeT.redzoneAlignedAlloc .initial 64 100 none 0 sys = .ok (some 0x10040, s') ∧
      Outcome .initial sys 196 100 64 64 (some 0x10040) s') ∧
    ∃ s', SizeT.redzonePosixMemalign .initial 0x5000 64 100 none 0 sys = .ok (0, s') ∧
      Outcome .initial sys 196 100 64 64 (some (load64 s'.mem 0x5000)) s' := by
  intro sys
  obtain ⟨hmalloc, hcalloc, haligned⟩ := allocation_geometry .initial 100 7 64 0x5000 none 0 sys
  obtain ⟨haligned, hposix⟩ := haligned (by decide)
  refine ⟨(hmalloc (by decide)).of_value rfl, (hcalloc (by decide)).of_value rfl,
    haligned.of_value rfl, ?_⟩
  obtain ⟨s', hok, houtcome⟩ := hposix.of_value (r := 0) rfl
  exact ⟨s', hok, (houtcome.resolve_left fun h => h.1 rfl).2⟩

/-- Where the table is full and cannot grow, the call neither fails nor returns a pointer: the
process ends. -/
theorem allocation_aborts_full :
    let sys : Sys := ⟨some 0x10000, false⟩
    sys.Serves (SizeT.request 100 16).toNat ∧
      ¬ ∃ r s', SizeT.redzoneMalloc .initial 100 none 0 sys = .ok (r, s') := by
  intro sys
  refine ⟨by decide, ?_⟩
  have habort : SizeT.redzoneMalloc .initial 100 none 0 sys = .error .outOfMemory := rfl
  rintro ⟨r, s', hok⟩
  rw [habort] at hok
  simp at hok

end Redzone.Shadow
