/-
  Shadow/StringOps.lean --- the wrappers of the memory and string functions of
  `runtime/redzone_rt.c`, and the ranges they hand to `__redzone_check`.

  A wrapper works out the ranges of the call that follows, checks them one after the
  other and then makes the call.  Which bytes the call reads, scans and stores is the
  business of the C library; what is shown here is how the ranges, each found by
  arithmetic of its own on `size_t`, lie to those bytes.

  The ranges of the destination are exact.  Those of the source cover what is read in
  all functions but one: `strncat` reads the null character that ends a short source, and
  its wrapper leaves it out, where that of `strncpy` has it.
-/
import Redzone.Foundation.CString
import Redzone.Shadow.Check

set_option autoImplicit false

namespace Redzone.Shadow

open Redzone.Foundation
open Redzone.Foundation.CString (Access Touches StringAt ScanFits strlen strnlen perform scanned)

/-! ## Checked ranges -/

/-- The arguments of one call of `__redzone_check`. -/
structure Range where
  addr : ℕ
  size : ℕ
  isWrite : Bool
  deriving DecidableEq, Repr

/-- A range that is about to be read. -/
def Range.source (a n : ℕ) : Range := ⟨a, n, false⟩

/-- A range that is about to be written. -/
def Range.dest (a n : ℕ) : Range := ⟨a, n, true⟩

/-- The byte at `x` lies in the range. -/
def Range.Has (r : Range) (x : ℕ) : Prop := r.addr ≤ x ∧ x < r.addr + r.size

/-- The ranges a wrapper checks, in order. -/
def Rt.checkAll (s : Rt) (file : Option String) (line : ℤ) : List Range → Except Abort Unit
  | [] => .ok ()
  | r :: rest => do
    redzoneCheck s r.addr r.size r.isWrite file line
    s.checkAll file line rest

/-- The shape of a wrapper: the checks, then the function of the C library. -/
def Rt.wrapped {α : Type} (s : Rt) (ranges : List Range) (accesses : List Access) (result : α)
    (file : Option String) (line : ℤ) : Except Abort (α × Rt) := do
  s.checkAll file line ranges
  return (result, { s with mem := perform s.mem accesses })

/-! ## The ranges of each wrapper -/

/-- The ranges of `__redzone_memcpy` and `__redzone_memmove`. -/
def memcpyRanges (dst src n : ℕ) : List Range := [.dest dst n, .source src n]

/-- The range of `__redzone_memset`. -/
def memsetRanges (dst n : ℕ) : List Range := [.dest dst n]

/-- The ranges of `__redzone_strcpy`. -/
def strcpyRanges (mem : Bytes) (dst src : ℕ) : List Range :=
  let n := (strlen mem src + 1) % wordSize
  [.source src n, .dest dst n]

/-- The ranges of `__redzone_strcat`. -/
def strcatRanges (mem : Bytes) (dst src : ℕ) : List Range :=
  let dl := strlen mem dst
  let sl := (strlen mem src + 1) % wordSize
  [.source src sl, .dest dst ((dl + sl) % wordSize)]

/-- The ranges of `__redzone_strncpy`. -/
def strncpyRanges (mem : Bytes) (dst src n : ℕ) : List Range :=
  let sl := strnlen mem src n
  [.dest dst n, .source src (if sl < n then (sl + 1) % wordSize else n)]

/-- The ranges of `__redzone_strncat`. -/
def strncatRanges (mem : Bytes) (dst src n : ℕ) : List Range :=
  let dl := strlen mem dst
  let sl := strnlen mem src n
  [.source src sl, .dest dst ((dl + sl + 1) % wordSize)]

/-- The ranges of `__redzone_strlcpy`. -/
def strlcpyRanges (mem : Bytes) (dst src n : ℕ) : List Range :=
  let sl := strlen mem src
  let wrote :=
    if n = 0 then 0
    else if (sl + 1) % wordSize ≤ n then (sl + 1) % wordSize else n
  .source src ((sl + 1) % wordSize) :: if wrote ≠ 0 then [.dest dst wrote] else []

/-- The ranges of `__redzone_strlcat`. -/
def strlcatRanges (mem : Bytes) (dst src n : ℕ) : List Range :=
  let sl := strlen mem src
  let dl := strnlen mem dst n
  let avail := if dl < n then n - dl else 0
  let wrote :=
    if avail = 0 then 0
    else if (sl + 1) % wordSize ≤ avail then (sl + 1) % wordSize else avail
  .source src ((sl + 1) % wordSize) ::
    if wrote ≠ 0 then [.dest ((dst + dl) % wordSize) wrote] else []

/-- `INT_MAX`. -/
abbrev intMax : ℕ := 2 ^ 31 - 1

/-- What `vsnprintf(NULL, 0, ...)` returns for a format that expands to `out`. -/
def formatLength (out : List UInt8) : ℤ :=
  if out.length ≤ intMax then out.length else -1

/-- The ranges of `__redzone_snprintf`. -/
def snprintfRanges (dst n : ℕ) (out : List UInt8) : List Range :=
  let len := formatLength out
  if 0 ≤ len then
    let want := (len.toNat + 1) % wordSize
    let wrote := if n = 0 then 0 else if want ≤ n then want else n
    if wrote ≠ 0 then [.dest dst wrote] else []
  else []

/-- The range of `__redzone_sprintf`. -/
def sprintfRanges (dst : ℕ) (out : List UInt8) : List Range :=
  let len := formatLength out
  if 0 ≤ len then [.dest dst ((len.toNat + 1) % wordSize)] else []

/-! ## The wrappers -/

section Wrappers

variable (s : Rt) (dst src n : ℕ) (out : List UInt8) (file : Option String) (line : ℤ)

/-- `__redzone_strcpy`. -/
def redzoneStrcpy : Except Abort (ℕ × Rt) :=
  s.wrapped (strcpyRanges s.mem dst src) (CString.strcpy s.mem dst src) dst file line

/-- `__redzone_strcat`. -/
def redzoneStrcat : Except Abort (ℕ × Rt) :=
  s.wrapped (strcatRanges s.mem dst src) (CString.strcat s.mem dst src) dst file line

/-- `__redzone_strncpy`. -/
def redzoneStrncpy : Except Abort (ℕ × Rt) :=
  s.wrapped (strncpyRanges s.mem dst src n) (CString.strncpy s.mem dst src n) dst file line

/-- `__redzone_strncat`. -/
def redzoneStrncat : Except Abort (ℕ × Rt) :=
  s.wrapped (strncatRanges s.mem dst src n) (CString.strncat s.mem dst src n) dst file line

/-- `__redzone_strlcpy`: returns the length of the source. -/
def redzoneStrlcpy : Except Abort (ℕ × Rt) :=
  s.wrapped (strlcpyRanges s.mem dst src n) (CString.strlcpy s.mem dst src n)
    (strlen s.mem src) file line

/-- `__redzone_strlcat`: returns the length of the string it tried to make. -/
def redzoneStrlcat : Except Abort (ℕ × Rt) :=
  s.wrapped (strlcatRanges s.mem dst src n) (CString.strlcat s.mem dst src n)
    ((strnlen s.mem dst n + strlen s.mem src) % wordSize) file line

/-- `__redzone_snprintf`, of a format that expands to `out`. -/
def redzoneSnprintf : Except Abort (ℤ × Rt) :=
  s.wrapped (snprintfRanges dst n out) (CString.vsnprintf dst out n) (formatLength out) file line

/-- `__redzone_sprintf`: the bound of the call is `(size_t)-1`. -/
def redzoneSprintf : Except Abort (ℤ × Rt) :=
  s.wrapped (sprintfRanges dst out) (CString.vsnprintf dst out sizeMax) (formatLength out)
    file line

end Wrappers

/-! ## Calls -/

/-- A call of one of the wrappers. -/
inductive StringCall where
  | memcpy (dst src n : ℕ)
  | memmove (dst src n : ℕ)
  | memset (dst : ℕ) (c : UInt8) (n : ℕ)
  | strcpy (dst src : ℕ)
  | strcat (dst src : ℕ)
  | strncpy (dst src n : ℕ)
  | strncat (dst src n : ℕ)
  | strlcpy (dst src n : ℕ)
  | strlcat (dst src n : ℕ)
  | snprintf (dst n : ℕ) (out : List UInt8)
  | sprintf (dst : ℕ) (out : List UInt8)

/-- The state a wrapper leaves. -/
def StringCall.redzone (s : Rt) (file : Option String) (line : ℤ) : StringCall → Except Abort Rt
  | .memcpy dst src n => Prod.snd <$> redzoneMemcpy s dst src n file line
  | .memmove dst src n => Prod.snd <$> redzoneMemmove s dst src n file line
  | .memset dst c n => Prod.snd <$> redzoneMemset s dst c n file line
  | .strcpy dst src => Prod.snd <$> redzoneStrcpy s dst src file line
  | .strcat dst src => Prod.snd <$> redzoneStrcat s dst src file line
  | .strncpy dst src n => Prod.snd <$> redzoneStrncpy s dst src n file line
  | .strncat dst src n => Prod.snd <$> redzoneStrncat s dst src n file line
  | .strlcpy dst src n => Prod.snd <$> redzoneStrlcpy s dst src n file line
  | .strlcat dst src n => Prod.snd <$> redzoneStrlcat s dst src n file line
  | .snprintf dst n out => Prod.snd <$> redzoneSnprintf s dst n out file line
  | .sprintf dst out => Prod.snd <$> redzoneSprintf s dst out file line

/-- The ranges that the wrapper hands to `__redzone_check`, in order. -/
def StringCall.ranges (mem : Bytes) : StringCall → List Range
  | .memcpy dst src n => memcpyRanges dst src n
  | .memmove dst src n => memcpyRanges dst src n
  | .memset dst _ n => memsetRanges dst n
  | .strcpy dst src => strcpyRanges mem dst src
  | .strcat dst src => strcatRanges mem dst src
  | .strncpy dst src n => strncpyRanges mem dst src n
  | .strncat dst src n => strncatRanges mem dst src n
  | .strlcpy dst src n => strlcpyRanges mem dst src n
  | .strlcat dst src n => strlcatRanges mem dst src n
  | .snprintf dst n out => snprintfRanges dst n out
  | .sprintf dst out => sprintfRanges dst out

/-- The accesses of the function of the C library. -/
def StringCall.accesses (mem : Bytes) : StringCall → List Access
  | .memcpy dst src n => CString.memcpy mem dst src n
  | .memmove dst src n => CString.memmove mem dst src n
  | .memset dst c n => CString.memset dst c n
  | .strcpy dst src => CString.strcpy mem dst src
  | .strcat dst src => CString.strcat mem dst src
  | .strncpy dst src n => CString.strncpy mem dst src n
  | .strncat dst src n => CString.strncat mem dst src n
  | .strlcpy dst src n => CString.strlcpy mem dst src n
  | .strlcat dst src n => CString.strlcat mem dst src n
  | .snprintf dst n out => CString.vsnprintf dst out n
  | .sprintf dst out => CString.vsnprintf dst out sizeMax

/-- Two intervals share no byte. -/
def Apart (a n b m : ℕ) : Prop := ∀ x, a ≤ x → x < a + n → ¬ (b ≤ x ∧ x < b + m)

/-- What the C library asks of a call: a bound is a `size_t`, what has to be a string is
one, what is appended to does not overlap what is appended, and a format expands. -/
def StringCall.Valid (mem : Bytes) : StringCall → Prop
  | .memcpy _ _ n | .memmove _ _ n | .memset _ _ n | .strncpy _ _ n => n < wordSize
  | .strcpy _ src => ∃ sl, StringAt mem src sl
  | .strcat dst src => ∃ dl sl, StringAt mem dst dl ∧ StringAt mem src sl ∧
      Apart dst (dl + 1) src (sl + 1)
  | .strncat dst src n => n < wordSize ∧ 0 < src ∧ ScanFits mem src n ∧
      ∃ dl, StringAt mem dst dl ∧ Apart dst (dl + 1) src (scanned mem src n)
  | .strlcpy _ src n => n < wordSize ∧ ∃ sl, StringAt mem src sl
  | .strlcat dst src n => n < wordSize ∧ ScanFits mem dst n ∧ ∃ sl, StringAt mem src sl
  | .snprintf _ n out => n < wordSize ∧ out.length ≤ intMax
  | .sprintf _ out => out.length ≤ intMax

/-! ## What the ranges are to the accesses -/

/-- The ranges for writing that have a byte.  `__redzone_check` returns at once from an
empty range. -/
def destRanges (ranges : List Range) : List Range :=
  ranges.filter fun r => r.isWrite && r.size != 0

/-- The ranges for writing are exact: none where nothing is stored, and otherwise one that
has every byte that is stored, ends with one, and has no byte that is not accessed. -/
inductive DestExact (ranges : List Range) (accesses : List Access) : Prop
  | unchecked (none : destRanges ranges = []) (nothing : ∀ a v, .store a v ∉ accesses)
  | checked (r : Range) (one : destRanges ranges = [r])
      (covers : ∀ a v, .store a v ∈ accesses → r.Has a)
      (last : ∃ v, .store (r.addr + r.size - 1) v ∈ accesses)
      (touched : ∀ x, r.Has x → .scan x ∈ accesses ∨ ∃ v, .store x v ∈ accesses)

/-- Every byte of the source that is read lies in a range for reading. -/
def SourceCovered (ranges : List Range) (accesses : List Access) : Prop :=
  ∀ a, .read a ∈ accesses → ∃ r ∈ ranges, r.isWrite = false ∧ r.Has a

section Ranges

variable {ranges : List Range} {accesses : List Access} {reads scans : Set ℕ} {a n d lo k : ℕ}

@[simp] theorem destRanges_nil : destRanges [] = [] := rfl

@[simp] theorem destRanges_source : destRanges (.source a n :: ranges) = destRanges ranges := rfl

@[simp] theorem destRanges_dest : destRanges (.dest a n :: ranges) =
    if n = 0 then destRanges ranges else .dest a n :: destRanges ranges := by
  by_cases hn : n = 0 <;> simp [destRanges, Range.dest, hn]

/-- Stores that fill an interval are met exactly by a range that ends with it, if what the
range has before them is scanned. -/
theorem destExact_of_touches (h : Touches accesses reads scans (Set.Ico lo (lo + k)))
    (hranges : destRanges ranges = if k = 0 then [] else [.dest d (lo + k - d)])
    (hle : d ≤ lo) (hscan : Set.Ico d lo ⊆ scans) : DestExact ranges accesses := by
  rcases Nat.eq_zero_or_pos k with rfl | hk
  · refine .unchecked hranges fun a v ha => ?_
    have hmem := (h.store a).mp ⟨v, ha⟩
    simp at hmem
  · rw [if_neg hk.ne'] at hranges
    refine .checked _ hranges (fun a v ha => ?_) ((h.store _).mpr ?_) fun x hx => ?_
    · have hmem := (h.store a).mp ⟨v, ha⟩
      simp only [Set.mem_Ico] at hmem
      simp only [Range.Has, Range.dest]
      omega
    · simp only [Set.mem_Ico, Range.dest]
      omega
    · simp only [Range.Has, Range.dest] at hx
      rcases Nat.lt_or_ge x lo with hlt | hge
      · exact .inl ((h.scan x).mpr (hscan ⟨hx.1, hlt⟩))
      · exact .inr ((h.store x).mpr ⟨hge, by omega⟩)

/-- Reads of an interval are covered by a range that starts with it and is as long. -/
theorem sourceCovered_of_touches {scans stores : Set ℕ} {src m : ℕ}
    (h : Touches accesses (Set.Ico src (src + m)) scans stores)
    (hrange : .source src n ∈ ranges) (hle : m ≤ n) : SourceCovered ranges accesses := by
  intro a ha
  have hmem := (h.read a).mp ha
  simp only [Set.mem_Ico] at hmem
  refine ⟨_, hrange, rfl, ?_⟩
  simp only [Range.Has, Range.source]
  omega

/-- Two disjoint intervals of addresses are no longer together than the address space. -/
theorem Apart.add_lt {a n b m : ℕ} (h : Apart a n b m) (ha : 0 < a) (hb : 0 < b)
    (han : a + n ≤ wordSize) (hbm : b + m ≤ wordSize) : n + m < wordSize := by
  rcases Nat.eq_zero_or_pos n with rfl | hn
  · omega
  rcases Nat.eq_zero_or_pos m with rfl | hm
  · omega
  rcases Nat.le_total a b with hab | hba
  · have hout := h b hab
    omega
  · have hout := h a (Nat.le_refl a) (by omega)
    omega

end Ranges

section Run

variable {s : Rt} {ranges : List Range} {accesses : List Access} {file : Option String} {line : ℤ}

/-- An empty range is not checked. -/
theorem redzoneCheck_empty {a : ℕ} {isWrite : Bool} :
    redzoneCheck s a 0 isWrite file line = .ok () := if_pos rfl

/-- The call is made after all checks, and only its stores change the state. -/
theorem Rt.wrapped_snd {α : Type} {result : α} :
    Prod.snd <$> s.wrapped ranges accesses result file line =
      (s.checkAll file line ranges).map fun _ => { s with mem := perform s.mem accesses } := by
  unfold Rt.wrapped
  cases s.checkAll file line ranges <;> rfl

theorem perform_memcpy {mem : Bytes} {dst src n : ℕ} :
    perform mem (CString.memcpy mem dst src n) = memmove mem dst src n :=
  funext fun _ => CString.perform_copyBytes

theorem perform_memset {mem : Bytes} {dst n : ℕ} {c : UInt8} :
    perform mem (CString.memset dst c n) = memset mem dst c n := by
  funext x
  unfold CString.memset memset
  rw [CString.perform_storeBytes, List.length_replicate]
  refine if_ctx_congr Iff.rfl (fun hx => ?_) fun _ => rfl
  rw [List.getD_eq_getElem?_getD, List.getElem?_replicate_of_lt (by omega), Option.getD_some]

/-- Every wrapper checks its ranges and makes its call. -/
theorem StringCall.redzone_eq (c : StringCall) : c.redzone s file line =
    (s.checkAll file line (c.ranges s.mem)).map
      fun _ => { s with mem := perform s.mem (c.accesses s.mem) } := by
  cases c with
  | memcpy dst src n =>
      simp only [redzone, StringCall.ranges, StringCall.accesses, redzoneMemcpy, perform_memcpy,
        memcpyRanges, Rt.checkAll, Range.dest, Range.source]
      cases redzoneCheck s dst n true file line with
      | error e => rfl
      | ok u => cases redzoneCheck s src n false file line <;> rfl
  | memmove dst src n =>
      have hmove : CString.memmove s.mem dst src n = CString.memcpy s.mem dst src n := rfl
      simp only [redzone, StringCall.ranges, StringCall.accesses, redzoneMemmove, hmove,
        perform_memcpy, memcpyRanges, Rt.checkAll, Range.dest, Range.source]
      cases redzoneCheck s dst n true file line with
      | error e => rfl
      | ok u => cases redzoneCheck s src n false file line <;> rfl
  | memset dst c n =>
      simp only [redzone, StringCall.ranges, StringCall.accesses, redzoneMemset, perform_memset,
        memsetRanges, Rt.checkAll, Range.dest]
      cases redzoneCheck s dst n true file line <;> rfl
  | strcpy dst src => exact Rt.wrapped_snd
  | strcat dst src => exact Rt.wrapped_snd
  | strncpy dst src n => exact Rt.wrapped_snd
  | strncat dst src n => exact Rt.wrapped_snd
  | strlcpy dst src n => exact Rt.wrapped_snd
  | strlcat dst src n => exact Rt.wrapped_snd
  | snprintf dst n out => exact Rt.wrapped_snd
  | sprintf dst out => exact Rt.wrapped_snd

end Run

/-! ## The length arithmetic -/

section Lengths

variable {mem : Bytes} {dst src n sl dl : ℕ} {out : List UInt8}

/-- The length of a string and its null character is a `size_t`. -/
theorem strlen_succ (h : StringAt mem src sl) : (strlen mem src + 1) % wordSize = sl + 1 := by
  have hfits := h.fits
  have hpos := h.nonnull
  rw [h.strlen]
  exact Nat.mod_eq_of_lt (by omega)

/-- The two lengths `strcat` adds are a `size_t` together. -/
theorem strcat_length (hd : StringAt mem dst dl) (hs : StringAt mem src sl)
    (hapart : Apart dst (dl + 1) src (sl + 1)) :
    (strlen mem dst + (strlen mem src + 1) % wordSize) % wordSize = dl + (sl + 1) := by
  have hdfits := hd.fits
  have hsfits := hs.fits
  have hsum := hapart.add_lt hd.nonnull hs.nonnull (by omega) (by omega)
  rw [strlen_succ hs, hd.strlen]
  exact Nat.mod_eq_of_lt (by omega)

theorem strncat_length (hd : StringAt mem dst dl) (hsrc : 0 < src) (hs : ScanFits mem src n)
    (hapart : Apart dst (dl + 1) src (scanned mem src n)) :
    (strlen mem dst + strnlen mem src n + 1) % wordSize = dl + (strnlen mem src n + 1) := by
  have hdfits := hd.fits
  have hle : strnlen mem src n ≤ n := CString.strnlen_le
  have hsum := hapart.add_lt hd.nonnull hsrc (by omega) hs
  have hscan : strnlen mem src n ≤ scanned mem src n := by
    unfold scanned
    omega
  rw [hd.strlen, Nat.add_assoc]
  exact Nat.mod_eq_of_lt (by omega)

/-- What `strncpy` reads of the source. -/
theorem strncpy_length (hn : n < wordSize) :
    (if strnlen mem src n < n then (strnlen mem src n + 1) % wordSize else n) =
      scanned mem src n := by
  have hle : strnlen mem src n ≤ n := CString.strnlen_le
  unfold scanned
  split
  · rw [Nat.mod_eq_of_lt (by omega)]
    omega
  · omega

/-- The `wrote` of the bounded functions. -/
theorem wrote_eq (len n : ℕ) :
    (if n = 0 then 0 else if len + 1 ≤ n then len + 1 else n) = min (len + 1) n := by
  split
  · omega
  · split <;> omega

theorem avail_eq : (if strnlen mem dst n < n then n - strnlen mem dst n else 0) =
    n - strnlen mem dst n := by
  split <;> omega

/-- The measured length of an expansion, with its null character. -/
theorem formatLength_eq (h : out.length ≤ intMax) : formatLength out = out.length := if_pos h

theorem formatLength_succ (h : out.length ≤ intMax) :
    (out.length + 1) % wordSize = out.length + 1 := by
  simp only [intMax, wordSize] at *
  omega

/-- `(size_t)-1` bounds no expansion. -/
theorem formatLength_unbounded (h : out.length ≤ intMax) :
    min (out.length + 1) sizeMax = out.length + 1 := by
  simp only [intMax, sizeMax, wordSize] at *
  omega

end Lengths

/-! ## The ranges of the destination -/

section Dest

variable {s : Rt}

/-- A range for writing passes the check if what is scanned and stored is addressable. -/
theorem DestExact.check_ok {ranges : List Range} {accesses : List Access}
    {file : Option String} {line : ℤ} (h : DestExact ranges accesses)
    (hin : ∀ x, (.scan x ∈ accesses ∨ ∃ v, .store x v ∈ accesses) →
      x < wordSize ∧ bytePoisoned s.shadow x = false) {r : Range} (hr : r ∈ ranges)
    (hwrite : r.isWrite = true) : redzoneCheck s r.addr r.size r.isWrite file line = .ok () := by
  rcases Nat.eq_zero_or_pos r.size with hzero | hpos
  · rw [hzero]
    exact redzoneCheck_empty
  · have hdest : r ∈ destRanges ranges :=
      List.mem_filter.mpr ⟨hr, by simp [hwrite, hpos.ne']⟩
    cases h with
    | unchecked none nothing =>
        rw [none] at hdest
        exact absurd hdest List.not_mem_nil
    | checked r' one covers last touched =>
        rw [one, List.mem_singleton] at hdest
        subst hdest
        obtain ⟨_, hfirst⟩ := hin _ (touched r.addr ⟨Nat.le_refl _, by omega⟩)
        obtain ⟨hword, hlast⟩ := hin _ (.inr last)
        rw [redzoneCheck_ok hpos, Nat.mod_eq_of_lt hword]
        exact ⟨hfirst, hlast⟩

/-- The ranges for writing of each wrapper. -/
theorem StringCall.destExact (c : StringCall) (h : c.Valid s.mem) :
    DestExact (c.ranges s.mem) (c.accesses s.mem) := by
  cases c with
  | memcpy dst src n =>
      exact destExact_of_touches CString.touches_copyBytes
        (by simp [StringCall.ranges, memcpyRanges]) (Nat.le_refl dst) (by simp)
  | memmove dst src n =>
      exact destExact_of_touches CString.touches_copyBytes
        (by simp [StringCall.ranges, memcpyRanges]) (Nat.le_refl dst) (by simp)
  | memset dst c n =>
      exact destExact_of_touches CString.touches_memset
        (by simp [StringCall.ranges, memsetRanges]) (Nat.le_refl dst) (by simp)
  | strcpy dst src =>
      obtain ⟨sl, hs⟩ := h
      exact destExact_of_touches (CString.touches_strcpy hs)
        (by simp [StringCall.ranges, strcpyRanges, strlen_succ hs]) (Nat.le_refl dst) (by simp)
  | strcat dst src =>
      obtain ⟨dl, sl, hd, hs, hapart⟩ := h
      -- the range starts with the string that is already there
      refine destExact_of_touches (d := dst) (CString.touches_strcat hd hs) ?_ (by omega) ?_
      · have hend : dst + dl + (sl + 1) - dst = dl + (sl + 1) := by omega
        simp [StringCall.ranges, strcatRanges, strcat_length hd hs hapart, hend]
      · exact Set.Ico_subset_Ico_right (by omega)
  | strncpy dst src n =>
      exact destExact_of_touches CString.touches_strncpy
        (by simp [StringCall.ranges, strncpyRanges]) (Nat.le_refl dst) (by simp)
  | strncat dst src n =>
      obtain ⟨hn, hsrc, hs, dl, hd, hapart⟩ := h
      refine destExact_of_touches (d := dst) (CString.touches_strncat hd) ?_ (by omega) ?_
      · have hend : dst + dl + (strnlen s.mem src n + 1) - dst =
            dl + (strnlen s.mem src n + 1) := by omega
        simp [StringCall.ranges, strncatRanges, strncat_length hd hsrc hs hapart, hend]
      · exact Set.Ico_subset_Ico_right (by omega)
  | strlcpy dst src n =>
      obtain ⟨hn, sl, hs⟩ := h
      refine destExact_of_touches (CString.touches_strlcpy hs) ?_ (Nat.le_refl dst) (by simp)
      simp only [StringCall.ranges, strlcpyRanges, destRanges_source, strlen_succ hs, wrote_eq]
      split
      · rename_i hwrote
        simp [hwrote]
      · rename_i hwrote
        simp [not_not.mp hwrote]
  | strlcat dst src n =>
      obtain ⟨hn, hfits, sl, hs⟩ := h
      refine destExact_of_touches (CString.touches_strlcat hs) ?_ (Nat.le_refl _) (by simp)
      simp only [StringCall.ranges, strlcatRanges, destRanges_source, strlen_succ hs, avail_eq,
        wrote_eq]
      split
      · rename_i hwrote
        -- a byte is left, so the scan has met the null character before the bound
        have haddr : (dst + strnlen s.mem dst n) % wordSize = dst + strnlen s.mem dst n := by
          unfold ScanFits scanned at hfits
          exact Nat.mod_eq_of_lt (by omega)
        simp [hwrote, haddr]
      · rename_i hwrote
        simp [not_not.mp hwrote]
  | snprintf dst n out =>
      obtain ⟨hn, hlen⟩ := h
      refine destExact_of_touches CString.touches_vsnprintf ?_ (Nat.le_refl dst) (by simp)
      simp only [StringCall.ranges, snprintfRanges, formatLength_eq hlen, Int.natCast_nonneg,
        if_true, Int.toNat_natCast, formatLength_succ hlen, wrote_eq]
      split
      · rename_i hwrote
        simp [hwrote]
      · rename_i hwrote
        simp [not_not.mp hwrote]
  | sprintf dst out =>
      have hlen : out.length ≤ intMax := h
      have htouch : Touches (CString.vsnprintf dst out sizeMax) ∅ ∅
          (Set.Ico dst (dst + min (out.length + 1) sizeMax)) := CString.touches_vsnprintf
      rw [formatLength_unbounded hlen] at htouch
      simp only [StringCall.accesses]
      refine destExact_of_touches htouch ?_ (Nat.le_refl dst) (by simp)
      simp [StringCall.ranges, sprintfRanges, formatLength_eq hlen, formatLength_succ hlen]

/-- Each wrapper hands to the check for writing exactly what its call stores: the wrapper
checks its ranges and makes the call, those for writing are exact, and they pass if the
call stays in bounds. -/
theorem StringCall.dest_ranges (c : StringCall) (file : Option String) (line : ℤ)
    (h : c.Valid s.mem) :
    c.redzone s file line = ((s.checkAll file line (c.ranges s.mem)).map
      fun _ => { s with mem := perform s.mem (c.accesses s.mem) }) ∧
    DestExact (c.ranges s.mem) (c.accesses s.mem) ∧
    ((∀ x, (.scan x ∈ c.accesses s.mem ∨ ∃ v, .store x v ∈ c.accesses s.mem) →
        x < wordSize ∧ bytePoisoned s.shadow x = false) →
      ∀ r ∈ c.ranges s.mem, r.isWrite = true →
        redzoneCheck s r.addr r.size r.isWrite file line = .ok ()) :=
  ⟨c.redzone_eq, c.destExact h, fun hin _ hr hwrite => (c.destExact h).check_ok hin hr hwrite⟩

/-- A source of one character that ends where a red zone starts, and an empty string to
append it to. -/
def shortSource : Rt where
  blocks := []
  cap := 0
  shadow := fun k => if k = 514 then rzPoison else 0
  mem := fun a => if a = 4111 then 65 else 0

theorem shortSource_dst : StringAt shortSource.mem 8192 0 :=
  ⟨by decide, by decide, by decide, fun i hi => absurd hi (Nat.not_lt_zero i)⟩

theorem shortSource_valid : (StringCall.strncat 8192 4111 5).Valid shortSource.mem := by
  refine ⟨by decide, by decide, by unfold ScanFits; decide, 0, shortSource_dst, ?_⟩
  intro x hx _ hin
  have hscan : scanned shortSource.mem 4111 5 = 2 := by decide
  omega

theorem dest_ranges_shortSource :
    (StringCall.strncat 8192 4111 5).Valid shortSource.mem ∧
    DestExact ((StringCall.strncat 8192 4111 5).ranges shortSource.mem)
      ((StringCall.strncat 8192 4111 5).accesses shortSource.mem) :=
  ⟨shortSource_valid,
    (StringCall.dest_ranges (.strncat 8192 4111 5) none 0 shortSource_valid).2.1⟩

end Dest

/-! ## The ranges of the source -/

section Source

variable {s : Rt}

/-- The call leaves no null character unchecked: all but `strncat` count it in, and
`strncat` meets none where the source fills the bound. -/
def StringCall.NulCounted (mem : Bytes) : StringCall → Prop
  | .strncat _ src n => ∀ i < n, mem (src + i) ≠ 0
  | _ => True

/-- What the wrapper of `strncat` checks of the source is what `strncat` reads, less the
null character. -/
theorem strncat_covered_iff {dst src n dl : ℕ} (hd : StringAt s.mem dst dl) :
    SourceCovered (strncatRanges s.mem dst src n) (CString.strncat s.mem dst src n) ↔
      scanned s.mem src n ≤ strnlen s.mem src n := by
  have htouch : Touches (CString.strncat s.mem dst src n) _ _ _ := CString.touches_strncat hd
  constructor
  · intro h
    by_contra hlt
    -- the last byte that is read
    have hread := (htouch.read (src + strnlen s.mem src n)).mpr
      (Set.mem_Ico.mpr ⟨by omega, by omega⟩)
    obtain ⟨r, hr, hsource, hhas⟩ := h _ hread
    rcases List.mem_pair.mp hr with rfl | rfl
    · simp only [Range.Has, Range.source] at hhas
      omega
    · exact absurd hsource (by simp [Range.dest])
  · intro h
    exact sourceCovered_of_touches htouch List.mem_cons_self h

/-- The ranges that the wrappers hand to the check for reading cover what is read, in all
calls but those of `strncat` whose source ends before the bound. -/
theorem StringCall.sourceCovered_iff (c : StringCall) (h : c.Valid s.mem) :
    SourceCovered (c.ranges s.mem) (c.accesses s.mem) ↔ c.NulCounted s.mem := by
  cases c with
  | memcpy dst src n =>
      exact iff_of_true (sourceCovered_of_touches CString.touches_copyBytes
        (List.mem_cons_of_mem _ List.mem_cons_self) (Nat.le_refl n)) trivial
  | memmove dst src n =>
      exact iff_of_true (sourceCovered_of_touches CString.touches_copyBytes
        (List.mem_cons_of_mem _ List.mem_cons_self) (Nat.le_refl n)) trivial
  | memset dst c n =>
      refine iff_of_true (fun a ha => ?_) trivial
      exact absurd ((CString.touches_memset.read a).mp ha) (Set.notMem_empty a)
  | strcpy dst src =>
      obtain ⟨sl, hs⟩ := h
      exact iff_of_true (sourceCovered_of_touches (CString.touches_strcpy hs)
        List.mem_cons_self (strlen_succ hs).ge) trivial
  | strcat dst src =>
      obtain ⟨dl, sl, hd, hs, hapart⟩ := h
      exact iff_of_true (sourceCovered_of_touches (CString.touches_strcat hd hs)
        List.mem_cons_self (strlen_succ hs).ge) trivial
  | strncpy dst src n =>
      exact iff_of_true (sourceCovered_of_touches CString.touches_strncpy
        (List.mem_cons_of_mem _ List.mem_cons_self) (strncpy_length h).ge) trivial
  | strncat dst src n =>
      obtain ⟨hn, hsrc, hs, dl, hd, hapart⟩ := h
      refine (strncat_covered_iff hd).trans (Iff.trans ?_ CString.strnlen_eq_bound)
      have hle : strnlen s.mem src n ≤ n := CString.strnlen_le
      unfold scanned
      omega
  | strlcpy dst src n =>
      obtain ⟨hn, sl, hs⟩ := h
      exact iff_of_true (sourceCovered_of_touches (CString.touches_strlcpy hs)
        List.mem_cons_self (strlen_succ hs).ge) trivial
  | strlcat dst src n =>
      obtain ⟨hn, hfits, sl, hs⟩ := h
      exact iff_of_true (sourceCovered_of_touches (CString.touches_strlcat hs)
        List.mem_cons_self (strlen_succ hs).ge) trivial
  | snprintf dst n out =>
      refine iff_of_true (fun a ha => ?_) trivial
      exact absurd ((CString.touches_vsnprintf.read a).mp ha) (Set.notMem_empty a)
  | sprintf dst out =>
      refine iff_of_true (fun a ha => ?_) trivial
      simp only [StringCall.accesses] at ha
      exact absurd ((CString.touches_vsnprintf.read a).mp ha) (Set.notMem_empty a)

theorem sourceCovered_shortSource :
    (StringCall.strncat 8192 4111 5).Valid shortSource.mem ∧
    (SourceCovered ((StringCall.strncat 8192 4111 5).ranges shortSource.mem)
      ((StringCall.strncat 8192 4111 5).accesses shortSource.mem) ↔
      (StringCall.strncat 8192 4111 5).NulCounted shortSource.mem) :=
  ⟨shortSource_valid, StringCall.sourceCovered_iff (.strncat 8192 4111 5) shortSource_valid⟩

/-- `strncat` reads the null character in the red zone, and its wrapper reports nothing;
that of `strncpy` reports the same source. -/
theorem strncat_misses_nul :
    (StringCall.strncat 8192 4111 5).Valid shortSource.mem ∧
    .read 4112 ∈ (StringCall.strncat 8192 4111 5).accesses shortSource.mem ∧
    bytePoisoned shortSource.shadow 4112 = true ∧
    ¬ SourceCovered ((StringCall.strncat 8192 4111 5).ranges shortSource.mem)
      ((StringCall.strncat 8192 4111 5).accesses shortSource.mem) ∧
    shortSource.checkAll none 0 ((StringCall.strncat 8192 4111 5).ranges shortSource.mem) = .ok () ∧
    shortSource.checkAll none 0 ((StringCall.strncpy 8192 4111 5).ranges shortSource.mem) ≠
      .ok () := by
  have hranges : (StringCall.strncat 8192 4111 5).ranges shortSource.mem =
      [.source 4111 1, .dest 8192 2] := by
    simp only [StringCall.ranges, strncatRanges, shortSource_dst.strlen]
    decide
  refine ⟨shortSource_valid, ?_, by decide, ?_, ?_, by decide⟩
  · exact ((CString.touches_strncat shortSource_dst).read 4112).mpr (by decide)
  · exact fun h => absurd ((strncat_covered_iff shortSource_dst).mp h) (by decide)
  · rw [hranges]
    decide

end Source

end Redzone.Shadow
