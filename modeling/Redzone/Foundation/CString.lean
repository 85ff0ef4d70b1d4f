/-
  Foundation/CString.lean --- the byte accesses of the C string and memory functions.

  Memory is a function from addresses to bytes.  A function of `<string.h>` is the list
  of its byte accesses in the words of its specification: the bytes of the source that
  it reads, the bytes of the destination that it looks at to find the end of a string,
  and the bytes it stores.  What it does to memory is what its stores do.

  The specifications share three loops: copying `n` bytes, filling `n` bytes, and copying
  characters up to a null character.  The bytes of each are intervals, and every
  function is one of the loops with at most a null character after it.
-/
import Redzone.Foundation.Word

set_option autoImplicit false

namespace Redzone.Foundation.CString

/-! ## Accesses -/

/-- An access to one byte. -/
inductive Access where
  /-- A byte of the source is read. -/
  | read (a : ℕ)
  /-- A byte of the destination is looked at. -/
  | scan (a : ℕ)
  /-- A byte of the destination is stored. -/
  | store (a : ℕ) (v : UInt8)
  deriving DecidableEq, Repr

/-- What one access does to memory. -/
def Access.apply (mem : ℕ → UInt8) : Access → ℕ → UInt8
  | .store a v => Function.update mem a v
  | _ => mem

/-- What a list of accesses does to memory. -/
def perform (mem : ℕ → UInt8) (accesses : List Access) : ℕ → UInt8 :=
  accesses.foldl Access.apply mem

/-- The bytes that a list of accesses reads, scans and stores. -/
structure Touches (accesses : List Access) (reads scans stores : Set ℕ) : Prop where
  read : ∀ a, .read a ∈ accesses ↔ a ∈ reads
  scan : ∀ a, .scan a ∈ accesses ↔ a ∈ scans
  store : ∀ a, (∃ v, .store a v ∈ accesses) ↔ a ∈ stores

section Touches

variable {l l' : List Access} {r r' s s' w w' : Set ℕ}

theorem Touches.nil : Touches [] ∅ ∅ ∅ :=
  ⟨fun _ => by simp, fun _ => by simp, fun _ => by simp⟩

theorem Touches.consRead (h : Touches l r s w) (b : ℕ) :
    Touches (.read b :: l) (insert b r) s w :=
  ⟨fun a => by simp [h.read], fun a => by simp [h.scan], fun a => by simp [h.store]⟩

theorem Touches.consScan (h : Touches l r s w) (b : ℕ) :
    Touches (.scan b :: l) r (insert b s) w :=
  ⟨fun a => by simp [h.read], fun a => by simp [h.scan], fun a => by simp [h.store]⟩

theorem Touches.consStore (h : Touches l r s w) (b : ℕ) (v : UInt8) :
    Touches (.store b v :: l) r s (insert b w) :=
  ⟨fun a => by simp [h.read], fun a => by simp [h.scan],
    fun a => by simp [exists_or, h.store]⟩

theorem Touches.append (h : Touches l r s w) (h' : Touches l' r' s' w') :
    Touches (l ++ l') (r ∪ r') (s ∪ s') (w ∪ w') :=
  ⟨fun a => by simp [h.read, h'.read], fun a => by simp [h.scan, h'.scan],
    fun a => by simp [exists_or, h.store, h'.store]⟩

theorem Touches.congr (h : Touches l r s w) (hr : r = r') (hs : s = s') (hw : w = w') :
    Touches l r' s' w' := by
  subst hr hs hw
  exact h

/-- An interval from its first byte on. -/
theorem insert_Ico_succ (p n : ℕ) :
    insert p (Set.Ico (p + 1) (p + 1 + n)) = Set.Ico p (p + (n + 1)) := by
  ext a
  simp only [Set.mem_insert_iff, Set.mem_Ico]
  omega

/-- Two intervals, one where the other ends. -/
theorem Ico_union_end (p n m : ℕ) :
    Set.Ico p (p + n) ∪ Set.Ico (p + n) (p + n + m) = Set.Ico p (p + (n + m)) := by
  rw [← Nat.add_assoc]
  exact Set.Ico_union_Ico_eq_Ico (Nat.le_add_right _ _) (Nat.le_add_right _ _)

theorem Ico_singleton (p : ℕ) : Set.Ico p (p + 1) = {p} := by
  ext a
  simp only [Set.mem_Ico, Set.mem_singleton_iff]
  omega

end Touches

/-! ## The length of a string -/

/-- `strnlen`: the characters before the first null character, of `n` at most. -/
def strnlen (mem : ℕ → UInt8) (p : ℕ) : ℕ → ℕ
  | 0 => 0
  | n + 1 => if mem p = 0 then 0 else strnlen mem (p + 1) n + 1

/-- `strlen`: as `strnlen`, bounded by the address space only. -/
def strlen (mem : ℕ → UInt8) (p : ℕ) : ℕ := strnlen mem p (wordSize - p)

/-- The bytes a bounded scan looks at: the characters, and the null character that
stops it before the bound. -/
def scanned (mem : ℕ → UInt8) (p n : ℕ) : ℕ := min (strnlen mem p n + 1) n

/-- A string in memory: a null character after `len` others, all at addresses. -/
structure StringAt (mem : ℕ → UInt8) (p len : ℕ) : Prop where
  nonnull : 0 < p
  fits : p + len < wordSize
  nul : mem (p + len) = 0
  before : ∀ i < len, mem (p + i) ≠ 0

/-- The bytes a scan bounded by `n` looks at are in memory. -/
def ScanFits (mem : ℕ → UInt8) (p n : ℕ) : Prop := p + scanned mem p n ≤ wordSize

section Length

variable {mem : ℕ → UInt8} {p n len : ℕ}

theorem strnlen_le : strnlen mem p n ≤ n := by
  induction n generalizing p with
  | zero => exact Nat.le_refl 0
  | succ n ih =>
      unfold strnlen
      split
      · exact Nat.zero_le _
      · exact Nat.succ_le_succ ih

/-- No character that is counted is null. -/
theorem strnlen_before {i : ℕ} (hi : i < strnlen mem p n) : mem (p + i) ≠ 0 := by
  induction n generalizing p i with
  | zero => exact absurd hi (Nat.not_lt_zero i)
  | succ n ih =>
      unfold strnlen at hi
      split at hi
      · exact absurd hi (Nat.not_lt_zero i)
      · rename_i hne
        cases i with
        | zero => exact hne
        | succ i =>
            have h := ih (p := p + 1) (Nat.lt_of_succ_lt_succ hi)
            rwa [show p + (i + 1) = p + 1 + i by omega]

/-- A count below its bound stops at a null character. -/
theorem strnlen_nul (h : strnlen mem p n < n) : mem (p + strnlen mem p n) = 0 := by
  induction n generalizing p with
  | zero => exact absurd h (Nat.not_lt_zero _)
  | succ n ih =>
      unfold strnlen at h ⊢
      by_cases hnul : mem p = 0
      · simp [hnul]
      · rw [if_neg hnul] at h ⊢
        have hnext := ih (p := p + 1) (Nat.lt_of_succ_lt_succ h)
        rwa [show p + (strnlen mem (p + 1) n + 1) = p + 1 + strnlen mem (p + 1) n by omega]

/-- The count is the bound exactly when no null character lies below it. -/
theorem strnlen_eq_bound : strnlen mem p n = n ↔ ∀ i < n, mem (p + i) ≠ 0 := by
  constructor
  · intro h i hi
    exact strnlen_before (h.symm ▸ hi)
  · intro h
    by_contra hne
    exact h _ (lt_of_le_of_ne strnlen_le hne) (strnlen_nul (lt_of_le_of_ne strnlen_le hne))

/-- A bounded count of a string in memory. -/
theorem StringAt.strnlen (h : StringAt mem p len) (n : ℕ) :
    strnlen mem p n = min len n := by
  have hle : CString.strnlen mem p n ≤ n := strnlen_le
  rcases Nat.lt_trichotomy (CString.strnlen mem p n) (min len n) with hlt | heq | hgt
  · have hnul : mem (p + CString.strnlen mem p n) = 0 := strnlen_nul (by omega)
    exact absurd hnul (h.before _ (by omega))
  · exact heq
  · have hne : mem (p + len) ≠ 0 := strnlen_before (n := n) (by omega)
    exact absurd h.nul hne

/-- The length of a string in memory is the one `strlen` counts. -/
theorem StringAt.strlen (h : StringAt mem p len) : strlen mem p = len := by
  have hfits := h.fits
  unfold CString.strlen
  rw [h.strnlen]
  exact Nat.min_eq_left (by omega)

end Length

/-! ## The loops -/

/-- Copying `n` bytes. -/
def copyBytes (mem : ℕ → UInt8) (dst src : ℕ) : ℕ → List Access
  | 0 => []
  | n + 1 => .read src :: .store dst (mem src) :: copyBytes mem (dst + 1) (src + 1) n

/-- Storing the bytes of a list. -/
def storeBytes (dst : ℕ) : List UInt8 → List Access
  | [] => []
  | v :: out => .store dst v :: storeBytes (dst + 1) out

/-- Copying characters up to a null character, `n` at most.  The null character is read
and not stored. -/
def copyChars (mem : ℕ → UInt8) (dst src : ℕ) : ℕ → List Access
  | 0 => []
  | n + 1 =>
      if mem src = 0 then [.read src]
      else .read src :: .store dst (mem src) :: copyChars mem (dst + 1) (src + 1) n

/-- Looking for the end of a string of the destination, in `n` bytes at most. -/
def scanChars (mem : ℕ → UInt8) (p : ℕ) : ℕ → List Access
  | 0 => []
  | n + 1 => if mem p = 0 then [.scan p] else .scan p :: scanChars mem (p + 1) n

/-- Looking for the end of a string of the source, in `n` bytes at most. -/
def readChars (mem : ℕ → UInt8) (p : ℕ) : ℕ → List Access
  | 0 => []
  | n + 1 => if mem p = 0 then [.read p] else .read p :: readChars mem (p + 1) n

section Loops

variable {mem : ℕ → UInt8} {dst src p n : ℕ} {out : List UInt8}

theorem scanned_zero : scanned mem p 0 = 0 := Nat.min_zero _

theorem scanned_succ (n : ℕ) :
    scanned mem p (n + 1) = if mem p = 0 then 1 else scanned mem (p + 1) n + 1 := by
  unfold scanned
  rw [strnlen]
  split
  · exact Nat.min_eq_left (by omega)
  · omega

theorem touches_copyBytes : Touches (copyBytes mem dst src n)
    (Set.Ico src (src + n)) ∅ (Set.Ico dst (dst + n)) := by
  induction n generalizing dst src with
  | zero => exact Touches.nil.congr (by simp) rfl (by simp)
  | succ n ih =>
      exact ((ih.consStore dst (mem src)).consRead src).congr (insert_Ico_succ src n) rfl
        (insert_Ico_succ dst n)

theorem touches_storeBytes : Touches (storeBytes dst out)
    ∅ ∅ (Set.Ico dst (dst + out.length)) := by
  induction out generalizing dst with
  | nil => exact Touches.nil.congr rfl rfl (by simp)
  | cons v out ih => exact (ih.consStore dst v).congr rfl rfl (insert_Ico_succ dst out.length)

/-- The characters before the null character are stored; it is read with them where it
lies below the bound. -/
theorem touches_copyChars : Touches (copyChars mem dst src n)
    (Set.Ico src (src + scanned mem src n)) ∅ (Set.Ico dst (dst + strnlen mem src n)) := by
  induction n generalizing dst src with
  | zero => exact Touches.nil.congr (by simp [scanned_zero]) rfl (by simp [strnlen])
  | succ n ih =>
      rw [scanned_succ, strnlen]
      unfold copyChars
      split
      · exact (Touches.nil.consRead src).congr (by simp [Ico_singleton]) rfl (by simp)
      · exact ((ih.consStore dst (mem src)).consRead src).congr (insert_Ico_succ src _) rfl
          (insert_Ico_succ dst _)

theorem touches_scanChars : Touches (scanChars mem p n)
    ∅ (Set.Ico p (p + scanned mem p n)) ∅ := by
  induction n generalizing p with
  | zero => exact Touches.nil.congr rfl (by simp [scanned_zero]) rfl
  | succ n ih =>
      rw [scanned_succ]
      unfold scanChars
      split
      · exact (Touches.nil.consScan p).congr rfl (by simp [Ico_singleton]) rfl
      · exact (ih.consScan p).congr rfl (insert_Ico_succ p _) rfl

theorem touches_readChars : Touches (readChars mem p n)
    (Set.Ico p (p + scanned mem p n)) ∅ ∅ := by
  induction n generalizing p with
  | zero => exact Touches.nil.congr (by simp [scanned_zero]) rfl rfl
  | succ n ih =>
      rw [scanned_succ]
      unfold readChars
      split
      · exact (Touches.nil.consRead p).congr (by simp [Ico_singleton]) rfl rfl
      · exact (ih.consRead p).congr (insert_Ico_succ p _) rfl rfl

/-- What the stores of a list do to memory. -/
theorem perform_storeBytes {m : ℕ → UInt8} {x : ℕ} : perform m (storeBytes dst out) x =
    if dst ≤ x ∧ x < dst + out.length then out.getD (x - dst) 0 else m x := by
  induction out generalizing dst m with
  | nil => simp [storeBytes, perform]
  | cons v out ih =>
      have hcons : perform m (storeBytes dst (v :: out)) =
          perform (Function.update m dst v) (storeBytes (dst + 1) out) := rfl
      rw [hcons, ih, List.length_cons]
      rcases Nat.lt_trichotomy x dst with hlt | rfl | hgt
      · rw [if_neg (by omega), if_neg (by omega), Function.update_of_ne hlt.ne]
      · rw [if_neg (by omega), if_pos (by omega), Function.update_self]
        simp
      · by_cases hin : x < dst + (out.length + 1)
        · rw [if_pos (by omega), if_pos (by omega)]
          rw [show x - dst = x - (dst + 1) + 1 by omega, List.getD_cons_succ]
        · rw [if_neg (by omega), if_neg (by omega), Function.update_of_ne hgt.ne']

/-- Copying stores what the source held before. -/
theorem perform_copyBytes {m : ℕ → UInt8} {x : ℕ} : perform m (copyBytes mem dst src n) x =
    if dst ≤ x ∧ x < dst + n then mem (src + (x - dst)) else m x := by
  induction n generalizing dst src m with
  | zero => simp [copyBytes, perform]
  | succ n ih =>
      have hcons : perform m (copyBytes mem dst src (n + 1)) =
          perform (Function.update m dst (mem src)) (copyBytes mem (dst + 1) (src + 1) n) := rfl
      rw [hcons, ih]
      rcases Nat.lt_trichotomy x dst with hlt | rfl | hgt
      · rw [if_neg (by omega), if_neg (by omega), Function.update_of_ne hlt.ne]
      · rw [if_neg (by omega), if_pos (by omega), Function.update_self]
        simp
      · by_cases hin : x < dst + (n + 1)
        · rw [if_pos (by omega), if_pos (by omega)]
          congr 1
          omega
        · rw [if_neg (by omega), if_neg (by omega), Function.update_of_ne hgt.ne']

end Loops

/-! ## The functions -/

/-- `memcpy`: copies `n` bytes. -/
def memcpy (mem : ℕ → UInt8) (dst src n : ℕ) : List Access := copyBytes mem dst src n

/-- `memmove`: as if the `n` bytes were first copied into a temporary. -/
def memmove (mem : ℕ → UInt8) (dst src n : ℕ) : List Access := copyBytes mem dst src n

/-- `memset`: stores the byte `c` into each of the first `n` bytes. -/
def memset (dst : ℕ) (c : UInt8) (n : ℕ) : List Access :=
  storeBytes dst (List.replicate n c)

/-- `strcpy`: copies the string with its null character. -/
def strcpy (mem : ℕ → UInt8) (dst src : ℕ) : List Access :=
  copyChars mem dst src (wordSize - src) ++ [.store (dst + strlen mem src) 0]

/-- `strcat`: a copy of the string, with its null character, to the end of the string at
`dst`, whose null character the first byte replaces. -/
def strcat (mem : ℕ → UInt8) (dst src : ℕ) : List Access :=
  scanChars mem dst (wordSize - dst) ++ strcpy mem (dst + strlen mem dst) src

/-- `strncpy`: `n` characters at most; null characters follow a shorter string until `n`
in all have been stored. -/
def strncpy (mem : ℕ → UInt8) (dst src n : ℕ) : List Access :=
  copyChars mem dst src n ++
    storeBytes (dst + strnlen mem src n) (List.replicate (n - strnlen mem src n) 0)

/-- `strncat`: `n` characters at most to the end of the string at `dst`, and always a null
character after them. -/
def strncat (mem : ℕ → UInt8) (dst src n : ℕ) : List Access :=
  scanChars mem dst (wordSize - dst) ++
    (copyChars mem (dst + strlen mem dst) src n ++
      [.store (dst + strlen mem dst + strnlen mem src n) 0])

/-- `n` bytes that get a string: `n - 1` characters at most and a null character, nothing
if `n` is 0. -/
def copyBounded (mem : ℕ → UInt8) (dst src : ℕ) : ℕ → List Access
  | 0 => []
  | n + 1 => copyChars mem dst src n ++ [.store (dst + strnlen mem src n) 0]

/-- `strlcpy`: a bounded copy.  It returns the length of `src`, whatever `n` is. -/
def strlcpy (mem : ℕ → UInt8) (dst src n : ℕ) : List Access :=
  readChars mem src (wordSize - src) ++ copyBounded mem dst src n

/-- `strlcat`: a bounded copy to the end of the string at `dst`, if `n` bytes have its
end.  It returns the sum of the lengths, whatever `n` is. -/
def strlcat (mem : ℕ → UInt8) (dst src n : ℕ) : List Access :=
  readChars mem src (wordSize - src) ++
    (scanChars mem dst n ++
      copyBounded mem (dst + strnlen mem dst n) src (n - strnlen mem dst n))

/-- `vsnprintf`, of a format that expands to the bytes `out`: `n - 1` of them at most and
a null character, nothing if `n` is 0. -/
def vsnprintf (dst : ℕ) (out : List UInt8) : ℕ → List Access
  | 0 => []
  | n + 1 => storeBytes dst (out.take n) ++ [.store (dst + min out.length n) 0]

section Functions

variable {mem : ℕ → UInt8} {dst src n len : ℕ} {out : List UInt8} {c : UInt8}

theorem touches_nul (a : ℕ) : Touches [.store a 0] ∅ ∅ (Set.Ico a (a + 1)) :=
  (Touches.nil.consStore a 0).congr rfl rfl (by simp [Ico_singleton])

/-- A string is looked at as far as its null character. -/
theorem StringAt.scanned (h : StringAt mem src len) :
    scanned mem src (wordSize - src) = len + 1 := by
  have hlen : CString.strnlen mem src (wordSize - src) = len := h.strlen
  have hfits := h.fits
  unfold CString.scanned
  omega

theorem touches_memset : Touches (memset dst c n) ∅ ∅ (Set.Ico dst (dst + n)) :=
  touches_storeBytes.congr rfl rfl (by rw [List.length_replicate])

theorem touches_strcpy (h : StringAt mem src len) : Touches (strcpy mem dst src)
    (Set.Ico src (src + (len + 1))) ∅ (Set.Ico dst (dst + (len + 1))) := by
  have hlen : strnlen mem src (wordSize - src) = len := h.strlen
  unfold strcpy
  rw [h.strlen]
  refine (touches_copyChars.append (touches_nul _)).congr ?_ (Set.union_empty _) ?_
  · rw [Set.union_empty, h.scanned]
  · rw [hlen, Ico_union_end]

theorem touches_strcat {dl : ℕ} (hdst : StringAt mem dst dl) (hsrc : StringAt mem src len) :
    Touches (strcat mem dst src) (Set.Ico src (src + (len + 1)))
      (Set.Ico dst (dst + (dl + 1))) (Set.Ico (dst + dl) (dst + dl + (len + 1))) := by
  unfold strcat
  rw [hdst.strlen]
  refine (touches_scanChars.append (touches_strcpy hsrc)).congr (Set.empty_union _) ?_
    (Set.empty_union _)
  rw [Set.union_empty, hdst.scanned]

theorem touches_strncpy : Touches (strncpy mem dst src n)
    (Set.Ico src (src + scanned mem src n)) ∅ (Set.Ico dst (dst + n)) := by
  refine (touches_copyChars.append touches_storeBytes).congr (Set.union_empty _)
    (Set.union_empty _) ?_
  rw [List.length_replicate, Ico_union_end, Nat.add_sub_cancel' strnlen_le]

theorem touches_strncat {dl : ℕ} (hdst : StringAt mem dst dl) : Touches (strncat mem dst src n)
    (Set.Ico src (src + scanned mem src n)) (Set.Ico dst (dst + (dl + 1)))
    (Set.Ico (dst + dl) (dst + dl + (strnlen mem src n + 1))) := by
  unfold strncat
  rw [hdst.strlen]
  refine (touches_scanChars.append (touches_copyChars.append (touches_nul _))).congr ?_ ?_ ?_
  · rw [Set.empty_union, Set.union_empty]
  · rw [Set.union_empty, Set.union_empty, hdst.scanned]
  · rw [Set.empty_union, Ico_union_end]

/-- A bounded copy reads no further than the string goes. -/
theorem touches_copyBounded (h : StringAt mem src len) (dst n : ℕ) :
    ∃ reads ⊆ Set.Ico src (src + (len + 1)),
    Touches (copyBounded mem dst src n) reads ∅ (Set.Ico dst (dst + min (len + 1) n)) := by
  cases n with
  | zero => exact ⟨∅, Set.empty_subset _, Touches.nil.congr rfl rfl (by simp)⟩
  | succ n =>
      have hlen := h.strnlen n
      refine ⟨_, ?_, (touches_copyChars.append (touches_nul _)).congr rfl (Set.union_empty _) ?_⟩
      · rw [Set.union_empty]
        refine Set.Ico_subset_Ico_right ?_
        unfold scanned
        omega
      · rw [Ico_union_end, hlen]
        congr 2
        omega

theorem touches_strlcpy (h : StringAt mem src len) : Touches (strlcpy mem dst src n)
    (Set.Ico src (src + (len + 1))) ∅ (Set.Ico dst (dst + min (len + 1) n)) := by
  obtain ⟨reads, hreads, hcopy⟩ := touches_copyBounded h dst n
  refine (touches_readChars.append hcopy).congr ?_ (Set.union_empty _) (Set.empty_union _)
  rw [h.scanned, Set.union_eq_left.mpr hreads]

theorem touches_strlcat (h : StringAt mem src len) : Touches (strlcat mem dst src n)
    (Set.Ico src (src + (len + 1))) (Set.Ico dst (dst + scanned mem dst n))
    (Set.Ico (dst + strnlen mem dst n)
      (dst + strnlen mem dst n + min (len + 1) (n - strnlen mem dst n))) := by
  obtain ⟨reads, hreads, hcopy⟩ :=
    touches_copyBounded h (dst + strnlen mem dst n) (n - strnlen mem dst n)
  refine (touches_readChars.append (touches_scanChars.append hcopy)).congr ?_ ?_ ?_
  · rw [Set.empty_union, h.scanned, Set.union_eq_left.mpr hreads]
  · rw [Set.union_empty, Set.empty_union]
  · rw [Set.empty_union, Set.empty_union]

theorem touches_vsnprintf : Touches (vsnprintf dst out n)
    ∅ ∅ (Set.Ico dst (dst + min (out.length + 1) n)) := by
  cases n with
  | zero => exact Touches.nil.congr rfl rfl (by simp)
  | succ n =>
      refine (touches_storeBytes.append (touches_nul _)).congr (Set.union_empty _)
        (Set.union_empty _) ?_
      rw [List.length_take, Nat.min_comm, Ico_union_end]
      congr 2
      omega

end Functions

end Redzone.Foundation.CString
