/-
  Foundation/Text.lean --- text as C prints it: lists of bytes.

  A literal is its ASCII bytes, a string has no null character, and a number is printed
  in a base from 2 to 16.  `numeralValue` reads a numeral back.
-/
import Mathlib.Data.List.TakeWhile
import Mathlib.Data.Nat.Digits.Lemmas
import Mathlib.Tactic.IntervalCases

set_option autoImplicit false

namespace Redzone.Foundation

/-- Text, one byte after the other. -/
abbrev Text : Type := List UInt8

/-- A literal of the source. -/
def ascii (s : String) : Text := s.toList.map fun c => UInt8.ofNat c.toNat

/-- A C string: the bytes before its null character. -/
structure CStr where
  bytes : Text
  noNul : 0 ∉ bytes
  deriving DecidableEq

/-- The string in a buffer. -/
def CStr.ofBuffer (buf : Text) : CStr :=
  ⟨buf.takeWhile (· ≠ 0), fun h => absurd (List.mem_takeWhile_imp h) (by decide)⟩

/-- Without a null character the string is the whole buffer. -/
theorem CStr.ofBuffer_bytes {buf : Text} (h : 0 ∉ buf) : (CStr.ofBuffer buf).bytes = buf :=
  List.takeWhile_eq_self_iff.mpr fun _ hc => decide_eq_true (ne_of_mem_of_not_mem hc h)

/-! ## Numerals -/

/-- A digit of a base up to 16. -/
def digitChar (d : ℕ) : UInt8 := UInt8.ofNat (if d < 10 then 48 + d else 87 + d)

/-- The value of a digit, in either case. -/
def digitValue (c : UInt8) : ℕ :=
  if c.toNat < 58 then c.toNat - 48 else if c.toNat < 71 then c.toNat - 55 else c.toNat - 87

/-- A decimal digit. -/
def isDigit (c : UInt8) : Bool := 48 ≤ c.toNat && c.toNat ≤ 57

/-- `n` in base `b`: `%zu` is base 10, `%llx` base 16. -/
def numeral (b n : ℕ) : Text :=
  if n = 0 then [digitChar 0] else ((Nat.digits b n).map digitChar).reverse

/-- What a numeral stands for. -/
def numeralValue (b : ℕ) (t : Text) : ℕ := t.foldl (fun n c => b * n + digitValue c) 0

/-- `%d`. -/
def decimal (n : ℤ) : Text := if n < 0 then 45 :: numeral 10 n.natAbs else numeral 10 n.natAbs

section Numerals

variable {b d n : ℕ}

theorem digitValue_digitChar (h : d < 16) : digitValue (digitChar d) = d := by
  interval_cases d <;> rfl

theorem isDigit_digitChar (h : d < 10) : isDigit (digitChar d) = true := by
  interval_cases d <;> rfl

theorem digitChar_eq_zero (h : d < 16) (heq : digitChar d = 48) : d = 0 := by
  rw [← digitValue_digitChar h, heq]
  rfl

theorem le_digitChar (h : d < 16) : 0x30 ≤ digitChar d := by
  interval_cases d <;> decide

theorem mem_numeral {c : UInt8} (hb : 2 ≤ b) (h : c ∈ numeral b n) :
    ∃ d < b, c = digitChar d := by
  unfold numeral at h
  split at h
  · exact ⟨0, by omega, List.mem_singleton.mp h⟩
  · obtain ⟨d, hd, rfl⟩ := List.mem_map.mp (List.mem_reverse.mp h)
    exact ⟨d, Nat.digits_lt_base hb hd, rfl⟩

theorem isDigit_of_mem_numeral {c : UInt8} (h : c ∈ numeral 10 n) : isDigit c = true := by
  obtain ⟨d, hd, rfl⟩ := mem_numeral (by decide) h
  exact isDigit_digitChar hd

theorem le_of_mem_numeral {c : UInt8} (hb : 2 ≤ b) (hb' : b ≤ 16) (h : c ∈ numeral b n) :
    0x30 ≤ c := by
  obtain ⟨d, hd, rfl⟩ := mem_numeral hb h
  exact le_digitChar (by omega)

theorem numeral_ne_nil : numeral b n ≠ [] := by
  unfold numeral
  split
  · exact List.cons_ne_nil _ _
  · rename_i hn
    rw [Ne, List.reverse_eq_nil_iff, List.map_eq_nil_iff]
    exact Nat.digits_ne_nil_iff_ne_zero.mpr hn

/-- Only the numeral of 0 starts with the digit 0. -/
theorem numeral_head (hb : 2 ≤ b) (hb' : b ≤ 16) (h : (numeral b n).head? = some 48) :
    numeral b n = [48] := by
  unfold numeral at h ⊢
  split
  · rfl
  · rename_i hn
    rw [if_neg hn, List.head?_reverse, List.getLast?_map,
      List.getLast?_eq_getLast_of_ne_nil (Nat.digits_ne_nil_iff_ne_zero.mpr hn)] at h
    have hlast := Nat.digits_lt_base hb
      (List.getLast_mem (Nat.digits_ne_nil_iff_ne_zero (b := b).mpr hn))
    exact absurd (digitChar_eq_zero (by omega) (Option.some.inj h))
      (Nat.getLast_digit_ne_zero b hn)

theorem foldr_digits (hb' : b ≤ 16) (ds : List ℕ) (hds : ∀ d ∈ ds, d < b) :
    (ds.map digitChar).foldr (fun c n => b * n + digitValue c) 0 = Nat.ofDigits b ds := by
  induction ds with
  | nil => rfl
  | cons d ds ih =>
    have hd : d < 16 := Nat.lt_of_lt_of_le (hds d List.mem_cons_self) hb'
    rw [List.map_cons, List.foldr_cons, ih fun d hd => hds d (List.mem_cons_of_mem _ hd),
      digitValue_digitChar hd, Nat.ofDigits_cons, Nat.add_comm]

/-- Reading a numeral gives back the number. -/
theorem numeralValue_numeral (hb : 2 ≤ b) (hb' : b ≤ 16) : numeralValue b (numeral b n) = n := by
  unfold numeralValue numeral
  split
  · rename_i hn
    rw [hn]
    rfl
  · rw [List.foldl_reverse, foldr_digits hb' _ fun d hd => Nat.digits_lt_base hb hd,
      Nat.ofDigits_digits]

/-- A 64-bit number has at most 20 decimal digits. -/
theorem length_numeral_le (h : n < 2 ^ 64) : (numeral 10 n).length ≤ 20 := by
  unfold numeral
  split
  · decide
  · rw [List.length_reverse, List.length_map]
    exact (Nat.digits_length_le_iff (by decide) n).mpr (h.trans (by decide))

end Numerals

end Redzone.Foundation
