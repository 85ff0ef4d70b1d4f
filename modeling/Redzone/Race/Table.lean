/-
  Race/Table.lean --- the open-addressing shadow table is a partial map from words
  to cells.

  `TableInv` is the invariant of linear probing: every claimed bucket is where the
  probe for its own word stops, and unclaimed buckets hold no cells.  Under it
  `cellsOf` reads the table as a map, and `rzRaceAccessLoc_spec` says what one
  access does to that map: it touches the cells of its own word only, or, when the
  table is full, nothing at all.
-/
import Redzone.Race.Engine

set_option autoImplicit false

namespace Redzone.Race

/-- The cells of one word. -/
abbrev Cells : Type := Fin raceCells → RzAccess

/-- The cells of a freshly claimed bucket. -/
def noCells : Cells := fun _ => .empty

/-- The table read as a partial map from words to cells. -/
def RzRaceState.cellsOf (s : RzRaceState) (word : ℕ) : Option Cells :=
  match s.lookup word with
  | none => none
  | some p => if (s.buckets p).key = word + 1 then some (s.buckets p).cells else none

/-- The invariant of linear probing. -/
structure TableInv (s : RzRaceState) : Prop where
  /-- A claimed bucket is where the probe for its word stops. -/
  located : ∀ p word, (s.buckets p).key = word + 1 → s.lookup word = some p
  /-- An unclaimed bucket has no cells. -/
  blank : ∀ p, (s.buckets p).key = 0 → (s.buckets p).cells = noCells

theorem tableInv_init (nbuckets : ℕ) (ok : Bool) :
    TableInv (rzRaceStateInitN nbuckets ok) := by
  constructor
  · intro p word h
    simp [rzRaceStateInitN, RzBucket.empty] at h
  · intro p _
    rfl

/-! ## The probe loop -/

section Probe

variable {b b' : ℕ → RzBucket} {key h mask p q : ℕ}

theorem probe_stops : ∀ {fuel i : ℕ}, probe b key h mask i fuel = some p →
    (b p).key = key ∨ (b p).key = 0 := by
  intro fuel
  induction fuel with
  | zero => intro i hp; simp [probe] at hp
  | succ fuel ih =>
    intro i hp
    simp only [probe] at hp
    split at hp
    · rename_i hstop
      obtain rfl := Option.some.inj hp
      exact hstop
    · exact ih hp

/-- Claiming an empty bucket `q` for another key, or the very bucket found, does not
move the place where a probe stops. -/
theorem probe_claim (hq : (b q).key = 0) (hother : ∀ r, r ≠ q → (b' r).key = (b r).key)
    (hself : p = q → (b' q).key = key) :
    ∀ {fuel i : ℕ}, probe b key h mask i fuel = some p →
      probe b' key h mask i fuel = some p := by
  intro fuel
  induction fuel with
  | zero => intro i hp; simp [probe] at hp
  | succ fuel ih =>
    intro i hp
    simp only [probe] at hp ⊢
    by_cases hr : (h + i) &&& mask = q
    · have hpq : p = q := by
        rw [hr, if_pos (Or.inr hq)] at hp
        exact (Option.some.inj hp).symm
      rw [hr, if_pos (Or.inl (hself hpq)), hpq]
    · rw [hother _ hr]
      split at hp
      · rename_i hstop
        rw [if_pos hstop, hp]
      · rename_i hstop
        rw [if_neg hstop]
        exact ih hp

/-- Only the keys of the buckets matter to a probe. -/
theorem probe_congr (hkey : ∀ r, (b' r).key = (b r).key) :
    ∀ {fuel i : ℕ}, probe b' key h mask i fuel = probe b key h mask i fuel := by
  intro fuel
  induction fuel with
  | zero => intro i; rfl
  | succ fuel ih =>
    intro i
    simp only [probe, hkey, ih]

end Probe

/-! ## The table as a map -/

section Map

variable {s s' : RzRaceState} {word word' p : ℕ} {cells : Cells}

/-- Under the invariant the map does not depend on where a word hashes to. -/
theorem TableInv.cellsOf_eq_some (hinv : TableInv s) :
    s.cellsOf word = some cells ↔
      ∃ p, (s.buckets p).key = word + 1 ∧ (s.buckets p).cells = cells := by
  unfold RzRaceState.cellsOf
  constructor
  · intro h
    split at h
    · simp at h
    · rename_i p _
      split at h
      · rename_i hkey
        exact ⟨p, hkey, Option.some.inj h⟩
      · simp at h
  · rintro ⟨p, hkey, rfl⟩
    simp [hinv.located p word hkey, hkey]

/-- Writing the cells of one bucket keeps the invariant. -/
theorem TableInv.update_cells (hinv : TableInv s) (hkey : (s.buckets p).key ≠ 0)
    (cells : Cells) :
    TableInv { s with
      buckets := Function.update s.buckets p { s.buckets p with cells := cells } } := by
  have hkeys : ∀ r, (Function.update s.buckets p
      { s.buckets p with cells := cells } r).key = (s.buckets r).key := by
    intro r
    by_cases hr : r = p
    · rw [hr, Function.update_self]
    · rw [Function.update_of_ne hr]
  constructor
  · intro r word hr
    have := hinv.located r word (by rw [← hkeys]; exact hr)
    simp only [RzRaceState.lookup, RzRaceState.hash] at this ⊢
    rw [probe_congr hkeys, this]
  · intro r hr
    have hrp : r ≠ p := by
      rintro rfl
      exact hkey (by rw [← hkeys]; exact hr)
    simp only [Function.update_of_ne hrp] at hr ⊢
    exact hinv.blank r hr

/-- Claiming the empty bucket at which the probe for `word` stopped keeps the
invariant. -/
theorem TableInv.claim (hinv : TableInv s) (hlookup : s.lookup word = some p)
    (hempty : (s.buckets p).key = 0) :
    TableInv { s with
      buckets := Function.update s.buckets p { s.buckets p with key := word + 1 } } := by
  have hother : ∀ r, r ≠ p → (Function.update s.buckets p
      { s.buckets p with key := word + 1 } r).key = (s.buckets r).key := by
    intro r hr
    rw [Function.update_of_ne hr]
  have hself : (Function.update s.buckets p
      { s.buckets p with key := word + 1 } p).key = word + 1 := by
    rw [Function.update_self]
  constructor
  · intro r word' hr
    by_cases hrp : r = p
    · subst hrp
      obtain rfl : word = word' := by
        rw [hself] at hr
        omega
      exact probe_claim hempty hother (fun _ => hself) hlookup
    · have hr' : (s.buckets r).key = word' + 1 := by rw [← hother r hrp]; exact hr
      exact probe_claim hempty hother (fun h => absurd h hrp) (hinv.located r word' hr')
  · intro r hr
    have hrp : r ≠ p := by
      rintro rfl
      rw [hself] at hr
      omega
    simp only [Function.update_of_ne hrp] at hr ⊢
    exact hinv.blank r hr

/-- What a creating `find_bucket` does: it fails on a full table and changes
nothing, or it returns a bucket that has the word's key and cells. -/
theorem TableInv.findBucket_create (hinv : TableInv s) (word : ℕ) :
    (findBucket s word true = (none, s) ∧ s.cellsOf word = none) ∨
    ∃ p s', findBucket s word true = (some p, s') ∧ TableInv s' ∧
      s'.nextTid = s.nextTid ∧ s'.nbuckets = s.nbuckets ∧
      (s'.buckets p).key = word + 1 ∧
      (s'.buckets p).cells = (s.cellsOf word).getD noCells ∧
      ((s.buckets p).key = word + 1 ∨ (s.buckets p).key = 0) ∧
      ∀ r, r ≠ p → s'.buckets r = s.buckets r := by
  unfold findBucket RzRaceState.cellsOf
  cases hlookup : s.lookup word with
  | none => exact Or.inl ⟨rfl, rfl⟩
  | some p =>
    right
    by_cases hkey : (s.buckets p).key = word + 1
    · refine ⟨p, s, ?_, hinv, rfl, rfl, hkey, ?_, Or.inl hkey, fun _ _ => rfl⟩
      · simp [hkey]
      · simp [hkey]
    · have hempty : (s.buckets p).key = 0 := (probe_stops hlookup).resolve_left hkey
      refine ⟨p, { s with
        buckets := Function.update s.buckets p { s.buckets p with key := word + 1 } },
        ?_, hinv.claim hlookup hempty, rfl, rfl, ?_, ?_, Or.inr hempty, ?_⟩
      · simp [hkey]
      · simp
      · simp [hkey, hinv.blank p hempty]
      · intro r hr
        exact Function.update_of_ne hr ..

end Map

/-! ## One access -/

variable {s : RzRaceState}

/-- The effect of `rz_race_access_loc` on the table as a map. -/
structure AccessEffect (s : RzRaceState) (t : RzThread) (word : ℕ) (isWrite : Bool)
    (file : Option String) (line : ℤ) (r : Option RzAccess × RzRaceState) : Prop where
  inv : TableInv r.2
  nextTid : r.2.nextTid = s.nextTid
  nbuckets : r.2.nbuckets = s.nbuckets
  /-- The cells of the other words are untouched. -/
  other : ∀ word', word' ≠ word → r.2.cellsOf word' = s.cellsOf word'
  /-- The verdict is read off the cells of the word, and the access recorded there. -/
  found : r.1 = conflictingCell ((s.cellsOf word).getD noCells) t isWrite
  recorded : r.2.cellsOf word =
    some (recordAccess ((s.cellsOf word).getD noCells) t isWrite file line)

/-- An access finds a bucket for its word. -/
def FindsBucket (s : RzRaceState) (addr : ℕ) : Prop :=
  (findBucket s (wordOf addr) true).1.isSome = true

instance (s : RzRaceState) (addr : ℕ) : Decidable (FindsBucket s addr) :=
  inferInstanceAs (Decidable (_ = true))

/-- An access that finds a bucket is judged by and recorded in the cells of its word;
one that finds the table full is skipped. -/
theorem rzRaceAccessLoc_spec (hinv : TableInv s) (t : RzThread) (addr : ℕ)
    (isWrite : Bool) (file : Option String) (line : ℤ) :
    (¬ FindsBucket s addr ∧ rzRaceAccessLoc s t addr isWrite file line = (none, s)) ∨
    (FindsBucket s addr ∧ AccessEffect s t (wordOf addr) isWrite file line
      (rzRaceAccessLoc s t addr isWrite file line)) := by
  unfold FindsBucket
  obtain ⟨hfull, -⟩ | ⟨p, s', hfind, hinv', htid, hn, hkey, hcells, hstop, hother⟩ :=
    hinv.findBucket_create (wordOf addr)
  · left
    simp [rzRaceAccessLoc, hfull]
  · right
    refine ⟨by simp [hfind], ?_⟩
    have hupd := hinv'.update_cells (p := p) (by omega)
      (recordAccess (s'.buckets p).cells t isWrite file line)
    have heq : rzRaceAccessLoc s t addr isWrite file line =
        (conflictingCell (s'.buckets p).cells t isWrite, { s' with
          buckets := Function.update s'.buckets p { s'.buckets p with
            cells := recordAccess (s'.buckets p).cells t isWrite file line } }) := by
      simp [rzRaceAccessLoc, hfind]
    rw [heq]
    refine ⟨hupd, htid, hn, ?_, by rw [hcells], ?_⟩
    · intro word' hne
      apply Option.ext
      intro cells
      rw [hupd.cellsOf_eq_some, hinv.cellsOf_eq_some]
      refine exists_congr fun q => ?_
      by_cases hq : q = p
      · subst hq
        have hold : (s.buckets q).key ≠ word' + 1 := by
          intro hk
          obtain hk' | hk' := hstop <;> omega
        simp only [Function.update_self]
        constructor
        · rintro ⟨hk, -⟩
          omega
        · rintro ⟨hk, -⟩
          exact absurd hk hold
      · simp only [Function.update_of_ne hq, hother q hq]
    · rw [hupd.cellsOf_eq_some]
      exact ⟨p, by simp [hkey], by simp [hcells]⟩

end Redzone.Race
