/-
  Race/BucketMap.lean --- the open-addressing table over whole runs of `find_bucket`.

  A run starts from a table that has been allocated with a power-of-two size and makes
  any calls, creating or not.  `FaithfulMap` says what the table is then: a map from the
  words that a creating call has got a bucket for to these buckets, which never move, with
  room for as many words as there are buckets.

  Words are numbers, so `word + 1` does not wrap; it does not in 64 bits either for the
  words of addresses, which are below `2 ^ 61`.
-/
import Redzone.Race.Table

set_option autoImplicit false

namespace Redzone.Race

/-! ## Runs -/

/-- A call of `find_bucket`. -/
structure FindCall where
  word : ℕ
  create : Bool
  deriving DecidableEq, Repr

/-- The table after a sequence of calls. -/
def findBuckets (s : RzRaceState) (calls : List FindCall) : RzRaceState :=
  calls.foldl (fun s c => (findBucket s c.word c.create).2) s

/-- The empty table of `n` buckets. -/
def emptyTable (n : ℕ) : RzRaceState := rzRaceStateInitN n true

/-- A creating call of the run has got bucket `p` for the word. -/
def Created (n : ℕ) (calls : List FindCall) (word p : ℕ) : Prop :=
  ∃ before after, calls = before ++ ⟨word, true⟩ :: after ∧
    (findBucket (findBuckets (emptyTable n) before) word true).1 = some p

/-- The table `s`, reached by `calls`, is a map from the created words to the buckets they
were created in. -/
structure FaithfulMap (n : ℕ) (calls : List FindCall) (s : RzRaceState) : Prop where
  /-- A word owns at most one bucket. -/
  bucket_unique : ∀ word p q, (s.buckets p).key = word + 1 → (s.buckets q).key = word + 1 → p = q
  /-- An occupied bucket has exactly one word, which was created there. -/
  word_unique : ∀ p, (s.buckets p).key ≠ 0 →
    p < n ∧ ∃! word, (s.buckets p).key = word + 1 ∧ Created n calls word p
  /-- A created word is found where it was created. -/
  found : ∀ word p, Created n calls word p → ∀ create, (findBucket s word create).1 = some p
  /-- A creating call returns `NULL` exactly if other words occupy all buckets. -/
  full : ∀ word, (findBucket s word true).1 = none ↔
    ∀ p < n, (s.buckets p).key ≠ 0 ∧ (s.buckets p).key ≠ word + 1
  /-- Any other call returns `NULL` exactly for the words that were not created. -/
  absent : ∀ word, (findBucket s word false).1 = none ↔ ∀ p, ¬ Created n calls word p
  /-- A call changes nothing but the key of the empty bucket that it claims. -/
  claims : ∀ word create, (findBucket s word create).2 = s ∨
    ∃ p < n, create = true ∧ (findBucket s word create).1 = some p ∧ (s.buckets p).key = 0 ∧
      (findBucket s word create).2 = { s with
        buckets := Function.update s.buckets p { s.buckets p with key := word + 1 } }

/-! ## Probes -/

section Probe

variable {s s' : RzRaceState} {word p k : ℕ} {create : Bool}

/-- A masked place is a place in the table. -/
theorem masked_lt {h : ℕ} : h &&& (2 ^ k - 1) < 2 ^ k := by
  rw [Nat.and_two_pow_sub_one_eq_mod]
  exact Nat.mod_lt _ (Nat.two_pow_pos k)

/-- The probe sequence comes to every bucket of a power-of-two table. -/
theorem exists_masked {h : ℕ} (hh : h < 2 ^ k) (hp : p < 2 ^ k) :
    ∃ i < 2 ^ k, (h + i) &&& (2 ^ k - 1) = p := by
  rcases Nat.le_total h p with hle | hge
  · refine ⟨p - h, by omega, ?_⟩
    rw [Nat.add_sub_cancel' hle, Nat.and_two_pow_sub_one_eq_mod, Nat.mod_eq_of_lt hp]
  · -- the sequence wraps around
    rcases Nat.eq_or_lt_of_le hge with heq | hlt
    · refine ⟨0, Nat.two_pow_pos k, ?_⟩
      rw [Nat.add_zero, heq, Nat.and_two_pow_sub_one_eq_mod, Nat.mod_eq_of_lt hh]
    · refine ⟨p + 2 ^ k - h, by omega, ?_⟩
      have hsum : h + (p + 2 ^ k - h) = p + 2 ^ k := by omega
      rw [hsum, Nat.and_two_pow_sub_one_eq_mod, Nat.add_mod_right, Nat.mod_eq_of_lt hp]

/-- A probe that does not stop has seen other keys only. -/
theorem probe_eq_none {b : ℕ → RzBucket} {key h mask : ℕ} : ∀ {fuel i : ℕ},
    probe b key h mask i fuel = none ↔
      ∀ j < fuel, (b ((h + (i + j)) &&& mask)).key ≠ key ∧ (b ((h + (i + j)) &&& mask)).key ≠ 0 := by
  intro fuel
  induction fuel with
  | zero => simp [probe]
  | succ fuel ih =>
    intro i
    simp only [probe]
    split
    · rename_i hstop
      refine iff_of_false (by simp) fun hall => ?_
      have hfirst := hall 0 (Nat.succ_pos fuel)
      rw [Nat.add_zero] at hfirst
      exact hstop.elim hfirst.1 hfirst.2
    · rename_i hgo
      rw [ih]
      constructor
      · intro hrest j hj
        cases j with
        | zero => exact not_or.mp hgo
        | succ j =>
          have hj' := hrest j (by omega)
          rwa [Nat.add_right_comm, Nat.add_assoc i j 1] at hj'
      · intro hall j hj
        have hj' := hall (j + 1) (by omega)
        rwa [← Nat.add_assoc i j 1, Nat.add_right_comm i j 1] at hj'

/-- A probe stops inside the table. -/
theorem lookup_lt (hn : s.nbuckets = 2 ^ k) (h : s.lookup word = some p) : p < 2 ^ k := by
  unfold RzRaceState.lookup at h
  rw [hn] at h
  have hgo : ∀ {fuel i : ℕ}, probe s.buckets (word + 1) (s.hash word) (2 ^ k - 1) i fuel = some p →
      p < 2 ^ k := by
    intro fuel
    induction fuel with
    | zero => intro i hp; simp [probe] at hp
    | succ fuel ih =>
      intro i hp
      simp only [probe] at hp
      split at hp
      · obtain rfl := Option.some.inj hp
        exact masked_lt
      · exact ih hp
  exact hgo h

/-- The probe for a word comes to an end without a bucket exactly in a table that is full
of other words. -/
theorem lookup_eq_none (hn : s.nbuckets = 2 ^ k) : s.lookup word = none ↔
    ∀ p < 2 ^ k, (s.buckets p).key ≠ 0 ∧ (s.buckets p).key ≠ word + 1 := by
  unfold RzRaceState.lookup
  rw [hn, probe_eq_none]
  have hhash : s.hash word < 2 ^ k := by
    unfold RzRaceState.hash
    rw [hn]
    exact masked_lt
  constructor
  · intro hall p hp
    obtain ⟨i, hi, rfl⟩ := exists_masked hhash hp
    have hi' := hall i hi
    rw [Nat.zero_add] at hi'
    exact hi'.symm
  · intro hall j _
    exact (hall _ masked_lt).symm

/-- What a call makes of the bucket at which the probe stops. -/
theorem findBucket_cases (s : RzRaceState) (word : ℕ) (create : Bool) :
    (s.lookup word = none ∧ findBucket s word create = (none, s)) ∨
    (∃ p, s.lookup word = some p ∧ (s.buckets p).key = word + 1 ∧
      findBucket s word create = (some p, s)) ∨
    ∃ p, s.lookup word = some p ∧ (s.buckets p).key = 0 ∧
      findBucket s word create = if create then (some p, { s with
        buckets := Function.update s.buckets p { s.buckets p with key := word + 1 } })
      else (none, s) := by
  unfold findBucket
  cases hlookup : s.lookup word with
  | none => exact .inl ⟨rfl, rfl⟩
  | some p =>
    right
    rcases probe_stops hlookup with hkey | hkey
    · exact .inl ⟨p, rfl, hkey, if_pos hkey⟩
    · refine .inr ⟨p, rfl, hkey, ?_⟩
      have hne : (s.buckets p).key ≠ word + 1 := by omega
      simp only [if_neg hne]

end Probe

/-! ## The invariant of a run -/

section Run

variable {s : RzRaceState} {calls : List FindCall} {c : FindCall} {n k word p : ℕ} {create : Bool}

theorem findBuckets_snoc : findBuckets s (calls ++ [c]) =
    (findBucket (findBuckets s calls) c.word c.create).2 := by
  unfold findBuckets
  rw [List.foldl_append]
  rfl

/-- What was created before the last call, and what it creates. -/
theorem created_snoc : Created n (calls ++ [c]) word p ↔ Created n calls word p ∨
    (c = ⟨word, true⟩ ∧ (findBucket (findBuckets (emptyTable n) calls) word true).1 = some p) := by
  constructor
  · rintro ⟨before, after, heq, hfind⟩
    rcases List.eq_nil_or_concat after with rfl | ⟨after, d, rfl⟩
    · obtain ⟨rfl, hc⟩ := List.append_inj' heq rfl
      exact .inr ⟨List.singleton_inj.mp hc, hfind⟩
    · rw [List.concat_eq_append, ← List.cons_append, ← List.append_assoc] at heq
      obtain ⟨rfl, -⟩ := List.append_inj' heq rfl
      exact .inl ⟨before, after, rfl, hfind⟩
  · rintro (⟨before, after, rfl, hfind⟩ | ⟨rfl, hfind⟩)
    · exact ⟨before, after ++ [c], by simp, hfind⟩
    · exact ⟨calls, [], rfl, hfind⟩

/-- What holds of the table after any calls: the probes find what the buckets have, and the
buckets have what was created. -/
structure BucketInv (n : ℕ) (calls : List FindCall) (s : RzRaceState) : Prop where
  table : TableInv s
  size : s.nbuckets = n
  created : ∀ word p, (s.buckets p).key = word + 1 ↔ Created n calls word p

theorem bucketInv_empty : BucketInv n [] (emptyTable n) := by
  refine ⟨tableInv_init n true, rfl, fun word p => iff_of_false ?_ ?_⟩
  · simp [emptyTable, rzRaceStateInitN, RzBucket.empty]
  · rintro ⟨before, after, heq, -⟩
    simp at heq

/-- The probe for a created word stops where it was created. -/
theorem BucketInv.lookup (h : BucketInv n calls s) (hcreated : Created n calls word p) :
    s.lookup word = some p :=
  h.table.located p word ((h.created word p).mpr hcreated)

/-- One call keeps the invariant. -/
theorem BucketInv.step (h : BucketInv n calls (findBuckets (emptyTable n) calls)) :
    BucketInv n (calls ++ [c]) (findBuckets (emptyTable n) (calls ++ [c])) := by
  rw [findBuckets_snoc]
  generalize hs : findBuckets (emptyTable n) calls = s at h
  have hsnoc : ∀ word p, Created n (calls ++ [c]) word p ↔ Created n calls word p ∨
      (c = ⟨word, true⟩ ∧ (findBucket s word true).1 = some p) := by
    intro word p
    rw [created_snoc, hs]
  rcases findBucket_cases s c.word c.create with
    ⟨hlookup, hfind⟩ | ⟨q, hlookup, hkey, hfind⟩ | ⟨q, hlookup, hkey, hfind⟩
  · -- the table is full
    rw [hfind]
    refine ⟨h.table, h.size, fun word p => ?_⟩
    rw [h.created, hsnoc, or_iff_left]
    rintro ⟨rfl, hnew⟩
    have hnone : findBucket s word true = (none, s) := hfind
    simp [hnone] at hnew
  · -- the word has its bucket already
    rw [hfind]
    refine ⟨h.table, h.size, fun word p => ?_⟩
    rw [h.created, hsnoc, or_iff_left_of_imp]
    rintro ⟨rfl, hnew⟩
    have hsome : findBucket s word true = (some q, s) := hfind
    obtain rfl : q = p := by simpa [hsome] using hnew
    exact (h.created word q).mp hkey
  · cases hcreate : c.create with
    | false =>
      rw [hcreate, if_neg Bool.false_ne_true] at hfind
      rw [hfind]
      refine ⟨h.table, h.size, fun word p => ?_⟩
      rw [h.created, hsnoc, or_iff_left]
      rintro ⟨rfl, -⟩
      simp at hcreate
    | true =>
      -- the empty bucket is claimed
      rw [hcreate, if_pos rfl] at hfind
      rw [hfind]
      refine ⟨h.table.claim hlookup hkey, h.size, fun word p => ?_⟩
      rw [hsnoc, ← h.created]
      have hc : c = ⟨word, true⟩ ↔ c.word = word := by
        obtain ⟨w, create⟩ := c
        obtain rfl : create = true := hcreate
        simp
      have hnew : c.word = word → (findBucket s word true).1 = some q := by
        rintro rfl
        rw [hfind]
      rw [hc]
      rcases eq_or_ne p q with rfl | hne
      · simp only [Function.update_self]
        constructor
        · intro heq
          have hword : c.word = word := by omega
          exact .inr ⟨hword, hnew hword⟩
        · rintro (hold | ⟨rfl, -⟩)
          · omega
          · rfl
      · simp only [Function.update_of_ne hne]
        refine (or_iff_left ?_).symm
        rintro ⟨hword, hp⟩
        rw [hnew hword] at hp
        exact hne (Option.some.inj hp).symm

theorem bucketInv (calls : List FindCall) :
    BucketInv n calls (findBuckets (emptyTable n) calls) := by
  induction calls using List.reverseRecOn with
  | nil => exact bucketInv_empty
  | append_singleton calls c ih => exact ih.step

/-! ## The map -/

/-- A non-creating call finds exactly the words that have a bucket. -/
theorem BucketInv.absent_iff (h : BucketInv n calls s) :
    (findBucket s word false).1 = none ↔ ∀ p, ¬ Created n calls word p := by
  rcases findBucket_cases s word false with
    ⟨hlookup, hfind⟩ | ⟨q, hlookup, hkey, hfind⟩ | ⟨q, hlookup, hkey, hfind⟩
  · refine iff_of_true (by rw [hfind]) fun p hp => ?_
    simp [h.lookup hp] at hlookup
  · refine iff_of_false (by simp [hfind]) fun hall => ?_
    exact hall q ((h.created word q).mp hkey)
  · refine iff_of_true (by simp [hfind]) fun p hp => ?_
    obtain rfl : p = q := Option.some.inj ((h.lookup hp).symm.trans hlookup)
    have hown := (h.created word p).mpr hp
    omega

theorem BucketInv.faithful (h : BucketInv (2 ^ k) calls s) : FaithfulMap (2 ^ k) calls s := by
  refine ⟨fun word p q hp hq => ?_, fun p hp => ?_, fun word p hp create => ?_, fun word => ?_,
    fun word => h.absent_iff, fun word create => ?_⟩
  · exact Option.some.inj ((h.table.located p word hp).symm.trans (h.table.located q word hq))
  · obtain ⟨word, hword⟩ := Nat.exists_eq_succ_of_ne_zero hp
    refine ⟨lookup_lt h.size (h.table.located p word hword), word,
      ⟨hword, (h.created word p).mp hword⟩, fun word' hword' => ?_⟩
    have hkey := hword'.1
    omega
  · have hkey := (h.created word p).mpr hp
    unfold findBucket
    rw [h.lookup hp]
    simp only [if_pos hkey]
  · rw [← lookup_eq_none h.size]
    rcases findBucket_cases s word true with
      ⟨hlookup, hfind⟩ | ⟨q, hlookup, -, hfind⟩ | ⟨q, hlookup, -, hfind⟩
    · simp [hlookup, hfind]
    · simp [hlookup, hfind]
    · simp [hlookup, hfind]
  · rcases findBucket_cases s word create with
      ⟨-, hfind⟩ | ⟨q, -, -, hfind⟩ | ⟨q, hlookup, hkey, hfind⟩
    · exact .inl (by rw [hfind])
    · exact .inl (by rw [hfind])
    · cases create with
      | false => exact .inl (by simp [hfind])
      | true => exact .inr ⟨q, lookup_lt h.size hlookup, rfl, by simp [hfind], hkey, by simp [hfind]⟩

/-- **The shadow table is a faithful bounded map.**  After any calls of `find_bucket` on an
allocated table of any power-of-two size. -/
theorem find_bucket_faithful (k : ℕ) (calls : List FindCall) :
    FaithfulMap (2 ^ k) calls (findBuckets (emptyTable (2 ^ k)) calls) :=
  (bucketInv calls).faithful

/-- Three words in a table of two buckets: the third one finds it full. -/
example : ((findBucket (findBuckets (emptyTable 2) [⟨8, true⟩, ⟨9, false⟩, ⟨9, true⟩]) 10 true).1,
    (findBucket (findBuckets (emptyTable 2) [⟨8, true⟩, ⟨9, false⟩, ⟨9, true⟩]) 8 false).1) =
      (none, some 0) := by
  decide

end Run

end Redzone.Race
