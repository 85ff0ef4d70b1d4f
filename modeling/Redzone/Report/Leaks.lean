/-
  Report/Leaks.lean --- the leak report at the end of the process.

  `reportLeaks` goes over the allocation table four times: to count, to print JSON, to
  fill the array for SARIF, and to collapse the leaks of one allocation site into a line
  of text.  A file name is a pointer, so that one site can have its name at two addresses.

  All four passes select the same blocks.  The text report is proved line by line against
  the groups of the leaks by site: `siteLines_eq` carries the flags of the `done` array
  through the recursion, as the sites that have a line already.
-/
import Redzone.Report.Findings
import Redzone.Foundation.Groups
import Redzone.Shadow.Exact

set_option autoImplicit false

namespace Redzone.Report

open Redzone.Foundation
open Redzone.Foundation.Json

/-! ## The table -/

/-- `Block`. -/
structure Block where
  realBase : UInt64
  totalSize : UInt64
  userAddr : UInt64
  userSize : UInt64
  freed : Bool
  /-- A pointer, `NULL` without a name. -/
  allocFile : UInt64
  allocLine : ℤ
  deriving DecidableEq

/-- Where the extent of a block ends. -/
def Block.top (b : Block) : ℕ := b.realBase.toNat + b.totalSize.toNat

/-- The allocation table.  Blocks do not overlap, and each has a right red zone. -/
structure Table where
  blocks : List Block
  laid : ∀ b ∈ blocks, b.realBase ≤ b.userAddr ∧
    b.userAddr.toNat + b.userSize.toNat + 16 ≤ b.top ∧ b.top ≤ 2 ^ 64
  disjoint : blocks.Pairwise fun b b' =>
    b.top ≤ b'.realBase.toNat ∨ b'.top ≤ b.realBase.toNat

/-- `rz_format_t`. -/
inductive Format where
  | text
  | json
  | sarif
  deriving DecidableEq, Repr

/-- What a report depends on besides the table. -/
structure Env where
  /-- The string at a pointer. -/
  str : UInt64 → CStr
  /-- `g_supp[0 .. g_supp_n)` -/
  rules : List CStr
  /-- `rz_color_on` -/
  colorOn : Bool
  trace : Trace

/-- How the process goes on: what is printed, and the status of `_Exit`, if it is called. -/
structure Outcome where
  printed : Text
  exit : Option ℕ
  deriving DecidableEq

/-- A name that may be `NULL`. -/
def Env.file (env : Env) (p : UInt64) : Option CStr := if p = 0 then none else some (env.str p)

/-- `col` -/
def Env.col (env : Env) (code : String) : Text := if env.colorOn then ascii code else []

/-! ## The passes -/

/-- `leak_suppressed` -/
def leakSuppressed (rules : List CStr) (file : Option CStr) : Bool :=
  match file with
  | none => false
  | some file => rules.any fun pat => pat.bytes <:+: file.bytes

/-- `is_unsuppressed_leak` -/
def isUnsuppressedLeak (env : Env) (b : Block) : Bool :=
  !b.freed && !leakSuppressed env.rules (env.file b.allocFile)

/-- The first pass: how many leaks there are, and how many bytes. -/
def countLeaks (env : Env) (blocks : List Block) : UInt64 × UInt64 :=
  blocks.foldl
    (fun s b => if isUnsuppressedLeak env b then (s.1 + 1, s.2 + b.userSize) else s) (0, 0)

/-- The finding for a leak. -/
def leakFinding (env : Env) (b : Block) : Finding where
  kind := ⟨ascii "memory-leak", by decide⟩
  isWrite := -1
  size := b.userSize
  addr := b.userAddr
  file := env.file b.allocFile
  line := b.allocLine
  hasRegion := false
  regionSize := 0
  freed := false
  allocFile := none
  allocLine := 0
  withStack := false

/-- The second pass, for JSON. -/
def jsonLeaks (env : Env) (blocks : List Block) : Text :=
  blocks.foldl (fun out b =>
    if isUnsuppressedLeak env b then out ++ jsonFinding env.trace (leakFinding env b) ++ [10]
    else out) []

/-- The third pass, which fills the array for SARIF. -/
def fillArray (env : Env) (blocks : List Block) : List Finding :=
  blocks.foldl (fun arr b => if isUnsuppressedLeak env b then arr ++ [leakFinding env b] else arr) []

/-- `same`: the blocks come from one site. -/
def sameSite (env : Env) (o b : Block) : Bool :=
  o.allocLine = b.allocLine && (o.allocFile = b.allocFile ||
    (o.allocFile ≠ 0 && b.allocFile ≠ 0 && env.str o.allocFile = env.str b.allocFile))

/-- The inner loop: `count`, `site_bytes` and the rest of `done`. -/
def foldSite (env : Env) (b : Block) : List Block → List Bool → UInt64 → UInt64 →
    UInt64 × UInt64 × List Bool
  | o :: bs, d :: ds, count, bytes =>
    if d || !isUnsuppressedLeak env o then
      let r := foldSite env b bs ds count bytes
      (r.1, r.2.1, d :: r.2.2)
    else if sameSite env o b then
      let r := foldSite env b bs ds (count + 1) (bytes + o.userSize)
      (r.1, r.2.1, true :: r.2.2)
    else
      let r := foldSite env b bs ds count bytes
      (r.1, r.2.1, d :: r.2.2)
  | _, ds, count, bytes => (count, bytes, ds)

/-- The line of a site. -/
def siteLine (env : Env) (file : Option CStr) (line : ℤ) (count bytes : ℕ) : Text :=
  match file with
  | some file =>
    ascii "  " ++ numeral 10 count ++ ascii " allocation(s), " ++ numeral 10 bytes ++
      ascii " byte(s), at " ++ env.col "\x1b[36m" ++ file.bytes ++ ascii ":" ++ decimal line ++
      env.col "\x1b[0m" ++ ascii "\n"
  | none =>
    ascii "  " ++ numeral 10 count ++ ascii " allocation(s), " ++ numeral 10 bytes ++
      ascii " byte(s) (unknown allocation site)\n"

/-- The fourth pass.  `scratchOk`: the array `done` could be allocated. -/
def siteLines (env : Env) (scratchOk : Bool) : List Block → List Bool → Text
  | b :: bs, d :: ds =>
    if !isUnsuppressedLeak env b || (scratchOk && d) then siteLines env scratchOk bs ds
    else if scratchOk then
      let r := foldSite env b bs ds 1 b.userSize
      siteLine env (env.file b.allocFile) b.allocLine r.1.toNat r.2.1.toNat ++
        siteLines env scratchOk bs r.2.2
    else
      siteLine env (env.file b.allocFile) b.allocLine 1 b.userSize.toNat ++
        siteLines env scratchOk bs ds
  | _, _ => []

/-- The header of the text report. -/
def leakHeader (env : Env) (leaked bytes : ℕ) : Text :=
  env.col "\x1b[1;31m" ++ ascii "==redzone ERROR: memory-leak" ++ env.col "\x1b[0m" ++ ascii "\n" ++
    ascii "  " ++ numeral 10 leaked ++ ascii " allocation(s) never freed, " ++
    numeral 10 bytes ++ ascii " byte(s) total\n"

/-- `report_leaks`, with the state of `g_leak_report` and the answer to the scratch
allocation. -/
def reportLeaks (env : Env) (leakReport scratchOk : Bool) (format : Format)
    (blocks : List Block) : Outcome :=
  if !leakReport then ⟨[], none⟩
  else
    let (leaked, bytes) := countLeaks env blocks
    if leaked = 0 then ⟨[], none⟩
    else
      match format with
      | .json => ⟨jsonLeaks env blocks, some 1⟩
      | .sarif => ⟨if scratchOk then sarifDoc (fillArray env blocks) else [], some 1⟩
      | .text =>
        ⟨leakHeader env leaked.toNat bytes.toNat ++
          siteLines env scratchOk blocks (blocks.map fun _ => false), some 1⟩

/-! ## The leaks -/

/-- A block that was not freed, and whose file name contains no suppressed pattern. -/
def IsLeak (env : Env) (b : Block) : Prop :=
  b.freed = false ∧ ∀ file, env.file b.allocFile = some file →
    ∀ pat ∈ env.rules, ¬ pat.bytes <:+: file.bytes

/-- The leaks of a table, in its order. -/
def leaks (env : Env) (blocks : List Block) : List Block := blocks.filter (isUnsuppressedLeak env)

/-- An allocation site: the file, if it is known, and the line. -/
abbrev Site : Type := Option CStr × ℤ

/-- Where a block was allocated. -/
def site (env : Env) (b : Block) : Site := (env.file b.allocFile, b.allocLine)

/-- The bytes of some blocks. -/
def bytesOf (blocks : List Block) : ℕ := (blocks.map fun b => b.userSize.toNat).sum

section Leaks

variable {env : Env} {b o : Block} {bs : List Block}

theorem isUnsuppressedLeak_iff : isUnsuppressedLeak env b = true ↔ IsLeak env b := by
  unfold isUnsuppressedLeak leakSuppressed IsLeak
  cases env.file b.allocFile <;> simp

theorem mem_leaks : b ∈ leaks env bs ↔ b ∈ bs ∧ IsLeak env b := by
  unfold leaks
  rw [List.mem_filter, isUnsuppressedLeak_iff]

theorem leaks_cons_of_leak (h : isUnsuppressedLeak env b = true) :
    leaks env (b :: bs) = b :: leaks env bs := List.filter_cons_of_pos h

theorem leaks_cons_of_not (h : isUnsuppressedLeak env b = false) :
    leaks env (b :: bs) = leaks env bs := List.filter_cons_of_neg (by simp [h])

/-- A name has one pointer or another, but `NULL` is no name. -/
theorem file_eq_iff {p q : UInt64} :
    env.file p = env.file q ↔ p = q ∨ (p ≠ 0 ∧ q ≠ 0 ∧ env.str p = env.str q) := by
  unfold Env.file
  rcases eq_or_ne p 0 with rfl | hp
  · rcases eq_or_ne q 0 with rfl | hq
    · simp
    · simp [hq, Ne.symm hq]
  · rcases eq_or_ne q 0 with rfl | hq
    · simp [hp]
    · simp only [hp, hq, if_false, Option.some.injEq, ne_eq, not_false_eq_true, true_and]
      exact ⟨.inr, fun h => h.elim (congrArg env.str) id⟩

/-- The comparison of two blocks compares their sites. -/
theorem sameSite_iff : sameSite env o b = true ↔ site env o = site env b := by
  unfold sameSite site
  rw [Prod.mk.injEq, file_eq_iff, and_comm]
  simp [and_assoc]

theorem countLeaks_eq (blocks : List Block) : countLeaks env blocks =
    (UInt64.ofNat (leaks env blocks).length, UInt64.ofNat (bytesOf (leaks env blocks))) := by
  have hfold : ∀ (bs : List Block) (n w : ℕ), bs.foldl
      (fun s b => (s.1 + 1, s.2 + b.userSize)) (UInt64.ofNat n, UInt64.ofNat w) =
      (UInt64.ofNat (n + bs.length), UInt64.ofNat (w + bytesOf bs)) := by
    intro bs
    induction bs with
    | nil => exact fun _ _ => rfl
    | cons b bs ih =>
      intro n w
      have hstep := ih (n + 1) (w + b.userSize.toNat)
      rw [UInt64.ofNat_add, UInt64.ofNat_add, UInt64.ofNat_toNat] at hstep
      refine hstep.trans ?_
      rw [Nat.add_assoc, Nat.add_comm 1, Nat.add_assoc]
      rfl
  have h := hfold (leaks env blocks) 0 0
  rw [Nat.zero_add, Nat.zero_add] at h
  exact List.foldl_filter.symm.trans h

theorem jsonLeaks_eq (blocks : List Block) : jsonLeaks env blocks =
    (leaks env blocks).flatMap fun b => jsonFinding env.trace (leakFinding env b) ++ [10] := by
  unfold jsonLeaks
  simp only [List.append_assoc]
  rw [List.flatMap_eq_foldl]
  exact List.foldl_filter.symm

theorem fillArray_eq (blocks : List Block) :
    fillArray env blocks = (leaks env blocks).map (leakFinding env) := by
  rw [List.map_eq_flatMap, List.flatMap_eq_foldl]
  exact List.foldl_filter.symm

end Leaks

/-! ## The lines of the text report -/

/-- The flags of `done` once the sites of `reported` have their lines. -/
def flags (env : Env) (reported : Site → Bool) (bs : List Block) : List Bool :=
  bs.map fun o => isUnsuppressedLeak env o && reported (site env o)

/-- The leaks whose site has no line yet. -/
def unreported (env : Env) (reported : Site → Bool) (bs : List Block) : List Block :=
  (leaks env bs).filter fun o => ¬ reported (site env o)

/-- The line of a site that has these leaks. -/
def groupLine (env : Env) (ls : List Block) (s : Site) : Text :=
  siteLine env s.1 s.2 (group (site env) s ls).length (bytesOf (group (site env) s ls))

section Lines

variable {env : Env} {b o : Block} {bs : List Block} {reported : Site → Bool} {s : Site}

theorem group_cons_of_eq {ls : List Block} (h : site env o = s) :
    group (site env) s (o :: ls) = o :: group (site env) s ls :=
  List.filter_cons_of_pos (decide_eq_true h)

theorem group_cons_of_ne {ls : List Block} (h : site env o ≠ s) :
    group (site env) s (o :: ls) = group (site env) s ls :=
  List.filter_cons_of_neg (by simp [h])

/-- A block that is not counted keeps its flag. -/
theorem foldSite_skip {d : Bool} {ds : List Bool} {count bytes : UInt64}
    (h : (d || !isUnsuppressedLeak env o) = true ∨ sameSite env o b = false) :
    foldSite env b (o :: bs) (d :: ds) count bytes =
      ((foldSite env b bs ds count bytes).1, (foldSite env b bs ds count bytes).2.1,
        d :: (foldSite env b bs ds count bytes).2.2) := by
  rw [foldSite]
  rcases h with h | h
  · rw [if_pos h]
  · rw [h]
    exact ite_self _

/-- A block that is counted is marked. -/
theorem foldSite_take {ds : List Bool} {count bytes : UInt64}
    (hleak : isUnsuppressedLeak env o = true) (hsame : sameSite env o b = true) :
    foldSite env b (o :: bs) (false :: ds) count bytes =
      ((foldSite env b bs ds (count + 1) (bytes + o.userSize)).1,
        (foldSite env b bs ds (count + 1) (bytes + o.userSize)).2.1,
        true :: (foldSite env b bs ds (count + 1) (bytes + o.userSize)).2.2) := by
  rw [foldSite, hleak, hsame]
  rfl

theorem flags_cons : flags env reported (o :: bs) =
    (isUnsuppressedLeak env o && reported (site env o)) :: flags env reported bs := rfl

/-- The inner loop adds up the leaks of one site, and marks them. -/
theorem foldSite_eq (hb : reported (site env b) = false) (bs : List Block) (n w : ℕ) :
    foldSite env b bs (flags env reported bs) (UInt64.ofNat n) (UInt64.ofNat w) =
      (UInt64.ofNat (n + (group (site env) (site env b) (leaks env bs)).length),
        UInt64.ofNat (w + bytesOf (group (site env) (site env b) (leaks env bs))),
        flags env (fun s => reported s || decide (s = site env b)) bs) := by
  induction bs generalizing n w with
  | nil => rfl
  | cons o bs ih =>
    rw [flags_cons, flags_cons]
    cases hleak : isUnsuppressedLeak env o with
    | false =>
      rw [foldSite_skip (.inl (by rw [hleak]; rfl)), ih, leaks_cons_of_not hleak]
      rfl
    | true =>
      rw [leaks_cons_of_leak hleak]
      rcases eq_or_ne (site env o) (site env b) with heq | hne
      · have hsame := ih (n + 1) (w + o.userSize.toNat)
        rw [UInt64.ofNat_add, UInt64.ofNat_add, UInt64.ofNat_toNat] at hsame
        rw [heq, hb, Bool.true_and, foldSite_take hleak (sameSite_iff.mpr heq), group_cons_of_eq heq,
          decide_eq_true rfl]
        refine (congrArg (fun r : UInt64 × UInt64 × List Bool => (r.1, r.2.1, true :: r.2.2))
          hsame).trans ?_
        rw [Nat.add_assoc, Nat.add_comm 1, Nat.add_assoc]
        rfl
      · have hother : sameSite env o b = false := by
          rw [Bool.eq_false_iff]
          exact fun h => hne (sameSite_iff.mp h)
        rw [foldSite_skip (.inr hother), ih, group_cons_of_ne hne, decide_eq_false hne,
          Bool.or_false]

theorem bytesOf_le_of_sublist {bs' : List Block} (h : List.Sublist bs bs') :
    bytesOf bs ≤ bytesOf bs' := (h.map _).sum_le_sum fun _ _ => Nat.zero_le _

/-- A leak whose site has no line gets one. -/
theorem siteLines_of_leak {ds : List Bool} (hleak : isUnsuppressedLeak env b = true) :
    siteLines env true (b :: bs) (false :: ds) =
      siteLine env (env.file b.allocFile) b.allocLine
        (foldSite env b bs ds 1 b.userSize).1.toNat (foldSite env b bs ds 1 b.userSize).2.1.toNat ++
        siteLines env true bs (foldSite env b bs ds 1 b.userSize).2.2 := by
  rw [siteLines, hleak]
  rfl

/-- Other blocks are passed over. -/
theorem siteLines_skip {d : Bool} {ds : List Bool}
    (h : isUnsuppressedLeak env b = false ∨ d = true) :
    siteLines env true (b :: bs) (d :: ds) = siteLines env true bs ds := by
  rw [siteLines]
  refine if_pos ?_
  rcases h with h | rfl
  · rw [h]
    rfl
  · rw [Bool.true_and, Bool.or_true]

/-- A line for every site that has none yet, with the leaks of the site. -/
theorem siteLines_eq (reported : Site → Bool) (bs : List Block)
    (hcount : (leaks env bs).length < 2 ^ 64) (hbytes : bytesOf (leaks env bs) < 2 ^ 64) :
    siteLines env true bs (flags env reported bs) =
      (keys (site env) (unreported env reported bs)).flatMap (groupLine env (leaks env bs)) := by
  induction bs generalizing reported with
  | nil => rfl
  | cons b bs ih =>
    rw [flags_cons]
    cases hleak : isUnsuppressedLeak env b with
    | false =>
      rw [leaks_cons_of_not hleak] at hcount hbytes ⊢
      unfold unreported
      rw [leaks_cons_of_not hleak, siteLines_skip (.inl hleak)]
      exact ih reported hcount hbytes
    | true =>
      rw [leaks_cons_of_leak hleak] at hcount hbytes ⊢
      have hcount' : (leaks env bs).length < 2 ^ 64 := Nat.lt_of_succ_lt hcount
      have hbytes' : bytesOf (leaks env bs) < 2 ^ 64 :=
        Nat.lt_of_le_of_lt (Nat.le_add_left _ _) hbytes
      -- the lines of the other sites do not depend on the first leak
      have hothers : ∀ ks : List Site, (∀ s ∈ ks, s ≠ site env b) →
          ks.flatMap (groupLine env (b :: leaks env bs)) =
            ks.flatMap (groupLine env (leaks env bs)) := by
        intro ks hks
        refine List.flatMap_congr fun s hs => ?_
        unfold groupLine
        rw [group_cons_of_ne (Ne.symm (hks s hs))]
      unfold unreported
      rw [leaks_cons_of_leak hleak, Bool.true_and]
      cases hrep : reported (site env b) with
      | true =>
        rw [List.filter_cons_of_neg (by simp [hrep]), hothers, siteLines_skip (.inr rfl)]
        · exact ih reported hcount' hbytes'
        · intro s hs heq
          obtain ⟨o, ho, rfl⟩ := mem_keys.mp hs
          have hnot := of_decide_eq_true (List.mem_filter.mp ho).2
          rw [heq] at hnot
          exact hnot hrep
      | false =>
        have hone : UInt64.ofNat 1 = 1 := rfl
        have hfold := foldSite_eq hrep bs 1 b.userSize.toNat
        rw [UInt64.ofNat_toNat, hone] at hfold
        have hcountb : 1 + (group (site env) (site env b) (leaks env bs)).length < 2 ^ 64 := by
          have hle : (group (site env) (site env b) (leaks env bs)).length ≤ (leaks env bs).length :=
            List.length_filter_le _ _
          rw [List.length_cons] at hcount
          omega
        have hbytesb : b.userSize.toNat + bytesOf (group (site env) (site env b) (leaks env bs)) <
            2 ^ 64 := Nat.lt_of_le_of_lt
          (Nat.add_le_add_left (bytesOf_le_of_sublist List.filter_sublist) _) hbytes
        have hrest : unreported env (fun s => reported s || decide (s = site env b)) bs =
            ((leaks env bs).filter fun o => ¬ reported (site env o)).filter
              fun o => ¬ site env o = site env b := by
          unfold unreported
          rw [List.filter_filter]
          exact List.filter_congr fun o _ => by simp [Bool.and_comm]
        rw [List.filter_cons_of_pos (by simp [hrep]), keys_cons, List.flatMap_cons, hothers]
        · rw [siteLines_of_leak hleak, hfold, ih _ hcount' hbytes', hrest]
          refine congrArg (· ++ _) ?_
          unfold groupLine
          rw [group_cons_of_eq rfl, UInt64.toNat_ofNat_of_lt' hcountb,
            UInt64.toNat_ofNat_of_lt' hbytesb, Nat.add_comm 1]
          rfl
        · intro s hs heq
          obtain ⟨o, ho, rfl⟩ := mem_keys.mp hs
          exact ne_of_mem_filter ho heq

end Lines

/-! ## The totals fit a word -/

section Totals

variable {env : Env} (t : Table)

/-- Disjoint extents do not hold more than the address space. -/
theorem Table.bytesOf_add_le : bytesOf t.blocks + 16 * t.blocks.length ≤ 2 ^ 64 := by
  have hsum : (t.blocks.map fun b => b.top - b.realBase.toNat).sum ≤ 2 ^ 64 :=
    sum_intervals_le t.disjoint fun b hb => (t.laid b hb).2.2
  refine Nat.le_trans (Nat.le_of_eq ?_) (Nat.le_trans (List.sum_le_sum
    (f := fun b : Block => b.userSize.toNat + 16) fun b hb => ?_) hsum)
  · rw [List.sum_map_add, bytesOf, List.map_const', List.sum_replicate, smul_eq_mul, Nat.mul_comm]
  · obtain ⟨hbase, htop, -⟩ := t.laid b hb
    rw [UInt64.le_iff_toNat_le] at hbase
    omega

theorem Table.length_leaks_lt : (leaks env t.blocks).length < 2 ^ 64 := by
  have hle : (leaks env t.blocks).length ≤ t.blocks.length := List.length_filter_le _ _
  have hbytes := t.bytesOf_add_le
  omega

theorem Table.bytesOf_leaks_lt : bytesOf (leaks env t.blocks) < 2 ^ 64 := by
  have hle : bytesOf (leaks env t.blocks) ≤ bytesOf t.blocks :=
    bytesOf_le_of_sublist List.filter_sublist
  have hbytes := t.bytesOf_add_le
  cases hblocks : t.blocks with
  | nil => exact Nat.two_pow_pos 64
  | cons b bs =>
    rw [hblocks, List.length_cons] at hbytes
    rw [hblocks] at hle
    omega

end Totals

/-- A block of the allocator, with a pointer for its file name. -/
def ofShadow (pointer : String → UInt64) (b : Shadow.Block) : Block where
  realBase := UInt64.ofNat b.realBase
  totalSize := UInt64.ofNat b.totalSize
  userAddr := UInt64.ofNat b.userAddr
  userSize := UInt64.ofNat b.userSize
  freed := b.freed
  allocFile := b.allocFile.elim 0 pointer
  allocLine := b.allocLine

/-- Blocks that are laid out form a table. -/
theorem exists_table {w : Shadow.World} (hinv : w.Inv) (pointer : String → UInt64) :
    ∃ t : Table, t.blocks = w.rt.blocks.map (ofShadow pointer) := by
  have hfit : ∀ b ∈ w.rt.blocks, b.obj.OK ∧ (ofShadow pointer b).realBase.toNat = b.realBase ∧
      (ofShadow pointer b).top = b.obj.top ∧ (ofShadow pointer b).userAddr.toNat = b.userAddr ∧
      (ofShadow pointer b).userSize.toNat = b.userSize := by
    intro b hb
    have hok := hinv.ok b.obj (Shadow.World.mem_objs.mpr (Or.inl ⟨b, hb, rfl⟩))
    have hle := hok.lo_le
    have huser := hok.user_le
    have hguard := hok.guard
    have htop := hok.top_le
    simp only [Shadow.Block.obj, Shadow.shadowLimit, Shadow.redzoneSize] at hle huser hguard htop
    have hword : ∀ n, n ≤ 2 ^ 47 → (UInt64.ofNat n).toNat = n := fun n hn =>
      UInt64.toNat_ofNat_of_lt' (Nat.lt_of_le_of_lt hn (by decide))
    have hbase := hword b.realBase (by omega)
    have htotal := hword b.totalSize (by omega)
    refine ⟨hok, hbase, ?_, hword b.userAddr (by omega), hword b.userSize (by omega)⟩
    simp only [Block.top, ofShadow, Shadow.Block.obj, hbase, htotal]
  refine ⟨⟨w.rt.blocks.map (ofShadow pointer), ?_, ?_⟩, rfl⟩
  · intro b hb
    obtain ⟨b', hb', rfl⟩ := List.mem_map.mp hb
    obtain ⟨hok, hbase, htop, haddr, hsize⟩ := hfit b' hb'
    rw [UInt64.le_iff_toNat_le, hbase, haddr, hsize, htop]
    exact ⟨hok.lo_le, hok.guard, Nat.le_trans hok.top_le (by decide)⟩
  · refine List.pairwise_map.mpr ?_
    have hdisj : (w.rt.blocks.map fun b => b.obj.region).Pairwise Foundation.Region.Disjoint := by
      have h := hinv.tiled.disjoint
      unfold Shadow.World.objs at h
      rw [List.map_append, List.map_map] at h
      exact (List.pairwise_append.mp h).1
    refine (List.pairwise_map.mp hdisj).imp_of_mem fun {b b'} hb hb' h => ?_
    obtain ⟨-, hbase, htop, -, -⟩ := hfit b hb
    obtain ⟨-, hbase', htop', -, -⟩ := hfit b' hb'
    rw [hbase, htop, hbase', htop']
    have hup : ∀ x, x ≤ roundUp8 x := fun x => by unfold roundUp8; omega
    rcases h with h | h
    · exact .inl (Nat.le_trans (hup _) h)
    · exact .inr (Nat.le_trans (hup _) h)

/-- In every state that the allocator reaches, the blocks form a table. -/
theorem exists_table_of_run {ops : List Shadow.Op} {w : Shadow.World}
    (hrun : Shadow.worldRun ops = some w) (pointer : String → UInt64) :
    ∃ t : Table, t.blocks = w.rt.blocks.map (ofShadow pointer) :=
  exists_table (Shadow.World.inv_of_run hrun) pointer

/-! ## The reports agree -/

/-- What the JSON report says of a leak. -/
def leakSeen (env : Env) (b : Block) : Seen where
  error := ascii "memory-leak"
  access := none
  size := b.userSize.toNat
  address := if b.userAddr ≠ 0 then some b.userAddr.toNat else none
  location := (env.file b.allocFile).map fun file => ⟨file.bytes, b.allocLine⟩
  region := none
  stack := none

/-- What the SARIF report says of a leak. -/
def leakResult (env : Env) (b : Block) : SarifResult where
  ruleId := ascii "memory-leak"
  access := none
  size := b.userSize.toNat
  location := (env.file b.allocFile).map fun file => ⟨file.bytes, b.allocLine⟩

/-- What the three reports say of a table, when leaks are reported and memory suffices. -/
structure ReportsAgree (env : Env) (t : Table) (report : Format → Outcome) : Prop where
  /-- The leaks are the blocks that were not freed and are not suppressed. -/
  leaks : ∀ b, b ∈ leaks env t.blocks ↔ b ∈ t.blocks ∧ IsLeak env b
  /-- Nothing happens without a leak. -/
  quiet : ∀ format, (report format).printed = [] ∧ (report format).exit = none ↔
    Report.leaks env t.blocks = []
  /-- With one something is printed, and the process exits with status 1. -/
  loud : ∀ format, Report.leaks env t.blocks ≠ [] →
    (report format).printed ≠ [] ∧ (report format).exit = some 1
  /-- JSON: a line with one object for each leak. -/
  json : ∃ docs : List Text, (report .json).printed = docs.flatMap (· ++ [10]) ∧
    (∀ d ∈ docs, 10 ∉ d) ∧ docs.map (fun d => (decode d).bind Seen.ofJson) =
      (Report.leaks env t.blocks).map fun b => some (leakSeen env b)
  /-- SARIF: a document with one result for each leak. -/
  sarif : Report.leaks env t.blocks ≠ [] → (decode (report .sarif).printed).bind sarifResults =
    some ((Report.leaks env t.blocks).map (leakResult env))
  /-- Text: the totals and a line for each site, which add up to them. -/
  text : Report.leaks env t.blocks ≠ [] → ∃ sites : List Site, sites.Nodup ∧
    (∀ s, s ∈ sites ↔ ∃ b ∈ Report.leaks env t.blocks, site env b = s) ∧
    (report .text).printed = leakHeader env (Report.leaks env t.blocks).length
        (bytesOf (Report.leaks env t.blocks)) ++
      sites.flatMap (groupLine env (Report.leaks env t.blocks)) ∧
    (sites.map fun s => (group (site env) s (Report.leaks env t.blocks)).length).sum =
      (Report.leaks env t.blocks).length ∧
    (sites.map fun s => bytesOf (group (site env) s (Report.leaks env t.blocks))).sum =
      bytesOf (Report.leaks env t.blocks)

section Agree

variable {env : Env} {t : Table} {format : Format}

/-- Without a leak the report returns at once. -/
theorem reportLeaks_none (h : leaks env t.blocks = []) :
    reportLeaks env true true format t.blocks = ⟨[], none⟩ := by
  unfold reportLeaks
  rw [countLeaks_eq, h]
  rfl

/-- With a leak the format decides. -/
theorem reportLeaks_some (h : leaks env t.blocks ≠ []) :
    reportLeaks env true true format t.blocks = ⟨match format with
      | .json => jsonLeaks env t.blocks
      | .sarif => sarifDoc (fillArray env t.blocks)
      | .text => leakHeader env (leaks env t.blocks).length (bytesOf (leaks env t.blocks)) ++
          siteLines env true t.blocks (t.blocks.map fun _ => false), some 1⟩ := by
  have hcount : (UInt64.ofNat (leaks env t.blocks).length).toNat = (leaks env t.blocks).length :=
    UInt64.toNat_ofNat_of_lt' t.length_leaks_lt
  have hbytes : (UInt64.ofNat (bytesOf (leaks env t.blocks))).toNat =
      bytesOf (leaks env t.blocks) :=
    UInt64.toNat_ofNat_of_lt' t.bytesOf_leaks_lt
  have hne : UInt64.ofNat (leaks env t.blocks).length ≠ 0 := by
    intro hzero
    rw [hzero] at hcount
    exact h (List.eq_nil_of_length_eq_zero hcount.symm)
  unfold reportLeaks
  rw [countLeaks_eq]
  simp only [Bool.not_true, Bool.false_eq_true, if_false, if_neg hne, hcount, hbytes]
  cases format <;> rfl

/-- With a leak every format prints something. -/
theorem printed_ne_nil (h : leaks env t.blocks ≠ []) :
    (reportLeaks env true true format t.blocks).printed ≠ [] := by
  have htotal : ascii " byte(s) total\n" ≠ [] := List.cons_ne_nil _ _
  rw [reportLeaks_some h]
  dsimp only
  cases format with
  | text =>
    dsimp only
    unfold leakHeader
    intro hnil
    exact htotal (List.append_eq_nil_iff.mp (List.append_eq_nil_iff.mp hnil).1).2
  | json =>
    dsimp only
    rw [jsonLeaks_eq]
    obtain ⟨b, bs, hbs⟩ := List.exists_cons_of_ne_nil h
    rw [hbs, List.flatMap_cons]
    intro hnil
    exact List.cons_ne_nil _ _ (List.append_eq_nil_iff.mp (List.append_eq_nil_iff.mp hnil).1).2
  | sarif =>
    dsimp only
    rw [sarifDoc, sarif_tail]
    intro hnil
    exact List.cons_ne_nil _ _ (List.append_eq_nil_iff.mp hnil).2

theorem seen_leakFinding (b : Block) : (leakFinding env b).seen env.trace = leakSeen env b := by
  unfold Finding.seen leakFinding leakSeen
  simp

theorem jsonLeaks_docs : ∃ docs : List Text, jsonLeaks env t.blocks = docs.flatMap (· ++ [10]) ∧
    (∀ d ∈ docs, 10 ∉ d) ∧ docs.map (fun d => (decode d).bind Seen.ofJson) =
      (leaks env t.blocks).map fun b => some (leakSeen env b) := by
  refine ⟨(leaks env t.blocks).map fun b => jsonFinding env.trace (leakFinding env b), ?_, ?_, ?_⟩
  · rw [jsonLeaks_eq, List.flatMap_map]
  · intro d hd hmem
    obtain ⟨b, -, rfl⟩ := List.mem_map.mp hd
    exact absurd (printable_jsonFinding env.trace (leakFinding env b) 10 hmem) (by decide)
  · rw [List.map_map]
    refine List.map_congr_left fun b _ => ?_
    rw [Function.comp_apply, (isText_jsonFinding env.trace (leakFinding env b)).decode,
      Option.bind_some, Seen.ofJson_members, seen_leakFinding]

theorem sarif_leaks : (decode (sarifDoc (fillArray env t.blocks))).bind sarifResults =
    some ((leaks env t.blocks).map (leakResult env)) := by
  rw [(derives_sarifDoc _).decode, Option.bind_some, sarifResults_sarifJson, fillArray_eq,
    List.map_map]
  rfl

theorem siteLines_start : siteLines env true t.blocks (t.blocks.map fun _ => false) =
    (keys (site env) (leaks env t.blocks)).flatMap (groupLine env (leaks env t.blocks)) := by
  have h : siteLines env true t.blocks (flags env (fun _ => false) t.blocks) = _ :=
    siteLines_eq (fun _ => false) t.blocks t.length_leaks_lt t.bytesOf_leaks_lt
  have hflags : flags env (fun _ => false) t.blocks = t.blocks.map fun _ => false :=
    List.map_congr_left fun _ _ => Bool.and_false _
  have hall : unreported env (fun _ => false) t.blocks = leaks env t.blocks :=
    List.filter_eq_self.mpr fun _ _ => rfl
  rwa [hflags, hall] at h

/-- The three leak reports agree, for every table and every list of suppressions. -/
theorem leak_reports_agree (env : Env) (t : Table) :
    ReportsAgree env t fun format => reportLeaks env true true format t.blocks where
  leaks := fun _ => mem_leaks
  quiet := by
    intro format
    constructor
    · rintro ⟨hprinted, -⟩
      exact not_not.mp fun hne => printed_ne_nil hne hprinted
    · intro h
      rw [reportLeaks_none h]
      exact ⟨rfl, rfl⟩
  loud := fun format h => ⟨printed_ne_nil h, by rw [reportLeaks_some h]⟩
  json := by
    by_cases h : leaks env t.blocks = []
    · refine ⟨[], ?_, fun _ hd => absurd hd List.not_mem_nil, by rw [h]; rfl⟩
      rw [reportLeaks_none h]
      rfl
    · rw [reportLeaks_some h]
      exact jsonLeaks_docs
  sarif := by
    intro h
    rw [reportLeaks_some h]
    exact sarif_leaks
  text := by
    intro h
    refine ⟨keys (site env) (leaks env t.blocks), keys_nodup, fun _ => mem_keys, ?_,
      sum_lengths _ _, sum_groups _ _ _⟩
    rw [reportLeaks_some h, ← siteLines_start]

end Agree

end Redzone.Report
