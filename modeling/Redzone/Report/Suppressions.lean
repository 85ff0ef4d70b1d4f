/-
  Report/Suppressions.lean --- the file of suppression rules.

  `loadSuppressions` reads the file with `fgets` into a buffer of 512 bytes and takes what
  is in the buffer for a line.  `ruleOf` is the rule of a line as the documentation has
  it: `leak:<substring>`, without the blanks around it.

  The rules of a line are those of its parts of 511 bytes (`rulesByLine_eq`).  So the file
  is read line by line exactly if each line fits: a rule lies within one part, with only
  blanks in the others, and no later part of another line looks like a rule.
-/
import Redzone.Foundation.Lines
import Mathlib.Data.List.DropRight

set_option autoImplicit false

namespace Redzone.Report

open Redzone.Foundation

/-! ## The code -/

/-- A blank or a tab. -/
def isBlank (c : UInt8) : Bool := c == 32 || c == 9

/-- What is trimmed from the end of a line. -/
def isTrailing (c : UInt8) : Bool := c == 10 || c == 13 || c == 32 || c == 9

/-- The body of the loop in `load_suppressions`: the pattern that is in the buffer. -/
def parseRule (buf : Text) : Option Text :=
  let s := (CStr.ofBuffer buf).bytes.dropWhile isBlank
  if s.head? = some 35 ∨ s.head? = none ∨ s.head? = some 10 ∨ s.head? = some 13 then none
  else
    let s := s.rdropWhile isTrailing
    if ¬ ascii "leak:" <+: s then none -- only leak rules are supported for now
    else
      let pat := s.drop 5
      if pat = [] then none else some pat

/-- `loaded` and `g_supp[0 .. g_supp_n)`. -/
structure Supp where
  loaded : Bool
  rules : List CStr

/-- The loop of `load_suppressions` over what `fgets` returns.  `ok` says of each turn
whether `realloc` and `strdup` succeed. -/
def loadLoop (ok : ℕ → Bool × Bool) : ℕ → List CStr → List Text → List CStr
  | _, supp, [] => supp
  | i, supp, line :: rest =>
    match parseRule line with
    | none => loadLoop ok (i + 1) supp rest
    | some pat =>
      if ¬ (ok i).1 then supp
      else if (ok i).2 then loadLoop ok (i + 1) (supp ++ [CStr.ofBuffer pat]) rest
      else loadLoop ok (i + 1) supp rest

/-- `load_suppressions`.  `file` is the content of the file that `REDZONE_SUPPRESSIONS`
names, if it can be opened. -/
def loadSuppressions (ok : ℕ → Bool × Bool) (file : Option Text) (supp : Supp) : Supp :=
  if supp.loaded then supp
  else
    match file with
    | none => { supp with loaded := true }
    | some text => ⟨true, loadLoop ok 0 supp.rules (pieces 511 text)⟩

/-! ## The lines -/

/-- A blank, a tab or a carriage return. -/
def isBlankOrCr (c : UInt8) : Bool := c == 32 || c == 9 || c == 13

/-- A line without the blanks around it. -/
def trim (l : Text) : Text := (l.dropWhile isBlank).rdropWhile isBlankOrCr

/-- The pattern of a line of the form `leak:<substring>`. -/
def ruleOf (l : Text) : Option Text :=
  if ascii "leak:" <+: trim l ∧ 5 < (trim l).length then some ((trim l).drop 5) else none

/-- The patterns that are found while each of the lines is read. -/
def rulesByLine (text : Text) : List (List Text) :=
  groups (fun buf => (parseRule buf).toList) (pieces 511 text)

/-! ## The form of a rule -/

/-- A line is the rule for a pattern, with blanks around it. -/
def IsRule (pat l : Text) : Prop :=
  ∃ pre post, l = pre ++ (ascii "leak:" ++ pat) ++ post ∧ (∀ c ∈ pre, isBlank c = true) ∧
    (∀ c ∈ post, isBlankOrCr c = true) ∧ ∃ init c, pat = init ++ [c] ∧ isBlankOrCr c = false

section Rules

variable {pat l pre post x : Text} {c : UInt8} {p q : UInt8 → Bool}

theorem rdropWhile_append_rtakeWhile (p : UInt8 → Bool) (x : Text) :
    x.rdropWhile p ++ x.rtakeWhile p = x := by
  rw [List.rdropWhile, List.rtakeWhile, ← List.reverse_append, List.takeWhile_append_dropWhile,
    List.reverse_reverse]

theorem rdropWhile_append (h : ∀ c ∈ post, p c = true) :
    (x ++ post).rdropWhile p = x.rdropWhile p := by
  unfold List.rdropWhile
  rw [List.reverse_append, List.dropWhile_append_of_pos fun c hc => h c (List.mem_reverse.mp hc)]

theorem rdropWhile_congr (h : ∀ c ∈ x, p c = q c) : x.rdropWhile p = x.rdropWhile q := by
  induction x using List.reverseRecOn with
  | nil => rfl
  | append_singleton x c ih =>
    rw [List.rdropWhile_concat, List.rdropWhile_concat, h c List.mem_concat_self,
      ih fun c hc => h c (List.mem_append_left _ hc)]

/-- A line without its blanks on the left, as it is trimmed. -/
theorem trim_append (hpre : ∀ c ∈ pre, isBlank c = true) (hhead : isBlank c = false)
    (hpost : ∀ d ∈ post, isBlankOrCr d = true) :
    trim (pre ++ c :: x ++ post) = (c :: x).rdropWhile isBlankOrCr := by
  unfold trim
  rw [List.append_assoc, List.dropWhile_append_of_pos hpre, List.cons_append,
    List.dropWhile_cons_of_neg (by rw [hhead]; exact Bool.false_ne_true), ← List.cons_append,
    rdropWhile_append hpost]

/-- Trimming takes blanks away, and nothing else. -/
theorem exists_trim (l : Text) : ∃ pre post, l = pre ++ trim l ++ post ∧
    (∀ c ∈ pre, isBlank c = true) ∧ ∀ c ∈ post, isBlankOrCr c = true := by
  refine ⟨l.takeWhile isBlank, (l.dropWhile isBlank).rtakeWhile isBlankOrCr, ?_,
    fun _ hc => List.mem_takeWhile_imp hc, fun _ hc => List.mem_rtakeWhile_imp hc⟩
  unfold trim
  rw [List.append_assoc, rdropWhile_append_rtakeWhile, List.takeWhile_append_dropWhile]

/-- The pattern that is read off a line is the one that the line has a rule for. -/
theorem ruleOf_eq_some_iff : ruleOf l = some pat ↔ IsRule pat l := by
  constructor
  · intro h
    unfold ruleOf at h
    split at h
    · rename_i hrule
      obtain ⟨⟨pat', htrim⟩, hlen⟩ := hrule
      obtain rfl := Option.some.inj h
      obtain ⟨pre, post, hl, hpre, hpost⟩ := exists_trim l
      have hpat : (trim l).drop 5 = pat' := by
        rw [← htrim]
        exact List.drop_left' rfl
      have hne : pat' ≠ [] := by
        rintro rfl
        rw [← htrim] at hlen
        exact absurd hlen (by decide)
      have hlast := List.rdropWhile_last_not isBlankOrCr (l.dropWhile isBlank)
        (List.ne_nil_of_length_pos (Nat.lt_of_le_of_lt (Nat.zero_le 5) hlen))
      refine ⟨pre, post, by rw [hpat, htrim]; exact hl, hpre, hpost, pat'.dropLast,
        pat'.getLast hne, by rw [hpat, List.dropLast_append_getLast], ?_⟩
      rw [Bool.not_eq_true] at hlast
      rw [← hlast]
      refine congrArg isBlankOrCr ?_
      have hsame : (trim l).getLast? = pat'.getLast? := by
        rw [← htrim, List.getLast?_append_of_ne_nil _ hne]
      rw [List.getLast?_eq_getLast_of_ne_nil hne] at hsame
      exact (List.getLast_eq_iff_getLast?_eq_some _).mpr hsame |>.symm
    · exact absurd h (by simp)
  · rintro ⟨pre, post, rfl, hpre, hpost, init, c, rfl, hc⟩
    have htrim : trim (pre ++ (ascii "leak:" ++ (init ++ [c])) ++ post) =
        ascii "leak:" ++ (init ++ [c]) := by
      refine (trim_append (c := 108) hpre rfl hpost).trans ?_
      show ((ascii "leak:" ++ (init ++ [c])) : Text).rdropWhile isBlankOrCr = _
      rw [← List.append_assoc,
        List.rdropWhile_concat_neg _ _ _ (by rw [hc]; exact Bool.false_ne_true)]
    unfold ruleOf
    rw [htrim, if_pos]
    · rfl
    · refine ⟨List.prefix_append _ _, ?_⟩
      have hlen : (ascii "leak:").length = 5 := rfl
      rw [List.length_append, List.length_append, hlen, List.length_singleton]
      omega

/-- A text of blanks is no rule. -/
theorem ruleOf_blank (h : ∀ c ∈ l, isBlankOrCr c = true) : ruleOf l = none := by
  rw [Option.eq_none_iff_forall_ne_some]
  intro pat hpat
  obtain ⟨pre, post, rfl, -, -, -⟩ := ruleOf_eq_some_iff.mp hpat
  have hchar := h 108 (List.mem_append_left _ (List.mem_append_right _ List.mem_cons_self))
  exact absurd hchar (by decide)

theorem isBlankOrCr_of_isBlank (h : isBlank c = true) : isBlankOrCr c = true := by
  unfold isBlank at h
  unfold isBlankOrCr
  rw [h, Bool.true_or]

theorem mem_part {m k : ℕ} (h : c ∈ part m k l) : c ∈ l :=
  List.mem_of_mem_drop (List.mem_of_mem_take h)

/-- The buffer is trimmed as the line is: the line end is one more character to trim. -/
theorem parseRule_eq (hnul : 0 ∉ l) (hend : 10 ∉ l) {e : Text} (he : e = [] ∨ e = [10]) :
    parseRule (l ++ e) = ruleOf l := by
  have hbytes : (CStr.ofBuffer (l ++ e)).bytes = l ++ e := by
    refine CStr.ofBuffer_bytes fun h => ?_
    rcases List.mem_append.mp h with h | h
    · exact hnul h
    · rcases he with rfl | rfl <;> exact absurd h (by decide)
  have hetrail : ∀ d ∈ e, isTrailing d = true := by
    rcases he with rfl | rfl
    · exact fun _ hd => absurd hd List.not_mem_nil
    · exact List.forall_mem_singleton.mpr rfl
  unfold parseRule
  simp only [hbytes]
  cases hdrop : l.dropWhile isBlank with
  | nil =>
    have hblank := List.dropWhile_eq_nil_iff.mp hdrop
    rw [List.dropWhile_append_of_pos hblank,
      ruleOf_blank fun c hc => isBlankOrCr_of_isBlank (hblank c hc)]
    rcases he with rfl | rfl <;> rfl
  | cons c x =>
    have hmem : ∀ d ∈ c :: x, d ∈ l := fun d hd =>
      (List.dropWhile_sublist isBlank).subset (hdrop ▸ hd)
    have hs : (l ++ e).dropWhile isBlank = c :: x ++ e := by
      rw [List.dropWhile_append, hdrop]
      rfl
    have htrim : (c :: x ++ e).rdropWhile isTrailing = trim l := by
      unfold trim
      rw [rdropWhile_append hetrail, hdrop]
      refine rdropWhile_congr fun d hd => ?_
      have hd10 : (d == 10) = false := beq_false_of_ne fun h => hend (h ▸ hmem d hd)
      unfold isTrailing isBlankOrCr
      rw [hd10, Bool.false_or, Bool.or_assoc, Bool.or_comm]
    rw [hs, htrim]
    unfold ruleOf
    split
    · -- a comment, or a carriage return at the start
      rename_i hskip
      rw [if_neg]
      rintro ⟨⟨pat, hpat⟩, -⟩
      have hhead : (trim l).head? = some 108 := by rw [← hpat]; rfl
      have hprefix : trim l <+: c :: x := by
        unfold trim
        rw [hdrop]
        exact List.rdropWhile_prefix _ _
      obtain ⟨post, hpost⟩ := hprefix
      rw [← hpat] at hpost
      obtain rfl : 108 = c := (List.cons.inj hpost).1
      rcases hskip with h | h | h | h <;> exact absurd h (by simp)
    · split
      · rename_i hno
        exact (if_neg fun h => hno h.1).symm
      · rename_i hyes
        split
        · rename_i hpat
          rw [if_neg fun h => absurd (List.drop_eq_nil_iff.mp hpat) (Nat.not_le.mpr h.2)]
        · rename_i hpat
          rw [if_pos ⟨not_not.mp hyes, Nat.lt_of_not_le fun h => hpat (List.drop_eq_nil_of_le h)⟩]

/-! ## Lines that are read in parts -/

/-- A line is read as it is: its rule lies within one part, or it has none and no later
part looks like one. -/
structure Fits (l : Text) : Prop where
  rule : ruleOf l ≠ none → (l.takeWhile isBlank).length / 511 =
    ((l.takeWhile isBlank).length + (trim l).length - 1) / 511
  other : ruleOf l = none → ∀ k, 0 < k → ruleOf (part 511 k l) = none

/-- Where a text starts in a line is known, if what surrounds it has neither its first nor
its last character. -/
theorem append_place {body u v : Text} {b d : UInt8} {tail init : Text}
    (h : pre ++ (body ++ post) = u ++ (body ++ v)) (hhead : body = b :: tail)
    (hlast : body = init ++ [d]) (hpre : b ∉ pre) (hpost : d ∉ post) : u = pre := by
  rcases List.append_eq_append_iff.mp h with ⟨e, rfl, he⟩ | ⟨e, rfl, he⟩
  · rw [← List.append_assoc] at he
    rcases List.append_eq_append_iff.mp he with ⟨e', hsame, rfl⟩ | ⟨e', hsame, -⟩
    · have hlen := congrArg List.length hsame
      rw [List.length_append, List.length_append] at hlen
      rcases eq_or_ne e' [] with rfl | hne
      · rw [List.eq_nil_of_length_eq_zero (l := e) (by simpa using hlen), List.append_nil]
      · have hend : e'.getLast? = some d := by
          rw [← List.getLast?_append_of_ne_nil body hne, ← hsame, hlast, ← List.append_assoc,
            List.getLast?_concat]
        exact absurd (List.mem_append_left _ (List.mem_of_getLast? hend)) hpost
    · have hlen := congrArg List.length hsame
      rw [List.length_append, List.length_append] at hlen
      rw [List.eq_nil_of_length_eq_zero (l := e) (by omega), List.append_nil]
  · cases e with
    | nil => exact (List.append_nil u).symm
    | cons b' e =>
      rw [hhead] at he
      obtain rfl := (List.cons.inj he).1
      exact absurd (List.mem_append_right _ List.mem_cons_self) hpre

/-- The rule of a line is what is left when the line is trimmed. -/
theorem IsRule.place (h : IsRule pat l) : ∃ post,
    l = l.takeWhile isBlank ++ (trim l ++ post) ∧ trim l = ascii "leak:" ++ pat ∧
      ∀ c ∈ post, isBlankOrCr c = true := by
  obtain ⟨pre, post, hl, hpre, hpost⟩ := exists_trim l
  have hrule := ruleOf_eq_some_iff.mpr h
  unfold ruleOf at hrule
  split at hrule
  · rename_i hform
    obtain ⟨⟨pat', htrim⟩, -⟩ := hform
    have hpat : pat' = pat := by
      have hdrop : (ascii "leak:" ++ pat').drop 5 = pat' := List.drop_left' rfl
      rw [← htrim, hdrop] at hrule
      exact Option.some.inj hrule
    have htake : l.takeWhile isBlank = pre := by
      rw [hl, ← htrim, List.append_assoc, List.takeWhile_append_of_pos hpre]
      exact List.append_nil pre
    exact ⟨post, by rw [htake, ← List.append_assoc]; exact hl, by rw [← htrim, hpat], hpost⟩
  · exact absurd hrule (by simp)

/-- A rule that lies within a part is the rule of that part. -/
theorem ruleOf_part {k : ℕ} (h : IsRule pat l)
    (hlo : (l.takeWhile isBlank).length / 511 = k)
    (hhi : ((l.takeWhile isBlank).length + (trim l).length - 1) / 511 = k) :
    ruleOf (part 511 k l) = some pat := by
  obtain ⟨-, -, -, -, -, hlast⟩ := id h
  obtain ⟨post, hl, htrim, hpost⟩ := h.place
  have hpos : 0 < (trim l).length := by
    rw [htrim]
    exact Nat.succ_pos _
  obtain ⟨rest, hpart, hrest⟩ : ∃ rest,
      part 511 k (l.takeWhile isBlank ++ (trim l ++ post)) =
        (l.takeWhile isBlank).drop (511 * k) ++ (trim l ++ rest) ∧ ∀ c ∈ rest, c ∈ post :=
    part_middle (by omega) (by omega)
  rw [← hl, htrim, ← List.append_assoc] at hpart
  exact ruleOf_eq_some_iff.mpr ⟨_, rest, hpart,
    fun c hc => List.mem_takeWhile_imp (List.mem_of_mem_drop hc), fun c hc => hpost c (hrest c hc),
    hlast⟩

/-- The other parts of such a line are blank. -/
theorem ruleOf_part_other {k k' : ℕ} (h : IsRule pat l)
    (hlo : (l.takeWhile isBlank).length / 511 = k)
    (hhi : ((l.takeWhile isBlank).length + (trim l).length - 1) / 511 = k) (hne : k' ≠ k) :
    ruleOf (part 511 k' l) = none := by
  obtain ⟨post, hl, htrim, hpost⟩ := h.place
  refine ruleOf_blank fun c hc => ?_
  rw [hl] at hc
  rcases Nat.lt_or_gt_of_ne hne with hlt | hgt
  · have hpre := mem_of_part_before (by omega) hc
    exact isBlankOrCr_of_isBlank (List.mem_takeWhile_imp hpre)
  · rw [← List.append_assoc] at hc
    exact hpost c (mem_of_part_behind (by rw [List.length_append]; omega) hc)

/-- A part that gives the rule of the line has all of it. -/
theorem IsRule.within {k : ℕ} (h : IsRule pat l) (hk : IsRule pat (part 511 k l)) :
    (l.takeWhile isBlank).length / 511 = k ∧
      ((l.takeWhile isBlank).length + (trim l).length - 1) / 511 = k := by
  obtain ⟨-, -, -, -, -, init, d, hinit, hd⟩ := id h
  obtain ⟨post, hl, htrim, hpost⟩ := h.place
  obtain ⟨pre', post', hpart, -⟩ := id hk
  have hne : part 511 k l ≠ [] := by
    rw [hpart]
    simp [ascii]
  obtain ⟨x, y, hsplit, hx, hlen⟩ := part_split hne
  have hplace : x ++ pre' = l.takeWhile isBlank := by
    have hboth : l.takeWhile isBlank ++ ((ascii "leak:" ++ pat) ++ post) =
        (x ++ pre') ++ ((ascii "leak:" ++ pat) ++ (post' ++ y)) := by
      rw [← htrim, ← hl, htrim]
      rw [hpart] at hsplit
      simpa only [List.append_assoc] using hsplit
    refine append_place hboth rfl (by rw [hinit, ← List.append_assoc]) ?_ ?_
    · exact fun hmem => absurd (List.mem_takeWhile_imp hmem) (by decide)
    · intro hmem
      rw [hpost d hmem] at hd
      exact absurd hd (by decide)
  have hpos : 0 < (trim l).length := by
    rw [htrim]
    exact Nat.succ_pos _
  rw [hpart, List.length_append, List.length_append, ← htrim] at hlen
  rw [← hplace, List.length_append, hx]
  omega

/-- What does not end in a blank is not trimmed, whatever comes after it. -/
theorem exists_rdropWhile (hc : p c = false) (y : Text) :
    ∃ y', (x ++ [c] ++ y).rdropWhile p = x ++ [c] ++ y' := by
  induction y using List.reverseRecOn with
  | nil =>
    refine ⟨[], ?_⟩
    rw [List.append_nil, List.rdropWhile_concat_neg _ _ _ (by rw [hc]; exact Bool.false_ne_true)]
  | append_singleton y d ih =>
    rw [← List.append_assoc, List.rdropWhile_concat]
    split
    · exact ih
    · exact ⟨y ++ [d], (List.append_assoc _ _ _)⟩

/-- The first part of a line without a rule has none. -/
theorem ruleOf_first_part (h : ruleOf l = none) : ruleOf (part 511 0 l) = none := by
  rw [Option.eq_none_iff_forall_ne_some]
  intro pat hpat
  obtain ⟨pre, post, hpart, hpre, -, init, c, rfl, hc⟩ := ruleOf_eq_some_iff.mp hpat
  have hl : l = pre ++ 108 :: (ascii "eak:" ++ init ++ [c] ++ (post ++ l.drop 511)) ++ [] := by
    rw [List.append_nil]
    refine (List.take_append_drop 511 l).symm.trans ?_
    have htake : l.take 511 = part 511 0 l := rfl
    rw [htake, hpart]
    simp only [List.append_assoc]
    rfl
  obtain ⟨y, hy⟩ := exists_rdropWhile (x := ascii "leak:" ++ init) hc (post ++ l.drop 511)
  have htrim : trim l = ascii "leak:" ++ (init ++ [c] ++ y) := by
    rw [hl, trim_append hpre rfl fun _ hd => absurd hd List.not_mem_nil]
    refine Eq.trans hy ?_
    simp only [List.append_assoc]
  have hlen : 5 < (trim l).length := by
    have hleak : (ascii "leak:").length = 5 := rfl
    rw [htrim]
    simp only [List.length_append, hleak, List.length_singleton]
    omega
  unfold ruleOf at h
  rw [if_pos ⟨⟨_, htrim.symm⟩, hlen⟩] at h
  exact absurd h (by simp)

/-- The parts of a line give its rule, and nothing else, exactly if the line fits. -/
theorem ofParts_eq_iff :
    ofParts 511 (fun p => (ruleOf p).toList) l = (ruleOf l).toList ↔ Fits l := by
  cases hrule : ruleOf l with
  | some pat =>
    have h := ruleOf_eq_some_iff.mp hrule
    constructor
    · intro heq
      have hmem : pat ∈ ofParts 511 (fun p => (ruleOf p).toList) l := by
        rw [heq]
        exact List.mem_singleton.mpr rfl
      obtain ⟨k, -, hk⟩ := List.mem_flatMap.mp hmem
      obtain ⟨hlo, hhi⟩ := h.within (ruleOf_eq_some_iff.mp (Option.mem_toList.mp hk))
      exact ⟨fun _ => hlo.trans hhi.symm, fun hnone => absurd (hrule.symm.trans hnone) (by simp)⟩
    · intro hfits
      have hin := hfits.rule (by rw [hrule]; exact Option.some_ne_none pat)
      rw [ofParts_eq_single (k := (l.takeWhile isBlank).length / 511), ruleOf_part h rfl hin.symm]
      · exact Nat.div_le_div_right (List.takeWhile_prefix isBlank).length_le
      · intro k hk
        rw [ruleOf_part_other h rfl hin.symm hk]
        rfl
  | none =>
    rw [Option.toList_none, ofParts_eq_nil_iff]
    constructor
    · refine fun hall => ⟨fun hne => absurd hrule hne, fun _ k _ => ?_⟩
      rcases Nat.lt_or_ge (l.length / 511) k with hlt | hge
      · rw [part_of_lt (by decide) hlt]
        rfl
      · exact Option.toList_eq_nil_iff.mp (hall k hge)
    · intro hfits k _
      rcases Nat.eq_zero_or_pos k with rfl | hpos
      · rw [ruleOf_first_part hrule]
        rfl
      · rw [hfits.other hrule k hpos]
        rfl

end Rules

/-! ## The file -/

/-- The allocations of `load_suppressions` succeed. -/
def allOk (_ : ℕ) : Bool × Bool := (true, true)

/-- The rules that are loaded from a file, in a process that has not loaded any. -/
def loadedRules (file : Text) : List CStr := (loadSuppressions allOk (some file) ⟨false, []⟩).rules

/-- The file is read line by line: while a line is read its pattern is found, and nothing
else, and the patterns of the lines are what is loaded. -/
structure LineByLine (file : Text) : Prop where
  perLine : rulesByLine file = (lines file).map fun l => (ruleOf l).toList
  loaded : (loadedRules file).map CStr.bytes = (lines file).filterMap ruleOf

section File

variable {file : Text}

theorem loadLoop_allOk (i : ℕ) (supp : List CStr) (bufs : List Text) :
    loadLoop allOk i supp bufs = supp ++ (bufs.filterMap parseRule).map CStr.ofBuffer := by
  induction bufs generalizing i supp with
  | nil => exact (List.append_nil supp).symm
  | cons buf bufs ih =>
    rw [loadLoop]
    cases hparse : parseRule buf with
    | none => rw [ih, List.filterMap_cons_none hparse]
    | some pat =>
      rw [List.filterMap_cons_some hparse, List.map_cons, List.append_cons]
      exact ih (i + 1) (supp ++ [CStr.ofBuffer pat])

/-- What is loaded is what is found while the lines are read, line after line. -/
theorem loadedRules_eq (file : Text) :
    loadedRules file = (rulesByLine file).flatten.map CStr.ofBuffer := by
  unfold rulesByLine
  rw [flatten_groups, ← List.filterMap_eq_flatMap_toList]
  exact loadLoop_allOk 0 [] _

/-- The line end is trimmed, also behind a null character. -/
theorem parseRule_append_end {p : Text} (hend : 10 ∉ p) : parseRule (p ++ [10]) = parseRule p := by
  by_cases hnul : 0 ∈ p
  · obtain ⟨x, y, rfl, hx⟩ := List.eq_append_cons_of_mem hnul
    have hstop : ∀ z : Text, CStr.ofBuffer (x ++ 0 :: z) = CStr.ofBuffer x := by
      intro z
      have hbytes : (x ++ 0 :: z).takeWhile (· ≠ 0) = x.takeWhile (· ≠ 0) := by
        rw [List.takeWhile_append_of_pos fun c hc => decide_eq_true (ne_of_mem_of_not_mem hc hx),
          List.takeWhile_cons_of_neg (by decide), List.append_nil]
        exact (CStr.ofBuffer_bytes hx).symm
      simp only [CStr.ofBuffer, hbytes]
    unfold parseRule
    rw [List.append_assoc, List.cons_append, hstop, hstop]
  · have hfull := parseRule_eq hnul hend (.inl rfl)
    rw [List.append_nil] at hfull
    rw [parseRule_eq hnul hend (.inr rfl), hfull]

/-- While a line is read the rules of its parts are found. -/
theorem rulesByLine_eq (hnul : 0 ∉ file) :
    rulesByLine file = (lines file).map (ofParts 511 fun p => (ruleOf p).toList) := by
  unfold rulesByLine
  rw [groups_pieces (by decide) (fun p hp => by rw [parseRule_append_end hp]) rfl]
  refine List.map_congr_left fun l hl => ?_
  obtain ⟨hend, hmem⟩ := mem_lines hl
  refine List.flatMap_congr fun k _ => ?_
  have hpart := parseRule_eq (l := part 511 k l) (fun h => hnul (hmem 0 (mem_part h)))
    (fun h => hend (mem_part h)) (.inl rfl)
  rw [List.append_nil] at hpart
  exact congrArg Option.toList hpart

/-- A pattern is a piece of its line. -/
theorem mem_of_mem_ruleOf {pat l : Text} {c : UInt8} (h : ruleOf l = some pat) (hc : c ∈ pat) :
    c ∈ l := by
  obtain ⟨pre, post, rfl, -⟩ := ruleOf_eq_some_iff.mp h
  exact List.mem_append_left _ (List.mem_append_right _ (List.mem_append_right _ hc))

/-- **The file is read line by line exactly if each of its lines fits.** -/
theorem line_by_line_iff (file : CStr) :
    LineByLine file.bytes ↔ ∀ l ∈ lines file.bytes, Fits l := by
  have hperLine : rulesByLine file.bytes = (lines file.bytes).map (fun l => (ruleOf l).toList) ↔
      ∀ l ∈ lines file.bytes, Fits l := by
    rw [rulesByLine_eq file.noNul, List.map_inj_left]
    exact forall₂_congr fun l _ => ofParts_eq_iff
  constructor
  · exact fun h => hperLine.mp h.perLine
  · intro hfits
    have hlines := hperLine.mpr hfits
    refine ⟨hlines, ?_⟩
    rw [loadedRules_eq, hlines, ← List.flatMap_def, ← List.filterMap_eq_flatMap_toList,
      List.map_map]
    refine (List.map_congr_left fun pat hpat => ?_).trans (List.map_id _)
    obtain ⟨l, hl, hrule⟩ := List.mem_filterMap.mp hpat
    exact CStr.ofBuffer_bytes fun h =>
      file.noNul ((mem_lines hl).2 0 (mem_of_mem_ruleOf hrule h))

/-- A rule that is longer than the buffer is cut. -/
theorem not_line_by_line :
    ¬ LineByLine (ascii "leak:" ++ List.replicate 600 97) := by
  intro h
  have hcut := congrArg (List.map List.length) h.loaded
  exact absurd hcut (by decide +kernel)

end File

end Redzone.Report
