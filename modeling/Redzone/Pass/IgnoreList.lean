/-
  Pass/IgnoreList.lean --- the list of functions and source files that are left alone.

  `REDZONE_IGNORELIST` names a file with a rule on each line: `fun:<glob>` for functions,
  `src:<glob>` for source files, with blanks around it.  Every other line counts for
  nothing.  `Lists` is that format; `loadIgnorelist` reads it (`loadIgnorelist_eq`).

  What is loaded decides which functions get checks (`hooked_run_iff`).  The matching of
  globs is that of the C library.
-/
import Redzone.Pass.Preservation
import Redzone.Report.Suppressions

set_option autoImplicit false

namespace Redzone.Pass.AddressMode

open Redzone.Foundation
open Redzone.Pass (Value)
open Redzone.Report (isBlank isBlankOrCr trim trim_append exists_trim rdropWhile_append
  exists_rdropWhile)

/-! ## The code -/

/-- `find_first_not_of`; none is `npos`. -/
def findFirstNotOf (set s : Text) : Option ℕ := s.findIdx? fun c => !set.contains c

/-- `find_last_not_of`. -/
def findLastNotOf (set s : Text) : Option ℕ :=
  (s.reverse.findIdx? fun c => !set.contains c).map fun i => s.length - 1 - i

/-- `substr`. -/
def substr (s : Text) (pos count : ℕ) : Text := (s.drop pos).take count

/-- A rule of the file. -/
inductive IgnoreRule where
  | fn (glob : Text)
  | src (glob : Text)
  deriving DecidableEq, Repr

/-- The rule that `s` is. -/
def toRule (s : Text) : Option IgnoreRule :=
  if ascii "fun:" <+: s ∧ 4 < s.length then some (.fn (s.drop 4))
  else if ascii "src:" <+: s ∧ 4 < s.length then some (.src (s.drop 4))
  else none

/-- The body of the loop in `loadIgnorelist`. -/
def parseIgnoreLine (line : Text) : Option IgnoreRule :=
  match findFirstNotOf (ascii " \t") line with
  | none => none
  | some a =>
    if (line.drop a).head? = some 35 then none -- a comment
    else
      -- a line of blanks up to a carriage return has no last character: `npos - a + 1`
      let count := match findLastNotOf (ascii " \t\r") line with
        | some b => b + 1 - a
        | none => (wordSize - a) % wordSize
      toRule (substr line a count)

/-- `std::getline` until it fails: a last line without characters does not count. -/
def getlines (text : Text) : List Text :=
  (lines text).dropLast ++ ((lines text).getLast?.filter fun l => l ≠ []).toList

/-- `loadIgnorelist`: `funPats` and `srcPats`.  `file` is the content of the file that
`REDZONE_IGNORELIST` names, if it can be read. -/
def loadIgnorelist (file : Option Text) : List Text × List Text :=
  match file with
  | none => ([], [])
  | some text =>
    (getlines text).foldl (fun pats line =>
      match parseIgnoreLine line with
      | some (.fn glob) => (pats.1 ++ [glob], pats.2)
      | some (.src glob) => (pats.1, pats.2 ++ [glob])
      | none => pats) ([], [])

/-- The bytes of a name. -/
def utf8 (s : String) : Text := s.toUTF8.data.toList

section Code

variable (fnmatch : CStr → CStr → Bool)

/-- `globMatchAny`.  `fnmatch p s` is whether `fnmatch(p, s, 0)` is 0. -/
def globMatchAny (pats : List Text) (s : Text) : Bool :=
  pats.any fun p => fnmatch (CStr.ofBuffer p) (CStr.ofBuffer s)

/-- What `run` reads of its surroundings, in a translation unit from `sourceFile`. -/
def ignoreConfig (file : Option Text) (sourceFile : Text)
    (strip : String → Value → Stack.Base × ℤ) : Config where
  moduleIgnored := globMatchAny fnmatch (loadIgnorelist file).2 sourceFile
  ignoreFun name := globMatchAny fnmatch (loadIgnorelist file).1 (utf8 name)
  strip := strip

end Code

/-! ## The format -/

def IgnoreRule.tag : IgnoreRule → Text
  | .fn _ => ascii "fun:"
  | .src _ => ascii "src:"

def IgnoreRule.glob : IgnoreRule → Text
  | .fn glob | .src glob => glob

/-- A line is the rule, with blanks around it. -/
def IgnoreRule.IsLine (r : IgnoreRule) (l : Text) : Prop :=
  ∃ pre post, l = pre ++ (r.tag ++ r.glob) ++ post ∧ (∀ c ∈ pre, isBlank c = true) ∧
    (∀ c ∈ post, isBlankOrCr c = true) ∧ ∃ init c, r.glob = init ++ [c] ∧ isBlankOrCr c = false

/-- The lines say the rules, in that order. -/
inductive Lists : List Text → List IgnoreRule → Prop
  | nil : Lists [] []
  | rule {l : Text} {r : IgnoreRule} {ls : List Text} {rs : List IgnoreRule} (h : r.IsLine l)
      (rest : Lists ls rs) : Lists (l :: ls) (r :: rs)
  | other {l : Text} {ls : List Text} {rs : List IgnoreRule} (h : ∀ r : IgnoreRule, ¬ r.IsLine l)
      (rest : Lists ls rs) : Lists (l :: ls) rs

/-- The globs for functions, and those for source files. -/
def funGlobs (rs : List IgnoreRule) : List Text :=
  rs.filterMap fun
    | .fn glob => some glob
    | .src _ => none

def srcGlobs (rs : List IgnoreRule) : List Text :=
  rs.filterMap fun
    | .src glob => some glob
    | .fn _ => none

/-! ## Lines -/

section Lines

variable {l pre post x y : Text} {c d : UInt8} {set : Text} {r : IgnoreRule}

/-- The first character that is not in the set. -/
theorem findIdx?_first {p : UInt8 → Bool} (hpre : ∀ c ∈ pre, p c = false) (hd : p d = true) :
    (pre ++ d :: x).findIdx? p = some pre.length := by
  rw [List.findIdx?_append, List.findIdx?_eq_none_iff.mpr hpre, List.findIdx?_cons, if_pos hd,
    Option.map_some, Option.none_or, Nat.zero_add]

theorem findFirstNotOf_append (hpre : ∀ c ∈ pre, set.contains c = true)
    (hd : set.contains d = false) : findFirstNotOf set (pre ++ d :: x) = some pre.length :=
  findIdx?_first (fun c hc => by rw [hpre c hc]; rfl) (by rw [hd]; rfl)

theorem findLastNotOf_append (hpost : ∀ c ∈ post, set.contains c = true)
    (hd : set.contains d = false) : findLastNotOf set (x ++ d :: post) = some x.length := by
  have hrev : (x ++ d :: post).reverse = post.reverse ++ d :: x.reverse := by
    rw [List.reverse_append, List.reverse_cons, List.append_assoc, List.singleton_append]
  unfold findLastNotOf
  rw [hrev, findIdx?_first (fun c hc => by rw [hpost c (List.mem_reverse.mp hc)]; rfl)
    (by rw [hd]; rfl), Option.map_some, List.length_reverse, List.length_append, List.length_cons]
  congr 1
  omega

theorem findNotOf_none (h : ∀ c ∈ x, set.contains c = true) :
    findFirstNotOf set x = none ∧ findLastNotOf set x = none := by
  have hnot : ∀ c ∈ x, (!set.contains c) = false := fun c hc => by rw [h c hc]; rfl
  refine ⟨List.findIdx?_eq_none_iff.mpr hnot, ?_⟩
  unfold findLastNotOf
  rw [List.findIdx?_eq_none_iff.mpr fun c hc => hnot c (List.mem_reverse.mp hc), Option.map_none]

theorem contains_blanks (c : UInt8) : (ascii " \t").contains c = isBlank c := by
  show (c == 32 || (c == 9 || false)) = (c == 32 || c == 9)
  rw [Bool.or_false]

theorem contains_trailing (c : UInt8) : (ascii " \t\r").contains c = isBlankOrCr c := by
  show (c == 32 || (c == 9 || (c == 13 || false))) = (c == 32 || c == 9 || c == 13)
  rw [Bool.or_false, Bool.or_assoc]

/-- A line is blank, or has a first character. -/
theorem first_char (p : UInt8 → Bool) (l : Text) :
    (∀ c ∈ l, p c = true) ∨
      ∃ pre d x, l = pre ++ d :: x ∧ (∀ c ∈ pre, p c = true) ∧ p d = false := by
  cases h : l.dropWhile p with
  | nil => exact .inl (List.dropWhile_eq_nil_iff.mp h)
  | cons d x =>
      refine .inr ⟨l.takeWhile p, d, x, ?_, fun c hc => List.mem_takeWhile_imp hc, ?_⟩
      · rw [← h, List.takeWhile_append_dropWhile]
      · have hhead := List.head_dropWhile_not p (l := l) (by rw [h]; exact List.cons_ne_nil d x)
        simpa only [h, List.head_cons, Bool.not_eq_true] using hhead

/-- A line is blank, or has a last character. -/
theorem last_char (p : UInt8 → Bool) (l : Text) :
    (∀ c ∈ l, p c = true) ∨
      ∃ x d post, l = x ++ d :: post ∧ (∀ c ∈ post, p c = true) ∧ p d = false := by
  rcases first_char p l.reverse with hall | ⟨pre, d, x, hl, hpre, hd⟩
  · exact .inl fun c hc => hall c (List.mem_reverse.mpr hc)
  · refine .inr ⟨x.reverse, d, pre.reverse, ?_, fun c hc => hpre c (List.mem_reverse.mp hc), hd⟩
    rw [← List.reverse_reverse l, hl, List.reverse_append, List.reverse_cons, List.append_assoc,
      List.singleton_append]

/-- What does not start with a tag is no rule. -/
theorem toRule_none (h : ∀ r : IgnoreRule, ¬ r.tag <+: x) : toRule x = none := by
  unfold toRule
  rw [if_neg fun hrule => h (.fn []) hrule.1, if_neg fun hrule => h (.src []) hrule.1]

/-- A tag starts with a letter. -/
theorem tag_cons (r : IgnoreRule) : ∃ d rest, r.tag = d :: rest ∧ isBlankOrCr d = false ∧
    d ≠ 35 := by
  cases r with
  | fn glob => exact ⟨102, ascii "un:", rfl, rfl, by decide⟩
  | src glob => exact ⟨115, ascii "rc:", rfl, rfl, by decide⟩

theorem toRule_blank (h : ∀ c ∈ x, isBlankOrCr c = true) : toRule x = none := by
  refine toRule_none fun r ⟨rest, hx⟩ => ?_
  obtain ⟨d, ds, htag, hd, -⟩ := tag_cons r
  have hmem : d ∈ x := by
    rw [← hx, htag]
    exact List.mem_append_left _ List.mem_cons_self
  rw [h d hmem] at hd
  exact Bool.noConfusion hd

theorem toRule_comment : toRule (35 :: x) = none := by
  refine toRule_none fun r ⟨rest, hx⟩ => ?_
  obtain ⟨d, ds, htag, -, hd⟩ := tag_cons r
  rw [htag, List.cons_append] at hx
  exact hd (List.cons.inj hx).1

/-- The line is read as it is trimmed. -/
theorem parseIgnoreLine_eq (l : Text) : parseIgnoreLine l = toRule (trim l) := by
  rcases first_char isBlank l with hblank | ⟨pre, d, x, rfl, hpre, hd⟩
  · have hfirst : findFirstNotOf (ascii " \t") l = none :=
      (findNotOf_none fun c hc => (contains_blanks c).trans (hblank c hc)).1
    have htrim : trim l = [] := by
      unfold trim
      rw [List.dropWhile_eq_nil_iff.mpr hblank]
      rfl
    unfold parseIgnoreLine
    rw [hfirst, htrim]
    rfl
  have hfirst : findFirstNotOf (ascii " \t") (pre ++ d :: x) = some pre.length :=
    findFirstNotOf_append (fun c hc => (contains_blanks c).trans (hpre c hc))
      ((contains_blanks d).trans hd)
  have hrest : (pre ++ d :: x).drop pre.length = d :: x := List.drop_left
  have htrim : trim (pre ++ d :: x) = (d :: x).rdropWhile isBlankOrCr := by
    have happ : trim (pre ++ d :: x ++ []) = (d :: x).rdropWhile isBlankOrCr :=
      trim_append hpre hd (by simp)
    rwa [List.append_nil] at happ
  unfold parseIgnoreLine substr
  simp only [hfirst, hrest, List.head?_cons, Option.some.injEq]
  rw [htrim]
  split
  · rename_i hcomment
    -- the sign of a comment is not trimmed
    obtain ⟨y, hy⟩ := exists_rdropWhile (x := []) (c := 35) (p := isBlankOrCr) rfl x
    have hcut : (35 :: x).rdropWhile isBlankOrCr = 35 :: y := hy
    rw [hcomment, hcut, toRule_comment]
  rcases last_char isBlankOrCr (d :: x) with hblank | ⟨y, e, post, hx, hpost, he⟩
  · rw [List.rdropWhile_eq_nil_iff.mpr hblank]
    exact toRule_blank fun c hc => hblank c (List.mem_of_mem_take hc)
  · have hlast : findLastNotOf (ascii " \t\r") (pre ++ (y ++ e :: post)) =
        some (pre ++ y).length := by
      rw [← List.append_assoc]
      exact findLastNotOf_append (fun c hc => (contains_trailing c).trans (hpost c hc))
        ((contains_trailing e).trans he)
    have hcount : (pre ++ y).length + 1 - pre.length = (y ++ [e]).length := by
      rw [List.length_append, List.length_append, List.length_singleton]
      omega
    have hsplit : y ++ e :: post = (y ++ [e]) ++ post := by
      rw [List.append_assoc, List.singleton_append]
    rw [hx, hlast]
    simp only [hcount]
    rw [hsplit, List.take_left, rdropWhile_append hpost,
      List.rdropWhile_concat_neg _ _ _ (by rw [he]; exact Bool.false_ne_true)]

/-- What is left of a line is a rule exactly if the line is that rule. -/
theorem tag_glob_iff {tag glob : Text} (htag : ∃ d rest, tag = d :: rest ∧ isBlankOrCr d = false) :
    tag <+: trim l ∧ tag.length < (trim l).length ∧ (trim l).drop tag.length = glob ↔
      ∃ pre post, l = pre ++ (tag ++ glob) ++ post ∧ (∀ c ∈ pre, isBlank c = true) ∧
        (∀ c ∈ post, isBlankOrCr c = true) ∧
        ∃ init c, glob = init ++ [c] ∧ isBlankOrCr c = false := by
  obtain ⟨d, rest, htag, hd⟩ := htag
  constructor
  · rintro ⟨⟨g, htrim⟩, hlen, hglob⟩
    obtain rfl : g = glob := by
      rw [← hglob, ← htrim]
      exact List.drop_left.symm
    obtain ⟨pre, post, hl, hpre, hpost⟩ := exists_trim l
    have hne : g ≠ [] := by
      rintro rfl
      rw [← htrim, List.append_nil] at hlen
      exact absurd hlen (Nat.lt_irrefl _)
    have hlast := List.rdropWhile_last_not isBlankOrCr (l.dropWhile isBlank)
      (List.ne_nil_of_length_pos (Nat.zero_lt_of_lt hlen))
    refine ⟨pre, post, by rw [htrim]; exact hl, hpre, hpost, g.dropLast, g.getLast hne,
      (List.dropLast_append_getLast hne).symm, ?_⟩
    rw [Bool.not_eq_true] at hlast
    rw [← hlast]
    refine congrArg isBlankOrCr ?_
    have hsame : (trim l).getLast? = g.getLast? := by
      rw [← htrim, List.getLast?_append_of_ne_nil _ hne]
    rw [List.getLast?_eq_getLast_of_ne_nil hne] at hsame
    exact (List.getLast_eq_iff_getLast?_eq_some _).mpr hsame |>.symm
  · rintro ⟨pre, post, rfl, hpre, hpost, init, c, rfl, hc⟩
    have hblank : isBlank d = false := by
      cases hb : isBlank d with
      | false => rfl
      | true => rw [Report.isBlankOrCr_of_isBlank hb] at hd; exact hd
    have htrim : trim (pre ++ (tag ++ (init ++ [c])) ++ post) = tag ++ (init ++ [c]) := by
      rw [htag]
      refine (trim_append (c := d) hpre hblank hpost).trans ?_
      show ((d :: rest) ++ (init ++ [c])).rdropWhile isBlankOrCr = _
      rw [← List.append_assoc,
        List.rdropWhile_concat_neg _ _ _ (by rw [hc]; exact Bool.false_ne_true)]
    rw [htrim]
    refine ⟨List.prefix_append _ _, ?_, List.drop_left⟩
    rw [List.length_append, List.length_append, List.length_singleton]
    omega

/-- The rule that is read off a line is the one that the line is. -/
theorem parseIgnoreLine_iff : parseIgnoreLine l = some r ↔ r.IsLine l := by
  have hrule : ∀ r : IgnoreRule, r.IsLine l ↔
      r.tag <+: trim l ∧ r.tag.length < (trim l).length ∧ (trim l).drop r.tag.length = r.glob := by
    intro r
    obtain ⟨d, rest, htag, hd, -⟩ := tag_cons r
    exact (tag_glob_iff ⟨d, rest, htag, hd⟩).symm
  have hfun : (ascii "fun:").length = 4 := rfl
  have hsrc : (ascii "src:").length = 4 := rfl
  have hclash : ∀ s : Text, ascii "src:" <+: s → ¬ ascii "fun:" <+: s := by
    rintro s ⟨y, rfl⟩ ⟨y', h⟩
    exact absurd (List.cons.inj h).1 (by decide)
  rw [parseIgnoreLine_eq, hrule]
  unfold toRule
  cases r with
  | fn glob =>
      simp only [IgnoreRule.tag, IgnoreRule.glob, hfun]
      constructor
      · intro h
        split at h
        · rename_i hif
          obtain rfl := IgnoreRule.fn.inj (Option.some.inj h)
          exact ⟨hif.1, hif.2, rfl⟩
        · split at h
          · exact IgnoreRule.noConfusion (Option.some.inj h)
          · exact absurd h (by simp)
      · rintro ⟨hpre, hlen, rfl⟩
        exact if_pos ⟨hpre, hlen⟩
  | src glob =>
      simp only [IgnoreRule.tag, IgnoreRule.glob, hsrc]
      constructor
      · intro h
        split at h
        · exact IgnoreRule.noConfusion (Option.some.inj h)
        · split at h
          · rename_i hif
            obtain rfl := IgnoreRule.src.inj (Option.some.inj h)
            exact ⟨hif.1, hif.2, rfl⟩
          · exact absurd h (by simp)
      · rintro ⟨hpre, hlen, rfl⟩
        rw [if_neg fun h => hclash _ hpre h.1]
        exact if_pos ⟨hpre, hlen⟩

end Lines

/-! ## Files -/

section Files

variable {text : Text} {ls : List Text} {rs : List IgnoreRule}

/-- What the lines say is what is read off them. -/
theorem lists_iff : Lists ls rs ↔ rs = ls.filterMap parseIgnoreLine := by
  constructor
  · intro h
    induction h with
    | nil => rfl
    | rule h _ ih => rw [List.filterMap_cons_some (parseIgnoreLine_iff.mpr h), ih]
    | other h _ ih =>
        rw [List.filterMap_cons_none, ih]
        exact Option.eq_none_iff_forall_ne_some.mpr fun r hr => h r (parseIgnoreLine_iff.mp hr)
  · rintro rfl
    induction ls with
    | nil => exact .nil
    | cons l ls ih =>
        cases h : parseIgnoreLine l with
        | none =>
            rw [List.filterMap_cons_none h]
            refine .other (fun r hr => ?_) ih
            rw [parseIgnoreLine_iff.mpr hr] at h
            exact absurd h (by simp)
        | some r =>
            rw [List.filterMap_cons_some h]
            exact .rule (parseIgnoreLine_iff.mp h) ih

/-- A last line without characters says nothing. -/
theorem filterMap_getlines :
    (getlines text).filterMap parseIgnoreLine = (lines text).filterMap parseIgnoreLine := by
  unfold getlines
  cases hlast : (lines text).getLast? with
  | none =>
      rw [List.getLast?_eq_none_iff.mp hlast]
      rfl
  | some l =>
      obtain ⟨ls, hls⟩ := List.getLast?_eq_some_iff.mp hlast
      rw [hls, List.dropLast_concat, List.filterMap_append, List.filterMap_append]
      refine congrArg _ ?_
      by_cases hnil : l = []
      · subst hnil
        rfl
      · rw [Option.filter_some_pos (by simpa using hnil), Option.toList_some]

/-- What is loaded from a file are the globs that its lines say, kind by kind. -/
theorem loadIgnorelist_eq (h : Lists (lines text) rs) :
    loadIgnorelist (some text) = (funGlobs rs, srcGlobs rs) := by
  have hloop : ∀ (ls : List Text) (pats : List Text × List Text),
      ls.foldl (fun pats line =>
        match parseIgnoreLine line with
        | some (.fn glob) => (pats.1 ++ [glob], pats.2)
        | some (.src glob) => (pats.1, pats.2 ++ [glob])
        | none => pats) pats =
      (pats.1 ++ funGlobs (ls.filterMap parseIgnoreLine),
        pats.2 ++ srcGlobs (ls.filterMap parseIgnoreLine)) := by
    intro ls
    induction ls with
    | nil =>
        intro pats
        show pats = (pats.1 ++ [], pats.2 ++ [])
        rw [List.append_nil, List.append_nil]
    | cons l ls ih =>
        intro pats
        rw [List.foldl_cons, ih]
        cases h : parseIgnoreLine l with
        | none => rw [List.filterMap_cons_none h]
        | some r =>
            rw [List.filterMap_cons_some h]
            cases r with
            | fn glob => exact Prod.ext (List.append_assoc ..) rfl
            | src glob => exact Prod.ext rfl (List.append_assoc ..)
  rw [lists_iff.mp h, ← filterMap_getlines]
  exact hloop (getlines text) ([], [])

end Files

/-! ## Which functions get hooks -/

/-- The rule is about the function, in a translation unit from `sourceFile`. -/
def IgnoreRule.Matches (fnmatch : CStr → CStr → Bool) (sourceFile : Text) (name : String) :
    IgnoreRule → Prop
  | .fn glob => fnmatch (CStr.ofBuffer glob) (CStr.ofBuffer (utf8 name)) = true
  | .src glob => fnmatch (CStr.ofBuffer glob) (CStr.ofBuffer sourceFile) = true

/-- An instruction that only the pass makes. -/
def Inst.made : Inst → Bool
  | .check _ | .padded _ _ => true
  | _ => false

/-- The function has a check or a padded variable. -/
def Func.Hooked (F : Func) : Prop := ∃ B ∈ F.blocks, ∃ I ∈ B.insts, I.made = true

/-- At place `k` of a block there is an access without an excuse, or a variable to wrap. -/
def Inst.needs (strip : Value → Stack.Base × ℤ) (insts : List Inst) (k : ℕ) : Inst → Bool
  | .load .. | .store .. => !Stack.skipped strip (insts.map Inst.shape) k
  | .alloca a => a.wrapped.isSome
  | _ => false

/-- The function has something to check or to wrap. -/
def Func.NeedsHooks (strip : Value → Stack.Base × ℤ) (F : Func) : Prop :=
  ∃ B ∈ F.blocks, ∃ (k : ℕ) (I : Inst), B.insts[k]? = some I ∧ I.needs strip B.insts k = true

section Hooks

variable {fnmatch : CStr → CStr → Bool} {text sourceFile : Text} {rs : List IgnoreRule}
  {strip : Value → Stack.Base × ℤ} {M : Module} {F : Func} {cfg : Config} {i k : ℕ} {I : Inst}
  {insts : List Inst}

theorem globMatchAny_iff {pats : List Text} {s : Text} : globMatchAny fnmatch pats s = true ↔
    ∃ p ∈ pats, fnmatch (CStr.ofBuffer p) (CStr.ofBuffer s) = true := List.any_eq_true

/-- The functions that are left alone, by what the file says. -/
theorem skipInstr_iff (h : Lists (lines text) rs) (strip : String → Value → Stack.Base × ℤ) :
    (ignoreConfig fnmatch (some text) sourceFile strip).skipInstr F = true ↔
      F.optsOut = true ∨ ∃ r ∈ rs, r.Matches fnmatch sourceFile F.name := by
  unfold Config.skipInstr ignoreConfig
  rw [loadIgnorelist_eq h, Bool.or_eq_true, Bool.or_eq_true, globMatchAny_iff, globMatchAny_iff,
    or_assoc]
  refine or_congr_right ?_
  constructor
  · rintro (⟨g, hg, hmatch⟩ | ⟨g, hg, hmatch⟩)
    · obtain ⟨r, hr, hglob⟩ := List.mem_filterMap.mp hg
      cases r with
      | fn glob => exact absurd hglob (by simp)
      | src glob =>
          obtain rfl := Option.some.inj hglob
          exact ⟨_, hr, hmatch⟩
    · obtain ⟨r, hr, hglob⟩ := List.mem_filterMap.mp hg
      cases r with
      | src glob => exact absurd hglob (by simp)
      | fn glob =>
          obtain rfl := Option.some.inj hglob
          exact ⟨_, hr, hmatch⟩
  · rintro ⟨r, hr, hmatch⟩
    cases r with
    | src glob => exact .inl ⟨glob, List.mem_filterMap.mpr ⟨_, hr, rfl⟩, hmatch⟩
    | fn glob => exact .inr ⟨glob, List.mem_filterMap.mpr ⟨_, hr, rfl⟩, hmatch⟩

theorem made_mapVals (f : Val → Val) (I : Inst) : (I.mapVals f).made = I.made := by
  cases I <;> rfl

theorem hooked_mapVals (f : Val → Val) (F : Func) : (F.mapVals f).Hooked ↔ F.Hooked := by
  unfold Func.Hooked Func.mapVals
  simp only [List.mem_map, exists_exists_and_eq_and, Block.mapVals, made_mapVals]

/-- A call that is rebuilt is still a call. -/
theorem made_becomes {skip : Bool} (hI : I.Plain) : (I.becomes skip).made = false := by
  cases I with
  | padded | check => exact absurd hI not_false
  | call dst c loc =>
      cases hr : c.getCalledFunction.bind (callRedirect skip) with
      | none => rw [(Inst.becomes_kept hr).1]; rfl
      | some r => rw [(Inst.becomes_rebuilt hr).1]; rfl
  | mem kind dest src len loc => cases skip <;> rfl
  | _ => rfl

/-- What stands in the place of an instruction has a hook exactly if the instruction needs
one and the function is not skipped. -/
theorem made_segment {skip : Bool} (hI : I.Plain) :
    (∃ J ∈ segment skip strip insts k I, J.made = true) ↔
      skip = false ∧ I.needs strip insts k = true := by
  have hone : ∀ skip', (∃ J ∈ [I.becomes skip'], J.made = true) ↔ False := by
    intro skip'
    refine iff_false_intro ?_
    rintro ⟨J, hJ, hmade⟩
    rw [List.mem_singleton.mp hJ, made_becomes hI] at hmade
    exact Bool.noConfusion hmade
  cases skip with
  | true => exact (hone true).trans (by simp)
  | false =>
      simp only [true_and]
      cases I with
      | padded | check => exact absurd hI not_false
      | call dst c loc =>
          show (∃ J ∈ instrumentInst strip insts k _, J.made = true) ↔ _
          rw [instrumentInst_call]
          exact (hone false).trans (by simp [Inst.needs])
      | mem kind dest src len loc => exact (hone false).trans (by simp [Inst.needs])
      | other dst ops => exact (hone false).trans (by simp [Inst.needs])
      | load dst ptr size loc =>
          simp only [segment, Bool.false_eq_true, if_false, Inst.becomes, instrumentInst, Inst.needs]
          cases Stack.skipped strip (insts.map Inst.shape) k <;> simp [accessCheck, Inst.made]
      | store value ptr size loc =>
          simp only [segment, Bool.false_eq_true, if_false, Inst.becomes, instrumentInst, Inst.needs]
          cases Stack.skipped strip (insts.map Inst.shape) k <;> simp [accessCheck, Inst.made]
      | alloca a =>
          simp only [segment, Bool.false_eq_true, if_false, Inst.becomes, instrumentInst, Inst.needs]
          cases a.wrapped <;> simp [Inst.made]

/-- A function outside the runtime after the phase over the functions. -/
theorem hooked_instrumentFunction (hF : isRuntimeName F.name = false) (hplain : F.Plain) :
    (instrumentFunction cfg F).Hooked ↔
      cfg.skipInstr F = false ∧ F.NeedsHooks (cfg.strip F.name) := by
  have hleaves : ∀ vars (T : Terminator), ∀ J ∈ leaves vars T, J.made = false := by
    intro vars T J hJ
    cases T with
    | ret ops =>
        obtain ⟨p, -, rfl⟩ := List.mem_map.mp hJ
        rfl
    | invoke | other => exact absurd hJ List.not_mem_nil
  have hblock : ∀ B ∈ F.blocks, (∃ J ∈ (blockAfter cfg F B).insts, J.made = true) ↔
      cfg.skipInstr F = false ∧ ∃ (k : ℕ) (I : Inst), B.insts[k]? = some I ∧
        I.needs (cfg.strip F.name) B.insts k = true := by
    intro B hB
    constructor
    · rintro ⟨J, hJ, hmade⟩
      rcases List.mem_append.mp hJ with hJ | hJ
      · obtain ⟨seg, hseg, hJ⟩ := List.mem_flatten.mp hJ
        obtain ⟨k, hk, rfl⟩ := List.mem_mapIdx.mp hseg
        have hI := (hplain B hB).1 _ (List.getElem_mem hk)
        obtain ⟨hskip, hneeds⟩ := (made_segment hI).mp ⟨J, hJ, hmade⟩
        exact ⟨hskip, k, _, List.getElem?_eq_getElem hk, hneeds⟩
      · rw [hleaves _ _ J hJ] at hmade
        exact Bool.noConfusion hmade
    · rintro ⟨hskip, k, I, hk, hneeds⟩
      obtain ⟨hlt, rfl⟩ := List.getElem?_eq_some_iff.mp hk
      have hI := (hplain B hB).1 _ (List.getElem_mem hlt)
      obtain ⟨J, hJ, hmade⟩ := (made_segment (k := k) hI).mpr ⟨hskip, hneeds⟩
      exact ⟨J, List.mem_append_left _ (List.mem_flatten.mpr
        ⟨_, List.mem_mapIdx.mpr ⟨k, hlt, rfl⟩, hJ⟩), hmade⟩
  unfold Func.Hooked Func.NeedsHooks
  rw [blocks_instrumentFunction cfg hF]
  constructor
  · rintro ⟨B', hB', hmade⟩
    obtain ⟨B, hB, rfl⟩ := List.mem_map.mp hB'
    obtain ⟨hskip, hneeds⟩ := (hblock B hB).mp hmade
    exact ⟨hskip, B, hB, hneeds⟩
  · rintro ⟨hskip, B, hB, hneeds⟩
    exact ⟨_, List.mem_map.mpr ⟨B, hB, rfl⟩, (hblock B hB).mpr ⟨hskip, hneeds⟩⟩

/-- A function of the program gets checks and padded variables exactly if it does not opt
out, no rule of the file is about it or its source file, and it has something to check or to
wrap. -/
theorem hooked_run_iff (fnmatch : CStr → CStr → Bool) (hlists : Lists (lines text) rs)
    (sourceFile : Text) (strip : String → Value → Stack.Base × ℤ)
    (hi : M.functions[i]? = some F) (hplain : F.Plain) (hF : isRuntimeName F.name = false) :
    loadIgnorelist (some text) = (funGlobs rs, srcGlobs rs) ∧
    ∃ F', (run (ignoreConfig fnmatch (some text) sourceFile strip) M).functions[i]? = some F' ∧
      F'.name = F.name ∧
      (F'.Hooked ↔ (F.optsOut = false ∧ ∀ r ∈ rs, ¬ r.Matches fnmatch sourceFile F.name) ∧
        (M.globalsWrapped F).NeedsHooks (strip F.name)) := by
  refine ⟨loadIgnorelist_eq hlists, M.finished _ F, getElem?_run hi, (grows_run _ M).name F, ?_⟩
  have hplain' := plain_mapVals (relabels_globalSub M.targets) (closed_globalSub M.targets) hplain
  unfold Module.finished
  rw [hooked_mapVals]
  refine (hooked_instrumentFunction (F := M.globalsWrapped F) hF hplain').trans
    (and_congr_left fun _ => ?_)
  rw [← Bool.not_eq_true, skipInstr_iff hlists, not_or, Bool.not_eq_true]
  exact and_congr_right fun _ => by simp only [not_exists, not_and]; rfl

/-- A comment, and a rule for the function `g`. -/
def rulesForG : Text := ascii "# none\n fun:g \r\n"

/-- With these rules `f` is still instrumented. -/
theorem hooked_run_rulesForG :
    ∃ F', (run (ignoreConfig (fun p s => p.bytes == s.bytes) (some rulesForG) (ascii "f.c")
      plainConfig.strip) frameModule).functions[0]? = some F' ∧ F'.Hooked := by
  have hlists : Lists (lines rulesForG) [.fn (ascii "g")] := lists_iff.mpr (by decide +kernel)
  obtain ⟨-, F', hF', -, hiff⟩ := hooked_run_iff (M := frameModule) (i := 0)
    (F := frameModule.functions.head (by decide)) (fun p s => p.bytes == s.bytes) hlists
    (ascii "f.c") plainConfig.strip rfl (by decide) (by decide)
  refine ⟨F', hF', hiff.mpr ⟨⟨rfl, fun r hr => ?_⟩, _, List.mem_cons_self, 0, _, rfl, rfl⟩⟩
  rw [List.mem_singleton.mp hr]
  show ¬ ((CStr.ofBuffer (ascii "g")).bytes == (CStr.ofBuffer (utf8 "f")).bytes) = true
  decide +kernel

end Hooks

end Redzone.Pass.AddressMode
