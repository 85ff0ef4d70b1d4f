/-
  Foundation/Lines.lean --- lines of a text that are read in pieces.

  `fgets` reads a line, but no more of it than fits its buffer; the next call goes on in
  the middle of the line.  `groups` collects, line by line, what a program gets out of
  the pieces.  `groups_pieces` says what it gets out of a line: what it gets out of the
  parts of the line between multiples of the size of the buffer.
-/
import Redzone.Foundation.Text
import Mathlib.Data.List.Range

set_option autoImplicit false

namespace Redzone.Foundation

variable {β : Type}

/-- The lines of a text, without their ends.  The last one may be empty. -/
def lines : Text → List Text
  | [] => [[]]
  | c :: t =>
    if c = 10 then [] :: lines t
    else
      match lines t with
      | [] => [[c]]
      | l :: ls => (c :: l) :: ls

/-- `fgets`, with room for `m` bytes: what is read, and the rest. -/
def fgets : ℕ → Text → Text × Text
  | 0, t => ([], t)
  | _ + 1, [] => ([], [])
  | m + 1, c :: t => if c = 10 then ([c], t) else (c :: (fgets m t).1, (fgets m t).2)

/-- What `fgets` returns until the end of the text, call by call. -/
def piecesFrom (m : ℕ) : ℕ → Text → List Text
  | 0, _ => []
  | _ + 1, [] => []
  | fuel + 1, c :: t => (fgets m (c :: t)).1 :: piecesFrom m fuel (fgets m (c :: t)).2

/-- What `fgets` returns for the text. -/
def pieces (m : ℕ) (t : Text) : List Text := piecesFrom m t.length t

/-- What comes out of the pieces, with a new group after each line end. -/
def groups (f : Text → List β) : List Text → List (List β)
  | [] => [[]]
  | p :: ps =>
    if p.getLast? = some 10 then f p :: groups f ps
    else
      match groups f ps with
      | [] => [f p]
      | g :: gs => (f p ++ g) :: gs

/-- The part of a line between two multiples of `m`. -/
def part (m k : ℕ) (l : Text) : Text := (l.drop (m * k)).take m

/-- What comes out of the parts of a line. -/
def ofParts (m : ℕ) (f : Text → List β) (l : Text) : List β :=
  (List.range (l.length / m + 1)).flatMap fun k => f (part m k l)

section Pieces

variable {m fuel : ℕ} {f : Text → List β} {l t : Text}

theorem not_mem_cons {c : UInt8} (h : 10 ∉ c :: l) : 10 ≠ c ∧ 10 ∉ l :=
  ⟨List.ne_of_not_mem_cons h, List.not_mem_of_not_mem_cons h⟩

theorem fgets_short (hl : 10 ∉ l) (hlen : l.length < m) :
    fgets m (l ++ 10 :: t) = (l ++ [10], t) := by
  induction l generalizing m with
  | nil =>
    obtain ⟨m, rfl⟩ := Nat.exists_eq_add_one.mpr hlen
    rfl
  | cons c l ih =>
    obtain ⟨m, rfl⟩ := Nat.exists_eq_add_one.mpr (Nat.zero_lt_of_lt hlen)
    obtain ⟨hc, hl⟩ := not_mem_cons hl
    rw [List.cons_append, fgets, if_neg (Ne.symm hc), ih hl (Nat.lt_of_succ_lt_succ hlen)]
    rfl

theorem fgets_long (hl : 10 ∉ l) (hlen : m ≤ l.length) :
    fgets m (l ++ t) = (l.take m, l.drop m ++ t) := by
  induction l generalizing m with
  | nil =>
    obtain rfl := Nat.le_zero.mp hlen
    rfl
  | cons c l ih =>
    cases m with
    | zero => rfl
    | succ m =>
      obtain ⟨hc, hl⟩ := not_mem_cons hl
      rw [List.cons_append, fgets, if_neg (Ne.symm hc), ih hl (Nat.le_of_succ_le_succ hlen)]
      rfl

theorem fgets_last (hl : 10 ∉ l) (hlen : l.length ≤ m) : fgets m l = (l, []) := by
  induction l generalizing m with
  | nil => cases m <;> rfl
  | cons c l ih =>
    obtain ⟨m, rfl⟩ := Nat.exists_eq_add_one.mpr (Nat.lt_of_lt_of_le (Nat.succ_pos _) hlen)
    obtain ⟨hc, hl⟩ := not_mem_cons hl
    rw [fgets, if_neg (Ne.symm hc), ih hl (Nat.le_of_succ_le_succ hlen)]

theorem lines_append (hl : 10 ∉ l) : lines (l ++ 10 :: t) = l :: lines t := by
  induction l with
  | nil => exact if_pos rfl
  | cons c l ih =>
    obtain ⟨hc, hl⟩ := not_mem_cons hl
    rw [List.cons_append, lines, if_neg (Ne.symm hc), ih hl]

theorem lines_last (hl : 10 ∉ l) : lines l = [l] := by
  induction l with
  | nil => rfl
  | cons c l ih =>
    obtain ⟨hc, hl⟩ := not_mem_cons hl
    rw [lines, if_neg (Ne.symm hc), ih hl]

/-- What is printed line by line. -/
theorem lines_flatMap (ls : List Text) (h : ∀ l ∈ ls, 10 ∉ l) :
    lines (ls.flatMap (· ++ [10])) = ls ++ [[]] := by
  induction ls with
  | nil => rfl
  | cons l ls ih =>
    rw [List.flatMap_cons, List.append_assoc, List.singleton_append,
      lines_append (h l List.mem_cons_self), ih fun l' hl' => h l' (List.mem_cons_of_mem l hl'),
      List.cons_append]

/-- A text is a last line, or a line with more after it. -/
theorem first_line (t : Text) :
    10 ∉ t ∨ ∃ l t', 10 ∉ l ∧ t = l ++ 10 :: t' := by
  by_cases h : 10 ∈ t
  · obtain ⟨l, t', rfl, hl⟩ := List.eq_append_cons_of_mem h
    exact .inr ⟨l, t', hl, rfl⟩
  · exact .inl h

theorem ofParts_short (hlen : l.length < m) : ofParts m f l = f l := by
  unfold ofParts part
  rw [Nat.div_eq_of_lt hlen]
  simp [List.take_of_length_le hlen.le]

/-- The parts of a long line are its first `m` bytes and the parts of the rest. -/
theorem ofParts_long (hm : 0 < m) (hlen : m ≤ l.length) :
    ofParts m f l = f (l.take m) ++ ofParts m f (l.drop m) := by
  have hpart : ∀ k, part m (k + 1) l = part m k (l.drop m) := by
    intro k
    unfold part
    rw [List.drop_drop, Nat.mul_succ, Nat.add_comm]
  unfold ofParts
  rw [List.length_drop, Nat.div_eq_sub_div hm hlen, List.range_succ_eq_map, List.flatMap_cons,
    List.flatMap_map]
  simp only [Nat.succ_eq_add_one, hpart]
  rfl

theorem flatMap_range_single {n k : ℕ} {g : ℕ → List β} (hk : k < n)
    (hother : ∀ k', k' ≠ k → g k' = []) : (List.range n).flatMap g = g k := by
  induction n with
  | zero => exact absurd hk (Nat.not_lt_zero k)
  | succ n ih =>
    rw [List.range_succ, List.flatMap_append, List.flatMap_singleton]
    rcases Nat.lt_succ_iff_lt_or_eq.mp hk with hlt | rfl
    · rw [ih hlt, hother n (Nat.ne_of_gt hlt), List.append_nil]
    · have hbefore : (List.range k).flatMap g = [] := List.flatMap_eq_nil_iff.mpr fun k' hk' =>
        hother k' (Nat.ne_of_lt (List.mem_range.mp hk'))
      rw [hbefore, List.nil_append]

/-- If only one part gives anything, the line gives what that part gives. -/
theorem ofParts_eq_single {k : ℕ} (hk : k ≤ l.length / m)
    (hother : ∀ k', k' ≠ k → f (part m k' l) = []) : ofParts m f l = f (part m k l) :=
  flatMap_range_single (Nat.lt_succ_of_le hk) hother

theorem ofParts_eq_nil_iff :
    ofParts m f l = [] ↔ ∀ k, k ≤ l.length / m → f (part m k l) = [] := by
  unfold ofParts
  rw [List.flatMap_eq_nil_iff]
  exact forall_congr' fun k => by rw [List.mem_range, Nat.lt_succ_iff]

/-- Behind the line there is nothing. -/
theorem part_of_lt {k : ℕ} (hm : 0 < m) (hk : l.length / m < k) : part m k l = [] := by
  unfold part
  have hlen : l.length ≤ m * k := by
    rw [Nat.mul_comm]
    exact ((Nat.div_lt_iff_lt_mul hm).mp hk).le
  rw [List.drop_of_length_le hlen, List.take_nil]

/-- What lies between two multiples of `m` is within the part. -/
theorem part_middle {k : ℕ} {pre body post : Text} (hlo : m * k ≤ pre.length)
    (hhi : pre.length + body.length ≤ m * k + m) : ∃ rest,
    part m k (pre ++ (body ++ post)) = pre.drop (m * k) ++ (body ++ rest) ∧
      ∀ c ∈ rest, c ∈ post := by
  refine ⟨post.take (m - (pre.drop (m * k) ++ body).length), ?_,
    fun c hc => List.mem_of_mem_take hc⟩
  unfold part
  rw [List.drop_append_of_le_length hlo, ← List.append_assoc, List.take_append,
    List.take_of_length_le, List.append_assoc]
  rw [List.length_append, List.length_drop]
  omega

theorem mem_of_part_before {k : ℕ} {pre x : Text} {c : UInt8} (h : m * (k + 1) ≤ pre.length)
    (hc : c ∈ part m k (pre ++ x)) : c ∈ pre := by
  rw [Nat.mul_succ] at h
  unfold part at hc
  rw [List.drop_append_of_le_length (Nat.le_of_add_right_le h), List.take_append_of_le_length
    (by rw [List.length_drop]; omega)] at hc
  exact List.mem_of_mem_drop (List.mem_of_mem_take hc)

theorem mem_of_part_behind {k : ℕ} {x post : Text} {c : UInt8} (h : x.length ≤ m * k)
    (hc : c ∈ part m k (x ++ post)) : c ∈ post := by
  unfold part at hc
  rw [List.drop_append, List.drop_of_length_le h, List.nil_append] at hc
  exact List.mem_of_mem_drop (List.mem_of_mem_take hc)

/-- A part with characters starts where it should. -/
theorem part_split {k : ℕ} (h : part m k l ≠ []) : ∃ x y, l = x ++ (part m k l ++ y) ∧
    x.length = m * k ∧ (part m k l).length ≤ m := by
  refine ⟨l.take (m * k), (l.drop (m * k)).drop m, ?_, ?_, List.length_take_le _ _⟩
  · unfold part
    rw [List.take_append_drop, List.take_append_drop]
  · refine List.length_take_of_le (Nat.le_of_not_lt fun hlt => h ?_)
    unfold part
    rw [List.drop_of_length_le hlt.le, List.take_nil]

theorem groups_cons_of_end {p : Text} {ps : List Text} (h : p.getLast? = some 10) :
    groups f (p :: ps) = f p :: groups f ps := if_pos h

/-- A piece that does not end its line goes before what the rest of the line gives. -/
theorem groups_cons_of_part {p : Text} {ps : List Text} {g : List β} {gs : List (List β)}
    (hp : 10 ∉ p) (h : groups f ps = g :: gs) : groups f (p :: ps) = (f p ++ g) :: gs := by
  rw [groups, if_neg fun hlast => hp (List.mem_of_getLast? hlast), h]

/-- Line by line, what comes out of the pieces is what comes out of the parts. -/
theorem groups_piecesFrom (hm : 0 < m) (hf : ∀ p, 10 ∉ p → f (p ++ [10]) = f p)
    (hnil : f [] = []) (hlen : t.length ≤ fuel) :
    groups f (piecesFrom m fuel t) = (lines t).map (ofParts m f) := by
  induction fuel generalizing t with
  | zero =>
    obtain rfl := List.eq_nil_of_length_eq_zero (Nat.le_zero.mp hlen)
    rw [lines, List.map_singleton, ofParts_short (by exact hm), hnil]
    rfl
  | succ fuel ih =>
    cases ht : t with
    | nil =>
      rw [lines, List.map_singleton, ofParts_short (by exact hm), hnil]
      rfl
    | cons c t' =>
      rw [piecesFrom, ← ht]
      have hpos : 0 < t.length := by rw [ht]; exact Nat.succ_pos _
      rcases first_line t with hl | ⟨l, rest, hl, rfl⟩
      · rw [lines_last hl]
        rcases Nat.lt_or_ge t.length m with hshort | hlong
        · have hend : groups f (piecesFrom m fuel []) = [[]] := by cases fuel <;> rfl
          rw [fgets_last hl hshort.le, groups_cons_of_part hl hend, List.append_nil,
            List.map_singleton, ofParts_short hshort]
        · have hdrop : 10 ∉ t.drop m := fun h => hl (List.mem_of_mem_drop h)
          have hrest := ih (t := t.drop m) (by rw [List.length_drop]; omega)
          rw [lines_last hdrop] at hrest
          have hfgets := fgets_long (t := []) hl hlong
          rw [List.append_nil, List.append_nil] at hfgets
          rw [hfgets, groups_cons_of_part (fun h => hl (List.mem_of_mem_take h)) hrest,
            List.map_singleton, ofParts_long hm hlong]
          rfl
      · rw [lines_append hl, List.map_cons]
        rw [List.length_append, List.length_cons] at hlen
        rcases Nat.lt_or_ge l.length m with hshort | hlong
        · rw [fgets_short hl hshort, groups_cons_of_end List.getLast?_concat, hf l hl,
            ofParts_short hshort, ih (t := rest) (by omega)]
        · have hdrop : 10 ∉ l.drop m := fun h => hl (List.mem_of_mem_drop h)
          have hrest := ih (t := l.drop m ++ 10 :: rest)
            (by rw [List.length_append, List.length_drop, List.length_cons]; omega)
          rw [lines_append hdrop, List.map_cons] at hrest
          rw [fgets_long hl hlong,
            groups_cons_of_part (fun h => hl (List.mem_of_mem_take h)) hrest, ofParts_long hm hlong]

/-- What a program gets out of a text that it reads with `fgets`, line by line. -/
theorem groups_pieces (hm : 0 < m) (hf : ∀ p, 10 ∉ p → f (p ++ [10]) = f p)
    (hnil : f [] = []) (t : Text) : groups f (pieces m t) = (lines t).map (ofParts m f) :=
  groups_piecesFrom hm hf hnil (Nat.le_refl _)

theorem mem_lines {t : Text} (h : l ∈ lines t) : 10 ∉ l ∧ ∀ c ∈ l, c ∈ t := by
  induction hn : t.length using Nat.strongRecOn generalizing t with
  | _ n ih =>
    rcases first_line t with ht | ⟨l', t', hl', rfl⟩
    · rw [lines_last ht] at h
      obtain rfl := List.mem_singleton.mp h
      exact ⟨ht, fun _ hc => hc⟩
    · rw [lines_append hl'] at h
      rcases List.mem_cons.mp h with rfl | h
      · exact ⟨hl', fun _ hc => List.mem_append_left _ hc⟩
      · obtain ⟨hend, hmem⟩ := ih t'.length
          (by rw [← hn, List.length_append, List.length_cons]; omega) h rfl
        exact ⟨hend, fun c hc => List.mem_append_right _ (List.mem_cons_of_mem _ (hmem c hc))⟩

/-- The groups together are what all pieces give. -/
theorem flatten_groups (f : Text → List β) (ps : List Text) :
    (groups f ps).flatten = ps.flatMap f := by
  induction ps with
  | nil => rfl
  | cons p ps ih =>
    rw [List.flatMap_cons, ← ih, groups]
    split
    · rfl
    · split
      · rename_i hnil
        rw [hnil]
        simp
      · rename_i hcons
        rw [hcons]
        simp

end Pieces

end Redzone.Foundation
