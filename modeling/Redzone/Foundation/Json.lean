/-
  Foundation/Json.lean --- JSON texts: a grammar and a decoder.

  `Derives` is the grammar over bytes, with one judgement for values, for the elements of
  an array and for the members of an object.  A string is the bytes it denotes; those
  from 0x80 on stand for themselves.  The numbers are the integers, and `\u` escapes name
  ASCII characters; what is derived is JSON, and other JSON texts exist.

  `decode` reads a text.  `decode_eq_some_iff`: it accepts what the grammar derives and
  nothing else, and gives the value that is derived; a text has one value at most.
-/
import Redzone.Foundation.Text
import Mathlib.Data.List.TakeWhile

set_option autoImplicit false

namespace Redzone.Foundation

/-- A value. -/
inductive Json where
  | null
  | bool (b : Bool)
  | num (n : ℤ)
  | str (s : Text)
  | arr (xs : List Json)
  | obj (ms : List (Text × Json))

namespace Json

/-! ## The grammar -/

@[match_pattern] abbrev quote : UInt8 := 34
@[match_pattern] abbrev backslash : UInt8 := 92
@[match_pattern] abbrev comma : UInt8 := 44
@[match_pattern] abbrev colon : UInt8 := 58
@[match_pattern] abbrev leftBracket : UInt8 := 91
@[match_pattern] abbrev rightBracket : UInt8 := 93
@[match_pattern] abbrev leftBrace : UInt8 := 123
@[match_pattern] abbrev rightBrace : UInt8 := 125

/-- Space, tab, line feed and carriage return. -/
def isWs (c : UInt8) : Bool := c == 32 || c == 9 || c == 10 || c == 13

/-- White space between tokens. -/
def Ws (w : Text) : Prop := ∀ c ∈ w, isWs c = true

/-- What a backslash makes of the next character. -/
def unescape : UInt8 → Option UInt8
  | 34 => some 34
  | 92 => some 92
  | 47 => some 47
  | 98 => some 8
  | 102 => some 12
  | 110 => some 10
  | 114 => some 13
  | 116 => some 9
  | _ => none

/-- A hexadecimal digit. -/
def isHex (c : UInt8) : Bool :=
  isDigit c || (65 ≤ c.toNat && c.toNat ≤ 70) || (97 ≤ c.toNat && c.toNat ≤ 102)

/-- The ASCII character with a code of four digits. -/
def unicode (a b c d : UInt8) : Option UInt8 :=
  if isHex a && isHex b && isHex c && isHex d && numeralValue 16 [a, b, c, d] < 128 then
    some (UInt8.ofNat (numeralValue 16 [a, b, c, d]))
  else none

/-- The characters between quotes denote a string. -/
inductive Chars : Text → Text → Prop where
  | nil : Chars [] []
  | plain {c : UInt8} {s t : Text} (hctrl : 32 ≤ c) (hquote : c ≠ quote)
      (hescape : c ≠ backslash) (h : Chars s t) : Chars (c :: s) (c :: t)
  | escape {e c : UInt8} {s t : Text} (he : unescape e = some c) (h : Chars s t) :
      Chars (c :: s) (backslash :: e :: t)
  | unicode {a b c d x : UInt8} {s t : Text} (hx : Json.unicode a b c d = some x)
      (h : Chars s t) : Chars (x :: s) (backslash :: 117 :: a :: b :: c :: d :: t)

/-- Decimal digits of a number, without a leading zero. -/
structure IsNatural (n : ℕ) (t : Text) : Prop where
  ne_nil : t ≠ []
  digits : ∀ c ∈ t, isDigit c = true
  noZero : t.head? = some 48 → t.length = 1
  value : numeralValue 10 t = n

/-- An integer. -/
inductive IsInteger : ℤ → Text → Prop where
  | natural {n : ℕ} {t : Text} (h : IsNatural n t) : IsInteger n t
  | negative {n : ℕ} {t : Text} (h : IsNatural n t) : IsInteger (-n) (45 :: t)

/-- What the grammar derives: a value, the elements of an array, the members of an
object. -/
inductive Part where
  | value (v : Json)
  | elements (xs : List Json)
  | members (ms : List (Text × Json))

/-- A text is derived for a part of a value. -/
inductive Derives : Part → Text → Prop where
  | null : Derives (.value .null) [110, 117, 108, 108]
  | yes : Derives (.value (.bool true)) [116, 114, 117, 101]
  | no : Derives (.value (.bool false)) [102, 97, 108, 115, 101]
  | num {n : ℤ} {t : Text} (h : IsInteger n t) : Derives (.value (.num n)) t
  | str {s t : Text} (h : Chars s t) : Derives (.value (.str s)) (quote :: t ++ [quote])
  | emptyArr {w : Text} (hw : Ws w) :
      Derives (.value (.arr [])) (leftBracket :: w ++ [rightBracket])
  | arr {xs : List Json} {t : Text} (h : Derives (.elements xs) t) :
      Derives (.value (.arr xs)) (leftBracket :: t ++ [rightBracket])
  | emptyObj {w : Text} (hw : Ws w) :
      Derives (.value (.obj [])) (leftBrace :: w ++ [rightBrace])
  | obj {ms : List (Text × Json)} {t : Text} (h : Derives (.members ms) t) :
      Derives (.value (.obj ms)) (leftBrace :: t ++ [rightBrace])
  | element {v : Json} {w w' t : Text} (hw : Ws w) (hw' : Ws w') (h : Derives (.value v) t) :
      Derives (.elements [v]) (w ++ t ++ w')
  | elements {v : Json} {xs : List Json} {w w' t t' : Text} (hw : Ws w) (hw' : Ws w')
      (h : Derives (.value v) t) (hrest : Derives (.elements xs) t') :
      Derives (.elements (v :: xs)) (w ++ t ++ w' ++ comma :: t')
  | member {k kt : Text} {v : Json} {w₁ w₂ w₃ w₄ t : Text} (hk : Chars k kt) (hw₁ : Ws w₁)
      (hw₂ : Ws w₂) (hw₃ : Ws w₃) (hw₄ : Ws w₄) (h : Derives (.value v) t) :
      Derives (.members [(k, v)])
        (w₁ ++ quote :: kt ++ quote :: w₂ ++ colon :: w₃ ++ t ++ w₄)
  | members {k kt : Text} {v : Json} {ms : List (Text × Json)} {w₁ w₂ w₃ w₄ t t' : Text}
      (hk : Chars k kt) (hw₁ : Ws w₁) (hw₂ : Ws w₂) (hw₃ : Ws w₃) (hw₄ : Ws w₄)
      (h : Derives (.value v) t) (hrest : Derives (.members ms) t') :
      Derives (.members ((k, v) :: ms))
        (w₁ ++ quote :: kt ++ quote :: w₂ ++ colon :: w₃ ++ t ++ w₄ ++ comma :: t')

/-- A JSON text: one value, with white space around it. -/
def IsText (v : Json) (t : Text) : Prop :=
  ∃ w t' w', Ws w ∧ Ws w' ∧ Derives (.value v) t' ∧ t = w ++ t' ++ w'

/-! ## The decoder -/

/-- The text after white space. -/
def skipWs (t : Text) : Text := t.dropWhile isWs

/-- The text after white space and one character. -/
def expect (c : UInt8) (t : Text) : Option Text :=
  match skipWs t with
  | [] => none
  | c' :: r => if c' = c then some r else none

/-- The characters of a string, up to its closing quote. -/
def readChars : Text → Option (Text × Text)
  | [] => none
  | 34 :: r => some ([], r)
  | 92 :: 117 :: a :: b :: c :: d :: r =>
    (Json.unicode a b c d).bind fun x => (readChars r).map fun (s, r) => (x :: s, r)
  | 92 :: e :: r => (unescape e).bind fun x => (readChars r).map fun (s, r) => (x :: s, r)
  | c :: r =>
    if c < 32 ∨ c = backslash then none
    else (readChars r).map fun (s, r) => (c :: s, r)

/-- A maximal run of digits. -/
def readNatural (t : Text) : Option (ℕ × Text) :=
  let ds := t.takeWhile isDigit
  if ds = [] ∨ (ds.head? = some 48 ∧ ds.length ≠ 1) then none
  else some (numeralValue 10 ds, t.dropWhile isDigit)

/-- An integer. -/
def readInteger : Text → Option (ℤ × Text)
  | 45 :: r => (readNatural r).map fun (n, r) => (-(n : ℤ), r)
  | t => (readNatural t).map fun (n, r) => ((n : ℤ), r)

mutual

/-- A value at the start of the text, and the rest. -/
def readValue : ℕ → Text → Option (Json × Text)
  | 0, _ => none
  | _ + 1, 110 :: 117 :: 108 :: 108 :: r => some (.null, r)
  | _ + 1, 116 :: 114 :: 117 :: 101 :: r => some (.bool true, r)
  | _ + 1, 102 :: 97 :: 108 :: 115 :: 101 :: r => some (.bool false, r)
  | _ + 1, 34 :: r => (readChars r).map fun (s, r) => (.str s, r)
  | fuel + 1, 91 :: r =>
    match expect rightBracket r with
    | some r => some (.arr [], r)
    | none => (readElements fuel r).map fun (xs, r) => (.arr xs, r)
  | fuel + 1, 123 :: r =>
    match expect rightBrace r with
    | some r => some (.obj [], r)
    | none => (readMembers fuel r).map fun (ms, r) => (.obj ms, r)
  | _ + 1, t => (readInteger t).map fun (n, r) => (.num n, r)

/-- The elements of an array, up to its closing bracket. -/
def readElements : ℕ → Text → Option (List Json × Text)
  | 0, _ => none
  | fuel + 1, t =>
    (readValue fuel (skipWs t)).bind fun (v, r) =>
      match expect rightBracket r with
      | some r => some ([v], r)
      | none => (expect comma r).bind fun r =>
        (readElements fuel r).map fun (xs, r) => (v :: xs, r)

/-- The members of an object, up to its closing brace. -/
def readMembers : ℕ → Text → Option (List (Text × Json) × Text)
  | 0, _ => none
  | fuel + 1, t =>
    (expect quote t).bind fun r => (readChars r).bind fun (k, r) =>
      (expect colon r).bind fun r => (readValue fuel (skipWs r)).bind fun (v, r) =>
        match expect rightBrace r with
        | some r => some ([(k, v)], r)
        | none => (expect comma r).bind fun r =>
          (readMembers fuel r).map fun (ms, r) => ((k, v) :: ms, r)

end

/-- The value of a text. -/
def decode (t : Text) : Option Json :=
  (readValue (2 * t.length) (skipWs t)).bind fun (v, r) => if skipWs r = [] then some v else none

/-! ## White space -/

section White

variable {c : UInt8} {w t r : Text}

theorem ws_nil : Ws [] := fun _ h => absurd h List.not_mem_nil

theorem ws_takeWhile : Ws (t.takeWhile isWs) := fun _ h => List.mem_takeWhile_imp h

theorem skipWs_append (hw : Ws w) : skipWs (w ++ t) = skipWs t := by
  unfold skipWs
  exact List.dropWhile_append_of_pos hw

theorem skipWs_cons (hc : isWs c = false) : skipWs (c :: t) = c :: t := by
  unfold skipWs
  rw [List.dropWhile_cons, if_neg (by rw [hc]; exact Bool.false_ne_true)]

theorem expect_append (hw : Ws w) (hc : isWs c = false) : expect c (w ++ c :: t) = some t := by
  unfold expect
  rw [skipWs_append hw, skipWs_cons hc]
  exact if_pos rfl

theorem expect_of_ne (h : ∀ r, skipWs t ≠ c :: r) : expect c t = none := by
  unfold expect
  split
  · rfl
  · rename_i c' r heq
    refine if_neg ?_
    rintro rfl
    exact h r heq

/-- What is skipped is white space. -/
theorem exists_skipWs (t : Text) : ∃ w, Ws w ∧ t = w ++ skipWs t :=
  ⟨t.takeWhile isWs, ws_takeWhile, List.takeWhile_append_dropWhile.symm⟩

theorem expect_eq_some (h : expect c t = some r) : ∃ w, Ws w ∧ t = w ++ c :: r := by
  obtain ⟨w, hw, ht⟩ := exists_skipWs t
  unfold expect at h
  split at h
  · exact absurd h (by simp)
  · rename_i c' r' heq
    split at h
    · rename_i hc
      obtain rfl := Option.some.inj h
      subst hc
      exact ⟨w, hw, heq ▸ ht⟩
    · exact absurd h (by simp)

end White

/-! ## Strings -/

section Strings

variable {c e x a b d : UInt8} {s t r : Text}

theorem unicode_escape : unescape 117 = none := rfl

theorem readChars_plain (hctrl : 32 ≤ c) (hquote : c ≠ quote) (hescape : c ≠ backslash) :
    readChars (c :: r) = (readChars r).map fun (s, r) => (c :: s, r) := by
  rw [readChars]
  · exact if_neg fun h => h.elim (fun hlt => absurd hctrl (UInt8.not_le.mpr hlt)) hescape
  · exact hquote
  · exact fun _ _ _ _ _ h _ => hescape h
  · exact fun _ _ h _ => hescape h

theorem readChars_escape (he : unescape e = some x) :
    readChars (backslash :: e :: r) = (readChars r).map fun (s, r) => (x :: s, r) := by
  rw [readChars]
  · rw [he]
    rfl
  · rintro _ _ _ _ _ rfl _
    rw [unicode_escape] at he
    exact absurd he (by simp)

theorem readChars_unicode (hx : Json.unicode a b c d = some x) :
    readChars (backslash :: 117 :: a :: b :: c :: d :: r) =
      (readChars r).map fun (s, r) => (x :: s, r) := by
  rw [readChars, hx]
  rfl

/-- The characters of a string are read. -/
theorem Chars.read (h : Chars s t) (r : Text) : readChars (t ++ quote :: r) = some (s, r) := by
  induction h with
  | nil => rfl
  | plain hctrl hquote hescape _ ih =>
    rw [List.cons_append, readChars_plain hctrl hquote hescape, ih]
    rfl
  | escape he _ ih =>
    rw [List.cons_append, List.cons_append, readChars_escape he, ih]
    rfl
  | unicode hx _ ih =>
    simp only [List.cons_append]
    rw [readChars_unicode hx, ih]
    rfl

/-- What is read is derived. -/
theorem chars_of_read (h : readChars t = some (s, r)) :
    ∃ t', t = t' ++ quote :: r ∧ Chars s t' := by
  fun_induction readChars t generalizing s with
  | case1 => exact absurd h (by simp)
  | case2 r' =>
    obtain ⟨rfl, rfl⟩ := Prod.mk.inj (Option.some.inj h)
    exact ⟨[], rfl, .nil⟩
  | case3 a b c d r' ih =>
    obtain ⟨x, hx, hmap⟩ := Option.bind_eq_some_iff.mp h
    obtain ⟨⟨s', _⟩, hrest, heq⟩ := Option.map_eq_some_iff.mp hmap
    obtain ⟨rfl, rfl⟩ := Prod.mk.inj heq
    obtain ⟨t', rfl, ht'⟩ := ih hrest
    exact ⟨_, rfl, .unicode hx ht'⟩
  | case4 e r' hne ih =>
    obtain ⟨x, hx, hmap⟩ := Option.bind_eq_some_iff.mp h
    obtain ⟨⟨s', _⟩, hrest, heq⟩ := Option.map_eq_some_iff.mp hmap
    obtain ⟨rfl, rfl⟩ := Prod.mk.inj heq
    obtain ⟨t', rfl, ht'⟩ := ih hrest
    exact ⟨_, rfl, .escape hx ht'⟩
  | case5 => exact absurd h (by simp)
  | case6 c r' hquote _ _ hplain ih =>
    obtain ⟨⟨s', _⟩, hrest, heq⟩ := Option.map_eq_some_iff.mp h
    obtain ⟨rfl, rfl⟩ := Prod.mk.inj heq
    obtain ⟨t', rfl, ht'⟩ := ih hrest
    obtain ⟨hctrl, hescape⟩ := not_or.mp hplain
    exact ⟨_, rfl, .plain (UInt8.not_lt.mp hctrl) hquote hescape ht'⟩

end Strings

/-! ## Numbers -/

section Numbers

variable {n : ℕ} {m : ℤ} {t r : Text}

/-- A number may end here. -/
def Ends (r : Text) : Prop := ∀ c ∈ r.head?, isDigit c = false

theorem takeWhile_digits (ht : ∀ c ∈ t, isDigit c = true) (hr : Ends r) :
    (t ++ r).takeWhile isDigit = t ∧ (t ++ r).dropWhile isDigit = r := by
  rw [List.takeWhile_append_of_pos ht, List.dropWhile_append_of_pos ht]
  cases r with
  | nil => exact ⟨List.append_nil t, rfl⟩
  | cons c r =>
    have hc : isDigit c = false := hr c rfl
    rw [List.takeWhile_cons, List.dropWhile_cons, hc]
    exact ⟨List.append_nil t, rfl⟩

theorem IsNatural.read (h : IsNatural n t) (hr : Ends r) :
    readNatural (t ++ r) = some (n, r) := by
  unfold readNatural
  obtain ⟨htake, hdrop⟩ := takeWhile_digits h.digits hr
  simp only [htake, hdrop, h.value]
  rw [if_neg]
  rintro (hnil | ⟨hhead, hlen⟩)
  · exact h.ne_nil hnil
  · exact hlen (h.noZero hhead)

theorem isNatural_of_read (h : readNatural t = some (n, r)) :
    ∃ t', t = t' ++ r ∧ IsNatural n t' := by
  unfold readNatural at h
  simp only at h
  split at h
  · exact absurd h (by simp)
  · rename_i hok
    obtain ⟨rfl, rfl⟩ := Prod.mk.inj (Option.some.inj h)
    obtain ⟨hnil, hzero⟩ := not_or.mp hok
    exact ⟨t.takeWhile isDigit, List.takeWhile_append_dropWhile.symm, hnil,
      fun _ hc => List.mem_takeWhile_imp hc,
      fun hhead => not_not.mp fun hlen => hzero ⟨hhead, hlen⟩, rfl⟩

theorem IsNatural.head (h : IsNatural n t) : ∃ c r, t = c :: r ∧ isDigit c = true := by
  obtain ⟨c, r, rfl⟩ := List.exists_cons_of_ne_nil h.ne_nil
  exact ⟨c, r, rfl, h.digits c List.mem_cons_self⟩

theorem IsInteger.read (h : IsInteger m t) (hr : Ends r) :
    readInteger (t ++ r) = some (m, r) := by
  cases h with
  | natural h =>
    obtain ⟨c, t, rfl, hc⟩ := h.head
    rw [List.cons_append, readInteger]
    · rw [← List.cons_append, h.read hr]
      rfl
    · rintro _ heq
      rw [(List.cons.inj heq).1] at hc
      exact absurd hc (by decide)
  | negative h =>
    rw [List.cons_append, readInteger, h.read hr]
    rfl

theorem isInteger_of_read (h : readInteger t = some (m, r)) :
    ∃ t', t = t' ++ r ∧ IsInteger m t' := by
  fun_cases readInteger t with
  | case1 r' =>
    rw [readInteger] at h
    obtain ⟨⟨n, _⟩, hread, heq⟩ := Option.map_eq_some_iff.mp h
    obtain ⟨rfl, rfl⟩ := Prod.mk.inj heq
    obtain ⟨t', rfl, ht'⟩ := isNatural_of_read hread
    exact ⟨_, rfl, .negative ht'⟩
  | case2 t hne =>
    rw [readInteger] at h
    · obtain ⟨⟨n, _⟩, hread, heq⟩ := Option.map_eq_some_iff.mp h
      obtain ⟨rfl, rfl⟩ := Prod.mk.inj heq
      obtain ⟨t', rfl, ht'⟩ := isNatural_of_read hread
      exact ⟨_, rfl, .natural ht'⟩
    · exact hne

/-- An integer starts with a digit or a minus sign. -/
theorem IsInteger.head (h : IsInteger m t) :
    ∃ c r, t = c :: r ∧ (isDigit c = true ∨ c = 45) := by
  cases h with
  | natural h =>
    obtain ⟨c, r, rfl, hc⟩ := h.head
    exact ⟨c, r, rfl, .inl hc⟩
  | negative h => exact ⟨45, _, rfl, .inr rfl⟩

end Numbers

/-! ## What is derived is read -/

section Complete

variable {v : Json} {xs : List Json} {ms : List (Text × Json)} {c : UInt8}
  {k u w t t' t'' r r' r'' : Text} {fuel : ℕ}

theorem isWs_digit (h : isDigit c = true) : isWs c = false := by
  rcases hws : isWs c with _ | _
  · rfl
  · simp only [isWs, Bool.or_eq_true, beq_iff_eq] at hws
    rcases hws with ((rfl | rfl) | rfl) | rfl <;> exact absurd h (by decide)

/-- A value starts with neither white space nor a closing bracket. -/
theorem Derives.value_head (h : Derives (.value v) t) :
    ∃ c r, t = c :: r ∧ isWs c = false ∧ c ≠ rightBracket := by
  cases h with
  | num h =>
    obtain ⟨c, r, rfl, hc | rfl⟩ := h.head
    · refine ⟨c, r, rfl, isWs_digit hc, ?_⟩
      rintro rfl
      exact absurd hc (by decide)
    · exact ⟨_, _, rfl, rfl, by decide⟩
  | _ => exact ⟨_, _, rfl, rfl, by decide⟩

theorem Derives.skipWs_value (h : Derives (.value v) t) (hw : Ws w) :
    skipWs (w ++ (t ++ r)) = t ++ r := by
  obtain ⟨c, t, rfl, hc, -⟩ := h.value_head
  rw [skipWs_append hw, List.cons_append, skipWs_cons hc]

theorem Derives.elements_head (h : Derives (.elements xs) t) (r r' : Text) :
    skipWs (t ++ r) ≠ rightBracket :: r' := by
  cases h with
  | element hw _ h =>
    rw [List.append_assoc, List.append_assoc, h.skipWs_value hw]
    obtain ⟨c, t, rfl, -, hc⟩ := h.value_head
    exact fun heq => hc (List.cons.inj heq).1
  | elements hw _ h _ =>
    rw [List.append_assoc, List.append_assoc, List.append_assoc, h.skipWs_value hw]
    obtain ⟨c, t, rfl, -, hc⟩ := h.value_head
    exact fun heq => hc (List.cons.inj heq).1

theorem Derives.members_head (h : Derives (.members ms) t) (r r' : Text) :
    skipWs (t ++ r) ≠ rightBrace :: r' := by
  cases h with
  | member hk hw _ _ _ h =>
    simp only [List.append_assoc, List.cons_append]
    rw [skipWs_append hw, skipWs_cons rfl]
    exact fun heq => absurd (List.cons.inj heq).1 (by decide)
  | members hk hw _ _ _ h _ =>
    simp only [List.append_assoc, List.cons_append]
    rw [skipWs_append hw, skipWs_cons rfl]
    exact fun heq => absurd (List.cons.inj heq).1 (by decide)

theorem ends_cons (hc : isDigit c = false) : Ends (c :: r) := by
  rintro _ ⟨⟩
  exact hc

theorem ends_ws (hw : Ws w) (hr : Ends r) : Ends (w ++ r) := by
  cases w with
  | nil => exact hr
  | cons c w =>
    refine ends_cons ?_
    rcases hd : isDigit c with _ | _
    · rfl
    · have hc := hw c List.mem_cons_self
      rw [isWs_digit hd] at hc
      exact absurd hc (by decide)

theorem readValue_integer (hc : isDigit c = true ∨ c = 45) :
    readValue (fuel + 1) (c :: r) = (readInteger (c :: r)).map fun (n, r) => (.num n, r) := by
  have hne : ∀ c', isDigit c' = false → c' ≠ 45 → ∀ r', c :: r ≠ c' :: r' := by
    rintro c' hd hm r' heq
    obtain ⟨rfl, -⟩ := List.cons.inj heq
    rcases hc with hc | hc
    · rw [hd] at hc
      exact absurd hc (by decide)
    · exact hm hc
  rw [readValue]
  · exact fun _ => hne 110 rfl (by decide) _
  · exact fun _ => hne 116 rfl (by decide) _
  · exact fun _ => hne 102 rfl (by decide) _
  · exact hne 34 rfl (by decide)
  · exact hne 91 rfl (by decide)
  · exact hne 123 rfl (by decide)

/-- A comma is not a closing bracket. -/
theorem expect_comma (hw : Ws w) (hc : comma ≠ c) : expect c (w ++ comma :: r) = none := by
  refine expect_of_ne fun r' heq => ?_
  rw [skipWs_append hw, skipWs_cons rfl] at heq
  exact hc (List.cons.inj heq).1

theorem readValue_arr (hne : expect rightBracket r = none) :
    readValue (fuel + 1) (leftBracket :: r) =
      (readElements fuel r).map fun (xs, r) => (.arr xs, r) := by
  rw [readValue, hne]

theorem readValue_obj (hne : expect rightBrace r = none) :
    readValue (fuel + 1) (leftBrace :: r) =
      (readMembers fuel r).map fun (ms, r) => (.obj ms, r) := by
  rw [readValue, hne]

theorem readElements_last (hv : readValue fuel (skipWs t) = some (v, r))
    (hr : expect rightBracket r = some r') : readElements (fuel + 1) t = some ([v], r') := by
  rw [readElements, hv, Option.bind_some]
  dsimp only
  rw [hr]

theorem readElements_more (hv : readValue fuel (skipWs t) = some (v, r))
    (hlast : expect rightBracket r = none) (hr : expect comma r = some r')
    (hrest : readElements fuel r' = some (xs, r'')) :
    readElements (fuel + 1) t = some (v :: xs, r'') := by
  rw [readElements, hv, Option.bind_some]
  dsimp only
  rw [hlast, hr, Option.bind_some, hrest]
  rfl

theorem readMembers_last (ht : expect quote t = some t') (hk : readChars t' = some (k, t''))
    (hcolon : expect colon t'' = some u) (hv : readValue fuel (skipWs u) = some (v, r))
    (hr : expect rightBrace r = some r') : readMembers (fuel + 1) t = some ([(k, v)], r') := by
  rw [readMembers, ht, Option.bind_some, hk, Option.bind_some]
  dsimp only
  rw [hcolon, Option.bind_some, hv, Option.bind_some]
  dsimp only
  rw [hr]

theorem readMembers_more (ht : expect quote t = some t') (hk : readChars t' = some (k, t''))
    (hcolon : expect colon t'' = some u) (hv : readValue fuel (skipWs u) = some (v, r))
    (hlast : expect rightBrace r = none) (hr : expect comma r = some r')
    (hrest : readMembers fuel r' = some (ms, r'')) :
    readMembers (fuel + 1) t = some ((k, v) :: ms, r'') := by
  rw [readMembers, ht, Option.bind_some, hk, Option.bind_some]
  dsimp only
  rw [hcolon, Option.bind_some, hv, Option.bind_some]
  dsimp only
  rw [hlast, hr, Option.bind_some, hrest]
  rfl

/-- The decoder reads a part of a value, whatever follows it. -/
def Part.Read : Part → Text → Prop
  | .value v, t => ∀ fuel r, 2 * t.length ≤ fuel → Ends r → readValue fuel (t ++ r) = some (v, r)
  | .elements xs, t => ∀ fuel r, 2 * t.length + 1 ≤ fuel →
      readElements fuel (t ++ rightBracket :: r) = some (xs, r)
  | .members ms, t => ∀ fuel r, 2 * t.length + 1 ≤ fuel →
      readMembers fuel (t ++ rightBrace :: r) = some (ms, r)

theorem read_num {n : ℤ} (h : IsInteger n t) : Part.Read (.value (.num n)) t := by
  intro fuel r hfuel hr
  obtain ⟨c, t, rfl, hc⟩ := h.head
  obtain ⟨fuel, rfl⟩ := Nat.exists_eq_add_one.mpr (Nat.lt_of_lt_of_le (by simp) hfuel)
  rw [List.cons_append, readValue_integer hc, ← List.cons_append, h.read hr]
  rfl

theorem read_str {s : Text} (h : Chars s t) :
    Part.Read (.value (.str s)) (quote :: t ++ [quote]) := by
  intro fuel r hfuel _
  obtain ⟨fuel, rfl⟩ := Nat.exists_eq_add_one.mpr (Nat.lt_of_lt_of_le (by simp) hfuel)
  rw [List.cons_append, List.cons_append, List.append_assoc, List.singleton_append, readValue,
    h.read r]
  rfl

theorem read_emptyArr (hw : Ws w) :
    Part.Read (.value (.arr [])) (leftBracket :: w ++ [rightBracket]) := by
  intro fuel r hfuel _
  obtain ⟨fuel, rfl⟩ := Nat.exists_eq_add_one.mpr (Nat.lt_of_lt_of_le (by simp) hfuel)
  rw [List.cons_append, List.cons_append, List.append_assoc, List.singleton_append, readValue,
    expect_append hw rfl]

theorem read_arr (h : Derives (.elements xs) t) (ih : Part.Read (.elements xs) t) :
    Part.Read (.value (.arr xs)) (leftBracket :: t ++ [rightBracket]) := by
  intro fuel r hfuel _
  simp only [List.length_append, List.length_cons, List.length_nil] at hfuel
  obtain ⟨fuel, rfl⟩ := Nat.exists_eq_add_one.mpr (show 0 < fuel by omega)
  rw [List.cons_append, List.cons_append, List.append_assoc, List.singleton_append,
    readValue_arr (expect_of_ne (h.elements_head _)), ih fuel r (by omega)]
  rfl

theorem read_emptyObj (hw : Ws w) :
    Part.Read (.value (.obj [])) (leftBrace :: w ++ [rightBrace]) := by
  intro fuel r hfuel _
  obtain ⟨fuel, rfl⟩ := Nat.exists_eq_add_one.mpr (Nat.lt_of_lt_of_le (by simp) hfuel)
  rw [List.cons_append, List.cons_append, List.append_assoc, List.singleton_append, readValue,
    expect_append hw rfl]

theorem read_obj (h : Derives (.members ms) t) (ih : Part.Read (.members ms) t) :
    Part.Read (.value (.obj ms)) (leftBrace :: t ++ [rightBrace]) := by
  intro fuel r hfuel _
  simp only [List.length_append, List.length_cons, List.length_nil] at hfuel
  obtain ⟨fuel, rfl⟩ := Nat.exists_eq_add_one.mpr (show 0 < fuel by omega)
  rw [List.cons_append, List.cons_append, List.append_assoc, List.singleton_append,
    readValue_obj (expect_of_ne (h.members_head _)), ih fuel r (by omega)]
  rfl

theorem read_element {w' : Text} (hw : Ws w) (hw' : Ws w') (h : Derives (.value v) t)
    (ih : Part.Read (.value v) t) : Part.Read (.elements [v]) (w ++ t ++ w') := by
  intro fuel r hfuel
  simp only [List.length_append] at hfuel
  obtain ⟨fuel, rfl⟩ := Nat.exists_eq_add_one.mpr (show 0 < fuel by omega)
  rw [List.append_assoc, List.append_assoc]
  refine readElements_last ?_ (expect_append hw' rfl)
  rw [h.skipWs_value hw, ih fuel _ (by omega) (ends_ws hw' (ends_cons rfl))]

theorem read_elements {w' : Text} (hw : Ws w) (hw' : Ws w') (h : Derives (.value v) t)
    (ih : Part.Read (.value v) t) (ihrest : Part.Read (.elements xs) t') :
    Part.Read (.elements (v :: xs)) (w ++ t ++ w' ++ comma :: t') := by
  intro fuel r hfuel
  simp only [List.length_append, List.length_cons] at hfuel
  obtain ⟨fuel, rfl⟩ := Nat.exists_eq_add_one.mpr (show 0 < fuel by omega)
  rw [List.append_assoc, List.append_assoc, List.append_assoc, List.cons_append]
  refine readElements_more ?_ (expect_comma hw' (by decide)) (expect_append hw' rfl)
    (ihrest fuel r (by omega))
  rw [h.skipWs_value hw, ih fuel _ (by omega) (ends_ws hw' (ends_cons rfl))]

section Member

variable {kt w₁ w₂ w₃ w₄ : Text}

theorem read_member (hk : Chars k kt) (hw₁ : Ws w₁) (hw₂ : Ws w₂) (hw₃ : Ws w₃) (hw₄ : Ws w₄)
    (h : Derives (.value v) t) (ih : Part.Read (.value v) t) :
    Part.Read (.members [(k, v)])
      (w₁ ++ quote :: kt ++ quote :: w₂ ++ colon :: w₃ ++ t ++ w₄) := by
  intro fuel r hfuel
  simp only [List.length_append, List.length_cons] at hfuel
  obtain ⟨fuel, rfl⟩ := Nat.exists_eq_add_one.mpr (show 0 < fuel by omega)
  simp only [List.append_assoc, List.cons_append]
  refine readMembers_last (expect_append hw₁ rfl) (hk.read _) (expect_append hw₂ rfl) ?_
    (expect_append hw₄ rfl)
  rw [h.skipWs_value hw₃, ih fuel _ (by omega) (ends_ws hw₄ (ends_cons (by decide)))]

theorem read_members (hk : Chars k kt) (hw₁ : Ws w₁) (hw₂ : Ws w₂) (hw₃ : Ws w₃) (hw₄ : Ws w₄)
    (h : Derives (.value v) t) (ih : Part.Read (.value v) t)
    (ihrest : Part.Read (.members ms) t') :
    Part.Read (.members ((k, v) :: ms))
      (w₁ ++ quote :: kt ++ quote :: w₂ ++ colon :: w₃ ++ t ++ w₄ ++ comma :: t') := by
  intro fuel r hfuel
  simp only [List.length_append, List.length_cons] at hfuel
  obtain ⟨fuel, rfl⟩ := Nat.exists_eq_add_one.mpr (show 0 < fuel by omega)
  simp only [List.append_assoc, List.cons_append]
  refine readMembers_more (expect_append hw₁ rfl) (hk.read _) (expect_append hw₂ rfl) ?_
    (expect_comma hw₄ (by decide)) (expect_append hw₄ rfl) (ihrest fuel r (by omega))
  rw [h.skipWs_value hw₃, ih fuel _ (by omega) (ends_ws hw₄ (ends_cons (by decide)))]

end Member

/-- With as much fuel as twice the length of the text, what is derived is read. -/
theorem Derives.read {p : Part} (h : Derives p t) : p.Read t := by
  induction h with
  | null | yes | no =>
    intro fuel r hfuel _
    obtain ⟨fuel, rfl⟩ := Nat.exists_eq_add_one.mpr (Nat.lt_of_lt_of_le (by decide) hfuel)
    rfl
  | num h => exact read_num h
  | str h => exact read_str h
  | emptyArr hw => exact read_emptyArr hw
  | arr h ih => exact read_arr h ih
  | emptyObj hw => exact read_emptyObj hw
  | obj h ih => exact read_obj h ih
  | element hw hw' h ih => exact read_element hw hw' h ih
  | elements hw hw' h _ ih ihrest => exact read_elements hw hw' h ih ihrest
  | member hk hw₁ hw₂ hw₃ hw₄ h ih => exact read_member hk hw₁ hw₂ hw₃ hw₄ h ih
  | members hk hw₁ hw₂ hw₃ hw₄ h _ ih ihrest =>
    exact read_members hk hw₁ hw₂ hw₃ hw₄ h ih ihrest

/-- A derived text decodes to its value. -/
theorem IsText.decode (h : IsText v t) : Json.decode t = some v := by
  obtain ⟨w, t, w', hw, hw', h, rfl⟩ := h
  unfold Json.decode
  have hread := h.read (2 * (w ++ t ++ w').length) w' (by simp; omega)
    (List.append_nil w' ▸ ends_ws hw' fun _ hc => absurd hc (by simp))
  rw [List.append_assoc, h.skipWs_value hw, ← List.append_assoc, hread, Option.bind_some]
  refine if_pos ?_
  rw [← List.append_nil w', skipWs_append hw']
  rfl

end Complete

/-! ## What is read is derived -/

section Sound

variable {v : Json} {xs : List Json} {ms : List (Text × Json)} {k t r : Text} {fuel : ℕ}

/-- What the decoder reads at some fuel is derived. -/
structure Reads (fuel : ℕ) : Prop where
  value : ∀ t v r, readValue fuel t = some (v, r) → ∃ t', t = t' ++ r ∧ Derives (.value v) t'
  elements : ∀ t xs r, readElements fuel t = some (xs, r) →
    ∃ t', t = t' ++ rightBracket :: r ∧ Derives (.elements xs) t'
  members : ∀ t ms r, readMembers fuel t = some (ms, r) →
    ∃ t', t = t' ++ rightBrace :: r ∧ Derives (.members ms) t'

theorem Reads.readValue (h : Reads fuel) (hread : readValue (fuel + 1) t = some (v, r)) :
    ∃ t', t = t' ++ r ∧ Derives (.value v) t' := by
  unfold Json.readValue at hread
  split at hread
  · rename_i heq
    exact absurd heq (by simp)
  · obtain ⟨rfl, rfl⟩ := Prod.mk.inj (Option.some.inj hread)
    exact ⟨_, rfl, .null⟩
  · obtain ⟨rfl, rfl⟩ := Prod.mk.inj (Option.some.inj hread)
    exact ⟨_, rfl, .yes⟩
  · obtain ⟨rfl, rfl⟩ := Prod.mk.inj (Option.some.inj hread)
    exact ⟨_, rfl, .no⟩
  · obtain ⟨⟨s, _⟩, hs, heq⟩ := Option.map_eq_some_iff.mp hread
    obtain ⟨rfl, rfl⟩ := Prod.mk.inj heq
    obtain ⟨t', rfl, ht'⟩ := chars_of_read hs
    exact ⟨_, by simp, .str ht'⟩
  · rename_i hfuel
    obtain rfl := Nat.succ.inj hfuel
    split at hread
    · rename_i hclose
      obtain ⟨rfl, rfl⟩ := Prod.mk.inj (Option.some.inj hread)
      obtain ⟨w, hw, rfl⟩ := expect_eq_some hclose
      exact ⟨_, by simp, .emptyArr hw⟩
    · obtain ⟨⟨xs, _⟩, hxs, heq⟩ := Option.map_eq_some_iff.mp hread
      obtain ⟨rfl, rfl⟩ := Prod.mk.inj heq
      obtain ⟨t', rfl, ht'⟩ := h.elements _ _ _ hxs
      exact ⟨_, by simp, .arr ht'⟩
  · rename_i hfuel
    obtain rfl := Nat.succ.inj hfuel
    split at hread
    · rename_i hclose
      obtain ⟨rfl, rfl⟩ := Prod.mk.inj (Option.some.inj hread)
      obtain ⟨w, hw, rfl⟩ := expect_eq_some hclose
      exact ⟨_, by simp, .emptyObj hw⟩
    · obtain ⟨⟨ms, _⟩, hms, heq⟩ := Option.map_eq_some_iff.mp hread
      obtain ⟨rfl, rfl⟩ := Prod.mk.inj heq
      obtain ⟨t', rfl, ht'⟩ := h.members _ _ _ hms
      exact ⟨_, by simp, .obj ht'⟩
  · obtain ⟨⟨n, _⟩, hn, heq⟩ := Option.map_eq_some_iff.mp hread
    obtain ⟨rfl, rfl⟩ := Prod.mk.inj heq
    obtain ⟨t', rfl, ht'⟩ := isInteger_of_read hn
    exact ⟨_, rfl, .num ht'⟩

theorem Reads.readElements (h : Reads fuel) (hread : readElements (fuel + 1) t = some (xs, r)) :
    ∃ t', t = t' ++ rightBracket :: r ∧ Derives (.elements xs) t' := by
  rw [Json.readElements] at hread
  obtain ⟨⟨v, r₁⟩, hv, hread⟩ := Option.bind_eq_some_iff.mp hread
  obtain ⟨w, hw, ht⟩ := exists_skipWs t
  obtain ⟨t', hskip, ht'⟩ := h.value _ _ _ hv
  rw [ht, hskip]
  dsimp only at hread
  split at hread
  · rename_i hclose
    obtain ⟨rfl, rfl⟩ := Prod.mk.inj (Option.some.inj hread)
    obtain ⟨w', hw', rfl⟩ := expect_eq_some hclose
    exact ⟨_, by simp, .element hw hw' ht'⟩
  · obtain ⟨r₂, hcomma, hread⟩ := Option.bind_eq_some_iff.mp hread
    obtain ⟨⟨xs, _⟩, hxs, heq⟩ := Option.map_eq_some_iff.mp hread
    obtain ⟨rfl, rfl⟩ := Prod.mk.inj heq
    obtain ⟨w', hw', rfl⟩ := expect_eq_some hcomma
    obtain ⟨t'', rfl, ht''⟩ := h.elements _ _ _ hxs
    exact ⟨_, by simp, .elements hw hw' ht' ht''⟩

theorem Reads.readMembers (h : Reads fuel) (hread : readMembers (fuel + 1) t = some (ms, r)) :
    ∃ t', t = t' ++ rightBrace :: r ∧ Derives (.members ms) t' := by
  rw [Json.readMembers] at hread
  obtain ⟨r₁, hquote, hread₁⟩ := Option.bind_eq_some_iff.mp hread
  obtain ⟨⟨k, r₂⟩, hk, hread₂⟩ := Option.bind_eq_some_iff.mp hread₁
  obtain ⟨r₃, hcolon, hread₃⟩ := Option.bind_eq_some_iff.mp hread₂
  obtain ⟨⟨v, r₄⟩, hv, hread₄⟩ := Option.bind_eq_some_iff.mp hread₃
  obtain ⟨w₁, hw₁, rfl⟩ := expect_eq_some hquote
  obtain ⟨kt, rfl, hkt⟩ := chars_of_read hk
  obtain ⟨w₂, hw₂, rfl⟩ := expect_eq_some hcolon
  obtain ⟨w₃, hw₃, ht⟩ := exists_skipWs r₃
  obtain ⟨t', hskip, ht'⟩ := h.value _ _ _ hv
  rw [ht, hskip]
  dsimp only at hread₄
  split at hread₄
  · rename_i hclose
    obtain ⟨rfl, rfl⟩ := Prod.mk.inj (Option.some.inj hread₄)
    obtain ⟨w₄, hw₄, rfl⟩ := expect_eq_some hclose
    exact ⟨_, by simp, .member hkt hw₁ hw₂ hw₃ hw₄ ht'⟩
  · obtain ⟨r₅, hcomma, hread₅⟩ := Option.bind_eq_some_iff.mp hread₄
    obtain ⟨⟨ms, _⟩, hms, heq⟩ := Option.map_eq_some_iff.mp hread₅
    obtain ⟨rfl, rfl⟩ := Prod.mk.inj heq
    obtain ⟨w₄, hw₄, rfl⟩ := expect_eq_some hcomma
    obtain ⟨t'', rfl, ht''⟩ := h.members _ _ _ hms
    exact ⟨_, by simp, .members hkt hw₁ hw₂ hw₃ hw₄ ht' ht''⟩

/-- What is read is derived. -/
theorem reads (fuel : ℕ) : Reads fuel := by
  induction fuel with
  | zero =>
    constructor
    · intro t v r h
      rw [Json.readValue] at h
      exact absurd h (by simp)
    · intro t xs r h
      rw [Json.readElements] at h
      exact absurd h (by simp)
    · intro t ms r h
      rw [Json.readMembers] at h
      exact absurd h (by simp)
  | succ fuel ih => exact ⟨fun _ _ _ => ih.readValue, fun _ _ _ => ih.readElements,
      fun _ _ _ => ih.readMembers⟩

/-- The decoder accepts exactly the texts of the grammar, with the value they have. -/
theorem decode_eq_some_iff : decode t = some v ↔ IsText v t := by
  constructor
  · intro h
    obtain ⟨⟨v', r⟩, hv, hend⟩ := Option.bind_eq_some_iff.mp h
    dsimp only at hend
    split at hend
    · rename_i hskip
      obtain rfl := Option.some.inj hend
      obtain ⟨w, hw, ht⟩ := exists_skipWs t
      obtain ⟨t', ht', hderives⟩ := (reads _).value _ _ _ hv
      obtain ⟨w', hw', hr⟩ := exists_skipWs r
      rw [hskip, List.append_nil] at hr
      refine ⟨w, t', w', hw, hw', hderives, ?_⟩
      rw [List.append_assoc, ← hr, ← ht']
      exact ht
    · exact absurd hend (by simp)
  · exact IsText.decode

/-- A text has one value at most. -/
theorem IsText.unique {v' : Json} (h : IsText v t) (h' : IsText v' t) : v = v' :=
  Option.some.inj (h.decode.symm.trans h'.decode)

end Sound

/-! ## Printing

How texts that are printed piece by piece are derived: lists are joined with a comma, and
an optional member is printed with the comma before it. -/

section Printing

variable {v : Json} {xs ys : List Json} {ms ms' : List (Text × Json)} {k kt s t t' vt : Text}

/-- A text with its quotes. -/
def quoted (t : Text) : Text := quote :: t ++ [quote]

/-- `xs`, printed one after the other with commas between them. -/
def commaList {α : Type} (print : α → Text) : List α → Text
  | [] => []
  | x :: xs => print x ++ xs.flatMap fun x => comma :: print x

/-- An optional member. -/
def opt (k : Text) (o : Option Json) : List (Text × Json) := (o.map fun v => (k, v)).toList

/-- No character of a text has to be escaped. -/
def Plain (s : Text) : Prop := ∀ c ∈ s, 32 ≤ c ∧ c ≠ quote ∧ c ≠ backslash

instance (s : Text) : Decidable (Plain s) := List.decidableBAll _ s

/-- A string that needs no escape denotes itself. -/
theorem chars_plain (h : Plain s) : Chars s s := by
  induction s with
  | nil => exact .nil
  | cons c s ih =>
    obtain ⟨hctrl, hquote, hescape⟩ := h c List.mem_cons_self
    exact .plain hctrl hquote hescape (ih fun c hc => h c (List.mem_cons_of_mem _ hc))

theorem Chars.append {s' : Text} (h : Chars s t) (h' : Chars s' t') :
    Chars (s ++ s') (t ++ t') := by
  induction h with
  | nil => exact h'
  | plain hctrl hquote hescape _ ih => exact .plain hctrl hquote hescape ih
  | escape he _ ih => exact .escape he ih
  | unicode hx _ ih => exact .unicode hx ih

theorem Chars.value (h : Chars s t) : Derives (.value (.str s)) (quoted t) := .str h

theorem isInteger_decimal (n : ℤ) : IsInteger n (decimal n) := by
  have hnat : ∀ m : ℕ, IsNatural m (numeral 10 m) := fun m =>
    ⟨numeral_ne_nil, fun _ => isDigit_of_mem_numeral,
      fun h => by rw [numeral_head (by decide) (by decide) h]; rfl,
      numeralValue_numeral (by decide) (by decide)⟩
  unfold decimal
  split
  · rename_i hneg
    have h := IsInteger.negative (hnat n.natAbs)
    rwa [show -((n.natAbs : ℕ) : ℤ) = n by omega] at h
  · rename_i hpos
    have h := IsInteger.natural (hnat n.natAbs)
    rwa [show ((n.natAbs : ℕ) : ℤ) = n by omega] at h

theorem decimal_natCast (n : ℕ) : decimal (n : ℤ) = numeral 10 n := by
  unfold decimal
  rw [if_neg (by omega), Int.natAbs_natCast]

theorem derives_numeral (n : ℕ) : Derives (.value (.num n)) (numeral 10 n) :=
  .num (decimal_natCast n ▸ isInteger_decimal n)

/-- One member. -/
theorem Chars.member (hk : Chars k kt) (hv : Derives (.value v) vt) :
    Derives (.members [(k, v)]) (quoted kt ++ colon :: vt) := by
  have h := Derives.member hk ws_nil ws_nil ws_nil ws_nil hv
  simpa [quoted] using h

/-- What parts of one kind make when they are joined with a comma. -/
def Part.Joins : Part → Text → Prop
  | .value _, _ => True
  | .elements xs, t => ∀ ys t', Derives (.elements ys) t' →
      Derives (.elements (xs ++ ys)) (t ++ comma :: t')
  | .members ms, t => ∀ ms' t', Derives (.members ms') t' →
      Derives (.members (ms ++ ms')) (t ++ comma :: t')

theorem Derives.joins {p : Part} (h : Derives p t) : p.Joins t := by
  induction h with
  | element hw hw' h _ => exact fun ys t' h' => .elements hw hw' h h'
  | elements hw hw' h _ _ ih =>
    intro ys t' h'
    have hrest := Derives.elements hw hw' h (ih ys t' h')
    simpa using hrest
  | member hk hw₁ hw₂ hw₃ hw₄ h _ => exact fun ms' t' h' => .members hk hw₁ hw₂ hw₃ hw₄ h h'
  | members hk hw₁ hw₂ hw₃ hw₄ h _ _ ih =>
    intro ms' t' h'
    have hrest := Derives.members hk hw₁ hw₂ hw₃ hw₄ h (ih ms' t' h')
    simpa using hrest
  | _ => trivial

/-- More members after a comma. -/
theorem Derives.members_append (h : Derives (.members ms) t) (h' : Derives (.members ms') t') :
    Derives (.members (ms ++ ms')) (t ++ comma :: t') := h.joins ms' t' h'

/-- An optional member that is printed together with the comma before it. -/
theorem Derives.members_opt (h : Derives (.members ms) t) {o : Option Json} {piece : Text}
    (hnone : o = none → piece = [])
    (hsome : ∀ v, o = some v → ∃ t', piece = comma :: t' ∧ Derives (.members [(k, v)]) t') :
    Derives (.members (ms ++ opt k o)) (t ++ piece) := by
  cases o with
  | none =>
    rw [hnone rfl, List.append_nil]
    exact (List.append_nil ms).symm ▸ h
  | some v =>
    obtain ⟨t', rfl, h'⟩ := hsome v rfl
    exact h.members_append h'

/-- A member that is printed under a condition. -/
theorem Derives.members_if {α : Type} {c : Prop} [Decidable c] (h : Derives (.members ms) t) {x : α}
    {toJson : α → Json} {piece : Text}
    (hpiece : c → ∃ t', piece = comma :: t' ∧ Derives (.members [(k, toJson x)]) t') :
    Derives (.members (ms ++ opt k ((if c then some x else none).map toJson)))
      (t ++ if c then piece else []) := by
  split
  · rename_i hc
    refine h.members_opt (fun hnone => absurd hnone (by simp)) fun v hv => ?_
    obtain rfl := Option.some.inj hv
    exact hpiece hc
  · exact h.members_opt (fun _ => rfl) fun v hv => absurd hv (by simp)

theorem lookup_opt {o : Option Json} {k' : Text} :
    (opt k o).lookup k' = if k' = k then o else none := by
  cases o with
  | none => exact (ite_self none).symm
  | some v =>
    unfold opt
    rw [Option.map_some, Option.toList_some, List.lookup_cons]
    by_cases hk : k' = k
    · rw [if_pos hk, beq_iff_eq.mpr hk]
    · rw [if_neg hk, beq_false_of_ne hk]
      rfl

/-- The elements of a list, printed with commas. -/
theorem derives_commaList {α : Type} {print : α → Text} {toJson : α → Json}
    (hprint : ∀ x, Derives (.value (toJson x)) (print x)) (x : α) (l : List α) :
    Derives (.elements ((x :: l).map toJson)) (commaList print (x :: l)) := by
  have hone : ∀ x, Derives (.elements [toJson x]) (print x) := by
    intro x
    have h := Derives.element ws_nil ws_nil (hprint x)
    rwa [List.nil_append, List.append_nil] at h
  induction l generalizing x with
  | nil =>
    have h := hone x
    rwa [← List.append_nil (print x)] at h
  | cons y l ih => exact (hone x).joins _ _ (ih y)

/-- An array, printed with commas. -/
theorem derives_array {α : Type} {print : α → Text} {toJson : α → Json}
    (hprint : ∀ x, Derives (.value (toJson x)) (print x)) (l : List α) :
    Derives (.value (.arr (l.map toJson)))
      (leftBracket :: commaList print l ++ [rightBracket]) := by
  cases l with
  | nil => exact .emptyArr ws_nil
  | cons x l => exact .arr (derives_commaList hprint x l)

end Printing

end Json

end Redzone.Foundation
