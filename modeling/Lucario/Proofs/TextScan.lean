import Mathlib.Tactic
import Lucario.Stdio

namespace Lucario.Proofs

def Stops (c : Char) : Prop := isDigit c = false ∧ c ≠ '-' ∧ c ≠ '+'

/-- Text that adds nothing to an integer in front of it: blanks, then a character that stops. -/
def Inert (text : List Char) : Prop := ∀ c ∈ (text.dropWhile isspace).head?, Stops c

def signOf : List Char → Int
  | '-' :: _ => -1
  | _ => 1

def unsigned : List Char → List Char
  | '-' :: rest => rest
  | '+' :: rest => rest
  | rest => rest

theorem scan_int_eq (text : List Char) :
    scanInt text =
      scanDigits (signOf (text.dropWhile isspace)) (unsigned (text.dropWhile isspace)) := by
  unfold scanInt
  split <;> simp_all [signOf, unsigned]

/-- The integer depends on the leading digits alone. -/
theorem scan_digits_fst (sign : Int) (text : List Char) :
    (scanDigits sign text).1 =
      if text.takeWhile isDigit = [] then none
      else some (sign * digitsValue (text.takeWhile isDigit)) := by
  unfold scanDigits
  rw [List.span_eq_takeWhile_dropWhile]
  split <;> simp_all

theorem sign_append {text : List Char} (h : text ≠ []) (rest : List Char) :
    signOf (text ++ rest) = signOf text := by
  obtain ⟨c, text, rfl⟩ := List.exists_cons_of_ne_nil h
  rw [List.cons_append]
  unfold signOf
  split <;> simp_all

theorem unsigned_append {text : List Char} (h : text ≠ []) (rest : List Char) :
    unsigned (text ++ rest) = unsigned text ++ rest := by
  obtain ⟨c, text, rfl⟩ := List.exists_cons_of_ne_nil h
  rw [List.cons_append]
  unfold unsigned
  split <;> simp_all

theorem drop_blanks_append (text rest : List Char) :
    (text ++ rest).dropWhile isspace =
      if text.dropWhile isspace = [] then rest.dropWhile isspace
      else text.dropWhile isspace ++ rest := by
  rw [List.dropWhile_append]
  simp

theorem digit_not_space {c : Char} (h : isDigit c = true) : isspace c = false := by
  by_contra hs
  simp only [isspace, Bool.not_eq_false, Bool.or_eq_true, decide_eq_true_eq] at hs
  rcases hs with ((((rfl | rfl) | rfl) | rfl) | rfl) | rfl <;> exact absurd h (by decide)

theorem Inert.head {text : List Char} (h : Inert text) :
    ∀ c ∈ text.head?, isDigit c = false := by
  intro c hc
  by_contra hd
  obtain ⟨rest, rfl⟩ := List.head?_eq_some_iff.mp hc
  have hs := digit_not_space (Bool.eq_true_of_not_eq_false hd)
  exact hd (h c (by simp [hs])).1

theorem take_digits_append (text : List Char) {rest : List Char}
    (h : ∀ c ∈ rest.head?, isDigit c = false) :
    (text ++ rest).takeWhile isDigit = text.takeWhile isDigit := by
  have hrest : rest.takeWhile isDigit = [] := by
    cases rest with
    | nil => rfl
    | cons c rest => simp [h c rfl]
  rw [List.takeWhile_append, hrest, List.append_nil]
  split_ifs with hlen
  · exact ((List.takeWhile_prefix _).eq_of_length hlen).symm
  · rfl

/-- Text that starts with a stopping character after its blanks holds no integer there. -/
theorem Inert.scan {text : List Char} (h : Inert text) : (scanInt text).1 = none := by
  have hdigits : (unsigned (text.dropWhile isspace)).takeWhile isDigit = [] := by
    unfold Inert at h
    generalize text.dropWhile isspace = rest at h
    cases rest with
    | nil => rfl
    | cons c rest =>
      obtain ⟨hd, hminus, hplus⟩ := h c rfl
      unfold unsigned
      split <;> simp_all
  rw [scan_int_eq, scan_digits_fst, if_pos hdigits]

/-- Inert text does not change the integer in front of it. -/
theorem Inert.scan_append {rest : List Char} (h : Inert rest) (text : List Char) :
    (scanInt (text ++ rest)).1 = (scanInt text).1 := by
  by_cases hblank : text.dropWhile isspace = []
  · have htext : (scanInt text).1 = none := by
      apply Inert.scan
      simp [Inert, hblank]
    rw [htext, scan_int_eq, drop_blanks_append, if_pos hblank, ← scan_int_eq, h.scan]
  · rw [scan_int_eq, scan_int_eq, drop_blanks_append, if_neg hblank, sign_append hblank,
      unsigned_append hblank, scan_digits_fst, scan_digits_fst, take_digits_append _ h.head]

theorem inert_of_stop {c : Char} (h : Stops c) (hs : isspace c = false) (rest : List Char) :
    Inert (c :: rest) := by
  simpa [Inert, hs] using h

theorem inert_newline : Inert ['\n'] := by
  simp [Inert, isspace]

/-- What a comment cuts off starts with its mark. -/
theorem comment_cut (text : List Char) :
    ∃ rest, text = cutComment text ++ rest ∧ Inert rest := by
  fun_induction cutComment text with
  | case1 => exact ⟨[], rfl, by simp [Inert]⟩
  | case2 rest => exact ⟨_, rfl, inert_of_stop ⟨by decide, by decide, by decide⟩ (by decide) _⟩
  | case3 c text _ ih =>
    obtain ⟨rest, heq, hinert⟩ := ih
    exact ⟨rest, congrArg (c :: ·) heq, hinert⟩

/-- What a C string leaves out starts with a null. -/
theorem string_cut (text : List Char) : ∃ rest, text = cString text ++ rest ∧ Inert rest := by
  refine ⟨text.dropWhile (fun c => c ≠ '\x00'), (List.takeWhile_append_dropWhile).symm, ?_⟩
  cases hrest : text.dropWhile (fun c => c ≠ '\x00') with
  | nil => simp [Inert]
  | cons c rest =>
    have hc := List.head?_dropWhile_not (fun c => decide (c ≠ '\x00')) text
    rw [hrest] at hc
    obtain rfl : c = '\x00' := by simpa using hc
    exact inert_of_stop ⟨by decide, by decide, by decide⟩ (by decide) _

/-- Cutting the comment off does not change the integer a line starts with. -/
theorem scan_cut_comment (text : List Char) :
    (scanInt (cutComment text)).1 = (scanInt text).1 := by
  obtain ⟨rest, heq, hinert⟩ := comment_cut text
  conv_rhs => rw [heq]
  exact (hinert.scan_append _).symm

theorem scan_c_string (text : List Char) : (scanInt (cString text)).1 = (scanInt text).1 := by
  obtain ⟨rest, heq, hinert⟩ := string_cut text
  conv_rhs => rw [heq]
  exact (hinert.scan_append _).symm

theorem scan_digits_some {sign : Int} {text : List Char} :
    (scanDigits sign text).1.isSome ↔ ∃ c ∈ text.head?, isDigit c := by
  rw [scan_digits_fst]
  cases text with
  | nil => simp
  | cons c text => cases h : isDigit c <;> simp [h]

theorem digit_unsigned {c : Char} (h : isDigit c) (text : List Char) :
    signOf (c :: text) = 1 ∧ unsigned (c :: text) = c :: text := by
  unfold signOf unsigned
  split <;> split <;> simp_all [isDigit]

/-- Digits at the start of a text are an integer there, without a sign. -/
theorem scan_leading_digits {text : List Char} (h : text.takeWhile isDigit ≠ []) :
    (scanInt text).1 = some (digitsValue (text.takeWhile isDigit)) := by
  cases text with
  | nil => exact absurd rfl h
  | cons c text =>
    have hc : isDigit c := by
      by_contra hc
      exact h (List.takeWhile_cons_of_neg hc)
    obtain ⟨hsign, hunsigned⟩ := digit_unsigned hc text
    rw [scan_int_eq, List.dropWhile_cons_of_neg (by simp [digit_not_space hc]), hsign, hunsigned,
      scan_digits_fst, if_neg h, one_mul]

theorem scan_digit {c : Char} (h : isDigit c) (text : List Char) :
    (scanInt (c :: text)).1.isSome := by
  rw [scan_leading_digits (by simp [h])]
  rfl

/-- An integer that the first part of a text does not hold is one the rest starts with. -/
theorem scan_resumes {text rest : List Char} (hnone : (scanInt text).1 = none)
    (h : (scanInt (text ++ rest)).1.isSome) : (scanInt rest).1.isSome := by
  rw [scan_int_eq, drop_blanks_append] at h
  split_ifs at h with hblank
  · rwa [← scan_int_eq] at h
  · rw [sign_append hblank, unsigned_append hblank, scan_digits_some] at h
    have hno : ¬ (scanInt text).1.isSome := by simp [hnone]
    rw [scan_int_eq, scan_digits_some] at hno
    obtain ⟨c, hc, hd⟩ := h
    cases hdigits : unsigned (text.dropWhile isspace) with
    | nil =>
      rw [hdigits, List.nil_append] at hc
      obtain ⟨rest, rfl⟩ := List.head?_eq_some_iff.mp hc
      exact scan_digit hd rest
    | cons d digits =>
      rw [hdigits] at hc hno
      exact absurd ⟨c, hc, hd⟩ hno

theorem digits_value_append {digits : List Char} (h : digitsValue digits = 0) (rest : List Char) :
    digitsValue (digits ++ rest) = digitsValue rest := by
  unfold digitsValue at h ⊢
  rw [List.foldl_append, h]

theorem sign_ne_zero (text : List Char) : signOf text ≠ 0 := by
  unfold signOf
  split <;> decide

/-- An integer other than zero of which the first part of a text holds nothing but zeros goes on
as one in the rest. -/
theorem scan_resumes_nonzero {text rest : List Char} {v : Int}
    (hzero : ∀ w ∈ (scanInt text).1, w = 0) (h : (scanInt (text ++ rest)).1 = some v)
    (hv : v ≠ 0) : ∃ w, (scanInt rest).1 = some w ∧ w ≠ 0 := by
  rw [scan_int_eq, drop_blanks_append] at h
  split_ifs at h with hblank
  · rw [← scan_int_eq] at h
    exact ⟨v, h, hv⟩
  rw [sign_append hblank, unsigned_append hblank, scan_digits_fst] at h
  rw [scan_int_eq, scan_digits_fst] at hzero
  generalize unsigned (text.dropWhile isspace) = digits at h hzero
  have hsign := sign_ne_zero (text.dropWhile isspace)
  generalize signOf (text.dropWhile isspace) = sign at h hzero hsign
  split_ifs at h
  obtain rfl := Option.some.inj h
  have hvalue : digitsValue (digits.takeWhile isDigit) = 0 := by
    split_ifs at hzero with hnone
    · rw [hnone]
      rfl
    · exact (mul_eq_zero.mp (hzero _ rfl)).resolve_left hsign
  -- a run of digits that ends in the first part is zero, so this one goes on
  have hrun : digitsValue ((digits ++ rest).takeWhile isDigit) =
      digitsValue (rest.takeWhile isDigit) := by
    rw [List.takeWhile_append] at hv ⊢
    split_ifs at hv ⊢ with hall
    · have hdigits := (List.takeWhile_prefix isDigit).eq_of_length hall
      rw [hdigits] at hvalue
      exact digits_value_append hvalue _
    · rw [hvalue, mul_zero] at hv
      exact absurd rfl hv
  have hrest : digitsValue (rest.takeWhile isDigit) ≠ 0 := by
    rw [hrun] at hv
    exact right_ne_zero_of_mul hv
  refine ⟨_, scan_leading_digits ?_, hrest⟩
  intro hnil
  rw [hnil] at hrest
  exact hrest rfl

def Blank (text : List Char) : Prop := ∀ c ∈ text, isspace c

def Solid (word : List Char) : Prop := word ≠ [] ∧ ∀ c ∈ word, isspace c = false

inductive Numeral : List Char → Int → Prop where
  | plain (digits : List Char) (hne : digits ≠ []) (h : ∀ c ∈ digits, isDigit c) :
    Numeral digits (digitsValue digits)
  | plus (digits : List Char) (hne : digits ≠ []) (h : ∀ c ∈ digits, isDigit c) :
    Numeral ('+' :: digits) (digitsValue digits)
  | minus (digits : List Char) (hne : digits ≠ []) (h : ∀ c ∈ digits, isDigit c) :
    Numeral ('-' :: digits) (-digitsValue digits)

theorem Blank.drop {blanks : List Char} (h : Blank blanks) (rest : List Char) :
    (blanks ++ rest).dropWhile isspace = rest.dropWhile isspace :=
  List.dropWhile_append_of_pos h

theorem Solid.drop {word : List Char} (h : Solid word) (rest : List Char) :
    (word ++ rest).dropWhile isspace = word ++ rest := by
  obtain ⟨hne, hword⟩ := h
  obtain ⟨c, word, rfl⟩ := List.exists_cons_of_ne_nil hne
  exact List.dropWhile_cons_of_neg (by simp [hword c (by simp)])

/-- A span ends where its word does. -/
theorem span_word {p : Char → Bool} {word rest : List Char} (h : ∀ c ∈ word, p c)
    (hrest : ∀ c ∈ rest.head?, p c = false) : (word ++ rest).span p = (word, rest) := by
  rw [List.span_eq_takeWhile_dropWhile, List.takeWhile_append_of_pos h,
    List.dropWhile_append_of_pos h]
  cases rest with
  | nil => simp
  | cons c rest => simp [hrest c rfl]

theorem scan_token {blanks word rest : List Char} (hblanks : Blank blanks) (hword : Solid word)
    (hrest : ∀ c ∈ rest.head?, isspace c) :
    scanToken (blanks ++ (word ++ rest)) = (some word, rest) := by
  have hspan : (word ++ rest).span (fun c => ! isspace c) = (word, rest) :=
    span_word (by simpa using hword.2) (by simpa using hrest)
  unfold scanToken
  rw [hblanks.drop, hword.drop, hspan]
  obtain ⟨c, word, rfl⟩ := List.exists_cons_of_ne_nil hword.1
  rfl

theorem scan_digits_word {sign : Int} {digits rest : List Char} (hne : digits ≠ [])
    (h : ∀ c ∈ digits, isDigit c) (hrest : ∀ c ∈ rest.head?, isDigit c = false) :
    scanDigits sign (digits ++ rest) = (some (sign * digitsValue digits), rest) := by
  unfold scanDigits
  rw [span_word h hrest]
  obtain ⟨c, digits, rfl⟩ := List.exists_cons_of_ne_nil hne
  rfl

theorem Numeral.solid {numeral : List Char} {n : Int} (h : Numeral numeral n) : Solid numeral := by
  cases h with
  | plain _ hne h => exact ⟨hne, fun c hc => digit_not_space (h c hc)⟩
  | plus digits hne h =>
    refine ⟨by simp, fun c hc => ?_⟩
    rcases List.mem_cons.mp hc with rfl | hc
    · decide
    · exact digit_not_space (h c hc)
  | minus digits hne h =>
    refine ⟨by simp, fun c hc => ?_⟩
    rcases List.mem_cons.mp hc with rfl | hc
    · decide
    · exact digit_not_space (h c hc)

theorem scan_numeral {blanks numeral rest : List Char} {n : Int} (hblanks : Blank blanks)
    (h : Numeral numeral n) (hrest : ∀ c ∈ rest.head?, isDigit c = false) :
    scanInt (blanks ++ (numeral ++ rest)) = (some n, rest) := by
  rw [scan_int_eq, hblanks.drop, h.solid.drop]
  cases h with
  | plain _ hne h =>
    have hsign : signOf numeral = 1 ∧ unsigned numeral = numeral := by
      obtain ⟨c, digits, rfl⟩ := List.exists_cons_of_ne_nil hne
      exact digit_unsigned (h c (by simp)) digits
    rw [sign_append hne, unsigned_append hne, hsign.1, hsign.2, scan_digits_word hne h hrest,
      one_mul]
  | plus digits hne h =>
    exact (scan_digits_word hne h hrest).trans (by simp [signOf])
  | minus digits hne h =>
    exact (scan_digits_word hne h hrest).trans (by simp [signOf])

end Lucario.Proofs
