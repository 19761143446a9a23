import Mathlib
import Bindery.Syntax.Number

/-!
# Integer literals

A literal is written with decimal digits, or with hexadecimal ones after `0x`, and may have a minus
sign. The reader of numbers gives the number that the digits denote, unless their magnitude does not
fit a signed 64-bit word, and reads no other number than those of literals.
-/
namespace Bindery
open Text

structure Literal where
  isNegative : Bool := false
  isHex : Bool := false
  digits : List Char
  deriving DecidableEq

namespace Literal

/-- The characters of a literal. -/
def chars (l : Literal) : List Char :=
  (if l.isNegative then ['-'] else []) ++ (if l.isHex then ['0', 'x'] else []) ++ l.digits

def text (l : Literal) : String := String.ofList l.chars

def isDigit (l : Literal) : Char → Bool := if l.isHex then isHexDigit else Text.isDigit

def base (l : Literal) : ℕ := if l.isHex then 16 else 10

/-- A literal has digits of its base, and at least one. -/
def IsProper (l : Literal) : Prop := l.digits ≠ [] ∧ ∀ c ∈ l.digits, l.isDigit c = true

instance (l : Literal) : Decidable l.IsProper :=
  decidable_of_iff (l.digits ≠ [] ∧ l.digits.all l.isDigit) (by rw [List.all_eq_true, IsProper])

/-- What the digits denote, of which the last one weighs least. -/
def magnitude (l : Literal) : ℕ := Nat.ofDigits l.base (l.digits.reverse.map digitValue)

/-- The number that a literal denotes. -/
def value (l : Literal) : ℤ := if l.isNegative then -l.magnitude else l.magnitude

theorem natAbs_value (l : Literal) : l.value.natAbs = l.magnitude := by
  unfold value
  split <;> omega

end Literal

/-! ### Digits -/

theorem Text.ofDigits_eq (base : ℕ) (ds : List Char) :
    ofDigits base ds = Nat.ofDigits base (ds.reverse.map digitValue) := by
  induction ds using List.reverseRecOn with
  | nil => rfl
  | append_singleton ds d ih =>
    rw [List.reverse_append, List.reverse_singleton, List.singleton_append, List.map_cons,
      Nat.ofDigits_cons, ← ih, ofDigits, List.foldl_append, ofDigits, List.foldl_cons,
      List.foldl_nil]
    ring

section
variable {base n : ℕ} {isDigit : Char → Bool} {cs : List Char}

/-- Digits are read as a whole, or are too large. -/
theorem magnitude_of_all (h : ∀ c ∈ cs, isDigit c = true) :
    magnitude base isDigit cs =
      if ofDigits base cs < 9223372036854775808 then .ok (ofDigits base cs)
      else .error .outOfRange := by
  unfold magnitude
  rw [List.takeWhile_eq_self_iff.2 h, List.dropWhile_eq_nil_iff.2 h]
  by_cases hn : ofDigits base cs < 9223372036854775808
  · rw [if_pos hn, if_neg (by omega), if_neg (by simp)]
  · rw [if_neg hn, if_pos (by omega)]

/-- Whatever has a magnitude consists of digits. -/
theorem all_of_magnitude (h : magnitude base isDigit cs = .ok n) :
    (∀ c ∈ cs, isDigit c = true) ∧ n = ofDigits base cs := by
  have hall : ∀ c ∈ cs, isDigit c = true := by
    unfold magnitude at h
    dsimp only at h
    split at h
    · cases h
    · split at h
      · cases h
      · exact List.dropWhile_eq_nil_iff.1 (not_not.1 ‹_›)
  rw [magnitude_of_all hall] at h
  split at h
  · cases h
    exact ⟨hall, rfl⟩
  · cases h

end

namespace Literal
variable {l l' : Literal}

/-- Decimal digits are not taken for a hexadecimal literal, which has a mark. -/
theorem unsigned_of_all {cs : List Char} (h : ∀ c ∈ cs, Text.isDigit c = true) :
    unsigned cs = Bindery.magnitude 10 Text.isDigit cs := by
  unfold unsigned
  split
  · exact absurd (h 'x' (by simp)) (by decide)
  · rfl

/-- The characters after the sign. -/
def body (l : Literal) : List Char := (if l.isHex then ['0', 'x'] else []) ++ l.digits

theorem unsigned_body (h : l.IsProper) : unsigned l.body =
    if l.magnitude < 9223372036854775808 then .ok l.magnitude else .error .outOfRange := by
  obtain ⟨isNegative, isHex, digits⟩ := l
  obtain ⟨hne, hall⟩ := h
  unfold body magnitude base
  cases isHex with
  | true =>
    obtain ⟨c, cs, rfl⟩ := List.exists_cons_of_ne_nil hne
    simp only [if_pos, ← ofDigits_eq]
    exact magnitude_of_all hall
  | false =>
    simp only [Bool.false_eq_true, if_false, List.nil_append, ← ofDigits_eq]
    exact (unsigned_of_all hall).trans (magnitude_of_all hall)

theorem head?_body (h : l.IsProper) : l.body.head? ≠ some '-' := by
  obtain ⟨isNegative, isHex, digits⟩ := l
  obtain ⟨hne, hall⟩ := h
  cases isHex with
  | true => simp [body]
  | false =>
    obtain ⟨c, cs, rfl⟩ := List.exists_cons_of_ne_nil hne
    have hc : Text.isDigit c = true := hall c List.mem_cons_self
    rintro ⟨⟩
    exact absurd hc (by decide)

theorem integer_of_head?_ne {cs : List Char} (h : cs.head? ≠ some '-') :
    integer cs = (unsigned cs).map fun n : ℕ => (n : ℤ) := by
  unfold integer
  split
  · exact absurd rfl h
  · cases unsigned cs <;> rfl

theorem chars_eq (l : Literal) :
    l.chars = (if l.isNegative then ['-'] else []) ++ l.body := List.append_assoc _ _ _

/-- The sign is applied to the magnitude after that has been read. -/
theorem integer_chars_eq (h : l.IsProper) : integer l.chars =
    (unsigned l.body).map fun n : ℕ => if l.isNegative then -(n : ℤ) else n := by
  rw [chars_eq]
  cases l.isNegative with
  | true =>
    rw [if_pos rfl, List.singleton_append, integer]
    cases unsigned l.body <;> rfl
  | false => exact integer_of_head?_ne (head?_body h)

/-- A literal is read as the number that it denotes, if the magnitude fits a signed word. -/
theorem integer_chars (h : l.IsProper) : integer l.chars =
    if l.value.natAbs < 9223372036854775808 then .ok l.value else .error .outOfRange := by
  rw [integer_chars_eq h, unsigned_body h, natAbs_value]
  by_cases hmagnitude : l.magnitude < 9223372036854775808
  · rw [if_pos hmagnitude, if_pos hmagnitude]
    rfl
  · rw [if_neg hmagnitude, if_neg hmagnitude]
    rfl

theorem numberValue_text (h : l.IsProper) (p : Position) : numberValue l.text p =
    if l.value.natAbs < 9223372036854775808 then .ok l.value
    else .error ⟨p, .badNumber l.text .outOfRange⟩ := by
  have hinteger : integer l.text.toList =
      if l.value.natAbs < 9223372036854775808 then .ok l.value else .error .outOfRange := by
    rw [text, String.toList_ofList, integer_chars h]
  rw [numberValue, hinteger]
  by_cases hvalue : l.value.natAbs < 9223372036854775808
  · rw [if_pos hvalue, if_pos hvalue]
  · rw [if_neg hvalue, if_neg hvalue]

/-! ### Back from the characters -/

theorem exists_of_unsigned (isNegative : Bool) {cs : List Char} {n : ℕ}
    (h : unsigned cs = .ok n) (hn : n ≠ 0) : ∃ l : Literal, l.IsProper ∧
      l.chars = (if isNegative then ['-'] else []) ++ cs ∧
      l.value = if isNegative then -(n : ℤ) else n := by
  unfold unsigned at h
  split at h
  next c cs =>
    obtain ⟨hall, rfl⟩ := all_of_magnitude h
    refine ⟨⟨isNegative, true, c :: cs⟩, ⟨List.cons_ne_nil _ _, hall⟩, chars_eq _, ?_⟩
    rw [ofDigits_eq]
    rfl
  next =>
    obtain ⟨hall, rfl⟩ := all_of_magnitude h
    refine ⟨⟨isNegative, false, cs⟩, ⟨?_, hall⟩, chars_eq _, ?_⟩
    · rintro rfl
      exact hn rfl
    · rw [ofDigits_eq]
      rfl

/-- A number other than zero is read from a literal only. -/
theorem exists_of_integer {cs : List Char} {v : ℤ} (h : integer cs = .ok v) (hv : v ≠ 0) :
    ∃ l : Literal, l.IsProper ∧ l.chars = cs ∧ l.value = v := by
  unfold integer at h
  split at h
  next cs =>
    obtain ⟨n, hn, ⟨⟩⟩ := Tokens.bind_eq_ok.1 h
    exact exists_of_unsigned true hn (by omega)
  next =>
    obtain ⟨n, hn, ⟨⟩⟩ := Tokens.bind_eq_ok.1 h
    exact exists_of_unsigned false hn (by omega)

theorem exists_of_numberValue {digits : String} {p : Position} {v : ℤ}
    (h : numberValue digits p = .ok v) (hv : v ≠ 0) :
    ∃ l : Literal, l.IsProper ∧ l.text = digits ∧ l.value = v := by
  unfold numberValue at h
  split at h
  · cases h
    obtain ⟨l, hl, hchars, hvalue⟩ := exists_of_integer ‹_› hv
    exact ⟨l, hl, by rw [text, hchars, String.ofList_toList], hvalue⟩
  · cases h

theorem isNegative_eq_of_chars_eq (h : l.IsProper) (h' : l'.IsProper) (heq : l.chars = l'.chars) :
    l.isNegative = l'.isNegative := by
  have hsign : ∀ {l : Literal}, l.IsProper → (l.chars.head? = some '-' ↔ l.isNegative = true) := by
    intro l hl
    rw [chars_eq]
    cases l.isNegative with
    | true => simp
    | false => simpa using head?_body hl
  rw [Bool.eq_iff_iff, ← hsign h, ← hsign h', heq]

theorem isHex_eq_of_body_eq (h : l.IsProper) (h' : l'.IsProper) (heq : l.body = l'.body) :
    l.isHex = l'.isHex := by
  have hmark : ∀ {l : Literal}, l.IsProper → (l.body[1]? = some 'x' ↔ l.isHex = true) := by
    rintro ⟨isNegative, isHex, digits⟩ ⟨-, hall⟩
    cases isHex with
    | true => simp [body]
    | false =>
      refine iff_of_false (fun hx => ?_) Bool.false_ne_true
      have hdigit : Text.isDigit 'x' = true := hall 'x' (List.mem_of_getElem? hx)
      exact absurd hdigit (by decide)
  rw [Bool.eq_iff_iff, ← hmark h, ← hmark h', heq]

/-- Literals are told apart by their texts. -/
theorem eq_of_text_eq (h : l.IsProper) (h' : l'.IsProper) (heq : l.text = l'.text) : l = l' := by
  have hchars : l.chars = l'.chars := String.ofList_injective heq
  have hsign := isNegative_eq_of_chars_eq h h' hchars
  rw [chars_eq, chars_eq, hsign, List.append_cancel_left_eq] at hchars
  have hhex := isHex_eq_of_body_eq h h' hchars
  rw [body, body, hhex, List.append_cancel_left_eq] at hchars
  obtain ⟨isNegative, isHex, digits⟩ := l
  subst hsign hhex hchars
  rfl

end Literal
end Bindery
