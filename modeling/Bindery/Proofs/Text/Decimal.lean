import Mathlib.Data.List.TakeWhile
import Bindery.Text.Numeral

/-!
# Decimal numerals

The decimal spelling of a number consists of digits, and these digits denote the number again. A
text can begin with a numeral in one way only: blanks, a sign that may be missing, and digits as far
as they go. Reading finds just this numeral, and what stands behind it.
-/
namespace Bindery.Text

theorem isDigit_eq (c : Char) : isDigit c = c.isDigit := by
  simp only [isDigit, Char.isDigit, Char.le_def, ge_iff_le]

theorem digitValue_of_isDigit {c : Char} (h : isDigit c = true) :
    digitValue c = c.toNat - '0'.toNat := by
  simp only [digitValue, h, if_true]

theorem toList_toString (n : Nat) : (toString n).toList = Nat.toDigits 10 n := by
  rw [Nat.toString_eq_ofList_toDigits, String.toList_ofList]

theorem isDigit_of_mem_toString {n : Nat} {c : Char} (h : c ∈ (toString n).toList) :
    isDigit c = true := by
  rw [toList_toString] at h
  rw [isDigit_eq]
  exact Nat.isDigit_of_mem_toDigits (by decide) (by decide) h

theorem toString_ne_nil (n : Nat) : (toString n).toList ≠ [] := by
  rw [toList_toString]
  exact Nat.toDigits_ne_nil

theorem ofDigits_eq_ofDigitChars {ds : List Char} (h : ∀ c ∈ ds, isDigit c = true) (n : Nat) :
    ds.foldl (fun n d => n * 10 + digitValue d) n = Nat.ofDigitChars 10 ds n := by
  induction ds generalizing n with
  | nil => rfl
  | cons d ds ih =>
    have hd := digitValue_of_isDigit (h d List.mem_cons_self)
    have hds := ih (fun c hc => h c (List.mem_cons_of_mem _ hc))
    simp only [List.foldl_cons, hd, hds, Nat.ofDigitChars_cons, Nat.mul_comm 10 n]

/-- Reading a decimal spelling gives the number back. -/
theorem ofDigits_toString (n : Nat) : ofDigits 10 (toString n).toList = n := by
  rw [ofDigits, ofDigits_eq_ofDigitChars fun _ => isDigit_of_mem_toString, toList_toString,
    Nat.ofDigitChars_ten_toDigits]

theorem toString_inj {m n : Nat} (h : (toString m).toList = (toString n).toList) : m = n := by
  rw [← ofDigits_toString m, h, ofDigits_toString]

theorem toList_toString_ofNat (n : Nat) : (toString (Int.ofNat n)).toList = (toString n).toList := rfl

theorem toList_toString_negSucc (n : Nat) :
    (toString (Int.negSucc n)).toList = '-' :: (toString (n + 1)).toList := by
  change ("-" ++ toString (n + 1)).toList = _
  rw [String.toList_append]
  rfl

theorem mem_toString_int {n : Int} {c : Char} (h : c ∈ (toString n).toList) :
    c = '-' ∨ isDigit c = true := by
  cases n with
  | ofNat n => exact .inr (isDigit_of_mem_toString h)
  | negSucc n =>
    rw [toList_toString_negSucc] at h
    rcases List.mem_cons.1 h with rfl | h
    · exact .inl rfl
    · exact .inr (isDigit_of_mem_toString h)

theorem toString_int_ne_nil (n : Int) : (toString n).toList ≠ [] := by
  cases n with
  | ofNat n => exact toString_ne_nil n
  | negSucc n =>
    rw [toList_toString_negSucc]
    exact List.cons_ne_nil _ _

section
variable {α : Type} {p : α → Bool} {xs ys : List α}

theorem takeWhile_append_of_all (hxs : ∀ x ∈ xs, p x = true) (hys : ys.head?.any p = false) :
    (xs ++ ys).takeWhile p = xs := by
  rw [List.takeWhile_append_of_pos hxs]
  cases ys with
  | nil => simp
  | cons y ys => simp_all

theorem dropWhile_append_of_all (hxs : ∀ x ∈ xs, p x = true) (hys : ys.head?.any p = false) :
    (xs ++ ys).dropWhile p = ys := by
  rw [List.dropWhile_append_of_pos hxs]
  cases ys with
  | nil => simp
  | cons y ys => simp_all

end

/-! ### Numerals at the front of a text -/

theorem isSpace_of_isDigit {c : Char} (h : isDigit c = true) : isSpace c = false := by
  have hle : '0' ≤ c := by
    simp only [isDigit, Bool.and_eq_true, decide_eq_true_eq] at h
    exact h.1
  have hne : ∀ d : Char, ¬ '0' ≤ d → c ≠ d := by
    rintro d hd rfl
    exact hd hle
  simp [isSpace, isBlank, hne ' ' (by decide), hne '\n' (by decide), hne '\t' (by decide),
    hne '\r' (by decide), hne '\x0b' (by decide), hne '\x0c' (by decide)]

/-- A numeral that begins with a digit has no sign. -/
theorem numeral?_of_isDigit {d : Char} (h : isDigit d = true) (cs : List Char) :
    numeral? (d :: cs) = Numeral.ofDigits? false (d :: cs) := by
  unfold numeral?
  split
  · rename_i heq
    cases heq
    cases h
  · rename_i heq
    cases heq
    cases h
  · rfl

theorem ofDigits?_append {ds rest : List Char} (isNegative : Bool) (hds : ∀ c ∈ ds, isDigit c = true)
    (hne : ds ≠ []) (hrest : rest.head?.any isDigit = false) :
    Numeral.ofDigits? isNegative (ds ++ rest) = some ⟨isNegative, ofDigits 10 ds, rest⟩ := by
  rw [Numeral.ofDigits?, takeWhile_append_of_all hds hrest, dropWhile_append_of_all hds hrest,
    if_neg hne]

/-- The parts of a text that begins with a numeral. -/
structure Front (text : List Char) where
  blanks : List Char
  sign : List Char
  digits : List Char
  rest : List Char
  eq_append : text = blanks ++ (sign ++ (digits ++ rest))
  isSpace : ∀ c ∈ blanks, isSpace c = true
  isSign : sign = [] ∨ sign = ['+'] ∨ sign = ['-']
  isDigit : ∀ c ∈ digits, isDigit c = true
  ne_nil : digits ≠ []
  isLongest : rest.head?.any Text.isDigit = false

namespace Front
variable {text : List Char} (f : Front text)

def magnitude : Nat := ofDigits 10 f.digits

/-- What is read of the numeral. -/
def numeral : Numeral := ⟨f.sign = ['-'], f.magnitude, f.rest⟩

theorem dropWhile_isSpace : text.dropWhile Text.isSpace = f.sign ++ (f.digits ++ f.rest) := by
  obtain ⟨d, ds, hdigits⟩ := List.exists_cons_of_ne_nil f.ne_nil
  have hd : Text.isSpace d = false :=
    isSpace_of_isDigit (f.isDigit d (by rw [hdigits]; exact List.mem_cons_self))
  have hfront : (f.sign ++ (f.digits ++ f.rest)).head?.any Text.isSpace = false := by
    rcases f.isSign with h | h | h
    · rw [h, hdigits]
      exact hd
    · rw [h]
      rfl
    · rw [h]
      rfl
  exact (congrArg _ f.eq_append).trans (dropWhile_append_of_all f.isSpace hfront)

/-- The numeral at the front of a text is read. -/
theorem numeral?_eq : numeral? (text.dropWhile Text.isSpace) = some f.numeral := by
  have hread := fun isNegative => ofDigits?_append isNegative f.isDigit f.ne_nil f.isLongest
  rw [f.dropWhile_isSpace, numeral]
  rcases f.isSign with h | h | h
  · obtain ⟨d, ds, hdigits⟩ := List.exists_cons_of_ne_nil f.ne_nil
    have hd := f.isDigit d (by rw [hdigits]; exact List.mem_cons_self)
    rw [h, List.nil_append, hdigits, List.cons_append, numeral?_of_isDigit hd, ← List.cons_append,
      ← hdigits, hread]
    rfl
  · rw [h]
    exact hread false
  · rw [h]
    exact hread true

end Front

/-- The digits behind a sign, or behind the blanks if there is none, belong to the front. -/
theorem exists_front_of_sign {text sign ds : List Char} {n : Numeral}
    (hsign : sign = [] ∨ sign = ['+'] ∨ sign = ['-'])
    (htext : text.dropWhile isSpace = sign ++ ds)
    (hread : Numeral.ofDigits? (sign = ['-']) ds = some n) : ∃ f : Front text, f.numeral = n := by
  by_cases hne : ds.takeWhile isDigit = []
  · simp [Numeral.ofDigits?, hne] at hread
  rw [Numeral.ofDigits?, if_neg hne] at hread
  cases hread
  refine ⟨⟨text.takeWhile isSpace, sign, ds.takeWhile isDigit, ds.dropWhile isDigit, ?_,
    fun c hc => List.mem_takeWhile_imp hc, hsign, fun c hc => List.mem_takeWhile_imp hc, hne, ?_⟩,
    rfl⟩
  · rw [List.takeWhile_append_dropWhile, ← htext, List.takeWhile_append_dropWhile]
  · have hlast := List.head?_dropWhile_not isDigit ds
    cases hhead : (ds.dropWhile isDigit).head? with
    | none => rfl
    | some c =>
      rw [hhead] at hlast
      simpa using hlast

/-- What is read from a text is a numeral at its front. -/
theorem exists_front {text : List Char} {n : Numeral}
    (h : numeral? (text.dropWhile isSpace) = some n) : ∃ f : Front text, f.numeral = n := by
  unfold numeral? at h
  split at h
  · rename_i ds htext
    exact exists_front_of_sign (.inr (.inr rfl)) htext h
  · rename_i ds htext
    exact exists_front_of_sign (.inr (.inl rfl)) htext h
  · exact exists_front_of_sign (.inl rfl) rfl h

end Bindery.Text
