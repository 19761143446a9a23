import Bindery.Proofs.Text.Decimal
import Bindery.Proofs.World.Act
import Bindery.Workers

/-!
# The setting for the size of a pool

A setting that is one positive number of a word, and nothing else but blanks and a plus sign before
it, is the size of a pool. Other settings are ignored with a warning, unless they are misread: the
reader stops behind the digits and turns a minus sign within the word, so that a text can pass for a
number that it is not.
-/
namespace Bindery.Workers
open Act Text
variable {s : String} {n : Nat} {w : World}

/-- A setting that asks for `n` threads. -/
def IsSetting (s : String) (n : Nat) : Prop :=
  ∃ f : Front s.toList, f.sign ≠ ['-'] ∧ f.rest = [] ∧ f.magnitude = n ∧ 1 ≤ n ∧ n < wordLimit

/-- The word that the numeral at the front of a text comes to. -/
def word {text : List Char} (f : Front text) : Nat :=
  if f.sign = ['-'] then wordLimit - f.magnitude else f.magnitude

/-- A text that passes for a setting of `n` threads: a positive number of a word with a minus sign,
or with something behind it. -/
def IsMisread (s : String) (n : Nat) : Prop :=
  ∃ f : Front s.toList, (f.sign = ['-'] ∨ f.rest ≠ []) ∧ 1 ≤ f.magnitude ∧
    f.magnitude < wordLimit ∧ n = word f

/-- A numeral is the size of a pool just if it is a positive number of a word. -/
theorem ofSetting?_of_front (f : Front s.toList) : ofSetting? s =
    if 1 ≤ f.magnitude ∧ f.magnitude < wordLimit then some (word f) else none := by
  have hword : word? s = if f.magnitude < wordLimit then
      some (if f.sign = ['-'] then (wordLimit - f.magnitude) % wordLimit else f.magnitude)
      else none := by
    rw [word?, f.numeral?_eq]
    simp [Front.numeral]
  rw [ofSetting?, hword]
  by_cases hlimit : f.magnitude < wordLimit
  · rw [if_pos hlimit]
    by_cases hzero : f.magnitude = 0
    · -- Zero is no size, with a minus sign neither.
      have hno : ¬ (1 ≤ f.magnitude ∧ f.magnitude < wordLimit) := by omega
      rw [if_neg hno, hzero]
      split <;> rfl
    · have hpos : 1 ≤ f.magnitude ∧ f.magnitude < wordLimit := by omega
      have hturned : (wordLimit - f.magnitude) % wordLimit = wordLimit - f.magnitude :=
        Nat.mod_eq_of_lt (by omega)
      have hword : 0 < word f := by
        unfold word
        split <;> omega
      rw [if_pos hpos, hturned, ← word, Option.filter_some, decide_eq_true hword, if_pos rfl]
  · have hno : ¬ (1 ≤ f.magnitude ∧ f.magnitude < wordLimit) := by omega
    rw [if_neg hlimit, if_neg hno]
    rfl

/-- What is read from a text is the setting that it is, or it is misread. -/
theorem ofSetting?_eq_some_iff : ofSetting? s = some n ↔ IsSetting s n ∨ IsMisread s n := by
  constructor
  · intro h
    cases hread : numeral? (s.toList.dropWhile isSpace) with
    | none =>
      rw [ofSetting?, word?, hread] at h
      cases h
    | some m =>
      obtain ⟨f, -⟩ := exists_front hread
      rw [ofSetting?_of_front f] at h
      split at h
      · rename_i hsize
        cases h
        by_cases hwhole : f.sign ≠ ['-'] ∧ f.rest = []
        · have hword : word f = f.magnitude := if_neg hwhole.1
          exact .inl ⟨f, hwhole.1, hwhole.2, hword.symm, hword ▸ hsize⟩
        · exact .inr ⟨f, by tauto, hsize.1, hsize.2, rfl⟩
      · cases h
  · rintro (⟨f, hsign, -, rfl, hsize⟩ | ⟨f, -, hpos, hlimit, rfl⟩)
    · rw [ofSetting?_of_front f, if_pos hsize, word, if_neg hsign]
    · rw [ofSetting?_of_front f, if_pos ⟨hpos, hlimit⟩]

/-- What is noted of a setting that is ignored. -/
def warning (s : String) : Note :=
  ⟨.warn, "ignoring invalid ZIGBIND_WORKER_THREADS value '" ++ s ++ "'"⟩

/-- The world after a setting is ignored. -/
def warned (w : World) (s : String) : World :=
  { w with log := w.log ++ w.logger.record (warning s) }

theorem defaultSize_of_some {hardware : Nat} (h : ofSetting? s = some n) :
    (defaultSize hardware (some s)).runOn w = (.ok n, w) := by
  simp [defaultSize, h]

theorem defaultSize_of_none {hardware : Nat} (h : ofSetting? s = none) :
    (defaultSize hardware (some s)).runOn w = (.ok (max 1 hardware), warned w s) := by
  simp only [defaultSize, h]
  rfl

/-- A text has one numeral at its front, so what is misread is no setting. -/
theorem IsMisread.not_isSetting (h : IsMisread s n) (m : Nat) : ¬ IsSetting s m := by
  rintro ⟨f, hsign, hrest, -⟩
  obtain ⟨g, hodd, -⟩ := h
  have hsame : f.numeral = g.numeral := Option.some.inj (f.numeral?_eq.symm.trans g.numeral?_eq)
  obtain ⟨hsigns, -, hrests⟩ := Numeral.mk.inj hsame
  rcases hodd with hminus | hmore
  · exact hsign (of_decide_eq_true (hsigns.trans (decide_eq_true hminus)))
  · exact hmore (hrests.symm.trans hrest)

/-- A setting is the size by default, and any text that neither is a setting nor is misread as one
is ignored with a warning, for the number of threads of the hardware. What is misread counts as the
number that it passes for. A pool that is started has a thread in any case. -/
theorem size_of_setting (hardware : Nat) (s : String) (w : World) :
    (∀ n, IsSetting s n → (defaultSize hardware (some s)).runOn w = (.ok n, w)) ∧
      ((∀ n, ¬ IsSetting s n) → (∀ n, ¬ IsMisread s n) →
        (defaultSize hardware (some s)).runOn w = (.ok (max 1 hardware), warned w s) ∧
          1 ≤ max 1 hardware) ∧
      (∀ n, IsMisread s n → (∀ m, ¬ IsSetting s m) ∧
        (defaultSize hardware (some s)).runOn w = (.ok n, w)) ∧
      ∀ wanted, ∃ size v, (start wanted).runOn w = (.ok size, v) ∧ 1 ≤ size ∧
        (1 ≤ wanted → size = wanted) := by
  refine ⟨fun n hn => ?_, fun hno hread => ?_, fun n hn => ⟨hn.not_isSetting, ?_⟩, fun wanted => ?_⟩
  · exact defaultSize_of_some (ofSetting?_eq_some_iff.2 (.inl hn))
  · have hnone : ofSetting? s = none := by
      rw [Option.eq_none_iff_forall_ne_some]
      intro n hn
      exact (ofSetting?_eq_some_iff.1 hn).elim (hno n) (hread n)
    exact ⟨defaultSize_of_none hnone, le_max_left _ _⟩
  · exact defaultSize_of_some (ofSetting?_eq_some_iff.2 (.inr hn))
  · exact ⟨max wanted 1, _, rfl, le_max_right _ _, max_eq_left⟩

/-- Blanks, a plus sign and zeros belong to a setting; a number beyond the words is ignored; and a
number is misread if something stands behind it. -/
theorem size_of_setting_signs :
    (defaultSize 8 (some "\t +0012")).runOn {} = (.ok 12, {}) ∧
      (defaultSize 8 (some "-18446744073709551616")).runOn {} =
        (.ok 8, warned {} "-18446744073709551616") ∧
      (defaultSize 8 (some "3 threads")).runOn {} = (.ok 3, {}) ∧
      ∃ size v, (start 0).runOn {} = (.ok size, v) ∧ 1 ≤ size := by
  have hplus : IsSetting "\t +0012" 12 :=
    ⟨⟨['\t', ' '], ['+'], ['0', '0', '1', '2'], [], rfl, List.all_eq_true.1 rfl, .inr (.inl rfl),
      List.all_eq_true.1 rfl, List.cons_ne_nil _ _, rfl⟩, by decide, rfl, rfl, by decide, by decide⟩
  have hbeyond : ofSetting? "-18446744073709551616" = none := by decide
  have hmore : IsMisread "3 threads" 3 :=
    ⟨⟨[], [], ['3'], " threads".toList, rfl, List.all_eq_true.1 rfl, .inl rfl,
      List.all_eq_true.1 rfl, List.cons_ne_nil _ _, rfl⟩, .inr (by decide), by decide, by decide, rfl⟩
  obtain ⟨hset, -, -, hstart⟩ := size_of_setting 8 "\t +0012" {}
  obtain ⟨-, hignore, -⟩ := size_of_setting 8 "-18446744073709551616" {}
  obtain ⟨-, -, hmisread, -⟩ := size_of_setting 8 "3 threads" {}
  have hnone : ∀ {n}, ofSetting? "-18446744073709551616" ≠ some n := by simp [hbeyond]
  have hignored := hignore (fun _ h => hnone (ofSetting?_eq_some_iff.2 (.inl h)))
    fun _ h => hnone (ofSetting?_eq_some_iff.2 (.inr h))
  obtain ⟨size, v, hrun, hsize, -⟩ := hstart 0
  exact ⟨hset 12 hplus, hignored.1, (hmisread 3 hmore).2, size, v, hrun, hsize⟩

/-- A negative number is no setting, but asks for a number of threads near to the greatest word. -/
theorem negative_setting_taken :
    ¬ ∀ (hardware : Nat) (s : String) (w : World), (∀ n, ¬ IsSetting s n) →
      (defaultSize hardware (some s)).runOn w = (.ok (max 1 hardware), warned w s) := by
  intro h
  have hminus : IsMisread "-1" 18446744073709551615 :=
    ⟨⟨[], ['-'], ['1'], [], rfl, List.all_eq_true.1 rfl, .inr (.inr rfl), List.all_eq_true.1 rfl,
      List.cons_ne_nil _ _, rfl⟩, .inl rfl, by decide, by decide, rfl⟩
  have htaken : (defaultSize 8 (some "-1")).runOn {} = (.ok 18446744073709551615, {}) :=
    defaultSize_of_some (ofSetting?_eq_some_iff.2 (.inr hminus))
  have hsize := congrArg Prod.fst (htaken.symm.trans (h 8 "-1" {} hminus.not_isSetting))
  cases hsize

end Bindery.Workers
