import Bindery.Lowering.Transform
import Bindery.Proofs.Syntax.Spelling
import Mathlib.Data.List.Basic
import Mathlib.Data.List.TakeWhile

/-!
# Texts of return transforms

A text is a return transform if it is written as one, with blanks around its parts as one likes, and
just what is written between the blanks is read.
-/
namespace Bindery

/-! ### Trimming -/

namespace Text
variable {cs l m r : List Char}

/-- No blank comes first or last. -/
structure IsTrimmed (cs : List Char) : Prop where
  first : cs.head?.any isBlank = false
  last : cs.getLast?.any isBlank = false

/-- Some characters and the same with blanks around them. -/
def Pads (m cs : List Char) : Prop :=
  ∃ l r, (∀ c ∈ l, isBlank c = true) ∧ (∀ c ∈ r, isBlank c = true) ∧ cs = l ++ m ++ r

theorem any_head?_dropWhile (cs : List Char) : (cs.dropWhile isBlank).head?.any isBlank = false := by
  have hhead := List.head?_dropWhile_not isBlank cs
  cases h : (cs.dropWhile isBlank).head? with
  | none => rfl
  | some c =>
    rw [h] at hhead
    simpa using hhead

/-- A trimmed text and the blanks after it are what is left behind the first blanks. -/
theorem dropWhile_eq_trim_append (cs : List Char) :
    cs.dropWhile isBlank = trim cs ++ ((cs.dropWhile isBlank).reverse.takeWhile isBlank).reverse := by
  rw [trim, ← List.reverse_append, List.takeWhile_append_dropWhile, List.reverse_reverse]

theorem pads_trim (cs : List Char) : Pads (trim cs) cs := by
  refine ⟨cs.takeWhile isBlank, ((cs.dropWhile isBlank).reverse.takeWhile isBlank).reverse,
    fun c => List.mem_takeWhile_imp, fun c hc => ?_, ?_⟩
  · exact List.mem_takeWhile_imp (List.mem_reverse.1 hc)
  · rw [List.append_assoc, ← dropWhile_eq_trim_append, List.takeWhile_append_dropWhile]

theorem isTrimmed_trim (cs : List Char) : IsTrimmed (trim cs) := by
  constructor
  · have hhead := any_head?_dropWhile cs
    rw [dropWhile_eq_trim_append] at hhead
    cases htrim : trim cs with
    | nil => rfl
    | cons c rest => rwa [htrim] at hhead
  · rw [trim, List.getLast?_reverse]
    exact any_head?_dropWhile _

/-- Trimming takes away the blanks around a text, and no more. -/
theorem trim_of_pads (hm : IsTrimmed m) (h : Pads m cs) : trim cs = m := by
  obtain ⟨l, r, hl, hr, rfl⟩ := h
  cases m with
  | nil =>
    have hdrop : (l ++ [] ++ r).dropWhile isBlank = [] := by
      rw [List.append_nil, List.dropWhile_eq_nil_iff]
      exact List.forall_mem_append.2 ⟨hl, hr⟩
    rw [trim, hdrop]
    rfl
  | cons c m =>
    have hdrop : (l ++ (c :: m ++ r)).dropWhile isBlank = c :: m ++ r :=
      dropWhile_append_of_all hl hm.first
    have hlast : (c :: m).reverse.head?.any isBlank = false := by
      rw [List.head?_reverse]
      exact hm.last
    rw [trim, List.append_assoc, hdrop, List.reverse_append,
      dropWhile_append_of_all (fun d hd => hr d (List.mem_reverse.1 hd)) hlast,
      List.reverse_reverse]

/-- A text that ends as a trimmed one does. -/
theorem getLast?_append_of_isTrimmed (hm : IsTrimmed m) (hne : m ≠ []) (l : List Char) :
    (l ++ m).getLast?.any isBlank = false := by
  rw [List.getLast?_append_of_ne_nil l hne]
  exact hm.last

theorem isBlank_of_mem_identifier {s : String} (h : isIdentifier s = true) :
    ∀ c ∈ s.toList, isBlank c = false := by
  intro c hc
  have hdelimiter := Lexer.isDelimiter_of_isNameChar (Lexeme.isNameChar_of_mem h hc)
  simp only [Lexer.isDelimiter, Bool.or_eq_false_iff] at hdelimiter
  exact hdelimiter.1.1.1.1.1.1

theorem isTrimmed_of_isIdentifier {s : String} (h : isIdentifier s = true) : IsTrimmed s.toList := by
  have hblank := isBlank_of_mem_identifier h
  constructor
  · exact (Option.any_eq_false _ _).2 fun c hc => hblank c (List.mem_of_head? hc)
  · exact (Option.any_eq_false _ _).2 fun c hc => hblank c (List.mem_of_getLast? hc)

end Text

namespace Transform
open Text
variable {text : String} {t : Transform}

/-- How a transform is written: a bar, a name, a bar and an expression, which is not empty and may
hold bars, each with blanks around it. -/
structure IsWritten (t : Transform) (text : String) : Prop where
  param : isIdentifier t.param = true
  nonempty : t.expr ≠ ""
  trimmed : IsTrimmed t.expr.toList
  parts : ∃ front body, Pads ('|' :: (front ++ '|' :: body)) text.toList ∧
    Pads t.param.toList front ∧ Pads t.expr.toList body

theorem ne_bar_of_pads {param : String} {front : List Char} (h : isIdentifier param = true)
    (hfront : Pads param.toList front) : ∀ c ∈ front, decide (c ≠ '|') = true := by
  have hbar : ∀ {c : Char}, isBlank c = true ∨ isNameChar c = true → c ≠ '|' := by
    rintro c hc rfl
    revert hc
    decide
  obtain ⟨l, r, hl, hr, rfl⟩ := hfront
  intro c hc
  refine decide_eq_true (hbar ?_)
  rcases List.mem_append.1 hc with hc | hc
  · rcases List.mem_append.1 hc with hc | hc
    · exact .inl (hl c hc)
    · exact .inr (Lexeme.isNameChar_of_mem h hc)
  · exact .inl (hr c hc)

theorem ofChars?_of_isWritten (h : t.IsWritten text) : ofChars? text.toList = some t := by
  obtain ⟨hparam, hnonempty, htrimmed, front, body, ⟨l, r, hl, hr, htext⟩, hfront, hbody⟩ := h
  obtain ⟨bl, br, hbl, hbr, rfl⟩ := hbody
  have hexpr : t.expr.toList ≠ [] := fun h => hnonempty (String.toList_eq_nil_iff.1 h)
  have htrim : trim text.toList = '|' :: (front ++ '|' :: (bl ++ t.expr.toList)) := by
    refine trim_of_pads ⟨rfl, ?_⟩ ⟨l, br ++ r, hl, List.forall_mem_append.2 ⟨hbr, hr⟩, ?_⟩
    · have hlast := getLast?_append_of_isTrimmed htrimmed hexpr ('|' :: (front ++ '|' :: bl))
      simpa only [List.cons_append, List.append_assoc] using hlast
    · rw [htext]
      simp only [List.cons_append, List.append_assoc]
  have hbar := ne_bar_of_pads hparam hfront
  have htake : (front ++ '|' :: (bl ++ t.expr.toList)).takeWhile (· ≠ '|') = front :=
    takeWhile_append_of_all hbar rfl
  have hdrop : (front ++ '|' :: (bl ++ t.expr.toList)).dropWhile (· ≠ '|') =
      '|' :: (bl ++ t.expr.toList) :=
    dropWhile_append_of_all hbar rfl
  have hname : trim front = t.param.toList := trim_of_pads (isTrimmed_of_isIdentifier hparam) hfront
  have hbody : trim (bl ++ t.expr.toList) = t.expr.toList :=
    trim_of_pads htrimmed ⟨bl, [], hbl, List.forall_mem_nil _, (List.append_nil _).symm⟩
  simp only [ofChars?, htrim, hdrop, htake, hname, hbody, String.ofList_toList]
  rw [if_pos ⟨hparam, hexpr⟩]

theorem isWritten_of_ofChars? (h : ofChars? text.toList = some t) : t.IsWritten text := by
  unfold ofChars? at h
  split at h
  · rename_i rest htrim
    split at h
    · rename_i body hdrop
      dsimp only at h
      split at h
      · rename_i hparts
        cases h
        obtain ⟨hparam, hexpr⟩ := hparts
        have hrest : rest = rest.takeWhile (· ≠ '|') ++ '|' :: body := by
          rw [← hdrop, List.takeWhile_append_dropWhile]
        have htext := pads_trim text.toList
        rw [htrim, hrest] at htext
        refine ⟨hparam, fun h => hexpr ?_, ?_, _, body, htext, ?_, ?_⟩
        · simpa using congrArg String.toList h
        · rw [String.toList_ofList]
          exact isTrimmed_trim body
        · rw [String.toList_ofList]
          exact pads_trim _
        · rw [String.toList_ofList]
          exact pads_trim body
      · cases h
    · cases h
  · cases h

/-- A text is read as a transform just if it is written as one. -/
theorem parse_eq_ok : parse text = .ok t ↔ t.IsWritten text := by
  have hparse : parse text = .ok t ↔ ofChars? text.toList = some t := by
    unfold parse
    split
    · rename_i u hu
      rw [hu, Except.ok.injEq, Option.some.injEq]
    · rename_i hnone
      rw [hnone]
      exact ⟨nofun, nofun⟩
  rw [hparse]
  exact ⟨isWritten_of_ofChars?, ofChars?_of_isWritten⟩

example : parse " | x |x | 1\n" = .ok ⟨"x", "x | 1"⟩ := by decide

end Transform
end Bindery
