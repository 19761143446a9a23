import Bindery.Annotation.Basic
import Bindery.Proofs.Path.Names

/-!
# Lines and columns

The line and the column of a place in a text, both counted from one, tell how many lines end
before it and how many bytes of its own line stand before it. As long as a text is short enough for
32-bit numbers, the words of a position are just these.
-/
namespace Bindery

/-- The line and the column of the place after a piece of text. -/
def Text.place (before : List Char) : Nat × Nat :=
  (before.count '\n' + 1, (before.reverse.takeWhile (· ≠ '\n')).length + 1)

namespace Position
variable {p : Position} {cs : List Char}

theorem line_after : (p.after cs).line = p.line + cs.count '\n' := by
  induction cs generalizing p with
  | nil => simp
  | cons c cs ih =>
    rw [after_cons, ih, List.count_cons, step]
    split
    · simp_all
      omega
    · simp_all

theorem column_after : (start.after cs).column = (Text.place cs).2 := by
  induction cs using List.reverseRecOn with
  | nil => rfl
  | append_singleton cs c ih =>
    rw [after_append, after_cons, after_nil, step, Text.place, List.reverse_append]
    rw [Text.place] at ih
    split
    · simp_all
    · simp_all

theorem start_after : start.after cs = ⟨(Text.place cs).1, (Text.place cs).2⟩ := by
  have hline : (start.after cs).line = (Text.place cs).1 := by
    rw [line_after]
    exact Int.add_comm _ _
  rw [← column_after, ← hline]

/-- After a line feed a new line begins. -/
theorem after_line : p.after (cs ++ ['\n']) = ⟨p.line + cs.count '\n' + 1, 1⟩ := by
  rw [after_append, after_cons, after_nil, step, if_pos rfl, line_after]

theorem words_after (h : cs.length < 2147483648) : (start.after cs).words = Text.place cs := by
  have hline := List.count_le_length (l := cs) (a := '\n')
  have hcolumn := (List.takeWhile_sublist (· ≠ '\n') (l := cs.reverse)).length_le
  rw [List.length_reverse] at hcolumn
  rw [start_after, words, Text.place, Prod.mk.injEq]
  dsimp only
  omega

end Position

namespace Fragment
open Text

theorem unlines_cons {line : List Char} {lines : List (List Char)} (h : lines ≠ []) :
    unlines (line :: lines) = line ++ '\n' :: unlines lines := by
  cases lines with
  | nil => exact absurd rfl h
  | cons => rfl

theorem unlines_splitOn (cs : List Char) : unlines (splitOn '\n' cs) = cs := by
  induction cs with
  | nil => rfl
  | cons c cs ih =>
    rw [splitOn]
    split
    · rename_i hc
      rw [unlines_cons (splitOn_ne_nil _ _), ih, hc]
      rfl
    · split
      · exact absurd ‹_› (splitOn_ne_nil _ _)
      · rename_i line lines hlines
        rw [hlines] at ih
        rw [← ih]
        cases lines <;> rfl

theorem unlines_append {front : List (List Char)} {lines : List (List Char)} (h : lines ≠ []) :
    unlines (front ++ lines) = front.flatMap (· ++ ['\n']) ++ unlines lines := by
  induction front with
  | nil => rfl
  | cons line front ih =>
    rw [List.cons_append, unlines_cons (List.append_ne_nil_of_right_ne_nil _ h), ih,
      List.flatMap_cons, List.append_assoc, List.append_assoc]
    rfl

theorem count_flatMap_line {lines : List (List Char)} (h : ∀ line ∈ lines, '\n' ∉ line) :
    (lines.flatMap (· ++ ['\n'])).count '\n' = lines.length := by
  induction lines with
  | nil => rfl
  | cons line lines ih =>
    rw [List.flatMap_cons, List.count_append, List.count_append,
      List.count_eq_zero.2 (h line List.mem_cons_self),
      ih fun l hl => h l (List.mem_cons_of_mem _ hl), List.length_cons, List.count_singleton_self]
    omega

/-- A fragment with declarations is made of what is above them, which ends a line for each of the
lines counted, and of the declarations. -/
theorem split_eq_some {body code decls : List Char} {n : Nat}
    (h : split body = (code, some (decls, n))) (hne : decls ≠ []) :
    ∃ above, body = above ++ ['\n'] ++ decls ∧ above.count '\n' + 1 = n := by
  have hsplit := List.takeWhile_append_dropWhile (p := (!isRule ·)) (l := splitOn '\n' body)
  simp only [split] at h
  split at h
  · cases h
  · rename_i rule lines hbelow
    obtain ⟨_, hdecls, hn⟩ : _ = code ∧ unlines lines = decls ∧ _ = n := by simpa using h
    have hlines : lines ≠ [] := by
      rintro rfl
      exact hne hdecls.symm
    have habove : ∀ line ∈ (splitOn '\n' body).takeWhile (!isRule ·) ++ [rule], '\n' ∉ line := by
      intro line hline
      suffices line ∈ splitOn '\n' body from not_mem_of_mem_splitOn this
      rw [← hsplit, hbelow]
      rcases List.mem_append.1 hline with hline | hline
      · exact List.mem_append_left _ hline
      · exact List.mem_append_right _ (List.mem_singleton.1 hline ▸ List.mem_cons_self)
    refine ⟨((splitOn '\n' body).takeWhile (!isRule ·)).flatMap (· ++ ['\n']) ++ rule, ?_, ?_⟩
    · conv_lhs => rw [← unlines_splitOn body, ← hsplit, hbelow]
      rw [unlines_append (List.cons_ne_nil _ _), unlines_cons hlines, hdecls]
      simp only [List.append_assoc, List.singleton_append]
    · rw [List.count_append, List.count_eq_zero.2 (habove rule (by simp)),
        count_flatMap_line fun line hline => habove line (List.mem_append_left _ hline)]
      exact hn

end Fragment
end Bindery
