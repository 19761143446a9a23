import Bindery.Proofs.Syntax.Context

/-!
# The layout of a text

Blanks and comments next to a token change no token of a text, only where the tokens stand: neither
a blank nor the slash of a comment extends a token, and a comment before a token ends where it does
whatever comes later.
-/
namespace Bindery
open Text Tokens

namespace Lexer

/-! ### Gaps between tokens -/

/-- Blanks and complete comments, one after the other. -/
inductive IsGap : List Char → Prop
  | nil : IsGap []
  | blank {c : Char} {gap : List Char} : isBlank c = true → IsGap gap → IsGap (c :: gap)
  | line {body gap : List Char} : '\n' ∉ body → IsGap gap →
    IsGap ('/' :: '/' :: (body ++ '\n' :: gap))
  | block {body gap : List Char} : ¬ ['*', '/'] <:+: body → IsGap gap →
    IsGap ('/' :: '*' :: (body ++ '*' :: '/' :: gap))

section
variable {p q : Position} {cs gap body rest : List Char} {l : Lexeme}

/-- A block comment ends at the first mark that ends one. -/
theorem blockComment_of_not_isInfix (h : ¬ ['*', '/'] <:+: body) :
    blockComment (body ++ '*' :: '/' :: rest) = (body ++ ['*', '/'], rest) := by
  induction body with
  | nil => rfl
  | cons c body ih =>
    have hbody : ¬ ['*', '/'] <:+: body := fun hin => h (List.infix_cons hin)
    have hopen : ∀ tail, c = '*' → body ++ '*' :: '/' :: rest = '/' :: tail → False := by
      rintro tail rfl hslash
      cases body with
      | nil => cases hslash
      | cons d ds =>
        cases hslash
        exact h ⟨[], ds, rfl⟩
    rw [List.cons_append, blockComment, ih hbody]
    · rfl
    · exact hopen

theorem scan_line (h : '\n' ∉ body) :
    scan p ('/' :: '/' :: (body ++ '\n' :: rest)) =
      scan (p.after ('/' :: '/' :: (body ++ ['\n']))) rest := by
  have hall : ∀ c ∈ body, decide (c ≠ '\n') = true := by
    intro c hc
    rw [decide_eq_true_eq]
    rintro rfl
    exact h hc
  have hcomment : comment? ('/' :: (body ++ '\n' :: rest)) = some ('/' :: body, '\n' :: rest) := by
    rw [comment?, takeWhile_append_of_all hall rfl, dropWhile_append_of_all hall rfl]
  rw [scan_comment hcomment, scan_blank (by decide), ← List.cons_append, ← List.cons_append,
    Position.after_append]
  rfl

theorem scan_block (h : ¬ ['*', '/'] <:+: body) :
    scan p ('/' :: '*' :: (body ++ '*' :: '/' :: rest)) =
      scan (p.after ('/' :: '*' :: (body ++ ['*', '/']))) rest := by
  have hcomment : comment? ('*' :: (body ++ '*' :: '/' :: rest)) =
      some ('*' :: (body ++ ['*', '/']), rest) := by
    rw [comment?, blockComment_of_not_isInfix h]
  exact scan_comment hcomment

/-- A gap is passed without a token. -/
theorem scan_gap (h : IsGap gap) : scan p (gap ++ cs) = scan (p.after gap) cs := by
  induction h generalizing p with
  | nil => rfl
  | blank hc _ ih =>
    rw [List.cons_append, scan_blank hc, ih]
    rfl
  | line hbody _ ih =>
    simp only [List.cons_append, List.append_assoc]
    rw [scan_line hbody, ih]
    simp only [Position.after_cons, Position.after_append, Position.after_nil]
  | block hbody _ ih =>
    simp only [List.cons_append, List.append_assoc]
    rw [scan_block hbody, ih]
    simp only [Position.after_cons, Position.after_append, Position.after_nil]

/-- A gap extends no token. -/
theorem IsGap.ends (h : IsGap gap) (hends : l.Ends cs) : l.Ends (gap ++ cs) := by
  cases h with
  | nil => exact hends
  | blank hc =>
    refine ⟨fun _ => ?_, fun _ hcolon => ?_⟩
    · simp [isDelimiter, hc]
    · cases hcolon
      cases hc
  | line | block => exact ⟨fun _ => rfl, fun _ hcolon => by cases hcolon⟩

end

/-! ### The places of tokens -/

/-- A token of a text, with what stands before it, its spelling and what follows it. -/
inductive Occurs (l : Lexeme) : List Char → List Char → List Char → List Char → Prop
  | here {p : Position} {c : Char} {cs spelling rest : List Char} : isBlank c = false → c ≠ '/' →
    lexeme p c cs = .ok (l, spelling, rest) → Occurs l (c :: cs) [] (c :: spelling) rest
  | blank {c : Char} {cs before word rest : List Char} : isBlank c = true →
    Occurs l cs before word rest → Occurs l (c :: cs) (c :: before) word rest
  | comment {cs text before word rest after : List Char} : comment? cs = some (text, after) →
    Occurs l after before word rest → Occurs l ('/' :: cs) ('/' :: (text ++ before)) word rest
  | token {p : Position} {c : Char} {m : Lexeme} {cs spelling before word rest after : List Char} :
    isBlank c = false → c ≠ '/' → lexeme p c cs = .ok (m, spelling, after) →
    Occurs l after before word rest → Occurs l (c :: cs) (c :: (spelling ++ before)) word rest

section
variable {p q : Position} {cs before word rest : List Char} {l : Lexeme}

theorem Occurs.append (h : Occurs l cs before word rest) : cs = before ++ (word ++ rest) := by
  induction h with
  | here _ _ hl => rw [← lexeme_append hl]; rfl
  | blank _ _ ih => rw [ih]; rfl
  | comment hcomment _ ih => rw [← comment?_append hcomment, ih]; simp
  | token _ _ hl _ ih => rw [← lexeme_append hl, ih]; simp

/-- The tokens that are read from a text are those that occur in it, each where it begins. -/
theorem mem_scan_iff {t : Token} : t ∈ (scan p cs).toList ↔
    ∃ before word rest, Occurs t.lexeme cs before word rest ∧ t.pos = p.after before := by
  constructor
  · intro ht
    fun_induction scan p cs with
    | case1 | case4 | case6 => cases ht
    | case2 p c cs hb ih =>
      obtain ⟨before, word, rest, h, hp⟩ := ih ht
      exact ⟨c :: before, word, rest, .blank hb h, hp⟩
    | case3 p cs text rest hcomment hb ih =>
      obtain ⟨before, word, rest, h, hp⟩ := ih ht
      refine ⟨'/' :: (text ++ before), word, rest, .comment hcomment h, ?_⟩
      rw [hp, Position.after_cons, Position.after_append]
    | case5 p c cs hb hc l spelling rest hl ih =>
      have hb' : isBlank c = false := by simpa using hb
      rcases List.mem_cons.1 ht with rfl | ht
      · exact ⟨[], c :: spelling, rest, .here hb' hc hl, rfl⟩
      · obtain ⟨before, word, rest, h, hp⟩ := ih ht
        refine ⟨c :: (spelling ++ before), word, rest, .token hb' hc hl h, ?_⟩
        rw [hp, Position.after_cons, Position.after_append]
  · rintro ⟨before, word, rest, h, hp⟩
    obtain ⟨l, pos⟩ := t
    dsimp only at h hp
    subst hp
    induction h generalizing p with
    | here hb hc hl =>
      rw [scan_lexeme hb hc (lexeme_elsewhere hl p)]
      exact List.mem_cons_self
    | blank hb _ ih =>
      rw [scan_blank hb]
      exact ih
    | comment hcomment _ ih =>
      rw [scan_comment hcomment]
      simp only [Position.after_cons, Position.after_append] at ih ⊢
      exact ih
    | token hb hc hl _ ih =>
      rw [scan_lexeme hb hc (lexeme_elsewhere hl p), Position.after_cons, Position.after_append]
      exact List.mem_cons_of_mem _ ih

end

/-! ### Gaps beside tokens -/

/-- A place right before or right after a token of a text. -/
def IsBeside (cs front back : List Char) : Prop :=
  ∃ l before word rest, Occurs l cs before word rest ∧
    (front = before ∧ back = word ++ rest ∨ front = before ++ word ∧ back = rest)

section
variable {p q : Position} {cs text before word rest more front back gap : List Char} {l : Lexeme}

theorem IsBeside.append (h : IsBeside cs front back) : cs = front ++ back := by
  obtain ⟨l, before, word, rest, h, ⟨rfl, rfl⟩ | ⟨rfl, rfl⟩⟩ := h
  · exact h.append
  · rw [h.append, List.append_assoc]

theorem eq_nil_of_blockComment (h : (blockComment cs).1 = []) : cs = [] := by
  unfold blockComment at h
  split at h
  · cases h
  · cases h
  · rfl

theorem blockComment_of_append (hne : (blockComment cs).2 ≠ []) :
    blockComment ((blockComment cs).1 ++ more) = ((blockComment cs).1, more) := by
  fun_induction blockComment cs with
  | case1 cs => rfl
  | case2 c cs hopen ih =>
    have happend := blockComment_append cs
    have hopen' : ∀ tail, c = '*' → (blockComment cs).1 ++ more = '/' :: tail → False := by
      intro tail hc htail
      cases htext : (blockComment cs).1 with
      | nil =>
        obtain rfl := eq_nil_of_blockComment htext
        exact hne rfl
      | cons d ds =>
        rw [htext] at htail happend
        cases htail
        exact hopen _ hc happend.symm
    rw [List.cons_append, blockComment, ih hne]
    exact hopen'
  | case3 => exact absurd rfl hne

/-- A comment before a token ends where it does whatever follows, but for the line feed. -/
theorem comment?_of_append (h : comment? cs = some (text, rest)) (hne : rest ≠ [])
    (hmore : rest.head? = some '\n' → more.head? = some '\n') :
    comment? (text ++ more) = some (text, more) := by
  unfold comment? at h
  split at h
  · rename_i cs
    cases h
    have hall : ∀ c ∈ cs.takeWhile (· ≠ '\n'), decide (c ≠ '\n') = true := fun c hc =>
      List.all_eq_true.1 List.all_takeWhile c hc
    have hhead : (cs.dropWhile (· ≠ '\n')).head? = some '\n' := by
      have hd := List.head?_dropWhile_not (fun c : Char => decide (c ≠ '\n')) cs
      obtain ⟨d, ds, hds⟩ := List.exists_cons_of_ne_nil hne
      rw [hds] at hd ⊢
      simpa using hd
    obtain ⟨tail, rfl⟩ := List.head?_eq_some_iff.1 (hmore hhead)
    rw [List.cons_append, comment?, takeWhile_append_of_all hall rfl,
      dropWhile_append_of_all hall rfl]
  · cases h
    rw [List.cons_append, comment?, blockComment_of_append hne]
  · cases h

theorem Occurs.ne_nil (h : Occurs l cs before word rest) : cs ≠ [] := by
  rintro rfl
  cases h

theorem Occurs.head?_before {c : Char} (h : Occurs l cs before word rest)
    (hhead : cs.head? = some c) (hc : isBlank c = true) : before.head? = some c := by
  cases h with
  | here hb =>
    cases hhead
    rw [hc] at hb
    cases hb
  | blank => exact hhead
  | comment =>
    cases hhead
    cases hc
  | token hb =>
    cases hhead
    rw [hc] at hb
    cases hb

theorem IsGap.ends_append (h : IsGap gap) (hends : l.Ends (front ++ back)) :
    l.Ends (front ++ (gap ++ back)) := by
  cases front with
  | nil => exact h.ends hends
  | cons c front => exact hends

theorem Occurs.scan_insert (h : Occurs l cs before word rest)
    (hpoint : front = [] ∧ back = word ++ rest ∨ front = word ∧ back = rest)
    (hgap : IsGap gap) (p q : Position) :
    (scan p (before ++ (front ++ (gap ++ back)))).unplaced = (scan q cs).unplaced := by
  have hback : front ++ back = word ++ rest := by
    rcases hpoint with ⟨rfl, rfl⟩ | ⟨rfl, rfl⟩ <;> rfl
  induction h generalizing p q with
  | here hb hc hl =>
    rcases hpoint with ⟨rfl, rfl⟩ | ⟨rfl, rfl⟩
    · rw [List.nil_append, List.nil_append, scan_gap hgap, List.cons_append, lexeme_append hl]
      exact scan_unplaced _ _ _
    · have hl' := lexeme_of_ends hl (hgap.ends (ends_of_lexeme hl)) p
      rw [List.nil_append, List.cons_append, scan_lexeme hb hc hl',
        scan_lexeme hb hc (lexeme_elsewhere hl q), scan_gap hgap, unplaced, unplaced]
      exact congrArg _ (scan_unplaced _ _ _)
  | blank hb _ ih =>
    rw [List.cons_append, scan_blank hb, scan_blank hb]
    exact ih hpoint _ _ hback
  | @comment _ text before _ _ after hcomment hocc ih =>
    have hmore : after.head? = some '\n' →
        (before ++ (front ++ (gap ++ back))).head? = some '\n' := by
      intro hhead
      rw [List.head?_append, hocc.head?_before hhead (by decide)]
      rfl
    rw [List.cons_append, List.append_assoc,
      scan_comment (comment?_of_append hcomment hocc.ne_nil hmore), scan_comment hcomment]
    exact ih hpoint _ _ hback
  | @token r c m _ spelling before _ _ after hb hc hl hocc ih =>
    have hends : m.Ends ((before ++ front) ++ (gap ++ back)) := by
      refine hgap.ends_append ?_
      rw [List.append_assoc, hback, ← hocc.append]
      exact ends_of_lexeme hl
    have hl' := lexeme_of_ends hl hends p
    rw [List.append_assoc] at hl'
    rw [List.cons_append, List.append_assoc, scan_lexeme hb hc hl',
      scan_lexeme hb hc (lexeme_elsewhere hl q), unplaced, unplaced]
    exact congrArg _ (ih hpoint _ _ hback)

/-- Gaps right before and right after a token do not change the tokens of a text. -/
theorem scan_insert (h : IsBeside cs front back) (hgap : IsGap gap) (p q : Position) :
    (scan p (front ++ (gap ++ back))).unplaced = (scan q cs).unplaced := by
  obtain ⟨l, before, word, rest, h, ⟨rfl, rfl⟩ | ⟨rfl, rfl⟩⟩ := h
  · exact h.scan_insert (.inl ⟨rfl, rfl⟩) hgap p q
  · rw [List.append_assoc]
    exact h.scan_insert (.inr ⟨rfl, rfl⟩) hgap p q

end

end Lexer
end Bindery
