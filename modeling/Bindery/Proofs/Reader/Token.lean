import Bindery.Proofs.Syntax.Spelling
import Bindery.Reader.Scan

/-!
# A scan ends with the first token

Where a null byte lies ahead, each loop of the scanner ends before it or at it, and the scanner
moves as far as the first token reaches and no further. So it stays within the text, takes at least
one byte for each token but the end of the text, and never moves from a null byte.
-/
namespace Bindery
open Text Lexer

/-- The place before some bytes, which a null byte and others follow. -/
def Cursor.before (more : List Char) (p : Position) (cs : List Char) : Cursor :=
  ⟨p, cs ++ '\x00' :: more⟩

@[simp] theorem Cursor.before_pos (more : List Char) (p : Position) (cs : List Char) :
    (before more p cs).pos = p := rfl

theorem Cursor.upTo_before (more : List Char) (p q : Position) (piece rest : List Char) :
    (before more p (piece ++ rest)).upTo (before more q rest) = piece := by
  simp [upTo, before]

namespace Scan
variable {α : Type} {more cs rest : List Char} {p : Position} {c : Char}

/-- The outcome of a scan that comes to its end. -/
def outcome : Except Fault α → ExceptT Stop Option α
  | .ok a => pure a
  | .error fault => throw (.fault fault)

/-! ### Steps -/

@[simp] theorem cur_cons : cur.run (.before more p (c :: cs)) = pure (c, .before more p (c :: cs)) :=
  rfl

@[simp] theorem cur_nil : cur.run (.before more p []) = pure ('\x00', .before more p []) := rfl

@[simp] theorem following_cons : following.run (.before more p (c :: cs)) =
    pure (cs.head?.getD '\x00', .before more p (c :: cs)) := by
  cases cs <;> rfl

theorem next_cons (hc : c ≠ '\x00') : next.run (.before more p (c :: cs)) =
    pure ((), .before more (p.step c) cs) := by
  unfold next
  rw [StateT.run_bind, StateT.run_get, pure_bind]
  dsimp only [Cursor.before, List.cons_append]
  split
  · cases ‹c :: _ = []›
  · cases ‹c :: _ = '\x00' :: _›
    exact absurd rfl hc
  · cases ‹c :: _ = _ :: _›
    rfl

@[simp] theorem fail_run (cause : LexicalCause) : (fail cause : Scan α).run (.before more p cs) =
    throw (.fault ⟨p, .lexical cause⟩) := rfl

/-! ### Loops -/

section
variable (h : '\x00' ∉ c :: cs)
include h

theorem ne_null : c ≠ '\x00' := fun hc => h (hc ▸ List.mem_cons_self)

theorem not_mem_tail : '\x00' ∉ cs := fun hcs => h (List.mem_cons_of_mem c hcs)

end

theorem skipWhile_run (f : Char → Bool) (hf : f '\x00' = false) (h : '\x00' ∉ cs) :
    (skipWhile f).run (.before more p cs) =
      pure ((), .before more (p.after (cs.takeWhile f)) (cs.dropWhile f)) := by
  induction cs generalizing p with
  | nil =>
    rw [skipWhile]
    simp [hf]
  | cons c cs ih =>
    rw [skipWhile]
    by_cases hc : f c = true
    · simp [hc, next_cons (ne_null h), ih (not_mem_tail h)]
    · simp [hc]

theorem atCommentEnd_run : atCommentEnd.run (.before more p (c :: cs)) =
    pure (decide (c = '*' ∧ cs.head? = some '/'), .before more p (c :: cs)) := by
  unfold atCommentEnd
  by_cases hc : c = '*'
  · cases cs <;> simp [hc]
  · simp [hc]

theorem skipComment_run (h : '\x00' ∉ cs) : skipComment.run (.before more p cs) =
    pure ((), .before more (p.after (blockComment cs).1) (blockComment cs).2) := by
  fun_induction blockComment cs generalizing p with
  | case1 cs =>
    rw [skipComment]
    simp [atCommentEnd_run, next_cons (c := '*'), next_cons (c := '/')]
  | case2 c cs hc ih =>
    have hend : ¬ (c = '*' ∧ cs.head? = some '/') := by
      rintro ⟨rfl, hhead⟩
      obtain ⟨cs, rfl⟩ := List.head?_eq_some_iff.1 hhead
      exact hc cs rfl rfl
    rw [skipComment]
    simp [atCommentEnd_run, hend, ne_null h, next_cons (ne_null h), ih (not_mem_tail h)]
  | case3 =>
    rw [skipComment]
    simp

/-- The bytes of a word or a number, if they are not those of a fault. -/
def delimited (more : List Char) (p : Position) (cs : List Char) :
    Option Fault → ExceptT Stop Option (Unit × Cursor)
  | some fault => throw (.fault fault)
  | none => pure ((), .before more (p.after (cs.takeWhile (!isDelimiter ·)))
      (cs.dropWhile (!isDelimiter ·)))

theorem delimited_cons (hd : isDelimiter c = false) (fault : Option Fault) :
    delimited more p (c :: cs) fault = delimited more (p.step c) cs fault := by
  cases fault <;> simp [delimited, hd]

theorem isDelimiter_null : isDelimiter '\x00' = true := by decide

theorem digits_run {hex : Bool} (h : '\x00' ∉ cs) : (digits hex).run (.before more p cs) =
    delimited more p cs (digitsFault p hex (cs.takeWhile (!isDelimiter ·))) := by
  induction cs generalizing p hex with
  | nil =>
    rw [digits]
    simp [isDelimiter_null, delimited, digitsFault]
  | cons c cs ih =>
    rw [digits]
    cases hd : isDelimiter c with
    | true => simp [hd, delimited, digitsFault]
    | false =>
      rw [delimited_cons hd, List.takeWhile_cons_of_pos (by simp [hd]), digitsFault]
      have hnext : next.run (.before more p (c :: cs)) = _ := next_cons (ne_null h)
      have hmore : ∀ hex, (digits hex).run (.before more (p.step c) cs) = _ :=
        fun hex => ih (not_mem_tail h)
      split_ifs <;> simp_all [delimited]

theorem nameChars_run (h : '\x00' ∉ cs) : nameChars.run (.before more p cs) =
    delimited more p cs (nameFault p (cs.takeWhile (!isDelimiter ·))) := by
  induction cs generalizing p with
  | nil =>
    rw [nameChars]
    simp [isDelimiter_null, delimited, nameFault]
  | cons c cs ih =>
    rw [nameChars]
    cases hd : isDelimiter c with
    | true => simp [hd, delimited, nameFault]
    | false =>
      rw [delimited_cons hd, List.takeWhile_cons_of_pos (by simp [hd]), nameFault]
      have hnext : next.run (.before more p (c :: cs)) = _ := next_cons (ne_null h)
      have hmore := ih (p := p.step c) (not_mem_tail h)
      split_ifs <;> simp_all [delimited]

/-! ### Tokens -/

/-- A lexeme and the place behind its spelling. -/
def lexed (more : List Char) (p : Position) (r : Lexeme × List Char × List Char) :
    Lexeme × Cursor :=
  (r.1, .before more (p.after r.2.1) r.2.2)

/-- The spelling of a word or a number is what the scanner has passed of it. -/
theorem upTo_delimited (q : Position) : (Cursor.before more p (c :: cs)).upTo
    (.before more q (cs.dropWhile (!isDelimiter ·))) = c :: cs.takeWhile (!isDelimiter ·) := by
  have hupTo := Cursor.upTo_before more p q (c :: cs.takeWhile (!isDelimiter ·))
    (cs.dropWhile (!isDelimiter ·))
  rwa [List.cons_append, List.takeWhile_append_dropWhile] at hupTo

theorem digits_digit (h : '\x00' ∉ c :: cs) (hc : isDigit c = true) :
    (digits false).run (.before more p (c :: cs)) = (digits false).run (.before more (p.step c) cs) := by
  have hx : c ≠ 'x' := by
    rintro rfl
    cases hc
  conv_lhs => rw [digits]
  simp [isDelimiter_of_isDigit hc, hx, hc, next_cons (ne_null h)]

theorem number_run (h : '\x00' ∉ c :: cs) (hc : isDigit c = true ∨ c = '-') :
    number.run (.before more p (c :: cs)) =
      outcome ((Lexer.number p c cs).map (lexed more (p.step c))) := by
  have hdigits : (digits false).run (.before more (p.step c) cs) = _ :=
    digits_run (not_mem_tail h)
  have hsteps : number.run (.before more p (c :: cs)) =
      ((digits false).run (.before more (p.step c) cs) >>= fun r =>
        pure (.number (String.ofList ((Cursor.before more p (c :: cs)).upTo r.2)), r.2)) := by
    unfold number
    rcases hc with hc | rfl
    · have hsign : c ≠ '-' := by
        rintro rfl
        cases hc
      simp [hsign, digits_digit h hc]
    · simp [next_cons]
  rw [hsteps, hdigits, Lexer.number]
  cases digitsFault (p.step c) false (cs.takeWhile (!isDelimiter ·)) with
  | none => simp [delimited, outcome, Except.map, lexed, upTo_delimited]
  | some fault => simp [delimited, outcome, Except.map]

theorem word_run (h : '\x00' ∉ c :: cs) (hc : isLetter c = true) :
    word.run (.before more p (c :: cs)) =
      outcome ((Lexer.word p c cs).map (lexed more (p.step c))) := by
  have hname : isNameChar c = true := by simp [isNameChar, hc]
  have hchars : nameChars.run (.before more p (c :: cs)) =
      nameChars.run (.before more (p.step c) cs) := by
    conv_lhs => rw [nameChars]
    simp [isDelimiter_of_isNameChar hname, hname, next_cons (ne_null h)]
  have hmore : nameChars.run (.before more (p.step c) cs) = _ := nameChars_run (not_mem_tail h)
  rw [word, StateT.run_bind, StateT.run_get, pure_bind, StateT.run_bind, hchars, hmore, Lexer.word]
  cases nameFault (p.step c) (cs.takeWhile (!isDelimiter ·)) with
  | none => simp [delimited, outcome, Except.map, lexed, upTo_delimited]
  | some fault => simp [delimited, outcome, Except.map]

theorem skipEscape_of_ne (hq : ∀ ds, c = '\\' → cs = '"' :: ds → False)
    (hb : ∀ ds, c = '\\' → cs = '\\' :: ds → False) :
    skipEscape.run (.before more p (c :: cs)) = pure ((), .before more p (c :: cs)) := by
  unfold skipEscape
  by_cases hc : c = '\\'
  · cases cs with
    | nil => simp [hc]
    | cons d ds =>
      have hd : d ≠ '"' := fun hd => hq ds hc (hd ▸ rfl)
      have hd' : d ≠ '\\' := fun hd => hb ds hc (hd ▸ rfl)
      simp [hc, hd, hd']
  · simp [hc]

theorem quotedChars_escape {d : Char} (hd : d = '"' ∨ d = '\\') (value : List Char) :
    (quotedChars value).run (.before more p ('\\' :: d :: cs)) =
      (quotedChars (value ++ [d])).run (.before more ((p.step '\\').step d) cs) := by
  conv_lhs => rw [quotedChars]
  rcases hd with rfl | rfl <;> simp [skipEscape, next_cons]

theorem quotedChars_char (h : '\x00' ∉ c :: cs) (hc : c ≠ '"') (hn : c ≠ '\n')
    (hq : ∀ ds, c = '\\' → cs = '"' :: ds → False)
    (hb : ∀ ds, c = '\\' → cs = '\\' :: ds → False) (value : List Char) :
    (quotedChars value).run (.before more p (c :: cs)) =
      (quotedChars (value ++ [c])).run (.before more (p.step c) cs) := by
  conv_lhs => rw [quotedChars]
  simp [hc, hn, ne_null h, skipEscape_of_ne hq hb, next_cons (ne_null h)]

theorem quotedRest_run (value : List Char) (h : '\x00' ∉ cs) :
    (quotedRest value).run (.before more p cs) = outcome ((Lexer.quoted p cs).map fun r =>
      (value ++ r.1, .before more (p.after r.2.1) r.2.2)) := by
  unfold quotedRest
  fun_induction Lexer.quoted p cs generalizing value with
  | case1 p =>
    rw [quotedChars]
    simp [outcome, Except.map]
  | case2 p cs =>
    rw [quotedChars]
    simp [outcome, Except.map, next_cons]
  | case3 p cs ih =>
    have hmore := ih (value ++ ['"']) fun hcs => h (by simp [hcs])
    rw [StateT.run_bind] at hmore ⊢
    rw [quotedChars_escape (.inl rfl), hmore]
    cases quoted ((p.step '\\').step '"') cs <;> simp [outcome, Except.map, bind, Except.bind]
  | case4 p cs ih =>
    have hmore := ih (value ++ ['\\']) fun hcs => h (by simp [hcs])
    rw [StateT.run_bind] at hmore ⊢
    rw [quotedChars_escape (.inr rfl), hmore]
    cases quoted ((p.step '\\').step '\\') cs <;> simp [outcome, Except.map, bind, Except.bind]
  | case5 p cs =>
    rw [quotedChars]
    simp [outcome, Except.map]
  | case6 p c cs hc hq hb hn ih =>
    have hmore := ih (value ++ [c]) (not_mem_tail h)
    rw [StateT.run_bind] at hmore ⊢
    rw [quotedChars_char h hc hn hq hb, hmore]
    cases quoted (p.step c) cs <;> simp [outcome, Except.map, bind, Except.bind]

theorem lexeme_colon (cs : List Char) : Lexer.lexeme p ':' cs =
    if cs.head? = some ':' then .ok (.punct .doubleColon, [':'], cs.tail)
    else .ok (.punct .colon, [], cs) := by
  cases cs with
  | nil => rfl
  | cons d ds =>
    by_cases hd : d = ':'
    · simp [Lexer.lexeme, Punct.ofChar?, hd]
    · simp [Lexer.lexeme, Punct.ofChar?, hd]

theorem lexeme_minus (cs : List Char) : Lexer.lexeme p '-' cs =
    if cs.head? = some '>' then .ok (.punct .arrow, ['>'], cs.tail)
    else if cs.head?.any isDigit then Lexer.number p '-' cs
    else .error ⟨p, .lexical (.loneMark '-')⟩ := by
  cases cs with
  | nil => rfl
  | cons d ds =>
    by_cases hd : d = '>'
    · simp [Lexer.lexeme, Punct.ofChar?, hd]
    · simp [Lexer.lexeme, Punct.ofChar?, hd]

theorem lexeme_other (hmark : Punct.ofChar? c = none) (hcolon : c ≠ ':') (hminus : c ≠ '-')
    (hquote : c ≠ '"') : Lexer.lexeme p c cs =
      if isDigit c then Lexer.number p c cs
      else if isLetter c then Lexer.word p c cs
      else .error ⟨p, .lexical (.unknownChar c)⟩ := by
  simp [Lexer.lexeme, hmark, hcolon, hminus]

theorem lexeme_run (h : '\x00' ∉ c :: cs) : (lexeme c).run (.before more p (c :: cs)) =
    outcome ((Lexer.lexeme p c cs).map (lexed more (p.step c))) := by
  have hnext : next.run (.before more p (c :: cs)) = _ := next_cons (ne_null h)
  unfold Scan.lexeme
  split
  · rename_i mark hmark
    simp [Lexer.lexeme, hmark, hnext, outcome, Except.map, lexed]
  · rename_i hmark
    split
    · subst c
      rw [lexeme_colon]
      cases cs with
      | nil => simp [hnext, outcome, Except.map, lexed]
      | cons d ds =>
        by_cases hd : d = ':' <;> simp [hnext, next_cons, hd, outcome, Except.map, lexed]
    · split
      · subst c
        rw [lexeme_minus]
        have hnumber : number.run (.before more p ('-' :: cs)) = _ := number_run h (.inr rfl)
        cases cs with
        | nil => simp [outcome, Except.map, isDigit]
        | cons d ds =>
          by_cases hd : d = '>'
          · simp [next_cons, hd, outcome, Except.map, lexed]
          · by_cases hdigit : isDigit d = true
            · simp [hd, hdigit, hnumber]
            · simp [hd, hdigit, outcome, Except.map]
      · split
        · subst c
          rw [show Lexer.lexeme p '"' cs = quotedText (p.step '"') cs from rfl, quotedText]
          have hquoted : (quotedRest []).run (.before more (p.step '"') cs) = _ :=
            quotedRest_run [] (not_mem_tail h)
          cases hq : quoted (p.step '"') cs <;>
            simp [hnext, hquoted, hq, outcome, Except.map, lexed]
        · rename_i hcolon hminus hquote
          rw [lexeme_other hmark hcolon hminus hquote]
          split
          · rename_i hdigit
            rw [number_run h (.inl hdigit)]
          · rename_i hdigit
            split
            · rename_i hletter
              rw [word_run h hletter]
            · rfl

theorem isBlank_null : isBlank '\x00' = false := by decide

theorem token_blank (h : '\x00' ∉ c :: cs) (hb : isBlank c = true) :
    token.run (.before more p (c :: cs)) = token.run (.before more (p.step c) cs) := by
  rw [token, StateT.run_bind, StateT.run_bind, skipWhile_run isBlank isBlank_null h,
    skipWhile_run isBlank isBlank_null (not_mem_tail h)]
  simp [hb]

/-- The end of a line comment, which a null byte would end as well. -/
theorem skipLine_run (h : '\x00' ∉ cs) :
    (skipWhile inLine).run (.before more p cs) =
      pure ((), .before more (p.after (cs.takeWhile (· ≠ '\n'))) (cs.dropWhile (· ≠ '\n'))) := by
  have hsame : cs.takeWhile inLine = cs.takeWhile (· ≠ '\n') ∧
      cs.dropWhile inLine = cs.dropWhile (· ≠ '\n') := by
    induction cs with
    | nil => exact ⟨rfl, rfl⟩
    | cons c cs ih =>
      obtain ⟨htake, hdrop⟩ := ih (not_mem_tail h)
      by_cases hc : c = '\n'
      · simp [hc, inLine]
      · simp [hc, inLine, ne_null h, htake, hdrop]
  rw [skipWhile_run _ (by decide) h, hsame.1, hsame.2]

theorem token_comment {text : List Char} (h : '\x00' ∉ '/' :: cs)
    (hc : comment? cs = some (text, rest)) :
    token.run (.before more p ('/' :: cs)) =
      token.run (.before more ((p.step '/').after text) rest) := by
  have hcs := not_mem_tail h
  conv_lhs => rw [token]
  rw [StateT.run_bind, skipWhile_run isBlank isBlank_null h]
  unfold comment? at hc
  split at hc
  · cases hc
    simp [next_cons, skipLine_run hcs, isBlank]
  · cases hc
    simp [next_cons, skipComment_run (not_mem_tail hcs), isBlank]
  · cases hc

theorem token_loneMark (hc : comment? cs = none) (h : '\x00' ∉ '/' :: cs) :
    token.run (.before more p ('/' :: cs)) =
      throw (.fault ⟨p.step '/', .lexical (.loneMark '/')⟩) := by
  rw [token, StateT.run_bind, skipWhile_run isBlank isBlank_null h]
  unfold comment? at hc
  split at hc
  · cases hc
  · cases hc
  · cases cs <;> simp_all [next_cons, isBlank]

theorem token_lexeme (h : '\x00' ∉ c :: cs) (hb : isBlank c = false) (hc : c ≠ '/') :
    token.run (.before more p (c :: cs)) =
      outcome ((Lexer.lexeme p c cs).map fun r =>
        (⟨r.1, p⟩, .before more ((p.step c).after r.2.1) r.2.2)) := by
  rw [token, StateT.run_bind, skipWhile_run isBlank isBlank_null h]
  simp [hb, hc, ne_null h, lexeme_run h]
  cases Lexer.lexeme p c cs <;> simp [outcome, Except.map, lexed]

/-- The next token is that of the text between the cursor and the next null byte. The cursor passes
what belongs to it, which is nothing only at the end of the text. -/
theorem token_run (h : '\x00' ∉ cs) :
    (∃ fault, scan p cs = .broken fault ∧
      token.run (.before more p cs) = throw (.fault fault)) ∨
    ∃ t piece rest, piece ++ rest = cs ∧ (t.lexeme = .eof ∨ piece ≠ []) ∧
      (scan p cs).head = .ok t ∧ (scan p cs).tail = scan (p.after piece) rest ∧
      token.run (.before more p cs) = pure (t, .before more (p.after piece) rest) := by
  fun_induction scan p cs with
  | case1 p =>
    refine .inr ⟨⟨.eof, p⟩, [], [], rfl, .inl rfl, rfl, by rw [Position.after_nil, scan]; rfl, ?_⟩
    rw [token, StateT.run_bind, skipWhile_run isBlank isBlank_null h]
    simp
  | case2 p c cs hb ih =>
    rw [token_blank h hb]
    rcases ih (not_mem_tail h) with hfault | ⟨t, piece, rest, rfl, hpiece, hhead, htail, hrun⟩
    · exact .inl hfault
    · exact .inr ⟨t, c :: piece, rest, rfl, .inr (List.cons_ne_nil _ _), hhead, htail, hrun⟩
  | case3 p cs text rest hc _ ih =>
    rw [token_comment h hc]
    obtain rfl := comment?_append hc
    rcases ih (fun hrest => h (by simp [hrest])) with
      hfault | ⟨t, piece, more', rfl, hpiece, hhead, htail, hrun⟩
    · exact .inl hfault
    · refine .inr ⟨t, '/' :: (text ++ piece), more', by simp, .inr (List.cons_ne_nil _ _), hhead, ?_⟩
      rw [Position.after_cons, Position.after_append]
      exact ⟨htail, hrun⟩
  | case4 p cs hc _ =>
    exact .inl ⟨_, rfl, token_loneMark hc h⟩
  | case5 p c cs hb hslash l spelling rest hl _ =>
    refine .inr ⟨⟨l, p⟩, c :: spelling, rest, congrArg (c :: ·) (lexeme_append hl),
      .inr (List.cons_ne_nil _ _), rfl, rfl, ?_⟩
    rw [token_lexeme h (by simpa using hb) hslash, hl]
    rfl
  | case6 p c cs hb hslash fault hl =>
    refine .inl ⟨fault, rfl, ?_⟩
    rw [token_lexeme h (by simpa using hb) hslash, hl]
    rfl

end Scan
end Bindery
