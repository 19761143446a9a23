import Bindery.Text.Basic
import Mathlib

/-!
# Tokens of foreign code

Code in Zig is a text of tokens: words, single marks, literals in quotes, comments, and the lines of
literals of several lines, which two backslashes begin. A token never goes on in the next line, so
each line can be read on its own. A mark of several characters counts as several marks.
-/
namespace Bindery.Zig
open Text

inductive Token
  | space (c : Char)
  | word (name : List Char)
  | mark (c : Char)
  /-- A string or a character in quotes, with all that follows its opening quote. -/
  | quoted (quote : Char) (text : List Char)
  | comment (text : List Char)
  /-- A line of a string of several lines. -/
  | line (text : List Char)
  deriving DecidableEq

def Token.spell : Token → List Char
  | space c | mark c => [c]
  | word name => name
  | quoted quote text => quote :: text
  | comment text | line text => text

def spell (ts : List Token) : List Char := ts.flatMap Token.spell

/-- The text of a literal up to its closing quote, and what follows it. A backslash takes its meaning
from the next character, and a literal that is not closed ends with its line. -/
def literal (quote : Char) (isEscaped : Bool) : List Char → List Char × List Char
  | [] => ([], [])
  | c :: cs =>
    if c = '\n' then ([], c :: cs)
    else if c = quote ∧ isEscaped = false then ([c], cs)
    else
      let (text, rest) := literal quote (!isEscaped && c = '\\') cs
      (c :: text, rest)

/-- The token that begins with a character, and what follows it. -/
def lexeme (c : Char) (cs : List Char) : Token × List Char :=
  if c = '"' ∨ c = '\'' then
    let (text, rest) := literal c false cs
    (.quoted c text, rest)
  else if c = '/' ∧ cs.head? = some '/' then
    (.comment (c :: cs.takeWhile (· ≠ '\n')), cs.dropWhile (· ≠ '\n'))
  else if c = '\\' ∧ cs.head? = some '\\' then
    (.line (c :: cs.takeWhile (· ≠ '\n')), cs.dropWhile (· ≠ '\n'))
  else if isNameChar c then (.word (c :: cs.takeWhile isNameChar), cs.dropWhile isNameChar)
  else if isBlank c then (.space c, cs)
  else (.mark c, cs)

variable {quote c : Char} {cs ds rest : List Char}

theorem literal_append (quote : Char) (isEscaped : Bool) (cs : List Char) :
    (literal quote isEscaped cs).1 ++ (literal quote isEscaped cs).2 = cs := by
  fun_induction literal quote isEscaped cs <;> simp_all

theorem lexeme_append (c : Char) (cs : List Char) :
    (lexeme c cs).1.spell ++ (lexeme c cs).2 = c :: cs := by
  simp only [lexeme]
  split
  · simp [Token.spell, literal_append]
  · split_ifs <;> simp [Token.spell]

/-- A token begins with its first character. -/
theorem exists_lexeme (c : Char) (cs : List Char) :
    ∃ text, (lexeme c cs).1.spell = c :: text ∧ cs = text ++ (lexeme c cs).2 := by
  have hhead : ∃ text, (lexeme c cs).1.spell = c :: text := by
    simp only [lexeme]
    split
    · exact ⟨_, rfl⟩
    · split_ifs <;> exact ⟨_, rfl⟩
  obtain ⟨text, htext⟩ := hhead
  have happend := lexeme_append c cs
  rw [htext] at happend
  exact ⟨text, htext, (List.cons.inj happend).2.symm⟩

theorem lexeme_length (c : Char) (cs : List Char) : (lexeme c cs).2.length ≤ cs.length := by
  obtain ⟨text, -, hcs⟩ := exists_lexeme c cs
  have := congrArg List.length hcs
  rw [List.length_append] at this
  omega

def tokens : List Char → List Token
  | [] => []
  | c :: cs => (lexeme c cs).1 :: tokens (lexeme c cs).2
termination_by cs => cs.length
decreasing_by
  have := lexeme_length c cs
  simp only [List.length_cons]
  omega

@[simp] theorem tokens_nil : tokens [] = [] := by rw [tokens]

theorem tokens_cons (c : Char) (cs : List Char) :
    tokens (c :: cs) = (lexeme c cs).1 :: tokens (lexeme c cs).2 := by rw [tokens]

@[simp] theorem spell_nil : spell [] = [] := rfl

@[simp] theorem spell_cons (t : Token) (ts : List Token) : spell (t :: ts) = t.spell ++ spell ts :=
  rfl

@[simp] theorem spell_append (ts us : List Token) : spell (ts ++ us) = spell ts ++ spell us :=
  List.flatMap_append

/-- Nothing of a text is lost in its tokens. -/
theorem spell_tokens (cs : List Char) : spell (tokens cs) = cs := by
  fun_induction tokens cs with
  | case1 => rfl
  | case2 c cs ih => rw [spell_cons, ih, lexeme_append]

/-! ### Lines -/

theorem literal_line (quote : Char) (isEscaped : Bool) (hcs : '\n' ∉ cs) (rest : List Char) :
    literal quote isEscaped (cs ++ '\n' :: rest) =
      ((literal quote isEscaped cs).1, (literal quote isEscaped cs).2 ++ '\n' :: rest) := by
  induction cs generalizing isEscaped with
  | nil => rfl
  | cons c cs ih =>
    obtain ⟨hc, hcs⟩ := not_or.1 (List.mem_cons.not.1 hcs)
    rw [List.cons_append, literal, literal, if_neg (Ne.symm hc), if_neg (Ne.symm hc)]
    split
    · rfl
    · rw [ih _ hcs]

section
variable {p : Char → Bool}

theorem takeWhile_line (hp : p '\n' = false) (cs rest : List Char) :
    (cs ++ '\n' :: rest).takeWhile p = cs.takeWhile p := by
  induction cs <;> simp_all [List.takeWhile_cons]

theorem dropWhile_line (hp : p '\n' = false) (cs rest : List Char) :
    (cs ++ '\n' :: rest).dropWhile p = cs.dropWhile p ++ '\n' :: rest := by
  induction cs with
  | nil => simp [hp]
  | cons c cs ih =>
    rw [List.cons_append, List.dropWhile_cons, List.dropWhile_cons, ih]
    split <;> rfl

end

theorem head?_line (hc : c ≠ '\n') (cs rest : List Char) :
    (cs ++ '\n' :: rest).head? = some c ↔ cs.head? = some c := by
  cases cs with
  | nil => simpa using Ne.symm hc
  | cons => rfl

theorem lexeme_line (c : Char) (hcs : '\n' ∉ cs) (rest : List Char) :
    lexeme c (cs ++ '\n' :: rest) = ((lexeme c cs).1, (lexeme c cs).2 ++ '\n' :: rest) := by
  have hname : isNameChar '\n' = false := rfl
  have hline : (fun d : Char => decide (d ≠ '\n')) '\n' = false := rfl
  simp only [lexeme, literal_line c false hcs, head?_line (by decide : '/' ≠ '\n'),
    head?_line (by decide : '\\' ≠ '\n'), takeWhile_line hname, dropWhile_line hname,
    takeWhile_line (p := fun d => decide (d ≠ '\n')) hline,
    dropWhile_line (p := fun d => decide (d ≠ '\n')) hline]
  split_ifs <;> rfl

theorem notMem_lexeme (hcs : '\n' ∉ cs) : '\n' ∉ (lexeme c cs).2 := by
  obtain ⟨text, -, heq⟩ := exists_lexeme c cs
  rw [heq, List.mem_append, not_or] at hcs
  exact hcs.2

/-- A line feed is a token of its own, whatever stands before it. -/
theorem tokens_line (hcs : '\n' ∉ cs) (rest : List Char) :
    tokens (cs ++ '\n' :: rest) = tokens cs ++ .space '\n' :: tokens rest := by
  fun_induction tokens cs with
  | case1 =>
    rw [List.nil_append, tokens_cons]
    rfl
  | case2 c cs ih =>
    obtain ⟨-, hcs⟩ := not_or.1 (List.mem_cons.not.1 hcs)
    rw [List.cons_append, tokens_cons, lexeme_line c hcs, ih (notMem_lexeme hcs)]
    rfl

/-! ### What a token is -/

/-- What a token holds, and what may follow it. -/
inductive Token.IsLexed : Token → List Char → Prop
  | space {c : Char} {rest : List Char} (hc : isBlank c = true) : IsLexed (.space c) rest
  | word {name rest : List Char} (hne : name ≠ []) (hname : ∀ c ∈ name, isNameChar c = true)
      (hrest : ∀ c ∈ rest.head?, isNameChar c = false) : IsLexed (.word name) rest
  | mark {c : Char} {rest : List Char} : IsLexed (.mark c) rest
  | quoted {quote : Char} {text rest : List Char} (hquote : quote = '"' ∨ quote = '\'')
      (hrest : (∀ c ∈ rest.head?, c = '\n') ∨ text.getLast? = some quote) :
      IsLexed (.quoted quote text) rest
  | comment {text rest : List Char} (htext : text.head? = some '/')
      (hrest : ∀ c ∈ rest.head?, c = '\n') : IsLexed (.comment text) rest
  | line {text rest : List Char} (htext : text.head? = some '\\')
      (hrest : ∀ c ∈ rest.head?, c = '\n') : IsLexed (.line text) rest

theorem head?_dropWhile {p : Char → Bool} (cs : List Char) :
    ∀ c ∈ (cs.dropWhile p).head?, p c = false := by
  intro c hc
  have hnot := List.head?_dropWhile_not p cs
  rw [Option.mem_def.1 hc] at hnot
  simpa using hnot

/-- A literal ends with its closing quote or with its line. -/
theorem literal_end (quote : Char) (isEscaped : Bool) (cs : List Char) :
    (∀ c ∈ (literal quote isEscaped cs).2.head?, c = '\n') ∨
      (literal quote isEscaped cs).1.getLast? = some quote := by
  induction cs generalizing isEscaped with
  | nil => exact .inl (by simp [literal])
  | cons c cs ih =>
    rw [literal]
    split_ifs with hline hquote
    · exact .inl (by simp [hline])
    · exact .inr (by rw [hquote.1]; rfl)
    · refine (ih _).imp id fun hlast => ?_
      rw [List.getLast?_cons, hlast]
      rfl

theorem isLexed_lexeme (c : Char) (cs : List Char) : (lexeme c cs).1.IsLexed (lexeme c cs).2 := by
  have hend : ∀ d ∈ (cs.dropWhile (· ≠ '\n')).head?, d = '\n' := fun d hd => by
    simpa using head?_dropWhile cs d hd
  simp only [lexeme]
  split_ifs with hquote hcomment hline hname hblank
  · exact .quoted hquote (literal_end c false cs)
  · exact .comment (congrArg some hcomment.1) hend
  · exact .line (congrArg some hline.1) hend
  · exact .word (List.cons_ne_nil _ _)
      (List.forall_mem_cons.2 ⟨hname, fun d hd => List.mem_takeWhile_imp hd⟩) (head?_dropWhile cs)
  · exact .space hblank
  · exact .mark

/-- The tokens from one on are those of their own text. -/
theorem tokens_spell {ts us : List Token} (h : tokens cs = ts ++ us) : tokens (spell us) = us := by
  induction ts generalizing cs with
  | nil =>
    rw [List.nil_append] at h
    rw [← h, spell_tokens]
  | cons t ts ih =>
    cases cs with
    | nil => simp at h
    | cons c cs =>
      rw [tokens_cons] at h
      exact ih (List.cons.inj h).2

theorem exists_eq_lexeme {t : Token} {ts us : List Token} (h : tokens cs = ts ++ t :: us) :
    ∃ d ds, t.spell ++ spell us = d :: ds ∧ lexeme d ds = (t, spell us) := by
  have htext := tokens_spell h
  rw [spell_cons] at htext
  cases hspell : t.spell ++ spell us with
  | nil => simp [hspell] at htext
  | cons d ds =>
    rw [hspell, tokens_cons] at htext
    obtain ⟨ht, hus⟩ := List.cons.inj htext
    exact ⟨d, ds, rfl, Prod.ext ht (by rw [← hus, spell_tokens])⟩

theorem isLexed_of_tokens {t : Token} {ts us : List Token} (h : tokens cs = ts ++ t :: us) :
    t.IsLexed (spell us) := by
  obtain ⟨d, ds, -, heq⟩ := exists_eq_lexeme h
  have := isLexed_lexeme d ds
  rwa [heq] at this

/-- A character of a text lies in one of its tokens. -/
theorem exists_token {ts : List Token} {front back : List Char} (h : spell ts = front ++ c :: back) :
    ∃ before t after p q, ts = before ++ t :: after ∧ front = spell before ++ p ∧
      t.spell = p ++ c :: q ∧ back = q ++ spell after := by
  induction ts generalizing front with
  | nil => simp at h
  | cons t ts ih =>
    rw [spell_cons] at h
    rcases List.append_eq_append_iff.1 h with ⟨more, rfl, hmore⟩ | ⟨more, ht, hmore⟩
    · obtain ⟨before, u, after, p, q, rfl, rfl, hu, rfl⟩ := ih hmore
      exact ⟨t :: before, u, after, p, q, rfl, by simp, hu, rfl⟩
    · cases more with
      | nil =>
        obtain ⟨before, u, after, p, q, rfl, hfront, hu, rfl⟩ := @ih [] hmore.symm
        refine ⟨t :: before, u, after, p, q, rfl, ?_, hu, rfl⟩
        rw [List.append_nil] at ht
        rw [spell_cons, List.append_assoc, ← hfront, ht, List.append_nil]
      | cons d more =>
        obtain ⟨rfl, hback⟩ := List.cons.inj hmore
        exact ⟨[], t, ts, front, more, rfl, rfl, ht, hback⟩

end Bindery.Zig
