import Bindery.Proofs.Syntax.Stream
import Bindery.Proofs.Text.Decimal
import Bindery.Staging.BuildScript
import Bindery.Syntax.Lexer

/-!
# Tokens and their spelling

Each token except the end of the text has a spelling, from which the lexer reads it back whenever
what follows cannot extend it. Words are extended by all but delimiters, a colon by a colon, and
other tokens by nothing.
-/
namespace Bindery
open Text

namespace Lexeme

/-- An identifier that is neither a keyword nor the name of a scalar type. -/
def IsIdent (name : String) : Prop := isIdentifier name = true ∧ ofWord name = ident name

instance (name : String) : Decidable (IsIdent name) := inferInstanceAs (Decidable (_ ∧ _))

/-- The tokens that have a spelling. Numbers are decimal, and a quoted text is on one line. -/
def IsPrintable : Lexeme → Prop
  | ident name => IsIdent name
  | number digits => ∃ n : Int, digits = toString n
  | quoted value => '\n' ∉ value.toList ∧ '\x00' ∉ value.toList
  | eof => False
  | _ => True

def spelling : Lexeme → String
  | ident name => name
  | number digits => digits
  | quoted value => BuildScript.quote value
  | scalar s => s.name
  | keyword k => k.spelling
  | punct p => p.spelling
  | eof => ""

def isWord : Lexeme → Bool
  | ident _ | number _ | scalar _ | keyword _ => true
  | _ => false

/-- Whether a text that follows a token leaves it as it is. -/
def Ends (l : Lexeme) (rest : List Char) : Prop :=
  (l.isWord = true → rest.head?.all Lexer.isDelimiter = true) ∧
    (l = punct .colon → rest.head? ≠ some ':')

/-- The marks that a blank follows, and those that one precedes. -/
def spacedMarks : List Punct × List Punct :=
  ([.comma, .semicolon, .colon, .assign, .arrow, .curlyOpen, .curlyClose],
    [.assign, .arrow, .curlyOpen])

/-- Whether a blank stands between two tokens; two words need one. -/
def isApart : Lexeme → Lexeme → Bool
  | punct m, punct m' => m ∈ spacedMarks.1 || m' ∈ spacedMarks.2
  | punct m, _ => m ∈ spacedMarks.1 || m = .squareClose
  | _, punct m' => m' ∈ spacedMarks.2
  | l, l' => l.isWord && l'.isWord

/-- The text of some tokens. -/
def text : List Lexeme → String
  | [] => ""
  | [l] => l.spelling
  | l :: m :: ls => l.spelling ++ (if isApart l m then " " else "") ++ text (m :: ls)

theorem isNameChar_of_mem {s : String} (h : isIdentifier s = true) {c : Char} (hc : c ∈ s.toList) :
    isNameChar c = true := by
  unfold isIdentifier at h
  split at h
  · cases h
  · rename_i d ds hds
    rw [Bool.and_eq_true, List.all_eq_true] at h
    rw [hds] at hc
    rcases List.mem_cons.1 hc with rfl | hc
    · simp [isNameChar, h.1]
    · exact h.2 c hc

theorem ofWord_spelling (k : Keyword) : ofWord k.spelling = keyword k := by
  cases k <;> decide

theorem ofWord_name (s : Scalar) : ofWord s.name = scalar s := by
  rw [ofWord, Scalar.ofName?_name]

theorem isIdentifier_spelling (k : Keyword) : isIdentifier k.spelling = true := by
  cases k <;> decide

theorem isIdentifier_name (s : Scalar) : isIdentifier s.name = true := by
  cases s with
  | int kind => cases kind <;> decide
  | _ => decide

theorem text_cons_of_not_isApart {l m : Lexeme} {ls : List Lexeme} (h : isApart l m = false) :
    text (l :: m :: ls) = l.spelling ++ text (m :: ls) := by
  rw [text, h, if_neg Bool.false_ne_true, String.append_empty]

/-- Two texts join without a blank when their tokens meet without one. -/
theorem text_append {ls : List Lexeme} {m : Lexeme} {ms : List Lexeme}
    (h : ∀ l ∈ ls.getLast?, isApart l m = false) :
    text (ls ++ m :: ms) = text ls ++ text (m :: ms) := by
  induction ls with
  | nil => exact String.empty_append.symm
  | cons l ls ih =>
    cases ls with
    | nil => exact text_cons_of_not_isApart (h l rfl)
    | cons k ls =>
      have hlast : ∀ j ∈ (k :: ls).getLast?, isApart j m = false := by
        intro j hj
        exact h j (by rwa [List.getLast?_cons_cons])
      have htail := ih hlast
      rw [List.cons_append] at htail
      rw [List.cons_append, List.cons_append, text, htail, text]
      simp only [String.append_assoc]

theorem ends_nil (l : Lexeme) : l.Ends [] := ⟨fun _ => rfl, fun _ => nofun⟩

theorem isApart_of_isWord {l m : Lexeme} (hl : l.isWord = true) (hm : m.isWord = true) :
    isApart l m = true := by
  unfold isApart
  split
  all_goals simp_all [isWord]

theorem isApart_colon (m : Lexeme) : isApart (punct .colon) m = true := by
  cases m <;> simp [isApart, spacedMarks]

theorem toList_text (l m : Lexeme) (ls : List Lexeme) : (text (l :: m :: ls)).toList =
    l.spelling.toList ++ ((if isApart l m then [' '] else []) ++ (text (m :: ls)).toList) := by
  rw [text, String.toList_append, String.toList_append, List.append_assoc]
  by_cases h : isApart l m = true
  · rw [if_pos h, if_pos h]
    rfl
  · rw [if_neg h, if_neg h]
    rfl

/-- A text begins as its first token does. -/
theorem head?_text {m : Lexeme} {ls : List Lexeme} (h : m.spelling.toList ≠ []) :
    (text (m :: ls)).toList.head? = m.spelling.toList.head? := by
  cases ls with
  | nil => rfl
  | cons l ls =>
    obtain ⟨c, cs, hc⟩ := List.exists_cons_of_ne_nil h
    rw [toList_text, hc]
    rfl

/-- A token that is no word begins with a delimiter. -/
theorem head?_spelling {m : Lexeme} (hm : m.IsPrintable) (hw : m.isWord = false) :
    ∃ c, m.spelling.toList.head? = some c ∧ Lexer.isDelimiter c = true := by
  cases m with
  | punct p => cases p <;> exact ⟨_, rfl, by decide⟩
  | quoted value => exact ⟨'"', by simp [spelling, BuildScript.quote], by decide⟩
  | eof => exact hm.elim
  | _ => cases hw

/-- In a text, what follows a token leaves it as it is. -/
theorem ends_text {m : Lexeme} {ls : List Lexeme} (l : Lexeme) (hm : m.IsPrintable) :
    l.Ends ((if isApart l m then [' '] else []) ++ (text (m :: ls)).toList) := by
  by_cases ha : isApart l m = true
  · rw [if_pos ha]
    exact ⟨fun _ => rfl, fun _ h => absurd (Option.some.inj h) (by decide)⟩
  · rw [if_neg ha, List.nil_append]
    constructor
    · intro hl
      have hw : m.isWord = false := by
        rw [Bool.eq_false_iff]
        exact fun hw => ha (isApart_of_isWord hl hw)
      obtain ⟨c, hc, hd⟩ := head?_spelling hm hw
      have hne : m.spelling.toList ≠ [] := by
        intro hn
        rw [hn] at hc
        cases hc
      rw [head?_text hne, hc]
      exact hd
    · rintro rfl
      exact absurd (isApart_colon m) ha

end Lexeme

namespace Lexer
variable {p : Position} {c : Char} {cs rest : List Char} {l : Lexeme}

theorem mem_marks {c : Char} (h : (Punct.ofChar? c).isSome = true) :
    c ∈ ['(', ')', ',', ';', '=', '<', '>', '[', ']', '\x7b', '\x7d', '+', '.'] := by
  unfold Punct.ofChar? at h
  split at h
  case h_14 => cases h
  all_goals simp

/-- A delimiter is one of finitely many characters, none of which a name can hold. -/
theorem isDelimiter_of_isNameChar (h : isNameChar c = true) : isDelimiter c = false := by
  rw [Bool.eq_false_iff]
  intro hd
  have hmem : c ∈ [' ', '\n', '\t', '\r', ':', '/', '-', '"', '\x00'] ++
      ['(', ')', ',', ';', '=', '<', '>', '[', ']', '\x7b', '\x7d', '+', '.'] := by
    simp only [isDelimiter, isBlank, Bool.or_eq_true, decide_eq_true_eq] at hd
    rw [List.mem_append]
    by_cases hm : (Punct.ofChar? c).isSome = true
    · exact .inr (mem_marks hm)
    · refine .inl ?_
      simpa only [List.mem_cons, List.not_mem_nil, or_false, or_assoc, hm, Bool.false_eq_true,
        false_or] using hd
  have hno : ([' ', '\n', '\t', '\r', ':', '/', '-', '"', '\x00'] ++
      ['(', ')', ',', ';', '=', '<', '>', '[', ']', '\x7b', '\x7d', '+', '.']).all
      (fun d => !isNameChar d) = true := by decide
  have hc := List.all_eq_true.1 hno c hmem
  rw [h] at hc
  cases hc

theorem isNameChar_of_isDigit (h : isDigit c = true) : isNameChar c = true := by
  simp [isNameChar, h]

theorem isDigit_of_isLetter (h : isLetter c = true) : isDigit c = false := by
  simp only [isLetter, Bool.or_eq_true, Bool.and_eq_true, decide_eq_true_eq, Char.le_def,
    UInt32.le_iff_toNat_le] at h
  simp only [isDigit, Bool.and_eq_false_iff, decide_eq_false_iff_not, Char.le_def,
    UInt32.le_iff_toNat_le]
  rcases h with (⟨h1, h2⟩ | ⟨h1, h2⟩) | rfl
  · right
    have h9 : '9'.val.toNat = 57 := rfl
    have ha : 'a'.val.toNat = 97 := rfl
    omega
  · right
    have h9 : '9'.val.toNat = 57 := rfl
    have hA : 'A'.val.toNat = 65 := rfl
    omega
  · right
    decide

theorem isDelimiter_of_isDigit (h : isDigit c = true) : isDelimiter c = false :=
  isDelimiter_of_isNameChar (isNameChar_of_isDigit h)

/-- What a character that is no delimiter cannot be. -/
theorem ne_of_isDelimiter (h : isDelimiter c = false) :
    isBlank c = false ∧ Punct.ofChar? c = none ∧ c ≠ ':' ∧ c ≠ '/' ∧ c ≠ '-' ∧ c ≠ '"' ∧
      c ≠ '\x00' := by
  simp only [isDelimiter, Bool.or_eq_false_iff, decide_eq_false_iff_not,
    Option.isSome_eq_false_iff, Option.isNone_iff_eq_none] at h
  obtain ⟨⟨⟨⟨⟨⟨hb, hm⟩, h1⟩, h2⟩, h3⟩, h4⟩, h5⟩ := h
  exact ⟨hb, hm, h1, h2, h3, h4, h5⟩

theorem scan_blank (h : isBlank c = true) : scan p (c :: cs) = scan (p.step c) cs := by
  rw [scan, if_pos h]

/-- A token that begins with `c` comes first, and the rest of the text after it. -/
theorem scan_lexeme {spelling : List Char} (hb : isBlank c = false) (hc : c ≠ '/')
    (h : lexeme p c cs = .ok (l, spelling, rest)) :
    scan p (c :: cs) = .next ⟨l, p⟩ (scan ((p.step c).after spelling) rest) := by
  rw [scan, if_neg (by simp [hb]), if_neg hc]
  split
  · rename_i l' spelling' rest' h'
    rw [h] at h'
    cases h'
    rfl
  · rename_i fault h'
    rw [h] at h'
    cases h'

theorem digitsFault_eq_none (h : ∀ d ∈ cs, isDigit d = true) : digitsFault p false cs = none := by
  induction cs generalizing p with
  | nil => rfl
  | cons d ds ih =>
    have hd : isDigit d = true := h d List.mem_cons_self
    have hx : d ≠ 'x' := by
      intro hx
      rw [hx] at hd
      exact absurd hd (by decide)
    rw [digitsFault, if_neg hx, if_neg (by simp), if_pos hd]
    exact ih fun e he => h e (List.mem_cons_of_mem _ he)

theorem nameFault_eq_none (h : ∀ d ∈ cs, isNameChar d = true) : nameFault p cs = none := by
  induction cs generalizing p with
  | nil => rfl
  | cons d ds ih =>
    rw [nameFault, if_pos (h d List.mem_cons_self)]
    exact ih fun e he => h e (List.mem_cons_of_mem _ he)

section
variable (h : ∀ d ∈ cs, isNameChar d = true) (hr : rest.head?.all isDelimiter = true)
include h hr

theorem takeWhile_word : (cs ++ rest).takeWhile (!isDelimiter ·) = cs := by
  apply takeWhile_append_of_all
  · intro d hd
    rw [isDelimiter_of_isNameChar (h d hd)]
    rfl
  · cases rest with
    | nil => rfl
    | cons d ds => simpa using hr

theorem dropWhile_word : (cs ++ rest).dropWhile (!isDelimiter ·) = rest := by
  apply dropWhile_append_of_all
  · intro d hd
    rw [isDelimiter_of_isNameChar (h d hd)]
    rfl
  · cases rest with
    | nil => rfl
    | cons d ds => simpa using hr

end

theorem scan_word (hc : isLetter c = true) (h : ∀ d ∈ cs, isNameChar d = true)
    (hr : rest.head?.all isDelimiter = true) :
    scan p (c :: cs ++ rest) =
      .next ⟨.ofWord (String.ofList (c :: cs)), p⟩ (scan (p.after (c :: cs)) rest) := by
  have hname : isNameChar c = true := by simp [isNameChar, hc]
  obtain ⟨hb, hm, h1, h2, h3, h4, -⟩ := ne_of_isDelimiter (isDelimiter_of_isNameChar hname)
  have hd : isDigit c = false := isDigit_of_isLetter hc
  have hl : lexeme p c (cs ++ rest) = .ok (.ofWord (String.ofList (c :: cs)), cs, rest) := by
    have hw : word p c (cs ++ rest) = .ok (.ofWord (String.ofList (c :: cs)), cs, rest) := by
      rw [word, takeWhile_word h hr, dropWhile_word h hr, nameFault_eq_none h]
    unfold lexeme
    split
    all_goals simp_all
  exact scan_lexeme hb h2 hl

/-- A number of digits only, or of digits after a minus sign. -/
theorem scan_number (hc : isDigit c = true ∨ c = '-' ∧ cs ≠ [])
    (h : ∀ d ∈ cs, isDigit d = true) (hr : rest.head?.all isDelimiter = true) :
    scan p (c :: cs ++ rest) =
      .next ⟨.number (String.ofList (c :: cs)), p⟩ (scan (p.after (c :: cs)) rest) := by
  have hname : ∀ d ∈ cs, isNameChar d = true := fun d hd => isNameChar_of_isDigit (h d hd)
  have hn : number p c (cs ++ rest) = .ok (.number (String.ofList (c :: cs)), cs, rest) := by
    rw [number, takeWhile_word hname hr, dropWhile_word hname hr, digitsFault_eq_none h]
  rcases hc with hc | ⟨rfl, hne⟩
  · obtain ⟨hb, hm, h1, h2, h3, h4, -⟩ := ne_of_isDelimiter (isDelimiter_of_isDigit hc)
    have hl : lexeme p c (cs ++ rest) = .ok (.number (String.ofList (c :: cs)), cs, rest) := by
      unfold lexeme
      split
      all_goals simp_all
    exact scan_lexeme hb h2 hl
  · obtain ⟨d, ds, rfl⟩ := List.exists_cons_of_ne_nil hne
    have hd : isDigit d = true := h d List.mem_cons_self
    have hm : Punct.ofChar? '-' = none := by decide
    have hgt : d ≠ '>' := by
      rintro rfl
      exact absurd hd (by decide)
    have hl : lexeme p '-' (d :: ds ++ rest) =
        .ok (.number (String.ofList ('-' :: d :: ds)), d :: ds, rest) := by
      unfold lexeme
      split
      all_goals simp_all
    exact scan_lexeme (by decide) (by decide) hl

theorem scan_int (n : Int) (hr : rest.head?.all isDelimiter = true) :
    scan p ((toString n).toList ++ rest) =
      .next ⟨.number (toString n), p⟩ (scan (p.after (toString n).toList) rest) := by
  have hread : ∀ c cs, (toString n).toList = c :: cs → (isDigit c = true ∨ c = '-' ∧ cs ≠ []) →
      (∀ d ∈ cs, isDigit d = true) → scan p ((toString n).toList ++ rest) =
        .next ⟨.number (toString n), p⟩ (scan (p.after (toString n).toList) rest) := by
    intro c cs hcs hc h
    have hs := @scan_number p c cs rest hc h hr
    rwa [← hcs, String.ofList_toList] at hs
  cases n with
  | ofNat n =>
    obtain ⟨c, cs, hcs⟩ := List.exists_cons_of_ne_nil (toString_ne_nil n)
    have hd : ∀ d ∈ c :: cs, isDigit d = true := by
      intro d hd
      rw [← hcs] at hd
      exact isDigit_of_mem_toString hd
    exact hread c cs hcs (.inl (hd c List.mem_cons_self))
      fun d h => hd d (List.mem_cons_of_mem _ h)
  | negSucc n =>
    exact hread '-' _ (toList_toString_negSucc n) (.inr ⟨rfl, toString_ne_nil (n + 1)⟩)
      fun d h => isDigit_of_mem_toString h

theorem quoted_escape (h : '\n' ∉ cs) :
    quoted p (BuildScript.escape cs ++ '"' :: rest) =
      .ok (cs, BuildScript.escape cs ++ ['"'], rest) := by
  induction cs generalizing p with
  | nil => rfl
  | cons c cs ih =>
    have hcs : '\n' ∉ cs := fun hn => h (List.mem_cons_of_mem _ hn)
    have hc : c ≠ '\n' := fun hn => h (hn ▸ List.mem_cons_self)
    by_cases hs : c = '\\'
    · subst hs
      simp only [BuildScript.escape, true_or, if_true, List.cons_append, quoted, ih hcs]
      rfl
    · by_cases hq : c = '"'
      · subst hq
        simp only [BuildScript.escape, or_true, if_true, List.cons_append, quoted, ih hcs]
        rfl
      · rw [BuildScript.escape, if_neg (by simp [hs, hq]), List.cons_append, quoted, if_neg hc,
          ih hcs]
        · rfl
        all_goals simp_all

theorem scan_quoted (h : '\n' ∉ cs) :
    scan p ('"' :: (BuildScript.escape cs ++ '"' :: rest)) =
      .next ⟨.quoted (String.ofList cs), p⟩
        (scan ((p.step '"').after (BuildScript.escape cs ++ ['"'])) rest) := by
  apply scan_lexeme (by decide) (by decide)
  have hm : Punct.ofChar? '"' = none := by decide
  unfold lexeme
  rw [hm]
  simp only [quotedText, quoted_escape h]

theorem scan_mark {m : Punct} (h : Punct.ofChar? c = some m) :
    scan p (c :: cs) = .next ⟨.punct m, p⟩ (scan (p.step c) cs) := by
  have hmem := @mem_marks c (by rw [h]; rfl)
  have hno : ['(', ')', ',', ';', '=', '<', '>', '[', ']', '\x7b', '\x7d', '+', '.'].all
      (fun d => decide (isBlank d = false ∧ d ≠ '/')) = true := by decide
  obtain ⟨hb, hc⟩ := of_decide_eq_true (List.all_eq_true.1 hno c hmem)
  have hl : lexeme p c cs = .ok (.punct m, [], cs) := by
    unfold lexeme
    rw [h]
  exact scan_lexeme hb hc hl

theorem scan_arrow : scan p ('-' :: '>' :: cs) =
    .next ⟨.punct .arrow, p⟩ (scan (p.after ['-', '>']) cs) :=
  scan_lexeme (by decide) (by decide) rfl

theorem scan_doubleColon : scan p (':' :: ':' :: cs) =
    .next ⟨.punct .doubleColon, p⟩ (scan (p.after [':', ':']) cs) :=
  scan_lexeme (by decide) (by decide) rfl

theorem scan_colon (h : cs.head? ≠ some ':') : scan p (':' :: cs) =
    .next ⟨.punct .colon, p⟩ (scan (p.step ':') cs) := by
  have hm : Punct.ofChar? ':' = none := by decide
  have hl : lexeme p ':' cs = .ok (.punct .colon, [], cs) := by
    unfold lexeme
    split
    all_goals simp_all
  exact scan_lexeme (by decide) (by decide) hl

/-- A mark is a single character that nothing extends, or one of the three that others begin. -/
theorem ofChar?_spelling (m : Punct) : (∃ c, m.spelling.toList = [c] ∧ Punct.ofChar? c = some m) ∨
    m = .colon ∨ m = .doubleColon ∨ m = .arrow := by
  cases m
  case colon | doubleColon | arrow => simp
  all_goals exact .inl ⟨_, rfl, rfl⟩

/-- A token with a spelling is read back, with the text after it left over. -/
theorem scan_spelling (hl : l.IsPrintable) (hr : l.Ends rest) :
    scan p (l.spelling.toList ++ rest) =
      .next ⟨l, p⟩ (scan (p.after l.spelling.toList) rest) := by
  have scan_ident : ∀ s : String, isIdentifier s = true → rest.head?.all isDelimiter = true →
      scan p (s.toList ++ rest) = .next ⟨.ofWord s, p⟩ (scan (p.after s.toList) rest) := by
    intro s hs hr
    unfold isIdentifier at hs
    split at hs
    · cases hs
    · rename_i c cs hcs
      rw [Bool.and_eq_true, List.all_eq_true] at hs
      have h := @scan_word p c cs rest hs.1 hs.2 hr
      rwa [← hcs, String.ofList_toList] at h
  cases l with
  | ident name =>
    have h := scan_ident name hl.1 (hr.1 rfl)
    rwa [hl.2] at h
  | number digits =>
    obtain ⟨n, rfl⟩ := hl
    exact scan_int n (hr.1 rfl)
  | quoted value =>
    have h := @scan_quoted p value.toList rest hl.1
    rw [String.ofList_toList] at h
    simpa [Lexeme.spelling, BuildScript.quote] using h
  | scalar s =>
    have h := scan_ident s.name (Lexeme.isIdentifier_name s) (hr.1 rfl)
    rwa [Lexeme.ofWord_name] at h
  | keyword k =>
    have h := scan_ident k.spelling (Lexeme.isIdentifier_spelling k) (hr.1 rfl)
    rwa [Lexeme.ofWord_spelling] at h
  | punct m =>
    rcases ofChar?_spelling m with ⟨c, hs, hm⟩ | rfl | rfl | rfl
    · simp only [Lexeme.spelling, hs]
      exact scan_mark hm
    · exact scan_colon (hr.2 rfl)
    · exact scan_doubleColon
    · exact scan_arrow
  | eof => exact hl.elim

/-- The tokens of a text are those it is made of, and nothing comes after them. -/
theorem scan_text {ls : List Lexeme} (h : ∀ l ∈ ls, l.IsPrintable) :
    ∃ pos, Tokens.Begins ls (scan p (Lexeme.text ls).toList) (.done pos) := by
  induction ls generalizing p with
  | nil => exact ⟨p, by rw [Lexeme.text, String.toList_empty, scan]; rfl⟩
  | cons l ls ih =>
    have hl : l.IsPrintable := h l List.mem_cons_self
    have hls : ∀ m ∈ ls, m.IsPrintable := fun m hm => h m (List.mem_cons_of_mem _ hm)
    cases ls with
    | nil =>
      have hscan := @scan_spelling p [] l hl (Lexeme.ends_nil l)
      rw [List.append_nil] at hscan
      rw [Lexeme.text, hscan, scan]
      exact ⟨_, p, _, rfl, rfl⟩
    | cons m ls =>
      have hends := @Lexeme.ends_text m ls l (hls m List.mem_cons_self)
      rw [Lexeme.toList_text, scan_spelling hl hends]
      by_cases ha : Lexeme.isApart l m = true
      · rw [if_pos ha, List.singleton_append, scan_blank (by decide)]
        obtain ⟨pos, hb⟩ := ih hls
        exact ⟨pos, _, _, rfl, hb⟩
      · rw [if_neg ha, List.nil_append]
        obtain ⟨pos, hb⟩ := ih hls
        exact ⟨pos, _, _, rfl, hb⟩

end Lexer

namespace Tokens
open Lexeme

theorem not_mem_escape {cs : List Char} (h : '\x00' ∉ cs) : '\x00' ∉ BuildScript.escape cs := by
  induction cs with
  | nil => exact h
  | cons c cs ih =>
    have hc : '\x00' ≠ c := fun hc => h (hc ▸ List.mem_cons_self)
    have hcs := ih fun hn => h (List.mem_cons_of_mem _ hn)
    unfold BuildScript.escape
    split
    all_goals simp_all

/-- No spelling holds a null byte, where reading would stop. -/
theorem not_mem_spelling {l : Lexeme} (h : l.IsPrintable) : '\x00' ∉ l.spelling.toList := by
  have not_mem_ident : ∀ s : String, isIdentifier s = true → '\x00' ∉ s.toList := by
    intro s hs hn
    exact absurd (isNameChar_of_mem hs hn) (by decide)
  cases l with
  | ident name => exact not_mem_ident name h.1
  | number digits =>
    obtain ⟨n, rfl⟩ := h
    intro hn
    rcases mem_toString_int hn with hn | hn
    · exact absurd hn (by decide)
    · exact absurd hn (by decide)
  | quoted value =>
    have hv := not_mem_escape h.2
    simp [spelling, BuildScript.quote, hv]
  | scalar s => exact not_mem_ident _ (isIdentifier_name s)
  | keyword k => exact not_mem_ident _ (isIdentifier_spelling k)
  | punct m => cases m <;> decide
  | eof => exact h.elim

theorem not_mem_text {ls : List Lexeme} (h : ∀ l ∈ ls, l.IsPrintable) :
    '\x00' ∉ (text ls).toList := by
  induction ls with
  | nil => simp [text]
  | cons l ls ih =>
    have hl := not_mem_spelling (h l List.mem_cons_self)
    cases ls with
    | nil => exact hl
    | cons m ls =>
      have hls := ih fun k hk => h k (List.mem_cons_of_mem _ hk)
      rw [toList_text, List.mem_append, List.mem_append]
      rintro (hn | hn | hn)
      · exact hl hn
      · split at hn
        · exact absurd hn (by decide)
        · cases hn
      · exact hls hn

/-- A text without null characters does not stop early. -/
theorem terminated_of_not_mem {cs : List Char} (h : '\x00' ∉ cs) : terminated cs = cs := by
  have hall : ∀ c ∈ cs, decide (c ≠ '\x00') = true := by
    intro c hc
    rw [decide_eq_true_eq]
    rintro rfl
    exact h hc
  have happ : (cs ++ []).takeWhile (· ≠ '\x00') = cs := takeWhile_append_of_all hall rfl
  rwa [List.append_nil] at happ

/-- Reading the text of some tokens gives them back, up to the end of the text. -/
theorem ofText_text {ls : List Lexeme} (h : ∀ l ∈ ls, l.IsPrintable) (p : Position) :
    ∃ pos, Begins ls (ofText (text ls) p) (.done pos) := by
  rw [ofText, terminated_of_not_mem (not_mem_text h)]
  exact Lexer.scan_text h

end Tokens
end Bindery
