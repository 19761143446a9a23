import Bindery.Proofs.Syntax.Placement
import Bindery.Proofs.Syntax.Spelling

/-!
# A token in other surroundings

A token is read alike from wherever it begins, and before any other rest that does not extend it.
So the tokens of a text, but for where they stand, do not depend on where the text begins.
-/
namespace Bindery
open Text Tokens

namespace Lexer

/-! ### Reading from another position -/

section
variable {p : Position} {c : Char} {cs : List Char}

theorem digitsFault_unplaced (p q : Position) (hex : Bool) (cs : List Char) :
    (digitsFault p hex cs).map Fault.unplaced = (digitsFault q hex cs).map Fault.unplaced := by
  induction cs generalizing p q hex with
  | nil => rfl
  | cons c cs ih =>
    simp only [digitsFault]
    split
    · split
      · rfl
      · exact ih _ _ _
    · split
      · split
        · exact ih _ _ _
        · rfl
      · split
        · exact ih _ _ _
        · rfl

theorem nameFault_unplaced (p q : Position) (cs : List Char) :
    (nameFault p cs).map Fault.unplaced = (nameFault q cs).map Fault.unplaced := by
  induction cs generalizing p q with
  | nil => rfl
  | cons c cs ih =>
    simp only [nameFault]
    split
    · exact ih _ _
    · rfl

theorem quoted_unplaced (p q : Position) (cs : List Char) :
    unplacedBy id (quoted p cs) = unplacedBy id (quoted q cs) := by
  fun_induction quoted p cs generalizing q with
  | case1 | case2 => rfl
  | case3 p cs ih | case4 p cs ih => exact unplacedBy_bind (ih _)
  | case5 p cs =>
    rw [quoted]
    · rfl
    all_goals simp
  | case6 p c cs hquote hescape hbackslash hc ih =>
    rw [quoted, if_neg hc]
    · exact unplacedBy_bind (ih _)
    · exact hquote
    · exact hescape
    · exact hbackslash

/-- A fault, if there is one, counts for a result by its cause only. -/
theorem unplacedBy_fault {α : Type} {x y : Option Fault} (a : α)
    (h : x.map Fault.unplaced = y.map Fault.unplaced) :
    unplacedBy id (match x with | some fault => .error fault | none => .ok a) =
      unplacedBy id (match y with | some fault => .error fault | none => .ok a) := by
  cases x with
  | none =>
    cases y with
    | none => rfl
    | some fault => cases h
  | some fault =>
    cases y with
    | none => cases h
    | some fault' =>
      have hfault : fault.unplaced = fault'.unplaced := Option.some.inj h
      exact congrArg Except.error hfault

theorem number_unplaced (p q : Position) (c : Char) (cs : List Char) :
    unplacedBy id (number p c cs) = unplacedBy id (number q c cs) :=
  unplacedBy_fault _ (digitsFault_unplaced _ _ _ _)

theorem word_unplaced (p q : Position) (c : Char) (cs : List Char) :
    unplacedBy id (word p c cs) = unplacedBy id (word q c cs) :=
  unplacedBy_fault _ (nameFault_unplaced _ _ _)

theorem quotedText_unplaced (p q : Position) (cs : List Char) :
    unplacedBy id (quotedText p cs) = unplacedBy id (quotedText q cs) := by
  have heq (r : Position) : quotedText r cs = quoted r cs >>= fun read =>
      .ok (.quoted (String.ofList read.1), read.2) := by
    unfold quotedText
    rcases quoted r cs with fault | ⟨value, spelling, rest⟩ <;> rfl
  rw [heq, heq]
  exact unplacedBy_bind (quoted_unplaced p q cs)

theorem lexeme_unplaced (p q : Position) (c : Char) (cs : List Char) :
    unplacedBy id (lexeme p c cs) = unplacedBy id (lexeme q c cs) := by
  unfold lexeme
  split
  · rfl
  · rfl
  · rfl
  · rfl
  · exact quotedText_unplaced _ _ _
  · split
    · exact number_unplaced _ _ _ _
    · rfl
  · split
    · exact number_unplaced _ _ _ _
    · split
      · exact word_unplaced _ _ _ _
      · rfl

/-- A comment is passed, from its slash to its end. -/
theorem scan_comment {text rest : List Char} (h : comment? cs = some (text, rest)) :
    scan p ('/' :: cs) = scan (p.after ('/' :: text)) rest := by
  rw [scan, if_neg (by decide), if_pos rfl]
  split
  · rename_i h'
    rw [h] at h'
    cases h'
    rfl
  · rename_i h'
    rw [h] at h'
    cases h'

theorem scan_loneMark (h : comment? cs = none) :
    scan p ('/' :: cs) = .broken ⟨p.step '/', .lexical (.loneMark '/')⟩ := by
  rw [scan, if_neg (by decide), if_pos rfl]
  split
  · rename_i h'
    rw [h] at h'
    cases h'
  · rfl

theorem scan_fault {fault : Fault} (hb : isBlank c = false) (hc : c ≠ '/')
    (h : lexeme p c cs = .error fault) : scan p (c :: cs) = .broken fault := by
  rw [scan, if_neg (by simp [hb]), if_neg hc]
  split
  · rename_i h'
    rw [h] at h'
    cases h'
  · rename_i h'
    rw [h] at h'
    cases h'
    rfl

/-- A token is read alike from elsewhere. -/
theorem lexeme_elsewhere {l : Lexeme} {spelling rest : List Char}
    (h : lexeme p c cs = .ok (l, spelling, rest)) (q : Position) :
    lexeme q c cs = .ok (l, spelling, rest) := by
  have hq := lexeme_unplaced p q c cs
  rw [h] at hq
  cases hlexeme : lexeme q c cs with
  | error fault => rw [hlexeme] at hq; cases hq
  | ok read => rw [hlexeme] at hq; cases hq; rfl

/-- A text has the same tokens wherever it begins. -/
theorem scan_unplaced (p q : Position) (cs : List Char) :
    (scan p cs).unplaced = (scan q cs).unplaced := by
  fun_induction scan p cs generalizing q with
  | case1 p => rw [scan]; rfl
  | case2 p c cs hb ih =>
    rw [scan_blank hb]
    exact ih _
  | case3 p cs text rest hcomment hb ih =>
    rw [scan_comment hcomment]
    exact ih _
  | case4 p cs hcomment hb =>
    rw [scan_loneMark hcomment]
    rfl
  | case5 p c cs hb hc l spelling rest hl ih =>
    rw [scan_lexeme (by simpa using hb) hc (lexeme_elsewhere hl q), unplaced, unplaced]
    exact congrArg _ (ih _)
  | case6 p c cs hb hc fault hl =>
    have hq := lexeme_unplaced p q c cs
    rw [hl] at hq
    cases hq' : lexeme q c cs with
    | error fault' =>
      rw [hq'] at hq
      rw [scan_fault (by simpa using hb) hc hq']
      exact congrArg Tokens.broken (Except.error.inj hq)
    | ok read => rw [hq'] at hq; cases hq

end

/-! ### Reading before another rest -/

section
variable {p q : Position} {c : Char} {cs spelling rest more : List Char} {l : Lexeme}

theorem quoted_ne_nil {value : List Char} (h : quoted p cs = .ok (value, spelling, rest)) :
    spelling ≠ [] := by
  fun_induction quoted p cs with
  | case1 | case5 => cases h
  | case2 => cases h; exact List.cons_ne_nil _ _
  | case3 | case4 | case6 =>
    obtain ⟨_, _, h⟩ := bind_eq_ok.1 h
    cases h
    exact List.cons_ne_nil _ _

/-- A quoted text ends at its closing quote, whatever follows. -/
theorem quoted_of_append {value : List Char} (h : quoted p cs = .ok (value, spelling, rest)) :
    quoted q (spelling ++ more) = .ok (value, spelling, more) := by
  fun_induction quoted p cs generalizing q value spelling with
  | case1 | case5 => cases h
  | case2 => cases h; rfl
  | case3 p cs ih | case4 p cs ih =>
    obtain ⟨⟨value, spelling, rest⟩, hq, h⟩ := bind_eq_ok.1 h
    cases h
    simp only [List.cons_append, quoted, ih hq]
    rfl
  | case6 p c cs hquote hescape hbackslash hc ih =>
    obtain ⟨⟨value, spelling, rest⟩, hq, h⟩ := bind_eq_ok.1 h
    cases h
    obtain ⟨d, ds, rfl⟩ := List.exists_cons_of_ne_nil (quoted_ne_nil hq)
    obtain rfl := quoted_append hq
    rw [List.cons_append, quoted, if_neg hc, ih hq]
    · rfl
    · exact hquote
    · rintro _ rfl hd
      cases hd
      exact hescape _ rfl rfl
    · rintro _ rfl hd
      cases hd
      exact hbackslash _ rfl rfl

theorem isDelimiter_dropWhile (cs : List Char) :
    (cs.dropWhile (!isDelimiter ·)).head?.all isDelimiter = true := by
  have h := List.head?_dropWhile_not (!isDelimiter ·) cs
  cases hd : (cs.dropWhile (!isDelimiter ·)).head? with
  | none => rfl
  | some d => simpa [hd] using h

theorem lexeme_colon (h : cs.head? ≠ some ':') : lexeme p ':' cs = .ok (.punct .colon, [], cs) := by
  have hm : Punct.ofChar? ':' = none := by decide
  unfold lexeme
  split
  all_goals simp_all

theorem lexeme_minus (h : cs.head?.any isDigit = true) : lexeme p '-' cs = number p '-' cs := by
  obtain ⟨d, ds, rfl⟩ : ∃ d ds, cs = d :: ds := by
    cases cs with
    | nil => cases h
    | cons d ds => exact ⟨d, ds, rfl⟩
  have hne : d ≠ '>' := by
    rintro rfl
    have hdigit : isDigit '>' = true := h
    exact absurd hdigit (by decide)
  have hm : Punct.ofChar? '-' = none := by decide
  unfold lexeme
  split
  all_goals simp_all

theorem lexeme_of_isDigit (h : isDigit c = true) : lexeme p c cs = number p c cs := by
  obtain ⟨-, hm, hcolon, -, hdash, hquote, -⟩ := ne_of_isDelimiter (isDelimiter_of_isDigit h)
  unfold lexeme
  split
  all_goals simp_all

theorem lexeme_of_isLetter (h : isLetter c = true) : lexeme p c cs = word p c cs := by
  have hname : isNameChar c = true := by simp [isNameChar, h]
  obtain ⟨-, hm, hcolon, -, hdash, hquote, -⟩ :=
    ne_of_isDelimiter (isDelimiter_of_isNameChar hname)
  have hd : isDigit c = false := isDigit_of_isLetter h
  unfold lexeme
  split
  all_goals simp_all

/-- Whether there is a fault does not depend on the position. -/
theorem eq_none_of_unplaced {x y : Option Fault} (h : x.map Fault.unplaced = y.map Fault.unplaced)
    (hx : x = none) : y = none := by
  subst hx
  cases y with
  | none => rfl
  | some fault => cases h

section
variable (hmore : more.head?.all isDelimiter = true)
include hmore

/-- The characters before a delimiter end at any other delimiter in its place. -/
theorem span_before (cs : List Char) :
    (cs.takeWhile (!isDelimiter ·) ++ more).takeWhile (!isDelimiter ·) =
        cs.takeWhile (!isDelimiter ·) ∧
      (cs.takeWhile (!isDelimiter ·) ++ more).dropWhile (!isDelimiter ·) = more := by
  have hall : ∀ d ∈ cs.takeWhile (!isDelimiter ·), (!isDelimiter d) = true := fun d hd =>
    List.all_eq_true.1 List.all_takeWhile d hd
  have hhead : more.head?.any (!isDelimiter ·) = false := by
    cases more with
    | nil => rfl
    | cons d ds => simpa using hmore
  exact ⟨takeWhile_append_of_all hall hhead, dropWhile_append_of_all hall hhead⟩

theorem number_of_delimited (h : number p c cs = .ok (l, spelling, rest)) (q : Position) :
    number q c (spelling ++ more) = .ok (l, spelling, more) := by
  unfold number at h
  split at h
  · cases h
  · rename_i hnone
    cases h
    obtain ⟨htake, hdrop⟩ := span_before hmore cs
    rw [number, htake, hdrop, eq_none_of_unplaced (digitsFault_unplaced _ _ _ _) hnone]

theorem word_of_delimited (h : word p c cs = .ok (l, spelling, rest)) (q : Position) :
    word q c (spelling ++ more) = .ok (l, spelling, more) := by
  unfold word at h
  split at h
  · cases h
  · rename_i hnone
    cases h
    obtain ⟨htake, hdrop⟩ := span_before hmore cs
    rw [word, htake, hdrop, eq_none_of_unplaced (nameFault_unplaced _ _ _) hnone]

end

theorem isWord_ofWord (s : String) : (Lexeme.ofWord s).isWord = true := by
  unfold Lexeme.ofWord
  split
  · rfl
  · split <;> rfl

/-- Numbers and words end at a delimiter. -/
theorem delimited_of_number (h : number p c cs = .ok (l, spelling, rest)) :
    l.isWord = true ∧ l ≠ .punct .colon ∧ rest.head?.all isDelimiter = true := by
  unfold number at h
  split at h <;> cases h
  exact ⟨rfl, nofun, isDelimiter_dropWhile cs⟩

theorem delimited_of_word (h : word p c cs = .ok (l, spelling, rest)) :
    l.isWord = true ∧ l ≠ .punct .colon ∧ rest.head?.all isDelimiter = true := by
  unfold word at h
  split at h <;> cases h
  refine ⟨isWord_ofWord _, fun hcolon => ?_, isDelimiter_dropWhile cs⟩
  have hw := isWord_ofWord (String.ofList (c :: cs.takeWhile (!isDelimiter ·)))
  rw [hcolon] at hw
  cases hw

/-- What follows a token does not extend it. -/
theorem ends_of_lexeme (h : lexeme p c cs = .ok (l, spelling, rest)) : l.Ends rest := by
  unfold lexeme at h
  split at h
  · rename_i mark _ hmark
    cases h
    refine ⟨nofun, ?_⟩
    rintro ⟨⟩
    exact absurd hmark (by unfold Punct.ofChar?; split <;> nofun)
  · cases h; exact ⟨nofun, nofun⟩
  · rename_i hcolon _
    cases h
    refine ⟨nofun, fun _ hhead => ?_⟩
    obtain ⟨tail, rfl⟩ := List.head?_eq_some_iff.1 hhead
    exact hcolon _ rfl
  · cases h; exact ⟨nofun, nofun⟩
  · unfold quotedText at h
    split at h <;> cases h
    exact ⟨nofun, nofun⟩
  · split at h
    · obtain ⟨-, hne, hend⟩ := delimited_of_number h
      exact ⟨fun _ => hend, fun hl => absurd hl hne⟩
    · cases h
  · split at h
    · obtain ⟨-, hne, hend⟩ := delimited_of_number h
      exact ⟨fun _ => hend, fun hl => absurd hl hne⟩
    · split at h
      · obtain ⟨-, hne, hend⟩ := delimited_of_word h
        exact ⟨fun _ => hend, fun hl => absurd hl hne⟩
      · cases h

theorem not_all_isDelimiter (h : cs.head?.any isDigit = true) :
    cs.head?.all isDelimiter ≠ true := by
  cases cs with
  | nil => cases h
  | cons d ds =>
    have hd : isDelimiter d = false := isDelimiter_of_isDigit h
    simp [hd]

/-- A token is read as it is before anything else that does not extend it. -/
theorem lexeme_of_ends (h : lexeme p c cs = .ok (l, spelling, rest)) (hmore : l.Ends more)
    (q : Position) : lexeme q c (spelling ++ more) = .ok (l, spelling, more) := by
  unfold lexeme at h
  split at h
  · rename_i hmark
    cases h
    simp [lexeme, hmark]
  · cases h; rfl
  · cases h
    exact lexeme_colon (hmore.2 rfl)
  · cases h; rfl
  · unfold quotedText at h
    split at h <;> cases h
    rename_i hq
    change quotedText _ _ = _
    rw [quotedText, quoted_of_append hq]
  · split at h
    · rename_i hdigit
      obtain ⟨hword, -, hend⟩ := delimited_of_number h
      have hn := number_of_delimited (hmore.1 hword) h q
      obtain rfl := number_append h
      rw [lexeme_minus, hn]
      cases spelling with
      | nil => exact absurd hend (not_all_isDelimiter hdigit)
      | cons d ds => exact hdigit
    · cases h
  · split at h
    · rename_i hdigit
      obtain ⟨hword, -, -⟩ := delimited_of_number h
      rw [lexeme_of_isDigit hdigit]
      exact number_of_delimited (hmore.1 hword) h q
    · split at h
      · rename_i hletter
        obtain ⟨hword, -, -⟩ := delimited_of_word h
        rw [lexeme_of_isLetter hletter]
        exact word_of_delimited (hmore.1 hword) h q
      · cases h

end

end Lexer
end Bindery
