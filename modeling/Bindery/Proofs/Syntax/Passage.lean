import Bindery.Proofs.Decl.Spelling

/-!
# Where tokens stand

The tokens of a text stand in it one after the other. Each is at the position of one of its
characters, a keyword where the text spells it, and a fault of the lexer at the character that it
is about, or just after the last one.
-/
namespace Bindery
open Text Lexeme

/-- A piece of text together with where it begins. -/
structure Passage where
  start : Position
  text : List Char

namespace Passage

/-- The position of a character of the passage, or the one just after its last. -/
def Has (x : Passage) (q : Position) : Prop :=
  ∃ before rest, x.text = before ++ rest ∧ q = x.start.after before

/-- The position of an occurrence of a word. -/
def Shows (x : Passage) (word : String) (q : Position) : Prop :=
  ∃ before rest, x.text = before ++ (word.toList ++ rest) ∧ q = x.start.after before

/-- A passage that is part of another one. -/
def IsWithin (x y : Passage) : Prop :=
  ∃ before rest, y.text = before ++ (x.text ++ rest) ∧ x.start = y.start.after before

variable {x y : Passage} {p q : Position} {c : Char} {cs ds rest : List Char} {word : String}

theorem Has.mono (h : x.Has q) (hxy : x.IsWithin y) : y.Has q := by
  obtain ⟨front, back, hy, hstart⟩ := hxy
  obtain ⟨before, rest, hx, rfl⟩ := h
  refine ⟨front ++ before, rest ++ back, ?_, ?_⟩
  · rw [hy, hx, List.append_assoc, List.append_assoc]
  · rw [hstart, Position.after_append]

theorem Shows.mono (h : x.Shows word q) (hxy : x.IsWithin y) : y.Shows word q := by
  obtain ⟨front, back, hy, hstart⟩ := hxy
  obtain ⟨before, rest, hx, rfl⟩ := h
  refine ⟨front ++ before, rest ++ back, ?_, ?_⟩
  · rw [hy, hx]
    simp only [List.append_assoc]
  · rw [hstart, Position.after_append]

theorem has_start : (⟨p, cs⟩ : Passage).Has p := ⟨[], cs, rfl, rfl⟩

theorem isWithin_cons : (⟨p.step c, cs⟩ : Passage).IsWithin ⟨p, c :: cs⟩ :=
  ⟨[c], [], by simp, rfl⟩

theorem isWithin_append : (⟨p.after ds, cs⟩ : Passage).IsWithin ⟨p, ds ++ cs⟩ :=
  ⟨ds, [], by simp, rfl⟩

theorem isWithin_append_left (cs : List Char) : (⟨p, ds⟩ : Passage).IsWithin ⟨p, ds ++ cs⟩ :=
  ⟨[], cs, rfl, rfl⟩

theorem Has.cons (h : (⟨p.step c, cs⟩ : Passage).Has q) : (⟨p, c :: cs⟩ : Passage).Has q :=
  h.mono isWithin_cons

theorem Has.append_left (h : (⟨p, ds⟩ : Passage).Has q) (cs : List Char) :
    (⟨p, ds ++ cs⟩ : Passage).Has q :=
  h.mono (isWithin_append_left cs)

end Passage

/-- What is known of a token of a passage. -/
structure Token.IsOf (x : Passage) (t : Token) : Prop where
  has : x.Has t.pos
  ident : ∀ name, t.lexeme = .ident name → IsIdent name
  quoted : ∀ value, t.lexeme = .quoted value → IsQuotable value
  keyword : ∀ k, t.lexeme = .keyword k → x.Shows k.spelling t.pos

/-- The tokens of a passage, with a fault in it or up to its end. -/
def Tokens.AreOf (x : Passage) : Tokens → Prop
  | done pos => x.Has pos
  | broken fault => x.Has fault.pos
  | next t rest => t.IsOf x ∧ rest.AreOf x

section
variable {x y : Passage}

theorem Token.IsOf.mono {t : Token} (h : t.IsOf x) (hxy : x.IsWithin y) : t.IsOf y :=
  ⟨h.has.mono hxy, h.ident, h.quoted, fun k hk => (h.keyword k hk).mono hxy⟩

theorem Tokens.AreOf.mono {ts : Tokens} (h : ts.AreOf x) (hxy : x.IsWithin y) : ts.AreOf y := by
  induction ts with
  | done pos => exact Passage.Has.mono h hxy
  | broken fault => exact Passage.Has.mono h hxy
  | next t rest ih => exact ⟨h.1.mono hxy, ih h.2⟩

end

namespace Lexer
variable {p : Position} {c : Char} {cs spelling rest : List Char} {l : Lexeme} {fault : Fault}

theorem has_digitsFault {hex : Bool} (h : digitsFault p hex cs = some fault) :
    (⟨p, cs⟩ : Passage).Has fault.pos := by
  fun_induction digitsFault p hex cs with
  | case1 => cases h
  | case2 | case5 | case7 => cases h; exact Passage.has_start
  | case3 | case4 | case6 =>
    rename_i ih
    exact (ih h).cons

theorem has_nameFault (h : nameFault p cs = some fault) :
    (⟨p, cs⟩ : Passage).Has fault.pos := by
  fun_induction nameFault p cs with
  | case1 => cases h
  | case2 _ _ _ _ ih => exact (ih h).cons
  | case3 => cases h; exact Passage.has_start

theorem has_quoted (h : quoted p cs = .error fault) : (⟨p, cs⟩ : Passage).Has fault.pos := by
  fun_induction quoted p cs with
  | case1 | case5 => cases h; exact Passage.has_start
  | case2 => cases h
  | case3 p cs ih | case4 p cs ih =>
    simp only [bind, Except.bind] at h
    split at h
    · rename_i heq
      cases h
      exact (ih heq).cons.cons
    · cases h
  | case6 p c cs _ _ _ _ ih =>
    simp only [bind, Except.bind] at h
    split at h
    · rename_i heq
      cases h
      exact (ih heq).cons
    · cases h

/-- A quoted text is on one line and made of characters of the text. -/
theorem mem_of_mem_quoted {value : List Char} (h : quoted p cs = .ok (value, spelling, rest))
    {d : Char} (hd : d ∈ value) : d ∈ cs ∧ d ≠ '\n' := by
  fun_induction quoted p cs generalizing value spelling rest with
  | case1 | case5 => cases h
  | case2 => cases h; cases hd
  | case3 p cs ih | case4 p cs ih =>
    simp only [bind, Except.bind] at h
    split at h
    · cases h
    · rename_i heq
      cases h
      rcases List.mem_cons.1 hd with rfl | hd
      · exact ⟨by simp, by decide⟩
      · have hmem := ih heq hd
        exact ⟨List.mem_cons_of_mem _ (List.mem_cons_of_mem _ hmem.1), hmem.2⟩
  | case6 p c cs _ _ _ hc ih =>
    simp only [bind, Except.bind] at h
    split at h
    · cases h
    · rename_i heq
      cases h
      rcases List.mem_cons.1 hd with rfl | hd
      · exact ⟨List.mem_cons_self, hc⟩
      · have hmem := ih heq hd
        exact ⟨List.mem_cons_of_mem _ hmem.1, hmem.2⟩

theorem isNameChar_of_nameFault (h : nameFault p cs = none) {d : Char} (hd : d ∈ cs) :
    isNameChar d = true := by
  fun_induction nameFault p cs with
  | case1 => cases hd
  | case2 p c cs hc ih =>
    rcases List.mem_cons.1 hd with rfl | hd
    · exact hc
    · exact ih h hd
  | case3 => cases h

theorem ofWord_eq_ident {s name : String} (h : ofWord s = .ident name) : s = name := by
  unfold ofWord at h
  split at h
  · cases h
  · split at h <;> cases h
    rfl

theorem ofWord_eq_keyword {s : String} {k : Keyword} (h : ofWord s = .keyword k) :
    k.spelling = s := by
  unfold ofWord at h
  split at h
  · cases h
  · split at h <;> cases h
    rename_i hk
    have hspelling := List.find?_some hk
    exact of_decide_eq_true hspelling

theorem ofWord_ne_quoted {s value : String} : ofWord s ≠ .quoted value := by
  unfold ofWord
  split
  · nofun
  · split <;> nofun

/-- Of a token that is no identifier, quoted text or keyword only the place is known. -/
theorem isOf_of_ne {t : Token} (hident : ∀ name, t.lexeme ≠ .ident name)
    (hquoted : ∀ value, t.lexeme ≠ .quoted value) (hkeyword : ∀ k, t.lexeme ≠ .keyword k)
    (hp : t.pos = p) : t.IsOf ⟨p, cs⟩ where
  has := hp ▸ Passage.has_start
  ident name h := absurd h (hident name)
  quoted value h := absurd h (hquoted value)
  keyword k h := absurd h (hkeyword k)

theorem isOf_number (h : number p c cs = .ok (l, spelling, rest)) :
    (⟨l, p⟩ : Token).IsOf ⟨p, c :: cs⟩ := by
  unfold number at h
  split at h <;> cases h
  exact isOf_of_ne nofun nofun nofun rfl

theorem isOf_word (hc : isLetter c = true) (h : word p c cs = .ok (l, spelling, rest)) :
    (⟨l, p⟩ : Token).IsOf ⟨p, c :: cs⟩ := by
  unfold word at h
  split at h <;> cases h
  rename_i hname
  refine ⟨Passage.has_start, ?_, fun _ hq => absurd hq ofWord_ne_quoted, ?_⟩
  · intro name hident
    obtain rfl := ofWord_eq_ident hident
    refine ⟨?_, hident⟩
    simp only [isIdentifier, String.toList_ofList, hc, Bool.true_and, List.all_eq_true]
    exact fun d hd => isNameChar_of_nameFault hname hd
  · intro k hk
    refine ⟨[], cs.dropWhile (!isDelimiter ·), ?_, rfl⟩
    rw [ofWord_eq_keyword hk, String.toList_ofList, List.nil_append, List.cons_append,
      List.takeWhile_append_dropWhile]

theorem isOf_quotedText (hnull : '\x00' ∉ cs)
    (h : quotedText (p.step '"') cs = .ok (l, spelling, rest)) :
    (⟨l, p⟩ : Token).IsOf ⟨p, '"' :: cs⟩ := by
  unfold quotedText at h
  split at h <;> cases h
  rename_i hq
  refine ⟨Passage.has_start, nofun, ?_, nofun⟩
  rintro value ⟨⟩
  rw [IsQuotable, String.toList_ofList]
  exact ⟨fun hd => (mem_of_mem_quoted hq hd).2 rfl, fun hd => hnull (mem_of_mem_quoted hq hd).1⟩

theorem isOf_lexeme (hnull : '\x00' ∉ cs) (h : lexeme p c cs = .ok (l, spelling, rest)) :
    (⟨l, p⟩ : Token).IsOf ⟨p, c :: cs⟩ := by
  unfold lexeme at h
  split at h
  · cases h; exact isOf_of_ne nofun nofun nofun rfl
  · cases h; exact isOf_of_ne nofun nofun nofun rfl
  · cases h; exact isOf_of_ne nofun nofun nofun rfl
  · cases h; exact isOf_of_ne nofun nofun nofun rfl
  · exact isOf_quotedText hnull h
  · split at h
    · exact isOf_number h
    · cases h
  · split at h
    · exact isOf_number h
    · split at h
      · exact isOf_word ‹_› h
      · cases h

theorem has_number (h : number p c cs = .error fault) : (⟨p, c :: cs⟩ : Passage).Has fault.pos := by
  unfold number at h
  split at h <;> cases h
  rename_i hd
  have hin := (has_digitsFault hd).append_left (cs.dropWhile (!isDelimiter ·))
  rw [List.takeWhile_append_dropWhile] at hin
  exact hin.cons

theorem has_word (h : word p c cs = .error fault) : (⟨p, c :: cs⟩ : Passage).Has fault.pos := by
  unfold word at h
  split at h <;> cases h
  rename_i hn
  have hin := (has_nameFault hn).append_left (cs.dropWhile (!isDelimiter ·))
  rw [List.takeWhile_append_dropWhile] at hin
  exact hin.cons

theorem has_quotedText (h : quotedText (p.step c) cs = .error fault) :
    (⟨p, c :: cs⟩ : Passage).Has fault.pos := by
  unfold quotedText at h
  split at h <;> cases h
  exact (has_quoted ‹_›).cons

theorem has_lexeme (h : lexeme p c cs = .error fault) : (⟨p, c :: cs⟩ : Passage).Has fault.pos := by
  unfold lexeme at h
  split at h
  · cases h
  · cases h
  · cases h
  · cases h
  · exact has_quotedText h
  · split at h
    · exact has_number h
    · cases h; exact Passage.has_start
  · split at h
    · exact has_number h
    · split at h
      · exact has_word h
      · cases h; exact Passage.has_start

/-- The tokens of a text stand in it. -/
theorem areOf_scan (hnull : '\x00' ∉ cs) : (scan p cs).AreOf ⟨p, cs⟩ := by
  fun_induction scan p cs with
  | case1 => exact Passage.has_start
  | case2 p c cs hb ih =>
    exact (ih fun hm => hnull (List.mem_cons_of_mem _ hm)).mono Passage.isWithin_cons
  | case3 p cs text rest hcomment hb ih =>
    have happend := comment?_append hcomment
    subst happend
    have hin := ih fun hm => hnull (List.mem_cons_of_mem _ (List.mem_append_right _ hm))
    exact (hin.mono Passage.isWithin_append).mono Passage.isWithin_cons
  | case4 p cs hcomment hb => exact Passage.has_start.cons
  | case5 p c cs hb hc l spelling rest hl ih =>
    have htoken := isOf_lexeme (fun hm => hnull (List.mem_cons_of_mem _ hm)) hl
    have happend := lexeme_append hl
    subst happend
    have hin := ih fun hm => hnull (List.mem_cons_of_mem _ (List.mem_append_right _ hm))
    exact ⟨htoken, (hin.mono Passage.isWithin_append).mono Passage.isWithin_cons⟩
  | case6 p c cs hb hc fault hl => exact has_lexeme hl

end Lexer

/-- The tokens that are read from a text stand in it. -/
theorem Tokens.areOf_ofText (text : String) (p : Position) :
    (Tokens.ofText text p).AreOf ⟨p, text.toList⟩ := by
  have hnull : '\x00' ∉ terminated text.toList := by
    intro hm
    have hall := List.all_takeWhile (p := fun c : Char => decide (c ≠ '\x00')) (l := text.toList)
    exact absurd (List.all_eq_true.1 hall _ hm) (by decide)
  have hin := (Lexer.areOf_scan (p := p) hnull).mono
    (Passage.isWithin_append_left (text.toList.dropWhile (· ≠ '\x00')))
  rwa [terminated, List.takeWhile_append_dropWhile] at hin

end Bindery
