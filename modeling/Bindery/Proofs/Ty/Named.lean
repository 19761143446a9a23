import Bindery.Proofs.Ty.Fits

/-!
# Types whose text is a name

A text without blanks, comments and quotes is made of the spellings of its tokens. So a type that
is read from name characters and colons alone is printed just as it was written.
-/
namespace Bindery
open Text Lexeme

namespace Lexeme

theorem spelling_ofWord (s : String) : (ofWord s).spelling = s := by
  unfold ofWord
  split
  · rename_i hk
    have hname := List.find?_some hk
    exact of_decide_eq_true hname
  · split
    · rename_i hk
      have hname := List.find?_some hk
      exact of_decide_eq_true hname
    · rfl

theorem toList_spelling_of_ofChar? {c : Char} {m : Punct} (h : Punct.ofChar? c = some m) :
    m.spelling.toList = [c] := by
  unfold Punct.ofChar? at h
  split at h <;> cases h <;> rfl

end Lexeme

/-- The tokens of a text that is made of nothing but their spellings. -/
def Tokens.Spell : List Char → Tokens → Prop
  | cs, done _ => cs = []
  | _, broken _ => True
  | cs, next t rest => ∃ ds, cs = t.lexeme.spelling.toList ++ ds ∧ Spell ds rest

namespace Lexer
variable {p : Position} {c : Char} {cs spelling rest : List Char} {l : Lexeme}

theorem spelling_number (h : number p c cs = .ok (l, spelling, rest)) :
    l.spelling.toList = c :: spelling := by
  unfold number at h
  split at h <;> cases h
  exact String.toList_ofList

theorem spelling_word (h : word p c cs = .ok (l, spelling, rest)) :
    l.spelling.toList = c :: spelling := by
  unfold word at h
  split at h <;> cases h
  rw [spelling_ofWord, String.toList_ofList]

/-- All but quoted texts are spelled as they stand. -/
theorem spelling_lexeme (hc : c ≠ '"') (h : lexeme p c cs = .ok (l, spelling, rest)) :
    l.spelling.toList = c :: spelling := by
  unfold lexeme at h
  split at h
  · cases h
    exact toList_spelling_of_ofChar? ‹_›
  · cases h; rfl
  · cases h; rfl
  · cases h; rfl
  · exact absurd rfl hc
  · split at h
    · exact spelling_number h
    · cases h
  · split at h
    · exact spelling_number h
    · split at h
      · exact spelling_word h
      · cases h

theorem spell_scan (h : ∀ d ∈ cs, isBlank d = false ∧ d ≠ '/' ∧ d ≠ '"') :
    (scan p cs).Spell cs := by
  fun_induction scan p cs with
  | case1 => rfl
  | case2 p c cs hb => exact absurd hb (by simp [(h c List.mem_cons_self).1])
  | case3 | case4 => exact absurd rfl (h '/' List.mem_cons_self).2.1
  | case5 p c cs hb hc l spelling rest hl ih =>
    obtain rfl := lexeme_append hl
    refine ⟨rest, ?_, ih fun d hd => h d (List.mem_cons_of_mem _ (List.mem_append_right _ hd))⟩
    rw [spelling_lexeme (h c List.mem_cons_self).2.2 hl, List.cons_append]
  | case6 => trivial

end Lexer

namespace Tokens
variable {ts rest : Tokens} {cs : List Char} {scope : List String} {t u : Ty}

/-- Whether a text has name characters and colons only. -/
def IsPlain (cs : List Char) : Prop := ∀ c ∈ cs, isNameChar c = true ∨ c = ':'

theorem not_isPlain {l : Lexeme} {cs : List Char} {c : Char} (hc : c ∈ l.spelling.toList)
    (hn : isNameChar c = false) (hcolon : c ≠ ':') : ¬ IsPlain (l.spelling.toList ++ cs) := by
  intro h
  rcases h c (List.mem_append_left _ hc) with h | h
  · rw [hn] at h
    cases h
  · exact hcolon h

theorem spell_pathFrom {start name : String} (hs : ts.Spell cs)
    (h : ts.pathFrom start = .ok (name, rest)) :
    ∃ ds, rest.Spell ds ∧ start.toList ++ cs = name.toList ++ ds := by
  fun_induction pathFrom start ts generalizing cs with
  | case1 start _ part _ ts ih =>
    obtain ⟨_, rfl, ds, rfl, hds⟩ := hs
    obtain ⟨es, hes, heq⟩ := ih hds h
    refine ⟨es, hes, ?_⟩
    rw [← heq, String.toList_append, String.toList_append, List.append_assoc, List.append_assoc]
    rfl
  | case2 => exact absurd h unexpected_ne_ok
  | case3 => cases h
  | case4 =>
    cases h
    exact ⟨cs, hs, rfl⟩

theorem suffixes_of_isPlain (hp : IsPlain cs) (hs : ts.Spell cs)
    (h : suffixes t ts = .ok (u, rest)) : u = t ∧ rest = ts := by
  have hopen : ∀ {pos : Position} {tail : Tokens},
      ¬ (next ⟨.punct .squareOpen, pos⟩ tail).Spell cs := by
    rintro pos tail ⟨ds, rfl, -⟩
    exact not_isPlain (show '[' ∈ "[".toList by decide) rfl (by decide) hp
  unfold suffixes at h
  split at h
  · exact absurd hs hopen
  · exact absurd hs hopen
  · cases h
  · cases h
    exact ⟨rfl, rfl⟩

theorem close_of_isPlain (hp : IsPlain cs) (hs : ts.Spell cs)
    (h : (do let (t, ts) ← close [] t ts; .ok (some t, ts)) = .ok (some u, rest)) :
    t = u ∧ ts = rest := by
  obtain ⟨⟨v, mid⟩, hsuffixes, heq⟩ := bind_eq_ok.1 h
  cases heq
  obtain ⟨rfl, rfl⟩ := suffixes_of_isPlain hp hs hsuffixes
  exact ⟨rfl, rfl⟩

/-- A type that begins a plain text is a single word or a path, printed as it is spelled. -/
theorem spell_typeWithin (hp : IsPlain cs) (hs : ts.Spell cs)
    (h : typeWithin scope [] ts = .ok (some t, rest)) :
    ∃ ds, rest.Spell ds ∧ cs = t.render.toList ++ ds := by
  have hword : ∀ {l : Lexeme} {pos : Position} {tail : Tokens} {u : Ty},
      (next ⟨l, pos⟩ tail).Spell cs → l.spelling = u.render →
      (do let (t, ts) ← close [] u tail; .ok (some t, ts)) = .ok (some t, rest) →
      ∃ ds, rest.Spell ds ∧ cs = t.render.toList ++ ds := by
    rintro l pos tail u ⟨ds, rfl, hds⟩ hl h
    obtain ⟨rfl, rfl⟩ := close_of_isPlain (fun c hc => hp c (List.mem_append_right _ hc)) hds h
    exact ⟨ds, hds, by rw [hl]⟩
  unfold typeWithin at h
  split at h
  · exact hword hs rfl h
  · rename_i first pos tail
    obtain ⟨ds, rfl, hds⟩ := hs
    obtain ⟨⟨name, mid⟩, hpath, h⟩ := bind_eq_ok.1 h
    obtain ⟨es, hes, heq⟩ := spell_pathFrom hds hpath
    change IsPlain (first.toList ++ ds) at hp
    rw [heq] at hp
    have hplain : IsPlain es := fun c hc => hp c (List.mem_append_right _ hc)
    obtain ⟨rfl, rfl⟩ := close_of_isPlain hplain hes h
    refine ⟨es, hes, ?_⟩
    have hname : (named scope name).render = name := by
      unfold named
      split <;> rfl
    rw [hname]
    exact heq
  · exact hword hs rfl h
  · exact hword hs rfl h
  · split at h
    · cases (noType_eq_ok h).2.1
    · split at h
      · obtain ⟨_, rfl, _, rfl, -⟩ := hs
        exact absurd (fun c hc => hp c (List.mem_append_right _ hc))
          (not_isPlain (show '<' ∈ "<".toList by decide) rfl (by decide))
      · exact absurd h unexpected_ne_ok
  · cases (noType_eq_ok h).2.1

end Tokens

/-- A type that is read from name characters and colons is printed as it was written. -/
theorem Ty.render_of_parse {text : String} {scope : List String} {t : Ty}
    (hp : Tokens.IsPlain text.toList) (h : Ty.parse text scope = .ok t) : t.render = text := by
  have hno : ∀ d ∈ text.toList, d ≠ '\x00' ∧ isBlank d = false ∧ d ≠ '/' ∧ d ≠ '"' := by
    intro d hd
    rcases hp d hd with hname | rfl
    · have hne := Lexer.ne_of_isDelimiter (Lexer.isDelimiter_of_isNameChar hname)
      exact ⟨hne.2.2.2.2.2.2, hne.1, hne.2.2.2.1, hne.2.2.2.2.2.1⟩
    · decide
  have hs : (Tokens.ofText text .start).Spell text.toList := by
    rw [Tokens.ofText, Tokens.terminated_of_not_mem fun hd => (hno _ hd).1 rfl]
    exact Lexer.spell_scan fun d hd => (hno d hd).2
  obtain ⟨⟨found, rest⟩, htype, h⟩ := Tokens.bind_eq_ok.1 h
  cases found with
  | none => exact absurd h Tokens.unexpected_ne_ok
  | some u =>
    obtain ⟨_, hend, h⟩ := Tokens.bind_eq_ok.1 h
    cases h
    obtain ⟨ds, hds, htext⟩ := Tokens.spell_typeWithin hp hs htype
    unfold Tokens.endOfText at hend
    split at hend
    · obtain rfl : ds = [] := hds
      rw [List.append_nil] at htext
      exact (String.toList_inj.1 htext).symm
    · exact absurd hend Tokens.unexpected_ne_ok

end Bindery
