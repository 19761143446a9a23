import Bindery.Proofs.Annotation.Sites

/-!
# Annotations as tokens

An annotation is written as a unit of tokens: after its beginning stands the closing bracket, or
else, if it names a file, maybe a comma and the declarations. Where an annotation begins, a scan
finds the unit that is written there, or it fails.
-/
namespace Bindery
open Text Host

namespace Annotation
variable (src : Source) (front : List Char)

/-- Where a text ends that begins with the host. -/
def ends (text : List Char) : Position := Position.start.after text

/-- The tokens of an annotation after `front`, and what it is. -/
inductive IsUnit : List Host.Token → Annotation → Prop
  | inline {opening closing : List Host.Token} {delimiter body : List Char} {a : Annotation}
      (hopening : IsOpening .inline opening) (hclosing : IsClosing closing)
      (ha : ofFragment src (ends front) body
        (ends (front ++ (spell opening ++ rawOpening delimiter))).line = .ok a) :
      IsUnit (opening ++ .raw .plain delimiter body [] :: closing) a
  | included {opening closing : List Host.Token} {path : List Char} {file : Path}
      (hopening : IsOpening .included opening) (hclosing : IsClosing closing)
      (hfile : src.include? (String.ofList (unescape path)) = some file) :
      IsUnit (opening ++ .quoted .plain '"' path [] :: closing)
        { host := src.host, line := (ends front).line, file := some file }
  | declared {opening comma closing : List Host.Token} {path delimiter body : List Char}
      {file : Path} {ds : Declarations}
      (hopening : IsOpening .included opening) (hcomma : IsComma comma)
      (hclosing : IsClosing closing)
      (hfile : src.include? (String.ofList (unescape path)) = some file)
      (hparse : parse src body (ends (front ++ (spell (opening ++
        .quoted .plain '"' path [] :: comma) ++ rawOpening delimiter))) = .ok ds) :
      IsUnit (opening ++ .quoted .plain '"' path [] ::
          (comma ++ .raw .plain delimiter body [] :: closing))
        { host := src.host, line := (ends front).line, file := some file, decls := ds }

variable {src front} {rest delimiter body suffix path : List Char} {m : Macro} {q : Position}
  {us vs : List Host.Token} {t : Host.Token} {a : Annotation} {c' : Cursor}

theorem ends_append (cs ds : List Char) : ends (cs ++ ds) = (ends cs).after ds :=
  Position.after_append _ _ _

/-- Up to its arguments, an annotation is read as its tokens stand. -/
theorem step_opening {opening : List Host.Token} (hlexed : AreLexed (opening ++ t :: us))
    (hopening : IsOpening m opening) (ht : t.isBlank = false) :
    step src ⟨q, spell (opening ++ t :: us)⟩ =
      match m with
      | .inline => inlineArgs src q ⟨q.after (spell opening), spell (t :: us)⟩
      | .included => includedArgs src q ⟨q.after (spell opening), spell (t :: us)⟩ := by
  obtain ⟨b, d, hb, hd, rfl⟩ := hopening
  have hspell : spell (.word m.name.toList :: (b ++ .mark '(' :: d) ++ t :: us) =
      m.name.toList ++ (spell b ++ '(' :: (spell d ++ spell (t :: us))) := by
    simp [Host.Token.spell]
  have hword : AreLexed (.word m.name.toList :: ((b ++ .mark '(' :: d) ++ t :: us)) := hlexed
  have hrest : Avoids isNameChar (spell b ++ '(' :: (spell d ++ spell (t :: us))) := by
    have hstops := hword.2.1.1
    simp only [spell_append, spell_cons, Host.Token.spell, List.append_assoc] at hstops
    exact Avoids.mono hstops fun c => isWordChar_of_isNameChar
  have hinside : Avoids isBlank (spell (t :: us)) := by
    refine avoids_blank hlexed.right.isProper ?_
    rintro _ ⟨⟩
    exact ht
  rw [hspell, step_macroName hrest, args_bracket (areBlank_spell hb) (areBlank_spell hd) hinside]
  have hpos : q.after (spell (.word m.name.toList :: (b ++ .mark '(' :: d))) =
      (q.after m.name.toList).after (spell b ++ '(' :: spell d) := by
    rw [← Position.after_append]
    simp [Host.Token.spell]
  rw [hpos]
  cases m <;> rfl

theorem skipBlanks_spell {b : List Host.Token} (hb : AreBlanks b)
    (hus : Avoids isBlank (spell us)) :
    (⟨q, spell (b ++ us)⟩ : Cursor).skipBlanks = ⟨q.after (spell b), spell us⟩ := by
  rw [spell_append, skipBlanks_append (areBlank_spell hb) hus]

theorem avoids_mark {c : Char} (hc : isBlank c = false) :
    Avoids isBlank (spell (.mark c :: us)) := by
  rintro _ ⟨⟩
  exact hc

theorem closing_skipBlanks (c : Cursor) : closing src m c.skipBlanks = closing src m c := by
  unfold closing
  rw [skipBlanks_skipBlanks]

theorem peek_of_closing {c : Cursor} (h : closing src m c = .ok c') :
    c.skipBlanks.peek = some ')' := by
  unfold closing at h
  split at h
  · assumption
  · cases h

theorem closing_append (src : Source) (m : Macro) (h : IsClosing us) :
    closing src m ⟨q, spell (us ++ vs)⟩ = .ok ⟨q.after (spell us), spell vs⟩ := by
  obtain ⟨b, hb, rfl⟩ := h
  unfold closing
  rw [List.append_assoc, List.singleton_append, skipBlanks_spell hb (avoids_mark rfl),
    if_pos (by rfl), spell_append, Position.after_append]
  rfl

theorem isClosing_of_closing (hlexed : AreLexed us)
    (h : closing src m ⟨q, spell us⟩ = .ok c') :
    ∃ e vs, IsClosing e ∧ us = e ++ vs ∧ c' = ⟨q.after (spell e), spell vs⟩ := by
  obtain ⟨b, ws, hb, rfl, hws⟩ := exists_blanks hlexed.isProper
  have hclosing := h
  unfold closing at h
  rw [skipBlanks_spell hb hws] at h
  split at h
  · rename_i hpeek
    obtain ⟨cs, hcs⟩ := List.head?_eq_some_iff.1 hpeek
    obtain ⟨t, vs, rfl, ht, hstarts⟩ := exists_starts hlexed.right.isProper hcs
    obtain rfl := hstarts.eq_mark ht (.inr (.inl rfl))
    have hall : IsClosing (b ++ [.mark ')']) := ⟨b, hb, rfl⟩
    have hsplit : b ++ .mark ')' :: vs = b ++ [.mark ')'] ++ vs := by simp
    refine ⟨_, vs, hall, hsplit, ?_⟩
    rw [hsplit, closing_append src m hall] at hclosing
    exact (Except.ok.inj hclosing).symm
  · cases h

/-- The suffix of a literal is neither blank nor a mark. -/
theorem peek_suffix (hne : suffix ≠ []) (hword : ∀ c ∈ suffix, isWordChar c = true) :
    (⟨q, suffix ++ rest⟩ : Cursor).skipBlanks = ⟨q, suffix ++ rest⟩ ∧
      ∃ c, (⟨q, suffix ++ rest⟩ : Cursor).peek = some c ∧ isWordChar c = true := by
  obtain ⟨c, cs, rfl⟩ := List.exists_cons_of_ne_nil hne
  have hc := hword c List.mem_cons_self
  have hblanks : AreBlank [] := fun _ h => absurd h List.not_mem_nil
  refine ⟨skipBlanks_append hblanks ?_, c, rfl, hc⟩
  rintro _ ⟨⟩
  exact Host.Token.isBlank_eq_false hc

theorem closing_suffix (hne : suffix ≠ []) (hword : ∀ c ∈ suffix, isWordChar c = true) :
    closing src m ⟨q, suffix ++ rest⟩ ≠ .ok c' := by
  obtain ⟨hskip, c, hpeek, hc⟩ := @peek_suffix rest suffix q hne hword
  intro h
  have hclosed := peek_of_closing h
  rw [hskip, hpeek] at hclosed
  obtain rfl : c = ')' := Option.some.inj hclosed
  exact Bool.false_ne_true hc

theorem includedDecls_suffix (hne : suffix ≠ []) (hword : ∀ c ∈ suffix, isWordChar c = true) :
    includedDecls src (⟨q, suffix ++ rest⟩ : Cursor).skipBlanks =
      .ok ({}, ⟨q, suffix ++ rest⟩) := by
  obtain ⟨hskip, c, hpeek, hc⟩ := @peek_suffix rest suffix q hne hword
  rw [hskip]
  refine if_pos fun hcomma => ?_
  obtain rfl : c = ',' := Option.some.inj (hpeek.symm.trans hcomma)
  exact Bool.false_ne_true hc

theorem inlineArgs_raw (ht : (Host.Token.raw .plain delimiter body suffix).IsProper) :
    inlineArgs src q ⟨ends front, spell (.raw .plain delimiter body suffix :: us)⟩ =
      (ofFragment src q body (ends (front ++ rawOpening delimiter)).line).bind fun a =>
        (closing src .inline ⟨ends (front ++ spell [.raw .plain delimiter body []]),
          suffix ++ spell us⟩).bind fun c => .ok (some a, c) := by
  obtain ⟨hlength, hdelimiter, hbody, -⟩ := ht
  have hspell : spell (.raw .plain delimiter body suffix :: us) =
      rawOpening delimiter ++ (body ++ (rawClosing delimiter ++ (suffix ++ spell us))) := by
    simp [Host.Token.spell, Encoding.spelling]
  have hliteral : spell [.raw .plain delimiter body []] =
      rawOpening delimiter ++ (body ++ rawClosing delimiter) := by
    simp [Host.Token.spell, Encoding.spelling]
  unfold inlineArgs
  rw [hspell, hliteral, if_neg (by simp [Cursor.atRawText, Cursor.startsWith, rawOpening]),
    Cursor.rawText?_append hlength hdelimiter hbody, ends_append, ends_append]
  rfl

theorem includedDecls_of_peek {c : Cursor} (h : c.peek = some ')') :
    includedDecls src c = .ok ({}, c) :=
  if_pos (by simp [h])

/-- The declarations of an included file, with a raw literal or without one. -/
theorem includedDecls_append {comma : List Host.Token} (hcomma : IsComma comma)
    (ht : (Host.Token.raw .plain delimiter body suffix).IsProper) :
    includedDecls src (⟨ends front,
        spell (comma ++ .raw .plain delimiter body suffix :: us)⟩ : Cursor).skipBlanks =
      (parse src body (ends (front ++ (spell comma ++ rawOpening delimiter)))).bind fun ds =>
        .ok (ds, ⟨ends (front ++ spell (comma ++ [.raw .plain delimiter body []])),
          suffix ++ spell us⟩) := by
  obtain ⟨b, d, hb, hd, rfl⟩ := hcomma
  obtain ⟨hlength, hdelimiter, hbody, -⟩ := ht
  have hspell : spell (.raw .plain delimiter body suffix :: us) =
      rawOpening delimiter ++ (body ++ (rawClosing delimiter ++ (suffix ++ spell us))) := by
    simp [Host.Token.spell, Encoding.spelling]
  have hinside : Avoids isBlank (spell (.raw .plain delimiter body suffix :: us)) := by
    rw [hspell]
    rintro _ ⟨⟩
    rfl
  have hskip : ((⟨(ends front).after (spell b), spell (.mark ',' :: (d ++
      .raw .plain delimiter body suffix :: us))⟩ : Cursor).advance 1).skipBlanks =
        ⟨ends (front ++ spell (b ++ .mark ',' :: d)),
          spell (.raw .plain delimiter body suffix :: us)⟩ := by
    change (⟨((ends front).after (spell b)).after [','], spell (d ++ _)⟩ : Cursor).skipBlanks = _
    rw [skipBlanks_spell hd hinside]
    simp [ends, Position.after_append, Host.Token.spell]
  unfold includedDecls
  rw [List.append_assoc, List.cons_append, skipBlanks_spell hb (avoids_mark rfl),
    if_neg (by simp [Cursor.peek, Host.Token.spell])]
  dsimp only
  rw [hskip, hspell, if_neg (by simp [Cursor.atRawText, Cursor.startsWith, rawOpening]),
    Cursor.rawText?_append hlength hdelimiter hbody, ← ends_append, ← ends_append]
  simp only [spell_append, spell_cons, spell_nil, Host.Token.spell, Encoding.spelling,
    List.append_assoc, List.cons_append, List.nil_append, List.append_nil]
  rfl

theorem includedArgs_quoted (ht : (Host.Token.quoted .plain '"' path suffix).IsProper) :
    includedArgs src q ⟨ends front, spell (.quoted .plain '"' path suffix :: us)⟩ =
      match src.include? (String.ofList (unescape path)) with
      | none => fault src (ends front) (.unresolvedInclude (String.ofList (unescape path)))
      | some file =>
        (includedDecls src (⟨ends (front ++ spell [.quoted .plain '"' path []]),
          suffix ++ spell us⟩ : Cursor).skipBlanks).bind fun r =>
            (closing src .included r.2).bind fun c =>
              .ok (some { host := src.host, line := q.line, file := some file, decls := r.1 }, c) := by
  obtain ⟨-, hpath, -⟩ := ht
  have hspell : spell (.quoted .plain '"' path suffix :: us) =
      '"' :: (path ++ '"' :: (suffix ++ spell us)) := by
    simp [Host.Token.spell, Encoding.spelling]
  have hliteral : spell [.quoted .plain '"' path []] = '"' :: (path ++ ['"']) := by
    simp [Host.Token.spell, Encoding.spelling]
  unfold includedArgs
  dsimp only
  rw [hspell, hliteral, if_neg (by simp [Cursor.peek]), Cursor.quoted_append (by decide) hpath,
    ends_append]
  rfl

/-- A unit is read as it is written. -/
theorem step_of_isUnit {written rest : List Host.Token} (hlexed : AreLexed (written ++ rest))
    (h : IsUnit src front written a) : step src ⟨ends front, spell (written ++ rest)⟩ =
      .ok (some a, ⟨ends (front ++ spell written), spell rest⟩) := by
  cases h with
  | @inline opening last delimiter body a hopening hclosing ha =>
    rw [List.append_assoc, List.cons_append] at hlexed ⊢
    have ht := hlexed.isProper _ (by simp : Host.Token.raw .plain delimiter body [] ∈ _)
    rw [step_opening hlexed hopening rfl]
    dsimp only
    rw [← ends_append, inlineArgs_raw ht, List.append_assoc, ha]
    change (closing src .inline ⟨_, spell (last ++ rest)⟩).bind _ = _
    rw [closing_append src .inline hclosing, ← ends_append]
    simp only [spell_append, spell_cons, spell_nil, List.append_assoc, List.append_nil]
    rfl
  | @included opening last path file hopening hclosing hfile =>
    rw [List.append_assoc, List.cons_append] at hlexed ⊢
    have ht := hlexed.isProper _ (by simp : Host.Token.quoted .plain '"' path [] ∈ _)
    rw [step_opening hlexed hopening rfl]
    dsimp only
    rw [← ends_append, includedArgs_quoted ht, hfile]
    dsimp only
    rw [List.nil_append,
      includedDecls_of_peek (peek_of_closing (closing_append src .included hclosing))]
    change (closing src .included _).bind _ = _
    rw [closing_skipBlanks, closing_append src .included hclosing, ← ends_append]
    simp only [spell_append, spell_cons, spell_nil, List.append_assoc, List.append_nil]
    rfl
  | @declared opening comma last path delimiter body file ds hopening hcomma hclosing hfile hparse =>
    simp only [List.append_assoc, List.cons_append] at hlexed ⊢
    have hproper := hlexed.isProper
    have hquoted := hproper (.quoted .plain '"' path []) (by simp)
    have hraw := hproper (.raw .plain delimiter body []) (by simp)
    rw [step_opening hlexed hopening rfl]
    dsimp only
    rw [← ends_append, includedArgs_quoted hquoted, hfile]
    dsimp only
    rw [List.nil_append, includedDecls_append hcomma hraw]
    simp only [spell_append, spell_cons, spell_nil, List.append_assoc, List.append_nil,
      List.nil_append] at hparse ⊢
    rw [hparse]
    change (closing src .included ⟨_, spell last ++ spell rest⟩).bind _ = _
    rw [← spell_append, closing_append src .included hclosing, ← ends_append]
    simp only [List.append_assoc]
    rfl

/-- Declarations are read after a comma only, and then from a raw literal. -/
theorem exists_comma_of_includedDecls {r : Declarations × Cursor} (hlexed : AreLexed us)
    (h : includedDecls src (⟨ends front, spell us⟩ : Cursor).skipBlanks = .ok r) :
    r = ({}, (⟨ends front, spell us⟩ : Cursor).skipBlanks) ∨
      ∃ comma delimiter body suffix vs, IsComma comma ∧
        us = comma ++ .raw .plain delimiter body suffix :: vs := by
  obtain ⟨b, ws, hb, rfl, hws⟩ := exists_blanks hlexed.isProper
  by_cases hpeek : (⟨ends front, spell (b ++ ws)⟩ : Cursor).skipBlanks.peek = some ','
  · refine .inr ?_
    rw [skipBlanks_spell hb hws] at h hpeek
    obtain ⟨cs, hcs⟩ := List.head?_eq_some_iff.1 hpeek
    obtain ⟨t, vs, rfl, ht, hstarts⟩ := exists_starts hlexed.right.isProper hcs
    obtain rfl := hstarts.eq_mark ht (.inr (.inr rfl))
    have hlexed' : AreLexed vs := hlexed.right.2.2
    obtain ⟨d, xs, hd, rfl, hxs⟩ := exists_blanks hlexed'.isProper
    have hadvance : (⟨(ends front).after (spell b), spell (.mark ',' :: (d ++ xs))⟩ :
        Cursor).advance 1 = ⟨((ends front).after (spell b)).after [','], spell (d ++ xs)⟩ := rfl
    unfold includedDecls at h
    rw [if_neg (not_not_intro hpeek)] at h
    dsimp only at h
    rw [hadvance, skipBlanks_spell hd hxs] at h
    split at h
    · cases h
    · rename_i hraw
      have hraw : ['R', '"'] <+: spell xs := by
        simpa [Cursor.atRawText, Cursor.startsWith] using hraw
      obtain ⟨es, hes⟩ := hraw
      obtain ⟨t, ys, rfl, -, -⟩ := exists_starts hlexed'.right.isProper hes.symm
      have hbegins := begins_inline hlexed'.right hes.symm
      cases t with
      | raw e delimiter body suffix =>
        cases e with
        | plain => exact ⟨_, delimiter, body, suffix, ys, ⟨b, d, hb, hd, rfl⟩, by simp⟩
        | _ => cases hbegins
      | _ => cases hbegins
  · refine .inl ?_
    rw [includedDecls, if_pos hpeek] at h
    exact (Except.ok.inj h).symm

/-- What a step at tokens has found: a unit that some of them are. -/
def IsFound (src : Source) (front : List Char) (ts : List Host.Token)
    (r : Option Annotation × Cursor) : Prop :=
  ∃ written rest a, ts = written ++ rest ∧ IsUnit src front written a ∧
    r = (some a, ⟨ends (front ++ spell written), spell rest⟩)

variable {opening : List Host.Token} {r : Option Annotation × Cursor}

theorem isFound_of_inlineArgs (hopening : IsOpening .inline opening)
    (hlexed : AreLexed (.raw .plain delimiter body suffix :: us))
    (h : inlineArgs src (ends front) ⟨ends (front ++ spell opening),
      spell (.raw .plain delimiter body suffix :: us)⟩ = .ok r) :
    IsFound src front (opening ++ .raw .plain delimiter body suffix :: us) r := by
  obtain ⟨ht, -, hus⟩ := hlexed
  rw [inlineArgs_raw ht] at h
  obtain ⟨a, ha, h⟩ := Tokens.bind_eq_ok.1 h
  obtain ⟨c₁, hclose, h⟩ := Tokens.bind_eq_ok.1 h
  cases h
  by_cases hsuffix : suffix = []
  · subst hsuffix
    obtain ⟨last, vs, hlast, rfl, rfl⟩ := isClosing_of_closing hus hclose
    rw [List.append_assoc] at ha
    refine ⟨_, vs, a, ?_, .inline hopening hlast ha, ?_⟩
    · simp
    · rw [← ends_append]
      simp
  · exact absurd hclose (closing_suffix hsuffix ht.2.2.2.2)

theorem isFound_of_includedArgs (hopening : IsOpening .included opening)
    (hlexed : AreLexed (.quoted .plain '"' path suffix :: us))
    (h : includedArgs src (ends front) ⟨ends (front ++ spell opening),
      spell (.quoted .plain '"' path suffix :: us)⟩ = .ok r) :
    IsFound src front (opening ++ .quoted .plain '"' path suffix :: us) r := by
  obtain ⟨ht, -, hus⟩ := hlexed
  rw [includedArgs_quoted ht] at h
  cases hfile : src.include? (String.ofList (unescape path)) with
  | none =>
    rw [hfile] at h
    cases h
  | some file =>
    rw [hfile] at h
    obtain ⟨declared, hdeclared, h⟩ := Tokens.bind_eq_ok.1 h
    obtain ⟨c₁, hclose, h⟩ := Tokens.bind_eq_ok.1 h
    cases h
    by_cases hsuffix : suffix = []
    · subst hsuffix
      rw [List.nil_append] at hdeclared
      rcases exists_comma_of_includedDecls hus hdeclared with
        rfl | ⟨comma, delimiter, body, suffix, vs, hcomma, rfl⟩
      · rw [closing_skipBlanks] at hclose
        obtain ⟨last, vs, hlast, rfl, rfl⟩ := isClosing_of_closing hus hclose
        refine ⟨_, vs, _, ?_, .included hopening hlast hfile, ?_⟩
        · simp
        · rw [← ends_append]
          simp
      · have hraw := hus.isProper (.raw .plain delimiter body suffix) (by simp)
        rw [includedDecls_append hcomma hraw] at hdeclared
        obtain ⟨ds, hparse, hdeclared⟩ := Tokens.bind_eq_ok.1 hdeclared
        cases hdeclared
        by_cases hsuffix : suffix = []
        · subst hsuffix
          have hvs : AreLexed vs := hus.right.2.2
          obtain ⟨last, xs, hlast, rfl, rfl⟩ := isClosing_of_closing hvs hclose
          have hread : parse src body (ends (front ++ (spell (opening ++
              .quoted .plain '"' path [] :: comma) ++ rawOpening delimiter))) = .ok ds := by
            rw [← hparse]
            simp
          refine ⟨_, xs, _, ?_, .declared hopening hcomma hlast hfile hread, ?_⟩
          · simp
          · rw [← ends_append]
            simp
        · exact absurd hclose (closing_suffix hsuffix hraw.2.2.2.2)
    · rw [includedDecls_suffix hsuffix ht.2.2.2] at hdeclared
      cases hdeclared
      exact absurd hclose (closing_suffix hsuffix ht.2.2.2)

/-- Where an annotation begins, it is written out, or else the scan fails. -/
theorem isFound_of_step {ts : List Host.Token} (hlexed : AreLexed ts) (hsite : isSite ts = true)
    (h : step src ⟨ends front, spell ts⟩ = .ok r) : IsFound src front ts r := by
  obtain ⟨m, opening, t, us, hopening, rfl, hbegins⟩ := isSite_iff.1 hsite
  rw [step_opening hlexed hopening (isBlank_of_begins hbegins)] at h
  cases m with
  | inline =>
    cases t with
    | raw e delimiter body suffix =>
      cases e with
      | plain =>
        dsimp only at h
        rw [← ends_append] at h
        exact isFound_of_inlineArgs hopening hlexed.right h
      | _ => cases hbegins
    | _ => cases hbegins
  | included =>
    cases t with
    | quoted e quote path suffix =>
      cases e with
      | plain =>
        obtain rfl : quote = '"' := of_decide_eq_true hbegins
        dsimp only at h
        rw [← ends_append] at h
        exact isFound_of_includedArgs hopening hlexed.right h
      | _ => cases hbegins
    | _ => cases hbegins

end Annotation
end Bindery
