import Bindery.Proofs.Annotation.Passing

/-!
# Where annotations begin among tokens

An annotation begins with a macro name and an opening bracket, and then the token of its first
argument, with nothing but blanks between them. For the characters of tokens this is so just if it
is so for the tokens, and a macro name is passed over anywhere else.
-/
namespace Bindery
open Text Host

namespace Host

/-- Blanks between the tokens of an annotation. -/
def AreBlanks (ts : List Token) : Prop := ∀ t ∈ ts, t.isBlank = true

/-- The tokens of an annotation up to its arguments. -/
def IsOpening (m : Macro) (ts : List Token) : Prop :=
  ∃ b d, AreBlanks b ∧ AreBlanks d ∧ ts = .word m.name.toList :: (b ++ .mark '(' :: d)

/-- The tokens between two arguments. -/
def IsComma (ts : List Token) : Prop :=
  ∃ b d, AreBlanks b ∧ AreBlanks d ∧ ts = b ++ .mark ',' :: d

/-- The tokens of an annotation after its arguments. -/
def IsClosing (ts : List Token) : Prop := ∃ b, AreBlanks b ∧ ts = b ++ [.mark ')']

/-- The token that an annotation has after its opening bracket. -/
def Token.begins : Macro → Token → Bool
  | .inline, raw .plain _ _ _ => true
  | .included, quoted .plain quote _ _ => quote = '"'
  | _, _ => false

/-- Whether the arguments of an annotation begin. -/
def opens (m : Macro) (ts : List Token) : Bool :=
  match ts.dropWhile (·.isBlank) with
  | .mark '(' :: us => (us.dropWhile (·.isBlank)).head?.any (·.begins m)
  | _ => false

/-- Whether an annotation begins. -/
def isSite : List Token → Bool
  | .word name :: ts => (Macro.ofName? (String.ofList name)).any (opens · ts)
  | _ => false

/-- The places where annotations begin among some tokens after `front`, each with what is before it
and the tokens from it on. -/
def sites (front : List Char) : List Token → List (List Char × List Token)
  | [] => []
  | t :: ts => (if isSite (t :: ts) then [(front, t :: ts)] else []) ++ sites (front ++ t.spell) ts

/-! ### Blanks -/

variable {b d ts us : List Token} {t : Token} {cs ds es : List Char} {x : Char}

theorem areBlank_spell (h : AreBlanks b) : AreBlank (spell b) := by
  intro c hc
  obtain ⟨t, ht, hc⟩ := List.mem_flatMap.1 hc
  have hblank := h t ht
  cases t with
  | blank d => exact List.mem_singleton.1 hc ▸ hblank
  | _ => cases hblank

theorem exists_starts (h : ∀ t ∈ ts, t.IsProper) (hspell : spell ts = x :: cs) :
    ∃ t us, ts = t :: us ∧ t.IsProper ∧ t.Starts x := by
  cases ts with
  | nil => cases hspell
  | cons t us =>
    have ht := h t List.mem_cons_self
    exact ⟨t, us, rfl, ht, Token.starts_of_spell ht hspell⟩

theorem avoids_blank (h : ∀ t ∈ ts, t.IsProper) (hhead : ∀ t ∈ ts.head?, t.isBlank = false) :
    Avoids isBlank (spell ts) := by
  intro c hc
  obtain ⟨cs, hcs⟩ := List.head?_eq_some_iff.1 hc
  obtain ⟨t, us, rfl, ht, hstarts⟩ := exists_starts h hcs
  exact hstarts.not_blank ht (hhead t rfl)

/-- Tokens begin with some blanks. -/
theorem exists_blanks (h : ∀ t ∈ ts, t.IsProper) :
    ∃ b us, AreBlanks b ∧ ts = b ++ us ∧ Avoids isBlank (spell us) := by
  refine ⟨ts.takeWhile (·.isBlank), ts.dropWhile (·.isBlank), ?_, ?_, ?_⟩
  · exact List.all_eq_true.1 List.all_takeWhile
  · exact List.takeWhile_append_dropWhile.symm
  · refine avoids_blank (fun t ht => h t (List.dropWhile_subset _ ht)) fun t ht => ?_
    have hnot := List.head?_dropWhile_not (fun t : Token => t.isBlank) ts
    rw [Option.mem_def.1 ht] at hnot
    simpa using hnot

theorem dropWhile_blanks (hb : AreBlanks b) (ht : t.isBlank = false) :
    (b ++ t :: ts).dropWhile (·.isBlank) = t :: ts := by
  rw [List.dropWhile_append_of_pos hb, List.dropWhile_cons_of_neg (by simp [ht])]

theorem exists_eq_dropWhile (ts : List Token) :
    ∃ b, AreBlanks b ∧ ts = b ++ ts.dropWhile (·.isBlank) :=
  ⟨ts.takeWhile (·.isBlank), List.all_eq_true.1 List.all_takeWhile,
    List.takeWhile_append_dropWhile.symm⟩

theorem isBlank_of_begins {m : Macro} (h : t.begins m = true) : t.isBlank = false := by
  cases t with
  | blank => cases m <;> cases h
  | _ => rfl

theorem opens_iff {m : Macro} : opens m ts = true ↔ ∃ b d t us, AreBlanks b ∧ AreBlanks d ∧
    ts = b ++ .mark '(' :: (d ++ t :: us) ∧ t.begins m = true := by
  constructor
  · intro h
    unfold opens at h
    split at h
    · rename_i us hus
      obtain ⟨b, hb, hts⟩ := exists_eq_dropWhile ts
      obtain ⟨d, hd, hus'⟩ := exists_eq_dropWhile us
      obtain ⟨t, ht, hbegins⟩ := (Option.any_eq_true _ _).1 h
      obtain ⟨vs, hvs⟩ := List.head?_eq_some_iff.1 ht
      rw [hvs] at hus'
      exact ⟨b, d, _, vs, hb, hd, hts.trans (by rw [hus, hus']), hbegins⟩
    · cases h
  · rintro ⟨b, d, t, us, hb, hd, rfl, hbegins⟩
    unfold opens
    rw [dropWhile_blanks hb rfl]
    change ((d ++ t :: us).dropWhile (·.isBlank)).head?.any (·.begins m) = true
    rw [dropWhile_blanks hd (isBlank_of_begins hbegins)]
    exact hbegins

theorem isSite_iff : isSite ts = true ↔ ∃ (m : Macro) (opening : List Token) (t : Token)
    (us : List Token), IsOpening m opening ∧ ts = opening ++ t :: us ∧ t.begins m = true := by
  constructor
  · intro h
    unfold isSite at h
    split at h
    · rename_i name us
      cases hm : Macro.ofName? (String.ofList name) with
      | none =>
        rw [hm] at h
        cases h
      | some m =>
        rw [hm] at h
        obtain ⟨b, d, t, vs, hb, hd, rfl, hbegins⟩ := opens_iff.1 h
        refine ⟨m, _, t, vs, ⟨b, d, hb, hd, rfl⟩, ?_, hbegins⟩
        rw [← Macro.name_of_ofName? hm, String.toList_ofList]
        simp
    · cases h
  · rintro ⟨m, _, t, us, ⟨b, d, hb, hd, rfl⟩, rfl, hbegins⟩
    rw [List.cons_append, isSite, String.ofList_toList, Macro.ofName?_name]
    exact opens_iff.2 ⟨b, d, t, us, hb, hd, by simp, hbegins⟩

/-- Only a macro name begins an annotation. -/
theorem isSite_eq_false (h : ∀ m : Macro, t ≠ .word m.name.toList) : isSite (t :: ts) = false := by
  rw [← Bool.not_eq_true, isSite_iff]
  rintro ⟨m, _, _, _, ⟨b, d, _, _, rfl⟩, heq, _⟩
  exact h m (List.cons.inj heq).1

/-- Chars of blanks stand for tokens of blanks. -/
theorem blanks_inj (hb : AreBlank cs) (hds : Avoids isBlank ds) (hlexed : ∀ t ∈ ts, t.IsProper)
    (h : spell ts = cs ++ ds) : ∃ b us, AreBlanks b ∧ ts = b ++ us ∧ spell us = ds := by
  obtain ⟨b, us, hblanks, rfl, hus⟩ := exists_blanks hlexed
  refine ⟨b, us, hblanks, rfl, ?_⟩
  rw [spell_append] at h
  have htake := congrArg (List.takeWhile isBlank) h
  rw [takeWhile_append (areBlank_spell hblanks) hus, takeWhile_append hb hds] at htake
  rw [htake] at h
  exact List.append_cancel_left h

/-- The opening of a raw literal is one, and no word before a text in quotes. -/
theorem begins_inline (h : AreLexed (t :: us)) (hspell : spell (t :: us) = 'R' :: '"' :: cs) :
    t.begins .inline = true := by
  obtain ⟨ht, hstops, -⟩ := h
  have hstarts := Token.starts_of_spell ht hspell
  cases t with
  | blank d =>
    obtain rfl : 'R' = d := hstarts
    exact absurd ht Bool.false_ne_true
  | mark d =>
    obtain rfl : 'R' = d := hstarts
    exact absurd ht Bool.false_ne_true
  | lineComment | blockComment => simp [Token.Starts] at hstarts
  | quoted e quote body suffix =>
    cases e with
    | plain =>
      obtain rfl : 'R' = quote := hstarts
      simp [Token.IsProper] at ht
    | utf8 | utf16 | utf32 | wide => simp [Token.Starts] at hstarts
  | raw e delimiter body suffix =>
    cases e with
    | plain => rfl
    | utf8 | utf16 | utf32 | wide => simp [Token.Starts] at hstarts
  | word name =>
    cases name with
    | nil => exact absurd rfl ht.1
    | cons c name =>
      obtain ⟨rfl, hname⟩ := List.cons.inj hspell
      cases name with
      | nil =>
        have havoids := hstops.2.1 ⟨.plain, rfl⟩ '"'
        rw [show spell us = '"' :: cs from hname] at havoids
        simp at havoids
      | cons d name =>
        obtain ⟨rfl, -⟩ := List.cons.inj hname
        have hquote := ht.2.2 '"' (by simp)
        exact absurd hquote Bool.false_ne_true
  | number digits =>
    rcases hstarts with h | h
    · exact absurd h Bool.false_ne_true
    · simp at h

theorem begins_included (h : AreLexed (t :: us)) (hspell : spell (t :: us) = '"' :: cs) :
    t.begins .included = true := by
  obtain ⟨ht, -, -⟩ := h
  have hstarts := Token.starts_of_spell ht hspell
  cases t with
  | blank d =>
    obtain rfl : '"' = d := hstarts
    exact absurd ht Bool.false_ne_true
  | mark d =>
    obtain rfl : '"' = d := hstarts
    exact absurd ht Bool.false_ne_true
  | lineComment | blockComment => simp [Token.Starts] at hstarts
  | quoted e quote body suffix =>
    cases e with
    | plain => exact decide_eq_true (Eq.symm hstarts)
    | utf8 | utf16 | utf32 | wide => simp [Token.Starts] at hstarts
  | raw e delimiter body suffix => cases e <;> simp [Token.Starts] at hstarts
  | word name => exact absurd hstarts Bool.false_ne_true
  | number digits =>
    rcases hstarts with h | h
    · exact absurd h Bool.false_ne_true
    · simp at h

end Host

/-! ### Macro names -/

namespace Annotation
variable {src : Source} {front cs ds rest : List Char} {p : Position} {m : Macro}

theorem skipBlanks_append (hb : AreBlank cs) (h : Avoids isBlank ds) :
    (⟨p, cs ++ ds⟩ : Cursor).skipBlanks = ⟨p.after cs, ds⟩ :=
  Cursor.skipWhile_append hb h

theorem exists_blank_append (cs : List Char) :
    ∃ b ds, AreBlank b ∧ Avoids isBlank ds ∧ cs = b ++ ds := by
  refine ⟨cs.takeWhile isBlank, cs.dropWhile isBlank, List.all_eq_true.1 List.all_takeWhile,
    fun c hc => ?_, List.takeWhile_append_dropWhile.symm⟩
  have hnot := List.head?_dropWhile_not isBlank cs
  rw [Option.mem_def.1 hc] at hnot
  simpa using hnot

theorem skipBlanks_skipBlanks (c : Cursor) : c.skipBlanks.skipBlanks = c.skipBlanks := by
  obtain ⟨p, cs⟩ := c
  obtain ⟨b, ds, hb, hds, rfl⟩ := exists_blank_append cs
  have hnil : AreBlank [] := fun _ h => absurd h List.not_mem_nil
  rw [skipBlanks_append hb hds]
  exact skipBlanks_append hnil hds

theorem isNameChar_of_mem_name (m : Macro) : ∀ c ∈ m.name.toList, isNameChar c = true :=
  List.all_eq_true.1 (by cases m <;> rfl)

theorem step_macroName (hrest : Avoids isNameChar rest) :
    step src ⟨p, m.name.toList ++ rest⟩ = args src m p ⟨p.after m.name.toList, rest⟩ := by
  have hraw : ¬ IsRawPrefix m.name.toList := by
    rintro ⟨e, h⟩
    cases m <;> cases e <;> exact absurd h (by decide)
  rw [step_run (by cases m <;> decide) (isNameChar_of_mem_name m) hrest (fun h => absurd h hraw),
    String.ofList_toList, Macro.ofName?_name]

theorem args_bracket {q : Position} {b d : List Char} (hb : AreBlank b) (hd : AreBlank d)
    (hds : Avoids isBlank ds) : args src m q ⟨p, b ++ '(' :: (d ++ ds)⟩ =
      match m with
      | .inline => inlineArgs src q ⟨p.after (b ++ '(' :: d), ds⟩
      | .included => includedArgs src q ⟨p.after (b ++ '(' :: d), ds⟩ := by
  have hbracket : Avoids isBlank ('(' :: (d ++ ds)) := by
    rintro _ ⟨⟩
    rfl
  have hinside : ((⟨p.after b, '(' :: (d ++ ds)⟩ : Cursor).advance 1).skipBlanks =
      ⟨p.after (b ++ '(' :: d), ds⟩ := by
    change (⟨(p.after b).after ['('], d ++ ds⟩ : Cursor).skipBlanks = _
    rw [skipBlanks_append hd hds, Position.after_append]
    rfl
  unfold args
  dsimp only
  rw [skipBlanks_append hb hbracket, if_neg (by simp [Cursor.peek])]
  cases m <;> simp only [hinside]

/-- The characters that an annotation has after its opening bracket. -/
def Commits : Macro → List Char → Prop
  | .inline, ds => ['R', '"'] <+: ds
  | .included, ds => ['"'] <+: ds

/-- A macro name is passed over unless an annotation begins. -/
theorem isPassed_macroName (hrest : Avoids isNameChar rest)
    (h : ∀ b d ds, AreBlank b → AreBlank d → rest = b ++ '(' :: (d ++ ds) → ¬ Commits m ds) :
    IsPassed m.name.toList rest := by
  intro src p
  obtain ⟨b, rest₁, hb, hrest₁, rfl⟩ := exists_blank_append rest
  have hne : m.name.toList ++ (b ++ rest₁) ≠ [] := by cases m <;> simp [Macro.name]
  by_cases hopen : ∃ rest₂, rest₁ = '(' :: rest₂
  · obtain ⟨rest₂, rfl⟩ := hopen
    obtain ⟨d, ds, hd, hds, rfl⟩ := exists_blank_append rest₂
    have hnot := h b d ds hb hd rfl
    have hargs : args src m p ⟨p.after m.name.toList, b ++ '(' :: (d ++ ds)⟩ =
        .ok (none, ⟨(p.after m.name.toList).after (b ++ '(' :: d), ds⟩) := by
      rw [args_bracket hb hd hds]
      cases m with
      | inline =>
        have hraw : (⟨(p.after Macro.inline.name.toList).after (b ++ '(' :: d), ds⟩ : Cursor).atRawText ≠
            true := fun hat => hnot (List.isPrefixOf_iff_prefix.1 hat)
        exact if_pos (by simpa using hraw)
      | included =>
        refine if_pos fun hpeek => hnot ?_
        obtain ⟨es, hes⟩ := List.head?_eq_some_iff.1 hpeek
        exact ⟨es, hes.symm⟩
    rw [scan_of_ok hne ((step_macroName hrest).trans hargs)]
    have hone : IsPassed ['('] (d ++ ds) :=
      isPassed_other rfl (by decide) fun h => absurd h (by decide)
    have hpassed : IsPassed (b ++ '(' :: d) ds :=
      (isPassed_blanks hb).append (hone.append (isPassed_blanks hd))
    have hscan := hpassed src (p.after m.name.toList)
    rw [List.append_assoc] at hscan
    exact hscan.symm
  · have hargs : args src m p ⟨p.after m.name.toList, b ++ rest₁⟩ =
        .ok (none, ⟨(p.after m.name.toList).after b, rest₁⟩) := by
      unfold args
      dsimp only
      rw [skipBlanks_append hb hrest₁]
      refine if_pos fun hpeek => hopen ?_
      exact List.head?_eq_some_iff.1 hpeek
    rw [scan_of_ok hne ((step_macroName hrest).trans hargs)]
    exact (isPassed_blanks hb src (p.after m.name.toList)).symm

/-- Tokens whose characters begin an annotation begin it themselves. -/
theorem opens_of_commits {us : List Host.Token} {b d : List Char} (hlexed : AreLexed us)
    (hb : AreBlank b) (hd : AreBlank d) (hspell : spell us = b ++ '(' :: (d ++ ds))
    (hcommits : Commits m ds) : opens m us = true := by
  have hbracket : Avoids isBlank ('(' :: (d ++ ds)) := by
    rintro _ ⟨⟩
    rfl
  obtain ⟨bs, vs, hbs, rfl, hvs⟩ := blanks_inj hb hbracket hlexed.isProper hspell
  obtain ⟨t, ws, rfl, ht, hstarts⟩ := exists_starts hlexed.right.isProper hvs
  obtain rfl := hstarts.eq_mark ht (.inl rfl)
  have hds : Avoids isBlank ds := by
    cases m with
    | inline =>
      obtain ⟨es, rfl⟩ := hcommits
      rintro _ ⟨⟩
      rfl
    | included =>
      obtain ⟨es, rfl⟩ := hcommits
      rintro _ ⟨⟩
      rfl
  have hws : spell ws = d ++ ds := (List.cons.inj hvs).2
  have hlexed' : AreLexed ws := hlexed.right.2.2
  obtain ⟨bs', xs, hbs', rfl, hxs⟩ := blanks_inj hd hds hlexed'.isProper hws
  have hne : ∃ t ys, xs = t :: ys := by
    cases xs with
    | nil =>
      rw [← hxs] at hcommits
      cases m with
      | inline => exact absurd hcommits (by simp [Commits])
      | included => exact absurd hcommits (by simp [Commits])
    | cons t ys => exact ⟨t, ys, rfl⟩
  obtain ⟨t, ys, rfl⟩ := hne
  refine opens_iff.2 ⟨bs, bs', t, ys, hbs, hbs', rfl, ?_⟩
  cases m with
  | inline =>
    obtain ⟨es, rfl⟩ := hcommits
    exact begins_inline hlexed'.right hxs
  | included =>
    obtain ⟨es, rfl⟩ := hcommits
    exact begins_included hlexed'.right hxs

/-- Where no annotation begins, a token is passed over. -/
theorem isPassed_of_isSite {t : Host.Token} {us : List Host.Token} (h : AreLexed (t :: us))
    (hclear : t.IsClear) (hsite : isSite (t :: us) = false) : IsPassed t.spell (spell us) := by
  obtain ⟨ht, hstops, hus⟩ := h
  by_cases hname : ∃ m : Macro, t = .word m.name.toList
  · obtain ⟨m, rfl⟩ := hname
    refine isPassed_macroName (Avoids.mono hstops.1 fun c => isWordChar_of_isNameChar) ?_
    intro b d ds hb hd hspell hcommits
    have hopens := opens_of_commits hus hb hd hspell hcommits
    rw [isSite, String.ofList_toList, Macro.ofName?_name] at hsite
    exact Bool.false_ne_true (hsite.symm.trans hopens)
  · exact isPassed_token ht hclear hstops fun m h => hname ⟨m, h⟩

end Annotation
end Bindery
