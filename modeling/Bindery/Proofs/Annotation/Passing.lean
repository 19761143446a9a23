import Bindery.Annotation.Scan
import Bindery.Proofs.Annotation.Token

/-!
# Passing tail tokens

A scan passes tail the tokens of a host one by one, or piece by piece where it knows fewer
characters of words than there are: whatever it passes tail leaves the annotations of the rest as
they are. Only a macro name may begin an annotation.
-/
namespace Bindery
open Text Host

namespace Text
variable {q : Char → Bool} {cs rest body pattern : List Char} {x : Char}

theorem takeWhile_append (hcs : ∀ c ∈ cs, q c = true) (h : Avoids q rest) :
    (cs ++ rest).takeWhile q = cs := by
  rw [List.takeWhile_append_of_pos hcs]
  cases rest with
  | nil => simp
  | cons c rest => rw [List.takeWhile_cons, if_neg (by simp [h c rfl]), List.append_nil]

/-- A pattern whose first character is no other one of it is found where it first stands. -/
theorem before?_append (hx : x ∉ pattern) (h : ¬ (x :: pattern) <:+: body) :
    before? (x :: pattern) (body ++ (x :: pattern ++ rest)) = some body := by
  induction body with
  | nil => simp [before?]
  | cons c body ih =>
    have hfront : (x :: pattern).isPrefixOf (c :: (body ++ (x :: pattern ++ rest))) = false := by
      rw [← Bool.not_eq_true, List.isPrefixOf_iff_prefix]
      intro hfront
      have hbody : c :: body <+: c :: (body ++ (x :: pattern ++ rest)) :=
        List.prefix_append (c :: body) _
      rcases Nat.le_total (x :: pattern).length (c :: body).length with hle | hle
      · exact h (List.prefix_of_prefix_length_le hfront hbody hle).isInfix
      · -- a pattern that begins in the body and ends after it has its first character twice
        obtain ⟨tail, hover⟩ := List.prefix_of_prefix_length_le hbody hfront hle
        rw [← hover] at hfront
        have hover' := (List.prefix_append_right_inj (c :: body)).1 hfront
        cases tail with
        | nil => exact h (hover ▸ by simp)
        | cons y tail =>
          obtain rfl : y = c := (List.cons_prefix_cons.1 hover').1
          obtain ⟨rfl, hpattern⟩ := List.cons.inj hover
          exact hx (hpattern ▸ List.mem_append_right _ List.mem_cons_self)
    rw [List.cons_append, before?, if_neg (by rw [hfront]; exact Bool.false_ne_true),
      ih fun hin => h (hin.trans (List.suffix_cons _ _).isInfix)]
    rfl

/-- The value of an ordinary literal. -/
def unescape : List Char → List Char
  | '\\' :: c :: cs => c :: unescape cs
  | c :: cs => c :: unescape cs
  | [] => []

end Text

namespace Cursor
variable {q : Char → Bool} {p : Position} {c : Cursor} {cs rest body delimiter : List Char}
  {quote : Char}

theorem advance_append (p : Position) (cs rest : List Char) :
    (⟨p, cs ++ rest⟩ : Cursor).advance cs.length = ⟨p.after cs, rest⟩ := by
  simp [advance]

theorem skipWhile_append (hcs : ∀ c ∈ cs, q c = true) (h : Avoids q rest) :
    (⟨p, cs ++ rest⟩ : Cursor).skipWhile q = ⟨p.after cs, rest⟩ := by
  rw [skipWhile, takeWhile_append hcs h, advance_append]

theorem unescape_cons {x : Char} (hx : x ≠ '\\') : unescape (x :: cs) = x :: unescape cs :=
  unescape.eq_2 _ _ fun _ _ h => absurd h hx

theorem quotedFrom_append (hquote : quote ≠ '\\') (h : IsQuoted quote body) :
    quotedFrom quote (body ++ quote :: rest) = (unescape body, body.length + 1) := by
  induction h with
  | nil =>
    rw [List.nil_append, quotedFrom_cons hquote, if_pos (.inl rfl)]
    rfl
  | cons hc _ ih =>
    rw [List.cons_append, quotedFrom_cons hc.2.1, if_neg (by simp [hc.1, hc.2.2]), ih,
      unescape_cons hc.2.1]
    rfl
  | escape _ ih =>
    rw [List.cons_append, List.cons_append, quotedFrom, ih, unescape]
    rfl

theorem quoted_append (hquote : quote ≠ '\\') (h : IsQuoted quote body) :
    (⟨p, quote :: (body ++ quote :: rest)⟩ : Cursor).quoted quote =
      (unescape body, ⟨p.after (quote :: (body ++ [quote])), rest⟩) := by
  have hsplit : quote :: (body ++ quote :: rest) = quote :: (body ++ [quote]) ++ rest := by simp
  have hlength : body.length + 1 + 1 = (quote :: (body ++ [quote])).length := by simp
  unfold quoted
  dsimp only
  rw [List.tail_cons, quotedFrom_append hquote h, hlength, hsplit, advance_append]

/-- A raw literal is read as it is written. -/
theorem rawText?_append (hlength : delimiter.length ≤ 16)
    (hdelimiter : ∀ c ∈ delimiter, c ≠ '(' ∧ isBadDelimiter c = false)
    (hbody : ¬ rawClosing delimiter <:+: body) :
    (⟨p, rawOpening delimiter ++ (body ++ (rawClosing delimiter ++ rest))⟩ : Cursor).rawText? =
      some ⟨body, p.after (rawOpening delimiter),
        ⟨p.after (rawOpening delimiter ++ (body ++ rawClosing delimiter)), rest⟩⟩ := by
  have htake : (delimiter ++ '(' :: (body ++ (rawClosing delimiter ++ rest))).takeWhile (· ≠ '(') =
      delimiter := takeWhile_append (fun c hc => by simpa using (hdelimiter c hc).1) (by simp [Avoids])
  have hbefore : before? (')' :: delimiter ++ ['"']) (body ++ (rawClosing delimiter ++ rest)) =
      some body := by
    refine before?_append ?_ hbody
    intro hmem
    rcases List.mem_append.1 hmem with hmem | hmem
    · exact absurd (hdelimiter _ hmem).2 (by decide)
    · exact absurd (List.mem_singleton.1 hmem) (by decide)
  have hopened : (⟨p, rawOpening delimiter ++ (body ++ (rawClosing delimiter ++ rest))⟩ :
      Cursor).advance (delimiter.length + 3) =
        ⟨p.after (rawOpening delimiter), body ++ (rawClosing delimiter ++ rest)⟩ := by
    have hlen : delimiter.length + 3 = (rawOpening delimiter).length := by simp [rawOpening]
    rw [hlen, advance_append]
  have hinner : (rawOpening delimiter ++ (body ++ (rawClosing delimiter ++ rest))).drop 2 =
      delimiter ++ '(' :: (body ++ (rawClosing delimiter ++ rest)) := by simp [rawOpening]
  have hafter : (⟨p.after (rawOpening delimiter), body ++ (rawClosing delimiter ++ rest)⟩ :
      Cursor).advance (body.length + delimiter.length + 2) =
        ⟨p.after (rawOpening delimiter ++ (body ++ rawClosing delimiter)), rest⟩ := by
    have hlen : body.length + delimiter.length + 2 = (body ++ rawClosing delimiter).length := by
      simp [rawClosing]
      omega
    rw [hlen, ← List.append_assoc, advance_append, ← Position.after_append]
  unfold rawText?
  dsimp only
  rw [hinner, htake, if_neg, hopened]
  · dsimp only
    rw [hbefore]
    dsimp only
    rw [hafter]
  · simp only [List.length_append, List.length_cons, List.any_eq_true, not_or, not_exists, not_and]
    refine ⟨by omega, by omega, fun c hc => ?_⟩
    simp [(hdelimiter c hc).2]

end Cursor

theorem Macro.name_of_ofName? {m : Macro} {s : String} (h : ofName? s = some m) : s = m.name := by
  unfold ofName? at h
  split at h
  · cases h
    assumption
  · split at h
    · cases h
      assumption
    · cases h

namespace Annotation
variable {src : Source} {p : Position} {c : Cursor} {cs ds rest run body suffix : List Char}
  {x : Char}

/-! ### Single steps -/

/-- A raw literal begins with its encoding. -/
theorem encodingLength_eq {e : Encoding}
    (h : c.rest = e.spelling ++ 'R' :: '"' :: rest) : encodingLength c = e.spelling.length := by
  cases e <;> simp [encodingLength, Cursor.startsWith, h, Encoding.spelling]

theorem atRawText_iff : (c.advance (encodingLength c)).atRawText = true ↔
    ∃ (e : Encoding) (rest : List Char), c.rest = e.spelling ++ 'R' :: '"' :: rest := by
  constructor
  · intro h
    obtain ⟨rest, hrest⟩ := Cursor.startsWith_iff.1 h
    unfold encodingLength at hrest
    split at hrest
    · rename_i hstart
      obtain ⟨rest, h⟩ := Cursor.startsWith_iff.1 hstart
      exact ⟨.utf8, rest, h⟩
    · split at hrest
      · rename_i hstart
        rcases hstart with hstart | hstart | hstart
        · obtain ⟨rest, h⟩ := Cursor.startsWith_iff.1 hstart
          exact ⟨.utf16, rest, h⟩
        · obtain ⟨rest, h⟩ := Cursor.startsWith_iff.1 hstart
          exact ⟨.utf32, rest, h⟩
        · obtain ⟨rest, h⟩ := Cursor.startsWith_iff.1 hstart
          exact ⟨.wide, rest, h⟩
      · exact ⟨.plain, rest, hrest⟩
  · rintro ⟨e, rest, h⟩
    rw [encodingLength_eq h]
    refine Cursor.startsWith_iff.2 ⟨rest, ?_⟩
    rw [Cursor.advance_rest, h, List.drop_left]
    rfl

/-- At what is neither a comment nor a raw literal, the next character decides. -/
theorem step_of_peek (hpeek : c.peek = some x)
    (hslash : x = '/' → Avoids (fun c => c = '/' || c = '*') c.rest.tail)
    (hraw : ∀ (e : Encoding) (rest : List Char), c.rest ≠ e.spelling ++ 'R' :: '"' :: rest) :
    step src c =
      if x = '"' ∨ x = '\'' then .ok (none, (c.quoted x).2)
      else if !isNameChar x then .ok (none, c.advance 1)
      else
        match Macro.ofName? (String.ofList (c.rest.takeWhile isNameChar)) with
        | none => .ok (none, c.skipWhile isNameChar)
        | some m => args src m c.pos (c.skipWhile isNameChar) := by
  obtain ⟨rest, hrest⟩ := List.head?_eq_some_iff.1 hpeek
  have hcomment : ∀ y, y = '/' ∨ y = '*' → c.startsWith (String.ofList ['/', y]) ≠ true := by
    intro y hy hstart
    obtain ⟨rest', hrest'⟩ := Cursor.startsWith_iff.1 hstart
    rw [hrest, String.toList_ofList] at hrest'
    obtain ⟨rfl, rfl⟩ := List.cons.inj hrest'
    have := hslash rfl y (by rw [hrest]; rfl)
    rcases hy with rfl | rfl <;> simp at this
  have hnot : ¬ (c.advance (encodingLength c)).atRawText = true := by
    rw [atRawText_iff]
    rintro ⟨e, rest, h⟩
    exact hraw e rest h
  unfold step
  dsimp only
  rw [if_neg (hcomment '/' (.inl rfl)), if_neg (hcomment '*' (.inr rfl)), if_neg hnot]
  generalize c.peek = found at hpeek
  subst hpeek
  rfl

theorem step_other (hname : isNameChar x = false) (hquote : x ≠ '"' ∧ x ≠ '\'')
    (hslash : x = '/' → Avoids (fun c => c = '/' || c = '*') rest) :
    step src ⟨p, x :: rest⟩ = .ok (none, ⟨p.step x, rest⟩) := by
  have hraw : ∀ (e : Encoding) (rest' : List Char),
      (⟨p, x :: rest⟩ : Cursor).rest ≠ e.spelling ++ 'R' :: '"' :: rest' := by
    intro e rest' h
    have hx : isNameChar x = true := by
      cases e <;> exact (List.cons.inj h).1 ▸ by decide
    exact absurd hx (by simp [hname])
  rw [step_of_peek (c := ⟨p, x :: rest⟩) rfl hslash hraw, if_neg (by simp [hquote]),
    if_pos (by simp [hname])]
  rfl

/-- A run of name characters, unless it begins a raw literal. -/
theorem step_run (hne : run ≠ []) (hrun : ∀ c ∈ run, isNameChar c = true)
    (hrest : Avoids isNameChar rest) (hraw : IsRawPrefix run → Avoids (· = '"') rest) :
    step src ⟨p, run ++ rest⟩ =
      match Macro.ofName? (String.ofList run) with
      | none => .ok (none, ⟨p.after run, rest⟩)
      | some m => args src m p ⟨p.after run, rest⟩ := by
  obtain ⟨x, cs, rfl⟩ := List.exists_cons_of_ne_nil hne
  have hx : isNameChar x = true := hrun x List.mem_cons_self
  have hquote : ¬ (x = '"' ∨ x = '\'') := by
    rintro (rfl | rfl) <;> exact absurd hx (by decide)
  have hslash : x = '/' → Avoids (fun c => c = '/' || c = '*') (cs ++ rest) := by
    rintro rfl
    exact absurd hx (by decide)
  have hnotRaw : ∀ (e : Encoding) (rest' : List Char),
      (⟨p, x :: cs ++ rest⟩ : Cursor).rest ≠ e.spelling ++ 'R' :: '"' :: rest' := by
    intro e rest' h
    dsimp only at h
    rw [List.append_cons] at h
    have hspelling : ∀ c ∈ e.spelling ++ ['R'], isNameChar c = true :=
      List.all_eq_true.1 (by cases e <;> rfl)
    have htake := congrArg (List.takeWhile isNameChar) h
    have hquote : Avoids isNameChar ('"' :: rest') := by
      rintro _ ⟨⟩
      decide
    rw [takeWhile_append hrun hrest, takeWhile_append hspelling hquote] at htake
    rw [htake] at h
    have hquote := hraw ⟨e, htake⟩
    rw [List.append_cancel_left h] at hquote
    exact absurd (hquote '"' rfl) (by decide)
  rw [step_of_peek (c := ⟨p, x :: cs ++ rest⟩) rfl hslash hnotRaw, if_neg hquote, if_neg (by simp [hx]),
    takeWhile_append hrun hrest, Cursor.skipWhile_append hrun hrest]

theorem step_quoted {quote : Char} (hquote : quote = '"' ∨ quote = '\'')
    (h : IsQuoted quote body) : step src ⟨p, quote :: (body ++ quote :: rest)⟩ =
      .ok (none, ⟨p.after (quote :: (body ++ [quote])), rest⟩) := by
  have hslash : quote = '/' →
      Avoids (fun c => c = '/' || c = '*') (body ++ quote :: rest) := by
    rintro rfl
    exact absurd hquote (by decide)
  have hraw : ∀ (e : Encoding) (rest' : List Char),
      (⟨p, quote :: (body ++ quote :: rest)⟩ : Cursor).rest ≠ e.spelling ++ 'R' :: '"' :: rest' := by
    intro e rest' h
    have hname : isNameChar quote = true := by
      cases e <;> exact (List.cons.inj h).1 ▸ by decide
    rcases hquote with rfl | rfl <;> exact absurd hname (by decide)
  have hescape : quote ≠ '\\' := by
    rintro rfl
    exact absurd hquote (by decide)
  rw [step_of_peek (c := ⟨p, quote :: (body ++ quote :: rest)⟩) rfl hslash hraw, if_pos hquote,
    Cursor.quoted_append hescape h]

theorem step_lineComment (h : '\n' ∉ body) (hrest : Avoids (· ≠ '\n') rest) :
    step src ⟨p, '/' :: '/' :: body ++ rest⟩ = .ok (none, ⟨p.after ('/' :: '/' :: body), rest⟩) := by
  have hbody : ∀ c ∈ '/' :: '/' :: body, decide (c ≠ '\n') = true := by
    intro c hc
    rcases List.mem_cons.1 hc with rfl | hc
    · rfl
    · rcases List.mem_cons.1 hc with rfl | hc
      · rfl
      · exact decide_eq_true fun heq => h (heq ▸ hc)
  unfold step
  dsimp only
  rw [if_pos (by rfl), Cursor.skipWhile_append hbody hrest]

theorem step_blockComment (h : ¬ ['*', '/'] <:+: body) :
    step src ⟨p, '/' :: '*' :: (body ++ ['*', '/']) ++ rest⟩ =
      .ok (none, ⟨p.after ('/' :: '*' :: (body ++ ['*', '/'])), rest⟩) := by
  have hbefore : before? "*/".toList (('/' :: '*' :: (body ++ ['*', '/']) ++ rest).drop 2) =
      some body := by
    change before? ['*', '/'] (body ++ ['*', '/'] ++ rest) = _
    rw [List.append_assoc]
    exact before?_append (by decide) h
  have hlength : body.length + 4 = ('/' :: '*' :: (body ++ ['*', '/'])).length := by simp
  unfold step Cursor.skipBlockComment
  dsimp only
  rw [if_neg (by exact Bool.false_ne_true), if_pos (by rfl), hbefore]
  dsimp only
  rw [hlength, Cursor.advance_append]

theorem step_raw (e : Encoding) {delimiter : List Char} (hlength : delimiter.length ≤ 16)
    (hdelimiter : ∀ c ∈ delimiter, c ≠ '(' ∧ Cursor.isBadDelimiter c = false)
    (hbody : ¬ rawClosing delimiter <:+: body) :
    step src
        ⟨p, e.spelling ++ (rawOpening delimiter ++ (body ++ (rawClosing delimiter ++ rest)))⟩ =
      .ok (none, ⟨p.after (e.spelling ++ (rawOpening delimiter ++ (body ++ rawClosing delimiter))),
        rest⟩) := by
  generalize hc : (⟨p, e.spelling ++ (rawOpening delimiter ++ (body ++ (rawClosing delimiter ++
    rest)))⟩ : Cursor) = c
  have hrest : c.rest = e.spelling ++ 'R' :: '"' :: (delimiter ++ '(' :: (body ++
      (rawClosing delimiter ++ rest))) := by
    rw [← hc]
    simp [rawOpening]
  have hcomment : ∀ s, s = "//" ∨ s = "/*" → c.startsWith s ≠ true := by
    rintro s hs hstart
    obtain ⟨_, hstart⟩ := Cursor.startsWith_iff.1 hstart
    rw [hrest] at hstart
    rcases hs with rfl | rfl <;> cases e <;> exact absurd (List.cons.inj hstart).1 (by decide)
  have hadvance : c.advance (encodingLength c) =
      ⟨p.after e.spelling, rawOpening delimiter ++ (body ++ (rawClosing delimiter ++ rest))⟩ := by
    rw [encodingLength_eq hrest, ← hc, Cursor.advance_append]
  unfold step
  dsimp only
  rw [if_neg (hcomment "//" (.inl rfl)), if_neg (hcomment "/*" (.inr rfl)),
    if_pos (atRawText_iff.2 ⟨e, _, hrest⟩), hadvance,
    Cursor.rawText?_append hlength hdelimiter hbody, Position.after_append p]

/-! ### Stretches -/

/-- What a scan passes tail before some rest. -/
def IsPassed (cs rest : List Char) : Prop :=
  ∀ src p, scan src ⟨p, cs ++ rest⟩ = scan src ⟨p.after cs, rest⟩

theorem isPassed_nil : IsPassed [] rest := fun _ _ => rfl

theorem IsPassed.append (h : IsPassed cs (ds ++ rest)) (h' : IsPassed ds rest) :
    IsPassed (cs ++ ds) rest := by
  intro src p
  rw [List.append_assoc, h, h', Position.after_append]

theorem isPassed_of_step (hne : cs ≠ [])
    (h : ∀ src p, step src ⟨p, cs ++ rest⟩ = .ok (none, ⟨p.after cs, rest⟩)) :
    IsPassed cs rest := by
  intro src p
  rw [scan_of_ok (by simp [hne]) (h src p)]
  rfl

theorem isPassed_other (hname : isNameChar x = false) (hquote : x ≠ '"' ∧ x ≠ '\'')
    (hslash : x = '/' → Avoids (fun c => c = '/' || c = '*') rest) : IsPassed [x] rest :=
  isPassed_of_step (List.cons_ne_nil _ _) fun _ _ => step_other hname hquote hslash

theorem isPassed_run (hne : run ≠ []) (hrun : ∀ c ∈ run, isNameChar c = true)
    (hrest : Avoids isNameChar rest) (hraw : IsRawPrefix run → Avoids (· = '"') rest)
    (hplain : Macro.ofName? (String.ofList run) = none) : IsPassed run rest := by
  refine isPassed_of_step hne fun src p => ?_
  rw [step_run hne hrun hrest hraw, hplain]

theorem isPassed_quiet (h : IsQuiet cs) (hrest : cs ≠ [] → Avoids isNameChar rest) :
    IsPassed cs rest := by
  induction h with
  | nil => exact isPassed_nil
  | @other c cs hname hc _ ih =>
    have hone : IsPassed [c] (cs ++ rest) :=
      isPassed_other hname ⟨hc.1, hc.2.1⟩ fun h => absurd h hc.2.2
    exact hone.append (ih fun _ => hrest (List.cons_ne_nil _ _))
  | @run run cs hne hrun hend hplain hraw _ ih =>
    replace hrest := hrest (by simp [hne])
    have havoids : Avoids isNameChar (cs ++ rest) := by
      cases cs with
      | nil => exact hrest
      | cons => exact hend
    exact (isPassed_run hne hrun havoids (fun h => absurd h hraw) hplain).append
      (ih fun _ => hrest)

theorem isPassed_blanks (h : AreBlank cs) : IsPassed cs rest := by
  induction cs with
  | nil => exact isPassed_nil
  | cons c cs ih =>
    have hblank := h c List.mem_cons_self
    simp only [isBlank, Bool.or_eq_true, decide_eq_true_eq, or_assoc] at hblank
    have hone : IsPassed [c] (cs ++ rest) := by
      refine isPassed_other ?_ ?_ ?_
      · rcases hblank with rfl | rfl | rfl | rfl <;> rfl
      · rcases hblank with rfl | rfl | rfl | rfl <;> decide
      · rcases hblank with rfl | rfl | rfl | rfl <;> exact fun h => absurd h (by decide)
    exact hone.append (ih fun d hd => h d (List.mem_cons_of_mem _ hd))

/-! ### Tokens -/

theorem Avoids.mono {q q' : Char → Bool} (h : Avoids q' rest) (hq : ∀ c, q c = true → q' c = true) :
    Avoids q rest := by
  intro c hc
  rw [← Bool.not_eq_true]
  intro hqc
  exact Bool.false_ne_true ((h c hc).symm.trans (hq c hqc))

theorem isWordChar_of_isNameChar (h : isNameChar x = true) : isWordChar x = true := by
  simp [isWordChar, h]

theorem isPassed_suffix (h : IsQuiet suffix)
    (hstops : Avoids (fun c => isWordChar c && (suffix ≠ [] || !isDigit c)) rest) :
    IsPassed suffix rest := by
  refine isPassed_quiet h fun hne => Avoids.mono hstops fun c hc => ?_
  simp [isWordChar_of_isNameChar hc, hne]

theorem isPassed_encoding (e : Encoding) {quote : Char} (hquote : quote = '"' ∨ quote = '\'') :
    IsPassed e.spelling (quote :: rest) := by
  have havoids : Avoids isNameChar (quote :: rest) := by
    rintro _ ⟨⟩
    rcases hquote with rfl | rfl <;> decide
  have hraw : ¬ IsRawPrefix e.spelling := by
    rintro ⟨e', h⟩
    cases e <;> cases e' <;> exact absurd h (by decide)
  cases e with
  | plain => exact isPassed_nil
  | utf8 | utf16 | utf32 | wide =>
    exact isPassed_run (by decide) (List.all_eq_true.1 (by rfl)) havoids (fun h => absurd h hraw)
      (by decide)

/-- A token other than a macro name is passed tail, unless some part of it can be taken for another
token. -/
theorem isPassed_token {t : Host.Token} (ht : t.IsProper) (hclear : t.IsClear) (hstops : t.Stops rest)
    (hplain : ∀ m : Macro, t ≠ .word m.name.toList) : IsPassed t.spell rest := by
  cases t with
  | blank c =>
    have hc := Host.Token.eq_of_isSpace ht
    refine isPassed_other ?_ ⟨?_, ?_⟩ fun h => ?_
    · rcases hc with rfl | rfl | rfl | rfl | rfl | rfl <;> rfl
    · rcases hc with rfl | rfl | rfl | rfl | rfl | rfl <;> simp
    · rcases hc with rfl | rfl | rfl | rfl | rfl | rfl <;> simp
    · rcases hc with rfl | rfl | rfl | rfl | rfl | rfl <;> cases h
  | mark c =>
    simp only [Host.Token.IsProper, isMark, Bool.and_eq_true, decide_eq_true_eq,
      Bool.not_eq_true'] at ht
    obtain ⟨⟨⟨⟨⟨-, hword⟩, -⟩, hquote⟩, hquote'⟩, -⟩ := ht
    refine isPassed_other ?_ ⟨hquote, hquote'⟩ hstops.1
    rw [← Bool.not_eq_true]
    intro hname
    exact Bool.false_ne_true (hword.symm.trans (isWordChar_of_isNameChar hname))
  | lineComment body =>
    exact isPassed_of_step (List.cons_ne_nil _ _) fun _ _ => step_lineComment hclear hstops
  | blockComment body =>
    exact isPassed_of_step (List.cons_ne_nil _ _) fun _ _ => step_blockComment ht
  | quoted e quote body suffix =>
    obtain ⟨hquote, hbody, -⟩ := ht
    have hliteral : IsPassed (quote :: (body ++ [quote])) (suffix ++ rest) := by
      refine isPassed_of_step (List.cons_ne_nil _ _) fun src p => ?_
      refine (congrArg (step src) ?_).trans (step_quoted hquote hbody)
      simp
    have hpassed := (isPassed_encoding e hquote).append
      (hliteral.append (isPassed_suffix hclear hstops))
    simpa [Host.Token.spell] using hpassed
  | raw e delimiter body suffix =>
    obtain ⟨hlength, hdelimiter, hbody, -⟩ := ht
    have hliteral : IsPassed
        (e.spelling ++ (rawOpening delimiter ++ (body ++ rawClosing delimiter))) (suffix ++ rest) := by
      refine isPassed_of_step (by simp [rawOpening]) fun src p => ?_
      refine (congrArg (step src) ?_).trans (step_raw e hlength hdelimiter hbody)
      simp only [List.append_assoc]
    have hpassed := hliteral.append (isPassed_suffix hclear hstops)
    simpa [Host.Token.spell] using hpassed
  | word name =>
    have havoids : Avoids isNameChar rest :=
      Avoids.mono hstops.1 fun c => isWordChar_of_isNameChar
    rcases hclear with hchars | hquiet
    · refine isPassed_run ht.1 hchars havoids hstops.2.1 ?_
      cases hm : Macro.ofName? (String.ofList name) with
      | none => exact hm
      | some m =>
        refine absurd ?_ (hplain m)
        rw [← Macro.name_of_ofName? hm, String.toList_ofList]
    · exact isPassed_quiet hquiet fun _ => havoids
  | number digits =>
    refine isPassed_quiet hclear fun _ => Avoids.mono hstops.1 fun c hc => ?_
    simp [isWordChar_of_isNameChar hc]

end Annotation
end Bindery
