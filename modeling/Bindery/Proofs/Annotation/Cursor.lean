import Bindery.Annotation.Cursor

/-!
# Where a cursor moves

Every reader moves a cursor over a stretch of the text, and the position of the cursor moves with
it. What the stretch looks like is known for blanks, for ordinary literals and for raw ones.
-/
namespace Bindery
open Text

namespace Text
variable {pattern front cs : List Char}

def AreBlank (cs : List Char) : Prop := ∀ c ∈ cs, isBlank c = true

/-- A text that goes on after all that is not a character goes on with this character. -/
theorem exists_eq_takeWhile_append {x : Char} (h : (cs.takeWhile (· ≠ x)).length ≠ cs.length) :
    ∃ rest, cs = cs.takeWhile (· ≠ x) ++ x :: rest := by
  induction cs with
  | nil => exact absurd rfl h
  | cons c cs ih =>
    by_cases hc : c = x
    · exact ⟨cs, by simp [hc]⟩
    · have htake : (c :: cs).takeWhile (· ≠ x) = c :: cs.takeWhile (· ≠ x) := by simp [hc]
      rw [htake] at h ⊢
      obtain ⟨rest, hrest⟩ := ih fun hlen => h (congrArg (· + 1) hlen)
      exact ⟨rest, congrArg (c :: ·) hrest⟩

theorem before?_eq_some (h : before? pattern cs = some front) :
    ∃ rest, cs = front ++ (pattern ++ rest) := by
  induction cs generalizing front with
  | nil =>
    rw [before?] at h
    split at h <;> cases h
    rename_i hpattern
    exact ⟨[], by simp [hpattern]⟩
  | cons c cs ih =>
    rw [before?] at h
    split at h
    · rename_i hpattern
      cases h
      obtain ⟨rest, hrest⟩ := List.isPrefixOf_iff_prefix.1 hpattern
      exact ⟨rest, hrest.symm⟩
    · obtain ⟨front, hfront, rfl⟩ := Option.map_eq_some_iff.1 h
      obtain ⟨rest, hrest⟩ := ih hfront
      exact ⟨rest, by rw [hrest]; rfl⟩

end Text

/-- What stands before the body of a raw literal. -/
def rawOpening (delimiter : List Char) : List Char := 'R' :: '"' :: delimiter ++ ['(']

/-- What stands after the body of a raw literal. -/
def rawClosing (delimiter : List Char) : List Char := ')' :: delimiter ++ ['"']

namespace Cursor
variable {c c₁ c₂ : Cursor} {cs ds : List Char}

/-- The cursor moves over a stretch of the text. -/
structure Passes (c : Cursor) (cs : List Char) (c' : Cursor) : Prop where
  rest : c.rest = cs ++ c'.rest
  pos : c'.pos = c.pos.after cs

namespace Passes

theorem refl : c.Passes [] c := ⟨rfl, rfl⟩

theorem trans (h₁ : c.Passes cs c₁) (h₂ : c₁.Passes ds c₂) : c.Passes (cs ++ ds) c₂ where
  rest := by rw [h₁.rest, h₂.rest, List.append_assoc]
  pos := by rw [h₂.pos, h₁.pos, Position.after_append]

/-- The position as counted from the beginning of the text. -/
theorem after {front : List Char} (h : c.Passes cs c₁) (hc : c.pos = Position.start.after front) :
    c₁.pos = Position.start.after (front ++ cs) := by
  rw [h.pos, hc, Position.after_append]

end Passes

theorem passes_advance (n : Nat) : c.Passes (c.rest.take n) (c.advance n) :=
  ⟨(List.take_append_drop n c.rest).symm, rfl⟩

theorem passes_advance_append (h : c.rest = cs ++ ds) {n : Nat} (hn : n = cs.length) :
    c.Passes cs (c.advance n) := by
  subst hn
  have hpass := c.passes_advance cs.length
  rwa [h, List.take_left] at hpass

theorem passes_peek {x : Char} (h : c.peek = some x) : c.Passes [x] (c.advance 1) := by
  obtain ⟨rest, hrest⟩ := List.head?_eq_some_iff.1 h
  exact passes_advance_append (show c.rest = [x] ++ rest from hrest) rfl

theorem passes_skipWhile (p : Char → Bool) :
    c.Passes (c.rest.takeWhile p) (c.skipWhile p) :=
  passes_advance_append List.takeWhile_append_dropWhile.symm rfl

theorem passes_skipBlanks : ∃ b, AreBlank b ∧ c.Passes b c.skipBlanks :=
  ⟨_, List.all_eq_true.1 List.all_takeWhile, passes_skipWhile isBlank⟩

theorem passes_skipBlockComment : ∃ cs, c.Passes cs c.skipBlockComment := by
  unfold skipBlockComment
  split <;> exact ⟨_, passes_advance _⟩

/-! ### Literals -/

theorem quotedFrom_cons {quote x : Char} (hx : x ≠ '\\') : quotedFrom quote (x :: cs) =
    if x = quote ∨ x = '\n' then ([], 1)
    else (x :: (quotedFrom quote cs).1, (quotedFrom quote cs).2 + 1) :=
  quotedFrom.eq_4 _ _ _ (fun h => absurd h hx) fun _ _ h => absurd h hx

theorem ne_backslash {x : Char} (hlast : x = '\\' → cs = [] → False)
    (hescape : ∀ d ds, x = '\\' → cs = d :: ds → False) : x ≠ '\\' := by
  rintro rfl
  cases cs with
  | nil => exact hlast rfl rfl
  | cons d ds => exact hescape d ds rfl rfl

/-- An ordinary literal ends within the text and is read from its own characters only. -/
theorem quotedFrom_take (quote : Char) (cs : List Char) : (quotedFrom quote cs).2 ≤ cs.length ∧
    quotedFrom quote (cs.take (quotedFrom quote cs).2) = quotedFrom quote cs := by
  induction cs using quotedFrom.induct quote with
  | case1 => exact ⟨Nat.le_refl _, rfl⟩
  | case2 => exact ⟨Nat.le_refl _, rfl⟩
  | case3 c cs ih =>
    rw [quotedFrom]
    exact ⟨by simp [ih.1], by simp [quotedFrom, ih.2]⟩
  | case4 c cs hlast hescape hend =>
    have hc := ne_backslash hlast hescape
    rw [quotedFrom_cons hc, if_pos hend, List.take_succ_cons, List.take_zero, quotedFrom_cons hc,
      if_pos hend]
    exact ⟨by simp, rfl⟩
  | case5 c cs hlast hescape hend ih =>
    have hc := ne_backslash hlast hescape
    rw [quotedFrom_cons hc, if_neg hend, List.take_succ_cons, quotedFrom_cons hc, if_neg hend, ih.2]
    exact ⟨by simp [ih.1], rfl⟩

/-- An ordinary literal is passed to its end. -/
theorem passes_quoted {quote : Char} (h : c.peek = some quote) : ∃ cs,
    c.Passes (quote :: cs) (c.quoted quote).2 ∧
      quotedFrom quote cs = ((c.quoted quote).1, cs.length) := by
  obtain ⟨rest, hrest⟩ := List.head?_eq_some_iff.1 h
  have htake := quotedFrom_take quote rest
  have hpass := c.passes_advance ((quotedFrom quote rest).2 + 1)
  rw [hrest, List.take_succ_cons] at hpass
  simp only [quoted, hrest, List.tail_cons]
  refine ⟨_, hpass, ?_⟩
  rw [htake.2, List.length_take_of_le htake.1]

theorem startsWith_iff {s : String} : c.startsWith s = true ↔ ∃ rest, c.rest = s.toList ++ rest := by
  rw [startsWith, List.isPrefixOf_iff_prefix]
  exact ⟨fun ⟨rest, h⟩ => ⟨rest, h.symm⟩, fun ⟨rest, h⟩ => ⟨rest, h.symm⟩⟩

/-- A raw literal is passed in two stretches: up to its body, and from there on. -/
theorem passes_rawText {r : RawText} (hat : c.atRawText = true) (h : c.rawText? = some r) :
    ∃ d opened, c.Passes (rawOpening d) opened ∧ opened.pos = r.pos ∧
      opened.Passes (r.body ++ rawClosing d) r.after := by
  obtain ⟨inner, hinner⟩ := startsWith_iff.1 hat
  change c.rest = 'R' :: '"' :: inner at hinner
  simp only [rawText?, hinner, List.drop_succ_cons, List.drop_zero] at h
  split at h
  · cases h
  · rename_i hbad
    obtain ⟨hopen, -⟩ := not_or.1 hbad
    obtain ⟨inner', hinner'⟩ := exists_eq_takeWhile_append hopen
    generalize inner.takeWhile (· ≠ '(') = d at h hinner'
    have hopened : c.Passes (rawOpening d) (c.advance (d.length + 3)) :=
      passes_advance_append (show c.rest = rawOpening d ++ inner' by
        rw [hinner, hinner']; simp [rawOpening]) (by simp [rawOpening])
    have hrest : (c.advance (d.length + 3)).rest = inner' := by
      have := hopened.rest
      rw [hinner, hinner'] at this
      simpa [rawOpening] using this.symm
    split at h
    · cases h
    · rename_i body hbody
      cases h
      rw [hrest] at hbody
      obtain ⟨rest, rfl⟩ := before?_eq_some hbody
      have hclosed : (c.advance (d.length + 3)).rest = (body ++ rawClosing d) ++ rest :=
        hrest.trans (List.append_assoc ..).symm
      refine ⟨d, _, hopened, rfl, passes_advance_append hclosed ?_⟩
      simp [rawClosing]
      omega

end Cursor
end Bindery
