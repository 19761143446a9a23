import Bindery.Annotation.Basic
import Bindery.Annotation.Cursor
import Bindery.Decl.Parser
import Bindery.Failure

/-!
# Finding annotations

Annotations are found outside of comments and literals of the host. A macro name without the
arguments of an annotation, as in its definition, is passed over.
-/
namespace Bindery
open Text

namespace Annotation

/-- What a host is scanned with: its path, and the files that its annotations may include. -/
structure Source where
  host : Path
  include? : String → Option Path

variable (src : Source)

def fault {α : Type} (pos : Position) (cause : HostCause) : Except Failure α :=
  .error (.host src.host.text pos cause)

def parse (body : List Char) (pos : Position) : Except Failure Declarations :=
  (Declarations.parse (String.ofList body) src.host.text pos).mapError .declaration

/-- The bracket that closes an annotation. -/
def closing (m : Macro) (c : Cursor) : Except Failure Cursor :=
  if c.skipBlanks.peek = some ')' then .ok (c.skipBlanks.advance 1)
  else fault src c.skipBlanks.pos (.unclosed m.name)

/-- The code and the declarations of a fragment whose body begins at a line. -/
def ofFragment (at_ : Position) (body : List Char) (line : Int) : Except Failure Annotation :=
  match Fragment.split body with
  | (code, none) => .ok { host := src.host, line := at_.line, code := String.ofList code }
  | (code, some (decls, below)) =>
    if decls = [] then .ok { host := src.host, line := at_.line, code := String.ofList code }
    else do
      let ds ← parse src decls ⟨line + below, 1⟩
      .ok { host := src.host, line := at_.line, code := String.ofList code, decls := ds }

/-- The arguments of an annotation with a fragment. -/
def inlineArgs (at_ : Position) (c : Cursor) : Except Failure (Option Annotation × Cursor) :=
  if !c.atRawText then .ok (none, c)
  else
    match c.rawText? with
    | none => fault src at_ (.malformedText Macro.inline.name)
    | some raw => do
      let a ← ofFragment src at_ raw.body raw.pos.line
      let c ← closing src .inline raw.after
      .ok (some a, c)

/-- The declarations of an included file, if a comma announces them. -/
def includedDecls (c : Cursor) : Except Failure (Declarations × Cursor) :=
  if c.peek ≠ some ',' then .ok ({}, c)
  else
    let c := (c.advance 1).skipBlanks
    if !c.atRawText then fault src c.pos .expectedText
    else
      match c.rawText? with
      | none => fault src c.pos (.malformedText Macro.included.name)
      | some raw => do
        let ds ← parse src raw.body raw.pos
        .ok (ds, raw.after)

/-- The arguments of an annotation with a file. -/
def includedArgs (at_ : Position) (c : Cursor) : Except Failure (Option Annotation × Cursor) :=
  if c.peek ≠ some '"' then .ok (none, c)
  else
    let path := String.ofList (c.quoted '"').1
    match src.include? path with
    | none => fault src c.pos (.unresolvedInclude path)
    | some file => do
      let (decls, c) ← includedDecls src (c.quoted '"').2.skipBlanks
      let c ← closing src .included c
      .ok (some { host := src.host, line := at_.line, file := some file, decls }, c)

/-- What follows the name of a macro. -/
def args (m : Macro) (at_ : Position) (c : Cursor) : Except Failure (Option Annotation × Cursor) :=
  if c.skipBlanks.peek ≠ some '(' then .ok (none, c.skipBlanks)
  else
    let c := (c.skipBlanks.advance 1).skipBlanks
    match m with
    | .inline => inlineArgs src at_ c
    | .included => includedArgs src at_ c

/-- How many characters of an encoding stand before a raw literal. -/
def encodingLength (c : Cursor) : Nat :=
  if c.startsWith "u8R\"" then 2
  else if c.startsWith "uR\"" ∨ c.startsWith "UR\"" ∨ c.startsWith "LR\"" then 1
  else 0

/-- Moves over one token of the host, which may be the first of an annotation. -/
def step (c : Cursor) : Except Failure (Option Annotation × Cursor) :=
  let raw := c.advance (encodingLength c)
  if c.startsWith "//" then .ok (none, c.skipWhile (· ≠ '\n'))
  else if c.startsWith "/*" then .ok (none, c.skipBlockComment)
  else if raw.atRawText then
    match raw.rawText? with
    | some r => .ok (none, r.after)
    | none => .ok (none, raw.advance 2)
  else
    match c.peek with
    | none => .ok (none, c)
    | some ch =>
      if ch = '"' ∨ ch = '\'' then .ok (none, (c.quoted ch).2)
      else if !isNameChar ch then .ok (none, c.advance 1)
      else
        let c' := c.skipWhile isNameChar
        match Macro.ofName? (String.ofList (c.rest.takeWhile isNameChar)) with
        | none => .ok (none, c')
        | some m => args src m c.pos c'

section
variable {src} {c c' : Cursor} {a : Option Annotation}

theorem closing_length {m : Macro} (h : closing src m c = .ok c') :
    c'.rest.length ≤ c.rest.length := by
  unfold closing at h
  split at h
  · cases h
    have := c.length_skipBlanks
    simp only [Cursor.length_advance]
    omega
  · cases h

theorem inlineArgs_length {at_ : Position} (h : inlineArgs src at_ c = .ok (a, c')) :
    c'.rest.length ≤ c.rest.length := by
  unfold inlineArgs at h
  split at h
  · cases h; exact Nat.le_refl _
  · split at h
    · cases h
    · rename_i hr
      obtain ⟨_, _, h⟩ := Tokens.bind_eq_ok.1 h
      obtain ⟨_, hc, h⟩ := Tokens.bind_eq_ok.1 h
      cases h
      have := closing_length hc
      have := Cursor.length_rawText? hr
      omega

theorem includedDecls_length {ds : Declarations} (h : includedDecls src c = .ok (ds, c')) :
    c'.rest.length ≤ c.rest.length := by
  simp only [includedDecls] at h
  split at h
  · cases h; exact Nat.le_refl _
  · split at h
    · cases h
    · split at h
      · cases h
      · rename_i hr
        obtain ⟨_, _, h⟩ := Tokens.bind_eq_ok.1 h
        cases h
        have := Cursor.length_rawText? hr
        have := (c.advance 1).length_skipBlanks
        simp only [Cursor.length_advance] at this
        omega

theorem includedArgs_length {at_ : Position} (h : includedArgs src at_ c = .ok (a, c')) :
    c'.rest.length ≤ c.rest.length := by
  simp only [includedArgs] at h
  split at h
  · cases h; exact Nat.le_refl _
  · split at h
    · cases h
    · obtain ⟨⟨_, _⟩, hd, h⟩ := Tokens.bind_eq_ok.1 h
      obtain ⟨_, hc, h⟩ := Tokens.bind_eq_ok.1 h
      cases h
      have := closing_length hc
      have := includedDecls_length hd
      have := (c.quoted '"').2.length_skipBlanks
      have := c.length_quoted '"'
      dsimp only at *
      omega

theorem args_length {m : Macro} {at_ : Position} (h : args src m at_ c = .ok (a, c')) :
    c'.rest.length ≤ c.rest.length := by
  simp only [args] at h
  have := c.length_skipBlanks
  split at h
  · cases h; exact this
  · have := (c.skipBlanks.advance 1).length_skipBlanks
    simp only [Cursor.length_advance] at this
    cases m
    · have := inlineArgs_length h
      omega
    · have := includedArgs_length h
      omega

theorem length_lt_of_startsWith {s : String} {p : Char → Bool} (hs : c.startsWith s = true)
    {x : Char} {xs : List Char} (hx : s.toList = x :: xs) (hp : p x = true) :
    (c.skipWhile p).rest.length < c.rest.length := by
  unfold Cursor.startsWith at hs
  rw [hx] at hs
  cases hr : c.rest with
  | nil => simp [hr] at hs
  | cons y ys =>
    simp only [hr, List.isPrefixOf_cons_cons, Bool.and_eq_true, beq_iff_eq] at hs
    simp only [Cursor.skipWhile, Cursor.length_advance, hr, ← hs.1, List.takeWhile_cons, hp,
      if_true, List.length_cons]
    omega

theorem ne_nil_of_startsWith {s : String} (hs : c.startsWith s = true) (h : s.toList ≠ []) :
    0 < c.rest.length := by
  unfold Cursor.startsWith at hs
  cases hr : c.rest with
  | nil =>
    rw [hr] at hs
    cases hl : s.toList with
    | nil => exact absurd hl h
    | cons => simp [hl] at hs
  | cons => simp

theorem step_length (hne : c.rest ≠ []) (h : step src c = .ok (a, c')) :
    c'.rest.length < c.rest.length := by
  have hpos : 0 < c.rest.length := List.length_pos_iff.2 hne
  simp only [step] at h
  split at h
  · rename_i hs
    cases h
    exact length_lt_of_startsWith hs rfl (by decide)
  · split at h
    · cases h
      have := c.length_skipBlockComment
      omega
    · split at h
      · rename_i hr
        have hraw := ne_nil_of_startsWith hr (by decide)
        simp only [Cursor.length_advance] at hraw
        split at h
        · rename_i hr
          cases h
          have := Cursor.length_rawText? hr
          simp only [Cursor.length_advance] at this
          omega
        · cases h
          simp only [Cursor.length_advance]
          omega
      · split at h
        · rename_i hp
          simp only [Cursor.peek, List.head?_eq_none_iff] at hp
          exact absurd hp hne
        · rename_i ch hp
          split at h
          · cases h
            have := c.length_quoted ch
            omega
          · split at h
            · cases h
              simp only [Cursor.length_advance]
              omega
            · rename_i hn
              have hskip : (c.skipWhile isNameChar).rest.length < c.rest.length := by
                cases hr : c.rest with
                | nil => exact absurd hr hne
                | cons y ys =>
                  simp only [Cursor.peek, hr, List.head?_cons, Option.some.injEq] at hp
                  subst hp
                  simp only [Cursor.skipWhile, Cursor.length_advance, hr, List.takeWhile_cons]
                  simp only [Bool.not_eq_true, Bool.not_eq_false'] at hn
                  simp only [hn, if_true, List.length_cons]
                  omega
              split at h
              · cases h; exact hskip
              · have := args_length h
                omega

end

/-- The annotations of a host, and the failure that ends the scan, if any. -/
def scan (c : Cursor) : List Annotation × Option Failure :=
  if _hne : c.rest = [] then ([], none)
  else
    match _h : step src c with
    | .error f => ([], some f)
    | .ok (found, c') => (found.toList ++ (scan c').1, (scan c').2)
termination_by c.rest.length
decreasing_by all_goals exact step_length _hne _h

section
variable {src} {c c' : Cursor} {found : Option Annotation} {f : Failure}

theorem scan_of_nil (h : c.rest = []) : scan src c = ([], none) := by
  rw [scan, dif_pos h]

theorem scan_of_ok (hne : c.rest ≠ []) (h : step src c = .ok (found, c')) :
    scan src c = (found.toList ++ (scan src c').1, (scan src c').2) := by
  rw [scan, dif_neg hne]
  split <;> simp_all

theorem scan_of_error (hne : c.rest ≠ []) (h : step src c = .error f) :
    scan src c = ([], some f) := by
  rw [scan, dif_neg hne]
  split <;> simp_all

end

end Annotation
end Bindery
