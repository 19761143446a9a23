import Bindery.Proofs.Syntax.Literal
import Bindery.Proofs.Syntax.Stream
import Bindery.Proofs.Ty.Spelling

/-!
# The grammar of types

A type is derived as a base type with lengths in square brackets, and a base type is a scalar, a
text, a path, or a type between the angle brackets of a wrapper. No two derivations have the same
tokens: what follows a base type never continues a path, and what follows the lengths never opens
another bracket.
-/
namespace Bindery
open Lexeme

namespace Enclosure

def keyword : Enclosure → Keyword
  | slice false => .slice
  | slice true => .sliceMut
  | wrap kind => kind.keyword

theorem ofKeyword?_eq_some {k : Keyword} {e : Enclosure} :
    ofKeyword? k = some e ↔ k = e.keyword := by
  constructor
  · intro h
    cases k <;> cases h <;> rfl
  · rintro rfl
    cases e with
    | slice mutable => cases mutable <;> rfl
    | wrap kind => cases kind <;> rfl

theorem keyword_ne_text (e : Enclosure) (mutable : Bool) :
    e.keyword ≠ if mutable then .strMut else .str := by
  cases e with
  | slice mutable' => cases mutable' <;> cases mutable <;> decide
  | wrap kind => cases kind <;> cases mutable <;> decide

theorem keyword_injective : Function.Injective keyword := by
  intro e e' h
  have hsome := ofKeyword?_eq_some.2 h
  rw [ofKeyword?_eq_some.2 rfl] at hsome
  exact Option.some.inj hsome

end Enclosure

/-! ### Derivations -/

/-- A literal that can be the length of an array. -/
def Literal.IsLength (l : Literal) : Prop := l.IsProper ∧ 1 ≤ l.value ∧ l.value ≤ 4294967295

instance (l : Literal) : Decidable l.IsLength := inferInstanceAs (Decidable (_ ∧ _ ∧ _))

/-- How a base type is derived. -/
inductive BaseTree
  | scalar (s : Scalar)
  | text (mutable : Bool)
  | path (first : String) (parts : List String)
  | enclosed (e : Enclosure) (inner : BaseTree) (lengths : List Literal)

/-- How a type is derived, from a base type and the lengths that follow it. -/
structure TypeTree where
  base : BaseTree
  lengths : List Literal

/-- The tokens of lengths, each between square brackets. -/
def lengthLexemes (ls : List Literal) : List Lexeme :=
  ls.flatMap fun l => [.punct .squareOpen, .number l.text, .punct .squareClose]

/-- The tokens of the parts of a path after the first. -/
def partLexemes (parts : List String) : List Lexeme :=
  parts.flatMap fun part => [.punct .doubleColon, .ident part]

/-- A path as it is written. -/
def pathName (first : String) (parts : List String) : String :=
  parts.foldl (fun name part => name ++ "::" ++ part) first

/-- Arrays of arrays, where the last length is that of the outermost one. -/
def Ty.arrays (t : Ty) (ls : List Literal) : Ty := ls.foldl (fun t l => .array t l.value.toNat) t

namespace BaseTree

def lexemes : BaseTree → List Lexeme
  | scalar s => [.scalar s]
  | text mutable => [.keyword (if mutable then .strMut else .str)]
  | path first parts => .ident first :: partLexemes parts
  | enclosed e inner ls =>
    .keyword e.keyword :: .punct .less :: (inner.lexemes ++ (lengthLexemes ls ++ [.punct .greater]))

/-- The numbers of a derivation are lengths of arrays. -/
def IsSized : BaseTree → Prop
  | enclosed _ inner ls => inner.IsSized ∧ ∀ l ∈ ls, l.IsLength
  | _ => True

/-- The type that is derived, where the paths in scope are generic parameters. -/
def type (scope : List String) : BaseTree → Ty
  | scalar s => .scalar s
  | text mutable => .text mutable
  | path first parts =>
    if pathName first parts ∈ scope then .generic (pathName first parts)
    else .record (pathName first parts)
  | enclosed e inner ls => e.around ((inner.type scope).arrays ls)

end BaseTree

namespace TypeTree

def lexemes (d : TypeTree) : List Lexeme := d.base.lexemes ++ lengthLexemes d.lengths

def IsSized (d : TypeTree) : Prop := d.base.IsSized ∧ ∀ l ∈ d.lengths, l.IsLength

def type (scope : List String) (d : TypeTree) : Ty := (d.base.type scope).arrays d.lengths

/-- A text that consists of the tokens of a derivation. -/
def Derives (d : TypeTree) (text : String) : Prop :=
  ∃ pos, Tokens.Begins d.lexemes (Tokens.ofText text .start) (.done pos)

end TypeTree

/-! ### Unambiguity -/

theorem lengthLexemes_cons (l : Literal) (ls : List Literal) : lengthLexemes (l :: ls) =
    .punct .squareOpen :: .number l.text :: .punct .squareClose :: lengthLexemes ls := rfl

section
variable {r r' : List Lexeme}

/-- Groups of tokens that begin with a mark are told from what follows if that does not. -/
theorem groups_unique {α : Type} {f : α → List Lexeme} {mark : Punct} {xs ys : List α}
    (hmark : ∀ x, (f x).head? = some (.punct mark))
    (hcancel : ∀ x ∈ xs, ∀ y ∈ ys, ∀ r r', f x ++ r = f y ++ r' → x = y ∧ r = r')
    (hr : r.head? ≠ some (.punct mark)) (hr' : r'.head? ≠ some (.punct mark))
    (h : xs.flatMap f ++ r = ys.flatMap f ++ r') : xs = ys ∧ r = r' := by
  have hgroup : ∀ (x : α) (xs : List α) (r : List Lexeme),
      ((x :: xs).flatMap f ++ r).head? = some (.punct mark) := by
    intro x xs r
    rw [List.flatMap_cons, List.append_assoc, List.head?_append, hmark, Option.some_or]
  induction xs generalizing ys with
  | nil =>
    cases ys with
    | nil => exact ⟨rfl, h⟩
    | cons y ys => exact absurd ((congrArg List.head? h).trans (hgroup y ys r')) hr
  | cons x xs ih =>
    cases ys with
    | nil => exact absurd ((congrArg List.head? h).symm.trans (hgroup x xs r)) hr'
    | cons y ys =>
      rw [List.flatMap_cons, List.flatMap_cons, List.append_assoc, List.append_assoc] at h
      obtain ⟨rfl, htail⟩ := hcancel x List.mem_cons_self y List.mem_cons_self _ _ h
      have hcancel' : ∀ x ∈ xs, ∀ y ∈ ys, ∀ r r', f x ++ r = f y ++ r' → x = y ∧ r = r' :=
        fun x hx y hy => hcancel x (List.mem_cons_of_mem _ hx) y (List.mem_cons_of_mem _ hy)
      obtain ⟨rfl, hrest⟩ := ih hcancel' htail
      exact ⟨rfl, hrest⟩

theorem parts_unique {ps ps' : List String} (hr : r.head? ≠ some (.punct .doubleColon))
    (hr' : r'.head? ≠ some (.punct .doubleColon))
    (h : partLexemes ps ++ r = partLexemes ps' ++ r') : ps = ps' ∧ r = r' := by
  refine groups_unique (fun _ => rfl) (fun p _ p' _ r r' hpart => ?_) hr hr' h
  cases hpart
  exact ⟨rfl, rfl⟩

theorem lengths_unique {ls ls' : List Literal} (hls : ∀ l ∈ ls, l.IsLength)
    (hls' : ∀ l ∈ ls', l.IsLength) (hr : r.head? ≠ some (.punct .squareOpen))
    (hr' : r'.head? ≠ some (.punct .squareOpen))
    (h : lengthLexemes ls ++ r = lengthLexemes ls' ++ r') : ls = ls' ∧ r = r' := by
  refine groups_unique (fun _ => rfl) (fun l hl l' hl' r r' hlength => ?_) hr hr' h
  injection hlength with _ hlength
  injection hlength with htext hlength
  injection hlength with _ hrest
  injection htext with htext
  exact ⟨Literal.eq_of_text_eq (hls l hl).1 (hls' l' hl').1 htext, hrest⟩

/-- Lengths never continue a path. -/
theorem head?_lengthLexemes (ls : List Literal) (hr : r.head? ≠ some (.punct .doubleColon)) :
    (lengthLexemes ls ++ r).head? ≠ some (.punct .doubleColon) := by
  cases ls with
  | nil => exact hr
  | cons l ls => simp [lengthLexemes_cons]

theorem BaseTree.lexemes_enclosed_append (e : Enclosure) (inner : BaseTree) (ls : List Literal) :
    (enclosed e inner ls).lexemes ++ r = .keyword e.keyword :: .punct .less ::
      (inner.lexemes ++ (lengthLexemes ls ++ .punct .greater :: r)) := by
  simp [lexemes]

theorem BaseTree.unique {b b' : BaseTree} (hb : b.IsSized) (hb' : b'.IsSized)
    (hr : r.head? ≠ some (.punct .doubleColon)) (hr' : r'.head? ≠ some (.punct .doubleColon))
    (h : b.lexemes ++ r = b'.lexemes ++ r') : b = b' ∧ r = r' := by
  induction b generalizing b' r r' with
  | scalar s =>
    cases b' with
    | scalar s' => cases h; exact ⟨rfl, rfl⟩
    | _ => cases h
  | text mutable =>
    cases b' with
    | text mutable' =>
      injection h with hword h
      cases mutable <;> cases mutable' <;> first | exact ⟨rfl, h⟩ | cases hword
    | enclosed e' inner' ls' =>
      injection h with hword h
      injection hword with hword
      exact absurd hword.symm (e'.keyword_ne_text mutable)
    | _ => cases h
  | path first parts =>
    cases b' with
    | path first' parts' =>
      injection h with hfirst h
      injection hfirst with hfirst
      obtain ⟨hparts, hr⟩ := parts_unique hr hr' h
      exact ⟨by rw [hfirst, hparts], hr⟩
    | _ => cases h
  | enclosed e inner ls ih =>
    cases b' with
    | enclosed e' inner' ls' =>
      rw [lexemes_enclosed_append, lexemes_enclosed_append] at h
      injection h with hword h
      injection hword with hword
      injection h with _ h
      have hclose : ∀ {p : Punct} {r : List Lexeme}, p ≠ .greater →
          (Lexeme.punct .greater :: r).head? ≠ some (.punct p) := by
        rintro p r hp ⟨⟩
        exact hp rfl
      obtain ⟨rfl, hlengths⟩ := ih hb.1 hb'.1 (head?_lengthLexemes ls (hclose (by decide)))
        (head?_lengthLexemes ls' (hclose (by decide))) h
      obtain ⟨rfl, hrest⟩ :=
        lengths_unique hb.2 hb'.2 (hclose (by decide)) (hclose (by decide)) hlengths
      injection hrest with _ hrest
      exact ⟨by rw [Enclosure.keyword_injective hword], hrest⟩
    | text mutable' =>
      injection h with hword h
      injection hword with hword
      exact absurd hword (e.keyword_ne_text mutable')
    | _ => cases h

/-- A type is derived in one way only. -/
theorem TypeTree.unique {d d' : TypeTree} (hd : d.IsSized) (hd' : d'.IsSized)
    (h : d.lexemes = d'.lexemes) : d = d' := by
  obtain ⟨base, ls⟩ := d
  obtain ⟨base', ls'⟩ := d'
  have hhead : ∀ ls : List Literal, (lengthLexemes ls).head? ≠ some (.punct .doubleColon) := by
    intro ls
    rw [← List.append_nil (lengthLexemes ls)]
    exact head?_lengthLexemes ls (by simp)
  obtain ⟨rfl, hlengths⟩ := BaseTree.unique hd.1 hd'.1 (hhead ls) (hhead ls') h
  rw [← List.append_nil (lengthLexemes ls), ← List.append_nil (lengthLexemes ls')] at hlengths
  obtain ⟨rfl, -⟩ := lengths_unique hd.2 hd'.2 (by simp) (by simp) hlengths
  rfl

end
end Bindery
