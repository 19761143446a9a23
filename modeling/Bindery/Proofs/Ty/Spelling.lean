import Bindery.Proofs.Syntax.Spelling
import Bindery.Ty.Parser

/-!
# The tokens of a type

A type is written as the printer writes it. The tokens of its text are told here part by part, as
the grammar of types has them.
-/
namespace Bindery
open Lexeme

namespace Name

/-- The parts of a path, between pairs of colons. -/
def parts : List Char → List (List Char)
  | ':' :: ':' :: cs => [] :: parts cs
  | c :: cs =>
    match parts cs with
    | [] => [[c]]
    | p :: ps => (c :: p) :: ps
  | [] => [[]]

/-- A path of identifiers. -/
def IsPath (name : String) : Prop := ∀ part ∈ parts name.toList, IsIdent (String.ofList part)

instance (name : String) : Decidable (IsPath name) := inferInstanceAs (Decidable (∀ _ ∈ _, _))

/-- The tokens of the parts of a path after the first. -/
def tailLexemes (ps : List (List Char)) : List Lexeme :=
  ps.flatMap fun p => [.punct .doubleColon, .ident (String.ofList p)]

def lexemes (name : String) : List Lexeme :=
  match parts name.toList with
  | [] => []
  | p :: ps => .ident (String.ofList p) :: tailLexemes ps

theorem parts_ne_nil (cs : List Char) : parts cs ≠ [] := by
  fun_induction parts cs <;> simp_all

theorem parts_join (cs : List Char) : ∃ p ps, parts cs = p :: ps ∧
    p ++ ps.flatMap (fun q => ':' :: ':' :: q) = cs := by
  fun_induction parts cs with
  | case1 cs ih =>
    obtain ⟨p, ps, hp, hcs⟩ := ih
    refine ⟨[], p :: ps, by rw [hp], ?_⟩
    rw [List.flatMap_cons, List.nil_append, List.cons_append, List.cons_append, hcs]
  | case2 c cs _ hn => exact absurd hn (parts_ne_nil cs)
  | case3 c cs _ p ps hp ih =>
    obtain ⟨q, qs, hq, hcs⟩ := ih
    rw [hp] at hq
    cases hq
    exact ⟨c :: p, ps, rfl, by rw [List.cons_append, hcs]⟩
  | case4 => exact ⟨[], [], rfl, rfl⟩

/-- An identifier is a path of one part. -/
theorem parts_of_isIdent {name : String} (h : IsIdent name) :
    parts name.toList = [name.toList] := by
  have hno : ∀ cs : List Char, ':' ∉ cs → parts cs = [cs] := by
    intro cs hcs
    induction cs with
    | nil => rfl
    | cons c cs ih =>
      have hc : c ≠ ':' := fun hc => hcs (hc ▸ List.mem_cons_self)
      have htail := ih fun hn => hcs (List.mem_cons_of_mem _ hn)
      unfold parts
      split
      all_goals simp_all
  apply hno
  intro hn
  exact absurd (isNameChar_of_mem h.1 hn) (by decide)

theorem isPath_of_isIdent {name : String} (h : IsIdent name) : IsPath name := by
  intro part hp
  rw [parts_of_isIdent h, List.mem_singleton] at hp
  rw [hp, String.ofList_toList]
  exact h

theorem lexemes_eq {name : String} {p : List Char} {ps : List (List Char)}
    (h : parts name.toList = p :: ps) :
    lexemes name = .ident (String.ofList p) :: tailLexemes ps := by
  rw [lexemes, h]

theorem tailLexemes_cons (p : List Char) (ps : List (List Char)) :
    tailLexemes (p :: ps) =
      .punct .doubleColon :: .ident (String.ofList p) :: tailLexemes ps := rfl

theorem text_tailLexemes (ps : List (List Char)) {l : Lexeme}
    (hl : isApart l (.punct .doubleColon) = false) :
    (text (l :: tailLexemes ps)).toList =
      l.spelling.toList ++ ps.flatMap (fun q => ':' :: ':' :: q) := by
  induction ps generalizing l with
  | nil => exact (List.append_nil _).symm
  | cons p ps ih =>
    rw [tailLexemes_cons, text_cons_of_not_isApart hl, text_cons_of_not_isApart rfl,
      String.toList_append, String.toList_append, ih rfl, List.flatMap_cons]
    simp [spelling, Punct.spelling]

theorem text_lexemes (name : String) : text (lexemes name) = name := by
  obtain ⟨p, ps, hp, hjoin⟩ := parts_join name.toList
  apply String.toList_inj.1
  rw [lexemes_eq hp, text_tailLexemes ps rfl]
  simpa [spelling] using hjoin

theorem isPrintable_lexemes {name : String} (h : IsPath name) {l : Lexeme}
    (hl : l ∈ lexemes name) : l.IsPrintable := by
  obtain ⟨p, ps, hp, -⟩ := parts_join name.toList
  rw [IsPath, hp] at h
  rw [lexemes_eq hp] at hl
  simp only [tailLexemes, List.mem_cons, List.mem_flatMap, List.not_mem_nil, or_false] at hl
  rcases hl with rfl | ⟨q, hq, rfl | rfl⟩
  · exact h p List.mem_cons_self
  · trivial
  · exact h q (List.mem_cons_of_mem _ hq)

theorem eq_doubleColon_of_mem {name : String} {m : Punct} (h : .punct m ∈ lexemes name) :
    m = .doubleColon := by
  obtain ⟨p, ps, hp, -⟩ := parts_join name.toList
  rw [lexemes_eq hp] at h
  simp only [tailLexemes, List.mem_cons, List.mem_flatMap, List.not_mem_nil, or_false,
    reduceCtorEq, false_or, punct.injEq] at h
  obtain ⟨q, -, hm⟩ := h
  exact hm

theorem head?_lexemes {name : String} {l : Lexeme} (hl : l ∈ (lexemes name).head?) :
    l.isWord = true := by
  obtain ⟨p, ps, hp, -⟩ := parts_join name.toList
  rw [lexemes_eq hp] at hl
  cases hl
  rfl

theorem getLast?_lexemes {name : String} {l : Lexeme} (hl : l ∈ (lexemes name).getLast?) :
    l.isWord = true := by
  obtain ⟨p, ps, hp, -⟩ := parts_join name.toList
  rw [lexemes_eq hp] at hl
  rcases List.eq_nil_or_concat ps with rfl | ⟨qs, q, rfl⟩
  · cases hl
    rfl
  · rw [tailLexemes, List.concat_eq_append, List.flatMap_append, List.flatMap_singleton,
      ← List.cons_append, List.getLast?_append] at hl
    cases hl
    rfl

end Name

namespace Wrap

def keyword : Wrap → Keyword
  | ref => .ref | refMut => .refMut | optional => .optional

end Wrap

namespace Ty

/-- The tokens of a type. -/
def lexemes : Ty → List Lexeme
  | scalar s => [.scalar s]
  | array elem length =>
    elem.lexemes ++ [.punct .squareOpen, .number (toString length), .punct .squareClose]
  | slice mutable elem =>
    .keyword (if mutable then .sliceMut else .slice) :: .punct .less ::
      (elem.lexemes ++ [.punct .greater])
  | text mutable => [.keyword (if mutable then .strMut else .str)]
  | record name => Name.lexemes name
  | generic name => Name.lexemes name
  | wrapped kind inner =>
    .keyword kind.keyword :: .punct .less :: (inner.lexemes ++ [.punct .greater])

/-- The types that can be written: leaves are paths and lengths are positive 32-bit words. -/
def IsWritable : Ty → Prop
  | scalar _ | text _ => True
  | array elem length => elem.IsWritable ∧ 0 < length ∧ length < 4294967296
  | slice _ elem => elem.IsWritable
  | record name | generic name => Name.IsPath name
  | wrapped _ inner => inner.IsWritable

/-- The generic parameters in a type are exactly its leaves with a name in scope. -/
def IsScoped (scope : List String) : Ty → Prop
  | scalar _ | text _ => True
  | array elem _ => elem.IsScoped scope
  | slice _ elem => elem.IsScoped scope
  | record name => name ∉ scope
  | generic name => name ∈ scope
  | wrapped _ inner => inner.IsScoped scope

instance decidableIsWritable : (t : Ty) → Decidable t.IsWritable
  | scalar _ | text _ => .isTrue trivial
  | array elem length =>
    have := decidableIsWritable elem
    inferInstanceAs (Decidable (elem.IsWritable ∧ 0 < length ∧ length < 4294967296))
  | slice _ elem => decidableIsWritable elem
  | record name | generic name => inferInstanceAs (Decidable (Name.IsPath name))
  | wrapped _ inner => decidableIsWritable inner

instance decidableIsScoped (scope : List String) : (t : Ty) → Decidable (t.IsScoped scope)
  | scalar _ | text _ => .isTrue trivial
  | array elem _ => decidableIsScoped scope elem
  | slice _ elem => decidableIsScoped scope elem
  | record name => inferInstanceAs (Decidable (name ∉ scope))
  | generic name => inferInstanceAs (Decidable (name ∈ scope))
  | wrapped _ inner => decidableIsScoped scope inner

/-- The type with its leaves read anew, as parameters if their names are in scope. -/
def inScope (scope : List String) : Ty → Ty
  | scalar s => scalar s
  | array elem length => array (elem.inScope scope) length
  | slice mutable elem => slice mutable (elem.inScope scope)
  | text mutable => text mutable
  | record name | generic name => Tokens.named scope name
  | wrapped kind inner => wrapped kind (inner.inScope scope)

theorem lexemes_ne_nil (t : Ty) : t.lexemes ≠ [] := by
  cases t with
  | record name | generic name =>
    obtain ⟨p, ps, hp, -⟩ := Name.parts_join name.toList
    rw [lexemes, Name.lexemes_eq hp]
    exact List.cons_ne_nil _ _
  | array => exact List.append_ne_nil_of_right_ne_nil _ (List.cons_ne_nil _ _)
  | _ => exact List.cons_ne_nil _ _

/-- The marks that occur in types. -/
def marks : List Punct := [.doubleColon, .squareOpen, .squareClose, .less, .greater]

theorem mem_marks {t : Ty} {m : Punct} (h : .punct m ∈ t.lexemes) : m ∈ marks := by
  induction t with
  | record name | generic name =>
    rw [Name.eq_doubleColon_of_mem h]
    decide
  | scalar s => cases List.mem_singleton.1 h
  | text mutable => cases List.mem_singleton.1 h
  | array elem length ih =>
    rcases List.mem_append.1 h with h | h
    · exact ih h
    · simp only [List.mem_cons, List.not_mem_nil, or_false, reduceCtorEq, false_or,
        punct.injEq] at h
      rcases h with rfl | rfl <;> decide
  | slice mutable elem ih | wrapped kind elem ih =>
    simp only [lexemes, List.mem_cons, List.mem_append, List.not_mem_nil, or_false, reduceCtorEq,
      false_or, punct.injEq] at h
    rcases h with rfl | h | rfl
    · decide
    · exact ih h
    · decide

/-- A type begins with a word. -/
theorem head?_lexemes {t : Ty} {l : Lexeme} (hl : l ∈ t.lexemes.head?) : l.isWord = true := by
  induction t with
  | record name | generic name => exact Name.head?_lexemes hl
  | array elem length ih =>
    obtain ⟨k, ks, hk⟩ := List.exists_cons_of_ne_nil elem.lexemes_ne_nil
    rw [lexemes, hk] at hl
    rw [hk] at ih
    exact ih hl
  | _ => cases hl; rfl

/-- A type ends with a word or a closing bracket, which only some marks keep away from. -/
theorem getLast?_lexemes {t : Ty} {l : Lexeme} (hl : l ∈ t.lexemes.getLast?) {m : Punct}
    (hm : m ∉ spacedMarks.2) : isApart l (.punct m) = false := by
  have of_isWord : l.isWord = true → isApart l (.punct m) = false := by
    intro hw
    cases l <;> simp_all [isApart, isWord]
  have hmark : ∀ k : Punct, k ∉ spacedMarks.1 → isApart (.punct k) (.punct m) = false := by
    intro k hk
    simp [isApart, hk, hm]
  cases t with
  | record name | generic name => exact of_isWord (Name.getLast?_lexemes hl)
  | scalar s => cases hl; exact of_isWord rfl
  | text mutable => cases hl; exact of_isWord rfl
  | array elem length =>
    rw [lexemes, List.getLast?_append] at hl
    cases hl
    exact hmark _ (by decide)
  | slice mutable elem | wrapped kind elem =>
    rw [lexemes, ← List.cons_append, ← List.cons_append, List.getLast?_append] at hl
    cases hl
    exact hmark _ (by decide)

/-- The text of a type between angle brackets after a word. -/
theorem text_enclosed {t : Ty} {l : Lexeme} (hl : l.isWord = true)
    (ht : Lexeme.text t.lexemes = t.render) :
    Lexeme.text (l :: .punct .less :: (t.lexemes ++ [.punct .greater])) =
      l.spelling ++ "<" ++ t.render ++ ">" := by
  have hl' : isApart l (.punct .less) = false := by
    cases l <;> simp_all [isApart, isWord, spacedMarks]
  obtain ⟨k, ks, hk⟩ := List.exists_cons_of_ne_nil t.lexemes_ne_nil
  have hk' : isApart (.punct .less) k = false := by
    have hw : k.isWord = true := head?_lexemes (by rw [hk]; rfl)
    cases k <;> simp_all [isApart, isWord, spacedMarks]
  rw [text_cons_of_not_isApart hl', hk, List.cons_append, text_cons_of_not_isApart hk',
    ← List.cons_append, ← hk, text_append fun j hj => getLast?_lexemes hj (by decide), ht]
  simp only [String.append_assoc]
  rfl

/-- The text of the tokens of a type is the type as it is printed. -/
theorem text_lexemes (t : Ty) : Lexeme.text t.lexemes = t.render := by
  induction t with
  | record name | generic name => exact Name.text_lexemes name
  | scalar s => rfl
  | text mutable => cases mutable <;> rfl
  | array elem length ih =>
    rw [lexemes, text_append fun j hj => getLast?_lexemes hj (by decide), ih,
      text_cons_of_not_isApart rfl, text_cons_of_not_isApart rfl, render]
    simp only [String.append_assoc]
    rfl
  | slice mutable elem ih =>
    cases mutable
    · exact text_enclosed rfl ih
    · exact text_enclosed rfl ih
  | wrapped kind inner ih =>
    cases kind
    · exact text_enclosed rfl ih
    · exact text_enclosed rfl ih
    · exact text_enclosed rfl ih

theorem isPrintable_lexemes {t : Ty} (ht : t.IsWritable) {l : Lexeme} (hl : l ∈ t.lexemes) :
    l.IsPrintable := by
  induction t with
  | record name | generic name => exact Name.isPrintable_lexemes ht hl
  | scalar s =>
    rw [List.mem_singleton.1 hl]
    trivial
  | text mutable =>
    rw [List.mem_singleton.1 hl]
    trivial
  | array elem length ih =>
    rcases List.mem_append.1 hl with hl | hl
    · exact ih ht.1 hl
    · simp only [List.mem_cons, List.not_mem_nil, or_false] at hl
      rcases hl with rfl | rfl | rfl
      · trivial
      · exact ⟨length, rfl⟩
      · trivial
  | slice mutable elem ih | wrapped kind elem ih =>
    simp only [lexemes, List.mem_cons, List.mem_append, List.not_mem_nil, or_false] at hl
    rcases hl with rfl | rfl | hl | rfl
    · trivial
    · trivial
    · exact ih ht hl
    · trivial

theorem inScope_of_isScoped {scope : List String} {t : Ty} (h : t.IsScoped scope) :
    t.inScope scope = t := by
  induction t with
  | record name => simp only [inScope, Tokens.named, if_neg (show name ∉ scope from h)]
  | generic name => simp only [inScope, Tokens.named, if_pos (show name ∈ scope from h)]
  | _ => simp_all [inScope, IsScoped]

theorem render_inScope (scope : List String) (t : Ty) : (t.inScope scope).render = t.render := by
  induction t with
  | record name | generic name =>
    simp only [inScope, Tokens.named]
    split <;> rfl
  | slice mutable elem ih => cases mutable <;> simp [inScope, render, ih]
  | wrapped kind inner ih => cases kind <;> simp [inScope, render, ih]
  | _ => simp_all [inScope, render]

end Ty
end Bindery
