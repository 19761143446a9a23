import Bindery.Proofs.Decl.Unplaced
import Bindery.Proofs.Syntax.Layout

/-!
# The layout of declarations

Blanks and comments beside the tokens of a text neither change what it declares nor why it is
rejected.
-/
namespace Bindery
open Lexer Text

/-- A rejection without its position: the file and the cause, which is the kind and the message. -/
def SyntaxError.unplaced (e : SyntaxError) : SyntaxError := { e with fault := e.fault.unplaced }

namespace Declarations

/-- What is told by a text of declarations, wherever its tokens stand. -/
def told : Except SyntaxError Declarations → Except SyntaxError Declarations
  | .ok ds => .ok ds.unplaced
  | .error e => .error e.unplaced

/-- Texts with the same tokens, up to positions, tell the same. -/
theorem told_parse_congr {text text' file : String} {p q : Position}
    (h : (Tokens.ofText text p).unplaced = (Tokens.ofText text' q).unplaced) :
    told (parse text file p) = told (parse text' file q) := by
  have hstatements : unplacedBy unplaced ((Tokens.ofText text p).statements {}) =
      unplacedBy unplaced ((Tokens.ofText text' q).statements {}) := by
    have hempty : ({} : Declarations).unplaced = {} := rfl
    rw [← Tokens.statements_unplaced, ← Tokens.statements_unplaced, h]
  unfold parse
  cases hp : (Tokens.ofText text p).statements {} <;>
    cases hq : (Tokens.ofText text' q).statements {} <;>
    rw [hp, hq] at hstatements
  · have hfault := Except.error.inj hstatements
    exact congrArg Except.error (congrArg (SyntaxError.mk file) hfault)
  · cases hstatements
  · cases hstatements
  · exact congrArg Except.ok (Except.ok.inj hstatements)

/-- Blanks and complete comments, put right before or right after any token of a text, leave what
it declares as it is, and so they do with the file, the kind and the message of its rejection. -/
theorem told_parse_insert {text : String} {front back gap : List Char}
    (hnull : '\x00' ∉ text.toList) (hpoint : IsBeside text.toList front back) (hgap : IsGap gap)
    (hgapnull : '\x00' ∉ gap) (file : String) (p : Position) :
    told (parse (String.ofList (front ++ (gap ++ back))) file p) = told (parse text file p) := by
  have hnull' : '\x00' ∉ front ++ (gap ++ back) := by
    rw [hpoint.append] at hnull
    simp only [List.mem_append, not_or] at hnull ⊢
    exact ⟨hnull.1, hgapnull, hnull.2⟩
  apply told_parse_congr
  rw [Tokens.ofText, Tokens.ofText, String.toList_ofList, Tokens.terminated_of_not_mem hnull,
    Tokens.terminated_of_not_mem hnull']
  exact scan_insert hpoint hgap p p

/-- A comment with a dash and a quote in it, right after the keyword of a function. -/
theorem told_parse_insert_comment :
    told (parse "fn/* -\" */ f();" "a" .start) = told (parse "fn f();" "a" .start) := by
  have hpoint : IsBeside "fn f();".toList "fn".toList " f();".toList :=
    ⟨.keyword .fn, [], "fn".toList, " f();".toList,
      .here (p := .start) (by decide) (by decide) rfl, .inr ⟨rfl, rfl⟩⟩
  have hgap : IsGap ('/' :: '*' :: (" -\" ".toList ++ '*' :: '/' :: [])) := .block (by decide) .nil
  exact told_parse_insert (by decide) hpoint hgap (by decide) "a" .start

end Declarations
end Bindery
