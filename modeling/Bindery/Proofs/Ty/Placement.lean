import Bindery.Proofs.Syntax.Placement
import Bindery.Ty.Parser

/-!
# Types do not depend on positions

The rules that read paths, array suffixes, wrappers and whole types commute with the removal of
positions. A rule looks at a token through its lexeme only, which is why each proof goes through the
lexemes that the rule tells apart.
-/
namespace Bindery.Tokens

variable {scope : List String} {ts : Tokens}

theorem pathFrom_unplaced (name : String) :
    ts.unplaced.pathFrom name = unplacedRead id (ts.pathFrom name) := by
  fun_induction pathFrom name ts with
  | case1 name _ part rest _ ih =>
    simp only [unplaced_next, pathFrom]
    exact ih
  | case2 name _ ts h =>
    rcases ts with _ | _ | ⟨⟨l, pos⟩, rest⟩
    · rfl
    · rfl
    · cases l with
      | ident part => exact absurd rfl (h part pos rest)
      | _ => rfl
  | case3 => rfl
  | case4 name ts h h' h'' =>
    rcases ts with _ | fault | ⟨⟨l, pos⟩, rest⟩
    · rfl
    · exact absurd rfl (h'' fault)
    · cases l with
      | punct q =>
        cases q with
        | doubleColon => exact absurd rfl (h' _ _)
        | _ => rfl
      | _ => rfl

theorem path_unplaced : ts.unplaced.path = unplacedRead id ts.path :=
  bind_unplacedRead ident_unplaced fun name _ => pathFrom_unplaced name

theorem numberValue_unplaced (digits : String) (p : Position) :
    numberValue digits .start = unplacedBy id (numberValue digits p) := by
  simp only [numberValue]
  split <;> rfl

theorem arrayLength_unplaced (digits : String) (p : Position) :
    arrayLength digits .start = unplacedBy id (arrayLength digits p) := by
  refine bind_unplaced (numberValue_unplaced digits p) fun n => ?_
  dsimp only [id]
  split <;> rfl

theorem suffixes_unplaced (t : Ty) :
    ts.unplaced.suffixes t = unplacedRead id (ts.suffixes t) := by
  fun_induction suffixes t ts with
  | case1 t _ digits p ts fault h =>
    simp only [unplaced_next, suffixes, arrayLength_unplaced digits p, h]
    rfl
  | case2 t _ digits p n hn rest _ ih =>
    simp only [unplaced_next, suffixes, arrayLength_unplaced digits p, hn]
    exact ih
  | case3 t _ digits p n hn ts h =>
    simp only [unplaced_next, suffixes, arrayLength_unplaced digits p, hn]
    rcases ts with _ | _ | ⟨⟨l, pos⟩, rest⟩
    · rfl
    · rfl
    · cases l with
      | punct q =>
        cases q with
        | squareClose => exact absurd rfl (h _ _)
        | _ => rfl
      | _ => rfl
  | case4 t _ ts h =>
    rcases ts with _ | _ | ⟨⟨l, pos⟩, rest⟩
    · rfl
    · rfl
    · cases l with
      | number digits => exact absurd rfl (h _ _ _)
      | _ => rfl
  | case5 => rfl
  | case6 t ts h h' h'' =>
    rcases ts with _ | fault | ⟨⟨l, pos⟩, rest⟩
    · rfl
    · exact absurd rfl (h'' fault)
    · cases l with
      | punct q =>
        cases q with
        | squareOpen => exact absurd rfl (h' _ _)
        | _ => rfl
      | _ => rfl

theorem close_unplaced (outer : List Enclosure) (t : Ty) :
    close outer t ts.unplaced = unplacedRead id (close outer t ts) := by
  induction outer generalizing t ts with
  | nil => exact suffixes_unplaced t
  | cons e outer ih =>
    refine bind_unplacedRead (suffixes_unplaced t) fun t ts => ?_
    exact bind_unplaced (punct_unplaced .greater) fun ts => ih _

theorem noType_unplaced (outer : List Enclosure) (ts : Tokens) :
    noType outer ts.unplaced = unplacedRead id (noType outer ts) := by
  refine bind_unplaced head_unplaced fun t => ?_
  cases outer <;> rfl

theorem typeWithin_unplaced (outer : List Enclosure) :
    typeWithin scope outer ts.unplaced = unplacedRead id (typeWithin scope outer ts) := by
  fun_induction typeWithin scope outer ts with
  | case1 outer s _ rest | case3 outer _ rest | case4 outer _ rest =>
    exact bind_unplacedRead (close_unplaced outer _) fun t ts => rfl
  | case2 outer name _ rest =>
    refine bind_unplacedRead (pathFrom_unplaced name) fun name ts => ?_
    exact bind_unplacedRead (close_unplaced outer _) fun t ts => rfl
  | case5 outer k pos rest hstr hstrMut hk =>
    simp only [unplaced_next, typeWithin, hk]
    exact noType_unplaced outer (next ⟨_, pos⟩ rest)
  | case6 outer k pos hstr hstrMut e hk _ inner ih =>
    simp only [unplaced_next, typeWithin, hk]
    exact ih
  | case7 outer k pos hstr hstrMut e hk ts h =>
    simp only [unplaced_next, typeWithin, hk]
    rcases ts with _ | _ | ⟨⟨l, pos⟩, rest⟩
    · rfl
    · rfl
    · cases l with
      | punct q =>
        cases q with
        | less => exact absurd rfl (h _ _)
        | _ => rfl
      | _ => rfl
  | case8 outer ts hscalar hident _ _ hkeyword =>
    rcases ts with _ | _ | ⟨⟨l, pos⟩, rest⟩
    · exact noType_unplaced outer _
    · exact noType_unplaced outer (broken _)
    · cases l with
      | scalar s => exact absurd rfl (hscalar s pos rest)
      | ident name => exact absurd rfl (hident name pos rest)
      | keyword k => exact absurd rfl (hkeyword k pos rest)
      | _ => exact noType_unplaced outer (next ⟨_, pos⟩ rest)

theorem type?_unplaced : ts.unplaced.type? scope = unplacedRead id (ts.type? scope) :=
  typeWithin_unplaced []


end Bindery.Tokens
