import Bindery.Syntax.Token

/-!
# Sequences of items

Items are read in two ways: separated by commas up to a closing mark, with at least one item, or
one after the other until a closing mark, with none or more. An item may depend on those before it,
and each takes at least one token, so both ways end.
-/
namespace Bindery.Tokens

/-- A rule takes at least one token whenever it succeeds. -/
structure Rule (σ α : Type) where
  run : σ → Tokens → Except Fault (α × Tokens)
  shorter : ∀ {s ts a rest}, run s ts = .ok (a, rest) → rest.length < ts.length

variable {σ α : Type}

/-- Items separated by commas up to a closing mark, after those already seen. -/
def separated (item : Rule (List α) α) (closing : Punct) (seen : List α) (ts : Tokens) :
    Except Fault (List α × Tokens) :=
  match _h : item.run seen ts with
  | .error fault => .error fault
  | .ok (a, afterItem) =>
    match _hc : afterItem.punct? closing with
    | .error fault => .error fault
    | .ok (true, rest) => .ok (seen ++ [a], rest)
    | .ok (false, atComma) =>
      match _hk : atComma.punct .comma with
      | .error fault => .error fault
      | .ok rest => separated item closing (seen ++ [a]) rest
termination_by ts.length
decreasing_by
  have := item.shorter _h
  have := punct?_length _hc
  have := punct_length _hk
  omega

/-- Items up to a closing mark, each of which changes a state. -/
def block (item : Rule σ σ) (closing : Punct) (s : σ) (ts : Tokens) : Except Fault (σ × Tokens) :=
  match _hc : ts.punct? closing with
  | .error fault => .error fault
  | .ok (true, rest) => .ok (s, rest)
  | .ok (false, atItem) =>
    match _h : item.run s atItem with
    | .error fault => .error fault
    | .ok (s, rest) => block item closing s rest
termination_by ts.length
decreasing_by
  have := item.shorter _h
  have := punct?_length _hc
  omega

theorem separated_length {item : Rule (List α) α} {closing : Punct} {seen items : List α}
    {ts rest : Tokens} (h : separated item closing seen ts = .ok (items, rest)) :
    rest.length < ts.length := by
  fun_induction separated item closing seen ts with
  | case1 | case2 | case4 => cases h
  | case3 _ _ _ _ hi _ hc =>
    cases h
    have := item.shorter hi
    have := punct?_length hc
    omega
  | case5 _ _ _ _ hi _ hc _ hk ih =>
    have := ih h
    have := item.shorter hi
    have := punct?_length hc
    have := punct_length hk
    omega

theorem block_length {item : Rule σ σ} {closing : Punct} {s s' : σ} {ts rest : Tokens}
    (h : block item closing s ts = .ok (s', rest)) : rest.length ≤ ts.length := by
  fun_induction block item closing s ts with
  | case1 | case3 => cases h
  | case2 _ _ _ hc =>
    cases h
    exact punct?_length hc
  | case4 _ _ _ hc _ _ hi ih =>
    have := ih h
    have := item.shorter hi
    have := punct?_length hc
    omega

end Bindery.Tokens
