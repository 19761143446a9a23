import Bindery.Decl.Attribute

/-!
# Reading parameters and return types

A parameter is a name with a type; the names of one list are distinct.
-/
namespace Bindery.Tokens

variable (scope : List String)

/-- A parameter, or a field of a struct, if a name with a colon comes first. -/
def param? (ts : Tokens) : Except Fault (Option Param × Tokens) := do
  let _ ← ts.head
  match ts with
  | next ⟨.ident name, _⟩ (next ⟨.punct .colon, _⟩ rest) =>
    match ← rest.type? scope with
    | (some t, rest) => .ok (some ⟨name, t⟩, rest)
    | (none, rest) => rest.failAt fun _ => .expectedParamType name
  | next ⟨.ident _, _⟩ (broken fault) => .error fault
  | ts => .ok (none, ts)

theorem param?_length {p : Param} {ts rest : Tokens}
    (h : ts.param? scope = .ok (some p, rest)) : rest.length < ts.length := by
  simp only [param?, bind, Except.bind] at h
  split at h
  · cases h
  · split at h
    · split at h
      · cases h
      · rename_i ht
        split at h
        · cases h
          have := type?_length ht
          simp only [length_next]
          omega
        · exact absurd h failAt_ne_ok
    · cases h
    · cases h

/-- A parameter whose name none before it has. -/
def newParam (seen : List Param) (ts : Tokens) : Except Fault (Param × Tokens) :=
  match ts.param? scope with
  | .error fault => .error fault
  | .ok (none, _) => ts.failAt fun _ => .expectedParam
  | .ok (some p, rest) =>
    if p.name ∈ seen.map (·.name) then ts.failAt fun _ => .duplicateParam p.name
    else .ok (p, rest)

theorem newParam_length {seen : List Param} {p : Param} {ts rest : Tokens}
    (h : ts.newParam scope seen = .ok (p, rest)) : rest.length < ts.length := by
  unfold newParam at h
  split at h
  · cases h
  · exact absurd h failAt_ne_ok
  · rename_i hp
    split at h
    · exact absurd h failAt_ne_ok
    · cases h
      exact param?_length scope hp

def params : Rule (List Param) Param :=
  ⟨fun seen ts => ts.newParam scope seen, newParam_length scope⟩

/-- The parameters after an opening bracket, up to the closing one. -/
def paramList (ts : Tokens) : Except Fault (List Param × Tokens) := do
  match ← ts.punct? .roundClose with
  | (true, ts) => .ok ([], ts)
  | (false, ts) => separated (params scope) .roundClose [] ts

/-- The parameters of a method after its first one, each with a comma before it. -/
def moreParams (ts : Tokens) : Except Fault (List Param × Tokens) := do
  match ← ts.punct? .roundClose with
  | (true, ts) => .ok ([], ts)
  | (false, ts) =>
    let ts ← ts.punct .comma
    separated (params scope) .roundClose [] ts

/-- The type after an arrow, or else the void type. -/
def returnType (ts : Tokens) : Except Fault (Ty × Tokens) := do
  match ← ts.punct? .arrow with
  | (false, ts) => .ok (.void, ts)
  | (true, ts) =>
    match ← ts.type? scope with
    | (some t, ts) => .ok (t, ts)
    | (none, ts) => ts.failAt fun _ => .expectedReturnType

theorem paramList_length {ps : List Param} {ts rest : Tokens}
    (h : ts.paramList scope = .ok (ps, rest)) : rest.length ≤ ts.length := by
  simp only [paramList, bind, Except.bind] at h
  split at h
  · cases h
  · rename_i hc
    have := punct?_length hc
    split at h
    · cases h
      exact this
    · have := separated_length h
      dsimp only at *
      omega

theorem moreParams_length {ps : List Param} {ts rest : Tokens}
    (h : ts.moreParams scope = .ok (ps, rest)) : rest.length ≤ ts.length := by
  simp only [moreParams, bind, Except.bind] at h
  split at h
  · cases h
  · rename_i hc
    have := punct?_length hc
    split at h
    · cases h
      exact this
    · split at h
      · cases h
      · rename_i hk
        have := punct_length hk
        have := separated_length h
        dsimp only at *
        omega

theorem returnType_length {t : Ty} {ts rest : Tokens}
    (h : ts.returnType scope = .ok (t, rest)) : rest.length ≤ ts.length := by
  simp only [returnType, bind, Except.bind] at h
  split at h
  · cases h
  · rename_i ha
    have := punct?_length ha
    split at h
    · cases h
      exact this
    · split at h
      · cases h
      · rename_i ht
        split at h
        · cases h
          have := type?_length ht
          dsimp only at *
          omega
        · exact absurd h failAt_ne_ok

end Bindery.Tokens
