import Bindery.Decl.Parser.Param

/-!
# Reading functions

The generic parameters of a function are in scope in its parameters, its return type and its
`c_ret` attribute, and nowhere else.
-/
namespace Bindery.Tokens

/-- The bounds of a generic parameter after the first, each with a plus before it. -/
def moreBounds (seen : List String) (ts : Tokens) : Except Fault (List String × Tokens) :=
  match _hp : ts.punct? .plus with
  | .error fault => .error fault
  | .ok (false, rest) => .ok (seen, rest)
  | .ok (true, inner) =>
    match _h : inner.path with
    | .error fault => .error fault
    | .ok (bound, rest) => moreBounds (seen ++ [bound]) rest
termination_by ts.length
decreasing_by
  have := punct?_length _hp
  have := path_length _h
  omega

theorem moreBounds_length {seen all : List String} {ts rest : Tokens}
    (h : ts.moreBounds seen = .ok (all, rest)) : rest.length ≤ ts.length := by
  fun_induction moreBounds seen ts with
  | case1 | case3 => cases h
  | case2 _ _ _ hp =>
    cases h
    exact punct?_length hp
  | case4 _ _ _ hp _ _ hb ih =>
    have := ih h
    have := punct?_length hp
    have := path_length hb
    omega

def bounds (ts : Tokens) : Except Fault (List String × Tokens) := do
  match ← ts.punct? .colon with
  | (false, ts) => .ok ([], ts)
  | (true, ts) =>
    let (bound, ts) ← ts.path
    ts.moreBounds [bound]

theorem bounds_length {all : List String} {ts rest : Tokens}
    (h : ts.bounds = .ok (all, rest)) : rest.length ≤ ts.length := by
  simp only [bounds, bind, Except.bind] at h
  split at h
  · cases h
  · rename_i hc
    have := punct?_length hc
    split at h
    · cases h
      exact this
    · split at h
      · cases h
      · rename_i hp
        have := path_length hp
        have := moreBounds_length h
        dsimp only at *
        omega

def generic (ts : Tokens) : Except Fault (Generic × Tokens) :=
  match ts with
  | next ⟨.ident name, _⟩ rest => do
    let (bounds, rest) ← rest.bounds
    .ok (⟨name, bounds⟩, rest)
  | ts => ts.failAt fun t => .badGeneric t.lexeme.describe

theorem generic_length {g : Generic} {ts rest : Tokens} (h : ts.generic = .ok (g, rest)) :
    rest.length < ts.length := by
  unfold generic at h
  split at h
  · simp only [bind, Except.bind] at h
    split at h <;> cases h
    rename_i hb
    have := bounds_length hb
    simp only [length_next]
    omega
  · exact absurd h failAt_ne_ok

def genericItems : Rule (List Generic) Generic := ⟨fun _ ts => ts.generic, generic_length⟩

def genericList (ts : Tokens) : Except Fault (List Generic × Tokens) := do
  match ← ts.punct? .less with
  | (false, ts) => .ok ([], ts)
  | (true, ts) => separated genericItems .greater [] ts

theorem genericList_length {gs : List Generic} {ts rest : Tokens}
    (h : ts.genericList = .ok (gs, rest)) : rest.length ≤ ts.length := by
  simp only [genericList, bind, Except.bind] at h
  split at h
  · cases h
  · rename_i hc
    have := punct?_length hc
    split at h
    · cases h
      exact this
    · have := separated_length h
      dsimp only at *
      omega

/-- A function after its keywords, without the attributes. -/
def signature (isAsync : Bool) (pos : Position) (ts : Tokens) :
    Except Fault (Signature × Tokens) := do
  let (name, ts) ← ts.ident
  let (generics, ts) ← ts.genericList
  let scope := generics.map (·.name)
  let ts ← ts.punct .roundOpen
  let (params, ts) ← ts.paramList scope
  let (ret, ts) ← ts.returnType scope
  let ts ← ts.punct .semicolon
  .ok ({ name, params, ret, generics, isAsync, pos }, ts)

/-- A function with its attributes, whose name no function before it has. -/
def function (ds : Declarations) (attrs : List Attribute) (isAsync : Bool) (pos : Position)
    (ts : Tokens) : Except Fault (Declarations × Tokens) := do
  let (f, ts) ← ts.signature isAsync pos
  let f ← f.addAttributes attrs
  if f.name ∈ ds.functions.map (·.name) then .error ⟨pos, .duplicateFunction f.name⟩
  else .ok ({ ds with functions := ds.functions ++ [f] }, ts)

section
variable {ds ds' : Declarations} {attrs : List Attribute} {pos : Position} {ts rest : Tokens}

theorem signature_length {isAsync : Bool} {f : Signature}
    (h : ts.signature isAsync pos = .ok (f, rest)) : rest.length < ts.length := by
  obtain ⟨_, hi, h⟩ := bind_eq_ok.1 h
  obtain ⟨_, hg, h⟩ := bind_eq_ok.1 h
  obtain ⟨_, ho, h⟩ := bind_eq_ok.1 h
  obtain ⟨_, hp, h⟩ := bind_eq_ok.1 h
  obtain ⟨_, hr, h⟩ := bind_eq_ok.1 h
  obtain ⟨_, hs, h⟩ := bind_eq_ok.1 h
  cases h
  have := ident_length hi
  have := genericList_length hg
  have := punct_length ho
  have := paramList_length _ hp
  have := returnType_length _ hr
  have := punct_length hs
  omega

theorem function_length {isAsync : Bool} (h : ts.function ds attrs isAsync pos = .ok (ds', rest)) :
    rest.length < ts.length := by
  obtain ⟨_, hf, h⟩ := bind_eq_ok.1 h
  obtain ⟨_, _, h⟩ := bind_eq_ok.1 h
  split at h
  · cases h
  · cases h
    exact signature_length hf

end

end Bindery.Tokens
