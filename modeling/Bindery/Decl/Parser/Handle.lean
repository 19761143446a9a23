import Bindery.Decl.Parser.Param

/-!
# Reading handles

A handle has constructors, one destructor and methods, each bound to a foreign symbol.
-/
namespace Bindery.Tokens

def symbol (ts : Tokens) : Except Fault (String × Tokens) := do
  let ts ← ts.punct .assign
  let (name, ts) ← ts.ident
  let ts ← ts.punct .semicolon
  .ok (name, ts)

def constructor (ts : Tokens) : Except Fault (Constructor × Tokens) := do
  let (name, ts) ← ts.ident
  let ts ← ts.punct .roundOpen
  let (params, ts) ← ts.paramList []
  let (symbol, ts) ← ts.symbol
  .ok ({ name, params, symbol }, ts)

/-- The first parameter of a method, `self` with or without `mut`. -/
def selfParam (method : String) (ts : Tokens) : Except Fault (Bool × Tokens) := do
  let _ ← ts.head
  match ts with
  | next ⟨.keyword .self, _⟩ rest => .ok (false, rest)
  | next ⟨.keyword .mutable, _⟩ (next ⟨.keyword .self, _⟩ rest) => .ok (true, rest)
  | next ⟨.keyword .mutable, _⟩ ts => ts.failAt fun _ => .missingSelf method
  | ts => ts.failAt fun _ => .missingSelf method

def method (ts : Tokens) : Except Fault (Method × Tokens) := do
  let (name, ts) ← ts.ident
  let ts ← ts.punct .roundOpen
  let (mutable, ts) ← ts.selfParam name
  let (params, ts) ← ts.moreParams []
  let (ret, ts) ← ts.returnType []
  let (symbol, ts) ← ts.symbol
  .ok ({ name, mutable, params, ret, symbol }, ts)

section
variable {ts rest : Tokens}

theorem symbol_length {name : String} (h : ts.symbol = .ok (name, rest)) :
    rest.length < ts.length := by
  obtain ⟨_, ha, h⟩ := bind_eq_ok.1 h
  obtain ⟨_, hi, h⟩ := bind_eq_ok.1 h
  obtain ⟨_, hs, h⟩ := bind_eq_ok.1 h
  cases h
  have := punct_length ha
  have := ident_length hi
  have := punct_length hs
  omega

theorem constructor_length {c : Constructor} (h : ts.constructor = .ok (c, rest)) :
    rest.length < ts.length := by
  obtain ⟨_, hi, h⟩ := bind_eq_ok.1 h
  obtain ⟨_, ho, h⟩ := bind_eq_ok.1 h
  obtain ⟨_, hp, h⟩ := bind_eq_ok.1 h
  obtain ⟨_, hs, h⟩ := bind_eq_ok.1 h
  cases h
  have := ident_length hi
  have := punct_length ho
  have := paramList_length _ hp
  have := symbol_length hs
  omega

theorem selfParam_length {name : String} {mutable : Bool}
    (h : ts.selfParam name = .ok (mutable, rest)) : rest.length < ts.length := by
  obtain ⟨_, _, h⟩ := bind_eq_ok.1 h
  split at h
  · cases h; simp
  · cases h
    simp only [length_next]
    omega
  · exact absurd h failAt_ne_ok
  · exact absurd h failAt_ne_ok

theorem method_length {m : Method} (h : ts.method = .ok (m, rest)) :
    rest.length < ts.length := by
  obtain ⟨_, hi, h⟩ := bind_eq_ok.1 h
  obtain ⟨_, ho, h⟩ := bind_eq_ok.1 h
  obtain ⟨_, hf, h⟩ := bind_eq_ok.1 h
  obtain ⟨_, hp, h⟩ := bind_eq_ok.1 h
  obtain ⟨_, hr, h⟩ := bind_eq_ok.1 h
  obtain ⟨_, hs, h⟩ := bind_eq_ok.1 h
  cases h
  have := ident_length hi
  have := punct_length ho
  have := selfParam_length hf
  have := moreParams_length _ hp
  have := returnType_length _ hr
  have := symbol_length hs
  omega

end

/-- A constructor, the destructor or a method of a handle. -/
def handleItem (h : Handle) (ts : Tokens) : Except Fault (Handle × Tokens) :=
  match ts with
  | next ⟨.keyword .ctor, _⟩ rest => do
    let (c, rest) ← rest.constructor
    .ok ({ h with constructors := h.constructors ++ [c] }, rest)
  | next ⟨.keyword .dtor, pos⟩ rest =>
    if h.destructor ≠ none then .error ⟨pos, .secondDestructor h.name⟩
    else do
      let (symbol, rest) ← rest.symbol
      .ok ({ h with destructor := some symbol }, rest)
  | next ⟨.keyword .fn, _⟩ rest => do
    let (m, rest) ← rest.method
    .ok ({ h with methods := h.methods ++ [m] }, rest)
  | ts => ts.unexpected

theorem handleItem_length {d d' : Handle} {ts rest : Tokens}
    (h : ts.handleItem d = .ok (d', rest)) : rest.length < ts.length := by
  unfold handleItem at h
  split at h
  · obtain ⟨_, hc, h⟩ := bind_eq_ok.1 h
    cases h
    have := constructor_length hc
    simp only [length_next]
    omega
  · split at h
    · cases h
    · obtain ⟨_, hs, h⟩ := bind_eq_ok.1 h
      cases h
      have := symbol_length hs
      simp only [length_next]
      omega
  · obtain ⟨_, hm, h⟩ := bind_eq_ok.1 h
    cases h
    have := method_length hm
    simp only [length_next]
    omega
  · exact absurd h unexpected_ne_ok

def handleItems : Rule Handle Handle := ⟨fun d ts => ts.handleItem d, handleItem_length⟩

/-- A handle after its keyword. -/
def handle (attrs : List Attribute) (pos : Position) (ts : Tokens) :
    Except Fault (Handle × Tokens) := do
  let (name, ts) ← ts.ident
  Attribute.refuse .handle name attrs
  let ts ← ts.punct .curlyOpen
  let (d, ts) ← block handleItems .curlyClose { name, pos } ts
  if d.destructor = none then .error ⟨pos, .noDestructor name⟩
  else if d.constructors = [] then .error ⟨pos, .noConstructor name⟩
  else .ok (d, ts)

section
variable {attrs : List Attribute} {pos : Position} {ts rest : Tokens}

theorem handle_length {d : Handle} (h : ts.handle attrs pos = .ok (d, rest)) :
    rest.length < ts.length := by
  obtain ⟨_, hn, h⟩ := bind_eq_ok.1 h
  obtain ⟨_, _, h⟩ := bind_eq_ok.1 h
  obtain ⟨_, ho, h⟩ := bind_eq_ok.1 h
  obtain ⟨⟨_, _⟩, hb, h⟩ := bind_eq_ok.1 h
  have := ident_length hn
  have := punct_length ho
  have := block_length hb
  dsimp only at h
  split at h
  · cases h
  · split at h
    · cases h
    · cases h
      omega

end

end Bindery.Tokens
