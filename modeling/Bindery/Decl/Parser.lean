import Bindery.Decl.Parser.Function
import Bindery.Decl.Parser.Handle
import Bindery.Decl.Parser.Record

/-!
# Reading declarations

A text is a sequence of statements: a module name, a declaration with the attributes before it, or
a lone semicolon.
-/
namespace Bindery
namespace Tokens

/-- The parts of a module name after the first, each with a dot before it. -/
def moduleParts (seen : List String) : Tokens → Except Fault (List String × Tokens)
  | next ⟨.punct .dot, _⟩ (next ⟨.ident part, _⟩ rest) => moduleParts (seen ++ [part]) rest
  | next ⟨.punct .dot, _⟩ ts => ts.unexpected
  | broken fault => .error fault
  | ts => .ok (seen, ts)

def moduleName (ts : Tokens) : Except Fault (List String × Tokens) := do
  let (part, ts) ← ts.ident
  let (parts, ts) ← ts.moduleParts [part]
  let ts ← ts.punct .semicolon
  .ok (parts, ts)

/-- A declaration that begins here, after its attributes. -/
def declaration? (ds : Declarations) (attrs : List Attribute) :
    Tokens → Except Fault (Option Declarations × Tokens)
  | next ⟨.keyword .fn, pos⟩ rest => do
    let (ds, rest) ← rest.function ds attrs false pos
    .ok (some ds, rest)
  | next ⟨.keyword .async, pos⟩ (next ⟨.keyword .fn, _⟩ rest) => do
    let (ds, rest) ← rest.function ds attrs true pos
    .ok (some ds, rest)
  | next ⟨.keyword .struct, pos⟩ rest => do
    let (r, rest) ← rest.struct attrs pos
    .ok (some { ds with records := ds.records ++ [r] }, rest)
  | next ⟨.keyword .enum, pos⟩ rest => do
    let (e, rest) ← rest.enum attrs pos
    .ok (some { ds with enums := ds.enums ++ [e] }, rest)
  | next ⟨.keyword .handle, pos⟩ rest => do
    let (d, rest) ← rest.handle attrs pos
    .ok (some { ds with handles := ds.handles ++ [d] }, rest)
  | next ⟨.keyword .async, _⟩ (broken fault) => .error fault
  | broken fault => .error fault
  | ts => .ok (none, ts)

/-- A statement that begins here. -/
def statement? (ds : Declarations) (ts : Tokens) :
    Except Fault (Option Declarations × Tokens) :=
  match ts with
  | next ⟨.keyword .moduleName, pos⟩ rest =>
    if ds.modulePath ≠ [] then .error ⟨pos, .secondModule⟩
    else do
      let (parts, rest) ← rest.moduleName
      .ok (some { ds with modulePath := parts }, rest)
  | next ⟨.punct .semicolon, _⟩ rest => .ok (some ds, rest)
  | ts => do
    let (attrs, ts) ← ts.attributes []
    match ← ts.declaration? ds attrs, attrs with
    | (none, _), a :: _ => .error ⟨a.pos, .strayAttributes⟩
    | found, _ => .ok found

/-- A statement, where the end of the text is no longer an answer. -/
def oneStatement (ds : Declarations) (ts : Tokens) : Except Fault (Declarations × Tokens) :=
  match ts.statement? ds with
  | .error fault => .error fault
  | .ok (none, _) => ts.failAt fun _ => .expectedDeclaration
  | .ok (some ds, rest) => .ok (ds, rest)

section
variable {ds ds' : Declarations} {attrs : List Attribute} {pos : Position} {ts rest : Tokens}

theorem moduleParts_length {seen parts : List String}
    (h : ts.moduleParts seen = .ok (parts, rest)) : rest.length ≤ ts.length := by
  fun_induction moduleParts seen ts with
  | case1 seen q part r pos ih =>
    have := ih h
    simp only [length_next]
    omega
  | case2 => exact absurd h unexpected_ne_ok
  | case3 => cases h
  | case4 => cases h; exact Nat.le_refl _

theorem moduleName_length {parts : List String} (h : ts.moduleName = .ok (parts, rest)) :
    rest.length < ts.length := by
  obtain ⟨_, hi, h⟩ := bind_eq_ok.1 h
  obtain ⟨_, hp, h⟩ := bind_eq_ok.1 h
  obtain ⟨_, hs, h⟩ := bind_eq_ok.1 h
  cases h
  have := ident_length hi
  have := moduleParts_length hp
  have := punct_length hs
  omega

theorem declaration?_length (h : ts.declaration? ds attrs = .ok (some ds', rest)) :
    rest.length < ts.length := by
  unfold declaration? at h
  split at h
  · obtain ⟨_, hd, h⟩ := bind_eq_ok.1 h
    cases h
    exact Nat.lt_succ_of_lt (function_length hd)
  · obtain ⟨_, hd, h⟩ := bind_eq_ok.1 h
    cases h
    exact Nat.lt_succ_of_lt (Nat.lt_succ_of_lt (function_length hd))
  · obtain ⟨_, hd, h⟩ := bind_eq_ok.1 h
    cases h
    exact Nat.lt_succ_of_lt (struct_length hd)
  · obtain ⟨_, hd, h⟩ := bind_eq_ok.1 h
    cases h
    exact Nat.lt_succ_of_lt (enum_length hd)
  · obtain ⟨_, hd, h⟩ := bind_eq_ok.1 h
    cases h
    exact Nat.lt_succ_of_lt (handle_length hd)
  all_goals cases h

theorem statement?_length (h : ts.statement? ds = .ok (some ds', rest)) :
    rest.length < ts.length := by
  unfold statement? at h
  split at h
  · split at h
    · cases h
    · obtain ⟨_, hm, h⟩ := bind_eq_ok.1 h
      cases h
      exact Nat.lt_succ_of_lt (moduleName_length hm)
  · cases h; simp
  · obtain ⟨_, ha, h⟩ := bind_eq_ok.1 h
    obtain ⟨_, hd, h⟩ := bind_eq_ok.1 h
    have := attributes_length ha
    split at h
    · cases h
    · cases h
      exact Nat.lt_of_lt_of_le (declaration?_length hd) this

theorem oneStatement_length (h : ts.oneStatement ds = .ok (ds', rest)) :
    rest.length < ts.length := by
  unfold oneStatement at h
  split at h
  · cases h
  · exact absurd h failAt_ne_ok
  · cases h
    exact statement?_length ‹_›

end

/-- All statements up to the end of the text, added to the declarations before them. -/
def statements (ds : Declarations) (ts : Tokens) : Except Fault Declarations :=
  match ts with
  | done _ => .ok ds
  | ts =>
    match _h : ts.oneStatement ds with
    | .error fault => .error fault
    | .ok (ds, rest) => statements ds rest
termination_by ts.length
decreasing_by exact oneStatement_length _h

end Tokens

/-- The declarations that a text spells, where the text begins at a position of a file. -/
def Declarations.parse (text file : String) (p : Position) : Except SyntaxError Declarations :=
  match (Tokens.ofText text p).statements {} with
  | .ok ds => .ok ds
  | .error fault => .error ⟨file, fault⟩

end Bindery
