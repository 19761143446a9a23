import Bindery.Decl.Parser.Param

/-!
# Reading structs and enumerations

A struct is only declared, or defined by its fields. An enumerator without a value of its own gets
the one after its predecessor's, within the bounds of the integer kind.
-/
namespace Bindery.Tokens

/-- A field whose name no field before it has. -/
def newField (r : Record) (ts : Tokens) : Except Fault (Record × Tokens) :=
  match ts.param? [] with
  | .error fault => .error fault
  | .ok (none, _) => ts.failAt fun _ => .expectedField
  | .ok (some field, rest) =>
    match rest.punct .semicolon with
    | .error fault => .error fault
    | .ok rest =>
      if field.name ∈ r.fields.map (·.name) then
        ts.failAt fun _ => .duplicateField field.name r.name
      else .ok ({ r with fields := r.fields ++ [field] }, rest)

theorem newField_length {r r' : Record} {ts rest : Tokens}
    (h : ts.newField r = .ok (r', rest)) : rest.length < ts.length := by
  unfold newField at h
  split at h
  · cases h
  · exact absurd h failAt_ne_ok
  · rename_i hp
    split at h
    · cases h
    · rename_i hs
      split at h
      · exact absurd h failAt_ne_ok
      · cases h
        have := param?_length _ hp
        have := punct_length hs
        omega

def fields : Rule Record Record := ⟨fun r ts => ts.newField r, newField_length⟩

/-- A struct after its keyword: its name alone, or with its fields. -/
def struct (attrs : List Attribute) (pos : Position) (ts : Tokens) :
    Except Fault (Record × Tokens) := do
  let (name, ts) ← ts.path
  let r ← Record.addAttributes { name, pos } attrs
  match ← ts.punct? .semicolon with
  | (true, ts) => .ok (r, ts)
  | (false, ts) =>
    if ':' ∈ name.toList then .error ⟨pos, .qualifiedDefinition name⟩
    else do
      let ts ← ts.punct .curlyOpen
      let (r, ts) ← block fields .curlyClose { r with isDefined := true } ts
      if r.fields = [] then .error ⟨pos, .emptyStruct name⟩ else .ok (r, ts)

/-- The integer kind of an enumeration, if a colon announces one. -/
def intKind (ts : Tokens) : Except Fault (IntKind × Tokens) := do
  match ← ts.punct? .colon with
  | (false, ts) => .ok (.i32, ts)
  | (true, ts) =>
    match ts with
    | next ⟨.scalar (.int kind), _⟩ rest => .ok (kind, rest)
    | ts => ts.failAt fun _ => .expectedIntKind

/-- An enumerator, whose value is the given one unless it states its own. -/
def enumItem (enum : String) (kind : IntKind) (seen : List (String × Int)) (implicit : Int) :
    Tokens → Except Fault ((String × Int) × Tokens)
  | next ⟨.ident name, pos⟩ rest =>
    if name ∈ seen.map (·.1) then .error ⟨pos, .duplicateItem name enum⟩
    else
      match rest with
      | next ⟨.punct .assign, _⟩ (next ⟨.number digits, at_⟩ rest) => do
        let value ← numberValue digits at_
        if kind.range.1 ≤ value ∧ value ≤ kind.range.2 then .ok ((name, value), rest)
        else .error ⟨at_, .valueOutside digits name kind.name⟩
      | next ⟨.punct .assign, _⟩ ts => ts.unexpected
      | broken fault => .error fault
      | ts =>
        if kind.range.1 ≤ implicit ∧ implicit ≤ kind.range.2 then .ok ((name, implicit), ts)
        else .error ⟨pos, .implicitOutside name kind.name⟩
  | ts => ts.unexpected

theorem enumItem_length {enum : String} {kind : IntKind} {seen : List (String × Int)}
    {implicit : Int} {item : String × Int} {ts rest : Tokens}
    (h : enumItem enum kind seen implicit ts = .ok (item, rest)) : rest.length < ts.length := by
  unfold enumItem at h
  split at h
  · split at h
    · cases h
    · split at h
      · simp only [bind, Except.bind] at h
        split at h
        · cases h
        · split at h <;> cases h
          simp only [length_next]
          omega
      · exact absurd h unexpected_ne_ok
      · cases h
      · split at h <;> cases h
        simp
  · exact absurd h unexpected_ne_ok

/-- Enumerators up to the closing bracket; a comma may follow the last one. -/
def enumItems (enum : String) (kind : IntKind) (seen : List (String × Int)) (implicit : Int)
    (ts : Tokens) : Except Fault (List (String × Int) × Tokens) :=
  match _hc : ts.punct? .curlyClose with
  | .error fault => .error fault
  | .ok (true, rest) => .ok (seen, rest)
  | .ok (false, atItem) =>
    match _h : enumItem enum kind seen implicit atItem with
    | .error fault => .error fault
    | .ok (item, afterItem) =>
      match _hl : afterItem.punct? .curlyClose with
      | .error fault => .error fault
      | .ok (true, rest) => .ok (seen ++ [item], rest)
      | .ok (false, atComma) =>
        match _hk : atComma.punct .comma with
        | .error fault => .error fault
        | .ok rest => enumItems enum kind (seen ++ [item]) (item.2 + 1) rest
termination_by ts.length
decreasing_by
  have := punct?_length _hc
  have := enumItem_length _h
  have := punct?_length _hl
  have := punct_length _hk
  omega

/-- An enumeration after its keyword. -/
def enum (attrs : List Attribute) (pos : Position) (ts : Tokens) :
    Except Fault (Enum × Tokens) := do
  let (name, ts) ← ts.ident
  Attribute.refuse .enum name attrs
  let (kind, ts) ← ts.intKind
  let ts ← ts.punct .curlyOpen
  let (items, ts) ← enumItems name kind [] 0 ts
  if items = [] then .error ⟨pos, .emptyEnum name⟩ else .ok ({ name, kind, items, pos }, ts)

section
variable {attrs : List Attribute} {pos : Position} {ts rest : Tokens}

theorem struct_length {r : Record} (h : ts.struct attrs pos = .ok (r, rest)) :
    rest.length < ts.length := by
  obtain ⟨_, hn, h⟩ := bind_eq_ok.1 h
  obtain ⟨_, _, h⟩ := bind_eq_ok.1 h
  obtain ⟨_, hs, h⟩ := bind_eq_ok.1 h
  have := path_length hn
  have := punct?_length hs
  split at h
  · cases h
    dsimp only at *
    omega
  · split at h
    · cases h
    · obtain ⟨_, ho, h⟩ := bind_eq_ok.1 h
      obtain ⟨⟨_, _⟩, hb, h⟩ := bind_eq_ok.1 h
      have := punct_length ho
      have := block_length hb
      dsimp only at h
      split at h
      · cases h
      · cases h
        dsimp only at *
        omega

theorem intKind_length {kind : IntKind} (h : ts.intKind = .ok (kind, rest)) :
    rest.length ≤ ts.length := by
  obtain ⟨_, hc, h⟩ := bind_eq_ok.1 h
  have := punct?_length hc
  split at h
  · cases h
    exact this
  · split at h
    · cases h
      simp only [length_next] at this
      omega
    · exact absurd h failAt_ne_ok

theorem enumItems_length {name : String} {kind : IntKind} {seen items : List (String × Int)}
    {implicit : Int} (h : enumItems name kind seen implicit ts = .ok (items, rest)) :
    rest.length ≤ ts.length := by
  fun_induction enumItems name kind seen implicit ts with
  | case1 | case3 | case4 | case6 => cases h
  | case2 _ _ _ _ hc =>
    cases h
    exact punct?_length hc
  | case5 _ _ _ _ hc _ _ hi _ hl =>
    cases h
    have := punct?_length hc
    have := enumItem_length hi
    have := punct?_length hl
    omega
  | case7 _ _ _ _ hc _ _ hi _ hl _ hk ih =>
    have := ih h
    have := punct?_length hc
    have := enumItem_length hi
    have := punct?_length hl
    have := punct_length hk
    omega

theorem enum_length {e : Enum} (h : ts.enum attrs pos = .ok (e, rest)) :
    rest.length < ts.length := by
  obtain ⟨_, hn, h⟩ := bind_eq_ok.1 h
  obtain ⟨_, _, h⟩ := bind_eq_ok.1 h
  obtain ⟨_, hk, h⟩ := bind_eq_ok.1 h
  obtain ⟨_, ho, h⟩ := bind_eq_ok.1 h
  obtain ⟨⟨_, _⟩, hi, h⟩ := bind_eq_ok.1 h
  have := ident_length hn
  have := intKind_length hk
  have := punct_length ho
  have := enumItems_length hi
  dsimp only at h
  split at h
  · cases h
  · cases h
    omega

end

end Bindery.Tokens
