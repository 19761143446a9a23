import Bindery.Proofs.Decl.Placement
import Bindery.Proofs.Decl.Sound

/-!
# Declarations do not depend on positions

Each rule of the declaration grammar commutes with the removal of positions, and so does the whole
reader: texts with the same tokens in different places declare the same, or are rejected for the
same cause.
-/
namespace Bindery.Tokens

/-! ### Functions -/

section functions
variable {ts : Tokens}

theorem moreBounds_eq (seen : List String) (ts : Tokens) :
    ts.moreBounds seen = (do
      match ← ts.punct? .plus with
      | (false, ts) => .ok (seen, ts)
      | (true, ts) =>
        let (bound, ts) ← ts.path
        ts.moreBounds (seen ++ [bound])) := by
  rw [moreBounds]
  split
  all_goals
    rename_i hc
    simp only [bind, Except.bind, hc]
  split <;> rename_i hi <;> simp only [hi]

theorem moreBounds_unplaced (seen : List String) :
    ts.unplaced.moreBounds seen = unplacedRead id (ts.moreBounds seen) := by
  fun_induction moreBounds seen ts with
  | case1 seen ts fault hc =>
    rw [moreBounds_eq, punct?_unplaced, hc]
    rfl
  | case2 seen ts rest hc =>
    rw [moreBounds_eq, punct?_unplaced, hc]
    rfl
  | case3 seen ts inner hc fault hp =>
    rw [moreBounds_eq, punct?_unplaced, hc]
    simp only [unplacedRead_ok, bind, Except.bind, id, path_unplaced, hp, unplacedRead_error]
  | case4 seen ts inner hc bound rest hp ih =>
    rw [moreBounds_eq, punct?_unplaced, hc]
    simp only [unplacedRead_ok, bind, Except.bind, id, path_unplaced, hp]
    exact ih

theorem bounds_unplaced : ts.unplaced.bounds = unplacedRead id ts.bounds := by
  refine bind_unplacedRead (punct?_unplaced .colon) fun found ts => ?_
  cases found with
  | false => rfl
  | true => exact bind_unplacedRead path_unplaced fun bound ts => moreBounds_unplaced [bound]

theorem generic_unplaced : ts.unplaced.generic = unplacedRead id ts.generic := by
  rcases ts with p | fault | ⟨⟨l, p⟩, rest⟩
  · rfl
  · rfl
  · cases l with
    | ident name => exact bind_unplacedRead bounds_unplaced fun bounds ts => rfl
    | _ => rfl

theorem genericList_unplaced : ts.unplaced.genericList = unplacedRead id ts.genericList := by
  refine bind_unplacedRead (punct?_unplaced .less) fun found ts => ?_
  cases found with
  | false => rfl
  | true => exact separated_unplaced_id .greater (fun _ _ => generic_unplaced) []

theorem signature_unplaced (isAsync : Bool) (pos : Position) :
    ts.unplaced.signature isAsync .start =
      unplacedRead Signature.unplaced (ts.signature isAsync pos) := by
  refine bind_unplacedRead ident_unplaced fun name ts => ?_
  refine bind_unplacedRead genericList_unplaced fun generics ts => ?_
  refine bind_unplaced (punct_unplaced .roundOpen) fun ts => ?_
  refine bind_unplacedRead paramList_unplaced fun params ts => ?_
  refine bind_unplacedRead returnType_unplaced fun ret ts => ?_
  exact bind_unplaced (punct_unplaced .semicolon) fun ts => rfl

theorem function_unplaced (ds : Declarations) (attrs : List Attribute) (isAsync : Bool)
    (pos : Position) :
    ts.unplaced.function ds.unplaced (attrs.map (·.unplaced)) isAsync .start =
      unplacedRead Declarations.unplaced (ts.function ds attrs isAsync pos) := by
  refine bind_unplacedRead (signature_unplaced isAsync pos) fun f ts => ?_
  refine bind_unplaced (f.addAttributes_unplaced attrs) fun f => ?_
  have hnames : ds.unplaced.functions.map (·.name) = ds.functions.map (·.name) := by
    simp [Declarations.unplaced, Signature.unplaced]
  simp only [hnames]
  change (if f.name ∈ ds.functions.map (·.name) then _ else _) = _
  split
  · rfl
  · simp [Declarations.unplaced]

end functions

/-! ### Structs, enumerations and handles -/

section bodies
variable {ts : Tokens}

theorem newField_unplaced (r : Record) :
    ts.unplaced.newField r.unplaced = unplacedRead Record.unplaced (ts.newField r) := by
  unfold newField
  rw [param?_unplaced]
  rcases ts.param? [] with fault | ⟨_ | field, rest⟩
  · rfl
  · exact failAt_unplaced fun _ => rfl
  · simp only [unplacedRead_ok, id, punct_unplaced]
    rcases rest.punct .semicolon with fault | rest
    · rfl
    · change (if field.name ∈ r.fields.map (·.name) then _ else _) = _
      dsimp only
      split
      · exact failAt_unplaced fun _ => rfl
      · rfl

theorem fields_unplaced (r : Record) : block fields .curlyClose r.unplaced ts.unplaced =
    unplacedRead Record.unplaced (block fields .curlyClose r ts) :=
  block_unplaced .curlyClose (fun r _ => newField_unplaced r) r

theorem struct_unplaced (attrs : List Attribute) (pos : Position) :
    ts.unplaced.struct (attrs.map (·.unplaced)) .start =
      unplacedRead Record.unplaced (ts.struct attrs pos) := by
  refine bind_unplacedRead path_unplaced fun name ts => ?_
  refine bind_unplaced (Record.addAttributes_unplaced ⟨name, [], false, false, pos⟩ attrs)
    fun r => ?_
  refine bind_unplacedRead (punct?_unplaced .semicolon) fun ends ts => ?_
  cases ends with
  | true => rfl
  | false =>
    dsimp only [id]
    split
    · rfl
    · refine bind_unplaced (punct_unplaced .curlyOpen) fun ts => ?_
      refine bind_unplacedRead (fields_unplaced { r with isDefined := true }) fun r ts => ?_
      change (if r.fields = [] then _ else _) = _
      dsimp only
      split <;> rfl

theorem intKind_unplaced : ts.unplaced.intKind = unplacedRead id ts.intKind := by
  refine bind_unplacedRead (punct?_unplaced .colon) fun found ts => ?_
  cases found with
  | false => rfl
  | true =>
    rcases ts with p | fault | ⟨⟨l, p⟩, rest⟩
    · rfl
    · rfl
    · cases l with
      | scalar s => cases s <;> rfl
      | _ => rfl

theorem enumItem_unplaced (enum : String) (kind : IntKind) (seen : List (String × Int))
    (implicit : Int) :
    enumItem enum kind seen implicit ts.unplaced =
      unplacedRead id (enumItem enum kind seen implicit ts) := by
  have himplicit (name : String) (p : Position) (ts : Tokens) :
      (if kind.range.1 ≤ implicit ∧ implicit ≤ kind.range.2 then .ok ((name, implicit), ts.unplaced)
        else .error ⟨.start, .implicitOutside name kind.name⟩) =
      unplacedRead id (if kind.range.1 ≤ implicit ∧ implicit ≤ kind.range.2 then
        .ok ((name, implicit), ts) else .error ⟨p, .implicitOutside name kind.name⟩) := by
    split <;> rfl
  rcases ts with p | fault | ⟨⟨l, p⟩, ts⟩
  · rfl
  · rfl
  · cases l with
    | ident name =>
      simp only [unplaced_next, enumItem]
      split
      · rfl
      · rcases ts with q | fault | ⟨⟨l, q⟩, ts⟩
        · exact himplicit name p (done q)
        · rfl
        · have hnext := himplicit name p (next ⟨l, q⟩ ts)
          cases l with
          | punct mark =>
            cases mark with
            | assign =>
              rcases ts with r | fault | ⟨⟨l, r⟩, ts⟩
              · rfl
              · rfl
              · cases l with
                | number digits =>
                  refine bind_unplaced (numberValue_unplaced digits r) fun value => ?_
                  dsimp only [id]
                  split <;> rfl
                | _ => rfl
            | _ => exact hnext
          | _ => exact hnext
    | _ => rfl

theorem enumItems_eq (enum : String) (kind : IntKind) (seen : List (String × Int))
    (implicit : Int) (ts : Tokens) :
    enumItems enum kind seen implicit ts = (do
      match ← ts.punct? .curlyClose with
      | (true, ts) => .ok (seen, ts)
      | (false, ts) =>
        let (item, ts) ← enumItem enum kind seen implicit ts
        match ← ts.punct? .curlyClose with
        | (true, ts) => .ok (seen ++ [item], ts)
        | (false, ts) =>
          let ts ← ts.punct .comma
          enumItems enum kind (seen ++ [item]) (item.2 + 1) ts) := by
  rw [enumItems]
  split
  all_goals
    rename_i hc
    simp only [bind, Except.bind, hc]
  split
  all_goals
    rename_i hi
    simp only [hi]
  split
  all_goals
    rename_i hl
    simp only [hl]
  split <;> rename_i hk <;> simp only [hk]

theorem enumItems_unplaced (enum : String) (kind : IntKind) (seen : List (String × Int))
    (implicit : Int) :
    enumItems enum kind seen implicit ts.unplaced =
      unplacedRead id (enumItems enum kind seen implicit ts) := by
  fun_induction enumItems enum kind seen implicit ts with
  | case1 seen implicit ts fault hc =>
    rw [enumItems_eq, punct?_unplaced, hc]
    rfl
  | case2 seen implicit ts rest hc =>
    rw [enumItems_eq, punct?_unplaced, hc]
    rfl
  | case3 seen implicit ts atItem hc fault hi =>
    rw [enumItems_eq, punct?_unplaced, hc]
    simp only [unplacedRead_ok, bind, Except.bind, id, enumItem_unplaced, hi, unplacedRead_error]
  | case4 seen implicit ts atItem hc item after hi fault hl =>
    rw [enumItems_eq, punct?_unplaced, hc]
    simp only [unplacedRead_ok, bind, Except.bind, id, enumItem_unplaced, hi, punct?_unplaced, hl,
      unplacedRead_error]
  | case5 seen implicit ts atItem hc item after hi rest hl =>
    rw [enumItems_eq, punct?_unplaced, hc]
    simp only [unplacedRead_ok, bind, Except.bind, id, enumItem_unplaced, hi, punct?_unplaced, hl]
  | case6 seen implicit ts atItem hc item after hi atComma hl fault hk =>
    rw [enumItems_eq, punct?_unplaced, hc]
    simp only [unplacedRead_ok, bind, Except.bind, id, enumItem_unplaced, hi, punct?_unplaced, hl,
      punct_unplaced, hk, unplacedBy_error, unplacedRead_error]
  | case7 seen implicit ts atItem hc item after hi atComma hl rest hk ih =>
    rw [enumItems_eq, punct?_unplaced, hc]
    simp only [unplacedRead_ok, bind, Except.bind, id, enumItem_unplaced, hi, punct?_unplaced, hl,
      punct_unplaced, hk, unplacedBy_ok]
    exact ih

theorem enum_unplaced (attrs : List Attribute) (pos : Position) :
    ts.unplaced.enum (attrs.map (·.unplaced)) .start =
      unplacedRead Enum.unplaced (ts.enum attrs pos) := by
  refine bind_unplacedRead ident_unplaced fun name ts => ?_
  refine bind_unplaced (Attribute.refuse_unplaced .enum name attrs) fun _ => ?_
  refine bind_unplacedRead intKind_unplaced fun kind ts => ?_
  refine bind_unplaced (punct_unplaced .curlyOpen) fun ts => ?_
  refine bind_unplacedRead (enumItems_unplaced name kind [] 0) fun items ts => ?_
  dsimp only [id]
  split <;> rfl

theorem symbol_unplaced : ts.unplaced.symbol = unplacedRead id ts.symbol := by
  refine bind_unplaced (punct_unplaced .assign) fun ts => ?_
  refine bind_unplacedRead ident_unplaced fun name ts => ?_
  exact bind_unplaced (punct_unplaced .semicolon) fun ts => rfl

theorem constructor_unplaced : ts.unplaced.constructor = unplacedRead id ts.constructor := by
  refine bind_unplacedRead ident_unplaced fun name ts => ?_
  refine bind_unplaced (punct_unplaced .roundOpen) fun ts => ?_
  refine bind_unplacedRead paramList_unplaced fun params ts => ?_
  exact bind_unplacedRead symbol_unplaced fun symbol ts => rfl

theorem selfParam_unplaced (method : String) :
    ts.unplaced.selfParam method = unplacedRead id (ts.selfParam method) := by
  rcases ts with p | fault | ⟨⟨l, p⟩, ts⟩
  · rfl
  · rfl
  · cases l with
    | keyword k =>
      cases k with
      | mutable =>
        rcases ts with q | fault | ⟨⟨l, q⟩, ts⟩
        · rfl
        · rfl
        · cases l with
          | keyword k => cases k <;> rfl
          | _ => rfl
      | _ => rfl
    | _ => rfl

theorem method_unplaced : ts.unplaced.method = unplacedRead id ts.method := by
  refine bind_unplacedRead ident_unplaced fun name ts => ?_
  refine bind_unplaced (punct_unplaced .roundOpen) fun ts => ?_
  refine bind_unplacedRead (selfParam_unplaced name) fun mutable ts => ?_
  refine bind_unplacedRead moreParams_unplaced fun params ts => ?_
  refine bind_unplacedRead returnType_unplaced fun ret ts => ?_
  exact bind_unplacedRead symbol_unplaced fun symbol ts => rfl

theorem handleItem_unplaced (d : Handle) :
    ts.unplaced.handleItem d.unplaced = unplacedRead Handle.unplaced (ts.handleItem d) := by
  rcases ts with p | fault | ⟨⟨l, p⟩, ts⟩
  · rfl
  · rfl
  · cases l with
    | keyword k =>
      cases k with
      | ctor => exact bind_unplacedRead constructor_unplaced fun c ts => rfl
      | dtor =>
        change (if d.destructor ≠ none then _ else _) = _
        simp only [handleItem]
        split
        · rfl
        · exact bind_unplacedRead symbol_unplaced fun symbol ts => rfl
      | fn => exact bind_unplacedRead method_unplaced fun m ts => rfl
      | _ => rfl
    | _ => rfl

theorem handleItems_unplaced (d : Handle) : block handleItems .curlyClose d.unplaced ts.unplaced =
    unplacedRead Handle.unplaced (block handleItems .curlyClose d ts) :=
  block_unplaced .curlyClose (fun d _ => handleItem_unplaced d) d

theorem handle_unplaced (attrs : List Attribute) (pos : Position) :
    ts.unplaced.handle (attrs.map (·.unplaced)) .start =
      unplacedRead Handle.unplaced (ts.handle attrs pos) := by
  refine bind_unplacedRead ident_unplaced fun name ts => ?_
  refine bind_unplaced (Attribute.refuse_unplaced .handle name attrs) fun _ => ?_
  refine bind_unplaced (punct_unplaced .curlyOpen) fun ts => ?_
  refine bind_unplacedRead (handleItems_unplaced ⟨name, [], none, [], pos⟩) fun d ts => ?_
  change (if d.destructor = none then _ else if d.constructors = [] then _ else _) = _
  dsimp only
  split
  · rfl
  · split <;> rfl

end bodies

/-! ### Statements -/

section statements
variable {ts : Tokens}

theorem moduleParts_unplaced (seen : List String) :
    ts.unplaced.moduleParts seen = unplacedRead id (ts.moduleParts seen) := by
  fun_induction moduleParts seen ts with
  | case1 seen _ part rest _ ih =>
    simp only [unplaced_next, moduleParts]
    exact ih
  | case2 seen _ ts h =>
    rcases ts with _ | _ | ⟨⟨l, pos⟩, rest⟩
    · rfl
    · rfl
    · cases l with
      | ident part => exact absurd rfl (h part pos rest)
      | _ => rfl
  | case3 => rfl
  | case4 seen ts h h' h'' =>
    rcases ts with _ | fault | ⟨⟨l, pos⟩, rest⟩
    · rfl
    · exact absurd rfl (h'' fault)
    · cases l with
      | punct q =>
        cases q with
        | dot => exact absurd rfl (h' _ _)
        | _ => rfl
      | _ => rfl

theorem moduleName_unplaced : ts.unplaced.moduleName = unplacedRead id ts.moduleName := by
  refine bind_unplacedRead ident_unplaced fun part ts => ?_
  refine bind_unplacedRead (moduleParts_unplaced [part]) fun parts ts => ?_
  exact bind_unplaced (punct_unplaced .semicolon) fun ts => rfl

theorem declaration?_unplaced (ds : Declarations) (attrs : List Attribute) :
    ts.unplaced.declaration? ds.unplaced (attrs.map (·.unplaced)) =
      unplacedRead (Option.map Declarations.unplaced) (ts.declaration? ds attrs) := by
  rcases ts with p | fault | ⟨⟨l, p⟩, ts⟩
  · rfl
  · rfl
  · cases l with
    | keyword k =>
      cases k with
      | fn => exact bind_unplacedRead (function_unplaced ds attrs false p) fun ds ts => rfl
      | async =>
        rcases ts with q | fault | ⟨⟨l, q⟩, ts⟩
        · rfl
        · rfl
        · cases l with
          | keyword k =>
            cases k with
            | fn => exact bind_unplacedRead (function_unplaced ds attrs true p) fun ds ts => rfl
            | _ => rfl
          | _ => rfl
      | struct =>
        refine bind_unplacedRead (struct_unplaced attrs p) fun r ts => ?_
        simp [Declarations.unplaced]
      | enum =>
        refine bind_unplacedRead (enum_unplaced attrs p) fun e ts => ?_
        simp [Declarations.unplaced]
      | handle =>
        refine bind_unplacedRead (handle_unplaced attrs p) fun d ts => ?_
        simp [Declarations.unplaced]
      | _ => rfl
    | _ => rfl

/-- A declaration with the attributes before it, if one begins here. -/
def attributed? (ds : Declarations) (ts : Tokens) : Except Fault (Option Declarations × Tokens) := do
  let (attrs, ts) ← ts.attributes []
  match ← ts.declaration? ds attrs, attrs with
  | (none, _), a :: _ => .error ⟨a.pos, .strayAttributes⟩
  | found, _ => .ok found

theorem attributed?_unplaced (ds : Declarations) (ts : Tokens) :
    ts.unplaced.attributed? ds.unplaced =
      unplacedRead (Option.map Declarations.unplaced) (ts.attributed? ds) := by
  refine bind_unplacedRead (attributes_unplaced []) fun attrs ts => ?_
  refine bind_unplacedRead (declaration?_unplaced ds attrs) fun found ts => ?_
  cases found <;> cases attrs <;> rfl

theorem statement?_unplaced (ds : Declarations) :
    ts.unplaced.statement? ds.unplaced =
      unplacedRead (Option.map Declarations.unplaced) (ts.statement? ds) := by
  rcases ts with p | fault | ⟨⟨l, p⟩, ts⟩
  · exact attributed?_unplaced ds (done p)
  · exact attributed?_unplaced ds (broken fault)
  · have hnext := attributed?_unplaced ds (next ⟨l, p⟩ ts)
    cases l with
    | keyword k =>
      cases k with
      | moduleName =>
        change (if ds.modulePath ≠ [] then _ else _) = _
        simp only [statement?]
        split
        · rfl
        · exact bind_unplacedRead moduleName_unplaced fun parts ts => rfl
      | _ => exact hnext
    | punct mark =>
      cases mark with
      | semicolon => rfl
      | _ => exact hnext
    | _ => exact hnext

theorem oneStatement_unplaced (ds : Declarations) :
    ts.unplaced.oneStatement ds.unplaced =
      unplacedRead Declarations.unplaced (ts.oneStatement ds) := by
  unfold oneStatement
  rw [statement?_unplaced]
  rcases ts.statement? ds with fault | ⟨_ | ds, rest⟩
  · rfl
  · exact failAt_unplaced fun _ => rfl
  · rfl

theorem unplaced_ne_done (h : ∀ p, ts ≠ done p) (p : Position) : ts.unplaced ≠ done p := by
  cases ts with
  | done q => exact absurd rfl (h q)
  | broken fault => nofun
  | next t rest => nofun

/-- Declarations are read without a look at the positions of their tokens. -/
theorem statements_unplaced (ds : Declarations) :
    ts.unplaced.statements ds.unplaced = unplacedBy Declarations.unplaced (ts.statements ds) := by
  fun_induction statements ds ts with
  | case1 ds p =>
    rw [unplaced_done, statements]
    rfl
  | case2 ds ts h fault hs =>
    have hs' : ts.unplaced.oneStatement ds.unplaced = .error fault.unplaced := by
      rw [oneStatement_unplaced, hs]
      rfl
    exact statements_error (unplaced_ne_done h) hs'
  | case3 ds ts h ds' rest hs ih =>
    have hs' : ts.unplaced.oneStatement ds.unplaced = .ok (ds'.unplaced, rest.unplaced) := by
      rw [oneStatement_unplaced, hs]
      rfl
    rw [statements_step hs']
    exact ih

end statements

end Bindery.Tokens
