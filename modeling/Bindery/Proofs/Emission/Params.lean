import Bindery.Proofs.Decl.Sound
import Bindery.Proofs.Emission.Inventory
import Bindery.Proofs.Lowering.Names

/-!
# Parameters of foreign functions

A header imports a foreign function for each function and handle member that is declared, and names
its parameters after the declared ones. The reader compares the declared names only: the names of
an import are distinct just if no parameter is named as a slot of another one.
-/
namespace Bindery

/-- A function as it is declared for the foreign side. -/
structure ForeignDeclaration where
  symbol : String
  hasSelf : Bool := false
  params : List Param

namespace ForeignDeclaration

/-- The names that an import gives to the parameters: the object of a method, then the slots. -/
def names (d : ForeignDeclaration) : List String :=
  (if d.hasSelf then ["self"] else []) ++ d.params.flatMap (·.slotNames)

/-- An import of a declared function, with distinct names just if its parameters are apart. -/
structure IsImported (d : ForeignDeclaration) (g : ForeignFunction) : Prop where
  symbol : g.symbol = d.symbol
  names : g.params.map (·.name) = d.names
  nodup : (g.params.map (·.name)).Nodup ↔ Param.AreApart d.params

end ForeignDeclaration

def Signature.foreignDeclaration (f : Signature) : ForeignDeclaration :=
  { symbol := f.name, params := f.params }

def Constructor.foreignDeclaration (c : Constructor) : ForeignDeclaration :=
  { symbol := c.symbol, params := c.params }

def Method.foreignDeclaration (m : Method) : ForeignDeclaration :=
  { symbol := m.symbol, hasSelf := true, params := m.params }

/-- The functions of a handle, in the order of their imports. -/
def Handle.foreignDeclarations (d : Handle) : List ForeignDeclaration :=
  d.constructors.map (·.foreignDeclaration) ++
    [{ symbol := d.destructor.getD "", hasSelf := true, params := [] }] ++
    d.methods.map (·.foreignDeclaration)

/-- The functions of an annotation, instances among them, and then those of its handles. -/
def Declarations.foreignDeclarations (b : Declarations) : List ForeignDeclaration :=
  b.concretes.map (·.foreignDeclaration) ++ b.handles.flatMap (·.foreignDeclarations)

/-! ### What is read -/

/-- Names as the reader lets them through. -/
def Param.AreNamed (ps : List Param) : Prop :=
  (∀ p ∈ ps, Lexeme.IsIdent p.name) ∧ (ps.map (·.name)).Nodup

theorem Param.areNamed_of_areWritable {scope : List String} {ps : List Param}
    (h : AreWritable scope ps) : AreNamed ps :=
  ⟨fun p hp => (h.1 p hp).1, h.2⟩

theorem Param.AreNamed.of_map_name_eq {ps qs : List Param} (h : AreNamed ps)
    (heq : qs.map (·.name) = ps.map (·.name)) : AreNamed qs := by
  refine ⟨fun q hq => ?_, heq ▸ h.2⟩
  have hmem : q.name ∈ ps.map (·.name) := heq ▸ List.mem_map_of_mem hq
  obtain ⟨p, hp, hname⟩ := List.mem_map.1 hmem
  exact hname ▸ h.1 p hp

namespace Signature
variable {f k : Signature} {type : String}

theorem names_of_instantiate (h : f.instantiate type = .ok k) :
    k.params.map (·.name) = f.params.map (·.name) := by
  unfold instantiate at h
  dsimp only at h
  repeat' split at h
  all_goals cases h
  simp [specialize]

/-- An instance has the parameter names of its function. -/
theorem names_of_mem_concretes (h : k ∈ f.concretes) :
    k.params.map (·.name) = f.params.map (·.name) := by
  unfold concretes at h
  split at h
  · obtain ⟨type, -, hk⟩ := List.mem_filterMap.1 h
    cases hinstance : f.instantiate type with
    | error fault => rw [hinstance] at hk; cases hk
    | ok g =>
      rw [hinstance] at hk
      cases hk
      exact names_of_instantiate hinstance
  · rw [List.mem_singleton.1 h]

end Signature

namespace ForeignDeclaration
variable {d : ForeignDeclaration}

theorem nodup_names (h : Param.AreNamed d.params) :
    d.names.Nodup ↔ Param.AreApart d.params := by
  rw [← Param.nodup_flatMap_slotNames h.2, names]
  have hself : "self" ∉ d.params.flatMap (·.slotNames) := by
    intro hmem
    obtain ⟨p, hp, hmem⟩ := List.mem_flatMap.1 hmem
    exact Param.self_not_mem_slotNames (h.1 p hp) hmem
  split
  · exact ⟨fun hnodup => (List.nodup_cons.1 hnodup).2,
      fun hnodup => List.nodup_cons.2 ⟨hself, hnodup⟩⟩
  · exact Iff.rfl

theorem isImported_of_names {g : ForeignFunction} (h : Param.AreNamed d.params)
    (hsymbol : g.symbol = d.symbol) (hnames : g.params.map (·.name) = d.names) : d.IsImported g :=
  ⟨hsymbol, hnames, hnames ▸ nodup_names h⟩

end ForeignDeclaration

/-! ### What is imported -/

section
variable {reg : Registry} {g : Gain}
open ForeignDeclaration

/-- The foreign parameters of lowered ones are named as the shapes of the types say. -/
theorem Registry.names_of_lowerParamsOf {function : String} {ps : List Param}
    {lps : List LoweredParam} (h : reg.lowerParamsOf function ps = .ok lps) :
    (lps.flatMap (·.foreign)).map (·.name) = ps.flatMap (·.slotNames) := by
  have hall := mapM_eq_ok.1 (lowerParams_of_lowerParamsOf h)
  clear h
  induction hall with
  | nil => rfl
  | @cons p lp _ _ hp _ ih =>
    obtain ⟨l, hl, ⟨⟩⟩ := Tokens.bind_eq_ok.1 hp
    rw [List.flatMap_cons, List.flatMap_cons, List.map_append, ih, Param.slotNames,
      ← roles_of_lowerParam hl]
    simp [LoweredParam.foreign, Function.comp_def]

theorem Signature.isImported_of_gain {f : Signature} (hf : Param.AreNamed f.params)
    (h : f.gain reg = .ok g) : List.Forall₂ IsImported [f.foreignDeclaration] g.imports := by
  obtain ⟨_, -, h⟩ := Tokens.bind_eq_ok.1 h
  obtain ⟨lps, hlps, h⟩ := Tokens.bind_eq_ok.1 h
  obtain ⟨ret, -, h⟩ := Tokens.bind_eq_ok.1 h
  obtain ⟨high, -, h⟩ := Tokens.bind_eq_ok.1 h
  obtain ⟨low, -, ⟨⟩⟩ := Tokens.bind_eq_ok.1 h
  exact .cons (isImported_of_names hf rfl (Registry.names_of_lowerParamsOf hlps)) .nil

theorem Constructor.isImported_of_gain {owner : String} {c : Constructor}
    {p : ForeignFunction × HandleConstructor} (hc : Param.AreNamed c.params)
    (h : c.gain reg owner = .ok p) : c.foreignDeclaration.IsImported p.1 := by
  obtain ⟨lps, hlps, h⟩ := Tokens.bind_eq_ok.1 h
  obtain ⟨made, -, ⟨⟩⟩ := Tokens.bind_eq_ok.1 h
  exact isImported_of_names hc rfl (Registry.names_of_lowerParamsOf hlps)

theorem Method.isImported_of_gain {owner : String} {m : Method}
    {p : ForeignFunction × HandleMethod} (hm : Param.AreNamed m.params)
    (h : m.gain reg owner = .ok p) : m.foreignDeclaration.IsImported p.1 := by
  obtain ⟨lps, hlps, h⟩ := Tokens.bind_eq_ok.1 h
  obtain ⟨ret, -, h⟩ := Tokens.bind_eq_ok.1 h
  obtain ⟨made, -, ⟨⟩⟩ := Tokens.bind_eq_ok.1 h
  refine isImported_of_names hm rfl ?_
  exact congrArg (List.cons "self") (Registry.names_of_lowerParamsOf hlps)

theorem isImported_destructor (symbol : String) :
    IsImported { symbol, hasSelf := true, params := [] } (.destructor symbol) :=
  isImported_of_names ⟨nofun, List.nodup_nil⟩ rfl rfl

/-- One import for each member of a handle. -/
theorem forall₂_isImported_of_mapM {α β : Type} {declaration : α → ForeignDeclaration}
    {params : α → List Param} {gain : α → Except LoweringFault (ForeignFunction × β)}
    (hone : ∀ {a p}, Param.AreNamed (params a) → gain a = .ok p → (declaration a).IsImported p.1)
    {as : List α} {gs : List (ForeignFunction × β)} (has : ∀ a ∈ as, Param.AreNamed (params a))
    (h : as.mapM gain = .ok gs) :
    List.Forall₂ IsImported (as.map declaration) (gs.map (·.1)) := by
  rw [List.forall₂_map_left_iff, List.forall₂_map_right_iff]
  have hall := mapM_eq_ok.1 h
  clear h
  induction hall with
  | nil => exact .nil
  | cons hfirst _ ih =>
    rw [List.forall_mem_cons] at has
    exact .cons (hone has.1 hfirst) (ih has.2)

theorem Handle.isImported_of_gain {d : Handle} (hd : d.IsWritable) (h : d.gain reg = .ok g) :
    List.Forall₂ IsImported d.foreignDeclarations g.imports := by
  obtain ⟨cs, hcs, h⟩ := Tokens.bind_eq_ok.1 h
  obtain ⟨ms, hms, ⟨⟩⟩ := Tokens.bind_eq_ok.1 h
  have hc := forall₂_isImported_of_mapM Constructor.isImported_of_gain
    (fun c hc => Param.areNamed_of_areWritable (hd.constructors c hc).2.1) hcs
  have hm := forall₂_isImported_of_mapM Method.isImported_of_gain
    (fun m hm => Param.areNamed_of_areWritable (hd.methods m hm).2.1) hms
  exact List.rel_append (List.rel_append hc (.cons (isImported_destructor _) .nil)) hm

end

namespace Declarations
variable {host : Path} {reg : Registry} {b : Declarations} {bs : List Declarations} {gs : List Gain}
open ForeignDeclaration

/-- The imports for several items, if each of them has its own. -/
theorem isImported_flatMap {α β : Type} {Q : α → Prop} {R : α → β → Prop}
    {declarations : α → List ForeignDeclaration} {imports : β → List ForeignFunction}
    (hone : ∀ a, Q a → ∀ b, R a b → List.Forall₂ IsImported (declarations a) (imports b))
    {as : List α} {bs : List β} (has : ∀ a ∈ as, Q a) (h : List.Forall₂ R as bs) :
    List.Forall₂ IsImported (as.flatMap declarations) (bs.flatMap imports) := by
  have hboth : List.Forall₂ (fun a b => Q a ∧ R a b) as bs :=
    (List.forall₂_and_left as bs).2 ⟨has, h⟩
  exact List.rel_flatMap hboth fun a b ⟨ha, hb⟩ => hone a ha b hb

theorem isImported_of_function {f : Signature} (hf : f.IsSound)
    (h : f.Gains (Signature.bound host) reg gs) :
    List.Forall₂ IsImported (f.concretes.map (·.foreignDeclaration))
      (gs.flatMap (·.imports)) := by
  obtain ⟨fs, hfs, -, hgs⟩ := h
  obtain rfl := (Signature.bound_eq_ok hfs).1
  have hnamed : ∀ k ∈ f.concretes, Param.AreNamed k.params := fun k hk =>
    (Param.areNamed_of_areWritable hf.params).of_map_name_eq (Signature.names_of_mem_concretes hk)
  rw [List.map_eq_flatMap]
  exact isImported_flatMap (fun k hk g hg => Signature.isImported_of_gain hk hg) hnamed
    (mapM_eq_ok.1 hgs)

theorem isImported_of_gains (hb : b.IsSound) (h : b.Gains (Signature.bound host) reg gs) :
    List.Forall₂ IsImported b.foreignDeclarations (gs.flatMap (·.imports)) := by
  obtain ⟨fgs, hgs, hfunctions, hhandles, rfl⟩ := h
  rw [List.flatMap_append, foreignDeclarations, concretes, List.map_flatMap,
    List.flatten_eq_flatMap, List.flatMap_assoc]
  refine List.rel_append ?_ ?_
  · exact isImported_flatMap (fun f hf gs h => isImported_of_function hf h) hb.functions hfunctions
  · exact isImported_flatMap (fun d hd g h => Handle.isImported_of_gain hd h) hb.handles
      (mapM_eq_ok.1 hhandles)

/-- The imports of a host are those of the functions that its annotations declare. -/
theorem isImported_of_allGain (hbs : ∀ b ∈ bs, b.IsSound)
    (h : AllGain (Signature.bound host) reg bs gs) :
    List.Forall₂ IsImported (bs.flatMap (·.foreignDeclarations)) (gs.flatMap (·.imports)) := by
  obtain ⟨gss, hgss, rfl⟩ := h
  rw [List.flatten_eq_flatMap, List.flatMap_assoc]
  exact isImported_flatMap (fun b hb gs h => isImported_of_gains hb h) hbs hgss

end Declarations

namespace Emit

/-- The header of a host whose annotations have been read imports a foreign function for each
declared one, under names that are distinct just if no parameter is named as a slot of another. -/
theorem imports_of_read (host : Path) (bs : List Declarations) (ss : List Interface)
    (e e' : Emission) (ps : List Product)
    (hread : ∀ b ∈ bs, ∃ text file p, Declarations.parse text file p = .ok b)
    (hrun : (blocks (Signature.bound host) bs (Product.headed {} ss)).runOn e = (.ok ps, e')) :
    ∃ x ts, ps = Product.headed x ts ∧
      List.Forall₂ ForeignDeclaration.IsImported
        (bs.flatMap (·.foreignDeclarations)) x.imports := by
  obtain ⟨x, gs, hgains, hx, -, hany⟩ := gains_blocks bs {} ss e ps e' hrun
  obtain ⟨ts, hts, -⟩ := hany ss
  refine ⟨x, ts, Except.ok.inj (congrArg Prod.fst (hrun.symm.trans hts)), ?_⟩
  have hsound : ∀ b ∈ bs, b.IsSound := by
    intro b hb
    obtain ⟨text, file, p, hparse⟩ := hread b hb
    exact Declarations.isSound_of_parse hparse
  rw [hx.imports]
  exact Declarations.isImported_of_allGain hsound hgains

/-- A parameter that is almost named as the pointer of the slice before it. -/
theorem imports_of_read_slice :
    let b : Declarations := { functions := [{
      name := "f", ret := .scalar .void, pos := .start
      params := [⟨"a", .slice false (.scalar (.int .u8))⟩, ⟨"a_pt", .scalar (.int .u32)⟩,
        ⟨"b", .wrapped .optional (.scalar .f32)⟩] }] }
    let h : Host := { path := ⟨"demo.hpp"⟩, stem := "demo", modulePath := ["demo"] }
    Declarations.parse "fn f(a: slice<u8>, a_pt: u32, b: optional<f32>);" "demo.hpp" .start =
        .ok b ∧
    ∃ x e, (blocks (Signature.bound h.path) [b] [.header {}]).runOn ⟨h.declare [b], []⟩ =
        (.ok [.header x], e) ∧
      x.imports.map (fun g => g.params.map (·.name)) =
        [["a_ptr", "a_len", "a_pt", "b_present", "b_value"]] ∧
      List.Forall₂ ForeignDeclaration.IsImported b.foreignDeclarations x.imports := by
  intro b h
  have hparse : Declarations.parse "fn f(a: slice<u8>, a_pt: u32, b: optional<f32>);" "demo.hpp"
      .start = .ok b := by
    rw [Declarations.parse, Tokens.statements_step (by cbv), Tokens.statements]
    rfl
  obtain ⟨x, e, hrun, hnames⟩ : ∃ x e,
      (blocks (Signature.bound h.path) [b] [.header {}]).runOn ⟨h.declare [b], []⟩ =
        (.ok [.header x], e) ∧
      x.imports.map (fun g => g.params.map (·.name)) =
        [["a_ptr", "a_len", "a_pt", "b_present", "b_value"]] := by
    unfold b h
    exact ⟨_, _, rfl, by decide⟩
  have hread : ∀ d ∈ [b], ∃ text file p, Declarations.parse text file p = .ok d :=
    List.forall_mem_singleton.2 ⟨_, _, _, hparse⟩
  obtain ⟨_, ts, hx, himports⟩ := imports_of_read h.path [b] [] _ _ _ hread hrun
  obtain rfl := Product.header.inj (List.cons.inj hx).1
  rw [List.flatMap_singleton] at himports
  exact ⟨hparse, x, e, hrun, hnames, himports⟩

/-- A parameter with the name that a slice before it gives to its pointer. -/
theorem import_names_clash :
    let b : Declarations := { functions := [{
      name := "f", ret := .scalar .void, pos := .start
      params := [⟨"a", .slice false (.scalar (.int .u8))⟩, ⟨"a_ptr", .scalar (.int .u32)⟩] }] }
    let h : Host := { path := ⟨"demo.hpp"⟩, stem := "demo", modulePath := ["demo"] }
    Declarations.parse "fn f(a: slice<u8>, a_ptr: u32);" "demo.hpp" .start = .ok b ∧
    (∀ f ∈ b.functions, Param.AreNamed f.params) ∧
    ∃ x e, (blocks (Signature.bound h.path) [b] [.header {}]).runOn ⟨h.declare [b], []⟩ =
        (.ok [.header x], e) ∧
      x.imports.map (fun g => g.params.map (·.name)) = [["a_ptr", "a_len", "a_ptr"]] ∧
      ¬ ∀ g ∈ x.imports, (g.params.map (·.name)).Nodup := by
  intro b h
  have hparse : Declarations.parse "fn f(a: slice<u8>, a_ptr: u32);" "demo.hpp" .start = .ok b := by
    rw [Declarations.parse, Tokens.statements_step (by cbv), Tokens.statements]
    rfl
  obtain ⟨x, e, hrun, hnames⟩ : ∃ x e,
      (blocks (Signature.bound h.path) [b] [.header {}]).runOn ⟨h.declare [b], []⟩ =
        (.ok [.header x], e) ∧
      x.imports.map (fun g => g.params.map (·.name)) = [["a_ptr", "a_len", "a_ptr"]] := by
    unfold b h
    exact ⟨_, _, rfl, by decide⟩
  refine ⟨hparse, fun f hf => ?_, x, e, hrun, hnames, fun hnodup => ?_⟩
  · have hsound := Declarations.isSound_of_parse hparse
    exact Param.areNamed_of_areWritable (hsound.functions f hf).params
  · rw [← List.forall_mem_map (P := List.Nodup), hnames] at hnodup
    exact absurd hnodup (by decide)

end Emit
end Bindery
