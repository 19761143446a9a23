import Bindery.Proofs.Emission.Boundary

/-!
# Types before their use

A header holds a type for each enumeration and each defined record, in the order of the blocks, the
enumerations of a block first. The fields of a record are looked up among the declarations of all
blocks, and only if the record asks for a layout. Hence the order of the declarations alone decides
whether each struct finds the types of its fields above it.
-/
namespace Bindery

/-- A declaration that becomes a type of the header. -/
inductive TypeDecl
  | enum (e : Enum)
  | record (r : Record)

def TypeDecl.name : TypeDecl → String
  | enum e => e.name
  | record r => r.name

def HeaderType.name : HeaderType → String
  | struct name _ => name
  | enum e => e.name

/-- The type that is written for a declaration. -/
inductive TypeDecl.Writes (reg : Registry) : TypeDecl → HeaderType → Prop
  | enum (e : Enum) : Writes reg (.enum e) (.enum e)
  | record {r : Record} {fields : List HeaderField} (h : Header.fieldsOf reg r = .ok fields) :
    Writes reg (.record r) (.struct r.name fields)

theorem TypeDecl.Writes.name_eq {reg : Registry} {d : TypeDecl} {t : HeaderType}
    (h : d.Writes reg t) : t.name = d.name := by
  cases h <;> rfl

namespace Declarations

/-- The declarations of a block that become types, in the order in which they are written. -/
def typeDecls (b : Declarations) : List TypeDecl :=
  b.enums.map .enum ++ (b.records.filter (·.isDefined)).map .record

/-- The names of the records that are left to the host. -/
def hostRecords (bs : List Declarations) : List String :=
  ((bs.flatMap (·.records)).filter (!·.isDefined)).map (·.name)

/-- The names of all types that some blocks declare. -/
def typeNames (bs : List Declarations) : List String :=
  (bs.flatMap (·.typeDecls)).map (·.name) ++ hostRecords bs

variable {bs : List Declarations} {r : Record}

theorem record_mem_typeDecls : .record r ∈ bs.flatMap (·.typeDecls) ↔
    r ∈ bs.flatMap (·.records) ∧ r.isDefined = true := by
  simp only [typeDecls, List.mem_flatMap, List.mem_append, List.mem_map, List.mem_filter,
    TypeDecl.record.injEq, reduceCtorEq, and_false, exists_false, false_or, exists_eq_right]
  exact ⟨fun ⟨b, hb, hr, hdefined⟩ => ⟨⟨b, hb, hr⟩, hdefined⟩,
    fun ⟨⟨b, hb, hr⟩, hdefined⟩ => ⟨b, hb, hr, hdefined⟩⟩

/-- A name with a declared layout is declared. -/
theorem mem_typeNames {h : Host} (hnew : h.types = {}) {name : String}
    (hname : (h.declare bs).types.IsLaidOut name) : name ∈ typeNames bs := by
  rcases hname with henum | ⟨r, hr, -⟩
  · obtain ⟨e, he⟩ := Option.isSome_iff_exists.1 henum
    have hmem : e ∈ bs.flatMap (·.enums) := by
      simpa [Host.declare, hnew] using List.mem_of_find?_eq_some he
    obtain ⟨b, hb, hmem⟩ := List.mem_flatMap.1 hmem
    obtain rfl : e.name = name := by simpa using List.find?_some he
    have hdecl : TypeDecl.enum e ∈ bs.flatMap (·.typeDecls) :=
      List.mem_flatMap.2 ⟨b, hb, List.mem_append_left _ (List.mem_map_of_mem hmem)⟩
    exact List.mem_append_left _ (List.mem_map.2 ⟨_, hdecl, rfl⟩)
  · have hmem : r ∈ bs.flatMap (·.records) := by
      simpa [Host.declare, hnew] using List.mem_of_find?_eq_some hr
    obtain rfl : r.name = name := by simpa using List.find?_some hr
    by_cases hdefined : r.isDefined = true
    · have hdecl := record_mem_typeDecls.2 ⟨hmem, hdefined⟩
      exact List.mem_append_left _ (List.mem_map.2 ⟨_, hdecl, rfl⟩)
    · exact List.mem_append_right _ (List.mem_map_of_mem
        (List.mem_filter.2 ⟨hmem, by simpa using hdefined⟩))

end Declarations

/-! ### Writing types -/

namespace Emit
variable {m m' : List Product → Emit (List Product)} {ds ds' : List TypeDecl}
  {R : Registry → List Gain → Prop} {expand : Signature → Except Failure (List Signature)}

/-- An emission that writes the types of some declarations below those that the header has. -/
def Writes (m : List Product → Emit (List Product)) (ds : List TypeDecl) : Prop :=
  ∀ x ss e y ss' e', (m (Product.headed x ss)).runOn e = (.ok (Product.headed y ss'), e') →
    ∃ ts, y.types = x.types ++ ts ∧ List.Forall₂ (TypeDecl.Writes e.host.types) ds ts

theorem writes_pure : Writes pure [] := by
  intro x ss e y ss' e' hrun
  obtain ⟨hheaded, -⟩ := pure_ok.1 hrun
  obtain rfl := Product.header.inj (List.cons.inj hheaded).1
  exact ⟨[], (List.append_nil _).symm, .nil⟩

/-- Two emissions in turn. That the first one also gains something keeps the header in its place and
the declared types as they are. -/
theorem Writes.comp (hgains : Gains m R) (h : Writes m ds) (h' : Writes m' ds') :
    Writes (fun ps => m ps >>= m') (ds ++ ds') := by
  intro x ss e z ss'' e' hrun
  obtain ⟨ps, e₁, hfirst, hsecond⟩ := bind_ok.1 hrun
  obtain ⟨y, gs, -, -, he₁, hany⟩ := hgains x ss e ps e₁ hfirst
  obtain ⟨ss', hss, -⟩ := hany ss
  obtain rfl : ps = Product.headed y ss' :=
    Except.ok.inj (congrArg Prod.fst (hfirst.symm.trans hss))
  obtain ⟨ts, hy, hts⟩ := h x ss e y ss' e₁ hfirst
  obtain ⟨ts', hz, hts'⟩ := h' y ss' e₁ z ss'' e' hsecond
  rw [he₁, Host.types_gain] at hts'
  exact ⟨ts ++ ts', by rw [hz, hy, List.append_assoc], List.rel_append hts hts'⟩

theorem writes_foldlM {α : Type} {step : α → List Product → Emit (List Product)}
    {R : α → Registry → List Gain → Prop} {ds : α → List TypeDecl}
    (hgains : ∀ a, Gains (step a) (R a)) (h : ∀ a, Writes (step a) (ds a)) (as : List α) :
    Writes (fun ps => as.foldlM (fun ps a => step a ps) ps) (as.flatMap ds) := by
  induction as with
  | nil => exact writes_pure
  | cons a as ih => exact (h a).comp (hgains a) ih

/-- An emission that deals with each product in turn, by what it does to the header. -/
theorem writes_mapM {step : Product → Emit Product}
    (h : ∀ x e y e', (step (.header x)).runOn e = (.ok (.header y), e') →
      ∃ ts, y.types = x.types ++ ts ∧ List.Forall₂ (TypeDecl.Writes e.host.types) ds ts) :
    Writes (fun ps => ps.mapM step) ds := by
  intro x ss e y ss' e' hrun
  obtain ⟨p, ps, e₁, hheaded, hheader, -⟩ := mapM_cons_ok.1 hrun
  obtain rfl := (List.cons.inj hheaded).1
  exact h x e y e₁ hheader

end Emit

namespace Product
open Emit

theorem writes_beginModule : Emit.Writes (fun ps => ps.mapM beginModule) [] := by
  refine writes_mapM fun x e y e' h => ?_
  obtain ⟨_, e₁, hget, h⟩ := bind_ok.1 h
  obtain ⟨_, e₂, hnote, h⟩ := bind_ok.1 h
  obtain ⟨hheader, -⟩ := pure_ok.1 h
  obtain rfl := Product.header.inj hheader
  exact ⟨[], (List.append_nil _).symm, .nil⟩

theorem writes_addEnum (c : Enum) : Emit.Writes (fun ps => ps.mapM (addEnum c)) [.enum c] := by
  refine writes_mapM fun x e y e' h => ?_
  obtain ⟨hheader, -⟩ := pure_ok.1 h
  obtain rfl := Product.header.inj hheader
  exact ⟨[.enum c], rfl, .cons (.enum c) .nil⟩

/-- A record is written if it is defined. -/
theorem writes_addRecord (r : Record) : Emit.Writes (fun ps => ps.mapM (addRecord r))
    (([r].filter (·.isDefined)).map .record) := by
  refine writes_mapM fun x e y e' h => ?_
  obtain ⟨_, hadd, hheader⟩ := map_ok.1 h
  obtain rfl := Product.header.inj hheader
  clear h
  obtain ⟨_, e₁, hget, h⟩ := bind_ok.1 hadd
  cases hget
  dsimp only at h
  by_cases hdefined : r.isDefined = true
  · rw [hdefined, Bool.not_true, if_neg Bool.false_ne_true] at h
    split at h
    · exact absurd h throw_ne_ok
    · obtain ⟨fields, _, hlower, h⟩ := bind_ok.1 h
      obtain ⟨rfl, -⟩ := pure_ok.1 h
      rw [List.filter_cons_of_pos hdefined]
      exact ⟨_, rfl, .cons (.record (lower_ok.1 hlower).1) .nil⟩
  · rw [Bool.not_eq_true] at hdefined
    rw [hdefined, Bool.not_false, if_pos rfl] at h
    split at h
    · obtain ⟨rfl, -⟩ := pure_ok.1 h
      rw [List.filter_cons_of_neg (by rw [hdefined]; exact Bool.false_ne_true)]
      exact ⟨[], (List.append_nil _).symm, .nil⟩
    · exact absurd h throw_ne_ok

theorem writes_addFunction (f : Signature) :
    Emit.Writes (fun ps => ps.mapM (addFunction f)) [] := by
  refine writes_mapM fun x e y e' h => ?_
  obtain ⟨_, hadd, hheader⟩ := map_ok.1 h
  obtain rfl := Product.header.inj hheader
  obtain ⟨-, g, -, rfl, -⟩ := Header.addFunction_ok hadd
  exact ⟨[], (List.append_nil _).symm, .nil⟩

theorem writes_addHandle (d : Handle) : Emit.Writes (fun ps => ps.mapM (addHandle d)) [] := by
  refine writes_mapM fun x e y e' h => ?_
  obtain ⟨_, hadd, hheader⟩ := map_ok.1 h
  obtain rfl := Product.header.inj hheader
  obtain ⟨g, -, rfl, -⟩ := Header.addHandle_ok hadd
  exact ⟨[], (List.append_nil _).symm, .nil⟩

end Product

namespace Emit
variable {expand : Signature → Except Failure (List Signature)}

theorem writes_types (b : Declarations) : Writes (fun ps => do
    let ps ← each Product.addEnum b.enums ps
    each Product.addRecord b.records ps) b.typeDecls := by
  have henums := writes_foldlM Product.gains_addEnum Product.writes_addEnum b.enums
  have hrecords := writes_foldlM Product.gains_addRecord Product.writes_addRecord b.records
  have hwrites := henums.comp (gains_types Product.gains_addEnum b.enums) hrecords
  rw [← List.map_eq_flatMap, ← List.map_flatMap, ← List.filter_flatMap, List.flatMap_singleton']
    at hwrites
  exact hwrites

theorem writes_function (f : Signature) : Writes (fun ps => function expand ps f) [] := by
  unfold function
  cases hexpand : expand f with
  | error failure =>
    intro x ss e y ss' e' hrun
    obtain ⟨_, _, hthrow, -⟩ := bind_ok.1 hrun
    cases hthrow
  | ok fs =>
    have hfs := writes_foldlM Product.gains_addFunction Product.writes_addFunction fs
    rwa [List.flatMap_eq_nil_iff.2 fun _ _ => rfl] at hfs

theorem writes_bindings (bs : List Declarations) : Writes (bindings expand bs) [] := by
  have hblock (b : Declarations) : Writes (fun ps => do
      let ps ← b.functions.foldlM (function expand) ps
      each Product.addHandle b.handles ps) [] := by
    have hfs := writes_foldlM (@gains_function expand) writes_function b.functions
    have hds := writes_foldlM Product.gains_addHandle Product.writes_addHandle b.handles
    rw [List.flatMap_eq_nil_iff.2 fun _ _ => rfl] at hfs hds
    exact hfs.comp (gains_foldlM gains_function b.functions) hds
  have hbs := writes_foldlM (@gains_declarations expand) hblock bs
  rwa [List.flatMap_eq_nil_iff.2 fun _ _ => rfl] at hbs

/-- Blocks of declarations write the types that they declare, in their order. -/
theorem writes_blocks (bs : List Declarations) :
    Writes (blocks expand bs) (bs.flatMap (·.typeDecls)) := by
  have htypes := writes_foldlM gains_checkedTypes writes_types bs
  have hbindings : Writes (bindings expand bs) [] := writes_bindings bs
  have hrest := htypes.comp (gains_foldlM gains_checkedTypes bs) hbindings
  rw [List.append_nil] at hrest
  exact Product.writes_beginModule.comp Product.gains_beginModule hrest

end Emit

/-! ### Fields -/

/-- A type that is known where the given names are: a scalar that has values, or one of them. -/
def Ty.IsKnown (names : List String) : Ty → Prop
  | .scalar s => s ≠ .void
  | .record name => name ∈ names
  | _ => False

instance (names : List String) (t : Ty) : Decidable (t.IsKnown names) :=
  match t with
  | .scalar s => inferInstanceAs (Decidable (s ≠ .void))
  | .record name => inferInstanceAs (Decidable (name ∈ names))
  | .array _ _ | .slice _ _ | .text _ | .generic _ | .wrapped _ _ => .isFalse id

theorem Ty.IsKnown.mono {names names' : List String} {t : Ty} (h : t.IsKnown names)
    (hsub : ∀ name ∈ names, name ∈ names') : t.IsKnown names' := by
  cases t with
  | record name => exact hsub name h
  | _ => exact h

theorem Registry.IsPlain.isKnown {bs : List Declarations} {h : Host} (hnew : h.types = {}) {t : Ty}
    (ht : (h.declare bs).types.IsPlain t) : t.IsKnown (Declarations.typeNames bs) := by
  cases t with
  | record name => exact Declarations.mem_typeNames hnew ht
  | _ => exact ht

theorem Header.decl_of_field {reg : Registry} {r : Record} {p : Param} {f : HeaderField}
    (h : Header.field reg r p = .ok f) : f.decl = p := by
  unfold Header.field at h
  dsimp only at h
  split at h
  · cases h
  · obtain ⟨_, -, ⟨⟩⟩ := Tokens.bind_eq_ok.1 h
    rfl
  · obtain ⟨_, -, ⟨⟩⟩ := Tokens.bind_eq_ok.1 h
    rfl
  · cases h

/-- A struct has the fields of its record. -/
theorem Header.decls_of_fieldsOf {reg : Registry} {r : Record} {fields : List HeaderField}
    (h : Header.fieldsOf reg r = .ok fields) : fields.map (·.decl) = r.fields := by
  refine List.forall₂_eq_eq_eq ▸ List.forall₂_map_left_iff.2 ?_
  exact ((mapM_eq_ok.1 h).imp fun _ _ => Header.decl_of_field).flip

/-! ### Order -/

/-- Each field of a struct is, apart from arrays, of a type that is known where the struct stands:
a scalar that has values, a type above it or a record of the host; and never of the struct. -/
def Header.DeclaresBeforeUse (x : Header) (hostRecords : List String) : Prop :=
  ∀ above name fields below, x.types = above ++ .struct name fields :: below → ∀ f ∈ fields,
    f.decl.type.base.IsKnown (above.map (·.name) ++ hostRecords) ∧
      f.decl.type.base ≠ .record name

namespace Declarations

/-- What the check of fields leaves to the author of some blocks. -/
structure IsOrdered (bs : List Declarations) : Prop where
  /-- A record without a layout has fields of declared types too. -/
  declared : ∀ r ∈ bs.flatMap (·.records), r.isDefined = true → r.hasLayout = false →
    ∀ p ∈ r.fields, p.type.base.IsKnown (typeNames bs)
  /-- No record has itself as a field. -/
  irreflexive : ∀ r ∈ bs.flatMap (·.records), r.isDefined = true →
    ∀ p ∈ r.fields, p.type.base ≠ .record r.name
  /-- A type that is declared below a record is a field of it only if it is known above as well. -/
  above : ∀ above r below, bs.flatMap (·.typeDecls) = above ++ .record r :: below →
    ∀ p ∈ r.fields, ∀ name ∈ below.map (·.name), p.type.base = .record name →
      name ∈ above.map (·.name) ++ hostRecords bs

/-- A declared name is known above a record, or it is the record's, or it is written below. -/
theorem mem_typeNames_split {bs : List Declarations} {above below : List TypeDecl} {r : Record}
    (hsplit : bs.flatMap (·.typeDecls) = above ++ .record r :: below) {name : String} :
    name ∈ typeNames bs ↔ name ∈ above.map (·.name) ++ hostRecords bs ∨ name = r.name ∨
      name ∈ below.map (·.name) := by
  unfold typeNames
  rw [hsplit]
  simp only [List.map_append, List.map_cons, List.mem_append, List.mem_cons]
  tauto

end Declarations

/-- What is related to some items with one among them. -/
theorem exists_of_forall₂_split {α β : Type} {R : α → β → Prop} {as : List α} {above below : List β}
    {b : β} (h : List.Forall₂ R as (above ++ b :: below)) :
    ∃ above' a below', as = above' ++ a :: below' ∧ List.Forall₂ R above' above ∧ R a b := by
  have hbelow := List.forall₂_drop_append as above (b :: below) h
  obtain ⟨a, below', ha, -, hdrop⟩ := List.forall₂_cons_right_iff.1 hbelow
  refine ⟨as.take above.length, a, below', ?_, List.forall₂_take_append as above _ h, ha⟩
  rw [← hdrop, List.take_append_drop]

theorem TypeDecl.names_of_writes {reg : Registry} {ds : List TypeDecl} {ts : List HeaderType}
    (h : List.Forall₂ (TypeDecl.Writes reg) ds ts) : ts.map (·.name) = ds.map (·.name) := by
  refine List.forall₂_eq_eq_eq ▸ List.forall₂_map_left_iff.2 (List.forall₂_map_right_iff.2 ?_)
  exact (h.imp fun _ _ => Writes.name_eq).flip

namespace Header
variable {bs : List Declarations} {h : Host} {x : Header}
  (hx : List.Forall₂ (TypeDecl.Writes (h.declare bs).types) (bs.flatMap (·.typeDecls)) x.types)
include hx

/-- Where types are declared before their use, so are those of the records that they are written
for. -/
theorem DeclaresBeforeUse.isOrdered (huse : x.DeclaresBeforeUse (Declarations.hostRecords bs)) :
    Declarations.IsOrdered bs := by
  have hrecord : ∀ above r below, bs.flatMap (·.typeDecls) = above ++ .record r :: below →
      ∀ p ∈ r.fields, p.type.base.IsKnown (above.map (·.name) ++ Declarations.hostRecords bs) ∧
        p.type.base ≠ .record r.name := by
    intro above r below hsplit p hp
    rw [hsplit] at hx
    obtain ⟨tsAbove, t, tsBelow, htypes, habove, ht⟩ := exists_of_forall₂_split hx.flip
    cases ht with
    | record hfields =>
      rw [← decls_of_fieldsOf hfields] at hp
      obtain ⟨f, hf, rfl⟩ := List.mem_map.1 hp
      rw [← TypeDecl.names_of_writes habove.flip]
      exact huse tsAbove r.name _ tsBelow htypes f hf
  have hsomewhere : ∀ r ∈ bs.flatMap (·.records), r.isDefined = true → ∀ p ∈ r.fields,
      p.type.base.IsKnown (Declarations.typeNames bs) ∧ p.type.base ≠ .record r.name := by
    intro r hr hdefined p hp
    obtain ⟨above, below, hsplit⟩ :=
      List.append_of_mem (Declarations.record_mem_typeDecls.2 ⟨hr, hdefined⟩)
    obtain ⟨hknown, hother⟩ := hrecord above r below hsplit p hp
    refine ⟨hknown.mono fun name hname => ?_, hother⟩
    rw [Declarations.mem_typeNames_split hsplit]
    exact .inl hname
  refine ⟨fun r hr hdefined _ p hp => (hsomewhere r hr hdefined p hp).1,
    fun r hr hdefined p hp => (hsomewhere r hr hdefined p hp).2, ?_⟩
  intro above r below hsplit p hp name _ hname
  have hknown := (hrecord above r below hsplit p hp).1
  rwa [hname] at hknown

/-- The check of fields and the order of declarations make types declared before their use. -/
theorem declaresBeforeUse_of_isOrdered (hnew : h.types = {}) (hordered : Declarations.IsOrdered bs) :
    x.DeclaresBeforeUse (Declarations.hostRecords bs) := by
  intro tsAbove name fields tsBelow htypes f hf
  rw [htypes] at hx
  obtain ⟨above, d, below, hsplit, habove, hd⟩ := exists_of_forall₂_split hx
  cases hd with
  | @record r fields hfields =>
    obtain ⟨hr, hdefined⟩ : r ∈ bs.flatMap (·.records) ∧ r.isDefined = true :=
      Declarations.record_mem_typeDecls.1 (hsplit ▸ List.mem_append_right _ List.mem_cons_self)
    have hp : f.decl ∈ r.fields := by
      rw [← decls_of_fieldsOf hfields]
      exact List.mem_map_of_mem hf
    have hother := hordered.irreflexive r hr hdefined _ hp
    refine ⟨?_, hother⟩
    -- A field that is checked has a type that is declared somewhere, as has any other.
    have hdeclared : f.decl.type.base.IsKnown (Declarations.typeNames bs) := by
      by_cases hlayout : r.hasLayout = true
      · have hchecked : r.IsChecked (h.declare bs).types := fun _ => ⟨fields, hfields⟩
        exact (hchecked.isPlain hdefined hlayout hp).isKnown hnew
      · exact hordered.declared r hr hdefined (by simpa using hlayout) _ hp
    rw [TypeDecl.names_of_writes habove]
    cases hbase : f.decl.type.base with
    | record n =>
      rw [hbase] at hdeclared hother
      rcases (Declarations.mem_typeNames_split hsplit).1 hdeclared with hn | rfl | hn
      · exact hn
      · exact absurd rfl hother
      · exact hordered.above above r below hsplit _ hp n hn hbase
    | _ =>
      rw [hbase] at hdeclared
      exact hdeclared

end Header

/-- The types of a header are declared before their use exactly if the declarations are ordered. -/
theorem Header.declaresBeforeUse_iff {bs : List Declarations} {h : Host} (hnew : h.types = {})
    {x : Header} (hx : List.Forall₂ (TypeDecl.Writes (h.declare bs).types)
      (bs.flatMap (·.typeDecls)) x.types) :
    x.DeclaresBeforeUse (Declarations.hostRecords bs) ↔ Declarations.IsOrdered bs :=
  ⟨DeclaresBeforeUse.isOrdered hx, declaresBeforeUse_of_isOrdered hx hnew⟩

namespace Emit

/-- Once the declarations of a host are emitted, its header has a type for each declared one, in
their order, and every struct finds the types of its fields above it exactly if the declarations are
ordered. -/
theorem types_above_uses (expand : Signature → Except Failure (List Signature))
    (bs : List Declarations) (ss : List Interface) (h : Host) (notes : List Note)
    (hnew : h.types = {}) (ps : List Product) (e : Emission)
    (hrun : (blocks expand bs (Product.headed {} ss)).runOn ⟨h.declare bs, notes⟩ = (.ok ps, e)) :
    ∃ x ts, ps = Product.headed x ts ∧
      List.Forall₂ (TypeDecl.Writes (h.declare bs).types) (bs.flatMap (·.typeDecls)) x.types ∧
      (x.DeclaresBeforeUse (Declarations.hostRecords bs) ↔ Declarations.IsOrdered bs) := by
  obtain ⟨x, gs, -, -, -, hany⟩ := gains_blocks bs {} ss _ ps e hrun
  obtain ⟨ts, hts, -⟩ := hany ss
  obtain rfl : ps = Product.headed x ts := Except.ok.inj (congrArg Prod.fst (hrun.symm.trans hts))
  obtain ⟨types, htypes, hwritten⟩ := writes_blocks bs {} ss _ x ts e hrun
  obtain rfl : x.types = types := by rw [htypes, List.nil_append]
  exact ⟨x, ts, rfl, hwritten, Header.declaresBeforeUse_iff hnew hwritten⟩

/-- An array of a record of another block, and a record of the host. -/
theorem types_above_uses_array :
    let p : Record := {
      name := "P", fields := [⟨"e", .record "E"⟩], isDefined := true, hasLayout := true,
      pos := .start }
    let q : Record := {
      name := "Q", fields := [⟨"ps", .array (.record "P") 2⟩, ⟨"r", .record "R"⟩],
      isDefined := true, hasLayout := true, pos := .start }
    let bs : List Declarations := [
      { records := [p], enums := [{ name := "E", items := [("a", 0)], pos := .start }] },
      { records := [q, { name := "R", hasLayout := true, pos := .start }] }]
    let h : Host := { path := ⟨"demo.hpp"⟩, stem := "demo", modulePath := ["demo"] }
    ∃ x e, (blocks Signature.concrete bs [.header {}]).runOn ⟨h.declare bs, []⟩ =
        (.ok [.header x], e) ∧
      x.types.map (·.name) = ["E", "P", "Q"] ∧ x.DeclaresBeforeUse ["R"] := by
  intro p q bs h
  obtain ⟨x, e, hrun⟩ : ∃ x e, (blocks Signature.concrete bs [.header {}]).runOn
      ⟨h.declare bs, []⟩ = (.ok [.header x], e) := by
    unfold bs h p q
    exact ⟨_, _, rfl⟩
  obtain ⟨_, ts, hx, hwritten, hiff⟩ :=
    types_above_uses Signature.concrete bs [] h [] rfl _ _ hrun
  obtain rfl := Product.header.inj (List.cons.inj hx).1
  refine ⟨x, e, hrun, TypeDecl.names_of_writes hwritten, hiff.2 ⟨?_, ?_, ?_⟩⟩
  · decide
  · decide
  · -- Below `P` there is only `Q`, which is no field of it, and below `Q` nothing.
    intro above r below hsplit f hf name hname hbase
    change [.enum _, .record p, .record q] = above ++ .record r :: below at hsplit
    rcases above with _ | ⟨_, _ | ⟨_, _ | ⟨_, above⟩⟩⟩
    · cases hsplit
    · cases hsplit
      obtain rfl := List.mem_singleton.1 hname
      obtain rfl := List.mem_singleton.1 hf
      exact absurd (Ty.record.inj hbase) (by decide)
    · cases hsplit
      exact absurd hname List.not_mem_nil
    · simp at hsplit

/-- A record that holds itself is emitted. -/
theorem struct_within_itself :
    let a : Record := {
      name := "A", fields := [⟨"a", .record "A"⟩], isDefined := true, hasLayout := true,
      pos := .start }
    let h : Host := { path := ⟨"demo.hpp"⟩, stem := "demo", modulePath := ["demo"] }
    ∃ x e, (blocks Signature.concrete [{ records := [a] }] [.header {}]).runOn
        ⟨h.declare [{ records := [a] }], []⟩ = (.ok [.header x], e) ∧
      x.types = [.struct "A" [⟨⟨"a", .record "A"⟩, "A"⟩]] ∧
      ¬ x.DeclaresBeforeUse (Declarations.hostRecords [{ records := [a] }]) := by
  intro a h
  unfold h a
  refine ⟨{ types := [.struct "A" [⟨⟨"a", .record "A"⟩, "A"⟩]] }, _, rfl, rfl, fun huse => ?_⟩
  exact (huse [] "A" _ [] rfl _ List.mem_cons_self).2 rfl

end Emit

end Bindery
