import Bindery.Proofs.Decl.AttributeTree
import Bindery.Proofs.Decl.Placement

/-!
# What attributes configure

A function is configured by `binding` and `monomorphize`, a record by `layout`, and no attribute
that is accepted goes without effect. What a declaration carries is told by its attributes as they
are written: each setting of a binding is the value of its key or else the default, and the
instances are those of all lists in their order.
-/
namespace Bindery
open Lexeme

/-! ### Values -/

section
variable {scope : List String} {v : ValueTree} {t : Ty}

theorem Ty.inScope_arrays (t : Ty) (ls : List Literal) :
    (t.arrays ls).inScope scope = (t.inScope scope).arrays ls := by
  induction ls generalizing t with
  | nil => rfl
  | cons l ls ih => exact ih _

theorem Enclosure.inScope_around (e : Enclosure) (t : Ty) :
    (e.around t).inScope scope = e.around (t.inScope scope) := by
  cases e <;> rfl

/-- A derivation tells the same type in a scope whether it is read there or printed before. -/
theorem BaseTree.inScope_type (b : BaseTree) : (b.type []).inScope scope = b.type scope := by
  induction b with
  | scalar s => rfl
  | text mutable => rfl
  | path first parts => rfl
  | enclosed e inner ls ih =>
    rw [type, type, Enclosure.inScope_around, Ty.inScope_arrays, ih]

theorem TypeTree.inScope_type (d : TypeTree) : (d.type []).inScope scope = d.type scope := by
  rw [type, type, Ty.inScope_arrays, BaseTree.inScope_type]

theorem ValueTree.denotes_of_parse (hv : v.IsProper) (h : Ty.parse v.text scope = .ok t) :
    v.Denotes scope t := by
  cases v with
  | quoted value => exact h
  | type d =>
    have hparse := Ty.parse_rendered hv.2 scope
    rw [d.inScope_type] at hparse
    exact Except.ok.inj (hparse.symm.trans h)

theorem eq_nil_of_arrays {ls : List Literal} {name : String} (h : t.arrays ls = .record name) :
    ls = [] := by
  obtain rfl | ⟨ls, l, rfl⟩ := ls.eq_nil_or_concat
  · rfl
  · rw [Ty.arrays, List.concat_eq_append, List.foldl_append] at h
    cases h

theorem mem_pathName (first : String) (parts : List String)
    (h : parts ≠ [] ∨ ':' ∈ first.toList) : ':' ∈ (pathName first parts).toList := by
  induction parts generalizing first with
  | nil => exact h.resolve_left (absurd rfl)
  | cons part parts ih => exact ih _ (.inr (by simp))

/-- The word `c`, plain or quoted. -/
def ValueTree.IsC (v : ValueTree) : Prop := v = .quoted "c" ∨ v = .type ⟨.path "c" [], []⟩

theorem ValueTree.isC_of_text (hv : v.IsProper) (h : v.text = "c") : v.IsC := by
  cases v with
  | quoted value => exact .inl (congrArg quoted h)
  | type d =>
    obtain ⟨b, ls⟩ := d
    have hc : Ty.parse "c" [] = .ok (.record "c") := Ty.parse_rendered (t := .record "c") (by decide) []
    have htype : (TypeTree.type [] ⟨b, ls⟩) = .record "c" := by
      have hparse := Ty.parse_rendered hv.2 []
      rw [show (TypeTree.type [] ⟨b, ls⟩).render = "c" from h, hc, TypeTree.inScope_type] at hparse
      exact (Except.ok.inj hparse).symm
    obtain rfl := eq_nil_of_arrays htype
    cases b with
    | path first parts =>
      have hname : pathName first parts = "c" := by
        have hrecord : Ty.record (pathName first parts) = .record "c" := htype
        injection hrecord
      by_cases hparts : parts = []
      · subst hparts
        exact .inr (by rw [show first = "c" from hname])
      · have hcolon := mem_pathName first parts (.inl hparts)
        rw [hname] at hcolon
        exact absurd hcolon (by decide)
    | enclosed e inner ls => cases e <;> cases htype
    | _ => cases htype

end

/-! ### Bindings -/

/-- What the argument with some key, or else the default, sets. -/
def IsSetting {α : Type} (args : List ArgTree) (key : String) (tells : ValueTree → α → Prop)
    (default a : α) : Prop :=
  (∃ v, ⟨some key, v⟩ ∈ args ∧ tells v a) ∨ (∀ arg ∈ args, arg.key ≠ some key) ∧ a = default

namespace IsSetting
variable {α : Type} {args : List ArgTree} {key : String} {v : ValueTree}
  {tells : ValueTree → α → Prop} {d d' a : α}

theorem nil : IsSetting [] key tells d d := .inr ⟨nofun, rfl⟩

/-- An argument before others that do not have its key sets its own key and no other. -/
theorem cons (h : IsSetting args key tells d' a) {k : String}
    (hargs : ∀ arg ∈ args, arg.key ≠ some k) (hd : k = key ∧ tells v d' ∨ k ≠ key ∧ d' = d) :
    IsSetting (⟨some k, v⟩ :: args) key tells d a := by
  rcases hd with ⟨rfl, hv⟩ | ⟨hne, rfl⟩
  · rcases h with ⟨v, hmem, -⟩ | ⟨-, rfl⟩
    · exact absurd rfl (hargs _ hmem)
    · exact .inl ⟨v, List.mem_cons_self, hv⟩
  · rcases h with ⟨v, hmem, ha⟩ | ⟨hother, rfl⟩
    · exact .inl ⟨v, List.mem_cons_of_mem _ hmem, ha⟩
    · exact .inr ⟨List.forall_mem_cons.2 ⟨fun heq => hne (Option.some.inj heq), hother⟩, rfl⟩

end IsSetting

namespace Binding

/-- The keys of a binding. -/
def keys : List String := ["strategy", "prefix_high", "prefix_low", "c_ret", "map_fn"]

/-- A binding as arguments spell it, from the binding of which they leave the other settings. -/
structure IsSetBy (scope : List String) (start b : Binding) (args : List ArgTree) : Prop where
  mem_keys : ∀ arg ∈ args, ∃ key ∈ keys, arg.key = some key
  nodup : (args.map (·.key)).Nodup
  strategy : IsSetting args "strategy" (fun v s => strategyOf? v.text = some s)
    start.strategy b.strategy
  highPrefix : IsSetting args "prefix_high" (fun v s => v.text = s) start.highPrefix b.highPrefix
  lowPrefix : IsSetting args "prefix_low" (fun v s => v.text = s) start.lowPrefix b.lowPrefix
  lowReturn : IsSetting args "c_ret" (fun v t => ∃ u, t = some u ∧ v.Denotes scope u)
    start.lowReturn b.lowReturn
  transform : IsSetting args "map_fn" (fun v s => ∃ value, s = some value ∧ v = .quoted value)
    start.transform b.transform

variable {scope used : List String} {b b' : Binding} {key : String} {v : ValueTree}

/-- What the argument with some key does to a binding. -/
theorem set_cases (hv : v.IsProper)
    (h : b.set scope (ArgTree.told ⟨some key, v⟩) key = .ok b') :
    (key = "strategy" ∧ ∃ s, strategyOf? v.text = some s ∧ b' = { b with strategy := s }) ∨
    (key = "prefix_high" ∧ b' = { b with highPrefix := v.text }) ∨
    (key = "prefix_low" ∧ b' = { b with lowPrefix := v.text }) ∨
    (key = "c_ret" ∧ ∃ t, v.Denotes scope t ∧ b' = { b with lowReturn := some t }) ∨
    (key = "map_fn" ∧ ∃ value, v = .quoted value ∧ b' = { b with transform := some value }) := by
  unfold set at h
  dsimp only [ArgTree.told] at h
  split at h
  · split at h
    · rename_i hs
      cases h
      exact .inl ⟨rfl, _, hs, rfl⟩
    · cases h
  · split at h
    · cases h
      exact .inr (.inl ⟨rfl, rfl⟩)
    · cases h
  · split at h
    · cases h
      exact .inr (.inr (.inl ⟨rfl, rfl⟩))
    · cases h
  · split at h
    · rename_i hparse
      cases h
      exact .inr (.inr (.inr (.inl ⟨rfl, _, v.denotes_of_parse hv hparse, rfl⟩)))
    · cases h
  · cases v with
    | quoted value =>
      cases h
      exact .inr (.inr (.inr (.inr ⟨rfl, value, rfl, rfl⟩)))
    | type d => cases h
  · cases h

theorem IsSetBy.cons {c : Binding} {args : List ArgTree} (h : IsSetBy scope c b' args)
    (hargs : ∀ arg ∈ args, arg.key ≠ some key) (hv : v.IsProper)
    (hc : b.set scope (ArgTree.told ⟨some key, v⟩) key = .ok c) :
    IsSetBy scope b b' (⟨some key, v⟩ :: args) := by
  have hcases := set_cases hv hc
  have hkey : key ∈ keys := by
    rcases hcases with ⟨rfl, -⟩ | ⟨rfl, -⟩ | ⟨rfl, -⟩ | ⟨rfl, -⟩ | ⟨rfl, -⟩
    all_goals decide
  have hnodup : some key ∉ args.map (·.key) := by
    intro hmem
    obtain ⟨arg, harg, heq⟩ := List.mem_map.1 hmem
    exact hargs arg harg heq
  refine ⟨List.forall_mem_cons.2 ⟨⟨key, hkey, rfl⟩, h.mem_keys⟩, List.nodup_cons.2 ⟨hnodup, h.nodup⟩,
    h.strategy.cons hargs ?_, h.highPrefix.cons hargs ?_, h.lowPrefix.cons hargs ?_,
    h.lowReturn.cons hargs ?_, h.transform.cons hargs ?_⟩
  all_goals
    obtain ⟨rfl, s, hs, rfl⟩ | ⟨rfl, rfl⟩ | ⟨rfl, rfl⟩ | ⟨rfl, t, ht, rfl⟩ | ⟨rfl, value, rfl, rfl⟩ :=
      hcases
    all_goals simp_all

/-- Accepted arguments have keys that are known and distinct, and each sets what it spells. -/
theorem isSetBy_of_ofArgs {args : List ArgTree} (hargs : ∀ arg ∈ args, arg.value.IsProper)
    (h : ofArgs scope b used (args.map (·.told)) = .ok b') :
    (∀ arg ∈ args, ∀ key ∈ used, arg.key ≠ some key) ∧ IsSetBy scope b b' args := by
  induction args generalizing b used with
  | nil =>
    cases h
    exact ⟨nofun, nofun, List.nodup_nil, .nil, .nil, .nil, .nil, .nil⟩
  | cons arg args ih =>
    obtain ⟨key, v⟩ := arg
    rw [List.forall_mem_cons] at hargs
    cases key with
    | none => cases h
    | some key =>
      simp only [List.map_cons, ofArgs, ArgTree.told] at h
      split at h
      · cases h
      · rename_i hnew
        obtain ⟨c, hc, h⟩ := Tokens.bind_eq_ok.1 h
        obtain ⟨hused, hset⟩ := ih hargs.2 h
        have hself : ∀ key' ∈ used, some key ≠ some key' := by
          rintro key' hkey' ⟨⟩
          exact hnew hkey'
        refine ⟨List.forall_mem_cons.2 ⟨hself, fun arg harg key' hkey' =>
          hused arg harg key' (List.mem_cons_of_mem _ hkey')⟩, ?_⟩
        exact hset.cons (fun arg harg => hused arg harg key List.mem_cons_self) hargs.1 hc

end Binding
/-! ### Functions and records -/

namespace AttributeTree

def isBinding (a : AttributeTree) : Bool := a.name = "binding"

def isInstances (a : AttributeTree) : Bool := a.name = "monomorphize"

/-- A list of instances, without keys and not empty. -/
def ListsInstances (a : AttributeTree) : Prop := a.args ≠ [] ∧ ∀ arg ∈ a.args, arg.key = none

/-- The attribute `layout` with `c` for its only argument. -/
def IsLayout (a : AttributeTree) : Prop :=
  a.name = "layout" ∧ ∃ v : ValueTree, a.brackets = some [⟨none, v⟩] ∧ v.IsC

end AttributeTree

namespace Signature
variable {f f' : Signature}

/-- A function with what its attributes configure, and nothing else: a binding if one of them, and
no other, spells it, and the instances of all lists. -/
structure IsConfiguredBy (f : Signature) (attrs : List AttributeTree) : Prop where
  known : ∀ a ∈ attrs, a.isBinding = true ∨ a.isInstances = true
  binding : List.Forall₂ (fun b a => Binding.IsSetBy f.scope {} b a.args) f.binding.toList
    (attrs.filter (·.isBinding))
  lists : ∀ a ∈ attrs, a.isInstances = true → f.generics ≠ [] ∧ a.ListsInstances
  instances : f.instances =
    (attrs.filter (·.isInstances)).flatMap fun a => a.args.map (·.value.text)

theorem instances_of_addInstances (args : List ArgTree)
    (h : f.addInstances (args.map (·.told)) = .ok f') :
    (∀ arg ∈ args, arg.key = none) ∧
      f' = { f with instances := f.instances ++ args.map (·.value.text) } := by
  induction args generalizing f with
  | nil =>
    cases h
    exact ⟨nofun, by simp⟩
  | cons arg args ih =>
    obtain ⟨key, v⟩ := arg
    cases key with
    | some key => cases h
    | none =>
      simp only [List.map_cons, addInstances, ArgTree.told] at h
      split at h
      · cases h
      · obtain ⟨hkeys, rfl⟩ := ih h
        exact ⟨List.forall_mem_cons.2 ⟨rfl, hkeys⟩, by simp⟩

/-- What one attribute does to a function. -/
theorem addAttribute_cases {a : AttributeTree} (ha : a.IsProper)
    (h : f.addAttribute a.told = .ok f') :
    (a.name = "binding" ∧ f.binding = none ∧
      ∃ b, Binding.IsSetBy f.scope {} b a.args ∧ f' = { f with binding := some b }) ∨
    (a.name = "monomorphize" ∧ f.generics ≠ [] ∧ a.ListsInstances ∧
      f' = { f with instances := f.instances ++ a.args.map (·.value.text) }) := by
  unfold addAttribute at h
  split at h
  · rename_i hname
    split at h
    · cases h
    · rename_i hnone
      obtain ⟨b, hb, ⟨⟩⟩ := Tokens.bind_eq_ok.1 h
      exact .inl ⟨hname, hnone, b, (Binding.isSetBy_of_ofArgs ha hb).2, rfl⟩
  · rename_i hname
    split at h
    · cases h
    · rename_i hgeneric
      split at h
      · cases h
      · rename_i hempty
        obtain ⟨hkeys, rfl⟩ := instances_of_addInstances a.args h
        refine .inr ⟨hname, by simpa [isGeneric] using hgeneric, ⟨?_, hkeys⟩, rfl⟩
        intro hnil
        exact hempty (by simp [AttributeTree.told, hnil])
  · cases h
  · cases h

/-- What attributes add to the configuration that a function has already. -/
theorem addAttributes_adds {attrs : List AttributeTree} (hattrs : ∀ a ∈ attrs, a.IsProper)
    (h : f.addAttributes (attrs.map (·.told)) = .ok f') :
    (f'.name = f.name ∧ f'.isAsync = f.isAsync ∧ f'.generics = f.generics) ∧
    (∀ a ∈ attrs, a.isBinding = true ∨ a.isInstances = true) ∧
    (∃ bs, f'.binding.toList = f.binding.toList ++ bs ∧
      List.Forall₂ (fun b a => Binding.IsSetBy f.scope {} b a.args) bs
        (attrs.filter (·.isBinding))) ∧
    (∀ a ∈ attrs, a.isInstances = true → f.generics ≠ [] ∧ a.ListsInstances) ∧
    f'.instances = f.instances ++
      (attrs.filter (·.isInstances)).flatMap fun a => a.args.map (·.value.text) := by
  induction attrs generalizing f with
  | nil =>
    cases h
    exact ⟨⟨rfl, rfl, rfl⟩, nofun, ⟨[], by simp, .nil⟩, nofun, by simp⟩
  | cons a attrs ih =>
    rw [List.forall_mem_cons] at hattrs
    obtain ⟨g, hg, h⟩ := Tokens.bind_eq_ok.1 h
    obtain ⟨hsame, hknown, ⟨bs, hbs, hspelled⟩, hlists, hinstances⟩ := ih hattrs.2 h
    obtain ⟨hname, hnone, b, hb, rfl⟩ | ⟨hname, hgeneric, hlist, rfl⟩ :=
      addAttribute_cases hattrs.1 hg
    · have hbinding : a.isBinding = true := decide_eq_true hname
      have hno : a.isInstances = false := by simp [AttributeTree.isInstances, hname]
      refine ⟨hsame, List.forall_mem_cons.2 ⟨.inl hbinding, hknown⟩, ⟨b :: bs, ?_, ?_⟩,
        List.forall_mem_cons.2 ⟨fun hi => absurd hi (by simp [hno]), hlists⟩, ?_⟩
      · rw [hbs, hnone]
        rfl
      · rw [List.filter_cons_of_pos hbinding]
        exact .cons hb hspelled
      · rw [List.filter_cons_of_neg (by simp [hno])]
        exact hinstances
    · have hno : a.isBinding = false := by simp [AttributeTree.isBinding, hname]
      have his : a.isInstances = true := decide_eq_true hname
      refine ⟨hsame, List.forall_mem_cons.2 ⟨.inr his, hknown⟩, ⟨bs, hbs, ?_⟩,
        List.forall_mem_cons.2 ⟨fun _ => ⟨hgeneric, hlist⟩, hlists⟩, ?_⟩
      · rw [List.filter_cons_of_neg (by simp [hno])]
        exact hspelled
      · rw [List.filter_cons_of_pos his, List.flatMap_cons, ← List.append_assoc]
        exact hinstances

theorem isConfiguredBy_of_addAttributes {attrs : List AttributeTree}
    (hattrs : ∀ a ∈ attrs, a.IsProper) (hb : f.binding = none) (hi : f.instances = [])
    (h : f.addAttributes (attrs.map (·.told)) = .ok f') :
    f'.IsConfiguredBy attrs ∧ f'.name = f.name ∧ f'.isAsync = f.isAsync := by
  obtain ⟨⟨hname, hasync, hgenerics⟩, hknown, ⟨bs, hbs, hspelled⟩, hlists, hinstances⟩ :=
    addAttributes_adds hattrs h
  have hscope : f'.scope = f.scope := by rw [scope, scope, hgenerics]
  rw [hb, Option.toList_none, List.nil_append] at hbs
  rw [hi, List.nil_append] at hinstances
  rw [← hgenerics] at hlists
  rw [← hbs, ← hscope] at hspelled
  exact ⟨⟨hknown, hspelled, hlists, hinstances⟩, hname, hasync⟩

end Signature

namespace Record
variable {r r' : Record}

/-- A record whose attributes say no more than that it has a layout. -/
structure IsConfiguredBy (r : Record) (attrs : List AttributeTree) : Prop where
  known : ∀ a ∈ attrs, a.IsLayout
  hasLayout : r.hasLayout = true ↔ attrs ≠ []

theorem layout_of_addAttributes {attrs : List AttributeTree} (hattrs : ∀ a ∈ attrs, a.IsProper)
    (h : r.addAttributes (attrs.map (·.told)) = .ok r') :
    (∀ a ∈ attrs, a.IsLayout) ∧ r' = { r with hasLayout := r.hasLayout || !attrs.isEmpty } := by
  induction attrs generalizing r with
  | nil =>
    cases h
    exact ⟨nofun, by simp⟩
  | cons a attrs ih =>
    rw [List.forall_mem_cons] at hattrs
    simp only [List.map_cons, addAttributes, AttributeTree.told] at h
    split at h
    · rename_i hname
      split at h
      · rename_i hargs
        obtain ⟨hknown, rfl⟩ := ih hattrs.2 h
        obtain ⟨⟨key, v⟩, hsingle, htold⟩ := List.map_eq_singleton_iff.1 hargs
        injection htold with hkey hc
        subst hkey
        have hbrackets : a.brackets = some [⟨none, v⟩] := by
          cases hb : a.brackets with
          | none => simp [AttributeTree.args, hb] at hsingle
          | some args => simpa [AttributeTree.args, hb] using hsingle
        have hv : v.IsProper := by
          refine hattrs.1 ⟨none, v⟩ ?_
          rw [hsingle]
          exact List.mem_cons_self
        exact ⟨List.forall_mem_cons.2 ⟨⟨hname, v, hbrackets, v.isC_of_text hv hc⟩, hknown⟩, by simp⟩
      · cases h
    · cases h

theorem isConfiguredBy_of_addAttributes {attrs : List AttributeTree}
    (hattrs : ∀ a ∈ attrs, a.IsProper) (hr : r.hasLayout = false)
    (h : r.addAttributes (attrs.map (·.told)) = .ok r') :
    r'.IsConfiguredBy attrs ∧ r'.name = r.name := by
  obtain ⟨hknown, rfl⟩ := layout_of_addAttributes hattrs h
  exact ⟨⟨hknown, by simp [hr]⟩, rfl⟩

end Record
end Bindery
