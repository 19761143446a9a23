import Bindery.Decl.Parser
import Bindery.Proofs.Ty.Fits

/-!
# Functions as they are read

Every check that a function goes through leaves its mark: its names are identifiers, those of its
parameters distinct, its types fit the scope of its generic parameters, and what its attributes add
is well-formed.
-/
namespace Bindery
open Lexeme

theorem nodup_append_singleton {α : Type} {as : List α} {a : α} (h : as.Nodup) (ha : a ∉ as) :
    (as ++ [a]).Nodup := by
  refine List.nodup_append.2 ⟨h, by simp, ?_⟩
  rintro b hb c hc rfl
  exact ha (List.mem_singleton.1 hc ▸ hb)

/-- A function as the reader lets it through. It is as in `IsWritable`, but for the instances, which
may be any texts. -/
structure Signature.IsSound (f : Signature) : Prop where
  name : IsIdent f.name
  generics : ∀ g ∈ f.generics, g.IsWritable
  params : Param.AreWritable f.scope f.params
  ret : f.ret.Fits f.scope
  instances_nodup : f.instances.Nodup
  isGeneric : f.instances ≠ [] → f.generics ≠ []
  binding : ∀ b ∈ f.binding, b.IsWritable f.scope

/-- What is known of an argument of an attribute. -/
structure AttributeArg.IsOf (x : Passage) (a : AttributeArg) : Prop where
  has : x.Has a.pos
  isQuotable : a.isQuoted = true → IsQuotable a.value

structure Attribute.IsOf (x : Passage) (a : Attribute) : Prop where
  has : x.Has a.pos
  args : ∀ arg ∈ a.args, arg.IsOf x

namespace Tokens
variable {x : Passage} {ts : Tokens} {scope : List String} {pos : Position}

/-! ### Attributes -/

theorem reads_argValue {key : Option String} {cause : Token → Cause} (hpos : x.Has pos)
    (h : ts.AreOf x) : Reads x (AttributeArg.IsOf x) (ts.argValue key pos cause) := by
  unfold argValue
  split
  · exact reads_ok ⟨hpos, fun _ => h.1.quoted _ rfl⟩ h.2
  · have htype := reads_type? [] h
    split
    · exact htype.of_error ‹_›
    · exact reads_failAt h _
    · exact reads_ok ⟨hpos, nofun⟩ (htype.of_ok ‹_›).2

theorem reads_attributeArg (h : ts.AreOf x) : Reads x (AttributeArg.IsOf x) ts.attributeArg := by
  refine (checks_head h).reads fun first hfirst => ?_
  split
  · split
    · exact reads_argValue h.1.has h.2.2
    · exact reads_error h.2
    · exact reads_argValue h.1.has h
  · exact reads_argValue hfirst.has h

theorem reads_argList (h : ts.AreOf x) :
    Reads x (fun args => ∀ arg ∈ args, AttributeArg.IsOf x arg) ts.argList := by
  refine (reads_punct? h .roundOpen).bind fun opened rest _ hrest => ?_
  cases opened with
  | false => exact reads_ok nofun hrest
  | true =>
    refine (reads_punct? hrest .roundClose).bind fun closed rest _ hrest => ?_
    cases closed with
    | true => exact reads_ok nofun hrest
    | false =>
      refine reads_separated (fun seen ts hseen hts => ?_) nofun hrest
      refine (reads_attributeArg hts).mono fun arg harg b hb => ?_
      rcases List.mem_append.1 hb with hb | hb
      · exact hseen b hb
      · exact List.mem_singleton.1 hb ▸ harg

theorem reads_oneAttribute (h : ts.AreOf x) : Reads x (Attribute.IsOf x) ts.oneAttribute := by
  refine (checks_head h).reads fun t ht => ?_
  refine (reads_ident h).bind fun name rest _ hrest => ?_
  exact (reads_argList hrest).bind fun args rest hargs hrest => reads_ok ⟨ht.has, hargs⟩ hrest

theorem reads_attributes {seen : List Attribute} (hseen : ∀ a ∈ seen, a.IsOf x)
    (h : ts.AreOf x) : Reads x (fun attrs => ∀ a ∈ attrs, a.IsOf x) (ts.attributes seen) := by
  have hgroup : ∀ (seen : List Attribute) ts, (∀ a ∈ seen, a.IsOf x) → ts.AreOf x →
      Reads x (fun a => ∀ b ∈ seen ++ [a], b.IsOf x) (attributeGroup.run seen ts) := by
    intro seen ts hseen hts
    refine (reads_oneAttribute hts).mono fun a ha b hb => ?_
    rcases List.mem_append.1 hb with hb | hb
    · exact hseen b hb
    · exact List.mem_singleton.1 hb ▸ ha
  fun_induction attributes seen ts with
  | case1 seen ts fault hb => exact (reads_punct? h .squareOpen).of_error hb
  | case2 seen ts rest hb => exact reads_ok hseen ((reads_punct? h .squareOpen).of_ok hb).2
  | case3 seen ts inner hb fault hs =>
    have hinner := ((reads_punct? h .squareOpen).of_ok hb).2
    exact (reads_separated hgroup hseen hinner).of_error hs
  | case4 seen ts inner hb all rest hs ih =>
    have hinner := ((reads_punct? h .squareOpen).of_ok hb).2
    have hall := (reads_separated hgroup hseen hinner).of_ok hs
    exact ih hall.1 hall.2

end Tokens

open Tokens

namespace Binding
variable {x : Passage} {scope : List String} {b : Binding}

theorem isWritable_default : ({} : Binding).IsWritable scope :=
  ⟨.inl rfl, .inr (by decide), nofun, nofun⟩

theorem checks_set {arg : AttributeArg} {key : String} (harg : arg.IsOf x)
    (hb : b.IsWritable scope) : Checks x (IsWritable scope) (b.set scope arg key) := by
  have hpart : (arg.value.isEmpty || Text.isIdentifier arg.value) = true →
      arg.value = "" ∨ Text.isIdentifier arg.value = true := by
    intro h
    rcases Bool.or_eq_true_iff.1 h with h | h
    · exact .inl (String.isEmpty_iff.1 h)
    · exact .inr h
  unfold set
  dsimp only
  split
  · split
    · exact checks_ok ⟨hb.highPrefix, hb.lowPrefix, hb.lowReturn, hb.transform⟩
    · exact checks_error harg.has
  · split
    · exact checks_ok ⟨hpart ‹_›, hb.lowPrefix, hb.lowReturn, hb.transform⟩
    · exact checks_error harg.has
  · split
    · exact checks_ok ⟨hb.highPrefix, hpart ‹_›, hb.lowReturn, hb.transform⟩
    · exact checks_error harg.has
  · split
    · refine checks_ok ⟨hb.highPrefix, hb.lowPrefix, ?_, hb.transform⟩
      rintro _ ⟨⟩
      exact Ty.fits_of_parse ‹_›
    · exact checks_error harg.has
  · split
    · refine checks_ok ⟨hb.highPrefix, hb.lowPrefix, hb.lowReturn, ?_⟩
      rintro _ ⟨⟩
      exact harg.isQuotable ‹_›
    · exact checks_error harg.has
  · exact checks_error harg.has

theorem checks_ofArgs {used : List String} {args : List AttributeArg}
    (hargs : ∀ arg ∈ args, arg.IsOf x) (hb : b.IsWritable scope) :
    Checks x (IsWritable scope) (ofArgs scope b used args) := by
  induction args generalizing b used with
  | nil => exact checks_ok hb
  | cons arg args ih =>
    have harg := hargs arg List.mem_cons_self
    unfold ofArgs
    split
    · exact checks_error harg.has
    · split
      · exact checks_error harg.has
      · refine (checks_set harg hb).bind fun b hb => ?_
        exact ih (fun a ha => hargs a (List.mem_cons_of_mem _ ha)) hb

end Binding

namespace Signature
variable {x : Passage} {f : Signature}

/-- A sound function that stands where the function `f` does. -/
def IsSoundLike (f g : Signature) : Prop := g.IsSound ∧ g.pos = f.pos ∧ g.isAsync = f.isAsync

theorem checks_addInstances {args : List AttributeArg} (hargs : ∀ arg ∈ args, arg.IsOf x)
    (hf : f.IsSound) (hgeneric : f.generics ≠ []) :
    Checks x (IsSoundLike f) (f.addInstances args) := by
  induction args generalizing f with
  | nil => exact checks_ok ⟨hf, rfl, rfl⟩
  | cons arg args ih =>
    have harg := hargs arg List.mem_cons_self
    unfold addInstances
    split
    · exact checks_error harg.has
    · split
      · exact checks_error harg.has
      · rename_i hnew
        have hnodup := nodup_append_singleton hf.instances_nodup hnew
        exact ih (fun a ha => hargs a (List.mem_cons_of_mem _ ha))
          ⟨hf.name, hf.generics, hf.params, hf.ret, hnodup, fun _ => hgeneric, hf.binding⟩ hgeneric

theorem checks_addAttribute {a : Attribute} (ha : a.IsOf x) (hf : f.IsSound) :
    Checks x (IsSoundLike f) (f.addAttribute a) := by
  unfold addAttribute
  dsimp only
  split
  · split
    · exact checks_error ha.has
    · refine (Binding.checks_ofArgs ha.args Binding.isWritable_default).bind fun b hb => ?_
      refine checks_ok ⟨⟨hf.name, hf.generics, hf.params, hf.ret, hf.instances_nodup,
        hf.isGeneric, ?_⟩, rfl, rfl⟩
      rintro _ ⟨⟩
      exact hb
  · split
    · exact checks_error ha.has
    · rename_i hgeneric
      split
      · exact checks_error ha.has
      · refine checks_addInstances ha.args hf fun hnil => hgeneric ?_
        simp [isGeneric, hnil]
  · exact checks_error ha.has
  · exact checks_error ha.has

theorem checks_addAttributes {attrs : List Attribute} (hattrs : ∀ a ∈ attrs, a.IsOf x)
    (hf : f.IsSound) : Checks x (IsSoundLike f) (f.addAttributes attrs) := by
  induction attrs generalizing f with
  | nil => exact checks_ok ⟨hf, rfl, rfl⟩
  | cons a attrs ih =>
    refine (checks_addAttribute (hattrs a List.mem_cons_self) hf).bind fun g hg => ?_
    refine Gives.mono (ih (fun b hb => hattrs b (List.mem_cons_of_mem _ hb)) hg.1) fun k hk => ?_
    exact ⟨hk.1, hk.2.1.trans hg.2.1, hk.2.2.trans hg.2.2⟩

end Signature

namespace Tokens
variable {x : Passage} {ts : Tokens} {scope : List String} {pos : Position}

/-! ### Parameters -/

theorem areWritable_append {ps : List Param} {p : Param} (hps : Param.AreWritable scope ps)
    (hp : p.IsWritable scope) (hnew : p.name ∉ ps.map (·.name)) :
    Param.AreWritable scope (ps ++ [p]) := by
  constructor
  · intro q hq
    rcases List.mem_append.1 hq with hq | hq
    · exact hps.1 q hq
    · exact List.mem_singleton.1 hq ▸ hp
  · rw [List.map_append]
    exact nodup_append_singleton hps.2 hnew

theorem reads_param? (scope : List String) (h : ts.AreOf x) :
    Reads x (fun found => ∀ p ∈ found, p.IsWritable scope) (ts.param? scope) := by
  refine (checks_head h).reads fun _ _ => ?_
  split
  · refine (reads_type? scope h.2.2).bind fun found rest hfound hrest => ?_
    cases found with
    | some t =>
      refine reads_ok ?_ hrest
      rintro _ ⟨⟩
      exact ⟨h.1.ident _ rfl, hfound t rfl⟩
    | none => exact reads_failAt hrest _
  · exact reads_error h.2
  · exact reads_ok nofun h

theorem reads_newParam {seen : List Param} (hseen : Param.AreWritable scope seen)
    (h : ts.AreOf x) :
    Reads x (fun p => Param.AreWritable scope (seen ++ [p])) (ts.newParam scope seen) := by
  have hparam := reads_param? scope h
  unfold newParam
  split
  · exact hparam.of_error ‹_›
  · exact reads_failAt h _
  · have hp := hparam.of_ok ‹_›
    split
    · exact reads_failAt h _
    · exact reads_ok (areWritable_append hseen (hp.1 _ rfl) ‹_›) hp.2

theorem areWritable_nil : Param.AreWritable scope [] := ⟨nofun, List.nodup_nil⟩

theorem reads_params (h : ts.AreOf x) :
    Reads x (Param.AreWritable scope) (separated (params scope) .roundClose [] ts) :=
  reads_separated (fun _ _ hseen hts => reads_newParam hseen hts) areWritable_nil h

theorem reads_paramList (h : ts.AreOf x) :
    Reads x (Param.AreWritable scope) (ts.paramList scope) := by
  refine (reads_punct? h .roundClose).bind fun closed rest _ hrest => ?_
  cases closed with
  | true => exact reads_ok areWritable_nil hrest
  | false => exact reads_params hrest

theorem reads_moreParams (h : ts.AreOf x) :
    Reads x (Param.AreWritable scope) (ts.moreParams scope) := by
  refine (reads_punct? h .roundClose).bind fun closed rest _ hrest => ?_
  cases closed with
  | true => exact reads_ok areWritable_nil hrest
  | false => exact (skips_punct hrest .comma).bind fun rest hrest => reads_params hrest

theorem reads_returnType (h : ts.AreOf x) : Reads x (Ty.Fits scope) (ts.returnType scope) := by
  refine (reads_punct? h .arrow).bind fun arrow rest _ hrest => ?_
  cases arrow with
  | false => exact reads_ok ⟨trivial, trivial⟩ hrest
  | true =>
    refine (reads_type? scope hrest).bind fun found rest hfound hrest => ?_
    cases found with
    | some t => exact reads_ok (hfound t rfl) hrest
    | none => exact reads_failAt hrest _

/-! ### Functions -/

theorem reads_moreBounds {seen : List String} (hseen : ∀ b ∈ seen, Name.IsPath b)
    (h : ts.AreOf x) : Reads x (fun all => ∀ b ∈ all, Name.IsPath b) (ts.moreBounds seen) := by
  fun_induction moreBounds seen ts with
  | case1 seen ts fault hp => exact (reads_punct? h .plus).of_error hp
  | case2 seen ts rest hp => exact reads_ok hseen ((reads_punct? h .plus).of_ok hp).2
  | case3 seen ts inner hp fault hb =>
    exact (reads_path ((reads_punct? h .plus).of_ok hp).2).of_error hb
  | case4 seen ts inner hp bound rest hb ih =>
    have hbound := (reads_path ((reads_punct? h .plus).of_ok hp).2).of_ok hb
    refine ih (fun b hb => ?_) hbound.2
    rcases List.mem_append.1 hb with hb | hb
    · exact hseen b hb
    · exact List.mem_singleton.1 hb ▸ hbound.1

theorem reads_bounds (h : ts.AreOf x) :
    Reads x (fun all => ∀ b ∈ all, Name.IsPath b) ts.bounds := by
  refine (reads_punct? h .colon).bind fun colon rest _ hrest => ?_
  cases colon with
  | false => exact reads_ok nofun hrest
  | true =>
    refine (reads_path hrest).bind fun bound rest hbound hrest => ?_
    refine reads_moreBounds (fun b hb => ?_) hrest
    exact List.mem_singleton.1 hb ▸ hbound

theorem reads_generic (h : ts.AreOf x) : Reads x Generic.IsWritable ts.generic := by
  unfold generic
  split
  · refine (reads_bounds h.2).bind fun bounds rest hbounds hrest => ?_
    exact reads_ok ⟨h.1.ident _ rfl, hbounds⟩ hrest
  · exact reads_failAt h _

theorem reads_genericList (h : ts.AreOf x) :
    Reads x (fun gs => ∀ g ∈ gs, Generic.IsWritable g) ts.genericList := by
  refine (reads_punct? h .less).bind fun opened rest _ hrest => ?_
  cases opened with
  | false => exact reads_ok nofun hrest
  | true =>
    refine reads_separated (fun seen ts hseen hts => ?_) nofun hrest
    refine (reads_generic hts).mono fun g hg k hk => ?_
    rcases List.mem_append.1 hk with hk | hk
    · exact hseen k hk
    · exact List.mem_singleton.1 hk ▸ hg

theorem reads_signature {isAsync : Bool} (h : ts.AreOf x) :
    Reads x (fun f => f.IsSound ∧ f.pos = pos ∧ f.isAsync = isAsync)
      (ts.signature isAsync pos) := by
  refine (reads_ident h).bind fun name rest hname hrest => ?_
  refine (reads_genericList hrest).bind fun generics rest hgenerics hrest => ?_
  refine (skips_punct hrest .roundOpen).bind fun rest hrest => ?_
  refine (reads_paramList hrest).bind fun params rest hparams hrest => ?_
  refine (reads_returnType hrest).bind fun ret rest hret hrest => ?_
  refine (skips_punct hrest .semicolon).bind fun rest hrest => ?_
  exact reads_ok ⟨⟨hname, hgenerics, hparams, hret, List.nodup_nil, absurd rfl, nofun⟩, rfl, rfl⟩
    hrest

end Tokens
end Bindery
