import Bindery.Decl.Parser.Param
import Bindery.Proofs.Decl.Spelling
import Bindery.Proofs.Ty.Placement

/-!
# Attributes and parameters do not depend on positions

The rules that read attributes and parameters commute with the removal of positions, and so does
what attributes add to a declaration, up to the positions that the declaration itself has.
-/
namespace Bindery
namespace Tokens

section attributes
variable {ts : Tokens}

section
variable (key : Option String) (pos : Position) {cause : Token → Cause}
  (h : ∀ t, cause t.unplaced = cause t) (ts : Tokens)
include h

theorem typeValue_unplaced :
    (match ts.unplaced.type? [] with
      | .error fault => .error fault
      | .ok (none, _) => ts.unplaced.failAt cause
      | .ok (some t, rest) => .ok (⟨key, t.render, false, .start⟩, rest)) =
    unplacedRead AttributeArg.unplaced (match ts.type? [] with
      | .error fault => .error fault
      | .ok (none, _) => ts.failAt cause
      | .ok (some t, rest) => .ok (⟨key, t.render, false, pos⟩, rest)) := by
  rw [type?_unplaced]
  rcases ts.type? [] with fault | ⟨_ | t, rest⟩
  · rfl
  · exact failAt_unplaced h
  · rfl

theorem argValue_unplaced : ts.unplaced.argValue key .start cause =
    unplacedRead AttributeArg.unplaced (ts.argValue key pos cause) := by
  rcases ts with _ | fault | ⟨⟨l, q⟩, rest⟩
  · exact typeValue_unplaced key pos h (done _)
  · exact typeValue_unplaced key pos h (broken fault)
  · have hnext := typeValue_unplaced key pos h (next ⟨l, q⟩ rest)
    cases l with
    | quoted value => rfl
    | _ => exact hnext

end

theorem attributeArg_unplaced :
    ts.unplaced.attributeArg = unplacedRead AttributeArg.unplaced ts.attributeArg := by
  have hvalue (p : Position) (ts : Tokens) :
      ts.unplaced.argValue none .start (fun t => .unexpected t.lexeme.describe) =
        unplacedRead AttributeArg.unplaced
          (ts.argValue none p fun t => .unexpected t.lexeme.describe) :=
    argValue_unplaced none p (fun _ => rfl) ts
  rcases ts with p | fault | ⟨⟨l, p⟩, ts⟩
  · exact hvalue p (done p)
  · rfl
  · have hnext := hvalue p (next ⟨l, p⟩ ts)
    cases l with
    | ident key =>
      rcases ts with q | fault | ⟨⟨l, q⟩, rest⟩
      · exact hnext
      · rfl
      · cases l with
        | punct mark =>
          cases mark with
          | assign => exact argValue_unplaced (some key) p (fun _ => rfl) rest
          | _ => exact hnext
        | _ => exact hnext
    | _ => exact hnext

theorem argList_unplaced : ts.unplaced.argList =
    unplacedRead (List.map AttributeArg.unplaced) ts.argList := by
  refine bind_unplacedRead (punct?_unplaced .roundOpen) fun opened ts => ?_
  cases opened with
  | false => rfl
  | true =>
    refine bind_unplacedRead (punct?_unplaced .roundClose) fun closed ts => ?_
    cases closed with
    | true => rfl
    | false => exact separated_unplaced .roundClose (fun _ _ => attributeArg_unplaced) []

theorem oneAttribute_unplaced :
    ts.unplaced.oneAttribute = unplacedRead Attribute.unplaced ts.oneAttribute := by
  refine bind_unplaced head_unplaced fun t => ?_
  refine bind_unplacedRead ident_unplaced fun name ts => ?_
  exact bind_unplacedRead argList_unplaced fun args ts => rfl

theorem group_unplaced (seen : List Attribute) :
    separated attributeGroup .squareClose (seen.map Attribute.unplaced) ts.unplaced =
      unplacedRead (List.map Attribute.unplaced) (separated attributeGroup .squareClose seen ts) :=
  separated_unplaced .squareClose (fun _ _ => oneAttribute_unplaced) seen

/-- A group of attributes and what follows, if a group begins here. -/
theorem attributes_eq (seen : List Attribute) (ts : Tokens) :
    ts.attributes seen = (do
      match ← ts.punct? .squareOpen with
      | (false, ts) => .ok (seen, ts)
      | (true, ts) =>
        let (seen, ts) ← separated attributeGroup .squareClose seen ts
        ts.attributes seen) := by
  rw [attributes]
  split
  all_goals
    rename_i hc
    simp only [bind, Except.bind, hc]
  split <;> rename_i hi <;> simp only [hi]

theorem attributes_unplaced (seen : List Attribute) :
    ts.unplaced.attributes (seen.map (·.unplaced)) =
      unplacedRead (List.map Attribute.unplaced) (ts.attributes seen) := by
  fun_induction attributes seen ts with
  | case1 seen ts fault hc =>
    rw [attributes_eq, punct?_unplaced, hc]
    rfl
  | case2 seen ts rest hc =>
    rw [attributes_eq, punct?_unplaced, hc]
    rfl
  | case3 seen ts inner hc fault hs =>
    rw [attributes_eq, punct?_unplaced, hc]
    simp only [unplacedRead_ok, bind, Except.bind, id_eq, group_unplaced, hs, unplacedRead_error]
  | case4 seen ts inner hc seen' rest hs ih =>
    rw [attributes_eq, punct?_unplaced, hc]
    simp only [unplacedRead_ok, bind, Except.bind, id_eq, group_unplaced, hs]
    exact ih

end attributes
end Tokens

/-! ### What attributes tell -/

theorem Binding.set_unplaced (scope : List String) (b : Binding) (arg : AttributeArg)
    (key : String) : b.set scope arg.unplaced key = unplacedBy id (b.set scope arg key) := by
  obtain ⟨_, value, isQuoted, pos⟩ := arg
  unfold Binding.set
  dsimp only [AttributeArg.unplaced]
  split
  · split <;> rfl
  · split <;> rfl
  · split <;> rfl
  · split <;> rfl
  · cases isQuoted <;> rfl
  · rfl

theorem Binding.ofArgs_unplaced (scope : List String) (b : Binding) (used : List String)
    (args : List AttributeArg) : Binding.ofArgs scope b used (args.map (·.unplaced)) =
      unplacedBy id (Binding.ofArgs scope b used args) := by
  induction args generalizing b used with
  | nil => rfl
  | cons arg args ih =>
    obtain ⟨key, value, isQuoted, pos⟩ := arg
    cases key with
    | none => rfl
    | some key =>
      simp only [List.map_cons, Binding.ofArgs, AttributeArg.unplaced]
      split
      · rfl
      · exact bind_unplaced (set_unplaced scope b ⟨some key, value, isQuoted, pos⟩ key)
          fun b => ih b (key :: used)

namespace Signature

theorem addInstances_unplaced (f : Signature) (args : List AttributeArg) :
    f.unplaced.addInstances (args.map (·.unplaced)) =
      unplacedBy Signature.unplaced (f.addInstances args) := by
  induction args generalizing f with
  | nil => rfl
  | cons arg args ih =>
    obtain ⟨key, value, isQuoted, pos⟩ := arg
    cases key with
    | some key => rfl
    | none =>
      simp only [List.map_cons, addInstances, AttributeArg.unplaced, Signature.unplaced]
      split
      · rfl
      · exact ih { f with instances := f.instances ++ [value] }

theorem addAttribute_unplaced (f : Signature) (a : Attribute) :
    f.unplaced.addAttribute a.unplaced = unplacedBy Signature.unplaced (f.addAttribute a) := by
  obtain ⟨name, args, pos⟩ := a
  unfold addAttribute
  dsimp only [Attribute.unplaced]
  split
  · obtain ⟨_, _, _, generics, _, _, binding, _⟩ := f
    cases binding with
    | some b => rfl
    | none => exact bind_unplaced (Binding.ofArgs_unplaced _ _ _ args) fun b => rfl
  · cases hgeneric : f.isGeneric with
    | false =>
      have hgeneric' : f.unplaced.isGeneric = false := hgeneric
      rw [hgeneric']
      rfl
    | true =>
      have hgeneric' : f.unplaced.isGeneric = true := hgeneric
      rw [hgeneric']
      cases args with
      | nil => rfl
      | cons arg args => exact addInstances_unplaced f (arg :: args)
  · rfl
  · rfl

theorem addAttributes_unplaced (f : Signature) (attrs : List Attribute) :
    f.unplaced.addAttributes (attrs.map (·.unplaced)) =
      unplacedBy Signature.unplaced (f.addAttributes attrs) := by
  induction attrs generalizing f with
  | nil => rfl
  | cons a attrs ih => exact bind_unplaced (addAttribute_unplaced f a) ih

end Signature

theorem Record.addAttributes_unplaced (r : Record) (attrs : List Attribute) :
    r.unplaced.addAttributes (attrs.map (·.unplaced)) =
      unplacedBy Record.unplaced (r.addAttributes attrs) := by
  induction attrs generalizing r with
  | nil => rfl
  | cons a attrs ih =>
    obtain ⟨name, args, pos⟩ := a
    rw [List.map_cons, Attribute.unplaced]
    simp only [Record.addAttributes]
    split
    · split
      · rename_i hargs
        obtain ⟨⟨_, _, _, _⟩, rfl, harg⟩ := List.map_eq_singleton_iff.1 hargs
        cases harg
        exact ih { r with hasLayout := true }
      · rename_i hargs
        split
        · exact absurd rfl (hargs _ _)
        · rfl
    · rfl

theorem Attribute.refuse_unplaced (owner : Owner) (name : String) (attrs : List Attribute) :
    Attribute.refuse owner name (attrs.map (·.unplaced)) =
      unplacedBy id (Attribute.refuse owner name attrs) := by
  cases attrs <;> rfl

namespace Tokens

section params
variable {scope : List String} {ts : Tokens}

theorem param?_unplaced : ts.unplaced.param? scope = unplacedRead id (ts.param? scope) := by
  rcases ts with p | fault | ⟨⟨l, p⟩, ts⟩
  · rfl
  · rfl
  · cases l with
    | ident name =>
      rcases ts with q | fault | ⟨⟨l, q⟩, rest⟩
      · rfl
      · rfl
      · cases l with
        | punct mark =>
          cases mark with
          | colon =>
            refine bind_unplacedRead type?_unplaced fun t ts => ?_
            cases t with
            | some t => rfl
            | none => exact failAt_unplaced fun _ => rfl
          | _ => rfl
        | _ => rfl
    | _ => rfl

theorem newParam_unplaced (seen : List Param) :
    ts.unplaced.newParam scope seen = unplacedRead id (ts.newParam scope seen) := by
  unfold newParam
  rw [param?_unplaced]
  rcases ts.param? scope with fault | ⟨_ | p, rest⟩
  · rfl
  · exact failAt_unplaced fun _ => rfl
  · simp only [unplacedRead_ok, id]
    split
    · exact failAt_unplaced fun _ => rfl
    · rfl

theorem params_unplaced : separated (params scope) .roundClose [] ts.unplaced =
    unplacedRead id (separated (params scope) .roundClose [] ts) :=
  separated_unplaced_id .roundClose (fun seen _ => newParam_unplaced seen) []

theorem paramList_unplaced :
    ts.unplaced.paramList scope = unplacedRead id (ts.paramList scope) := by
  refine bind_unplacedRead (punct?_unplaced .roundClose) fun closed ts => ?_
  cases closed with
  | true => rfl
  | false => exact params_unplaced

theorem moreParams_unplaced :
    ts.unplaced.moreParams scope = unplacedRead id (ts.moreParams scope) := by
  refine bind_unplacedRead (punct?_unplaced .roundClose) fun closed ts => ?_
  cases closed with
  | true => rfl
  | false => exact bind_unplaced (punct_unplaced .comma) fun ts => params_unplaced

theorem returnType_unplaced :
    ts.unplaced.returnType scope = unplacedRead id (ts.returnType scope) := by
  refine bind_unplacedRead (punct?_unplaced .arrow) fun found ts => ?_
  cases found with
  | false => rfl
  | true =>
    refine bind_unplacedRead type?_unplaced fun t ts => ?_
    cases t with
    | some t => rfl
    | none => exact failAt_unplaced fun _ => rfl

end params

end Tokens
end Bindery
