import Bindery.Decl.Basic
import Bindery.Syntax.Sequence
import Bindery.Ty.Parser

/-!
# Attributes

Attributes stand in square brackets before a declaration. A function takes `binding` and
`monomorphize`, a struct takes `layout`; any other attribute, key or argument is a fault.
-/
namespace Bindery

/-- An argument of an attribute. A type counts by its printed form. -/
structure AttributeArg where
  key : Option String
  value : String
  isQuoted : Bool
  pos : Position
  deriving DecidableEq

structure Attribute where
  name : String
  args : List AttributeArg
  pos : Position
  deriving DecidableEq

namespace Tokens

/-- The value of an attribute argument, a quoted text or a type outside of any generic scope. -/
def argValue (key : Option String) (pos : Position) (cause : Token → Cause) (ts : Tokens) :
    Except Fault (AttributeArg × Tokens) :=
  match ts with
  | next ⟨.quoted value, _⟩ rest => .ok (⟨key, value, true, pos⟩, rest)
  | ts =>
    match ts.type? [] with
    | .error fault => .error fault
    | .ok (none, _) => ts.failAt cause
    | .ok (some t, rest) => .ok (⟨key, t.render, false, pos⟩, rest)

def attributeArg (ts : Tokens) : Except Fault (AttributeArg × Tokens) := do
  let first ← ts.head
  match ts with
  | next ⟨.ident key, pos⟩ after =>
    match after with
    | next ⟨.punct .assign, _⟩ value => value.argValue (some key) pos fun _ => .expectedValue key
    | broken fault => .error fault
    | _ => ts.argValue none pos fun t => .unexpected t.lexeme.describe
  | ts => ts.argValue none first.pos fun t => .unexpected t.lexeme.describe

theorem argValue_length {key : Option String} {pos : Position} {cause : Token → Cause}
    {ts rest : Tokens} {arg : AttributeArg} (h : ts.argValue key pos cause = .ok (arg, rest)) :
    rest.length < ts.length := by
  unfold argValue at h
  split at h
  · cases h; simp
  · split at h
    · cases h
    · exact absurd h failAt_ne_ok
    · rename_i ht
      cases h
      exact type?_length ht

theorem attributeArg_length {ts rest : Tokens} {arg : AttributeArg}
    (h : ts.attributeArg = .ok (arg, rest)) : rest.length < ts.length := by
  simp only [attributeArg, bind, Except.bind] at h
  split at h
  · cases h
  · split at h
    · split at h
      · have := argValue_length h
        simp only [length_next]
        omega
      · cases h
      · exact argValue_length h
    · exact argValue_length h

def attributeArgs : Rule (List AttributeArg) AttributeArg :=
  ⟨fun _ ts => ts.attributeArg, attributeArg_length⟩

/-- The arguments of an attribute, if an opening bracket follows its name. -/
def argList (ts : Tokens) : Except Fault (List AttributeArg × Tokens) := do
  match ← ts.punct? .roundOpen with
  | (false, ts) => .ok ([], ts)
  | (true, ts) =>
    match ← ts.punct? .roundClose with
    | (true, ts) => .ok ([], ts)
    | (false, ts) => separated attributeArgs .roundClose [] ts

theorem argList_length {ts rest : Tokens} {args : List AttributeArg}
    (h : ts.argList = .ok (args, rest)) : rest.length ≤ ts.length := by
  simp only [argList, bind, Except.bind] at h
  split at h
  · cases h
  · rename_i hr
    have := punct?_length hr
    split at h
    · cases h
      exact this
    · split at h
      · cases h
      · rename_i hc
        have := punct?_length hc
        split at h
        · cases h
          dsimp only at *
          omega
        · have := separated_length h
          dsimp only at *
          omega

def oneAttribute (ts : Tokens) : Except Fault (Attribute × Tokens) := do
  let t ← ts.head
  let (name, ts) ← ts.ident
  let (args, ts) ← ts.argList
  .ok (⟨name, args, t.pos⟩, ts)

theorem oneAttribute_length {ts rest : Tokens} {a : Attribute}
    (h : ts.oneAttribute = .ok (a, rest)) : rest.length < ts.length := by
  simp only [oneAttribute, bind, Except.bind] at h
  split at h
  · cases h
  · split at h
    · cases h
    · rename_i hi
      split at h <;> cases h
      rename_i ha
      exact Nat.lt_of_le_of_lt (argList_length ha) (ident_length hi)

def attributeGroup : Rule (List Attribute) Attribute :=
  ⟨fun _ ts => ts.oneAttribute, oneAttribute_length⟩

/-- All attributes that come next, in one or more groups. -/
def attributes (seen : List Attribute) (ts : Tokens) : Except Fault (List Attribute × Tokens) :=
  match _hb : ts.punct? .squareOpen with
  | .error fault => .error fault
  | .ok (false, ts) => .ok (seen, ts)
  | .ok (true, inner) =>
    match _h : separated attributeGroup .squareClose seen inner with
    | .error fault => .error fault
    | .ok (seen, rest) => attributes seen rest
termination_by ts.length
decreasing_by
  have := punct?_length _hb
  have := separated_length _h
  omega

theorem attributes_length {seen all : List Attribute} {ts rest : Tokens}
    (h : ts.attributes seen = .ok (all, rest)) : rest.length ≤ ts.length := by
  fun_induction attributes seen ts with
  | case1 | case3 => cases h
  | case2 _ _ _ hb =>
    cases h
    exact punct?_length hb
  | case4 _ _ _ hb _ _ hs ih =>
    have := ih h
    have := punct?_length hb
    have := separated_length hs
    omega

end Tokens

namespace Binding

def strategyOf? : String → Option Strategy
  | "dual" | "both" => some .both
  | "high_only" => some .highOnly
  | "low_only" => some .lowOnly
  | _ => none

/-- Sets what one argument of `binding` says, within the generic scope of the function. -/
def set (scope : List String) (b : Binding) (arg : AttributeArg) (key : String) :
    Except Fault Binding :=
  let fail (cause : Cause) : Except Fault Binding := .error ⟨arg.pos, cause⟩
  let isPart := arg.value.isEmpty || Text.isIdentifier arg.value
  match key with
  | "strategy" =>
    match strategyOf? arg.value with
    | some s => .ok { b with strategy := s }
    | none => fail (.badStrategy arg.value)
  | "prefix_high" =>
    if isPart then .ok { b with highPrefix := arg.value } else fail (.badPrefix arg.value)
  | "prefix_low" =>
    if isPart then .ok { b with lowPrefix := arg.value } else fail (.badPrefix arg.value)
  | "c_ret" =>
    match Ty.parse arg.value scope with
    | .ok t => .ok { b with lowReturn := some t }
    | .error fault => fail (.badLowReturn fault.cause)
  | "map_fn" =>
    if arg.isQuoted then .ok { b with transform := some arg.value } else fail .unquotedTransform
  | key => fail (.unknownKey key)

/-- The binding that the arguments spell, after keys that are already used. -/
def ofArgs (scope : List String) :
    Binding → List String → List AttributeArg → Except Fault Binding
  | b, _, [] => .ok b
  | b, used, arg :: args =>
    match arg.key with
    | none => .error ⟨arg.pos, .positionalBinding⟩
    | some key =>
      if key ∈ used then .error ⟨arg.pos, .duplicateKey key⟩
      else do
        let b ← b.set scope arg key
        ofArgs scope b (key :: used) args

end Binding

namespace Signature

/-- Adds the types of a `monomorphize` list, all of them new. -/
def addInstances (f : Signature) : List AttributeArg → Except Fault Signature
  | [] => .ok f
  | arg :: args =>
    match arg.key with
    | some key => .error ⟨arg.pos, .unknownKey key⟩
    | none =>
      if arg.value ∈ f.instances then .error ⟨arg.pos, .duplicateInstance arg.value⟩
      else addInstances { f with instances := f.instances ++ [arg.value] } args

def addAttribute (f : Signature) (a : Attribute) : Except Fault Signature :=
  let fail (cause : Cause) : Except Fault Signature := .error ⟨a.pos, cause⟩
  match a.name with
  | "binding" =>
    match f.binding with
    | some _ => fail .duplicateBinding
    | none => do
      let b ← Binding.ofArgs (f.generics.map (·.name)) {} [] a.args
      .ok { f with binding := some b }
  | "monomorphize" =>
    if !f.isGeneric then fail (.instancesWithoutGenerics f.name)
    else if a.args.isEmpty then fail .noInstances
    else f.addInstances a.args
  | "layout" => fail (.layoutOnFunction f.name)
  | name => fail (.unknownAttribute name)

def addAttributes (f : Signature) : List Attribute → Except Fault Signature
  | [] => .ok f
  | a :: attrs => do
    let f ← f.addAttribute a
    f.addAttributes attrs

end Signature

/-- The only attribute of a record is `layout`, whose one argument is `c`. -/
def Record.addAttributes (r : Record) : List Attribute → Except Fault Record
  | [] => .ok r
  | a :: attrs =>
    if a.name = "layout" then
      match a.args with
      | [⟨none, "c", _, _⟩] => Record.addAttributes { r with hasLayout := true } attrs
      | _ => .error ⟨a.pos, .layoutArgument⟩
    else .error ⟨a.pos, .misplacedAttribute a.name .struct r.name⟩

/-- Refuses all attributes. -/
def Attribute.refuse (owner : Owner) (name : String) : List Attribute → Except Fault Unit
  | [] => .ok ()
  | a :: _ => .error ⟨a.pos, .misplacedAttribute a.name owner name⟩

end Bindery
