import Bindery.Decl.Attribute
import Bindery.Proofs.Ty.Spelling

/-!
# The text of declarations

Declarations are written in the order module, structs, enumerations, functions and handles, each
with all that the grammar lets it tell: attributes before it, types as they are printed, and the
values of enumerators in decimal. Where a part is optional it is left out if there is nothing to
tell.
-/
namespace Bindery
open Lexeme

namespace Lexeme

/-- A text that can stand between quotes. -/
def IsQuotable (s : String) : Prop := '\n' ∉ s.toList ∧ '\x00' ∉ s.toList

instance (s : String) : Decidable (IsQuotable s) := inferInstanceAs (Decidable (_ ∧ _))

end Lexeme

/-- The tokens of a stream, without their positions. -/
def Tokens.lexemes : Tokens → List Lexeme
  | next t rest => t.lexeme :: rest.lexemes
  | _ => []

namespace AttributeArg

/-- The value of an argument is a quoted text or the printed form of a type. -/
def valueLexemes (a : AttributeArg) : List Lexeme :=
  if a.isQuoted then [.quoted a.value] else (Tokens.ofText a.value .start).lexemes

def lexemes (a : AttributeArg) : List Lexeme :=
  match a.key with
  | some key => .ident key :: .punct .assign :: a.valueLexemes
  | none => a.valueLexemes

def IsWritable (a : AttributeArg) : Prop :=
  (∀ key ∈ a.key, IsIdent key) ∧
    (a.isQuoted = true → IsQuotable a.value) ∧
    (a.isQuoted = false → ∃ t : Ty, t.IsWritable ∧ a.value = t.render)

/-- What an argument tells, wherever it stands. -/
def unplaced (a : AttributeArg) : AttributeArg := { a with pos := .start }

end AttributeArg

namespace Attribute

/-- The tokens of the arguments between round brackets, which are left out if there are none. -/
def argLexemes : List AttributeArg → List Lexeme
  | [] => []
  | args => .punct .roundOpen :: (commas (args.map (·.lexemes)) ++ [.punct .roundClose])

def lexemes (a : Attribute) : List Lexeme := .ident a.name :: argLexemes a.args

def IsWritable (a : Attribute) : Prop := IsIdent a.name ∧ ∀ arg ∈ a.args, arg.IsWritable

/-- The tokens of a group of attributes, which is left out if it is empty. -/
def groupLexemes : List Attribute → List Lexeme
  | [] => []
  | attrs => .punct .squareOpen :: (commas (attrs.map (·.lexemes)) ++ [.punct .squareClose])

def unplaced (a : Attribute) : Attribute :=
  { a with args := a.args.map (·.unplaced), pos := .start }

end Attribute

namespace Param

def lexemes (p : Param) : List Lexeme := .ident p.name :: .punct .colon :: p.type.lexemes

/-- The tokens of parameters between round brackets. -/
def listLexemes (ps : List Param) : List Lexeme :=
  .punct .roundOpen :: (commas (ps.map (·.lexemes)) ++ [.punct .roundClose])

/-- The tokens of the parameters after the first, up to the closing bracket. -/
def moreLexemes (ps : List Param) : List Lexeme :=
  ps.flatMap (fun p => .punct .comma :: p.lexemes) ++ [.punct .roundClose]

def IsWritable (scope : List String) (p : Param) : Prop :=
  IsIdent p.name ∧ p.type.IsWritable ∧ p.type.IsScoped scope

instance (scope : List String) (p : Param) : Decidable (p.IsWritable scope) :=
  inferInstanceAs (Decidable (_ ∧ _ ∧ _))

/-- Parameters or fields with distinct names. -/
def AreWritable (scope : List String) (ps : List Param) : Prop :=
  (∀ p ∈ ps, p.IsWritable scope) ∧ (ps.map (·.name)).Nodup

instance (scope : List String) (ps : List Param) : Decidable (AreWritable scope ps) :=
  inferInstanceAs (Decidable (_ ∧ _))

end Param

namespace Generic

def lexemes (g : Generic) : List Lexeme :=
  .ident g.name :: match g.bounds with
    | [] => []
    | bound :: bounds => .punct .colon ::
      (Name.lexemes bound ++ bounds.flatMap fun b => .punct .plus :: Name.lexemes b)

/-- The tokens of a list of generic parameters, which is left out if it is empty. -/
def listLexemes : List Generic → List Lexeme
  | [] => []
  | gs => .punct .less :: (commas (gs.map (·.lexemes)) ++ [.punct .greater])

def IsWritable (g : Generic) : Prop := IsIdent g.name ∧ ∀ b ∈ g.bounds, Name.IsPath b

end Generic

/-- The tokens of a return type, which is left out if it is void. -/
def Ty.returnLexemes (t : Ty) : List Lexeme :=
  if t.isVoid then [] else .punct .arrow :: t.lexemes

namespace Binding

def strategyWord : Strategy → String
  | .highOnly => "high_only" | .lowOnly => "low_only" | .both => "dual"

/-- The arguments that spell a binding. -/
def args (b : Binding) : List AttributeArg :=
  [⟨some "strategy", strategyWord b.strategy, true, .start⟩,
    ⟨some "prefix_high", b.highPrefix, true, .start⟩,
    ⟨some "prefix_low", b.lowPrefix, true, .start⟩] ++
  (b.lowReturn.toList.map fun t => ⟨some "c_ret", t.render, false, .start⟩) ++
  (b.transform.toList.map fun s => ⟨some "map_fn", s, true, .start⟩)

structure IsWritable (scope : List String) (b : Binding) : Prop where
  highPrefix : b.highPrefix = "" ∨ Text.isIdentifier b.highPrefix = true
  lowPrefix : b.lowPrefix = "" ∨ Text.isIdentifier b.lowPrefix = true
  lowReturn : ∀ t ∈ b.lowReturn, t.IsWritable ∧ t.IsScoped scope
  transform : ∀ s ∈ b.transform, IsQuotable s

end Binding

namespace Signature

/-- The names of the generic parameters, which are in scope in the rest of the signature. -/
def scope (f : Signature) : List String := f.generics.map (·.name)

/-- The attributes that spell the binding and the list of instances. -/
def attributes (f : Signature) : List Attribute :=
  (f.binding.toList.map fun b => ⟨"binding", b.args, .start⟩) ++
  (if f.instances = [] then []
    else [⟨"monomorphize", f.instances.map fun s => ⟨none, s, false, .start⟩, .start⟩])

/-- The tokens of a function after its keywords. -/
def tailLexemes (f : Signature) : List Lexeme :=
  .ident f.name :: (Generic.listLexemes f.generics ++
    (Param.listLexemes f.params ++ (f.ret.returnLexemes ++ [.punct .semicolon])))

def lexemes (f : Signature) : List Lexeme :=
  Attribute.groupLexemes f.attributes ++
    ((if f.isAsync then [.keyword .async] else []) ++ .keyword .fn :: f.tailLexemes)

structure IsWritable (f : Signature) : Prop where
  name : IsIdent f.name
  generics : ∀ g ∈ f.generics, g.IsWritable
  params : Param.AreWritable f.scope f.params
  ret : f.ret.IsWritable ∧ f.ret.IsScoped f.scope
  instances : ∀ s ∈ f.instances, ∃ t : Ty, t.IsWritable ∧ s = t.render
  instances_nodup : f.instances.Nodup
  isGeneric : f.instances ≠ [] → f.generics ≠ []
  binding : ∀ b ∈ f.binding, b.IsWritable f.scope

end Signature

namespace Record

def attributes (r : Record) : List Attribute :=
  if r.hasLayout then [⟨"layout", [⟨none, "c", false, .start⟩], .start⟩] else []

/-- The tokens of the fields of a defined record, or the end of a declared one. -/
def bodyLexemes (r : Record) : List Lexeme :=
  if r.isDefined then .punct .curlyOpen ::
    (r.fields.flatMap (fun p => p.lexemes ++ [.punct .semicolon]) ++ [.punct .curlyClose])
  else [.punct .semicolon]

def lexemes (r : Record) : List Lexeme :=
  Attribute.groupLexemes r.attributes ++
    .keyword .struct :: (Name.lexemes r.name ++ r.bodyLexemes)

structure IsWritable (r : Record) : Prop where
  name : Name.IsPath r.name
  unqualified : r.isDefined = true → IsIdent r.name
  fields : Param.AreWritable [] r.fields
  isDefined : r.isDefined = true ↔ r.fields ≠ []

end Record

namespace Enum

def itemLexemes (item : String × Int) : List Lexeme :=
  [.ident item.1, .punct .assign, .number (toString item.2)]

/-- The tokens of an enumeration after its keyword. -/
def tailLexemes (e : Enum) : List Lexeme :=
  .ident e.name :: .punct .colon :: .scalar (.int e.kind) :: .punct .curlyOpen ::
    (commas (e.items.map itemLexemes) ++ [.punct .curlyClose])

def lexemes (e : Enum) : List Lexeme := .keyword .enum :: e.tailLexemes

structure IsWritable (e : Enum) : Prop where
  name : IsIdent e.name
  items : ∀ item ∈ e.items, IsIdent item.1 ∧ e.kind.range.1 ≤ item.2 ∧ item.2 ≤ e.kind.range.2 ∧
    -9223372036854775808 < item.2
  items_nodup : (e.items.map (·.1)).Nodup
  items_ne_nil : e.items ≠ []

end Enum

namespace Handle

def symbolLexemes (symbol : String) : List Lexeme :=
  [.punct .assign, .ident symbol, .punct .semicolon]

def constructorLexemes (c : Constructor) : List Lexeme :=
  .keyword .ctor :: .ident c.name :: (Param.listLexemes c.params ++ symbolLexemes c.symbol)

/-- The tokens of the first parameter of a method, the handle itself. -/
def selfLexemes (mutable : Bool) : List Lexeme :=
  if mutable then [.keyword .mutable, .keyword .self] else [.keyword .self]

def methodLexemes (m : Method) : List Lexeme :=
  .keyword .fn :: .ident m.name :: .punct .roundOpen :: (selfLexemes m.mutable ++
    (Param.moreLexemes m.params ++ (m.ret.returnLexemes ++ symbolLexemes m.symbol)))

def destructorLexemes (symbol : String) : List Lexeme := .keyword .dtor :: symbolLexemes symbol

/-- The tokens of the items of a handle, up to the closing bracket. -/
def bodyLexemes (d : Handle) : List Lexeme :=
  d.constructors.flatMap constructorLexemes ++ (d.destructor.toList.flatMap destructorLexemes ++
    (d.methods.flatMap methodLexemes ++ [.punct .curlyClose]))

def lexemes (d : Handle) : List Lexeme :=
  .keyword .handle :: .ident d.name :: .punct .curlyOpen :: d.bodyLexemes

structure IsWritable (d : Handle) : Prop where
  name : IsIdent d.name
  constructors : ∀ c ∈ d.constructors, IsIdent c.name ∧ Param.AreWritable [] c.params ∧
    IsIdent c.symbol
  constructors_ne_nil : d.constructors ≠ []
  destructor : ∃ symbol, d.destructor = some symbol ∧ IsIdent symbol
  methods : ∀ m ∈ d.methods, IsIdent m.name ∧ Param.AreWritable [] m.params ∧
    m.ret.IsWritable ∧ m.ret.IsScoped [] ∧ IsIdent m.symbol

end Handle

namespace Declarations

def moduleLexemes : List String → List Lexeme
  | [] => []
  | part :: parts => .keyword .moduleName :: .ident part ::
      (parts.flatMap (fun p => [.punct .dot, .ident p]) ++ [.punct .semicolon])

def lexemes (ds : Declarations) : List Lexeme :=
  moduleLexemes ds.modulePath ++ (ds.records.flatMap (·.lexemes) ++ (ds.enums.flatMap (·.lexemes) ++
    (ds.functions.flatMap (·.lexemes) ++ ds.handles.flatMap (·.lexemes))))

/-- The text of some declarations. -/
def render (ds : Declarations) : String := text ds.lexemes

structure IsWritable (ds : Declarations) : Prop where
  modulePath : ∀ part ∈ ds.modulePath, IsIdent part
  functions : ∀ f ∈ ds.functions, f.IsWritable
  functions_nodup : (ds.functions.map (·.name)).Nodup
  records : ∀ r ∈ ds.records, r.IsWritable
  enums : ∀ e ∈ ds.enums, e.IsWritable
  handles : ∀ d ∈ ds.handles, d.IsWritable

end Declarations

/-! What declarations tell, wherever they stand. -/

def Signature.unplaced (f : Signature) : Signature := { f with pos := .start }

def Record.unplaced (r : Record) : Record := { r with pos := .start }

def Enum.unplaced (e : Enum) : Enum := { e with pos := .start }

def Handle.unplaced (d : Handle) : Handle := { d with pos := .start }

def Declarations.unplaced (ds : Declarations) : Declarations where
  modulePath := ds.modulePath
  functions := ds.functions.map (·.unplaced)
  records := ds.records.map (·.unplaced)
  enums := ds.enums.map (·.unplaced)
  handles := ds.handles.map (·.unplaced)

end Bindery
