import Bindery.Foreign
import Bindery.Header.Spelling

/-!
# Calls of foreign functions

A wrapper turns its parameters into arguments, one for each slot in the order of the slots, and the
foreign result into its own. Statements that split a value into its slots precede the call.
-/
namespace Bindery

structure Call where
  prelude : List String := []
  args : List String := []
  deriving DecidableEq

namespace Call

def append (a b : Call) : Call := ⟨a.prelude ++ b.prelude, a.args ++ b.args⟩

/-- Splits a view into its pointer and its length. -/
def pair (p function : String) : Call :=
  ⟨["auto const [" ++ p ++ "_ptr, " ++ p ++ "_len] = ::zigbind::abi::" ++ function ++ "(" ++ p ++
      ");"],
    [p ++ "_ptr", p ++ "_len"]⟩

def cast (type expr : String) : String := "static_cast<" ++ type ++ ">(" ++ expr ++ ")"

/-- Splits an optional value into its presence and its value. An enumeration is passed by its
integer. -/
def presence (reg : Registry) (p : String) (element : Ty) (slots : List Slot) : Call :=
  let value := p ++ "_value"
  let passed :=
    match element, slots.getLast? with
    | .record name, some s =>
      if (reg.enum? name).isSome then cast (Spelling.slot s) value else value
    | _, _ => value
  ⟨["auto const [" ++ p ++ "_present, " ++ p ++ "_value] = ::zigbind::abi::encode_optional(" ++ p ++
      ");"],
    [p ++ "_present", passed]⟩

/-- What a wrapper passes for one of its parameters. -/
def ofParam (reg : Registry) (lp : LoweredParam) : Call :=
  let p := lp.param.name
  match lp.lowered.recipe with
  | .direct | .optionalRef => ⟨[], [p]⟩
  | .enumCast => ⟨[], [cast (Spelling.slot lp.lowered.slot) p]⟩
  | .slice => pair p "encode_slice"
  | .text => pair p "encode_text"
  | .array => ⟨[], [p ++ ".data()"]⟩
  | .ref => ⟨[], ["&" ++ p]⟩
  | .optionalSlice =>
    pair p (if lp.lowered.element = .text false then "encode_optional_text"
      else "encode_optional_slice")
  | .optionalValue => presence reg p lp.lowered.element lp.lowered.slots

def ofParams (reg : Registry) (lps : List LoweredParam) : Call :=
  (lps.map (ofParam reg)).foldl append {}

end Call

/-- What becomes of the result of a foreign call. -/
inductive Finish
  | drop | plain | deref
  | cast (type : String)
  deriving DecidableEq

def Finish.ofReturn (ret : Lowered) : Finish :=
  if ret.slot.isVoid then .drop
  else
    match ret.recipe, ret.source with
    | .enumCast, .record name => .cast name
    | .ref, _ => .deref
    | _, _ => .plain

/-- The body of a wrapper: a foreign call between its prelude and its finish. -/
structure Body where
  symbol : String
  call : Call
  finish : Finish
  deriving DecidableEq

namespace Body

def expr (b : Body) : String := "ffi::" ++ b.symbol ++ "(" ++ Text.join ", " b.call.args ++ ")"

def lastLine (b : Body) : String :=
  match b.finish with
  | .drop => b.expr ++ ";"
  | .plain => "return " ++ b.expr ++ ";"
  | .deref => "return *" ++ b.expr ++ ";"
  | .cast type => "return " ++ Call.cast type b.expr ++ ";"

def render (b : Body) (indent : String) : String :=
  String.join ((b.call.prelude ++ [b.lastLine]).map fun line => indent ++ line ++ "\n")

/-- The body that passes the parameters on. -/
def new (reg : Registry) (symbol : String) (lps : List LoweredParam) (ret : Lowered) : Body :=
  ⟨symbol, Call.ofParams reg lps, .ofReturn ret⟩

end Body
end Bindery
