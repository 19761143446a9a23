import Bindery.Header.Call
import Bindery.Lowering.Transform

/-!
# Wrappers of functions

A high-level wrapper has the host's types. An asynchronous one runs the call on a worker, on copies
of whatever its parameters only borrow. A low-level one is exported with the foreign parameters and
may convert the result.
-/
namespace Bindery

structure HighWrapper where
  name : String
  result : String
  params : String
  body : Body
  deriving DecidableEq

/-- How an asynchronous wrapper keeps a parameter until the call. -/
inductive Hold
  | copy
  | vector (elem : String)
  | text
  | optionalValue (type : String)
  | optionalVector (elem : String)
  | optionalText
  deriving DecidableEq

structure Capture where
  param : String
  hold : Hold
  deriving DecidableEq

namespace Capture

/-- The initializer that makes the copy. -/
def initializer (c : Capture) : String :=
  let p := c.param
  match c.hold with
  | .copy => p
  | .vector elem => p ++ " = std::vector<" ++ elem ++ ">(" ++ p ++ ".begin(), " ++ p ++ ".end())"
  | .text => p ++ " = std::string(" ++ p ++ ")"
  | .optionalValue type =>
    p ++ " = " ++ p ++ " ? std::optional<" ++ type ++ ">(*" ++ p ++ ") : std::nullopt"
  | .optionalVector elem =>
    p ++ " = " ++ p ++ " ? std::optional<std::vector<" ++ elem ++ ">>(std::in_place, " ++ p ++
      "->begin(), " ++ p ++ "->end()) : std::nullopt"
  | .optionalText =>
    p ++ " = " ++ p ++ " ? std::optional<std::string>(*" ++ p ++ ") : std::nullopt"

/-- The view of the copy that is passed on. -/
def view (c : Capture) : String :=
  let p := c.param
  match c.hold with
  | .copy => p
  | .vector elem => "std::span<const " ++ elem ++ ">(" ++ p ++ ")"
  | .text => "std::string_view(" ++ p ++ ")"
  | .optionalValue _ => p ++ " ? &*" ++ p ++ " : nullptr"
  | .optionalVector elem =>
    p ++ " ? std::optional<std::span<const " ++ elem ++ ">>(*" ++ p ++ ") : std::nullopt"
  | .optionalText => p ++ " ? std::optional<std::string_view>(*" ++ p ++ ") : std::nullopt"

end Capture

/-- How a parameter is held; values, arrays and references are simply copied. -/
def Hold.of (l : Lowered) : Except LoweringFault Hold :=
  match l.recipe with
  | .slice => .vector <$> Spelling.value l.element
  | .text => .ok .text
  | .optionalRef => .optionalValue <$> Spelling.value l.element
  | .optionalSlice =>
    match l.element with
    | .slice _ elem => .optionalVector <$> Spelling.value elem
    | _ => .ok .optionalText
  | _ => .ok .copy

structure AsyncWrapper where
  name : String
  symbol : String
  result : String
  params : String
  body : Body
  captures : List Capture
  deriving DecidableEq

inductive Conversion
  | plain | cast
  | transform (t : Transform)
  deriving DecidableEq

structure LowWrapper where
  foreign : ForeignFunction
  symbol : String
  result : String
  conversion : Conversion
  deriving DecidableEq

section
variable (reg : Registry) (f : Signature) (lps : List LoweredParam) (ret : Lowered)

def HighWrapper.new : Except LoweringFault HighWrapper := do
  let result ← Spelling.result f.ret
  let params ← Spelling.params f.params
  .ok ⟨f.highName, result, params, .new reg f.name lps ret⟩

/-- Captures a parameter, unless the call could write through it. -/
def Capture.new (lp : LoweredParam) : Except LoweringFault Capture :=
  if lp.lowered.slots.any (·.isMutablePointer) then
    .error (.asyncMutableBorrow f.name lp.param.name lp.param.type)
  else do
    let hold ← Hold.of lp.lowered
    .ok ⟨lp.param.name, hold⟩

def AsyncWrapper.new : Except LoweringFault AsyncWrapper :=
  if ret.recipe = .ref ∨ ret.recipe = .optionalRef then .error (.asyncReference f.name f.ret)
  else do
    let captures ← lps.mapM (Capture.new f)
    let result ← Spelling.result f.ret
    let params ← Spelling.params f.params
    .ok ⟨f.highName, f.name, result, params, .new reg f.name lps ret, captures⟩

/-- The slot that a low-level wrapper declares to return, if its binding names a type. -/
def Binding.lowSlot (b : Binding) : Except LoweringFault (Option Slot) :=
  match b.lowReturn with
  | none => .ok none
  | some t => do
    let l ← reg.lowerReturnOf f.lowName t
    if l.slot.isVoid then .error (.badLowReturn f.name t) else .ok (some l.slot)

def LowWrapper.new (b : Binding) : Except LoweringFault LowWrapper := do
  let slot ← b.lowSlot reg f
  let transform ← b.transform.mapM Transform.parse
  let conversion :=
    match transform, slot with
    | some t, _ => .transform t
    | none, some _ => .cast
    | none, none => .plain
  let result := slot.getD ret.slot
  .ok ⟨.new f.lowName lps result, f.name, Spelling.slot result, conversion⟩

/-- What the strategy of a binding leaves out or cannot do, apart from the types. -/
def Signature.checkBinding : Except LoweringFault Unit :=
  match f.binding with
  | none => .ok ()
  | some b =>
    if !f.hasLow then .ok ()
    else if b.lowPrefix = "" then .error (.emptyLowPrefix f.name)
    else if f.hasHigh ∧ b.lowPrefix = b.highPrefix then
      .error (.equalPrefixes f.name b.lowPrefix)
    else do
      let _ ← b.transform.mapM Transform.parse
      if (b.lowReturn.isSome ∨ b.transform.isSome) ∧ f.ret.isVoid then
        .error (.transformOnVoid f.name)
      else .ok ()

end
end Bindery
