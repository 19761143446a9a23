import Bindery.Proofs.Emission.Gain
import Bindery.Proofs.Lowering.Slots

/-!
# Calls of foreign functions

Whatever a wrapper passes to a foreign function stands for one slot of one of its parameters, and
the slots come in the order in which the function declares them. So a call has the arity of the
function, and an argument the place of its slot.
-/
namespace Bindery

/-- A call of a foreign function that a wrapper makes. -/
structure ForeignCall where
  symbol : String
  args : List String
  deriving DecidableEq

/-- The text of a call. -/
def ForeignCall.text (c : ForeignCall) : String :=
  "ffi::" ++ c.symbol ++ "(" ++ Text.join ", " c.args ++ ")"

def Body.foreignCall (b : Body) : ForeignCall := ⟨b.symbol, b.call.args⟩

def LowWrapper.foreignCall (w : LowWrapper) : ForeignCall :=
  ⟨w.symbol, w.foreign.params.map (·.name)⟩

def HandleConstructor.foreignCall (c : HandleConstructor) : ForeignCall := ⟨c.symbol, c.call.args⟩

/-- The calls in the text of a wrapper. That of an asynchronous one is in its blocking body. -/
def Wrapper.calls : Wrapper → List ForeignCall
  | high w => [w.body.foreignCall]
  | async w => [w.body.foreignCall]
  | low w => [w.foreignCall]
  | handle c => c.constructors.map (·.foreignCall) ++ c.methods.map (·.body.foreignCall)

/-! ### Texts of calls -/

/-- A text with a given part. -/
def Text.Contains (part text : String) : Prop := ∃ before after, text = before ++ part ++ after

namespace Text
variable {s t part : String}

theorem Contains.append_left (h : Contains part t) : Contains part (s ++ t) := by
  obtain ⟨before, after, rfl⟩ := h
  exact ⟨s ++ before, after, by simp only [String.append_assoc]⟩

end Text

section
open Text

end

/-- A slot of a declared parameter. -/
structure ParamSlot where
  param : String
  slot : Slot
  deriving DecidableEq

def ParamSlot.foreign (p : ParamSlot) : ForeignParam := ⟨p.param ++ p.slot.role.suffix, p.slot⟩

/-- The places of some parameters, in the order of the parameters and of the slots of each. -/
def LoweredParam.places (lps : List LoweredParam) : List ParamSlot :=
  lps.flatMap fun lp => lp.lowered.slots.map (⟨lp.param.name, ·⟩)

/-- What an argument has to be in order to stand for a slot: the parameter or the part of it that
the slot is for, cast if the slot is a scalar, or the address of the whole parameter. -/
inductive ParamSlot.Takes (p : ParamSlot) : String → Prop
  | part : p.Takes p.foreign.name
  | cast (s : Scalar) (h : p.slot.shape = .scalar s) :
      p.Takes (Call.cast (Spelling.slot p.slot) p.foreign.name)
  | data (target : Pointee) (mutable nullable : Bool)
      (h : p.slot = ⟨.pointer target mutable nullable, .whole⟩) : p.Takes (p.param ++ ".data()")
  | address (target : Pointee) (mutable nullable : Bool)
      (h : p.slot = ⟨.pointer target mutable nullable, .whole⟩) : p.Takes ("&" ++ p.param)

/-- A call that passes what a foreign function declares: some leading arguments, then one for each
slot of the parameters. -/
structure ForeignCall.Fits (c : ForeignCall) (f : ForeignFunction)
    (leading : List (ForeignParam × String)) (lps : List LoweredParam) : Prop where
  symbol : c.symbol = f.symbol
  count : c.args.length = f.params.length
  params : f.params = leading.map (·.1) ++ (LoweredParam.places lps).map (·.foreign)
  args : ∃ rest, c.args = leading.map (·.2) ++ rest ∧
    List.Forall₂ ParamSlot.Takes (LoweredParam.places lps) rest

/-! ### Arguments -/

section
variable {reg : Registry} {lp : LoweredParam} {lps : List LoweredParam} {f : ForeignFunction}

end

/-! ### Wrappers -/

namespace Registry
variable {reg : Registry} {function : String} {ps : List Param} {lps : List LoweredParam}

end Registry

section
variable {reg : Registry} {f : Signature} {lps : List LoweredParam} {ret : Lowered}
  {ws : List Wrapper} {result : Slot}

/-- A wrapper all of whose calls are calls of one function, with the parameter list of the function
if the wrapper is a low-level one. -/
structure Wrapper.FitsFunction (w : Wrapper) (g : ForeignFunction) (lps : List LoweredParam) :
    Prop where
  calls : ∀ c ∈ w.calls, c.Fits g [] lps
  paramList : ∀ v, w = .low v → v.foreign.paramList = g.paramList

end

/-- What a function leaves in a header: one foreign function, whose parameters are the places of
the lowered ones, and wrappers that call it. -/
def Signature.Fits (reg : Registry) (f : Signature) (x y : Header) : Prop :=
  ∃ lps g ws, reg.lowerParamsOf f.name f.params = .ok lps ∧ g.symbol = f.name ∧
    y = { x with imports := x.imports ++ [g], wrappers := x.wrappers ++ ws } ∧
    ∀ w ∈ ws, w.FitsFunction g lps

/-- What a handle leaves in a header: a foreign function for each constructor, the destructor and
each method, and one class, whose constructors and methods call the functions that are theirs. A
method passes its object first. -/
def Handle.Fits (reg : Registry) (d : Handle) (x y : Header) : Prop :=
  ∃ (cs ms : List (ForeignFunction × List LoweredParam)) (w : HandleClass),
    y = { x with
      imports := x.imports ++ (cs.map (·.1) ++ [.destructor (d.destructor.getD "")] ++ ms.map (·.1))
      wrappers := x.wrappers ++ [.handle w] } ∧
    List.Forall₂ (fun c p => reg.lowerParamsOf (d.name ++ "::" ++ c.name) c.params = .ok p.2)
      d.constructors cs ∧
    List.Forall₂ (fun m p => reg.lowerParamsOf (d.name ++ "::" ++ m.name) m.params = .ok p.2)
      d.methods ms ∧
    List.Forall₂ (fun p c => c.foreignCall.Fits p.1 [] p.2) cs w.constructors ∧
    List.Forall₂ (fun p m => m.body.foreignCall.Fits p.1 [(.self, "handle_.get()")] p.2) ms w.methods

namespace Header
variable {reg : Registry} {x y : Header} {e e' : Emission} {f : Signature} {d : Handle}

end Header
end Bindery
