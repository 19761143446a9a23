/-!
# Ownership of foreign resources

A handle is empty or owns a foreign resource, which it releases when it is destroyed or given
another one. A resource moves between handles, and may be handed out to an owner of another kind.
-/
namespace Bindery

/-- The handles that stand in named slots, and what they have released so far, in order. -/
structure Handles (α : Type) where
  slots : List (String × Option α) := []
  released : List α := []

inductive HandleStep (α : Type)
  | construct (slot : String) (resource : Option α)
  | moveConstruct (slot source : String)
  | moveAssign (slot source : String)
  | release (slot : String)
  | reset (slot : String) (resource : Option α)
  | destroy (slot : String)

namespace Handles
variable {α : Type} (h : Handles α)

/-- Puts a handle into a slot, whatever stood there. -/
def putSlot (slot : String) (content : Option α) :
    List (String × Option α) → List (String × Option α)
  | [] => [(slot, content)]
  | s :: rest => if s.1 = slot then (slot, content) :: rest else s :: putSlot slot content rest

/-- The handle in a slot, if one stands there. -/
def get? (slot : String) : Option (Option α) := h.slots.lookup slot

/-- What the handle in a slot owns. -/
def owned (slot : String) : Option α := (h.get? slot).join

def put (slot : String) (content : Option α) : Handles α :=
  { h with slots := putSlot slot content h.slots }

/-- Releases a resource, if there is one. -/
def free (resource : Option α) : Handles α := { h with released := h.released ++ resource.toList }

/-- Empties a slot. Its handle releases what it owns. -/
def destroy (slot : String) : Handles α :=
  { h.free (h.owned slot) with slots := h.slots.filter (·.1 ≠ slot) }

def construct (slot : String) (resource : Option α) : Handles α :=
  (h.destroy slot).put slot resource

/-- Gives the handle in a slot another resource or none; it releases the one before. -/
def reset (slot : String) (resource : Option α) : Handles α :=
  match h.get? slot with
  | none => h
  | some old => (h.put slot resource).free old

/-- Takes the resource from the handle in a slot, without releasing it. -/
def take (slot : String) : Option α × Handles α :=
  match h.get? slot with
  | none => (none, h)
  | some content => (content, h.put slot none)

/-- A step, with the resource that it hands out. -/
def step : HandleStep α → Option α × Handles α
  | .construct slot resource => (none, h.construct slot resource)
  | .moveConstruct slot source =>
    let (resource, h) := (h.destroy slot).take source
    (none, h.put slot resource)
  | .moveAssign slot source =>
    if slot = source then (none, h)
    else
      let (resource, h) := h.take source
      (none, h.reset slot resource)
  | .release slot => h.take slot
  | .reset slot resource => (none, h.reset slot resource)
  | .destroy slot => (none, h.destroy slot)

/-- What is reported when the foreign constructor of a handle has made nothing. -/
def allocationMessage (name : String) : String :=
  "foreign constructor of '" ++ name ++ "' returned a null handle"

/-- Refuses an empty handle after its construction. -/
def check (slot name : String) : Except String Unit :=
  if (h.owned slot).isSome then .ok () else .error (allocationMessage name)

end Handles
end Bindery
