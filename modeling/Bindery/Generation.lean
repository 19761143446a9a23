import Bindery.Emission
import Bindery.World.Basic

/-!
# Generation

The products of a host are written once all its declarations are emitted. What the emission noted
reaches the log in any case.
-/
namespace Bindery

namespace Act

/-- Runs an emission for a host: its result, and the host as the emission left it. -/
def emit {α : Type} (h : Host) (e : Emit α) : Act (Except Failure α × Host) := do
  let (result, emission) := (ExceptT.run e).run ⟨h, []⟩
  emission.notes.forM note
  return (result, emission.host)

end Act

namespace Product

/-- Writes the files of a product and reports the first of them. -/
def write (p : Product) (h : Host) (outDir : Path) : Act Unit := do
  let hostPath := ((← get).absolute h.path).normal
  (p.files h hostPath).forM fun (name, content) =>
    Act.write (outDir / name) content (p.fileFault (outDir / name))
  (p.files h hostPath).head?.forM fun (name, _) =>
    Act.info ("Generated " ++ (outDir / name).text)

end Product

namespace Signature

/-- The functions that a declared one stands for: itself, or its instances. -/
def concrete (f : Signature) : Except Failure (List Signature) :=
  if f.isGeneric then f.instantiateAll.mapError .instances else .ok [f]

/-- As `concrete`, but a generic function of a host has to have instances. -/
def bound (host : Path) (f : Signature) : Except Failure (List Signature) :=
  if f.isGeneric ∧ f.instances = [] then .error (.instances (.noInstances f.name host.text))
  else f.concrete

end Signature
end Bindery
