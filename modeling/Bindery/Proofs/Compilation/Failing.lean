import Bindery.Proofs.Compilation.Scan

/-!
# How compilations fail

A compilation fails in one of its stages, and what it has done until then stays done. The relation
`FailsIn` tells for each stage which steps were taken before it and which one fails.
-/
namespace Bindery
open Act

namespace Act
variable {α β : Type} {f : α → Act β} {w v : World} {e : Failure}

end Act

namespace Compilation

/-- The emission of a host's declarations, before any of its files is written. -/
def emission (c : Compilation) (s : Sources) (path : Path) (stem : String) :
    Act (Host × List Product) := do
  let annotations := s.declaringIn path
  let blocks := annotations.map (·.decls)
  let modulePath ← Act.ofExcept (Sources.modulePath path none annotations)
  let host := ((Host.new path stem).setModule modulePath).declare blocks
  let (result, host) ← Act.emit host (Emit.blocks (Signature.bound path) blocks c.products)
  let products ← Act.ofExcept result
  return (host, products)

variable {c : Compilation} {s : Sources} {w v : World} {e : Failure}

theorem generate_eq (path : Path) (stem : String) : c.generate s path stem = (do
    let emitted ← c.emission s path stem
    emitted.2.forM fun p => p.write emitted.1 c.outDir
    modify fun w => { w with provided := w.provided ++ emitted.1.provided }
    return emitted.1) := by
  rw [generate, emission]
  simp only [bind_assoc, pure_bind]

variable (c)

/-- A compilation has come to the hosts: the target is known, the output directory is made and the
sources are scanned to hosts that have stems. -/
inductive Opens (w : World) (target : String) (s : Sources) (stems : List (Path × String))
    (v : World) : Prop
  | intro {u : World} (htarget : Target.ofTriple c.triple = .ok target)
      (hcreate : (createDirectories c.outDir).runOn { w with provided := [] } = (.ok ⟨⟩, u))
      (hscan : (Sources.scan c.root c.outDir).runOn u = (.ok s, v))
      (hstems : Host.stems s.hosts c.root = .ok stems)

/-- The generation of some hosts in turn. -/
def GeneratesAll (s : Sources) (stems : List (Path × String)) (w : World) (hosts : List Host)
    (v : World) : Prop :=
  (stems.mapM fun (path, stem) => c.generate s path stem).runOn w = (.ok hosts, v)

variable {c}

end Compilation
end Bindery
