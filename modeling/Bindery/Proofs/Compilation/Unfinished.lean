import Bindery.Proofs.Build.History
import Bindery.Proofs.Compilation.Apart
import Bindery.Proofs.Compilation.Inventory

/-!
# What compilations that fail leave alone

A compilation checks before it writes, stage by stage. What a stage would write is left alone when
the compilation fails before, and the records of earlier compilations, the cache and the link file,
are not touched unless a library is made.
-/
namespace Bindery
open Act Text
open Bindery.Path (IsName)

/-- A compiler that leaves the entries of some places alone. -/
def Compiler.Spares (c : Compiler) (places : Place → Prop) : Prop :=
  ∀ call w q, places q → ((c.run call).run w).2.tree.get? q = w.tree.get? q

namespace Sources
variable {R : World → World → Prop} (hR : IsFrame R)
include hR

end Sources

namespace Compilation
variable (c : Compilation)

/-- What earlier compilations have recorded: the cache and the link file. -/
def records : List Path := [Cache.file c.outDir, c.outDir / Linkage.fileName]

/-- The files of a host that is given a stem. -/
def filesOf (x : Path × String) : List Path := (Host.new x.1 x.2).filesIn c.outDir

variable {c} {s : Sources} {w u v : World} {e : Failure} {cwd : Place} {xs ys : List (Path × String)}

/-! ### Where the records lie -/

section
variable {kept : Place → Prop} (hproper : cwd.IsProper)
include hproper

theorem put_keeps {x : Path × String} (hx : x ∈ xs) {p : Path} (hp : p ∈ c.filesOf x)
    (content : String) (failure : Failure) :
    (put p content failure).Preserves (World.Keeps cwd (· ∈ c.outDir.waypoints cwd)
      fun q => ∀ x ∈ xs, ∀ p ∈ c.filesOf x, p.place cwd ≠ q) :=
  World.Keeps.put hproper (fun hkept => hkept x hx p hp rfl) content failure

theorem generatesAll_keeps {ss : List Interface} (hproducts : c.products = Product.headed {} ss)
    {hosts : List Host} (hxs : ∀ x ∈ xs, x ∈ ys) (h : c.GeneratesAll s xs w hosts v) :
    World.Keeps cwd (· ∈ c.outDir.waypoints cwd)
      (fun q => ∀ x ∈ ys, ∀ p ∈ c.filesOf x, p.place cwd ≠ q) w v := by
  refine (Preserves.mapM World.Keeps.isFrame fun x hx => ?_).of_ok h
  refine generate_preserves hproducts World.Keeps.isFrame ?_ fun p hp => ?_
  · exact fun w _ => World.Keeps.isFrame.refl w
  · exact put_keeps hproper (hxs x hx) hp

end

end Compilation
end Bindery
