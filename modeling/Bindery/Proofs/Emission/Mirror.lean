import Bindery.Generation
import Bindery.Proofs.Emission.Blocks

/-!
# The script interface of a header

A script interface exports what the header beside it imports and what its low-level wrappers
define, under the same names and with the same parameters. Only a record that is returned is passed
otherwise, by a parameter for its place.
-/
namespace Bindery

namespace Interface
variable {s s' : Interface} {x y : Header} {gs : List Gain}

/-- The exports of some gains, with the imports of all of them first. -/
theorem perm_exports (gs : List Gain) : (gs.flatMap (·.exports)).Perm
    (gs.flatMap (·.imports) ++ (gs.flatMap (·.wrappers)).flatMap (·.foreign)) := by
  induction gs with
  | nil => exact .nil
  | cons g gs ih =>
    simp only [List.flatMap_cons, List.flatMap_append, Gain.exports, List.append_assoc]
    refine (List.Perm.append_left _ ((ih.append_left _).trans ?_))
    exact List.perm_append_comm_assoc _ _ _

end Interface

namespace Emit
variable {m : List Product → Emit (List Product)} {R : Registry → List Gain → Prop}

end Emit
end Bindery
