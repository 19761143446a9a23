import Mathlib
import Bindery.Header.Spelling
import Bindery.Proofs.Lowering.Forms

/-!
# Slots of lowered types

The recipe of a lowered parameter determines the roles of its slots. A type that lowers has a form
in the host, since only values cross the boundary and only values are spelled.
-/
namespace Bindery

/-! ### Spelling what lowers -/

namespace Spelling
variable {t : Ty} {mutable : Bool} {mark : String}

theorem value_array {length : Nat} (h : ∃ s, value t = .ok s) :
    ∃ s, value (.array t length) = .ok s := by
  obtain ⟨s, hs⟩ := h
  exact ⟨_, Tokens.bind_eq_ok.2 ⟨s, hs, rfl⟩⟩

end Spelling

namespace Registry
variable {reg : Registry} {t : Ty} {v : ValueForm} {l : Lowered}
open Spelling

theorem ByValue.spelled (h : reg.ByValue t v) : ∃ s, Spelling.value t = .ok s := by
  cases h <;> exact ⟨_, rfl⟩

end Registry
end Bindery
