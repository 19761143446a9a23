import Bindery.Proofs.World.Act
import Bindery.Staging.Basic

/-!
# What is staged

The mode and the output directory alone decide where the compiler begins, and the auxiliary
sources pass through staging as they are.
-/
namespace Bindery.Staging

/-- The file that the compiler is given for a mode. -/
def root (out : Path) : Mode → Path
  | .merge => out / mergedName
  | .modularImport => out / entryName
  | .modularBuild => out / scriptName

/-- What all stagings of some sources in a mode have in common. -/
structure IsStagingOf (s : Sources) (mode : Mode) (out : Path) (st : Staged) : Prop where
  mode_eq : st.mode = mode
  entry_eq : st.entry = root out mode
  auxiliary_eq : st.auxiliary = s.auxiliary

variable {s : Sources} {out : Path}

theorem stageMerged_returns : (stageMerged s out).Returns (IsStagingOf s .merge out) := by
  unfold stageMerged
  refine Act.Returns.bind fun _ => ?_
  refine Act.Returns.bind fun _ => ?_
  refine Act.Returns.bind fun _ => ?_
  exact Act.Returns.pure ⟨rfl, rfl, rfl⟩

theorem stageModules_returns {mode : Mode} (hmode : mode ≠ .merge) :
    (stageModules s mode out).Returns (IsStagingOf s mode out) := by
  unfold stageModules
  refine Act.Returns.bind fun _ => ?_
  refine Act.Returns.bind fun _ => ?_
  refine Act.Returns.bind fun _ => ?_
  cases mode with
  | merge => exact absurd rfl hmode
  | modularImport =>
    simp only [pure_bind]
    refine Act.Returns.bind fun _ => ?_
    exact Act.Returns.pure ⟨rfl, rfl, rfl⟩
  | modularBuild =>
    simp only [pure_bind]
    refine Act.Returns.bind fun _ => ?_
    refine Act.Returns.bind fun _ => ?_
    exact Act.Returns.pure ⟨rfl, rfl, rfl⟩

theorem assemble_returns (mode : Mode) :
    (assemble s mode out).Returns (IsStagingOf s mode out) := by
  unfold assemble
  refine Act.Returns.bind fun _ => ?_
  refine Act.Returns.bind fun _ => ?_
  cases mode with
  | merge => exact stageMerged_returns
  | modularImport => exact stageModules_returns (by decide)
  | modularBuild => exact stageModules_returns (by decide)

end Bindery.Staging
