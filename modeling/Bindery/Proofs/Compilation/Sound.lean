import Bindery.Proofs.Compilation.Apart
import Bindery.Proofs.Staging.Afresh

/-!
# Sound worlds

A file system holds its current directory, and its clock tells times that the cache can hold. Where a
compilation starts from such a world and comes to stage something, its output directory is ready from
the moment it is made.
-/
namespace Bindery
open Act FileTree
open Bindery.Path (IsName)

namespace World
variable {w v u : World} {out p : Path}

/-- A world with a well-formed tree that holds the current directory, and a clock that the cache can
tell. -/
structure IsSound (w : World) : Prop where
  wellFormed : w.tree.WellFormed
  isDirectory : w.tree.isDirectory w.cwd = true
  isTime : CacheEntry.isTime w.clock = true

theorem IsSound.isProper (h : w.IsSound) : w.cwd.IsProper :=
  h.wellFormed.isNamed.isProper (isDirectory_iff.1 h.isDirectory)

/-- A run that keeps a world sound. -/
def StaysSound (w v : World) : Prop := w.IsSound → v.IsSound ∧ v.cwd = w.cwd

theorem StaysSound.isFrame : IsFrame StaysSound where
  refl _ h := ⟨h, rfl⟩
  trans h h' hu := by
    obtain ⟨hv, hcwd⟩ := h hu
    obtain ⟨hw, hcwd'⟩ := h' hv
    exact ⟨hw, hcwd'.trans hcwd⟩
  log _ _ h := ⟨⟨h.wellFormed, h.isDirectory, h.isTime⟩, rfl⟩

theorem StaysSound.put (p : Path) (content : String) (failure : Failure) :
    (Act.put p content failure).Preserves StaysSound := by
  intro w
  rcases put_cases w p content failure with h | ⟨-, hdir, hparent, h⟩
  · rw [h]
    exact isFrame.refl w
  rw [h]
  intro hw
  have hne : p.place w.cwd ≠ [] := by
    intro hnil
    rw [hnil] at hdir
    cases hdir
  refine ⟨⟨?_, ?_, hw.isTime⟩, rfl⟩
  · exact hw.wellFormed.put hne (isProper_place hw.isProper p) hparent hdir
  · exact (isDirectory_put hdir content w.cwd).trans hw.isDirectory

/-- A directory that has been made is there all the way. -/
theorem isSound_of_create (hw : w.IsSound)
    (hcreate : (createDirectories out).runOn w = (.ok ⟨⟩, u)) :
    u.IsSound ∧ u.cwd = w.cwd ∧ ∀ q ∈ out.waypoints w.cwd, u.tree.isDirectory q = true := by
  have hsteps := areSteps_terminated out
  have hstart : w.tree.isDirectory (out.terminated.start w.cwd) = true := by
    rw [Path.start]
    split_ifs
    · rfl
    · exact hw.isDirectory
  obtain ⟨hformed, hall⟩ :=
    hw.wellFormed.makeDirectories (isProper_start hw.isProper _) hstart hsteps
  have hcwd := @isDirectory_makeDirectories w.tree w.cwd (out.terminated.start w.cwd)
    out.terminated.names hsteps.ne_empty hw.isDirectory
  have hmade : withDirectories w out =
      w.tree.makeDirectories (out.terminated.start w.cwd) out.terminated.names := rfl
  rcases createDirectories_cases w out with herror | hdone
  · cases herror.symm.trans hcreate
  rw [hdone, hmade] at hcreate
  generalize w.tree.makeDirectories (out.terminated.start w.cwd) out.terminated.names = made
    at hformed hall hcwd hcreate
  obtain ⟨tree, done⟩ := made
  cases done with
  | true =>
    cases hcreate
    exact ⟨⟨hformed, hcwd, hw.isTime⟩, rfl, hall rfl⟩
  | false => cases hcreate

/-- A directory with a fit path is ready when it has been made. -/
theorem isReady_of_create (hw : w.IsSound) (hout : out.IsWhole) (hfit : IsFit out)
    (hcreate : (createDirectories out).runOn w = (.ok ⟨⟩, u)) : u.IsReady w.cwd out := by
  have hfree : ∀ q ∈ out.waypoints w.cwd, ∀ content, w.tree.get? q ≠ some (.file content) := by
    intro q hq content hfile
    have hkept := Staging.isKept_of_create hw.isProper rfl hw.wellFormed.isNamed hcreate q
    rw [hfile] at hkept
    cases hkept.of_some.symm.trans (isDirectory_iff.1 ((isSound_of_create hw hcreate).2.2 q hq))
  obtain ⟨v, hv, hready⟩ :=
    hfit.createDirectories hw.isProper hout rfl hw.wellFormed hw.isDirectory hfree
  cases hcreate.symm.trans hv
  exact hready

end World

namespace Staging
variable {out : Path} {s : Sources} {mode : Mode} {st : Staged} {v w : World}

/-- A directory in which something is staged has a fit path. -/
theorem isFit_of_assemble (hw : w.IsSound) (hout : out.IsWhole)
    (h : (assemble s mode out).runOn w = (.ok st, v)) : World.IsFit out := by
  rw [assemble_eq] at h
  obtain ⟨_, u, hcreate, hrest⟩ := bind_ok.1 h
  obtain ⟨_, u', hclean, -⟩ := bind_ok.1 hrest
  obtain ⟨entries, u'', hlist, -⟩ := bind_ok.1 (clean_eq out ▸ hclean)
  exact (World.isReady_of_list hw.isProper rfl hw.wellFormed hw.isDirectory hcreate hlist).isFit
    hout

end Staging

namespace Compilation
variable {c : Compilation} {s : Sources} {u v w : World} {stems : List (Path × String)}
  {target : String}

theorem generatesAll_staysSound {ss : List Interface}
    (hproducts : c.products = Product.headed {} ss) {hosts : List Host}
    (h : c.GeneratesAll s stems w hosts v) : World.StaysSound w v := by
  refine (Preserves.mapM World.StaysSound.isFrame fun x _ => ?_).of_ok h
  refine generate_preserves hproducts World.StaysSound.isFrame (fun w _ hw => ?_) fun p _ => ?_
  · exact ⟨⟨hw.wellFormed, hw.isDirectory, hw.isTime⟩, rfl⟩
  · exact World.StaysSound.put p

theorem isSound_of_opens (hw : w.IsSound) (h : c.Opens w target s stems u) :
    u.IsSound ∧ u.cwd = w.cwd := by
  obtain ⟨-, hcreate, hscan, -⟩ := h
  have hw' : ({ w with provided := [] } : World).IsSound :=
    ⟨hw.wellFormed, hw.isDirectory, hw.isTime⟩
  obtain ⟨hmade, hcwd, -⟩ := World.isSound_of_create hw' hcreate
  obtain ⟨log, rfl⟩ := (Sources.scan_ok hscan).2
  exact ⟨⟨hmade.wellFormed, hmade.isDirectory, hmade.isTime⟩, hcwd⟩

/-- The output directory of a compilation with foreign code is ready when the sources are scanned. -/
theorem isReady_of_opens (hout : c.outDir.IsWhole) (hw : w.IsSound)
    (hopens : c.Opens w target s stems u) (hv : v.IsSound) {mode : Mode} {st : Staged} {v' : World}
    (hstage : (Staging.assemble s mode c.outDir).runOn v = (.ok st, v')) :
    u.IsReady w.cwd c.outDir := by
  obtain ⟨-, hcreate, hscan, -⟩ := hopens
  obtain ⟨log, rfl⟩ := (Sources.scan_ok hscan).2
  have hw' : ({ w with provided := [] } : World).IsSound :=
    ⟨hw.wellFormed, hw.isDirectory, hw.isTime⟩
  have hready := World.isReady_of_create hw' hout (Staging.isFit_of_assemble hv hout hstage) hcreate
  exact ⟨hready.cwd_eq, hready.wellFormed, hready.isDirectory⟩

end Compilation
end Bindery
