import Bindery.Compilation
import Bindery.Proofs.World.Frame

/-!
# Actions that only write

Scanning, staging and writing change files and the log. All else that a world holds stays: where it
is, its clock, what is provided, the directives and the compiler runs.
-/
namespace Bindery

/-- A change of the log. -/
def World.OnlyLogs (w v : World) : Prop := ∃ log, v = { w with log }

/-- A change of the files and the log. -/
def World.OnlyWrites (w v : World) : Prop := ∃ tree log, v = { w with tree, log }

/-! ### Nothing looks at the log -/

namespace World
variable {w : World} {log : String}

theorem exists?_log (p : Path) : ({ w with log } : World).exists? p = w.exists? p := rfl

theorem existingPart_log (found : Path) (cs : List String) :
    ({ w with log } : World).existingPart found cs = w.existingPart found cs := by
  induction cs generalizing found with
  | nil => rfl
  | cons c cs ih => rw [existingPart, existingPart, exists?_log, ih]

theorem partlyCanonical_log (p : Path) :
    ({ w with log } : World).partlyCanonical p = w.partlyCanonical p := by
  rw [partlyCanonical, partlyCanonical, existingPart_log]
  rfl

theorem canonical_log (p : Path) : ({ w with log } : World).canonical p = w.canonical p := by
  rw [canonical, canonical, partlyCanonical_log]
  rfl

theorem source_log (root host : Path) :
    ({ w with log } : World).source root host = w.source root host := by
  have hcanonical : ({ w with log } : World).canonical = w.canonical := funext canonical_log
  rw [source, source, Annotation.Source.mk.injEq]
  refine ⟨rfl, funext fun path => ?_⟩
  rw [included?, included?, hcanonical]
  rfl

end World

namespace World.OnlyLogs
open Act
variable {w v : World}

theorem isFrame : IsFrame OnlyLogs where
  refl w := ⟨w.log, rfl⟩
  trans := by
    rintro w _ _ ⟨l, rfl⟩ ⟨l', rfl⟩
    exact ⟨l', rfl⟩
  log w log := ⟨log, rfl⟩

theorem ofText (root host : Path) (text : String) :
    (Sources.ofText root host text).Preserves OnlyLogs := by
  refine Preserves.get_bind isFrame fun v => ?_
  dsimp only
  generalize Annotation.scan (v.source root host) ⟨.start, text.toList⟩ = r
  obtain ⟨found, failed⟩ := r
  refine Preserves.bind isFrame (Preserves.forM isFrame fun a _ => Preserves.note isFrame _) ?_
  intro _
  cases failed with
  | none => exact Preserves.pure isFrame _
  | some failure => exact Preserves.throw isFrame _

theorem ofHost (root host : Path) : (Sources.ofHost root host).Preserves OnlyLogs :=
  Preserves.bind isFrame (Preserves.read isFrame _ _) fun _ => ofText root host _

theorem emit {α : Type} (h : Host) (e : Emit α) : (Act.emit h e).Preserves OnlyLogs := by
  unfold Act.emit
  generalize (ExceptT.run e).run ⟨h, []⟩ = r
  obtain ⟨result, emission⟩ := r
  refine Preserves.bind isFrame (Preserves.forM isFrame fun n _ => Preserves.note isFrame n) ?_
  exact fun _ => Preserves.pure isFrame _

end World.OnlyLogs

namespace World.OnlyWrites
open Act
variable {w v : World} {out : Path} {s : Sources}

theorem isFrame : IsFrame OnlyWrites where
  refl w := ⟨w.tree, w.log, rfl⟩
  trans := by
    rintro w _ _ ⟨t, l, rfl⟩ ⟨t', l', rfl⟩
    exact ⟨t', l', rfl⟩
  log w log := ⟨w.tree, log, rfl⟩

theorem put (p : Path) (content : String) (failure : Failure) :
    (Act.put p content failure).Preserves OnlyWrites := by
  intro w
  obtain h | ⟨-, -, -, h⟩ := put_cases w p content failure
  · rw [h]
    exact isFrame.refl w
  · rw [h]
    exact ⟨_, w.log, rfl⟩

theorem removeAll (p : Path) : (Act.removeAll p).Preserves OnlyWrites := by
  intro w
  obtain h | ⟨-, h⟩ := removeAll_cases w p
  · rw [h]
    exact isFrame.refl w
  · rw [h]
    exact ⟨_, w.log, rfl⟩

theorem createDirectories (p : Path) : (Act.createDirectories p).Preserves OnlyWrites := by
  intro w
  obtain h | h := createDirectories_cases w p
  · rw [h]
    exact isFrame.refl w
  · rw [h]
    exact ⟨_, w.log, rfl⟩

theorem copy (p q : Path) : (Act.copy p q).Preserves OnlyWrites := by
  refine Preserves.get_bind isFrame fun v => ?_
  cases v.read? p with
  | some content => exact put _ _ _
  | none => exact Preserves.throw isFrame _

theorem bind {α β : Type} {m : Act α} {f : α → Act β} (hm : m.Preserves OnlyWrites)
    (hf : ∀ a, (f a).Preserves OnlyWrites) : (m >>= f).Preserves OnlyWrites :=
  Preserves.bind isFrame hm hf

theorem pure {α : Type} (a : α) : (Pure.pure a : Act α).Preserves OnlyWrites :=
  Preserves.pure isFrame a

theorem note (n : Note) : (Act.note n).Preserves OnlyWrites := Preserves.note isFrame n

/-! ### Staging -/

theorem stage (p : Path) (content : String) : (Staging.write p content).Preserves OnlyWrites :=
  put p content _

theorem clean : (Staging.clean out).Preserves OnlyWrites := by
  refine bind (Preserves.list isFrame _) fun entries => Preserves.forM isFrame fun x _ => ?_
  obtain ⟨p, e⟩ := x
  dsimp only
  split
  · exact removeAll p
  · exact pure _

theorem stageMerged : (Staging.stageMerged s out).Preserves OnlyWrites := by
  refine bind (Preserves.mapM isFrame fun file _ => ?_) fun _ => ?_
  · exact bind (Preserves.read isFrame _ _) fun _ => pure _
  · exact bind (stage _ _) fun _ => bind (note _) fun _ => pure _

theorem stageFragments (i : Nat) (codes : List String) :
    (Staging.stageFragments out i codes).Preserves OnlyWrites := by
  induction codes generalizing i with
  | nil => exact pure _
  | cons code codes ih => exact bind (stage _ _) fun _ => bind (ih (i + 1)) fun _ => pure _

theorem stageExternal (dir file : Path) :
    (Staging.stageExternal dir file).Preserves OnlyWrites := by
  refine bind (createDirectories _) fun _ => bind (Preserves.list isFrame _) fun _ => ?_
  exact Preserves.mapM isFrame fun _ _ => bind (copy _ _) fun _ => pure _

theorem stageExternals (i : Nat) (files : List Path) :
    (Staging.stageExternals out i files).Preserves OnlyWrites := by
  induction files generalizing i with
  | nil => exact pure _
  | cons file files ih => exact bind (stageExternal _ _) fun _ => bind (ih (i + 1)) fun _ => pure _

theorem stageModules (mode : Mode) : (Staging.stageModules s mode out).Preserves OnlyWrites := by
  refine bind (stageFragments 0 _) fun _ => bind (stageExternals 0 _) fun _ => ?_
  refine bind (stage _ _) fun _ => ?_
  have hdone : ∀ st : Staged, (do
      Act.debug ("Staged " ++ toString st.files.length ++ " files for " ++ mode.name ++ " in " ++
        out.text)
      return st : Act Staged).Preserves OnlyWrites := fun _ => bind (note _) fun _ => pure _
  cases mode with
  | merge => exact hdone _
  | modularImport => exact hdone _
  | modularBuild => exact bind (stage _ _) fun _ => hdone _

theorem assemble (mode : Mode) : (Staging.assemble s mode out).Preserves OnlyWrites := by
  refine bind (createDirectories out) fun _ => bind clean fun _ => ?_
  cases mode with
  | merge => exact stageMerged
  | modularImport => exact stageModules _
  | modularBuild => exact stageModules _

/-! ### Generating -/

theorem write (p : Product) (h : Host) (outDir : Path) :
    (p.write h outDir).Preserves OnlyWrites := by
  refine Preserves.get_bind isFrame fun v => ?_
  refine bind (Preserves.forM isFrame fun _ _ => put _ _ _) fun _ => ?_
  cases (p.files h (v.absolute h.path).normal).head? with
  | none => exact pure _
  | some file => exact note _

end World.OnlyWrites
end Bindery
