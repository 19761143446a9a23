import Bindery.Proofs.Path.Order
import Bindery.Proofs.Staging.Names
import Bindery.Proofs.World.Frame

/-!
# What staging leaves alone

Staging makes directories, removes what is staged already and puts files at staged places. Any
relation between worlds that these steps preserve is preserved by staging as a whole.
-/
namespace Bindery.Staging
open Act
open Bindery.Path (IsName)

/-- A path that staging writes a file to: a staged file, or one in a staged directory. -/
inductive IsTarget (out : Path) : Path → Prop
  | file {name : String} : isStaged name = true → IsName name → IsTarget out (out / name)
  | copy {name : String} (i : Nat) : IsName name → IsTarget out (out / externalName i / name)

/-- A relation between worlds that each step of a staging preserves. About a tree with names that
no file can have, it says nothing. -/
structure IsStagingFrame (out : Path) (R : World → World → Prop) : Prop extends IsFrame R where
  ofUnnamed : ∀ {w v : World}, ¬ w.tree.IsNamed → R w v
  create : (createDirectories out).Preserves R
  createExternal : ∀ i, (createDirectories (out / externalName i)).Preserves R
  remove : ∀ name, isStaged name = true → IsName name → (removeAll (out / name)).Preserves R
  put : ∀ p content failure, IsTarget out p → (Act.put p content failure).Preserves R

variable {out : Path} {R : World → World → Prop} {s : Sources}

/-- What is listed of a directory are names that files can have. -/
theorem preserves_list_bind {α : Type} (hR : IsStagingFrame out R) {p : Path}
    {f : List (Path × Entry) → Act α}
    (hf : ∀ entries : List (String × Entry), (∀ x ∈ entries, IsName x.1) →
      (f (entries.map fun (name, e) => (p / name, e))).Preserves R) :
    (Act.list p >>= f).Preserves R := by
  intro w
  by_cases hnamed : w.tree.IsNamed
  · cases hlist : w.list? p with
    | none =>
      have hrun : (Act.list p).runOn w = (.error .fileSystem, w) := by
        rw [runOn_list, hlist]
        rfl
      rw [runOn_bind_of_error hrun]
      exact hR.refl w
    | some entries =>
      have hrun : (Act.list p).runOn w = (.ok entries, w) := by
        rw [runOn_list, hlist]
        rfl
      rw [runOn_bind_of_ok hrun]
      rw [World.list?] at hlist
      cases hloc : w.locate p with
      | none =>
        rw [hloc] at hlist
        cases hlist
      | some place =>
        rw [hloc] at hlist
        dsimp only at hlist
        split_ifs at hlist
        cases hlist
        refine hf _ (fun x hx => ?_) w
        obtain ⟨⟨q, e⟩, hq, hxq⟩ := List.mem_filterMap.1 hx
        obtain ⟨hne, hproper⟩ := hnamed _ hq
        dsimp only at hxq
        cases hlast : q.getLast? with
        | none => exact absurd (List.getLast?_eq_none_iff.1 hlast) hne
        | some name =>
          rw [hlast] at hxq
          dsimp only at hxq
          split_ifs at hxq
          cases hxq
          exact hproper name (List.mem_of_getLast? hlast)
  · exact hR.ofUnnamed hnamed

theorem clean_preserves (hR : IsStagingFrame out R) : (clean out).Preserves R := by
  refine preserves_list_bind hR fun entries hentries => ?_
  refine Preserves.forM hR.toIsFrame fun x hx => ?_
  obtain ⟨⟨name, e⟩, hname, rfl⟩ := List.mem_map.1 hx
  have hproper := hentries _ hname
  dsimp only
  rw [Path.filename_div_name out hproper]
  split_ifs with hstaged
  · exact hR.remove name hstaged hproper
  · exact Preserves.pure hR.toIsFrame _

theorem write_preserves (hR : IsStagingFrame out R) {p : Path} (hp : IsTarget out p)
    (content : String) : (write p content).Preserves R :=
  hR.put p content _ hp

theorem isTarget_mergedName : IsTarget out (out / mergedName) :=
  .file isStaged_mergedName isName_mergedName

theorem isTarget_entryName : IsTarget out (out / entryName) :=
  .file isStaged_entryName isName_entryName

theorem isTarget_scriptName : IsTarget out (out / scriptName) :=
  .file isStaged_scriptName isName_scriptName

theorem isTarget_fragmentName (i : Nat) : IsTarget out (out / fragmentName i) :=
  .file (isStaged_fragmentName i) (isName_fragmentName i)

theorem stageMerged_preserves (hR : IsStagingFrame out R) : (stageMerged s out).Preserves R := by
  have hF := hR.toIsFrame
  refine Preserves.bind hF (Preserves.mapM hF fun file _ => ?_) fun _ => ?_
  · exact Preserves.bind hF (Preserves.read hF _ _) fun _ => Preserves.pure hF _
  refine Preserves.bind hF (write_preserves hR isTarget_mergedName _) fun _ => ?_
  exact Preserves.bind hF (Preserves.note hF _) fun _ => Preserves.pure hF _

theorem stageFragments_preserves (hR : IsStagingFrame out R) (i : Nat) (codes : List String) :
    (stageFragments out i codes).Preserves R := by
  have hF := hR.toIsFrame
  induction codes generalizing i with
  | nil => exact Preserves.pure hF _
  | cons code codes ih =>
    refine Preserves.bind hF (write_preserves hR (isTarget_fragmentName i) code) fun _ => ?_
    exact Preserves.bind hF (ih (i + 1)) fun _ => Preserves.pure hF _

theorem stageExternal_preserves (hR : IsStagingFrame out R) (i : Nat) (file : Path) :
    (stageExternal (out / externalName i) file).Preserves R := by
  have hF := hR.toIsFrame
  refine Preserves.bind hF (hR.createExternal i) fun _ => ?_
  refine preserves_list_bind hR fun entries hentries => ?_
  refine Preserves.mapM hF fun sibling hsibling => ?_
  obtain ⟨x, hx, rfl⟩ := List.mem_map.1 (Path.mem_sort.1 hsibling)
  obtain ⟨⟨name, e⟩, hname, rfl⟩ := List.mem_map.1 (List.mem_of_mem_filter hx)
  have hproper := hentries _ hname
  dsimp only
  rw [Path.filename_div_name _ hproper]
  refine Preserves.bind hF (Preserves.get_bind hF fun v => ?_) fun _ => Preserves.pure hF _
  cases v.read? (file.parent / name) with
  | none => exact Preserves.throw hF _
  | some content => exact hR.put _ content _ (.copy i hproper)

theorem stageExternals_preserves (hR : IsStagingFrame out R) (i : Nat) (files : List Path) :
    (stageExternals out i files).Preserves R := by
  have hF := hR.toIsFrame
  induction files generalizing i with
  | nil => exact Preserves.pure hF _
  | cons file files ih =>
    refine Preserves.bind hF (stageExternal_preserves hR i file) fun _ => ?_
    exact Preserves.bind hF (ih (i + 1)) fun _ => Preserves.pure hF _

theorem stageModules_preserves (hR : IsStagingFrame out R) (mode : Mode) :
    (stageModules s mode out).Preserves R := by
  have hF := hR.toIsFrame
  refine Preserves.bind hF (stageFragments_preserves hR 0 _) fun _ => ?_
  refine Preserves.bind hF (stageExternals_preserves hR 0 _) fun _ => ?_
  refine Preserves.bind hF (write_preserves hR isTarget_entryName _) fun _ => ?_
  have hdone : ∀ st : Staged, (do
      Act.debug ("Staged " ++ toString st.files.length ++ " files for " ++ mode.name ++ " in " ++
        out.text)
      return st : Act Staged).Preserves R := fun _ =>
    Preserves.bind hF (Preserves.note hF _) fun _ => Preserves.pure hF _
  cases mode with
  | merge => exact hdone _
  | modularImport => exact hdone _
  | modularBuild =>
    exact Preserves.bind hF (write_preserves hR isTarget_scriptName _) fun _ => hdone _

/-- What each step preserves, staging preserves. -/
theorem assemble_preserves (hR : IsStagingFrame out R) (mode : Mode) :
    (assemble s mode out).Preserves R := by
  have hF := hR.toIsFrame
  refine Preserves.bind hF hR.create fun _ => ?_
  refine Preserves.bind hF (clean_preserves hR) fun _ => ?_
  cases mode with
  | merge => exact stageMerged_preserves hR
  | modularImport => exact stageModules_preserves hR _
  | modularBuild => exact stageModules_preserves hR _

/-! ### The places that are kept -/

theorem IsTarget.isStagedPlace {cwd : Place} {p : Path} (hout : out.IsWhole) (hp : IsTarget out p) :
    IsStagedPlace (out.place cwd) (p.place cwd) := by
  cases hp with
  | file hstaged hname =>
    rw [Path.place_div hout hname]
    exact isStagedPlace_append hstaged []
  | @copy name i hname =>
    rw [Path.place_div (hout.div (isName_externalName i)) hname,
      Path.place_div hout (isName_externalName i), List.append_assoc, List.singleton_append]
    exact isStagedPlace_append (isStaged_externalName i) [name]

/-- Staging writes at staged places only, and makes directories on the way to its own. -/
theorem keeps_isStagingFrame {cwd : Place} (hout : out.IsWhole) (hcwd : cwd.IsProper) :
    IsStagingFrame out (World.Keeps cwd (· ∈ out.waypoints cwd)
      fun q => ¬ IsStagedPlace (out.place cwd) q) where
  toIsFrame := World.Keeps.isFrame
  ofUnnamed h _ hnamed := absurd hnamed h
  create := World.Keeps.createDirectories hcwd fun _ hq _ => hq
  createExternal i := by
    refine World.Keeps.createDirectories hcwd fun q hq hkept => ?_
    rcases (Path.mem_waypoints_div hout (isName_externalName i)).1 hq with hq | hq
    · exact hq
    · obtain rfl := hq.symm
      exact absurd (isStagedPlace_append (isStaged_externalName i) []) hkept
  remove name hstaged hname := by
    refine World.Keeps.removeAll fun q hkept hq => ?_
    rw [Path.place_div hout hname] at hq
    exact hkept ⟨name, hstaged, hq⟩
  put p content failure hp := by
    exact World.Keeps.put hcwd (fun hkept => hkept (hp.isStagedPlace hout)) content failure

theorem assemble_keeps {cwd : Place} (hout : out.IsWhole) (hcwd : cwd.IsProper) (mode : Mode) :
    (assemble s mode out).Preserves (World.Keeps cwd (· ∈ out.waypoints cwd)
      fun q => ¬ IsStagedPlace (out.place cwd) q) :=
  assemble_preserves (keeps_isStagingFrame hout hcwd) mode

end Bindery.Staging
