import Bindery.Proofs.Staging.Cleaned
import Bindery.Proofs.Staging.Written

/-!
# Staging into alike directories

After the clean-up a staging reads the foreign files and writes at staged places. So it does the
same in worlds that have the same around the output directory and at the staged places.
-/
namespace Bindery.Staging
open Act
open Bindery.Path (IsName)

variable {cwd : Place} {out : Path} {s : Sources} {mode : Mode}

/-- The places that matter to a staging: whatever its output directory does not hold, what is staged
in it and the way there. -/
def IsSeen (cwd : Place) (out : Path) (q : Place) : Prop :=
  ¬ (out.place cwd).IsInside q ∨ IsStagedPlace (out.place cwd) q ∨ q ∈ out.waypoints cwd

/-- Worlds in which a staging finds the same. -/
abbrev AreAlike (cwd : Place) (out : Path) : World → World → Prop :=
  World.Alike cwd out (IsSeen cwd out)

/-- Worlds that a staging cannot tell apart when it is done either. -/
abbrev Repeats {α : Type} (cwd : Place) (out : Path) (m : Act α) : Prop :=
  m.Repeats (AreAlike cwd out) fun _ => True

theorem repeats_bind {α β : Type} {m : Act α} {f : α → Act β} (hm : Repeats cwd out m)
    (hf : ∀ a, Repeats cwd out (f a)) : Repeats cwd out (m >>= f) :=
  Act.Repeats.bind hm fun a _ => hf a

theorem repeats_mapM {α β : Type} {l : List α} {f : α → Act β}
    (hf : ∀ x ∈ l, Repeats cwd out (f x)) : Repeats cwd out (l.mapM f) := by
  intro w v w' bs h hrun
  obtain ⟨-, v', hrun', h'⟩ := Act.Repeats.mapM hf w v w' bs h hrun
  exact ⟨trivial, v', hrun', h'⟩

theorem repeats_note (n : Note) : Repeats cwd out (Act.note n) :=
  Act.Repeats.note World.Alike.ignoresLog n

/-- A file outside of the output directory. -/
def IsOutside (o : Place) (file : Path) : Prop :=
  ∃ q : Place, q.IsProper ∧ file = World.pathOf q ∧ ¬ o <+: q

section
variable (hproper : cwd.IsProper) (hout : out.IsWhole) (hclear : IsClear cwd out)

theorem isSeen_place (cwd : Place) (out : Path) : IsSeen cwd out (out.place cwd) :=
  .inl Place.not_isInside_self

include hout in
theorem isSeen_waypoints_div {name : String} (hname : IsName name)
    (hstaged : isStaged name = true) :
    ∀ q ∈ (out / name).waypoints cwd, IsSeen cwd out q := by
  intro q hq
  rcases (Path.mem_waypoints_div hout hname).1 hq with hq | hq
  · exact .inr (.inr hq)
  · rw [hq]
    exact .inr (.inl (isStagedPlace_append hstaged []))

include hout in
theorem IsTarget.isSeen {p : Path} (hp : IsTarget out p) :
    (∀ q ∈ p.waypoints cwd, IsSeen cwd out q) ∧ IsSeen cwd out (p.place cwd).dropLast := by
  cases hp with
  | file hstaged hname =>
    refine ⟨isSeen_waypoints_div hout hname hstaged, ?_⟩
    rw [Path.place_div hout hname, List.dropLast_concat]
    exact isSeen_place cwd out
  | @copy name i hname =>
    have hext := isName_externalName i
    have hstaged := isStaged_externalName i
    refine ⟨fun q hq => ?_, ?_⟩
    · rcases (Path.mem_waypoints_div (hout.div hext) hname).1 hq with hq | hq
      · exact isSeen_waypoints_div hout hext hstaged q hq
      · rw [hq, ← Path.place_div (hout.div hext) hname]
        exact .inr (.inl ((IsTarget.copy i hname).isStagedPlace hout))
    · rw [Path.place_div (hout.div hext) hname, List.dropLast_concat, Path.place_div hout hext]
      exact .inr (.inl (isStagedPlace_append hstaged []))

include hproper hout hclear

theorem repeats_put {p : Path} (hp : IsTarget out p) (content : String) (failure : Failure) :
    Repeats cwd out (Act.put p content failure) := by
  have hspares : (Act.put p content failure).Preserves
      (World.Spares cwd out (· ∈ out.waypoints cwd)) :=
    World.Spares.put (fun _ => id) hproper
      (fun _ _ _ hway => hclear _ hway (hp.isStagedPlace hout)) content failure
  exact World.Alike.put hspares (hp.isSeen hout).1 (hp.isSeen hout).2

theorem repeats_write {p : Path} (hp : IsTarget out p) (content : String) :
    Repeats cwd out (write p content) :=
  repeats_put hproper hout hclear hp content _

theorem repeats_createExternal (i : Nat) :
    Repeats cwd out (Act.createDirectories (out / externalName i)) := by
  have hname := isName_externalName i
  have hstaged : IsStagedPlace (out.place cwd) (out.place cwd ++ [externalName i]) :=
    isStagedPlace_append (isStaged_externalName i) []
  have hspares : (Act.createDirectories (out / externalName i)).Preserves
      (World.Spares cwd out (· ∈ out.waypoints cwd)) :=
    World.Spares.createDirectories_div (fun _ => id) hproper hout hname
      fun _ hway => hclear _ hway hstaged
  exact World.Alike.createDirectories_div hout hname hspares (.inr (.inl hstaged))

omit hproper hout hclear in
theorem isSeen_of_prefix {q r : Place} (h : ¬ (out.place cwd).IsInside r) (hq : q <+: r) :
    IsSeen cwd out q :=
  .inl fun hinside => h (hinside.mono hq)

omit hproper hout hclear in
theorem read?_eq_of_outside {file : Path} (hfile : IsOutside (out.place cwd) file) {w v : World}
    (h : AreAlike cwd out w v) : w.read? file = v.read? file := by
  obtain ⟨q, hq, rfl, hoff⟩ := hfile
  refine h.read?_eq fun r hr => ?_
  rw [Path.mem_waypoints_pathOf hq] at hr
  exact .inl fun hinside => hoff (hinside.1.trans hr)

theorem repeats_stageMerged (hfiles : ∀ file ∈ externals s, IsOutside (out.place cwd) file) :
    Repeats cwd out (stageMerged s out) := by
  refine repeats_bind (repeats_mapM fun file hfile => ?_) fun codes => ?_
  · refine repeats_bind (Act.Repeats.read fun w v h => ?_) fun _ => Act.Repeats.pure trivial
    exact read?_eq_of_outside (hfiles file hfile) h
  · refine repeats_bind ?_ fun _ => ?_
    · exact repeats_write hproper hout hclear isTarget_mergedName _
    · exact repeats_bind (repeats_note _) fun _ => Act.Repeats.pure trivial

theorem repeats_stageFragments (i : Nat) (codes : List String) :
    Repeats cwd out (stageFragments out i codes) := by
  induction codes generalizing i with
  | nil => exact Act.Repeats.pure trivial
  | cons code codes ih =>
    refine repeats_bind ?_ fun _ => ?_
    · exact repeats_write hproper hout hclear (isTarget_fragmentName i) _
    · exact repeats_bind (ih (i + 1)) fun _ => Act.Repeats.pure trivial

omit hout hclear hproper in
/-- Paths in a directory are told apart by their components. -/
theorem eq_of_components {d : Place} (hd : d.IsProper) {p q : Path}
    (hp : ∃ name, IsName name ∧ p = World.pathOf d / name)
    (hq : ∃ name, IsName name ∧ q = World.pathOf d / name) (h : p.components = q.components) :
    p = q := by
  obtain ⟨name, hname, rfl⟩ := hp
  obtain ⟨name', hname', rfl⟩ := hq
  rw [Path.pathOf_div hd hname, Path.pathOf_div hd hname', Path.components_pathOf (hd.append hname),
    Path.components_pathOf (hd.append hname')] at h
  rw [Path.pathOf_div hd hname, Path.pathOf_div hd hname', (List.cons.inj h).2]

/-- A foreign file is copied from its own directory, which is none that the output directory
holds. -/
theorem repeats_stageExternal (i : Nat) {file : Path} (hfile : IsOutside (out.place cwd) file) :
    Repeats cwd out (stageExternal (out / externalName i) file) := by
  obtain ⟨q, hq, rfl, hoff⟩ := hfile
  have hd := hq.dropLast
  have hoff' : ¬ out.place cwd <+: q.dropLast := fun h => hoff (h.trans (List.dropLast_prefix q))
  have hself : ¬ (out.place cwd).IsInside q.dropLast := fun h => hoff' h.1
  have hchild : ∀ name, ¬ (out.place cwd).IsInside (q.dropLast ++ [name]) :=
    fun name h => hoff' h.of_concat
  refine repeats_bind (repeats_createExternal hproper hout hclear i) fun _ => ?_
  rw [Path.parent_pathOf hq]
  refine Act.Repeats.list_bind
    (G := fun l => ∀ x ∈ l, ∃ name, IsName name ∧ x.1 = World.pathOf q.dropLast / name)
    (fun w v l h hl => ?_) (fun l l' hl hperm => ?_) fun l hl => ?_
  · refine h.list?_eq (fun r hr => ?_) (fun name => ?_) hl
    · rw [Path.mem_waypoints_pathOf hd] at hr
      exact isSeen_of_prefix hself hr
    · rw [Path.place_pathOf hd]
      exact isSeen_of_prefix (hchild name) (List.prefix_refl _)
  · have hsort (f : Path × Entry → Bool) :
        Path.sort ((l.filter f).map (·.1)) = Path.sort ((l'.filter f).map (·.1)) := by
      refine Path.sort_eq_of_perm ((hperm.filter _).map _) fun a ha b hb => ?_
      obtain ⟨x, hx, rfl⟩ := List.mem_map.1 ha
      obtain ⟨y, hy, rfl⟩ := List.mem_map.1 hb
      exact eq_of_components hd (hl x (List.mem_of_mem_filter hx))
        (hl y (List.mem_of_mem_filter hy))
    dsimp only
    rw [hsort]
  · refine repeats_mapM fun sibling hsibling => ?_
    obtain ⟨x, hx, rfl⟩ := List.mem_map.1 (Path.mem_sort.1 hsibling)
    obtain ⟨name, hname, heq⟩ := hl x (List.mem_of_mem_filter hx)
    rw [heq, Path.filename_div_name _ hname]
    refine repeats_bind (Act.Repeats.copy (fun w v h => h.read?_eq fun r hr => ?_)
      fun content => ?_) fun _ => Act.Repeats.pure trivial
    · rw [Path.pathOf_div hd hname, Path.mem_waypoints_pathOf (hd.append hname)] at hr
      exact isSeen_of_prefix (hchild name) hr
    · exact repeats_put hproper hout hclear (.copy i hname) content _

theorem repeats_stageExternals (i : Nat) {files : List Path}
    (hfiles : ∀ file ∈ files, IsOutside (out.place cwd) file) :
    Repeats cwd out (stageExternals out i files) := by
  induction files generalizing i with
  | nil => exact Act.Repeats.pure trivial
  | cons file files ih =>
    obtain ⟨hfile, hrest⟩ := List.forall_mem_cons.1 hfiles
    refine repeats_bind (repeats_stageExternal hproper hout hclear i hfile) fun _ => ?_
    exact repeats_bind (ih (i + 1) hrest) fun _ => Act.Repeats.pure trivial

theorem repeats_stageModules (hfiles : ∀ file ∈ externals s, IsOutside (out.place cwd) file) :
    Repeats cwd out (stageModules s mode out) := by
  refine repeats_bind (repeats_stageFragments hproper hout hclear 0 _) fun _ => ?_
  refine repeats_bind (repeats_stageExternals hproper hout hclear 0 hfiles) fun _ => ?_
  refine repeats_bind (repeats_write hproper hout hclear isTarget_entryName _) fun _ => ?_
  have hdone : ∀ (text : String) (st : Staged),
      Repeats cwd out (do Act.debug text; return st : Act Staged) := fun _ _ =>
    repeats_bind (repeats_note _) fun _ => Act.Repeats.pure trivial
  cases mode with
  | merge => exact hdone _ _
  | modularImport => exact hdone _ _
  | modularBuild =>
    exact repeats_bind (repeats_write hproper hout hclear isTarget_scriptName _) fun _ => hdone _ _

theorem repeats_stage (hfiles : ∀ file ∈ externals s, IsOutside (out.place cwd) file) :
    Repeats cwd out (stage s out mode) := by
  cases mode with
  | merge => exact repeats_stageMerged hproper hout hclear hfiles
  | modularImport =>
    change Repeats cwd out (stageModules s .modularImport out)
    exact repeats_stageModules hproper hout hclear hfiles
  | modularBuild =>
    change Repeats cwd out (stageModules s .modularBuild out)
    exact repeats_stageModules hproper hout hclear hfiles

end

end Bindery.Staging
