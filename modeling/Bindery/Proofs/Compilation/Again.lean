import Bindery.Proofs.Build.Again
import Bindery.Proofs.Compilation.Regenerate
import Bindery.Proofs.Compilation.Sound

/-!
# Compiling again

A compilation with foreign code that succeeds can be run again. Without a change of the sources the
second run finds the library of the first one, does not run the compiler and leaves every file as it
is.
-/
namespace Bindery
open Act FileTree
open Bindery.Path (IsName)

namespace Settings
variable {settings : Settings} {compiler : Compiler} {c : Compilation} {w v : World}

theorem isAbsolute_absolute (w : World) (p : Path) : (w.absolute p).isAbsolute = true := by
  refine Path.isAbsolute_div_of_isAbsolute p.text ?_
  rw [World.pathOf, Path.ofParts, Path.isAbsolute, if_pos rfl]
  simp

/-- The paths of a compilation are absolute, and it builds a library unless it only generates. -/
theorem start_paths (h : (settings.start compiler).runOn w = (.ok c, v)) :
    c.outDir.isAbsolute = true ∧ c.generatesOnly = settings.generatesOnly ∧
      v = { w with provided := [] } := by
  unfold Settings.start at h
  dsimp only at h
  by_cases hroot : settings.root.isEmpty = true
  · rw [if_pos hroot] at h
    obtain ⟨_, _, hthrow, -⟩ := bind_ok.1 h
    cases hthrow
  · rw [if_neg hroot, runOn_get_bind] at h
    obtain ⟨ps, _, hps, h⟩ := bind_ok.1 h
    obtain ⟨-, rfl⟩ := orBuild_ok.1 hps
    rw [runOn_set_bind] at h
    cases h
    refine ⟨?_, rfl, rfl⟩
    dsimp only
    split_ifs
    · exact Path.isAbsolute_div_of_isAbsolute _ (isAbsolute_absolute _ _)
    · exact isAbsolute_absolute _ _

end Settings

/-! ### The link file -/

namespace Linkage
variable {o : Output} {w v : World}

/-- The directives, line by line. -/
def lines (o : Output) : String := String.join ((directives o).map (· ++ "\n"))

def file (o : Output) : Path := o.outDir / fileName

/-- The world when the link file of an output is written. -/
def linked (w : World) (o : Output) : World :=
  { w with
    tree := w.tree.put ((file o).place w.cwd) (.file (render (lists o)))
    directives := w.directives ++ lines o }

theorem emit_puts (h : (emit o).runOn w = (.ok ⟨⟩, v)) :
    w.locate (file o) = some ((file o).place w.cwd) ∧
      w.tree.isDirectory ((file o).place w.cwd) = false ∧
      w.tree.isDirectory (List.dropLast ((file o).place w.cwd)) = true ∧
      ∃ log, v = { linked w o with log } := by
  unfold emit at h
  rw [runOn_bind_of_ok (forM_direct_runOn _ _)] at h
  obtain ⟨_, u, hwrite, hnote⟩ := bind_ok.1 h
  cases hnote
  rcases put_cases { w with directives := w.directives ++ lines o } (file o)
    (render (lists o)) (.file (.cannotWrite (file o))) with herror | ⟨hloc, hdir, hparent, hput⟩
  · cases herror.symm.trans hwrite
  · cases hput.symm.trans hwrite
    exact ⟨hloc, hdir, hparent, _, rfl⟩

theorem emit_of_locate (hloc : w.locate (file o) = some ((file o).place w.cwd))
    (hdir : w.tree.isDirectory ((file o).place w.cwd) = false)
    (hparent : w.tree.isDirectory (List.dropLast ((file o).place w.cwd)) = true) :
    ∃ log, (emit o).runOn w = (.ok ⟨⟩, { linked w o with log }) := by
  have hput := put_ok (w := { w with directives := w.directives ++ lines o }) hloc hdir hparent
    (render (lists o)) (.file (.cannotWrite (file o)))
  unfold emit
  rw [runOn_bind_of_ok (forM_direct_runOn _ _)]
  dsimp only
  rw [Act.write]
  exact ⟨_, runOn_bind_of_ok hput⟩

end Linkage

namespace Compilation
variable {c : Compilation} {s : Sources} {cwd : Place} {files : Place → Prop} {u v w : World}
  {stems : List (Path × String)} {target : String} {o : Output}

theorem isName_linkFile : IsName Linkage.fileName := by decide

theorem HasFileAt.ne_linkFile (hout : c.outDir.IsWhole) {q : Place}
    (h : c.HasFileAt stems cwd q) : q ≠ c.outDir.place cwd ++ [Linkage.fileName] := by
  have hends : String.ofList (Linkage.fileName.toList.dropWhile (· ≠ '.')) ∉ Host.fileEndings := by
    decide
  intro hq
  obtain ⟨name, heq, hend⟩ := h.exists_ending hout
  obtain rfl := List.singleton_inj.1 (List.append_cancel_left (hq.symm.trans heq))
  exact hends hend

/-! ### What stays around the output directory -/

section
variable (hproper : cwd.IsProper) (hout : c.outDir.IsWhole) (hway : c.outDir.Avoids cwd c.outDir)
include hproper hout hway

omit hproper hout hway in
theorem tidies_of_onlyLasts (hfiles : ∀ q, files q → ¬ Build.IsLasting (c.outDir.place cwd) q)
    (h : Build.OnlyLasts cwd c.outDir w v) : Staging.Tidies cwd c.outDir files w v := by
  intro _
  refine ⟨h.isReady, fun q hq => h.entries q ?_, fun hadmitted name hstaged hsome => ?_,
    fun q hq hdir => ?_⟩
  · rintro ⟨name, -, rest, hlasting⟩
    exact hq (hlasting ▸ Place.isInside_append (List.cons_ne_nil _ _))
  · rw [h.entries _ fun hlasting => hlasting.not_isStagedPlace
      (Staging.isStagedPlace_append hstaged [])] at hsome
    exact hadmitted name hstaged hsome
  · rwa [FileTree.isDirectory, h.entries q (hfiles q hq)] at hdir

theorem emit_tidies (houtDir : o.outDir = c.outDir) :
    (Linkage.emit o).Preserves (Staging.Tidies cwd c.outDir files) := by
  have hF := @Staging.Tidies.isFrame cwd c.outDir files
  have hput : ∀ content failure, (Act.put (c.outDir / Linkage.fileName) content failure).Preserves
      (Staging.Tidies cwd c.outDir files) :=
    Staging.Tidies.put_div hway hproper hout isName_linkFile
  unfold Linkage.emit
  refine Preserves.bind hF (Preserves.forM hF fun line _ w hw => ?_) fun _ => ?_
  · exact ⟨⟨hw.cwd_eq, hw.wellFormed, hw.isDirectory⟩, fun _ _ => rfl, id, fun _ _ => id⟩
  · dsimp only
    rw [houtDir]
    exact Preserves.bind hF (hput _ _) fun _ => Preserves.note hF _

/-- Staging leaves the rest of the output directory alone. -/
theorem get?_of_assemble {mode : Mode} {st : Staged} (hw : w.IsReady cwd c.outDir)
    (h : (Staging.assemble s mode c.outDir).runOn w = (.ok st, v)) {q : Place}
    (hinside : (c.outDir.place cwd).IsInside q)
    (hq : ¬ Staging.IsStagedPlace (c.outDir.place cwd) q) : v.tree.get? q = w.tree.get? q := by
  obtain ⟨-, -, -, hkept⟩ :=
    (Staging.assemble_keeps hout hproper mode).of_ok h hw.cwd_eq hw.wellFormed.isNamed
  rcases hkept q hq with hsame | ⟨-, -, hq'⟩
  · exact hsame
  · exact absurd hinside (hway q hq')

/-! ### The second run -/

/-- Generating and staging again over what a compilation has left changes nothing. -/
theorem get?_again {ss : List Interface} (hproducts : c.products = Product.headed {} ss)
    {hosts : List Host} {mode : Mode} {st : Staged} {u₁ u₂ u₃ v₁ v₂ : World}
    (hv : v.IsReady cwd c.outDir)
    (hgenerate : c.GeneratesAll s stems v hosts v₁)
    (hfollows : World.Follows cwd c.outDir (c.HasFileAt stems cwd) u v u₁ v₁)
    (hstage : (Staging.assemble s mode c.outDir).runOn u₁ = (.ok st, u₂))
    (hstage' : (Staging.assemble s mode c.outDir).runOn v₁ = (.ok st, v₂))
    (halike : Staging.AreAlike cwd c.outDir u₂ v₂) (hlasts : Build.OnlyLasts cwd c.outDir u₂ u₃)
    (hlink : ∀ q, q ≠ c.outDir.place cwd ++ [Linkage.fileName] →
      v.tree.get? q = u₃.tree.get? q) (q : Place) : v₂.tree.get? q = v.tree.get? q := by
  have hstaging : Staging.IsStagingFrame c.outDir
      (Staging.Tidies cwd c.outDir (c.HasFileAt stems cwd)) :=
    Staging.Tidies.isStagingFrame hway hproper hout (not_hasFileAt_external hout)
  by_cases hinside : (c.outDir.place cwd).IsInside q
  · by_cases hstaged : Staging.IsStagedPlace (c.outDir.place cwd) q
    · -- What is staged is staged alike, and nobody has touched it since.
      have hlasting : ¬ Build.IsLasting (c.outDir.place cwd) q :=
        fun hlasting => hlasting.not_isStagedPlace hstaged
      have hne : q ≠ c.outDir.place cwd ++ [Linkage.fileName] := by
        intro hq
        exact Staging.not_isStagedPlace_append (by decide) [] (hq ▸ hstaged)
      rw [hlink q hne, hlasts.entries q hlasting, halike.entries q (.inr (.inl hstaged))]
    · rw [get?_of_assemble hproper hout hway hfollows.right hstage' hinside hstaged]
      by_cases hfile : c.HasFileAt stems cwd q
      · rcases hfollows.entries q with hsame | ⟨-, hsame⟩
        · rw [← hsame, hlink q (hfile.ne_linkFile hout), hlasts.entries q (hfile.not_isLasting hout),
            get?_of_assemble hproper hout hway hfollows.left hstage hinside hstaged]
        · exact hsame
      · exact get?_of_generatesAll hproper hway hproducts hv hgenerate hinside hfile
  · have hgenerated : Staging.Tidies cwd c.outDir (c.HasFileAt stems cwd) v v₁ :=
      generatesAll_tidies hproper hout hway hproducts hgenerate
    have htidy := Staging.Tidies.isFrame.trans hgenerated
      ((Staging.assemble_preserves hstaging mode).of_ok hstage')
    exact (htidy hv).around q hinside

end

/-- A compilation succeeds if its stages do. -/
theorem compile_of_stages {hosts : List Host} {built : Output} {u₁ u₂ u₃ u₄ u₅ : World}
    (htarget : Target.ofTriple c.triple = .ok target)
    (hcreate : (createDirectories c.outDir).runOn { w with provided := [] } = (.ok ⟨⟩, u₁))
    (hscan : (Sources.scan c.root c.outDir).runOn u₁ = (.ok s, u₂))
    (hstems : Host.stems s.hosts c.root = .ok stems)
    (hhosts : c.GeneratesAll s stems u₂ hosts u₃)
    (hbuild : (c.build s target).runOn u₃ = (.ok built, u₄))
    (houtput : o = { built with
      exported := hosts.flatMap (·.exported), sources := hosts.map c.sourceOf })
    (hlink : (Linkage.emit o).runOn u₄ = (.ok ⟨⟩, u₅)) :
    ∃ log, c.compile.runOn w = (.ok o, { u₅ with log }) := by
  have hassigned : (Act.orBuild ((Host.stems s.hosts c.root).mapError
      BuildFault.outputConflict)).runOn u₂ = (.ok stems, u₂) := by
    rw [hstems]
    rfl
  unfold compile
  subst houtput
  rw [runOn_modify_bind, runOn_bind_of_ok (orBuild_ok.2 ⟨htarget, rfl⟩), runOn_bind_of_ok hcreate,
    runOn_bind_of_ok hscan, runOn_bind_of_ok hassigned, runOn_bind_of_ok hhosts,
    runOn_bind_of_ok hbuild]
  dsimp only
  rw [runOn_bind_of_ok hlink, runOn_get_bind]
  exact ⟨_, rfl⟩

/-- Where a compilation can be run again: its output directory neither is nor contains the root, the
way to neither leads into this directory, and the path of the directory fits into the line of a
cache. -/
structure IsSetApart (c : Compilation) (cwd : Place) : Prop where
  isWhole : c.outDir.IsWhole
  avoids : c.outDir.Avoids cwd c.outDir
  isOneLine : '\n' ∉ c.outDir.text.toList
  isBeside : Sources.IsBeside cwd c.outDir c.root

/-- The stages of a compilation that has come to a library, from where its sources are scanned. -/
structure HasBuilt (c : Compilation) (s : Sources) (stems : List (Path × String)) (cwd : Place)
    (u : World) (hosts : List Host) (u₁ : World) (built : Output) (u₂ : World) (o : Output)
    (v : World) : Prop where
  isReady : u.IsReady cwd c.outDir
  generated : c.GeneratesAll s stems u hosts u₁
  builds : (Build.build c.toolchain s c.triple c.outDir).runOn u₁ = (.ok built, u₂)
  hasLibrary : Build.HasLibrary c.toolchain s c.triple c.outDir cwd u₁ built u₂
  output : o = { built with
    exported := hosts.flatMap (·.exported), sources := hosts.map c.sourceOf }
  linked : ∃ u₃, (Linkage.emit o).runOn u₂ = (.ok ⟨⟩, u₃) ∧ u₃.OnlyLogs v
  /-- All around the output directory is kept. -/
  tidies : Staging.Tidies cwd c.outDir (c.HasFileAt stems cwd) u₁ v

theorem outDir_of_hasLibrary {t : Toolchain} {triple : String} {out : Path}
    (h : Build.HasLibrary t s triple out cwd w o v) : o.outDir = out := by
  obtain ⟨-, -, -, houtput, -, -⟩ := h
  rw [houtput]
  rfl

theorem hasBuilt_of_compile {ss : List Interface} (hproducts : c.products = Product.headed {} ss)
    (hcompiler : c.toolchain.compiler.WritesArtifact) (habs : c.outDir.isAbsolute = true)
    (hbuilds : c.generatesOnly = false) (hw : w.IsSound) (hapart : c.IsSetApart w.cwd)
    (hopens : c.Opens w target s stems u) (hsources : s.isEmpty = false)
    (h : c.compile.runOn w = (.ok o, v)) :
    ∃ hosts u₁ built u₂, c.HasBuilt s stems w.cwd u hosts u₁ built u₂ o v := by
  have hproper := hw.isProper
  obtain ⟨hout, hway, hline, -⟩ := hapart
  have hopened := hopens
  obtain ⟨htarget, hcreate, hscan, hstems⟩ := hopened
  obtain @⟨_, _, _, hosts, built, _, _, u₁, u₂, u₃, htarget', hcreate', hscan', hstems', hhosts,
    hbuild, houtput, hlink, hlogs⟩ := compile_ok h
  cases htarget.symm.trans htarget'
  cases hcreate.symm.trans hcreate'
  cases hscan.symm.trans hscan'
  cases hstems.symm.trans hstems'
  rw [build, hbuilds, if_neg Bool.false_ne_true] at hbuild
  obtain ⟨st, u', hstage⟩ := Build.exists_staged hsources hbuild
  obtain ⟨hu, hcwd⟩ := isSound_of_opens hw hopens
  obtain ⟨hu₁, hcwd₁⟩ := generatesAll_staysSound hproducts hhosts hu
  have hready := isReady_of_opens hout hw hopens hu₁ hstage
  have hgenerated : Staging.Tidies w.cwd c.outDir (c.HasFileAt stems w.cwd) u u₁ :=
    generatesAll_tidies hproper hout hway hproducts hhosts
  have hlibrary := Build.hasLibrary_of_build hproper hout hway hcompiler habs hline hsources
    (hgenerated hready).isReady hu₁.isTime hbuild
  have hbuilt := outDir_of_hasLibrary hlibrary
  have houtDir : o.outDir = c.outDir := by
    rw [houtput]
    exact hbuilt
  refine ⟨hosts, u₁, built, u₂, hready, hhosts, hbuild, hlibrary, houtput, ⟨u₃, hlink, hlogs⟩, ?_⟩
  -- Each stage keeps what is around the output directory, and so do all of them.
  obtain ⟨-, hstage', -, -, -, hlasts⟩ := hlibrary
  have hstaged : Staging.Tidies w.cwd c.outDir (c.HasFileAt stems w.cwd) u₁ _ :=
    (Staging.assemble_preserves (Staging.Tidies.isStagingFrame hway hproper hout
      (not_hasFileAt_external hout)) c.toolchain.mode).of_ok hstage'
  have hF := @Staging.Tidies.isFrame w.cwd c.outDir (c.HasFileAt stems w.cwd)
  have hlasting : Staging.Tidies w.cwd c.outDir (c.HasFileAt stems w.cwd) _ u₂ :=
    tidies_of_onlyLasts (fun q hq => hq.not_isLasting hout) hlasts
  have hlinked : Staging.Tidies w.cwd c.outDir (c.HasFileAt stems w.cwd) u₂ u₃ :=
    (emit_tidies hproper hout hway houtDir).of_ok hlink
  obtain ⟨log, rfl⟩ := hlogs
  exact hF.trans (hF.trans hstaged hlasting) (hF.trans hlinked (hF.log u₃ log))

theorem HasBuilt.outDir_eq {hosts : List Host} {u₁ u₂ : World} {built : Output}
    (h : c.HasBuilt s stems cwd u hosts u₁ built u₂ o v) : o.outDir = c.outDir := by
  have hbuilt := outDir_of_hasLibrary h.hasLibrary
  rw [h.output]
  exact hbuilt

/-- What a compilation has changed but for its output directory. -/
theorem HasBuilt.remembers {ss : List Interface} (hproducts : c.products = Product.headed {} ss)
    (hcompiler : c.toolchain.compiler.IsSeparate) {hosts : List Host} {u₁ u₂ : World}
    {built : Output} (h : c.HasBuilt s stems cwd u hosts u₁ built u₂ o v) :
    v.provided = u₁.provided ∧ v.directives = u.directives ++ Linkage.lines o := by
  obtain ⟨htarget, -⟩ := h.hasLibrary
  obtain ⟨⟨hprovided, hdirectives⟩, -⟩ := Build.build_ok hcompiler htarget h.builds
  obtain ⟨u₃, hlink, log, rfl⟩ := h.linked
  obtain ⟨-, -, -, log', rfl⟩ := Linkage.emit_puts hlink
  refine ⟨hprovided, ?_⟩
  change u₂.directives ++ _ = _
  rw [hdirectives, (mapM_generate_ok hproducts h.generated).1]

/-- The file of a link is where it was put, and nothing else is changed by it. -/
theorem HasBuilt.get?_eq {hosts : List Host} {u₁ u₂ : World} {built : Output}
    (hout : c.outDir.IsWhole) (h : c.HasBuilt s stems cwd u hosts u₁ built u₂ o v) :
    c.outDir.Admits Linkage.fileName ∧ ∀ q, v.tree.get? q =
      if q = c.outDir.place cwd ++ [Linkage.fileName] then
        some (.file (Linkage.render (Linkage.lists o)))
      else u₂.tree.get? q := by
  have hfile : Linkage.file o = c.outDir / Linkage.fileName :=
    congrArg (· / Linkage.fileName) h.outDir_eq
  have hplace : (c.outDir / Linkage.fileName).place cwd =
      c.outDir.place cwd ++ [Linkage.fileName] := Path.place_div hout isName_linkFile
  obtain ⟨-, -, -, -, -, hlasts⟩ := h.hasLibrary
  obtain ⟨u₃, hlink, log, rfl⟩ := h.linked
  obtain ⟨hloc, hdir, -, log', rfl⟩ := Linkage.emit_puts hlink
  rw [hfile, hlasts.isReady.cwd_eq] at hloc hdir
  refine ⟨(hlasts.isReady.admits_of_locate hout isName_linkFile hloc).1, fun q => ?_⟩
  have hne : c.outDir.place cwd ++ [Linkage.fileName] ≠ [] := List.concat_ne_nil _ _
  change (u₂.tree.put ((Linkage.file o).place u₂.cwd) _).get? q = _
  rw [hfile, hlasts.isReady.cwd_eq, hplace, FileTree.get?_put hne]

/-- The library of a compilation is found when the link file is written. -/
theorem HasBuilt.found_eq {hosts : List Host} {u₁ u₂ : World} {built : Output}
    (hout : c.outDir.IsWhole) (h : c.HasBuilt s stems cwd u hosts u₁ built u₂ o v) {key : String}
    {e : CacheEntry} (hfound : Cache.found u₂ c.outDir key = some e) :
    Cache.found v c.outDir key = some e := by
  have hfile : Linkage.file o = c.outDir / Linkage.fileName :=
    congrArg (· / Linkage.fileName) h.outDir_eq
  have hne : Cache.fileName ≠ Linkage.fileName := by decide
  obtain ⟨u₃, hlink, log, rfl⟩ := h.linked
  obtain ⟨-, hdir, -, log', rfl⟩ := Linkage.emit_puts hlink
  have hplace : (Cache.file c.outDir).place u₂.cwd ≠ (Linkage.file o).place u₂.cwd := by
    rw [hfile, Build.place_file hout, Path.place_div hout isName_linkFile]
    exact fun heq => hne (List.singleton_inj.1 (List.append_cancel_left heq))
  rw [← Build.found_put hdir (Linkage.render (Linkage.lists o)) hplace hfound]
  exact Build.found_congr rfl fun _ => rfl

section
variable {ss : List Interface} {hosts : List Host} {u₁ u₂ v' v₁ : World} {built : Output}
  (hproper : cwd.IsProper) (hout : c.outDir.IsWhole) (hway : c.outDir.Avoids cwd c.outDir)
  (hproducts : c.products = Product.headed {} ss)
include hproper hout hway hproducts

theorem HasBuilt.isTidy (h : c.HasBuilt s stems cwd u hosts u₁ built u₂ o v) :
    Staging.IsTidy cwd c.outDir (c.HasFileAt stems cwd) u v :=
  Staging.Tidies.isFrame.trans (generatesAll_tidies hproper hout hway hproducts h.generated)
    h.tidies h.isReady

/-- Generating again over what a compilation has left. -/
theorem HasBuilt.generatesAgain (h : c.HasBuilt s stems cwd u hosts u₁ built u₂ o v)
    (hv' : v'.IsReady cwd c.outDir) (htree : v'.tree = v.tree)
    (hprovided : v'.provided = u.provided) :
    ∃ v₁, c.GeneratesAll s stems v' hosts v₁ ∧
      World.Follows cwd c.outDir (c.HasFileAt stems cwd) u v' u₁ v₁ := by
  refine generatesAll_again hproper hout hway hproducts
    (fun x hx p hp => ⟨x, hx, p, hp, rfl⟩) ⟨h.isReady, hv', hprovided.symm, fun q hq => ?_,
      fun q => .inr ⟨rfl, rfl⟩⟩ h.generated
  rw [htree]
  exact (h.isTidy hproper hout hway hproducts).isDirectory q hq

/-- Building again over what a compilation has left finds its library, and leaves every file as it
was. -/
theorem HasBuilt.buildsAgain (hsources : s.isEmpty = false)
    (houtside : s.AreOutside (c.outDir.place cwd))
    (h : c.HasBuilt s stems cwd u hosts u₁ built u₂ o v)
    (hv' : v'.IsReady cwd c.outDir) (htree : v'.tree = v.tree)
    (hgenerate : c.GeneratesAll s stems v' hosts v₁)
    (hfollows : World.Follows cwd c.outDir (c.HasFileAt stems cwd) u v' u₁ v₁) :
    ∃ v₂, (Build.build c.toolchain s c.triple c.outDir).runOn v₁ =
        (.ok { built with isCached := true }, v₂) ∧ v₁.OnlyWrites v₂ ∧
      v₂.IsReady cwd c.outDir ∧ ∀ q, v₂.tree.get? q = v.tree.get? q := by
  obtain @⟨target, text, st, a, e, htarget, hstage, hkey, houtput, hfound, hlasts⟩ := h.hasLibrary
  have hgenerated : Staging.Tidies cwd c.outDir (c.HasFileAt stems cwd) u u₁ :=
    generatesAll_tidies hproper hout hway hproducts h.generated
  have hgenerated' : Staging.Tidies cwd c.outDir (c.HasFileAt stems cwd) v' v₁ :=
    generatesAll_tidies hproper hout hway hproducts hgenerate
  have hv : v.IsReady cwd c.outDir := (h.tidies (hgenerated h.isReady).isReady).isReady
  have hexternals : ∀ file ∈ Staging.externals s, Staging.IsOutside (c.outDir.place cwd) file := by
    intro file hfile
    obtain ⟨x, hx, hxfile⟩ := List.mem_filterMap.1 (Path.mem_of_mem_eraseDupsBy hfile)
    exact houtside.files x hx file hxfile
  -- The second staging starts from what the first one has left.
  have hagree : World.AgreeAround cwd c.outDir u₁ v₁ := by
    refine ⟨hfollows.left, hfollows.right, fun q hq => ?_⟩
    rw [(hgenerated' hv').around q hq, htree, (h.tidies hfollows.left).around q hq]
  have hadmitted : Staging.AreAdmitted cwd c.outDir v₁.tree := by
    refine (hgenerated' hv').areAdmitted ?_
    rw [htree]
    exact (h.tidies hfollows.left).areAdmitted
      (Staging.areAdmitted_of_assemble hout hway hfollows.left hstage)
  obtain ⟨b, hstage', halike, hhashed⟩ :=
    Staging.assemble_again hproper hout hway hexternals hagree hadmitted hstage
  have hst := Staging.assemble_returns c.toolchain.mode u₁ a st hstage
  have hagree' : World.AgreeAround cwd c.outDir a b := halike.mono fun q hq => .inl hq
  rw [Build.keyText_congr hproper hagree' houtside.auxiliary hst.auxiliary_eq hhashed] at hkey
  have hsame : ∀ q, b.tree.get? q = v.tree.get? q := by
    intro q
    rw [← htree]
    refine get?_again hproper hout hway hproducts hv' hgenerate hfollows hstage hstage' halike hlasts
      (fun q hq => ?_) q
    rw [htree, (h.get?_eq hout).2 q, if_neg hq]
  have hfound' : Cache.found b c.outDir (Digest.sha256 text) = some e := by
    rw [Build.found_congr (halike.right.cwd_eq.trans hv.cwd_eq.symm) hsame]
    exact h.found_eq hout hfound
  obtain ⟨log, hrun⟩ := Build.build_of_found hsources htarget hstage' hkey hfound'
  obtain ⟨tree, log', rfl⟩ := (World.OnlyWrites.assemble c.toolchain.mode).of_ok hstage'
  refine ⟨_, ?_, ⟨tree, log, rfl⟩, ?_, hsame⟩
  · rw [hrun, houtput]
    rfl
  · exact ⟨halike.right.cwd_eq, halike.right.wellFormed, halike.right.isDirectory⟩

omit hproper hway hproducts in
/-- Linking again over what a compilation has left. -/
theorem HasBuilt.linksAgain (h : c.HasBuilt s stems cwd u hosts u₁ built u₂ o v) {v₂ : World}
    (hv₂ : v₂.IsReady cwd c.outDir) (hsame : ∀ q, v₂.tree.get? q = v.tree.get? q) :
    (∃ log, (Linkage.emit { o with isCached := true }).runOn v₂ =
        (.ok ⟨⟩, { Linkage.linked v₂ o with log })) ∧
      ∀ q, (Linkage.linked v₂ o).tree.get? q = v.tree.get? q := by
  have hfile : Linkage.file o = c.outDir / Linkage.fileName :=
    congrArg (· / Linkage.fileName) h.outDir_eq
  have hplace : (c.outDir / Linkage.fileName).place cwd =
      c.outDir.place cwd ++ [Linkage.fileName] := Path.place_div hout isName_linkFile
  obtain ⟨hadmits, hget⟩ := h.get?_eq hout
  have hput := hsame (c.outDir.place cwd ++ [Linkage.fileName])
  rw [hget, if_pos rfl] at hput
  have hloc : v₂.locate (Linkage.file o) = some ((Linkage.file o).place v₂.cwd) := by
    rw [hfile, hv₂.cwd_eq, hplace]
    exact hv₂.locate_div hout isName_linkFile hadmits
  have hdir : v₂.tree.isDirectory ((Linkage.file o).place v₂.cwd) = false := by
    rw [hfile, hv₂.cwd_eq, hplace, FileTree.isDirectory, hput]
    rfl
  have hparent : v₂.tree.isDirectory (List.dropLast ((Linkage.file o).place v₂.cwd)) = true := by
    rw [hfile, hv₂.cwd_eq, hplace, List.dropLast_concat]
    exact hv₂.isDirectory_place
  have hlines : Linkage.linked v₂ { o with isCached := true } = Linkage.linked v₂ o := rfl
  refine ⟨?_, fun q => ?_⟩
  · rw [← hlines]
    exact Linkage.emit_of_locate hloc hdir hparent
  · have hne : c.outDir.place cwd ++ [Linkage.fileName] ≠ [] := List.concat_ne_nil _ _
    change (v₂.tree.put ((Linkage.file o).place v₂.cwd) _).get? q = _
    rw [hfile, hv₂.cwd_eq, hplace, FileTree.get?_put hne, hget, hsame, hget]
    split_ifs
    · rfl
    · rfl

end

/-- Scanning again in a world that is the same around the output directory. -/
theorem scansAgain (hproper : cwd.IsProper) (hroot : Sources.IsBeside cwd c.outDir c.root)
    {u₀ : World} (hu : u.IsReady cwd c.outDir)
    (hscan : (Sources.scan c.root c.outDir).runOn u₀ = (.ok s, u))
    (hincludes : Sources.IncludesAvoid u c.root c.outDir)
    (hagree : World.AgreeAround cwd c.outDir u v) :
    s.AreOutside (c.outDir.place cwd) ∧
      ∃ log, (Sources.scan c.root c.outDir).runOn v = (.ok s, { v with log }) := by
  obtain ⟨log, rfl⟩ := (Sources.scan_ok hscan).2
  have hu₀ : u₀.IsReady cwd c.outDir := ⟨hu.cwd_eq, hu.wellFormed, hu.isDirectory⟩
  have hagree₀ : World.AgreeAround cwd c.outDir u₀ v := ⟨hu₀, hagree.right, hagree.entries⟩
  have hincludes₀ := hincludes.of_agree hproper hroot ⟨hu, hu₀, fun _ _ => rfl⟩
  obtain ⟨v', hscan'⟩ :=
    Sources.scan_again hproper hroot hagree₀ (hincludes.of_agree hproper hroot hagree) hscan
  obtain ⟨log', rfl⟩ := (Sources.scan_ok hscan').2
  exact ⟨Sources.areOutside_of_scan hproper hroot hu₀ hincludes₀ hscan, log', hscan'⟩

/-- Compiling again without a change of the sources runs no compiler. It has the same output, but for
that the library was found in the cache, provides the same, gives the same directives, and leaves
every file as it is. -/
theorem compile_again {settings : Settings} {compiler : Compiler} {w₀ w₁ : World}
    (hcompiler : compiler.WritesArtifact)
    (hstart : (settings.start compiler).runOn w₀ = (.ok c, w₁))
    (hbuilds : settings.generatesOnly = false) (hw : w.IsSound) (hapart : c.IsSetApart w.cwd)
    (hopens : c.Opens w target s stems u) (hsources : s.isEmpty = false)
    (hincludes : Sources.IncludesAvoid u c.root c.outDir)
    (h : c.compile.runOn w = (.ok o, v)) :
    ∃ v', c.compile.runOn v = (.ok { o with isCached := true }, v') ∧ v'.calls = v.calls ∧
      v'.provided = v.provided ∧
      (∃ lines, v.directives = w.directives ++ lines ∧ v'.directives = v.directives ++ lines) ∧
      ∀ q, v'.tree.get? q = v.tree.get? q := by
  obtain ⟨⟨ss, hproducts⟩, rfl⟩ := Settings.start_ok hstart
  obtain ⟨habs, hgenerates, -⟩ := Settings.start_paths hstart
  rw [hbuilds] at hgenerates
  have hproper := hw.isProper
  obtain ⟨hosts, u₁, built, u₂, hbuilt⟩ :=
    hasBuilt_of_compile hproducts hcompiler habs hgenerates hw hapart hopens hsources h
  obtain ⟨hout, hway, -, hroot⟩ := hapart
  obtain ⟨htarget, hcreate, hscan, hstems⟩ := hopens
  have htidy := hbuilt.isTidy hproper hout hway hproducts
  have hv : ∀ log, ({ v with provided := [], log } : World).IsReady w.cwd c.outDir := fun _ =>
    ⟨htidy.isReady.cwd_eq, htidy.isReady.wellFormed, htidy.isReady.isDirectory⟩
  obtain ⟨houtside, log, hscan'⟩ := scansAgain hproper hroot hbuilt.isReady hscan hincludes
    ⟨hbuilt.isReady, hv v.log, fun q hq => (htidy.around q hq).symm⟩
  have hopened : u.provided = [] ∧ u.directives = w.directives := by
    obtain ⟨tree, log, rfl⟩ := (World.OnlyWrites.createDirectories _).of_ok hcreate
    obtain ⟨log', rfl⟩ := (Sources.scan_ok hscan).2
    exact ⟨rfl, rfl⟩
  obtain ⟨v₁, hgenerate, hfollows⟩ :=
    hbuilt.generatesAgain hproper hout hway hproducts (hv log) rfl hopened.1.symm
  obtain ⟨v₂, hbuild, hwrites, hv₂, hsame⟩ := hbuilt.buildsAgain hproper hout hway hproducts
    hsources houtside (hv log) rfl hgenerate hfollows
  obtain ⟨⟨log', hlink⟩, hsame'⟩ := hbuilt.linksAgain hout hv₂ hsame
  obtain ⟨log'', hrun⟩ := compile_of_stages htarget ((hv v.log).createDirectories_self hout) hscan'
    hstems hgenerate (by rw [build, hgenerates]; exact hbuild) (by rw [hbuilt.output]) hlink
  obtain ⟨hprovided, hdirectives⟩ := hbuilt.remembers hproducts hcompiler.toIsSeparate
  obtain ⟨-, hcalls, -⟩ := generatesAll_keeps hproper hproducts (fun _ hx => hx) hgenerate
    (hv log).cwd_eq (hv log).wellFormed.isNamed
  have hdirectives' := (mapM_generate_ok hproducts hgenerate).1
  obtain ⟨tree, log₂, rfl⟩ := hwrites
  refine ⟨_, hrun, hcalls, hfollows.provided.symm.trans hprovided.symm,
    ⟨Linkage.lines o, ?_, ?_⟩, hsame'⟩
  · rw [hdirectives, hopened.2]
  · exact congrArg (· ++ Linkage.lines o) hdirectives'

/-- A host that includes a foreign file beside the root. -/
def includingWorld : World :=
  { tree := ⟨[(["src"], .directory), (["src", "a.cpp"], .file "ZIGBIND_INCLUDE(\"../x.zig\")"),
      (["x.zig"], .file "const a = 1;")]⟩ }

def includingSettings : Settings := { root := ⟨"/src"⟩ }

theorem isSound_includingWorld : includingWorld.IsSound := by
  refine ⟨⟨?_, by decide, by decide⟩, rfl, by decide⟩
  unfold IsNamed Place.IsProper
  decide

/-- The way to a path that stays out of a directory, by its places. -/
theorem avoids_of_waypoints {p out : Path} {o : Place} (hout : out.place cwd = o)
    (h : (p.waypoints cwd).all (fun q => !(o.isPrefixOf q && q ≠ o)) = true) :
    p.Avoids cwd out := by
  intro q hq hinside
  rw [hout] at hinside
  have hall := List.all_eq_true.1 h q hq
  rw [List.isPrefixOf_iff_prefix.2 hinside.1, Bool.true_and, decide_eq_true hinside.2] at hall
  cases hall

theorem place_including : (⟨"/src/.zigbind"⟩ : Path).place [] = ["src", ".zigbind"] := by decide

theorem isSetApart_including (hroot : c.root = ⟨"/src"⟩) (hout : c.outDir = ⟨"/src/.zigbind"⟩) :
    c.IsSetApart [] := by
  have hnames : ∀ p ∈ [(⟨"/src"⟩ : Path), ⟨"/src/.zigbind"⟩], p.IsWhole := by
    unfold Path.IsWhole
    decide
  have hwhole : c.outDir.IsWhole := hout ▸ hnames _ (by decide)
  refine ⟨hwhole, ?_, ?_, ?_, hroot ▸ hnames _ (by decide), ?_, ?_⟩
  · rw [hout]
    exact avoids_of_waypoints place_including (by decide)
  · rw [hout]
    decide
  · rw [hroot]
    decide
  · rw [hroot, hout]
    exact avoids_of_waypoints place_including (by decide)
  · rw [hroot, hout, place_including]
    decide

/-- The include leads up to the directory of the root and on to the foreign file. -/
theorem includesAvoid_including {root out : Path} (hcwd : u.cwd = []) (hroot : root = ⟨"/src"⟩)
    (hout : out = ⟨"/src/.zigbind"⟩)
    (hhosts : (Sources.hostFiles u root out).map (fun host =>
        (host, Annotation.includes host ((u.read? host).getD "").toList)) =
      [(⟨"/src/a.cpp"⟩, ["../x.zig"])]) : Sources.IncludesAvoid u root out := by
  intro host hhost text hread path hpath dir hdir
  have hmem := List.mem_map_of_mem (f := fun host =>
    (host, Annotation.includes host ((u.read? host).getD "").toList)) hhost
  rw [hhosts, hread, Option.getD_some] at hmem
  obtain ⟨rfl, hpaths⟩ := Prod.mk.inj (List.mem_singleton.1 hmem)
  rw [hpaths] at hpath
  obtain rfl := List.mem_singleton.1 hpath
  have hdirs : ∀ dir ∈ [(⟨"/src/a.cpp"⟩ : Path).parent, ⟨"/src"⟩], dir = ⟨"/src"⟩ := by decide
  rw [hroot] at hdir
  rw [hcwd, hout, hdirs dir hdir]
  exact avoids_of_waypoints place_including (by decide)

theorem compile_again_including :
    ∃ c w o v v', (includingSettings.start Build.writingCompiler).runOn includingWorld =
        (.ok c, w) ∧
      c.compile.runOn w = (.ok o, v) ∧ o.isCached = false ∧
      o.artifact = some ⟨"/src/.zigbind/libzigbind_foreign.a"⟩ ∧
      c.compile.runOn v = (.ok { o with isCached := true }, v') ∧ v'.calls = v.calls ∧
      ∀ q, v'.tree.get? q = v.tree.get? q := by
  have hcompiled : ((do
      let c ← includingSettings.start Build.writingCompiler
      let o ← c.compile
      return (o.isCached, o.artifact) : Act _).runOn includingWorld).1.toOption =
        some (false, some ⟨"/src/.zigbind/libzigbind_foreign.a"⟩) := by decide +kernel
  have hscanned : ((do
      let c ← includingSettings.start Build.writingCompiler
      modify fun w => { w with provided := [] }
      Act.createDirectories c.outDir
      let s ← Sources.scan c.root c.outDir
      let u ← get
      return decide (c.root = ⟨"/src"⟩ ∧ c.outDir = ⟨"/src/.zigbind"⟩ ∧ s.isEmpty = false ∧
        ((Sources.hostFiles u c.root c.outDir).map fun host =>
          (host, Annotation.includes host ((u.read? host).getD "").toList)) =
        [(⟨"/src/a.cpp"⟩, ["../x.zig"])]) : Act Bool).runOn includingWorld).1.toOption =
      some true := by
    decide +kernel
  obtain ⟨_, hcompiled⟩ := exists_of_toOption hcompiled
  obtain ⟨c, w, hstart, hcompiled⟩ := bind_ok.1 hcompiled
  obtain ⟨o, v, h, hcompiled⟩ := bind_ok.1 hcompiled
  obtain ⟨hcached, hartifact⟩ := Prod.mk.inj (Except.ok.inj (congrArg Prod.fst hcompiled))
  obtain ⟨_, hscanned⟩ := exists_of_toOption hscanned
  rw [runOn_bind_of_ok hstart, runOn_modify_bind] at hscanned
  obtain @⟨target, s, stems, _, _, u₀, u, _, _, _, htarget, hcreate, hscan, hstems, -⟩ := compile_ok h
  rw [runOn_bind_of_ok hcreate, runOn_bind_of_ok hscan, runOn_get_bind] at hscanned
  obtain ⟨hroot, hout, hsources, hhosts⟩ :=
    of_decide_eq_true (Except.ok.inj (congrArg Prod.fst hscanned))
  obtain ⟨-, -, rfl⟩ := Settings.start_paths hstart
  have hw : ({ includingWorld with provided := [] } : World).IsSound := isSound_includingWorld
  have hcwd : u.cwd = [] := by
    obtain ⟨tree, log, rfl⟩ := (World.OnlyWrites.createDirectories _).of_ok hcreate
    obtain ⟨log', rfl⟩ := (Sources.scan_ok hscan).2
    rfl
  obtain ⟨v', hagain, hcalls, -, -, hsame⟩ :=
    compile_again Build.writingCompiler_writesArtifact hstart rfl hw
      (isSetApart_including hroot hout) ⟨htarget, hcreate, hscan, hstems⟩ hsources
      (includesAvoid_including hcwd hroot hout hhosts) h
  exact ⟨c, _, o, v, v', hstart, h, hcached, hartifact, hagain, hcalls, hsame⟩

/-- A host that includes a foreign file outside of the output directory, by a path that leads through
this directory. -/
def leadingWorld : World :=
  { tree := ⟨[(["s"], .directory),
      (["s", "a.cpp"], .file "ZIGBIND_INCLUDE(\"../o/ext5/../../x.zig\")"),
      (["x.zig"], .file "const a = 1;"), (["o"], .directory), (["o", "ext5"], .directory),
      (["o", "ext5", "y.zig"], .file "")]⟩ }

def leadingSettings : Settings := { root := ⟨"/s"⟩, outDir := ⟨"/o"⟩ }

theorem isSound_leadingWorld : leadingWorld.IsSound := by
  refine ⟨⟨?_, by decide, by decide⟩, rfl, by decide⟩
  unfold IsNamed Place.IsProper
  decide

/-- The first compilation cleans the output directory up, and with it goes the way of the include. So
the second one cannot resolve the include, though no source has changed. -/
theorem not_compile_again :
    Build.writingCompiler.WritesArtifact ∧ leadingWorld.IsSound ∧
      ∃ c w target s stems u o v e v',
        (leadingSettings.start Build.writingCompiler).runOn leadingWorld = (.ok c, w) ∧
        c.outDir.text = "/o" ∧ c.root.text = "/s" ∧ c.Opens w target s stems u ∧
        s.annotations.map (·.file) = [some ⟨"/x.zig"⟩] ∧ c.compile.runOn w = (.ok o, v) ∧
        c.compile.runOn v = (.error e, v') := by
  have hfirst : ((do
      let c ← leadingSettings.start Build.writingCompiler
      let o ← c.compile
      return o.isCached : Act _).runOn leadingWorld).1.toOption = some false := by decide +kernel
  have hscanned : ((do
      let c ← leadingSettings.start Build.writingCompiler
      modify fun w => { w with provided := [] }
      Act.createDirectories c.outDir
      let s ← Sources.scan c.root c.outDir
      return (c.outDir.text, c.root.text, s.annotations.map (·.file)) :
        Act _).runOn leadingWorld).1.toOption = some ("/o", "/s", [some ⟨"/x.zig"⟩]) := by
    decide +kernel
  have hsecond : ((do
      let c ← leadingSettings.start Build.writingCompiler
      let _ ← c.compile
      c.compile : Act _).runOn leadingWorld).1.toOption.isNone = true := by decide +kernel
  obtain ⟨_, hfirst⟩ := exists_of_toOption hfirst
  obtain ⟨c, w, hstart, hfirst⟩ := bind_ok.1 hfirst
  obtain ⟨o, v, h, -⟩ := bind_ok.1 hfirst
  obtain ⟨_, hscanned⟩ := exists_of_toOption hscanned
  rw [runOn_bind_of_ok hstart, runOn_modify_bind] at hscanned
  obtain @⟨target, s, stems, _, _, u₀, u, _, _, _, htarget, hcreate, hscan, hstems, -⟩ := compile_ok h
  rw [runOn_bind_of_ok hcreate, runOn_bind_of_ok hscan] at hscanned
  have hfound := Except.ok.inj (congrArg Prod.fst hscanned)
  obtain ⟨hout, hfound⟩ := Prod.mk.inj hfound
  obtain ⟨hroot, hfiles⟩ := Prod.mk.inj hfound
  rw [runOn_bind_of_ok hstart, runOn_bind_of_ok h] at hsecond
  rcases hagain : c.compile.runOn v with ⟨r, v'⟩
  rw [hagain] at hsecond
  cases r with
  | ok o' => cases hsecond
  | error e =>
    exact ⟨Build.writingCompiler_writesArtifact, isSound_leadingWorld, c, w, target, s, stems, u, o,
      v, e, v', hstart, hout, hroot, ⟨htarget, hcreate, hscan, hstems⟩, hfiles, h, hagain⟩

end Compilation
end Bindery
