import Bindery.Proofs.Build.History

/-!
# Cached libraries are current

In a history whose output directory starts without a cache, a build that finds its library in the
cache finds the one that a build with the same key made last. This holds where a cache line tells
the paths of libraries as they are. A path with a line feed is cut off, and then a build can take
another file for its library.
-/
namespace Bindery
open CacheEntry
open Bindery.Path (IsName)

/-- A cache line tells a path as it is, or tells nothing. -/
def CacheEntry.IsToldRight (a : Path) : Prop := told a = a.text.toList ∨ told a = []

namespace Build
variable {out : Path}

/-- The libraries of an output directory are told as they are if the directory is. -/
theorem told_artifact (hne : out.text ≠ "") (hline : '\n' ∉ out.text.toList)
    (hfront : out.text.toList.head?.any Text.isSpace = false) (mode : Mode) (target : String) :
    told (artifact mode target out) = (artifact mode target out).text.toList := by
  have hdiv : ∀ {p : Path} {s : String}, IsName s → '\n' ∉ s.toList → p.text ≠ "" →
      '\n' ∉ p.text.toList ∧ p.text.toList.head?.any Text.isSpace = false →
      '\n' ∉ (p / s).text.toList ∧ (p / s).text.toList.head?.any Text.isSpace = false := by
    intro p s hs hsline hp h
    refine ⟨fun hmem => ?_, ?_⟩
    · rcases Path.mem_text_div hs.isPiece hmem with hmem | hmem | hmem
      · exact h.1 hmem
      · exact absurd hmem (by decide)
      · exact hsline hmem
    · rw [Path.head?_text_div hs.isPiece hp]
      exact h.2
  have hlib : IsName "lib" := by decide
  have hname := isName_libraryFile target
  have hnameline : '\n' ∉ (libraryFile target).toList := by
    have hall : ∀ name ∈ ["libzigbind_foreign.a", "zigbind_foreign.lib"], '\n' ∉ name.toList := by
      decide
    exact hall _ (libraryFile_mem target)
  have hdirect := hdiv hname hnameline hne ⟨hline, hfront⟩
  have hbelow := hdiv hname hnameline (Path.text_div_ne_empty out hlib.isPiece hlib.1)
    (hdiv hlib (by decide) hne ⟨hline, hfront⟩)
  cases mode with
  | merge => exact told_of_line hdirect.1 hdirect.2
  | modularImport => exact told_of_line hdirect.1 hdirect.2
  | modularBuild => exact told_of_line hbelow.1 hbelow.2

theorem isToldRight_artifact (hne : out.text ≠ "") (hline : '\n' ∉ out.text.toList)
    (hfront : out.text.toList.head?.any Text.isSpace = false) (mode : Mode) (target : String) :
    IsToldRight (artifact mode target out) :=
  .inl (told_artifact hne hline hfront mode target)

theorem parse?_empty : parse? "" = none := by decide

/-- What a build finds is what the cache tells of the history before it. -/
theorem found_of_tells {cwd : Place} {es : List Event} {v u : World} {key : String}
    {found : CacheEntry}
    (htold : ∀ mode target, IsToldRight (artifact mode target out))
    (htells : CacheTells out cwd es v) (hcwd : u.cwd = cwd)
    (hkept : Entry.IsKept True (v.tree.get? ((Cache.file out).place cwd))
      (u.tree.get? ((Cache.file out).place cwd)))
    (h : Cache.found u out key = some found) :
    ∃ pre b mid mode target entry, es = pre ++ b :: mid ∧ found.artifact = artifact mode target out ∧
      b.Makes key found.artifact ∧ (∀ x ∈ mid, ¬ x.Writes) ∧
      b.after.tree.get? (found.artifact.place cwd) = some entry ∧
      v.tree.get? (found.artifact.place cwd) = some entry := by
  obtain ⟨content, hread, hparse, hkey, _⟩ := Cache.found_eq_some h
  have hfile : u.tree.get? ((Cache.file out).place cwd) = some (.file content) := by
    obtain ⟨-, hfile | ⟨-, rfl⟩⟩ := World.get?_of_read? hread
    · rwa [hcwd] at hfile
    · rw [parse?_empty] at hparse
      cases hparse
  rcases htells with hnone |
    ⟨pre, b, mid, key', mode, target, time, entry, rfl, hmakes, hword, hcache, hmid, hb, hentry⟩
  · rcases hkept with hsame | ⟨_, hdir, _⟩
    · exact absurd (hsame ▸ hfile) (hnone content)
    · rw [hdir] at hfile
      cases hfile
  · rw [hcache] at hkept
    have hcontent := hkept.of_some
    rw [hfile] at hcontent
    cases hcontent
    rw [parse?_render _ hword] at hparse
    split_ifs at hparse with hcheck
    cases hparse
    have hpath : (⟨String.ofList (told (artifact mode target out))⟩ : Path) =
        artifact mode target out := by
      rw [(htold mode target).resolve_right hcheck.2, String.ofList_toList]
    dsimp only at hkey ⊢
    rw [hpath, ← hkey]
    exact ⟨pre, b, mid, mode, target, entry, rfl, rfl, hmakes, hmid, hb, hentry⟩

/-- A library from the cache was last written by a successful build with the same key, and it is
still what that build left. -/
theorem cached_artifact_current (hout : out.IsWhole)
    (htold : ∀ mode target, IsToldRight (artifact mode target out))
    {w₀ w v v' : World} (hproper : w₀.cwd.IsProper) (hnamed : w₀.tree.IsNamed)
    (hcache : w₀.tree.get? ((Cache.file out).place w₀.cwd) = none)
    {pre post : List Event} {t : Toolchain} {s : Sources} {triple : String} {o : Output}
    (h : History out w₀ (pre ++ .build t s triple v (.ok o) v' :: post) w)
    (hcached : o.isCached = true) :
    ∃ a, o.artifact = some a ∧ v'.exists? a = true ∧ ∃ pre' b mid, pre = pre' ++ b :: mid ∧
      b.Makes o.key a ∧ (∀ x ∈ mid ++ [.build t s triple v (.ok o) v'], ¬ x.Writes) ∧
      v'.tree.get? (a.place w₀.cwd) = b.after.tree.get? (a.place w₀.cwd) := by
  obtain ⟨_, hpre, rfl, _, hrun, _⟩ := h.of_append
  obtain ⟨hcwd, hnamed', htells⟩ : Invariant out w₀.cwd pre v :=
    hpre.invariant hout hproper hnamed hcache
  have hends := build_ends t s triple out v
  rw [hrun] at hends
  generalize hr : (Except.ok o : Except Failure Output) = r at hends
  dsimp only at hends
  cases hends with
  | unknown => cases hr
  | nothing =>
    cases hr
    cases hcached
  | unstaged => cases hr
  | unkeyed => cases hr
  | @hit target text key log st u found _ _ hstage _ _ hfound =>
    cases hr
    obtain ⟨hkept, hcalls⟩ := kept_of_assemble hout hproper hcwd hnamed' hstage
    obtain ⟨pre', b, mid, mode, target', entry, rfl, hpath, hmakes, hmid, hb, hentry⟩ :=
      found_of_tells htold htells hkept.cwd_eq (hkept.entries _ (isLasting_file hout)) hfound
    refine ⟨found.artifact, rfl, (Cache.found_eq_some hfound).choose_spec.2.2.2, pre', b, mid, rfl,
      hmakes, fun x hx => ?_, ?_⟩
    · rcases List.mem_append.1 hx with hx | hx
      · exact hmid x hx
      · rw [List.mem_singleton.1 hx]
        exact not_writes_of_calls hcalls
    · have hlasting := hkept.entries _ (isLasting_artifact hout mode target')
      rw [hpath] at hb hentry ⊢
      rw [hentry] at hlasting
      exact hlasting.of_some.trans hb.symm
  | @miss _ _ _ _ _ _ _ r =>
    cases r with
    | error e => cases hr
    | ok a =>
      cases hr
      cases hcached

/-! ### A compiler to build with -/

/-- A compiler that succeeds where it can write the library. -/
def writingCompiler : Compiler where
  name := "zig"
  run call := fun w =>
    match call.artifact? with
    | none => (⟨0, ""⟩, w)
    | some a =>
      match (Act.put a "library" .fileSystem).runOn w with
      | (.ok _, v) => (⟨0, ""⟩, v)
      | (.error _, v) => (⟨1, "cannot write"⟩, v)

/-- It changes nothing, or puts the library where it should be. -/
theorem writingCompiler_cases (call : CompilerCall) (w : World) :
    ((((writingCompiler.run call).run w).2 = w ∧
      (∀ a, call.artifact? = some a → ((writingCompiler.run call).run w).1.exitCode ≠ 0)) ∨
      ∃ a, call.artifact? = some a ∧ w.locate a = some (a.place w.cwd) ∧
        w.tree.isDirectory (a.place w.cwd) = false ∧
        w.tree.isDirectory (List.dropLast (a.place w.cwd)) = true ∧
        (writingCompiler.run call).run w =
          (⟨0, ""⟩, { w with tree := w.tree.put (a.place w.cwd) (.file "library") })) := by
  simp only [writingCompiler, StateT.run]
  cases ha : call.artifact? with
  | none => exact .inl ⟨rfl, fun a h => by cases h⟩
  | some a =>
    dsimp only
    rcases Act.put_cases w a "library" .fileSystem with hput | ⟨hloc, hdir, hparent, hput⟩
    · have hexit : ¬ (1 : Int) = 0 := by decide
      rw [hput]
      exact .inl ⟨rfl, fun _ _ => hexit⟩
    · rw [hput]
      exact .inr ⟨a, rfl, hloc, hdir, hparent, rfl⟩

theorem writingCompiler_isHonest : writingCompiler.IsHonest where
  cwd call w := by
    rcases writingCompiler_cases call w with ⟨h, _⟩ | ⟨a, _, _, _, _, h⟩
    · rw [h]
    · rw [h]
  calls call w := by
    rcases writingCompiler_cases call w with ⟨h, _⟩ | ⟨a, _, _, _, _, h⟩
    · rw [h]
    · rw [h]
  isNamed call w hproper hnamed := by
    rcases writingCompiler_cases call w with ⟨h, _⟩ | ⟨a, _, _, hdir, _, h⟩
    · rw [h]
      exact hnamed
    · rw [h]
      refine hnamed.put ?_ (Act.isProper_place hproper a)
      intro hnil
      rw [hnil] at hdir
      cases hdir
  kept call w q hq := by
    rcases writingCompiler_cases call w with ⟨h, _⟩ | ⟨a, ha, _, hdir, _, h⟩
    · rw [h]
      exact .inl rfl
    · rw [h] at hq ⊢
      refine .inl (FileTree.get?_put_of_ne fun hqa => ?_)
      exact hq a ha hqa rfl
  written call w a hexit ha := by
    rcases writingCompiler_cases call w with ⟨_, h⟩ | ⟨b, hb, hloc, hdir, _, h⟩
    · exact absurd hexit (h a ha)
    · rw [hb, Option.some.injEq] at ha
      subst ha
      rw [h, World.isFile, World.get?_put hloc hdir]

def exampleToolchain : Toolchain := { compiler := writingCompiler }

def exampleForeign : Sources :=
  { annotations := [{ host := ⟨"/s/a.cpp"⟩, line := 1, code := "const a = 1;" }] }

/-- A build of a fragment into an output directory. -/
def exampleBuild (out : Path) (w : World) : Except Failure Output × World :=
  (build exampleToolchain exampleForeign "" out).runOn w

def exampleEvent (out : Path) (w : World) : Event :=
  .build exampleToolchain exampleForeign "" w (exampleBuild out w).1 (exampleBuild out w).2

theorem exampleEvent_isValid {out : Path} {w : World} {o : Output}
    (h : (exampleBuild out w).1 = .ok o) : (exampleEvent out w).IsValid out := by
  have hrun : exampleBuild out w = ((exampleBuild out w).1, (exampleBuild out w).2) :=
    Prod.mk.eta.symm
  refine ⟨writingCompiler_isHonest, hrun, ?_⟩
  rw [h]
  intro heq
  cases heq

theorem exampleEvent_eq {out : Path} {w : World} {o : Output} (h : (exampleBuild out w).1 = .ok o) :
    exampleEvent out w =
      .build exampleToolchain exampleForeign "" w (.ok o) (exampleBuild out w).2 := by
  rw [exampleEvent, h]

/-- Two builds in a row. -/
theorem exampleHistory {out : Path} {w : World} {o o' : Output} (h : (exampleBuild out w).1 = .ok o)
    (h' : (exampleBuild out (exampleBuild out w).2).1 = .ok o') :
    History out w [exampleEvent out w, exampleEvent out (exampleBuild out w).2]
      (exampleBuild out (exampleBuild out w).2).2 := by
  have hfirst : History out w ([] ++ [exampleEvent out w]) (exampleBuild out w).2 :=
    .step .start rfl (exampleEvent_isValid h)
  exact .step hfirst rfl (exampleEvent_isValid h')

/-- What the output tells of the library. -/
def exampleFound (r : Except Failure Output × World) : Option (Bool × Option Path) :=
  r.1.toOption.map fun o => (o.isCached, o.artifact)

theorem exampleFound_eq_some {r : Except Failure Output × World} {found : Bool × Option Path}
    (h : exampleFound r = some found) :
    ∃ o, r.1 = .ok o ∧ o.isCached = found.1 ∧ o.artifact = found.2 := by
  obtain ⟨result, w⟩ := r
  cases result with
  | error e => cases h
  | ok o =>
    cases h
    exact ⟨o, rfl, rfl, rfl⟩

/-- The second of two builds finds the library of the first. -/
theorem cached_artifact_current_twice :
    ∃ o a, (exampleBuild ⟨"/o"⟩ (exampleBuild ⟨"/o"⟩ {}).2).1 = .ok o ∧ o.isCached = true ∧
      o.artifact = some a ∧ (exampleEvent ⟨"/o"⟩ {}).Makes o.key a := by
  have hfirst : exampleFound (exampleBuild ⟨"/o"⟩ {}) =
      some (false, some ⟨"/o/libzigbind_foreign.a"⟩) := by decide +kernel
  have hsecond : exampleFound (exampleBuild ⟨"/o"⟩ (exampleBuild ⟨"/o"⟩ {}).2) =
      some (true, some ⟨"/o/libzigbind_foreign.a"⟩) := by decide +kernel
  obtain ⟨o, ho, _⟩ := exampleFound_eq_some hfirst
  obtain ⟨o', ho', hcached, _⟩ := exampleFound_eq_some hsecond
  have hhistory : History ⟨"/o"⟩ {} ([exampleEvent ⟨"/o"⟩ {}] ++
      exampleEvent ⟨"/o"⟩ (exampleBuild ⟨"/o"⟩ {}).2 :: []) _ := exampleHistory ho ho'
  rw [exampleEvent_eq ho'] at hhistory
  have hwhole : (⟨"/o"⟩ : Path).IsWhole := by unfold Path.IsWhole; decide
  obtain ⟨a, ha, _, pre, b, mid, heq, hmakes, _⟩ :=
    cached_artifact_current hwhole
      (isToldRight_artifact (by decide) (by decide) (by decide))
      (fun _ h => absurd h List.not_mem_nil) (fun _ h => absurd h List.not_mem_nil) rfl
      hhistory hcached
  refine ⟨o', a, ho', hcached, ha, ?_⟩
  cases pre with
  | nil =>
    cases heq
    exact hmakes
  | cons x pre => exact absurd (congrArg List.length heq) (by simp)

/-- A tree with a file where the line feed of a path would cut the path off. -/
def exampleCut : World := { tree := ⟨[(["o"], .file "")]⟩ }

/-- With a line feed in the path of the output directory, the second of two builds takes another
file for its library, which no build has made. -/
theorem cached_artifact_cut :
    exampleCut.tree.get? ((Cache.file ⟨"o\np"⟩).place exampleCut.cwd) = none ∧
      ∃ o w, History ⟨"o\np"⟩ exampleCut [exampleEvent ⟨"o\np"⟩ exampleCut,
        .build exampleToolchain exampleForeign "" (exampleBuild ⟨"o\np"⟩ exampleCut).2 (.ok o) w] w ∧
      o.isCached = true ∧ o.artifact = some ⟨"o"⟩ ∧
      ∀ key, ¬ (exampleEvent ⟨"o\np"⟩ exampleCut).Makes key ⟨"o"⟩ := by
  have hfirst : exampleFound (exampleBuild ⟨"o\np"⟩ exampleCut) =
      some (false, some ⟨"o\np/libzigbind_foreign.a"⟩) := by decide +kernel
  have hsecond : exampleFound (exampleBuild ⟨"o\np"⟩ (exampleBuild ⟨"o\np"⟩ exampleCut).2) =
      some (true, some ⟨"o"⟩) := by decide +kernel
  obtain ⟨o, ho, _, hartifact⟩ := exampleFound_eq_some hfirst
  obtain ⟨o', ho', hcached, hfound⟩ := exampleFound_eq_some hsecond
  have hhistory := exampleHistory ho ho'
  rw [exampleEvent_eq ho'] at hhistory
  have hnone : exampleCut.tree.get? ((Cache.file ⟨"o\np"⟩).place exampleCut.cwd) = none := by
    decide
  refine ⟨hnone, o', _, hhistory, hcached, hfound, ?_⟩
  rintro key ⟨t, s, triple, w, o'', v, heq, _, hmade, _⟩
  rw [exampleEvent_eq ho] at heq
  cases heq
  rw [hartifact] at hmade
  revert hmade
  decide

end Build
end Bindery
