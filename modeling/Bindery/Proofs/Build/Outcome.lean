import Bindery.Build
import Bindery.Proofs.World.Frame

/-!
# How a build ends

Every run of a build ends in one of a few ways, and each tells which of its steps were taken: what
was staged and looked up, whether the compiler ran, and what is written to the cache.
-/
namespace Bindery
open Act

namespace Cache
variable {w : World} {out : Path} {key : String}

/-- The entry that is found for a key. -/
def found (w : World) (out : Path) (key : String) : Option CacheEntry :=
  ((w.read? (file out)).bind CacheEntry.parse?).filter fun e =>
    decide (e.key = key) && w.exists? e.artifact

theorem load_runOn (w : World) (out : Path) :
    ∃ log, (load out).runOn w = (.ok ((w.read? (file out)).bind CacheEntry.parse?),
      { w with log }) := by
  rw [load, runOn_get_bind]
  cases w.read? (file out) with
  | none => exact ⟨w.log, rfl⟩
  | some content =>
    dsimp only
    rw [Option.bind_some]
    cases CacheEntry.parse? content with
    | some entry => exact ⟨w.log, rfl⟩
    | none =>
      exact ⟨w.log ++ w.logger.record
        ⟨.warn, "Ignoring malformed cache file " ++ (file out).text⟩, rfl⟩

/-- Looking up reads the tree only, and leaves at most a note. -/
theorem lookup_runOn (w : World) (out : Path) (key : String) :
    ∃ log, (lookup out key).runOn w = (.ok (found w out key), { w with log }) := by
  obtain ⟨log, hload⟩ := load_runOn w out
  rw [lookup, runOn_bind_of_ok hload, found]
  cases (w.read? (file out)).bind CacheEntry.parse? with
  | none => exact ⟨log, rfl⟩
  | some entry =>
    dsimp only
    rw [Option.filter_some]
    by_cases hkey : entry.key = key
    · rw [if_neg (not_not.2 hkey), runOn_get_bind, decide_eq_true hkey, Bool.true_and]
      change ∃ log', (if w.exists? entry.artifact = true then _ else _ : Act _).runOn _ = _
      cases w.exists? entry.artifact with
      | true => exact ⟨log, rfl⟩
      | false =>
        exact ⟨log ++ w.logger.record
          ⟨.debug, "Cached artifact " ++ entry.artifact.text ++ " is gone"⟩, rfl⟩
    · rw [if_pos hkey, decide_eq_false hkey, Bool.false_and]
      exact ⟨log, rfl⟩

/-- The world after an entry is written. -/
def stored (w : World) (out : Path) (e : CacheEntry) : World :=
  { w with tree := w.tree.put ((file out).place w.cwd) (.file e.render) }

theorem found_eq_some {e : CacheEntry} (h : found w out key = some e) :
    ∃ content, w.read? (file out) = some content ∧ CacheEntry.parse? content = some e ∧
      e.key = key ∧ w.exists? e.artifact = true := by
  rw [found, Option.filter_eq_some_iff, Option.bind_eq_some_iff] at h
  obtain ⟨⟨content, hread, hparse⟩, hcheck⟩ := h
  rw [Bool.and_eq_true, decide_eq_true_eq] at hcheck
  exact ⟨content, hread, hparse, hcheck⟩

end Cache

namespace Build

/-- The run of the compiler that makes the library. -/
def compilation (t : Toolchain) (st : Staged) (target : String) (out : Path) : CompilerCall :=
  ⟨compileArgs st target (Target.optimization t.profile) out, out⟩

/-- A run of the compiler from a world that `w` is but for its log. -/
def Ran (t : Toolchain) (call : CompilerCall) (w : World) (result : CompilerResult) (v : World) :
    Prop :=
  ∃ log, (t.compiler.run call).run { w with log, calls := w.calls ++ [call] } = (result, v)

theorem Ran.of_log {t : Toolchain} {call : CompilerCall} {w v : World} {result : CompilerResult}
    {log : String} (h : Ran t call { w with log } result v) : Ran t call w result v := h

/-- The compiler is run whatever the log is by then. -/
theorem exists_ran (t : Toolchain) (call : CompilerCall) (w : World) (log : String) :
    ∃ result v, (Act.compile t.compiler call).runOn { w with log } = (.ok result, v) ∧
      Ran t call w result v :=
  ⟨_, _, runOn_compile t.compiler call, log, rfl⟩

/-- How the compilation of what is staged ends. -/
inductive CompileEnds (t : Toolchain) (st : Staged) (target key : String) (out : Path)
    (w : World) : Except Failure Path → World → Prop
  | failed {result : CompilerResult} {v : World} : Ran t (compilation t st target out) w result v →
      result.exitCode ≠ 0 →
      CompileEnds t st target key out w
        (.error (.build (.compilerFailed t.compiler.name result.exitCode result.diagnostic))) v
  | missing {result : CompilerResult} {v : World} : Ran t (compilation t st target out) w result v →
      result.exitCode = 0 → v.exists? (artifact t.mode target out) = false →
      CompileEnds t st target key out w (.error (.build
        (.noArtifact t.compiler.name (artifact t.mode target out) result.diagnostic))) v
  | unstored {result : CompilerResult} {v : World} :
      Ran t (compilation t st target out) w result v →
      result.exitCode = 0 → v.exists? (artifact t.mode target out) = true →
      CompileEnds t st target key out w (.error (.file (.cannotWrite (Cache.file out)))) v
  | stored {result : CompilerResult} {v : World} : Ran t (compilation t st target out) w result v →
      result.exitCode = 0 → v.exists? (artifact t.mode target out) = true →
      v.locate (Cache.file out) = some ((Cache.file out).place v.cwd) →
      v.tree.isDirectory ((Cache.file out).place v.cwd) = false →
      v.tree.isDirectory (List.dropLast ((Cache.file out).place v.cwd)) = true →
      CompileEnds t st target key out w (.ok (artifact t.mode target out))
        (Cache.stored v out ⟨key, artifact t.mode target out, v.clock⟩)

theorem compileStaged_ends (t : Toolchain) (st : Staged) (target key : String) (out : Path)
    (w : World) :
    CompileEnds t st target key out w ((compileStaged t st target key out).runOn w).1
      ((compileStaged t st target key out).runOn w).2 := by
  rw [compileStaged]
  obtain ⟨log, hinfo⟩ : ∃ log, (Act.info ("Compiling " ++ toString st.files.length ++
      " foreign files for " ++ target ++ " (" ++ t.mode.name ++ ", " ++
      Target.optimization t.profile ++ ")")).runOn w = (.ok ⟨⟩, { w with log }) := ⟨_, rfl⟩
  rw [runOn_bind_of_ok hinfo, runCompiler, bind_assoc]
  obtain ⟨result, v, hcompile, hran⟩ := exists_ran t (compilation t st target out) w log
  rw [compilation] at hcompile
  rw [runOn_bind_of_ok hcompile]
  by_cases hexit : result.exitCode = 0
  · rw [if_neg (not_not.2 hexit), bind_assoc, runOn_get_bind]
    by_cases hexists : v.exists? (artifact t.mode target out) = true
    · rw [hexists, Bool.not_true, if_neg Bool.false_ne_true, runOn_pure_bind, runOn_get_bind]
      rcases put_cases v (Cache.file out)
          (CacheEntry.render ⟨key, artifact t.mode target out, v.clock⟩)
          (.file (.cannotWrite (Cache.file out))) with hput | ⟨hloc, hdir, hparent, hput⟩
      · have hstore : (Cache.store out ⟨key, artifact t.mode target out, v.clock⟩).runOn v =
          (.error (.file (.cannotWrite (Cache.file out))), v) := hput
        rw [runOn_bind_of_error hstore]
        exact .unstored hran hexit hexists
      · have hstore : (Cache.store out ⟨key, artifact t.mode target out, v.clock⟩).runOn v =
          (.ok ⟨⟩, Cache.stored v out ⟨key, artifact t.mode target out, v.clock⟩) := hput
        rw [runOn_bind_of_ok hstore]
        exact .stored hran hexit hexists hloc hdir hparent
    · rw [Bool.not_eq_true] at hexists
      rw [hexists, Bool.not_false, if_pos rfl, runOn_throw_bind]
      exact .missing hran hexit hexists
  · rw [if_pos hexit]
    exact .failed hran hexit

/-- The output of a build that has or finds a library. -/
def library (out : Path) (target key : String) (isCached : Bool) (artifact : Path) : Output :=
  { outDir := out, target, key, isCached, artifact := some artifact }

/-- How a build of some sources ends. -/
inductive BuildEnds (t : Toolchain) (s : Sources) (triple : String) (out : Path) (w : World) :
    Except Failure Output → World → Prop
  | unknown {fault : BuildFault} : Target.ofTriple triple = .error fault →
      BuildEnds t s triple out w (.error (.build fault)) w
  | nothing {target log : String} : Target.ofTriple triple = .ok target → s.isEmpty = true →
      BuildEnds t s triple out w (.ok { outDir := out, target }) { w with log }
  | unstaged {e : Failure} {v : World} :
      (Staging.assemble s t.mode out).runOn w = (.error e, v) →
      BuildEnds t s triple out w (.error e) v
  | unkeyed {target : String} {st : Staged} {v : World} {e : Failure} :
      (Staging.assemble s t.mode out).runOn w = (.ok st, v) →
      keyText v st target (Target.optimization t.profile) out = .error e →
      BuildEnds t s triple out w (.error e) v
  | hit {target text key log : String} {st : Staged} {v : World} {entry : CacheEntry} :
      Target.ofTriple triple = .ok target → s.isEmpty = false →
      (Staging.assemble s t.mode out).runOn w = (.ok st, v) →
      keyText v st target (Target.optimization t.profile) out = .ok text →
      key = Digest.sha256 text → Cache.found v out key = some entry →
      BuildEnds t s triple out w (.ok (library out target key true entry.artifact)) { v with log }
  | miss {target text key log : String} {st : Staged} {v u : World} {r : Except Failure Path} :
      Target.ofTriple triple = .ok target → s.isEmpty = false →
      (Staging.assemble s t.mode out).runOn w = (.ok st, v) →
      keyText v st target (Target.optimization t.profile) out = .ok text →
      key = Digest.sha256 text → Cache.found v out key = none →
      CompileEnds t st target key out { v with log } r u →
      BuildEnds t s triple out w (r.map (library out target key false)) u

theorem build_ends (t : Toolchain) (s : Sources) (triple : String) (out : Path) (w : World) :
    BuildEnds t s triple out w ((build t s triple out).runOn w).1
      ((build t s triple out).runOn w).2 := by
  rw [build]
  cases htarget : Target.ofTriple triple with
  | error fault =>
    have hrun : (orBuild (.error fault : Except BuildFault String)).runOn w =
      (.error (.build fault), w) := rfl
    rw [runOn_bind_of_error hrun]
    exact .unknown htarget
  | ok target =>
    have hrun : (orBuild (.ok target : Except BuildFault String)).runOn w = (.ok target, w) := rfl
    rw [runOn_bind_of_ok hrun]
    cases hempty : s.isEmpty with
    | true =>
      simp only [if_true, Act.info]
      rw [runOn_bind_of_ok (runOn_note _)]
      exact .nothing htarget hempty
    | false =>
      simp only [Bool.false_eq_true, if_false]
      cases hstage : (Staging.assemble s t.mode out).runOn w with
      | mk staged v =>
        cases staged with
        | error e =>
          rw [runOn_bind_of_error hstage]
          exact .unstaged hstage
        | ok st =>
          rw [runOn_bind_of_ok hstage, runOn_get_bind]
          cases hkey : keyText v st target (Target.optimization t.profile) out with
          | error e => exact .unkeyed hstage hkey
          | ok text =>
            have hok : (ofExcept (.ok text : Except Failure String)).runOn v = (.ok text, v) := rfl
            rw [runOn_bind_of_ok hok]
            generalize hsha : Digest.sha256 text = key
            obtain ⟨log, hlookup⟩ := Cache.lookup_runOn v out key
            rw [runOn_bind_of_ok hlookup]
            cases hfound : Cache.found v out key with
            | some entry =>
              dsimp only
              obtain ⟨log', hinfo⟩ : ∃ log', (Act.info ("Foreign code unchanged (" ++
                  String.ofList (key.toList.take shownDigits) ++ "), using " ++
                  entry.artifact.text)).runOn { v with log } =
                  (.ok ⟨⟩, { v with log := log' }) := ⟨_, runOn_info _⟩
              rw [runOn_bind_of_ok hinfo, runOn_pure]
              exact .hit htarget hempty hstage hkey hsha.symm hfound
            | none =>
              have hends := compileStaged_ends t st target key out { v with log }
              cases hc : (compileStaged t st target key out).runOn { v with log } with
              | mk r u =>
                rw [hc] at hends
                cases r with
                | error e =>
                  rw [runOn_bind_of_error hc]
                  exact .miss htarget hempty hstage hkey hsha.symm hfound hends
                | ok a =>
                  rw [runOn_bind_of_ok hc]
                  exact .miss htarget hempty hstage hkey hsha.symm hfound hends

theorem BuildEnds.of_runOn {t : Toolchain} {s : Sources} {triple : String} {out : Path}
    {w v : World} {r : Except Failure Output} (h : (build t s triple out).runOn w = (r, v)) :
    BuildEnds t s triple out w r v := by
  have hends := build_ends t s triple out w
  rwa [h] at hends

/-- How a build succeeds: with nothing to compile, with a library from the cache or with one that the
compiler has made. -/
inductive BuildSucceeds (t : Toolchain) (s : Sources) (triple : String) (out : Path) (w : World) :
    Output → World → Prop
  | nothing {target log : String} : Target.ofTriple triple = .ok target → s.isEmpty = true →
      BuildSucceeds t s triple out w { outDir := out, target } { w with log }
  | hit {target text log : String} {st : Staged} {v : World} {entry : CacheEntry} :
      Target.ofTriple triple = .ok target → s.isEmpty = false →
      (Staging.assemble s t.mode out).runOn w = (.ok st, v) →
      keyText v st target (Target.optimization t.profile) out = .ok text →
      Cache.found v out (Digest.sha256 text) = some entry →
      BuildSucceeds t s triple out w (library out target (Digest.sha256 text) true entry.artifact)
        { v with log }
  | made {target text : String} {st : Staged} {u v : World} {result : CompilerResult} :
      Target.ofTriple triple = .ok target → s.isEmpty = false →
      (Staging.assemble s t.mode out).runOn w = (.ok st, u) →
      keyText u st target (Target.optimization t.profile) out = .ok text →
      Ran t (compilation t st target out) u result v →
      v.exists? (artifact t.mode target out) = true →
      v.locate (Cache.file out) = some ((Cache.file out).place v.cwd) →
      v.tree.isDirectory ((Cache.file out).place v.cwd) = false →
      v.tree.isDirectory (List.dropLast ((Cache.file out).place v.cwd)) = true →
      BuildSucceeds t s triple out w
        (library out target (Digest.sha256 text) false (artifact t.mode target out))
        (Cache.stored v out ⟨Digest.sha256 text, artifact t.mode target out, v.clock⟩)

theorem build_succeeds {t : Toolchain} {s : Sources} {triple : String} {out : Path} {w v : World}
    {o : Output} (h : (build t s triple out).runOn w = (.ok o, v)) :
    BuildSucceeds t s triple out w o v := by
  have hends := BuildEnds.of_runOn h
  generalize hr : (Except.ok o : Except Failure Output) = r at hends
  cases hends with
  | unknown | unstaged | unkeyed => cases hr
  | nothing htarget hempty =>
    cases hr
    exact .nothing htarget hempty
  | hit htarget hempty hstage hkey hsha hfound =>
    cases hr
    subst hsha
    exact .hit htarget hempty hstage hkey hfound
  | miss htarget hempty hstage hkey hsha _ hcompile =>
    subst hsha
    cases hcompile with
    | failed | missing | unstored => cases hr
    | stored hran _ hexists hloc hdir hparent =>
      cases hr
      exact .made htarget hempty hstage hkey hran.of_log hexists hloc hdir hparent

/-- The directory in which tests are staged. -/
def testDir (out : Path) : Path := out / "zig-test"

/-- The run of the compiler that runs the tests. -/
def testRun (t : Toolchain) (st : Staged) (target : String) (out : Path) : CompilerCall :=
  ⟨testArgs st target (Target.optimization t.profile), testDir out⟩

/-- How a run of the tests ends. -/
inductive TestsEnd (t : Toolchain) (s : Sources) (out : Path) (w : World) : World → Prop
  | quiet {log : String} : TestsEnd t s out w { w with log }
  | unstaged {e : Failure} {v : World} :
      (Staging.assemble s .merge (testDir out)).runOn w = (.error e, v) → TestsEnd t s out w v
  | ran {target log : String} {st : Staged} {u v : World} {result : CompilerResult} :
      (Staging.assemble s .merge (testDir out)).runOn w = (.ok st, u) →
      Ran t (testRun t st target out) u result v → TestsEnd t s out w { v with log }

theorem runTests_ends (t : Toolchain) (s : Sources) (triple : String) (out : Path) (w : World) :
    TestsEnd t s out w ((runTests t s triple out).runOn w).2 := by
  rw [runTests]
  cases htarget : Target.ofTriple triple with
  | error fault =>
    have hrun : (orBuild (.error fault : Except BuildFault String)).runOn w =
      (.error (.build fault), w) := rfl
    rw [runOn_bind_of_error hrun]
    exact .quiet
  | ok target =>
    have hrun : (orBuild (.ok target : Except BuildFault String)).runOn w = (.ok target, w) := rfl
    rw [runOn_bind_of_ok hrun]
    cases hempty : s.isEmpty with
    | true =>
      simp only [if_true, Act.info]
      rw [runOn_bind_of_ok (runOn_note _)]
      exact .quiet
    | false =>
      simp only [Bool.false_eq_true, if_false]
      cases hstage : (Staging.assemble s .merge (testDir out)).runOn w with
      | mk staged u =>
        rw [testDir] at hstage
        cases staged with
        | error e =>
          rw [runOn_bind_of_error hstage]
          exact .unstaged hstage
        | ok st =>
          rw [runOn_bind_of_ok hstage]
          obtain ⟨log, hinfo⟩ : ∃ log, (Act.info ("Running foreign tests for " ++ target)).runOn u =
              (.ok ⟨⟩, { u with log }) := ⟨_, runOn_info _⟩
          rw [runOn_bind_of_ok hinfo]
          obtain ⟨result, v, hcompile, hran⟩ := exists_ran t (testRun t st target out) u log
          rw [testRun, testDir] at hcompile
          rw [runOn_bind_of_ok hcompile]
          by_cases hexit : result.exitCode = 0
          · rw [if_neg (not_not.2 hexit)]
            cases hd : result.diagnostic.isEmpty with
            | true => exact .ran hstage hran
            | false =>
              simp only [Bool.not_false, if_true, Act.info, runOn_note]
              exact .ran hstage hran
          · rw [if_pos hexit]
            exact .ran hstage hran

end Build
end Bindery
