import Bindery.Proofs.Build.CommandLine
import Bindery.Proofs.Build.Current
import Bindery.Proofs.Staging.Script
import Bindery.Proofs.Staging.Written
import Bindery.Proofs.World.Writes

/-!
# What a build asks of the compiler

A command line is taken together with the build script that it may name. It tells the processor, the
target, the optimisation, the files that are compiled and the library that is made of them. A build
asks for what it has staged, and for the library that it looks for and remembers afterwards.
-/
namespace Bindery

theorem Path.same_generic (p : Path) : (⟨p.generic⟩ : Path).same p = true := by
  rw [same, components, components, names_generic, isAbsolute_generic, hasSlashAtEnd_generic]
  exact decide_eq_true rfl

/-! ### Requests -/

/-- What a call asks of the compiler. -/
structure Request where
  /-- The file that the compiler begins with. -/
  entry : Path
  processors : List String
  targets : List String
  optimizations : List String
  /-- The libraries that are made. -/
  outputs : List Path
  /-- The C sources that are compiled along, each with its directories for headers. -/
  sources : List (Path × List Path)
  deriving DecidableEq

namespace CompilerCall
open CommandLine

/-- A path on the command line, which is taken from the directory of the call. -/
def path (call : CompilerCall) (text : String) : Path := call.dir.append ⟨text⟩

/-- The request of a command line that makes a library. -/
def libraryRequest? (call : CompilerCall) (args : List String) : Option Request := do
  let as ← read libraryOptions args
  let entry ← (files as).head?
  return {
    entry := call.path entry
    processors := values "-mcpu=" as
    targets := values "-target" as
    optimizations := values "-O" as
    outputs := (values "-femit-bin=" as).map call.path
    sources := (files as).tail.map fun file => (call.path file, (values "-I" as).map call.path) }

/-- The request of a command line that runs a build script. Libraries are installed below the given
directory, under the names that they have for the target. -/
def scriptRequest? (naming : String → String → String) (w : World) (call : CompilerCall)
    (args : List String) : Option Request := do
  let as ← read scriptOptions args
  let script ← (values "--build-file" as).head?
  let dir ← (values "-p" as).head?
  let text ← w.read? (call.path script)
  let reading := BuildScript.read text
  let targets := if reading.takesTarget then values "-Dtarget=" as else []
  return {
    entry := call.path script
    processors := reading.processors.filterMap fun name =>
      (name.toList.dropPrefix? ['.']).map String.ofList
    targets
    optimizations := if reading.takesOptimization then values "-Doptimize=" as else []
    outputs := reading.installed.flatMap fun name =>
      targets.map fun target => call.path dir / "lib" / naming name target
    sources := reading.sources.map fun x => (call.path x.1.text, [call.path x.2.text]) }

/-- The request of a call in a world. -/
def request? (naming : String → String → String) (w : World) (call : CompilerCall) :
    Option Request :=
  match call.args with
  | [] => none
  | command :: args =>
    if command = "build-lib" then call.libraryRequest? args
    else if command = "build" then call.scriptRequest? naming w args
    else none

theorem path_eq {call : CompilerCall} {p : Path} (h : p.isAbsolute = true) :
    call.path p.text = p := by
  rw [path, Path.append, if_pos (.inl h)]

end CompilerCall

namespace Request

/-- A C source is compiled with its own directory among those for headers. -/
def Compiles (src : Path) (x : Path × List Path) : Prop :=
  x.1.same src = true ∧ ∃ dir ∈ x.2, dir.same src.parent = true

/-- A request for what is staged, checked and remembered, with each auxiliary source once and in
order. -/
structure IsFor (r : Request) (t : Toolchain) (st : Staged) (target : String) (out : Path) :
    Prop where
  entry_eq : r.entry = st.entry
  processors_eq : r.processors = ["baseline"]
  targets_eq : r.targets = [target]
  optimizations_eq : r.optimizations = [Target.optimization t.profile]
  outputs_eq : r.outputs = [Build.artifact t.mode target out]
  sources : List.Forall₂ Compiles st.auxiliary r.sources

end Request

namespace Build
open CommandLine CompilerCall
variable {t : Toolchain} {s : Sources} {st : Staged} {w v u : World} {out : Path}
  {target triple : String} {naming : String → String → String} {r : Except Failure Output}

/-- The command line for a library, after the name of the command. -/
def libraryLine (entry : Path) (auxiliary : List Path) (artifact : Path)
    (target optimization : String) : List String :=
  [entry.text] ++ (auxiliaryArgs auxiliary ++
    (["-static"] ++ (["-femit-bin=" ++ artifact.text] ++ lastArgs target optimization)))

def libraryArgs (entry : Path) (auxiliary : List Path) (artifact : Path)
    (target optimization : String) : List Arg :=
  [Arg.file entry.text] ++ (((includeDirs auxiliary).map (Arg.option "-I") ++
    auxiliary.map (Arg.file ·.text)) ++ ([Arg.flag "-static"] ++
      ([Arg.option "-femit-bin=" artifact.text] ++ lastOptions target optimization)))

theorem reads_libraryLine {entry : Path} {auxiliary : List Path}
    (hentry : entry.isAbsolute = true) (haux : ∀ src ∈ auxiliary, src.isAbsolute = true)
    (artifact : Path) (target optimization : String) :
    Reads libraryOptions (libraryLine entry auxiliary artifact target optimization)
      (libraryArgs entry auxiliary artifact target optimization) := by
  have hstatic : Reads libraryOptions ["-static"] [.flag "-static"] :=
    reads_single (by decide) (by decide)
  exact (reads_file hentry).append ((reads_auxiliaryArgs haux).append
    (hstatic.append ((reads_emit _).append (reads_lastArgs target optimization))))

theorem compileArgs_eq_libraryLine (hmode : st.mode ≠ .modularBuild) (optimization : String) :
    compileArgs st target optimization out = "build-lib" :: libraryLine st.entry st.auxiliary
      (artifact st.mode target out) target optimization := by
  rw [compileArgs, libraryLine, lastArgs]
  cases hm : st.mode with
  | modularBuild => exact absurd hm hmode
  | merge => simp
  | modularImport => simp

/-- The library has the name on a target that a build looks for. -/
def NamesLibrary (naming : String → String → String) (target : String) : Prop :=
  naming libraryName target =
    if Target.isMsvc target then libraryName ++ ".lib" else "lib" ++ libraryName ++ ".a"

/-- A source is the same as itself, and so is its directory. -/
theorem compiles_self {src : Path} {dirs : List Path} (h : src.parent ∈ dirs) :
    Request.Compiles src (src, dirs) :=
  ⟨decide_eq_true rfl, src.parent, h, decide_eq_true rfl⟩

/-- The request of the command line for a library. -/
theorem libraryRequest?_eq {entry artifact : Path} {auxiliary : List Path}
    (hentry : entry.isAbsolute = true) (haux : ∀ src ∈ auxiliary, src.isAbsolute = true)
    (hartifact : artifact.isAbsolute = true) (target optimization : String)
    (call : CompilerCall) :
    call.libraryRequest? (libraryLine entry auxiliary artifact target optimization) =
      some {
        entry, processors := ["baseline"], targets := [target], optimizations := [optimization]
        outputs := [artifact]
        sources := auxiliary.map fun src => (src, (includeDirs auxiliary).map call.path) } := by
  have hread := (reads_libraryLine hentry haux artifact target optimization).read_eq
  -- No option has its value twice, and the entry stands before the other files.
  have hfiles : files (libraryArgs entry auxiliary artifact target optimization) =
      entry.text :: auxiliary.map (·.text) := by simp [libraryArgs]
  have hcpu : values "-mcpu=" (libraryArgs entry auxiliary artifact target optimization) =
      ["baseline"] := by simp [libraryArgs]
  have htarget : values "-target" (libraryArgs entry auxiliary artifact target optimization) =
      [target] := by simp [libraryArgs]
  have hoptimize : values "-O" (libraryArgs entry auxiliary artifact target optimization) =
      [optimization] := by simp [libraryArgs]
  have hemit : values "-femit-bin=" (libraryArgs entry auxiliary artifact target optimization) =
      [artifact.text] := by simp [libraryArgs]
  have hinclude : values "-I" (libraryArgs entry auxiliary artifact target optimization) =
      includeDirs auxiliary := by simp [libraryArgs]
  have hsources : (auxiliary.map (·.text)).map (fun file =>
      (call.path file, (includeDirs auxiliary).map call.path)) =
        auxiliary.map fun src => (src, (includeDirs auxiliary).map call.path) := by
    rw [List.map_map]
    refine List.map_congr_left fun src hsrc => ?_
    rw [Function.comp_apply, path_eq (haux src hsrc)]
  simp only [libraryRequest?, hread, hfiles, hcpu, htarget, hoptimize, hemit, hinclude,
    Option.bind_eq_bind, Option.bind_some, List.head?_cons, List.tail_cons, List.map_cons,
    List.map_nil, path_eq hentry, path_eq hartifact, hsources]
  rfl

theorem libraryRequest?_isFor (hentry : st.entry.isAbsolute = true)
    (haux : ∀ src ∈ st.auxiliary, src.isAbsolute = true)
    (hartifact : (artifact t.mode target out).isAbsolute = true) (call : CompilerCall) :
    ∃ r, call.libraryRequest? (libraryLine st.entry st.auxiliary (artifact t.mode target out) target
      (Target.optimization t.profile)) = some r ∧ r.IsFor t st target out := by
  refine ⟨_, libraryRequest?_eq hentry haux hartifact _ _ call, rfl, rfl, rfl, rfl, rfl, ?_⟩
  refine List.forall₂_map_right_iff.2 (List.forall₂_same.2 fun src hsrc => compiles_self ?_)
  have hdir := List.mem_map_of_mem (f := call.path) (mem_includeDirs.2 ⟨src, hsrc, rfl⟩)
  rwa [path_eq (Path.isAbsolute_parent (haux src hsrc))] at hdir

/-- The arguments of the command that runs a build script. -/
def scriptArgs (script out : Path) (target optimization : String) : List Arg :=
  [Arg.option "--build-file" script.text] ++ ([Arg.option "-p" out.text] ++
    ([Arg.option "-Dtarget=" target] ++ [Arg.option "-Doptimize=" optimization]))

theorem reads_scriptLine (script out : Path) (target optimization : String) :
    Reads scriptOptions ["--build-file", script.text, "-p", out.text, "-Dtarget=" ++ target,
      "-Doptimize=" ++ optimization] (scriptArgs script out target optimization) :=
  (reads_apart (by decide) _).append ((reads_apart (by decide) _).append
    ((reads_target target).append (reads_optimize optimization)))

/-- The request of a command line for a build script, by what the script says. -/
theorem scriptRequest?_eq {script : Path} {content : String} (hscript : script.isAbsolute = true)
    (hout : out.isAbsolute = true) (hread : w.read? script = some content)
    (naming : String → String → String) (target optimization : String) (call : CompilerCall) :
    call.scriptRequest? naming w ["--build-file", script.text, "-p", out.text,
      "-Dtarget=" ++ target, "-Doptimize=" ++ optimization] =
      let reading := BuildScript.read content
      let targets := if reading.takesTarget then [target] else []
      some {
        entry := script
        processors := reading.processors.filterMap fun name =>
          (name.toList.dropPrefix? ['.']).map String.ofList
        targets
        optimizations := if reading.takesOptimization then [optimization] else []
        outputs := reading.installed.flatMap fun name =>
          targets.map fun target => out / "lib" / naming name target
        sources := reading.sources.map fun x => (call.path x.1.text, [call.path x.2.text]) } := by
  have hargs := (reads_scriptLine script out target optimization).read_eq
  have hfile : values "--build-file" (scriptArgs script out target optimization) =
      [script.text] := by simp [scriptArgs]
  have hdir : values "-p" (scriptArgs script out target optimization) = [out.text] := by
    simp [scriptArgs]
  have htarget : values "-Dtarget=" (scriptArgs script out target optimization) = [target] := by
    simp [scriptArgs]
  have hoptimize : values "-Doptimize=" (scriptArgs script out target optimization) =
      [optimization] := by simp [scriptArgs]
  simp only [scriptRequest?, hargs, hfile, hdir, htarget, hoptimize, Option.bind_eq_bind,
    Option.bind_some, List.head?_cons, path_eq hscript, path_eq hout, hread]
  rfl

theorem scriptRequest?_isFor (hmode : t.mode = .modularBuild) (hnaming : NamesLibrary naming target)
    (hentry : st.entry.isAbsolute = true) (hout : out.isAbsolute = true)
    (haux : ∀ src ∈ st.auxiliary, src.isAbsolute = true)
    (hspelled : ∀ src ∈ st.auxiliary, BuildScript.IsSpelled src)
    (hread : w.read? st.entry = some (BuildScript.render Staging.entryName st.auxiliary))
    (call : CompilerCall) :
    ∃ r, call.scriptRequest? naming w ["--build-file", st.entry.text, "-p", out.text,
      "-Dtarget=" ++ target, "-Doptimize=" ++ Target.optimization t.profile] = some r ∧
        r.IsFor t st target out := by
  have hreading := BuildScript.read_render hspelled
  have hrequest := scriptRequest?_eq hentry hout hread naming target
    (Target.optimization t.profile) call
  rw [hreading] at hrequest
  have hprocessors : [".baseline"].filterMap (fun name =>
      (name.toList.dropPrefix? ['.']).map String.ofList) = ["baseline"] := by cbv
  have houtputs : [out / "lib" / naming libraryName target] = [artifact t.mode target out] := by
    rw [hmode, hnaming]
    rfl
  refine ⟨_, hrequest, rfl, hprocessors, rfl, rfl, houtputs, ?_⟩
  rw [List.map_map]
  refine List.forall₂_map_right_iff.2 (List.forall₂_same.2 fun src hsrc => ?_)
  have habsolute := haux src hsrc
  have hparent := Path.isAbsolute_parent habsolute
  rw [← Path.isAbsolute_generic] at habsolute hparent
  rw [Function.comp_apply, path_eq habsolute, path_eq hparent]
  exact ⟨Path.same_generic src, _, List.mem_singleton_self _, Path.same_generic src.parent⟩

/-! ### The call of a build -/

theorem isAbsolute_artifact (h : out.isAbsolute = true) (mode : Mode) (target : String) :
    (artifact mode target out).isAbsolute = true := by
  cases mode with
  | merge => exact Path.isAbsolute_div_of_isAbsolute _ h
  | modularImport => exact Path.isAbsolute_div_of_isAbsolute _ h
  | modularBuild =>
    exact Path.isAbsolute_div_of_isAbsolute _ (Path.isAbsolute_div_of_isAbsolute _ h)

theorem isAbsolute_root (h : out.isAbsolute = true) (mode : Mode) :
    (Staging.root out mode).isAbsolute = true := by
  cases mode with
  | merge => exact Path.isAbsolute_div_of_isAbsolute _ h
  | modularImport => exact Path.isAbsolute_div_of_isAbsolute _ h
  | modularBuild => exact Path.isAbsolute_div_of_isAbsolute _ h

/-- The call of a build asks for what was staged, in every mode. -/
theorem request?_compilation (hnaming : t.mode = .modularBuild → NamesLibrary naming target)
    (hout : out.isAbsolute = true)
    (haux : ∀ src ∈ s.auxiliary, src.isAbsolute = true)
    (hspelled : t.mode = .modularBuild → ∀ src ∈ s.auxiliary, BuildScript.IsSpelled src)
    (h : (Staging.assemble s t.mode out).runOn w = (.ok st, v)) :
    ∃ request, (compilation t st target out).request? naming v = some request ∧
      request.IsFor t st target out := by
  obtain ⟨hmode, hroot, hauxiliary⟩ := Staging.assemble_returns t.mode _ _ _ h
  have hentry : st.entry.isAbsolute = true := hroot ▸ isAbsolute_root hout t.mode
  rw [← hauxiliary] at haux hspelled
  by_cases hbuild : t.mode = .modularBuild
  · have hread := (Staging.hasEntry_of_assemble h).read?_script hbuild
    rw [← hauxiliary] at hread
    rw [compilation, compileArgs, hmode, hbuild, request?]
    exact scriptRequest?_isFor hbuild (hnaming hbuild) hentry hout haux (hspelled hbuild) hread _
  · rw [compilation, compileArgs_eq_libraryLine (hmode ▸ hbuild), request?]
    rw [hmode]
    exact libraryRequest?_isFor hentry haux (isAbsolute_artifact hout _ _) _

/-! ### Runs of the compiler -/

/-- How a build goes on from a run of the compiler that should have made a library: it fails if the
library is missing, and it only succeeds if the library exists and is remembered with the key. -/
structure Checks (t : Toolchain) (out library : Path) (key : String) (result : CompilerResult)
    (after : World) (r : Except Failure Output) (u : World) : Prop where
  missing : result.exitCode = 0 → after.exists? library = false →
    r = .error (.build (.noArtifact t.compiler.name library result.diagnostic))
  stored : ∀ o, r = .ok o → result.exitCode = 0 ∧ after.exists? library = true ∧
    o.artifact = some library ∧ o.key = key ∧ u = Cache.stored after out ⟨key, library, after.clock⟩

theorem Ran.calls_eq {call : CompilerCall} {result : CompilerResult}
    (hcompiler : ∀ call w, ((t.compiler.run call).run w).2.calls = w.calls)
    (h : Ran t call w result v) : v.calls = w.calls ++ [call] := by
  obtain ⟨log, hrun⟩ := h
  have hcalls := hcompiler call { w with log, calls := w.calls ++ [call] }
  rwa [hrun] at hcalls

theorem CompileEnds.checks {key : String} {r : Except Failure Path}
    (h : CompileEnds t st target key out w r u) :
    ∃ result after, Ran t (compilation t st target out) w result after ∧ u.calls = after.calls ∧
      Checks t out (artifact t.mode target out) key result after
        (r.map (library out target key false)) u := by
  cases h with
  | @failed result _ hran hexit =>
    exact ⟨result, u, hran, rfl, fun hzero => absurd hzero hexit, fun _ ho => by cases ho⟩
  | @missing result _ hran _ _ =>
    exact ⟨result, u, hran, rfl, fun _ _ => rfl, fun _ ho => by cases ho⟩
  | @unstored result _ hran _ hexists =>
    refine ⟨result, u, hran, rfl, fun _ hmissing => ?_, fun _ ho => by cases ho⟩
    rw [hexists] at hmissing
    cases hmissing
  | @stored result after hran hexit hexists =>
    refine ⟨result, after, hran, rfl, fun _ hmissing => ?_, fun o ho => ?_⟩
    · rw [hexists] at hmissing
      cases hmissing
    · cases ho
      exact ⟨hexit, hexists, rfl, rfl, rfl⟩

/-- What the key of a build covers. -/
theorem mem_keyFiles {file : Path} (h : file ∈ st.files ++ st.auxiliary) :
    ∃ name, (name, file) ∈ keyFiles w st out := by
  rw [keyFiles]
  rcases List.mem_append.1 h with h | h
  · exact ⟨_, List.mem_append_left _ (List.mem_map_of_mem h)⟩
  · exact ⟨_, List.mem_append_right _ (List.mem_map_of_mem (List.mem_append_left _ h))⟩

/-- A build that runs the compiler asks for what it has staged and for the library that it looks for
afterwards and remembers: compiled for a baseline processor, for the target and with the
optimisation that the key covers, from an entry file that is staged, with every auxiliary source
once. In a build script a path has to be spelt with characters that a string can hold. -/
theorem command_matches (hcompiler : ∀ call w, ((t.compiler.run call).run w).2.calls = w.calls)
    (hnaming : t.mode = .modularBuild → ∀ target, Target.ofTriple triple = .ok target →
      NamesLibrary naming target)
    (hout : out.isAbsolute = true) (haux : ∀ src ∈ s.auxiliary, src.isAbsolute = true)
    (hspelled : t.mode = .modularBuild → ∀ src ∈ s.auxiliary, BuildScript.IsSpelled src)
    (hrun : (build t s triple out).runOn w = (r, u)) :
    u.calls = w.calls ∨
      ∃ target st v text call request result after,
        Target.ofTriple triple = .ok target ∧
        (Staging.assemble s t.mode out).runOn w = (.ok st, v) ∧
        keyText v st target (Target.optimization t.profile) out = .ok text ∧
        u.calls = w.calls ++ [call] ∧ Ran t call v result after ∧
        call.request? naming v = some request ∧
        request.processors = ["baseline"] ∧ request.targets = [target] ∧
        request.optimizations = [Target.optimization t.profile] ∧
        request.entry ∈ st.files ∧ v.exists? request.entry = true ∧
        List.Forall₂ Request.Compiles s.auxiliary request.sources ∧
        (∀ file ∈ request.entry :: s.auxiliary, ∃ name, (name, file) ∈ keyFiles v st out) ∧
        ∃ library, request.outputs = [library] ∧
          Checks t out library (Digest.sha256 text) result after r u := by
  have hends := build_ends t s triple out w
  have hwrites {st' : Except Failure Staged} {v : World}
      (h : (Staging.assemble s t.mode out).runOn w = (st', v)) : v.calls = w.calls := by
    obtain ⟨tree, log, rfl⟩ := (World.OnlyWrites.assemble t.mode).of_ok h
    rfl
  rw [hrun] at hends
  cases hends with
  | unknown _ => exact .inl rfl
  | nothing _ _ => exact .inl rfl
  | unstaged hstage => exact .inl (hwrites hstage)
  | unkeyed hstage _ => exact .inl (hwrites hstage)
  | hit _ _ hstage _ _ _ =>
    have hcalls := hwrites hstage
    exact .inl hcalls
  | @miss target text key log st v _ _ htarget _ hstage hkey hsha _ hcompile =>
    -- The only end with a run of the compiler, which starts from the world that staging leaves.
    right
    obtain ⟨result, after, hran, hcalls, hchecks⟩ := hcompile.checks
    obtain ⟨request, hrequest, hfor⟩ :=
      request?_compilation (hnaming · target htarget) hout haux hspelled hstage
    obtain ⟨-, -, hauxiliary⟩ := Staging.assemble_returns t.mode _ _ _ hstage
    obtain ⟨hmem, ⟨content, hread⟩, -⟩ := Staging.hasEntry_of_assemble hstage
    have hstaged := hwrites hstage
    have hentry := hfor.entry_eq
    have hsources := hfor.sources
    rw [hauxiliary] at hsources
    refine ⟨target, st, v, text, _, request, result, after, htarget, hstage, hkey, ?_, hran.of_log,
      hrequest, hfor.processors_eq, hfor.targets_eq, hfor.optimizations_eq, hentry ▸ hmem,
      hentry ▸ World.exists?_of_read? hread, hsources, fun file hfile => ?_, _, hfor.outputs_eq,
      hsha ▸ hchecks⟩
    · rw [hcalls, hran.calls_eq hcompiler]
      exact congrArg (· ++ [compilation t st target out]) hstaged
    · refine mem_keyFiles ?_
      rw [hauxiliary]
      rcases List.mem_cons.1 hfile with rfl | hfile
      · exact List.mem_append_left _ (hentry ▸ hmem)
      · exact List.mem_append_right _ hfile

/-! ### Builds by script -/

/-- The usual names of libraries. -/
def usualNaming (name target : String) : String :=
  if Target.isMsvc target then name ++ ".lib" else "lib" ++ name ++ ".a"

def exampleScripted : Toolchain := { compiler := writingCompiler, mode := .modularBuild }

/-- A fragment with a C source to compile along. -/
def exampleMixed (src : Path) : Sources := { exampleForeign with auxiliary := [src] }

/-- A tree with a C source in a directory, and with a place for libraries. -/
def exampleSite (dir : String) : World where
  tree := ⟨[([dir], .directory), ([dir, "x.c"], .file ""), (["o"], .directory),
    (["o", "lib"], .directory)]⟩

/-- The build of a C source by script. -/
def exampleScriptBuild (src : Path) (w : World) : Except Failure Output × World :=
  (build exampleScripted (exampleMixed src) "" ⟨"/o"⟩).runOn w

def exampleCall : CompilerCall :=
  ⟨["build", "--build-file", "/o/build.zig", "-p", "/o", "-Dtarget=native",
    "-Doptimize=ReleaseFast"], ⟨"/o"⟩⟩

/-- A build by script has its C source compiled, and the library is where it is looked for. -/
theorem command_matches_script :
    (∀ src ∈ (exampleMixed ⟨"/s/x.c"⟩).auxiliary, src.isAbsolute = true) ∧
      (∀ src ∈ (exampleMixed ⟨"/s/x.c"⟩).auxiliary, BuildScript.IsSpelled src) ∧
      ∃ v request, exampleCall.request? usualNaming v = some request ∧
        List.Forall₂ Request.Compiles [⟨"/s/x.c"⟩] request.sources ∧
        request.outputs = [⟨"/o/lib/libzigbind_foreign.a"⟩] := by
  have habsolute : ∀ src ∈ (exampleMixed ⟨"/s/x.c"⟩).auxiliary, src.isAbsolute = true := by decide
  have hspelled : ∀ src ∈ (exampleMixed ⟨"/s/x.c"⟩).auxiliary, BuildScript.IsSpelled src :=
    List.forall_mem_singleton.2
      ⟨List.all_eq_true.1 (by decide +kernel), List.all_eq_true.1 (by decide +kernel)⟩
  have hran : (exampleScriptBuild ⟨"/s/x.c"⟩ (exampleSite "s")).2.calls = [exampleCall] ∧
      exampleFound (exampleScriptBuild ⟨"/s/x.c"⟩ (exampleSite "s")) =
        some (false, some ⟨"/o/lib/libzigbind_foreign.a"⟩) := by decide +kernel
  have hnaming : ∀ target, Target.ofTriple "" = .ok target → NamesLibrary usualNaming target :=
    fun _ _ => rfl
  have hout : (⟨"/o"⟩ : Path).isAbsolute = true := by decide
  refine ⟨habsolute, hspelled, ?_⟩
  cases hrun : exampleScriptBuild ⟨"/s/x.c"⟩ (exampleSite "s") with
  | mk r u =>
  rw [hrun] at hran
  obtain ⟨hcalls, hfound⟩ := hran
  obtain ⟨o, ho, -, hartifact⟩ := exampleFound_eq_some hfound
  rw [exampleScriptBuild] at hrun
  rcases command_matches writingCompiler_isHonest.calls (fun _ => hnaming) hout habsolute
    (fun _ => hspelled) hrun
    with hnone | ⟨target, st, v, text, call, request, result, after, -, -, -, hcall, -, hrequest,
      -, -, -, -, -, hsources, -, library, houtputs, hchecks⟩
  · have hboth := hnone.symm.trans hcalls
    cases hboth
  · obtain rfl : call = exampleCall := List.singleton_inj.1 (hcall.symm.trans hcalls)
    obtain ⟨-, -, hlibrary, -, -⟩ := hchecks.stored o ho
    rw [hartifact, Option.some_inj] at hlibrary
    rw [← hlibrary] at houtputs
    exact ⟨v, request, hrequest, hsources, houtputs⟩

/-- What is staged for a C source in a directory whose name has a line feed. -/
def exampleCutStaged : Staged where
  mode := .modularBuild
  entry := ⟨"/o/build.zig"⟩
  files := [⟨"/o/zigbind_frag_0.zig"⟩, ⟨"/o/zigbind_entry.zig"⟩, ⟨"/o/build.zig"⟩]
  auxiliary := [⟨"/a\nb/x.c"⟩]

/-- A line feed in the path of a C source hides it from the build script that the compiler is given,
so that no request has it compiled. -/
theorem command_matches_cut :
    ∃ v, exampleCall ∈ (exampleScriptBuild ⟨"/a\nb/x.c"⟩ (exampleSite "a\nb")).2.calls ∧
      (Staging.assemble (exampleMixed ⟨"/a\nb/x.c"⟩) .modularBuild ⟨"/o"⟩).runOn
        (exampleSite "a\nb") = (.ok exampleCutStaged, v) ∧
      ∀ naming request, exampleCall.request? naming v = some request →
        ¬ List.Forall₂ Request.Compiles [⟨"/a\nb/x.c"⟩] request.sources := by
  have hcalls : exampleCall ∈ (exampleScriptBuild ⟨"/a\nb/x.c"⟩ (exampleSite "a\nb")).2.calls := by
    decide +kernel
  cases hstage : (Staging.assemble (exampleMixed ⟨"/a\nb/x.c"⟩) .modularBuild ⟨"/o"⟩).runOn
    (exampleSite "a\nb") with
  | mk staged v =>
  have hstaged : ((Staging.assemble (exampleMixed ⟨"/a\nb/x.c"⟩) .modularBuild ⟨"/o"⟩).runOn
    (exampleSite "a\nb")).1.toOption = some exampleCutStaged := by decide +kernel
  rw [hstage] at hstaged
  cases staged with
  | error e => cases hstaged
  | ok st =>
  obtain rfl := Option.some_inj.1 hstaged
  refine ⟨v, hcalls, rfl, fun naming request hrequest hsources => ?_⟩
  have hread := (Staging.hasEntry_of_assemble hstage).read?_script rfl
  have hscript : (⟨"/o/build.zig"⟩ : Path).isAbsolute = true := by decide
  have hout : (⟨"/o"⟩ : Path).isAbsolute = true := by decide
  have heq := scriptRequest?_eq hscript hout hread naming "native" "ReleaseFast" exampleCall
  cases hrequest.symm.trans heq
  dsimp only at hsources
  rw [exampleMixed, BuildScript.sources_render_cut] at hsources
  cases hsources

end Build
end Bindery
