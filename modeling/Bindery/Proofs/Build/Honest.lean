import Bindery.Proofs.Build.Outcome
import Bindery.Proofs.Staging.Names

/-!
# Honest compilers

A command line names the library that a compiler is to make of it. An honest compiler writes this
library if it succeeds, and changes no other file.
-/
namespace Bindery
open Text

namespace CompilerCall

def emitOption : String := "-femit-bin="

def isEmit (arg : String) : Bool := emitOption.toList.isPrefixOf arg.toList

/-- The library that a command line asks for. A library of a build script is installed below the
directory that the command line gives. -/
def artifact? (call : CompilerCall) : Option Path :=
  match call.args with
  | [] => none
  | command :: args =>
    if command = "build-lib" then
      (args.reverse.find? isEmit).map fun arg =>
        ⟨String.ofList (arg.toList.drop emitOption.toList.length)⟩
    else if command = "build" then do
      let dir ← args[3]?
      let target ← args[4]?
      return Build.artifact .modularBuild (String.ofList (target.toList.drop 9)) ⟨dir⟩
    else none

end CompilerCall

/-- A compiler that writes the artifact of its command line if it succeeds, and changes no other
file in any case. It may make directories. -/
structure Compiler.IsHonest (c : Compiler) : Prop where
  cwd : ∀ call w, ((c.run call).run w).2.cwd = w.cwd
  calls : ∀ call w, ((c.run call).run w).2.calls = w.calls
  isNamed : ∀ call w, w.cwd.IsProper → w.tree.IsNamed → ((c.run call).run w).2.tree.IsNamed
  kept : ∀ call w q, (∀ a, call.artifact? = some a → q = a.place w.cwd →
      ((c.run call).run w).1.exitCode ≠ 0) →
    Entry.IsKept True (w.tree.get? q) (((c.run call).run w).2.tree.get? q)
  written : ∀ call w a, ((c.run call).run w).1.exitCode = 0 → call.artifact? = some a →
    ((c.run call).run w).2.isFile a = true

namespace Target

theorem ofTriple_mem {triple target : String} (h : ofTriple triple = .ok target) :
    target ∈ "native" :: table.map (·.2) := by
  rw [ofTriple, ofTriple?] at h
  split_ifs at h
  · cases h
    exact List.mem_cons_self
  · cases hl : table.lookup triple with
    | none =>
      rw [hl] at h
      cases h
    | some found =>
      rw [hl] at h
      cases h
      obtain ⟨front, back, heq, _⟩ := List.lookup_eq_some_iff.1 hl
      refine List.mem_cons_of_mem _ ?_
      rw [heq]
      simp

end Target

namespace Build
open CompilerCall

theorem isEmit_of_known : ∀ target ∈ "native" :: Target.table.map (·.2), isEmit target = false := by
  decide

theorem isEmit_optimization (profile : String) : isEmit (Target.optimization profile) = false := by
  rw [Target.optimization]
  split_ifs <;> decide

theorem isEmit_emitOption (text : String) : isEmit (emitOption ++ text) = true := by
  rw [isEmit, List.isPrefixOf_iff_prefix, String.toList_append]
  exact List.prefix_append _ _

theorem drop_emitOption (text : String) :
    String.ofList ((emitOption ++ text).toList.drop emitOption.toList.length) = text := by
  rw [String.toList_append, List.drop_left, String.ofList_toList]

theorem find?_emit {front back : List String} {text : String}
    (hback : ∀ arg ∈ back, isEmit arg = false) :
    (front ++ (emitOption ++ text) :: back).reverse.find? isEmit = some (emitOption ++ text) := by
  have hnone : back.reverse.find? isEmit = none := by
    rw [List.find?_eq_none]
    intro arg harg
    rw [hback arg (List.mem_reverse.1 harg)]
    exact Bool.false_ne_true
  rw [List.reverse_append, List.reverse_cons, List.append_assoc, List.find?_append, hnone,
    Option.none_or, List.singleton_append, List.find?_cons_of_pos (isEmit_emitOption text)]

/-- The arguments that follow the name of the library. -/
def lastArgs (target optimization : String) : List String :=
  ["-target", target, "-mcpu=baseline"] ++
    ((if Target.isHosted target then ["-fPIC", "-lc"] else []) ++ ["-O", optimization])

theorem isEmit_lastArgs {triple target : String} (h : Target.ofTriple triple = .ok target)
    (profile : String) : ∀ arg ∈ lastArgs target (Target.optimization profile),
      isEmit arg = false := by
  have hfixed : ∀ arg ∈ ["-target", "-mcpu=baseline", "-fPIC", "-lc", "-O"],
      isEmit arg = false := by decide
  intro arg harg
  have hcases : arg ∈ ["-target", "-mcpu=baseline", "-fPIC", "-lc", "-O"] ∨ arg = target ∨
      arg = Target.optimization profile := by
    rw [lastArgs] at harg
    split_ifs at harg <;> simp only [List.mem_append, List.mem_cons, List.not_mem_nil, or_false,
      false_or] at harg ⊢ <;> tauto
  rcases hcases with harg | rfl | rfl
  · exact hfixed arg harg
  · exact isEmit_of_known _ (Target.ofTriple_mem h)
  · exact isEmit_optimization profile

/-- The command line of a build asks for the library that the build returns. -/
theorem artifact?_compilation {t : Toolchain} {st : Staged} {triple target : String} {out : Path}
    (hmode : st.mode = t.mode) (htarget : Target.ofTriple triple = .ok target) :
    (compilation t st target out).artifact? = some (artifact t.mode target out) := by
  have hlib : ∀ mode, (⟨["build-lib", st.entry.text] ++ auxiliaryArgs st.auxiliary ++
      ["-static", "-femit-bin=" ++ (artifact mode target out).text, "-target", target,
        "-mcpu=baseline"] ++
      (if Target.isHosted target then ["-fPIC", "-lc"] else []) ++
        ["-O", Target.optimization t.profile], out⟩ : CompilerCall).artifact? =
      some (artifact mode target out) := by
    intro mode
    have hargs : ["build-lib", st.entry.text] ++ auxiliaryArgs st.auxiliary ++
        ["-static", "-femit-bin=" ++ (artifact mode target out).text, "-target", target,
          "-mcpu=baseline"] ++
        (if Target.isHosted target then ["-fPIC", "-lc"] else []) ++
          ["-O", Target.optimization t.profile] =
        "build-lib" :: ((st.entry.text :: auxiliaryArgs st.auxiliary ++ ["-static"]) ++
          (emitOption ++ (artifact mode target out).text) ::
            lastArgs target (Target.optimization t.profile)) := by
      simp [lastArgs, emitOption]
    rw [hargs, artifact?]
    dsimp only
    rw [if_pos rfl, find?_emit (isEmit_lastArgs htarget t.profile), Option.map_some, drop_emitOption]
  rw [compilation, compileArgs, hmode]
  cases t.mode with
  | merge => exact hlib .merge
  | modularImport => exact hlib .modularImport
  | modularBuild =>
    have hdrop : String.ofList (("-Dtarget=" ++ target).toList.drop 9) = target := by
      have hlength : "-Dtarget=".toList.length = 9 := by decide
      rw [String.toList_append, List.drop_left' hlength, String.ofList_toList]
    have hother : ¬ "build" = "build-lib" := by decide
    rw [artifact?]
    dsimp only
    rw [if_neg hother, if_pos rfl]
    exact congrArg (fun name => some (artifact .modularBuild name out)) hdrop

theorem artifact?_testRun (t : Toolchain) (st : Staged) (target : String) (out : Path) :
    (testRun t st target out).artifact? = none := by
  have hlib : ¬ "test" = "build-lib" := by decide
  have hbuild : ¬ "test" = "build" := by decide
  rw [testRun, testArgs, artifact?]
  exact (if_neg hlib).trans (if_neg hbuild)

end Build
end Bindery
