import Bindery.Proofs.Build.Current

/-!
# Who wrote a library

A build that runs the compiler looks for the library only afterwards, and takes whatever it finds at
its path. So in a series of builds into one output directory, with compilers that may write anything
or nothing, the library of a build that succeeds was written by its own run of the compiler or is
left over: an earlier run was the last to write it, or it was there before the series.
-/
namespace Bindery
open Act

/-- A compiler that may fail, and may write anything or nothing, but stays in its directory, runs no
other compiler, and leaves a tree of proper names. -/
structure Compiler.IsContained (c : Compiler) : Prop where
  cwd : ∀ call w, ((c.run call).run w).2.cwd = w.cwd
  calls : ∀ call w, ((c.run call).run w).2.calls = w.calls
  isNamed : ∀ call w, w.cwd.IsProper → w.tree.IsNamed → ((c.run call).run w).2.tree.IsNamed

theorem Compiler.IsHonest.isContained {c : Compiler} (h : c.IsHonest) : c.IsContained :=
  ⟨h.cwd, h.calls, h.isNamed⟩

namespace Build

/-- A call of the build and what it has led to. -/
structure Call where
  toolchain : Toolchain
  sources : Sources
  triple : String
  before : World
  result : Except Failure Output
  after : World

namespace Call

def IsOf (out : Path) (b : Call) : Prop :=
  (build b.toolchain b.sources b.triple out).runOn b.before = (b.result, b.after)

/-- What is staged, and the world that the compiler starts from. -/
def Stages (out : Path) (b : Call) (st : Staged) (u : World) : Prop :=
  (Staging.assemble b.sources b.toolchain.mode out).runOn b.before = (.ok st, u)

/-- After staging the entry of a place has changed. -/
def Writes (out : Path) (b : Call) (q : Place) : Prop :=
  ∃ st u, b.Stages out st u ∧ b.after.tree.get? q ≠ u.tree.get? q

end Call

/-- Builds into one output directory, each from where the one before has led to. -/
inductive Series (out : Path) (w₀ : World) : List Call → World → Prop
  | start : Series out w₀ [] w₀
  | step {bs : List Call} {w : World} {b : Call} : Series out w₀ bs w → b.before = w →
      b.IsOf out → b.toolchain.compiler.IsContained → Series out w₀ (bs ++ [b]) b.after

/-- Where the file at a place comes from, once some builds have been made: one of them was the last
to write it, or it was there before them. -/
def LeftBy (out : Path) (w₀ : World) (bs : List Call) (q : Place) (content : String) : Prop :=
  (∃ pre b mid, bs = pre ++ b :: mid ∧ b.Writes out q ∧
    b.after.tree.get? q = some (.file content) ∧ ∀ x ∈ mid, ¬ x.Writes out q) ∨
  (w₀.tree.get? q = some (.file content) ∧ ∀ x ∈ bs, ¬ x.Writes out q)

variable {out : Path} {cwd : Place} {w₀ w : World} {b : Call}

/-! ### One build -/

theorem Ran.contained {t : Toolchain} {call : CompilerCall} {r : CompilerResult} {u x : World}
    (ht : t.compiler.IsContained) (h : Ran t call u r x) (hproper : u.cwd.IsProper)
    (hnamed : u.tree.IsNamed) :
    x.cwd = u.cwd ∧ x.tree.IsNamed ∧ x.calls = u.calls ++ [call] := by
  obtain ⟨log, hrun⟩ := h
  have hworld : ((t.compiler.run call).run { u with log, calls := u.calls ++ [call] }).2 = x := by
    rw [hrun]
  rw [← hworld, ht.cwd, ht.calls]
  exact ⟨rfl, ht.isNamed _ _ hproper hnamed, rfl⟩

/-- A world in the same directory with a tree of proper names. -/
def IsSettled (cwd : Place) (w : World) : Prop := w.cwd = cwd ∧ w.tree.IsNamed

/-- A build stays in its directory. -/
theorem isSettled_after (hout : out.IsWhole) (hproper : cwd.IsProper) (h : b.IsOf out)
    (ht : b.toolchain.compiler.IsContained) (hb : IsSettled cwd b.before) :
    IsSettled cwd b.after := by
  obtain ⟨t, s, triple, before, result, after⟩ := b
  obtain ⟨hcwd, hnamed⟩ := hb
  have hends : BuildEnds t s triple out before result after := .of_runOn h
  cases hends with
  | unknown | nothing => exact ⟨hcwd, hnamed⟩
  | unstaged hstage | unkeyed hstage | hit _ _ hstage =>
    have hkept := (kept_of_assemble hout hproper hcwd hnamed hstage).1
    exact ⟨hkept.cwd_eq, hkept.isNamed⟩
  | @miss target text key log st u _ r _ _ hstage _ _ _ hcompile =>
    have hkept := (kept_of_assemble hout hproper hcwd hnamed hstage).1
    have hran : ∀ {r : CompilerResult} {x : World}, Ran t (compilation t st target out) u r x →
        IsSettled cwd x := by
      intro r x hran
      have hproper' : u.cwd.IsProper := by
        rw [hkept.cwd_eq]
        exact hproper
      obtain ⟨hcwd', hnamed', _⟩ := hran.contained ht hproper' hkept.isNamed
      exact ⟨hcwd'.trans hkept.cwd_eq, hnamed'⟩
    cases hcompile with
    | failed hrun | missing hrun | unstored hrun => exact hran hrun.of_log
    | @stored r x hrun _ _ _ hdir _ =>
      obtain ⟨hcwd', hnamed'⟩ := hran hrun.of_log
      refine ⟨hcwd', FileTree.IsNamed.put hnamed' ?_ ?_⟩
      · intro hnil
        rw [hnil] at hdir
        cases hdir
      · rw [hcwd']
        exact Act.isProper_place hproper _

/-- A file at a lasting place was written by the build, or it was there before. -/
theorem writes_or_kept (hout : out.IsWhole) (hproper : cwd.IsProper) (h : b.IsOf out)
    (hb : IsSettled cwd b.before) {q : Place} (hq : IsLasting (out.place cwd) q) {content : String}
    (hfile : b.after.tree.get? q = some (.file content)) :
    b.Writes out q ∨ b.before.tree.get? q = some (.file content) := by
  obtain ⟨t, s, triple, before, result, after⟩ := b
  obtain ⟨hcwd, hnamed⟩ := hb
  -- what is staged leaves the file where it was
  have hstaged : ∀ {r : Except Failure Staged} {u : World},
      (Staging.assemble s t.mode out).runOn before = (r, u) →
      u.tree.get? q = some (.file content) → before.tree.get? q = some (.file content) := by
    intro r u hstage hu
    have hkept := (kept_of_assemble hout hproper hcwd hnamed hstage).1.entries q hq
    rcases hkept with hsame | ⟨_, hdir, _⟩
    · rw [← hsame, hu]
    · rw [hdir] at hu
      cases hu
  have hends : BuildEnds t s triple out before result after := .of_runOn h
  cases hends with
  | unknown | nothing => exact .inr hfile
  | unstaged hstage | unkeyed hstage | hit _ _ hstage => exact .inr (hstaged hstage hfile)
  | @miss target text key log st u _ r _ _ hstage =>
    by_cases hsame : after.tree.get? q = u.tree.get? q
    · exact .inr (hstaged hstage (hsame ▸ hfile))
    · exact .inl ⟨st, u, hstage, hsame⟩

/-! ### A series of builds -/

theorem Series.isSettled (hout : out.IsWhole) (hproper : w₀.cwd.IsProper)
    (hnamed : w₀.tree.IsNamed) {bs : List Call} (h : Series out w₀ bs w) :
    IsSettled w₀.cwd w := by
  induction h with
  | start => exact ⟨rfl, hnamed⟩
  | step _ hbefore hof ht ih =>
    subst hbefore
    exact isSettled_after hout hproper hof ht ih

theorem LeftBy.step {bs : List Call} {q : Place} {content : String}
    (h : LeftBy out w₀ bs q content) (hb : ¬ b.Writes out q) :
    LeftBy out w₀ (bs ++ [b]) q content := by
  have hall : ∀ {l : List Call}, (∀ x ∈ l, ¬ x.Writes out q) → ∀ x ∈ l ++ [b], ¬ x.Writes out q := by
    intro l hl x hx
    rcases List.mem_append.1 hx with hx | hx
    · exact hl x hx
    · rw [List.mem_singleton.1 hx]
      exact hb
  rcases h with ⟨pre, b', mid, rfl, hwrites, hfile, hmid⟩ | ⟨hfile, hbs⟩
  · exact .inl ⟨pre, b', mid ++ [b], by simp, hwrites, hfile, hall hmid⟩
  · exact .inr ⟨hfile, hall hbs⟩

/-- Every file at a lasting place has its origin in the series or before it. -/
theorem Series.leftBy (hout : out.IsWhole) (hproper : w₀.cwd.IsProper) (hnamed : w₀.tree.IsNamed)
    {bs : List Call} (h : Series out w₀ bs w) {q : Place}
    (hq : IsLasting (out.place w₀.cwd) q) {content : String}
    (hfile : w.tree.get? q = some (.file content)) : LeftBy out w₀ bs q content := by
  induction h with
  | start => exact .inr ⟨hfile, fun _ hx => absurd hx List.not_mem_nil⟩
  | @step bs w b hseries hbefore hof ht ih =>
    subst hbefore
    have hsettled := hseries.isSettled hout hproper hnamed
    by_cases hwrites : b.Writes out q
    · exact .inl ⟨bs, b, [], rfl, hwrites, hfile, fun _ hx => absurd hx List.not_mem_nil⟩
    · have hkept := (writes_or_kept hout hproper hof hsettled hq hfile).resolve_left hwrites
      exact (ih hkept).step hwrites

theorem Series.of_append {pre post : List Call} (h : Series out w₀ (pre ++ b :: post) w) :
    ∃ v, Series out w₀ pre v ∧ b.before = v ∧ b.IsOf out ∧ b.toolchain.compiler.IsContained := by
  induction post using List.reverseRecOn generalizing w with
  | nil =>
    generalize hbs : pre ++ [b] = bs at h
    cases h with
    | start => exact absurd hbs (by simp)
    | step hpre hbefore hof ht =>
      obtain ⟨rfl, hlast⟩ := List.append_inj' hbs rfl
      obtain rfl := List.singleton_inj.1 hlast
      exact ⟨_, hpre, hbefore, hof, ht⟩
  | append_singleton post last ih =>
    generalize hbs : pre ++ b :: (post ++ [last]) = bs at h
    cases h with
    | start => exact absurd hbs (by simp)
    | step hpre hbefore hof ht =>
      rw [← List.cons_append, ← List.append_assoc] at hbs
      obtain ⟨rfl, _⟩ := List.append_inj' hbs rfl
      exact ih hpre

/-- How a build ends that has run the compiler for a library. -/
structure Call.Ends (out : Path) (b : Call) (library : Path) (r : CompilerResult) (x : World) :
    Prop where
  failed : r.exitCode ≠ 0 → b.after = x ∧
    b.result = .error (.build (.compilerFailed b.toolchain.compiler.name r.exitCode r.diagnostic))
  /-- Nothing is cached where the library is missing. -/
  missing : r.exitCode = 0 → x.exists? library = false → b.after = x ∧
    b.result = .error (.build (.noArtifact b.toolchain.compiler.name library r.diagnostic))
  stored : ∀ o, b.result = .ok o → o.isCached = false ∧ o.artifact = some library ∧
    r.exitCode = 0 ∧ x.exists? library = true ∧
    b.after = Cache.stored x out ⟨o.key, library, x.clock⟩

/-- A build does not run the compiler, or it stages the sources, runs the compiler on them and ends
as the run tells. -/
theorem idle_or_ends (hout : out.IsWhole) (hproper : cwd.IsProper) (h : b.IsOf out)
    (hb : IsSettled cwd b.before) :
    (b.after.calls = b.before.calls ∧
      ∀ o, b.result = .ok o → o.isCached = true ∨ o.artifact = none) ∨
    ∃ target st u r x, Target.ofTriple b.triple = .ok target ∧ b.Stages out st u ∧
      Ran b.toolchain (compilation b.toolchain st target out) u r x ∧
      b.Ends out (artifact b.toolchain.mode target out) r x := by
  obtain ⟨t, s, triple, before, result, after⟩ := b
  obtain ⟨hcwd, hnamed⟩ := hb
  have hends : BuildEnds t s triple out before result after := .of_runOn h
  cases hends with
  | unknown => exact .inl ⟨rfl, fun o ho => by cases ho⟩
  | nothing => exact .inl ⟨rfl, fun o ho => by cases ho; exact .inr rfl⟩
  | unstaged hstage | unkeyed hstage =>
    exact .inl ⟨(kept_of_assemble hout hproper hcwd hnamed hstage).2, fun o ho => by cases ho⟩
  | hit _ _ hstage =>
    exact .inl ⟨(kept_of_assemble hout hproper hcwd hnamed hstage).2,
      fun o ho => by cases ho; exact .inl rfl⟩
  | @miss target text key log st u _ r htarget _ hstage _ _ _ hcompile =>
    right
    cases hcompile with
    | @failed r x hrun hexit =>
      refine ⟨target, st, u, r, _, htarget, hstage, hrun.of_log, fun _ => ⟨rfl, rfl⟩,
        fun hzero => absurd hzero hexit, fun o ho => by cases ho⟩
    | @missing r x hrun hexit hmissing =>
      refine ⟨target, st, u, r, _, htarget, hstage, hrun.of_log, fun hne => absurd hexit hne,
        fun _ _ => ⟨rfl, rfl⟩, fun o ho => by cases ho⟩
    | @unstored r x hrun hexit hexists =>
      refine ⟨target, st, u, r, _, htarget, hstage, hrun.of_log, fun hne => absurd hexit hne,
        fun _ hmissing => ?_, fun o ho => by cases ho⟩
      rw [hexists] at hmissing
      cases hmissing
    | @stored r x hrun hexit hexists =>
      refine ⟨target, st, u, r, _, htarget, hstage, hrun.of_log, fun hne => absurd hexit hne,
        fun _ hmissing => ?_, fun o ho => ?_⟩
      · rw [hexists] at hmissing
        cases hmissing
      · cases ho
        exact ⟨rfl, rfl, hexit, hexists, rfl⟩

/-- The library of a build that has run the compiler is its own or left over. A compiler that
succeeds without a library at the path makes the build fail, and nothing is cached then. -/
theorem fresh_or_left (hout : out.IsWhole) (hproper : w₀.cwd.IsProper) (hnamed : w₀.tree.IsNamed)
    {pre post : List Call} (h : Series out w₀ (pre ++ b :: post) w) :
    (b.after.calls = b.before.calls ∧
      ∀ o, b.result = .ok o → o.isCached = true ∨ o.artifact = none) ∨
    ∃ target st u r x, Target.ofTriple b.triple = .ok target ∧ b.Stages out st u ∧
      Ran b.toolchain (compilation b.toolchain st target out) u r x ∧
      b.Ends out (artifact b.toolchain.mode target out) r x ∧
      ∀ q, q = (artifact b.toolchain.mode target out).place w₀.cwd →
        u.tree.get? q ≠ x.tree.get? q ∨
          match x.tree.get? q with
          | none => True
          | some .directory => u.tree.get? q = some .directory
          | some (.file content) => b.before.tree.get? q = some (.file content) ∧
              LeftBy out w₀ pre q content := by
  obtain ⟨v, hpre, rfl, hof, ht⟩ := h.of_append
  have hsettled := hpre.isSettled hout hproper hnamed
  refine (idle_or_ends hout hproper hof hsettled).imp_right ?_
  rintro ⟨target, st, u, r, x, htarget, hstage, hran, hends⟩
  refine ⟨target, st, u, r, x, htarget, hstage, hran, hends, ?_⟩
  intro q hplace
  by_cases hu : u.tree.get? q = x.tree.get? q
  · right
    rw [← hu]
    cases hentry : u.tree.get? q with
    | none => exact trivial
    | some e =>
      cases e with
      | directory => exact rfl
      | file content =>
        have hq : IsLasting (out.place w₀.cwd) q := by
          rw [hplace]
          exact isLasting_artifact hout b.toolchain.mode target
        have hkept := (kept_of_assemble hout hproper hsettled.1 hsettled.2 hstage).1.entries q hq
        rw [hentry] at hkept
        have hbefore : b.before.tree.get? q = some (.file content) := by
          rcases hkept with hsame | ⟨_, hdir, _⟩
          · exact hsame.symm
          · cases hdir
        exact ⟨hbefore, hpre.leftBy hout hproper hnamed hq hbefore⟩
  · exact .inl hu

/-! ### Two compilers -/

/-- A compiler that tells of success and does nothing. -/
def silentCompiler : Compiler := ⟨"silent", fun _ => pure ⟨0, ""⟩⟩

theorem silentCompiler_isContained : silentCompiler.IsContained :=
  ⟨fun _ _ => rfl, fun _ _ => rfl, fun _ _ _ h => h⟩

/-- A call of the build from a world. -/
def callFrom (t : Toolchain) (code : String) (out : Path) (w : World) : Call :=
  let s : Sources := { annotations := [{ host := ⟨"/s/a.cpp"⟩, line := 1, code }] }
  let r := (build t s "" out).runOn w
  ⟨t, s, "", w, r.1, r.2⟩

theorem callFrom_isOf (t : Toolchain) (code : String) (out : Path) (w : World) :
    (callFrom t code out w).IsOf out :=
  Prod.mk.eta.symm

def firstCall : Call := callFrom exampleToolchain "const a = 1;" ⟨"/o"⟩ {}

theorem series_firstCall : Series ⟨"/o"⟩ {} [firstCall] firstCall.after :=
  .step .start rfl (callFrom_isOf _ _ _ _) writingCompiler_isHonest.isContained

/-- The first build of an empty directory has a library of its own. -/
theorem fresh_or_left_first :
    ∃ o st u r x, firstCall.result = .ok o ∧ firstCall.Stages ⟨"/o"⟩ st u ∧
      firstCall.Ends ⟨"/o"⟩ ⟨"/o/libzigbind_foreign.a"⟩ r x ∧
      ∀ content, x.tree.get? ["o", "libzigbind_foreign.a"] = some (.file content) →
        u.tree.get? ["o", "libzigbind_foreign.a"] ≠ some (.file content) := by
  have hfound : exampleFound (firstCall.result, firstCall.after) =
      some (false, some ⟨"/o/libzigbind_foreign.a"⟩) := by decide +kernel
  obtain ⟨o, ho, hcached, hartifact⟩ := exampleFound_eq_some hfound
  have hwhole : (⟨"/o"⟩ : Path).IsWhole := by
    unfold Path.IsWhole
    decide
  have hplace : (artifact .merge "native" ⟨"/o"⟩).place [] = ["o", "libzigbind_foreign.a"] := by
    decide
  have hseries : Series ⟨"/o"⟩ {} ([] ++ firstCall :: []) firstCall.after := series_firstCall
  rcases fresh_or_left hwhole (fun _ h => absurd h List.not_mem_nil)
      (fun _ h => absurd h List.not_mem_nil) hseries with
    ⟨-, hidle⟩ | ⟨target, st, u, r, x, htarget, hstage, -, hends, hfresh⟩
  · rcases hidle o ho with h | h
    · rw [hcached] at h
      cases h
    · rw [hartifact] at h
      cases h
  · cases htarget
    refine ⟨o, st, u, r, x, ho, hstage, hends, fun content hcontent => ?_⟩
    rcases hfresh _ hplace.symm with hwritten | hleft
    · exact hcontent ▸ hwritten
    · rw [hcontent] at hleft
      cases hleft.1

/-- A second build of other code, with a compiler that does nothing. -/
def secondCall : Call := callFrom { compiler := silentCompiler } "const a = 2;" ⟨"/o"⟩ firstCall.after

/-- The compiler of the second build has run and has written nothing, and still the build succeeds
with the library of the first. -/
theorem not_fresh_silent :
    Series ⟨"/o"⟩ {} [firstCall, secondCall] secondCall.after ∧
      secondCall.after.calls.length = secondCall.before.calls.length + 1 ∧
      (∀ call w, ((secondCall.toolchain.compiler.run call).run w).2 = w) ∧
      ∃ o, secondCall.result = .ok o ∧ o.isCached = false ∧
        o.artifact = some ⟨"/o/libzigbind_foreign.a"⟩ := by
  have hrun : exampleFound (secondCall.result, secondCall.after) =
        some (false, some ⟨"/o/libzigbind_foreign.a"⟩) ∧
      secondCall.after.calls.length = secondCall.before.calls.length + 1 := by decide +kernel
  exact ⟨.step series_firstCall rfl (callFrom_isOf _ _ _ _) silentCompiler_isContained, hrun.2,
    fun _ _ => rfl, exampleFound_eq_some hrun.1⟩

end Build
end Bindery
