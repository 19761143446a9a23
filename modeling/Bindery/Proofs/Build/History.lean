import Bindery.Proofs.Build.Honest
import Bindery.Proofs.Cache.Line
import Bindery.Proofs.Staging.Assemble
import Bindery.Proofs.Staging.Frame

/-!
# Histories of an output directory

Builds, runs of the tests and edits by others follow one another in any order. The one entry of the
cache tells of the last build that made a library, and this library is still what that build left:
any compilation in between has failed, and nothing else writes where the library lies.
-/
namespace Bindery.Build
open Bindery.Path (IsName)

/-- What happens between two worlds. -/
inductive Event
  | edit (before after : World)
  | build (t : Toolchain) (s : Sources) (triple : String) (before : World)
      (result : Except Failure Output) (after : World)
  | tests (t : Toolchain) (s : Sources) (triple : String) (before after : World)

namespace Event

def before : Event → World
  | edit w _ => w
  | build _ _ _ w _ _ => w
  | tests _ _ _ w _ => w

def after : Event → World
  | edit _ v => v
  | build _ _ _ _ _ v => v
  | tests _ _ _ _ v => v

/-- The runs of the compiler. -/
def runs (e : Event) : List CompilerCall := e.after.calls.drop e.before.calls.length

def CompilerFailed : Event → Prop
  | build _ _ _ _ (.error (.build (.compilerFailed _ _ _))) _ => True
  | _ => False

/-- The compiler has written a library: it was run for one and has not failed. -/
def Writes (e : Event) : Prop := (∃ call ∈ e.runs, call.artifact? ≠ none) ∧ ¬ e.CompilerFailed

/-- A successful build has run the compiler for a library, whose sources have the given key. -/
def Makes (key : String) (a : Path) (e : Event) : Prop :=
  ∃ t s triple w o v, e = build t s triple w (.ok o) v ∧ o.key = key ∧ o.artifact = some a ∧
    o.isCached = false ∧ ∃ call ∈ e.runs, call.artifact? = some a

/-- What may happen to an output directory: edits elsewhere, and builds and tests with compilers
that are honest. Writing the cache does not fail. -/
def IsValid (out : Path) : Event → Prop
  | edit w v => v.cwd = w.cwd ∧ v.calls = w.calls ∧ v.tree.IsNamed ∧
      ∀ q, out.place w.cwd <+: q → v.tree.get? q = w.tree.get? q
  | build t s triple w r v => t.compiler.IsHonest ∧
      (Build.build t s triple out).runOn w = (r, v) ∧
      r ≠ .error (.file (.cannotWrite (Cache.file out)))
  | tests t s triple w v => t.compiler.IsHonest ∧ ((runTests t s triple out).runOn w).2 = v

end Event

/-- What has happened since a world, the latest last, and the world that it has led to. -/
inductive History (out : Path) (w₀ : World) : List Event → World → Prop
  | start : History out w₀ [] w₀
  | step {es : List Event} {w : World} {e : Event} : History out w₀ es w → e.before = w →
      e.IsValid out → History out w₀ (es ++ [e]) e.after

/-! ### Where the cache and the libraries lie -/

def lastingNames : List String := [".zigbind_cache", "lib", "libzigbind_foreign.a",
  "zigbind_foreign.lib"]

/-- A place of an output directory that builds keep from one to the next. -/
def IsLasting (out q : Place) : Prop := ∃ name ∈ lastingNames, ∃ rest, q = out ++ name :: rest

def libraryFile (target : String) : String :=
  if Target.isMsvc target then libraryName ++ ".lib" else "lib" ++ libraryName ++ ".a"

theorem libraryFile_mem (target : String) :
    libraryFile target ∈ ["libzigbind_foreign.a", "zigbind_foreign.lib"] := by
  rw [libraryFile]
  split_ifs <;> decide

theorem isName_libraryFile (target : String) : IsName (libraryFile target) := by
  have hall : ∀ name ∈ ["libzigbind_foreign.a", "zigbind_foreign.lib"], IsName name := by
    decide
  exact hall _ (libraryFile_mem target)

theorem isName_fileName : IsName Cache.fileName := by decide

theorem isStaged_lastingNames : ∀ name ∈ lastingNames, Staging.isStaged name = false := by
  decide

variable {out : Path} {cwd : Place}

theorem place_file (hout : out.IsWhole) :
    (Cache.file out).place cwd = out.place cwd ++ [Cache.fileName] :=
  Path.place_div hout isName_fileName

/-- Libraries lie beside the cache, or in a directory beside it. -/
theorem place_artifact (hout : out.IsWhole) (mode : Mode) (target : String) :
    (artifact mode target out).place cwd = out.place cwd ++ [libraryFile target] ∨
      (artifact mode target out).place cwd = out.place cwd ++ ["lib", libraryFile target] := by
  have hlib : IsName "lib" := by decide
  have hname := isName_libraryFile target
  have hdirect := @Path.place_div _ _ cwd hout hname
  cases mode with
  | merge => exact .inl hdirect
  | modularImport => exact .inl hdirect
  | modularBuild =>
    right
    have := @Path.place_div _ _ cwd (hout.div hlib) hname
    rw [Path.place_div hout hlib, List.append_assoc, List.singleton_append] at this
    exact this

theorem isLasting_file (hout : out.IsWhole) :
    IsLasting (out.place cwd) ((Cache.file out).place cwd) :=
  ⟨Cache.fileName, by decide, [], place_file hout⟩

theorem isLasting_artifact (hout : out.IsWhole) (mode : Mode) (target : String) :
    IsLasting (out.place cwd) ((artifact mode target out).place cwd) := by
  rcases place_artifact hout mode target with h | h
  · refine ⟨libraryFile target, ?_, [], h⟩
    exact List.mem_cons_of_mem _ (List.mem_cons_of_mem _ (libraryFile_mem target))
  · exact ⟨"lib", by decide, [libraryFile target], h⟩

theorem place_file_ne_artifact (hout : out.IsWhole) (mode : Mode) (target : String) :
    (Cache.file out).place cwd ≠ (artifact mode target out).place cwd := by
  have hne : ∀ name ∈ ["libzigbind_foreign.a", "zigbind_foreign.lib"], Cache.fileName ≠ name := by
    decide
  rw [place_file hout]
  rcases place_artifact hout mode target with h | h
  · rw [h, Ne, List.append_cancel_left_eq, List.cons.injEq, not_and]
    exact fun heq => absurd heq (hne _ (libraryFile_mem target))
  · rw [h, Ne, List.append_cancel_left_eq]
    intro heq
    exact absurd (congrArg List.length heq) (by simp)

theorem IsLasting.not_isStagedPlace {o q : Place} (h : IsLasting o q) :
    ¬ Staging.IsStagedPlace o q := by
  obtain ⟨name, hname, rest, rfl⟩ := h
  exact Staging.not_isStagedPlace_append (isStaged_lastingNames name hname) rest

theorem isName_testDir : IsName "zig-test" := by decide

theorem IsLasting.not_isStagedPlace_testDir {o q : Place} (h : IsLasting o q) :
    ¬ Staging.IsStagedPlace (o ++ ["zig-test"]) q := by
  have hne : ∀ name ∈ lastingNames, name ≠ "zig-test" := by decide
  obtain ⟨name, hname, rest, rfl⟩ := h
  rintro ⟨other, _, hfront⟩
  rw [List.append_assoc, List.singleton_append, List.prefix_append_right_inj] at hfront
  exact hne name hname (List.cons_prefix_cons.1 hfront).1.symm

theorem isLasting_of_append {o q : Place} (h : IsLasting o q) : o <+: q := by
  obtain ⟨name, _, rest, rfl⟩ := h
  exact List.prefix_append _ _

/-! ### What each event keeps -/

/-- A change of the world that keeps the entries of some places. -/
structure Kept (cwd : Place) (kept : Place → Prop) (w v : World) : Prop where
  cwd_eq : v.cwd = cwd
  isNamed : v.tree.IsNamed
  entries : ∀ q, kept q → Entry.IsKept True (w.tree.get? q) (v.tree.get? q)

theorem Kept.trans {kept : Place → Prop} {u v w : World} (h : Kept cwd kept u v)
    (h' : Kept cwd kept v w) : Kept cwd kept u w :=
  ⟨h'.cwd_eq, h'.isNamed, fun q hq => (h.entries q hq).trans (h'.entries q hq)⟩

theorem Kept.mono {kept kept' : Place → Prop} {w v : World} (h : Kept cwd kept w v)
    (hmono : ∀ q, kept' q → kept q) : Kept cwd kept' w v :=
  ⟨h.cwd_eq, h.isNamed, fun q hq => h.entries q (hmono q hq)⟩

theorem kept_of_keeps {made kept : Place → Prop} {w v : World}
    (h : World.Keeps cwd made kept w v) (hcwd : w.cwd = cwd) (hnamed : w.tree.IsNamed) :
    Kept cwd kept w v ∧ v.calls = w.calls := by
  obtain ⟨hcwd', hcalls, hnamed', hentries⟩ := h hcwd hnamed
  refine ⟨⟨hcwd', hnamed', fun q hq => ?_⟩, hcalls⟩
  exact (hentries q hq).imp_right fun h => ⟨h.1, h.2.1, trivial⟩

/-- Staging for a build keeps what lasts. -/
theorem kept_of_assemble (hout : out.IsWhole) (hproper : cwd.IsProper) {s : Sources} {mode : Mode}
    {w v : World} {r : Except Failure Staged} (hcwd : w.cwd = cwd) (hnamed : w.tree.IsNamed)
    (h : (Staging.assemble s mode out).runOn w = (r, v)) :
    Kept cwd (IsLasting (out.place cwd)) w v ∧ v.calls = w.calls := by
  obtain ⟨hkept, hcalls⟩ := kept_of_keeps
    ((Staging.assemble_keeps hout hproper mode).of_ok h) hcwd hnamed
  exact ⟨hkept.mono fun _ hq => hq.not_isStagedPlace, hcalls⟩

/-- Staging for the tests keeps what lasts, since it has a directory of its own. -/
theorem kept_of_assemble_testDir (hout : out.IsWhole) (hproper : cwd.IsProper) {s : Sources}
    {w v : World} {r : Except Failure Staged} (hcwd : w.cwd = cwd) (hnamed : w.tree.IsNamed)
    (h : (Staging.assemble s .merge (testDir out)).runOn w = (r, v)) :
    Kept cwd (IsLasting (out.place cwd)) w v ∧ v.calls = w.calls := by
  obtain ⟨hkept, hcalls⟩ := kept_of_keeps
    ((Staging.assemble_keeps (hout.div isName_testDir) hproper .merge).of_ok h) hcwd hnamed
  refine ⟨hkept.mono fun q hq => ?_, hcalls⟩
  rw [Path.place_div hout isName_testDir]
  exact hq.not_isStagedPlace_testDir

/-- An honest compiler keeps all but the library that it makes. -/
theorem kept_of_ran {t : Toolchain} {call : CompilerCall} {w v : World} {result : CompilerResult}
    (ht : t.compiler.IsHonest) (h : Ran t call w result v) (hproper : cwd.IsProper)
    (hcwd : w.cwd = cwd) (hnamed : w.tree.IsNamed) :
    Kept cwd (fun q => ∀ a, call.artifact? = some a → q = a.place cwd → result.exitCode ≠ 0) w v ∧
      v.calls = w.calls ++ [call] := by
  obtain ⟨log, hrun⟩ := h
  have hresult : ((t.compiler.run call).run { w with log, calls := w.calls ++ [call] }).1 = result :=
    by rw [hrun]
  have hworld : ((t.compiler.run call).run { w with log, calls := w.calls ++ [call] }).2 = v := by
    rw [hrun]
  refine ⟨⟨?_, ?_, fun q hq => ?_⟩, ?_⟩
  · rw [← hworld, ht.cwd]
    exact hcwd
  · rw [← hworld]
    refine ht.isNamed _ _ ?_ hnamed
    rw [← hcwd] at hproper
    exact hproper
  · rw [← hworld]
    refine ht.kept call _ q fun a ha hqa => ?_
    rw [hresult]
    refine hq a ha ?_
    rw [hqa]
    exact congrArg a.place hcwd
  · rw [← hworld, ht.calls]

/-- The compiler has written the library if it has succeeded. -/
theorem isFile_of_ran {t : Toolchain} {call : CompilerCall} {w v : World} {result : CompilerResult}
    (ht : t.compiler.IsHonest) (h : Ran t call w result v) (hexit : result.exitCode = 0) {a : Path}
    (ha : call.artifact? = some a) : v.isFile a = true := by
  obtain ⟨log, hrun⟩ := h
  have := ht.written call { w with log, calls := w.calls ++ [call] } a
  rw [hrun] at this
  exact this hexit ha

/-- An event that leaves no new library and keeps what lasts. -/
structure Event.IsQuiet (out : Path) (cwd : Place) (e : Event) : Prop where
  not_writes : ¬ e.Writes
  kept : Kept cwd (IsLasting (out.place cwd)) e.before e.after

/-- An event in which a library is made and entered in the cache. -/
def Event.IsMaking (out : Path) (cwd : Place) (e : Event) : Prop :=
  ∃ key mode target time entry, e.Makes key (artifact mode target out) ∧
    CacheEntry.IsWord key ∧ e.after.cwd = cwd ∧ e.after.tree.IsNamed ∧
    e.after.tree.get? ((Cache.file out).place cwd) =
      some (.file (CacheEntry.render ⟨key, artifact mode target out, time⟩)) ∧
    e.after.tree.get? ((artifact mode target out).place cwd) = some entry

theorem runs_eq_nil {e : Event} (h : e.after.calls = e.before.calls) : e.runs = [] := by
  rw [Event.runs, h, List.drop_length]

theorem runs_eq_singleton {e : Event} {call : CompilerCall}
    (h : e.after.calls = e.before.calls ++ [call]) : e.runs = [call] := by
  rw [Event.runs, h, List.drop_left]

theorem not_writes_of_calls {e : Event} (h : e.after.calls = e.before.calls) : ¬ e.Writes := by
  rintro ⟨⟨call, hcall, _⟩, _⟩
  rw [runs_eq_nil h] at hcall
  exact List.not_mem_nil hcall

/-- An edit happens elsewhere. -/
theorem isQuiet_edit {w v : World} (hcwd : w.cwd = cwd) (h : (Event.edit w v).IsValid out) :
    (Event.edit w v).IsQuiet out cwd := by
  obtain ⟨hcwd', hcalls, hnamed, htree⟩ := h
  refine ⟨not_writes_of_calls hcalls, hcwd'.trans hcwd, hnamed, fun q hq => .inl ?_⟩
  rw [hcwd] at htree
  exact htree q (isLasting_of_append hq)

variable (hout : out.IsWhole) (hproper : cwd.IsProper)
include hout hproper

/-- The tests make no library. -/
theorem isQuiet_tests {t : Toolchain} {s : Sources} {triple : String} {w v : World}
    (hcwd : w.cwd = cwd) (hnamed : w.tree.IsNamed)
    (h : (Event.tests t s triple w v).IsValid out) :
    (Event.tests t s triple w v).IsQuiet out cwd := by
  obtain ⟨ht, hrun⟩ := h
  have hends := runTests_ends t s triple out w
  rw [hrun] at hends
  cases hends with
  | quiet => exact ⟨not_writes_of_calls rfl, hcwd, hnamed, fun _ _ => .inl rfl⟩
  | unstaged hstage =>
    obtain ⟨hkept, hcalls⟩ := kept_of_assemble_testDir hout hproper hcwd hnamed hstage
    exact ⟨not_writes_of_calls hcalls, hkept⟩
  | @ran target log st u v result hstage hran =>
    obtain ⟨hkept, hcalls⟩ := kept_of_assemble_testDir hout hproper hcwd hnamed hstage
    obtain ⟨hkept', hcalls'⟩ := kept_of_ran ht hran hproper hkept.cwd_eq hkept.isNamed
    have hnone := artifact?_testRun t st target out
    rw [hcalls] at hcalls'
    constructor
    · rintro ⟨⟨call, hcall, hartifact⟩, _⟩
      have hruns : (Event.tests t s triple w { v with log }).runs = [testRun t st target out] :=
        runs_eq_singleton hcalls'
      rw [hruns, List.mem_singleton] at hcall
      rw [hcall] at hartifact
      exact hartifact hnone
    · have hall := hkept.trans (hkept'.mono fun q _ a ha _ => by rw [hnone] at ha; cases ha)
      exact ⟨hall.cwd_eq, hall.isNamed, hall.entries⟩

/-- The library that a build enters in the cache is made by it. -/
theorem isMaking_of_stored {t : Toolchain} {s : Sources} {triple target text : String} {st : Staged}
    {w u x : World} {result : CompilerResult} (ht : t.compiler.IsHonest)
    (hartifact : (compilation t st target out).artifact? = some (artifact t.mode target out))
    (hkept : Kept cwd (IsLasting (out.place cwd)) w u) (hcalls : u.calls = w.calls)
    (hran : Ran t (compilation t st target out) u result x)
    (hexists : x.exists? (artifact t.mode target out) = true)
    (hdir : x.tree.isDirectory ((Cache.file out).place x.cwd) = false) :
    (Event.build t s triple w
      (.ok (library out target (Digest.sha256 text) false (artifact t.mode target out)))
      (Cache.stored x out ⟨Digest.sha256 text, artifact t.mode target out, x.clock⟩)).IsMaking
        out cwd := by
  obtain ⟨hkept', hcalls'⟩ := kept_of_ran ht hran hproper hkept.cwd_eq hkept.isNamed
  have hplace := congrArg (Cache.file out).place hkept'.cwd_eq
  have hne : (Cache.file out).place x.cwd ≠ [] := by
    intro hnil
    rw [hnil] at hdir
    cases hdir
  obtain ⟨e, he⟩ := Option.isSome_iff_exists.1 hexists
  refine ⟨Digest.sha256 text, t.mode, target, x.clock, e, ?_, Digest.isWord_sha256 text,
    hkept'.cwd_eq, ?_, ?_, ?_⟩
  · refine ⟨t, s, triple, w, _, _, rfl, rfl, rfl, rfl, _, ?_, hartifact⟩
    change _ ∈ x.calls.drop w.calls.length
    rw [hcalls', hcalls, List.drop_left]
    exact List.mem_singleton_self _
  · refine hkept'.isNamed.put hne ?_
    rw [hplace]
    exact Act.isProper_place hproper _
  · rw [← hplace]
    exact FileTree.get?_put_self hne
  · have hplaced := (World.get?_eq_some he).2
    rw [hkept'.cwd_eq] at hplaced
    refine (FileTree.get?_put_of_ne ?_).trans hplaced
    rw [hplace]
    exact (place_file_ne_artifact hout t.mode target).symm

/-- A build either makes a library and enters it in the cache, or it is quiet. -/
theorem isQuiet_or_isMaking_build {t : Toolchain} {s : Sources} {triple : String} {w v : World}
    {r : Except Failure Output} (hcwd : w.cwd = cwd) (hnamed : w.tree.IsNamed)
    (h : (Event.build t s triple w r v).IsValid out) :
    (Event.build t s triple w r v).IsQuiet out cwd ∨
      (Event.build t s triple w r v).IsMaking out cwd := by
  obtain ⟨ht, hrun, hwrite⟩ := h
  cases BuildEnds.of_runOn hrun with
  | unknown | nothing => exact .inl ⟨not_writes_of_calls rfl, hcwd, hnamed, fun _ _ => .inl rfl⟩
  | unstaged hstage | unkeyed hstage | hit _ _ hstage =>
    obtain ⟨hkept, hcalls⟩ := kept_of_assemble hout hproper hcwd hnamed hstage
    exact .inl ⟨not_writes_of_calls hcalls, hkept.cwd_eq, hkept.isNamed, hkept.entries⟩
  | @miss target text key log st u _ r htarget _ hstage _ hkey _ hcompile =>
    obtain ⟨hkept, hcalls⟩ := kept_of_assemble hout hproper hcwd hnamed hstage
    have hmode := (Staging.assemble_returns t.mode w u st hstage).mode_eq
    have hartifact := @artifact?_compilation t st triple target out hmode htarget
    subst hkey
    cases hcompile with
    | failed hran hexit =>
      obtain ⟨hkept', _⟩ := kept_of_ran ht hran.of_log hproper hkept.cwd_eq hkept.isNamed
      refine .inl ⟨fun h => h.2 trivial, ?_⟩
      exact hkept.trans (hkept'.mono fun _ _ _ _ _ => hexit)
    | missing hran hexit hmissing =>
      have hfile := isFile_of_ran ht hran hexit hartifact
      rw [World.exists?_of_isFile hfile] at hmissing
      cases hmissing
    | unstored => exact absurd rfl hwrite
    | stored hran _ hexists _ hdir _ =>
      exact .inr (isMaking_of_stored hout hproper ht hartifact hkept hcalls hran.of_log hexists hdir)

/-- An event of a history is quiet or makes a library. -/
theorem isQuiet_or_isMaking {e : Event} (hcwd : e.before.cwd = cwd) (hnamed : e.before.tree.IsNamed)
    (h : e.IsValid out) : e.IsQuiet out cwd ∨ e.IsMaking out cwd := by
  cases e with
  | edit w v => exact .inl (isQuiet_edit hcwd h)
  | build t s triple w r v => exact isQuiet_or_isMaking_build hout hproper hcwd hnamed h
  | tests t s triple w v => exact .inl (isQuiet_tests hout hproper hcwd hnamed h)

omit hout hproper

/-! ### What the cache tells -/

/-- What the cache tells of a history: nothing, or the last library that was made. It is still as
it was made then. -/
def CacheTells (out : Path) (cwd : Place) (es : List Event) (w : World) : Prop :=
  (∀ content, w.tree.get? ((Cache.file out).place cwd) ≠ some (.file content)) ∨
    ∃ pre b mid key mode target time entry, es = pre ++ b :: mid ∧
      b.Makes key (artifact mode target out) ∧ CacheEntry.IsWord key ∧
      w.tree.get? ((Cache.file out).place cwd) =
        some (.file (CacheEntry.render ⟨key, artifact mode target out, time⟩)) ∧
      (∀ x ∈ mid, ¬ x.Writes) ∧
      b.after.tree.get? ((artifact mode target out).place cwd) = some entry ∧
      w.tree.get? ((artifact mode target out).place cwd) = some entry

/-- The invariant of a history. -/
structure Invariant (out : Path) (cwd : Place) (es : List Event) (w : World) : Prop where
  cwd_eq : w.cwd = cwd
  isNamed : w.tree.IsNamed
  tells : CacheTells out cwd es w

theorem CacheTells.quiet (hout : out.IsWhole) {es : List Event} {e : Event} (h : e.IsQuiet out cwd)
    (htells : CacheTells out cwd es e.before) : CacheTells out cwd (es ++ [e]) e.after := by
  have hcache := h.kept.entries _ (isLasting_file hout)
  rcases htells with hnone |
    ⟨pre, b, mid, key, mode, target, time, entry, rfl, hmakes, hword, hfile, hmid, hb, hentry⟩
  · left
    intro content hcontent
    rcases hcache with hsame | ⟨_, hdir, _⟩
    · exact hnone content (hsame ▸ hcontent)
    · rw [hdir] at hcontent
      cases hcontent
  · right
    have hartifact := h.kept.entries _ (isLasting_artifact hout mode target)
    rw [hentry] at hartifact
    rw [hfile] at hcache
    refine ⟨pre, b, mid ++ [e], key, mode, target, time, entry, ?_, hmakes, hword,
      hcache.of_some, fun x hx => ?_, hb, hartifact.of_some⟩
    · rw [List.append_assoc, List.cons_append]
    · rcases List.mem_append.1 hx with hx | hx
      · exact hmid x hx
      · rw [List.mem_singleton.1 hx]
        exact h.not_writes

theorem Invariant.step (hout : out.IsWhole) (hproper : cwd.IsProper) {es : List Event} {e : Event}
    (hinv : Invariant out cwd es e.before) (h : e.IsValid out) :
    Invariant out cwd (es ++ [e]) e.after := by
  rcases isQuiet_or_isMaking hout hproper hinv.cwd_eq hinv.isNamed h with hquiet |
    ⟨key, mode, target, time, entry, hmakes, hword, hcwd, hnamed, hfile, hentry⟩
  · exact ⟨hquiet.kept.cwd_eq, hquiet.kept.isNamed, hinv.tells.quiet hout hquiet⟩
  · exact ⟨hcwd, hnamed, .inr ⟨es, e, [], key, mode, target, time, entry, rfl, hmakes, hword, hfile,
      fun x hx => absurd hx List.not_mem_nil, hentry, hentry⟩⟩

theorem History.invariant (hout : out.IsWhole) {w₀ w : World} {es : List Event}
    (hproper : w₀.cwd.IsProper) (hnamed : w₀.tree.IsNamed)
    (hcache : w₀.tree.get? ((Cache.file out).place w₀.cwd) = none) (h : History out w₀ es w) :
    Invariant out w₀.cwd es w := by
  induction h with
  | start =>
    refine ⟨rfl, hnamed, .inl fun content hcontent => ?_⟩
    rw [hcache] at hcontent
    cases hcontent
  | step _ hbefore hvalid ih =>
    subst hbefore
    exact ih.step hout hproper hvalid

/-- A history up to an event and with it is a history. -/
theorem History.of_append {w₀ w : World} {pre post : List Event} {e : Event}
    (h : History out w₀ (pre ++ e :: post) w) :
    ∃ v, History out w₀ pre v ∧ e.before = v ∧ e.IsValid out := by
  induction post using List.reverseRecOn generalizing w with
  | nil =>
    generalize hes : pre ++ [e] = es at h
    cases h with
    | start => exact absurd hes (by simp)
    | step hpre hbefore hvalid =>
      obtain ⟨rfl, hlast⟩ := List.append_inj' hes rfl
      obtain rfl := List.singleton_inj.1 hlast
      exact ⟨_, hpre, hbefore, hvalid⟩
  | append_singleton post last ih =>
    generalize hes : pre ++ e :: (post ++ [last]) = es at h
    cases h with
    | start => exact absurd hes (by simp)
    | step hpre hbefore hvalid =>
      rw [← List.cons_append, ← List.append_assoc] at hes
      obtain ⟨rfl, _⟩ := List.append_inj' hes rfl
      exact ih hpre

end Bindery.Build
