import Bindery.Proofs.Build.Current
import Bindery.Proofs.Build.SameKey
import Bindery.Proofs.Staging.Again

/-!
# Building again

A build that has stored its library finds it when it comes to the same key. Between the two only the
names in the output directory change that no staging removes, provided that the compiler writes its
artifact and nothing else.
-/
namespace Bindery.Build
open Act
open Bindery.Path (IsName)

variable {cwd : Place} {out : Path} {w v : World}

/-! ### The library that is found -/

section
variable {p : Path} {place : Place} {key : String} {e : CacheEntry}

theorem exists?_put (hdir : w.tree.isDirectory place = false) (content : String)
    (h : w.exists? p = true) :
    ({ w with tree := w.tree.put place (.file content) } : World).exists? p = true := by
  obtain ⟨e, he⟩ := World.exists?_iff.1 h
  obtain ⟨hloc, hget⟩ := World.get?_eq_some he
  have hne : place ≠ [] := by
    rintro rfl
    cases hdir
  have hloc' : ({ w with tree := w.tree.put place (.file content) } : World).locate p =
      some (p.place w.cwd) := by
    rw [← hloc]
    exact World.locate_congr rfl fun r _ => World.isDirectory_put hdir content r
  rw [World.exists?, World.get?, hloc', Option.bind_some, FileTree.get?_put hne]
  split_ifs
  · rfl
  · rw [hget]
    rfl

theorem read?_put_of_ne (hdir : w.tree.isDirectory place = false) (content : String)
    (hne : p.place w.cwd ≠ place) :
    ({ w with tree := w.tree.put place (.file content) } : World).read? p = w.read? p := by
  have hloc : ({ w with tree := w.tree.put place (.file content) } : World).locate p =
      w.locate p := World.locate_congr rfl fun r _ => World.isDirectory_put hdir content r
  rw [World.read?, World.read?, World.get?, World.get?, hloc]
  cases hplace : w.locate p with
  | none => rfl
  | some q =>
    obtain rfl := (World.locate_eq_some hplace).symm
    rw [Option.bind_some, Option.bind_some, FileTree.get?_put_of_ne hne]

theorem found_of_read {content : String} (hread : w.read? (Cache.file out) = some content)
    (hparse : CacheEntry.parse? content = some e) (hkey : e.key = key)
    (hexists : w.exists? e.artifact = true) : Cache.found w out key = some e := by
  rw [Cache.found, hread, Option.bind_some, hparse, Option.filter_some, hkey, hexists,
    decide_eq_true rfl]
  rfl

/-- The library is still found when another file than the cache has been put. -/
theorem found_put (hdir : w.tree.isDirectory place = false) (content : String)
    (hne : (Cache.file out).place w.cwd ≠ place) (h : Cache.found w out key = some e) :
    Cache.found { w with tree := w.tree.put place (.file content) } out key = some e := by
  obtain ⟨line, hread, hparse, hkey, hexists⟩ := Cache.found_eq_some h
  refine found_of_read ?_ hparse hkey (exists?_put hdir content hexists)
  rw [read?_put_of_ne hdir content hne, hread]

theorem found_congr (hcwd : w.cwd = v.cwd) (h : ∀ q, w.tree.get? q = v.tree.get? q) :
    Cache.found w out key = Cache.found v out key := by
  have hget : ∀ p, w.get? p = v.get? p := fun p => World.get?_congr hcwd fun q _ => h q
  have hexists : w.exists? = v.exists? := funext fun p => by
    rw [World.exists?, World.exists?, hget]
  rw [Cache.found, Cache.found, hexists, World.read?, World.read?, hget]

/-- A line that tells of an existing library has it found. -/
theorem found_stored (hloc : w.locate (Cache.file out) = some ((Cache.file out).place w.cwd))
    (hdir : w.tree.isDirectory ((Cache.file out).place w.cwd) = false)
    (hkey : CacheEntry.IsWord e.key) (htime : CacheEntry.isTime e.time = true)
    (htold : CacheEntry.told e.artifact = e.artifact.text.toList) (hne : e.artifact.text ≠ "")
    (hexists : w.exists? e.artifact = true) :
    Cache.found (Cache.stored w out e) out e.key = some e := by
  have hread : (Cache.stored w out e).read? (Cache.file out) = some e.render := by
    rw [Cache.stored, World.read?, World.get?_put hloc hdir]
  refine found_of_read hread ?_ rfl (exists?_put hdir _ hexists)
  · rw [CacheEntry.parse?_render e hkey, htold, String.ofList_toList, if_pos]
    exact ⟨htime, fun hnil => hne (String.toList_eq_nil_iff.1 hnil)⟩

end

/-! ### A compiler that writes its artifact only -/

section
variable {t : Toolchain} {s : Sources} {triple target : String} {o : Output}

theorem text_artifact_ne_empty (mode : Mode) (target : String) (out : Path) :
    (artifact mode target out).text ≠ "" := by
  have hname := isName_libraryFile target
  cases mode with
  | merge => exact Path.text_div_ne_empty _ hname.isPiece hname.1
  | modularImport => exact Path.text_div_ne_empty _ hname.isPiece hname.1
  | modularBuild => exact Path.text_div_ne_empty _ hname.isPiece hname.1

/-- The way to a library leads to the output directory and on through lasting places. -/
theorem isLasting_of_waypoint (hout : out.IsWhole) (mode : Mode) (target : String) {q : Place}
    (hq : q ∈ (artifact mode target out).waypoints cwd) :
    q ∈ out.waypoints cwd ∨ IsLasting (out.place cwd) q := by
  have hname := isName_libraryFile target
  have hlib : IsName "lib" := by decide
  have hdirect : ∀ q ∈ (out / libraryFile target).waypoints cwd,
      q ∈ out.waypoints cwd ∨ IsLasting (out.place cwd) q := by
    intro q hq
    rcases (Path.mem_waypoints_div hout hname).1 hq with hq | hq
    · exact .inl hq
    · refine .inr ⟨libraryFile target, ?_, [], hq⟩
      exact List.mem_cons_of_mem _ (List.mem_cons_of_mem _ (libraryFile_mem target))
  have hbelow : ∀ q ∈ (out / "lib" / libraryFile target).waypoints cwd,
      q ∈ out.waypoints cwd ∨ IsLasting (out.place cwd) q := by
    intro q hq
    rcases (Path.mem_waypoints_div (hout.div hlib) hname).1 hq with hq | hq
    · rcases (Path.mem_waypoints_div hout hlib).1 hq with hq | hq
      · exact .inl hq
      · exact .inr ⟨"lib", by decide, [], hq⟩
    · refine .inr ⟨"lib", by decide, [libraryFile target], ?_⟩
      rw [hq, Path.place_div hout hlib, List.append_assoc, List.singleton_append]
  cases mode with
  | merge => exact hdirect q hq
  | modularImport => exact hdirect q hq
  | modularBuild => exact hbelow q hq

end
end Bindery.Build

namespace Bindery
open Act
open Bindery.Path (IsName)

/-- A compiler that runs as a process of its own, and writes the artifact of its command line and
nothing else, but for the directories on the way there. -/
structure Compiler.WritesArtifact (c : Compiler) : Prop extends c.IsSeparate where
  cwd : ∀ call w, ((c.run call).run w).2.cwd = w.cwd
  wellFormed : ∀ call w, w.cwd.IsProper → w.tree.WellFormed →
    ((c.run call).run w).2.tree.WellFormed
  isTime : ∀ call w, CacheEntry.isTime w.clock = true →
    CacheEntry.isTime ((c.run call).run w).2.clock = true
  kept : ∀ call w q, (∀ a, call.artifact? = some a → a.place w.cwd ≠ q) →
    Entry.IsKept (∃ a, call.artifact? = some a ∧ q ∈ a.waypoints w.cwd) (w.tree.get? q)
      (((c.run call).run w).2.tree.get? q)

namespace Build
variable {cwd : Place} {out : Path} {t : Toolchain} {s : Sources} {triple target : String}
  {o : Output} {st : Staged} {u v w : World}

/-- A change that only lasting places of an output directory have seen. -/
structure OnlyLasts (cwd : Place) (out : Path) (w v : World) : Prop where
  isReady : v.IsReady cwd out
  entries : ∀ q, ¬ IsLasting (out.place cwd) q → v.tree.get? q = w.tree.get? q

theorem not_isLasting_of_waypoint (hway : out.Avoids cwd out) {q : Place}
    (hq : q ∈ out.waypoints cwd) : ¬ IsLasting (out.place cwd) q := by
  rintro ⟨name, -, rest, hlasting⟩
  exact hway _ hq (hlasting ▸ Place.isInside_append (List.cons_ne_nil _ _))

section
variable (hproper : cwd.IsProper) (hout : out.IsWhole) (hway : out.Avoids cwd out)
include hproper hout hway

/-- What the compiler writes for a library lasts. -/
theorem Ran.onlyLasts (ht : t.compiler.WritesArtifact) (hmode : st.mode = t.mode)
    (htarget : Target.ofTriple triple = .ok target) (hw : w.IsReady cwd out)
    {result : CompilerResult} (h : Ran t (compilation t st target out) w result v) :
    OnlyLasts cwd out w v := by
  obtain rfl := hw.cwd_eq
  obtain ⟨log, hrun⟩ := h
  have hcall : (compilation t st target out).artifact? = some (artifact t.mode target out) :=
    artifact?_compilation hmode htarget
  generalize compilation t st target out = call at hrun hcall
  have hworld : ((t.compiler.run call).run { w with log, calls := w.calls ++ [call] }).2 = v := by
    rw [hrun]
  have hcwd := ht.cwd call { w with log, calls := w.calls ++ [call] }
  have hformed := ht.wellFormed call { w with log, calls := w.calls ++ [call] } hproper hw.wellFormed
  rw [hworld] at hcwd hformed
  have hentries : ∀ q, ¬ IsLasting (out.place w.cwd) q → v.tree.get? q = w.tree.get? q := by
    intro q hq
    have hkept := ht.kept call { w with log, calls := w.calls ++ [call] } q ?_
    · rw [hworld] at hkept
      rcases hkept with hsame | ⟨hnone, -, a, ha, hqa⟩
      · exact hsame
      · obtain rfl : artifact t.mode target out = a := Option.some.inj (hcall.symm.trans ha)
        rcases isLasting_of_waypoint hout _ _ hqa with hqout | hlasting
        · rw [Path.waypoints_of_isWhole hout] at hqout
          cases hnone.symm.trans (FileTree.isDirectory_iff.1 (hw.isDirectory_waypoints hout q hqout))
        · exact absurd hlasting hq
    · intro a ha heq
      obtain rfl : artifact t.mode target out = a := Option.some.inj (hcall.symm.trans ha)
      exact hq (heq ▸ isLasting_artifact hout t.mode target)
  exact ⟨hw.of_waypoints hcwd hformed fun q hq => hentries q (not_isLasting_of_waypoint hway hq),
    hentries⟩

theorem onlyLasts_stored (hw : w.IsReady cwd out)
    (hdir : w.tree.isDirectory ((Cache.file out).place w.cwd) = false)
    (hparent : w.tree.isDirectory (List.dropLast ((Cache.file out).place w.cwd)) = true)
    (e : CacheEntry) : OnlyLasts cwd out w (Cache.stored w out e) := by
  obtain rfl := hw.cwd_eq
  have hne : (Cache.file out).place w.cwd ≠ [] := by
    intro hnil
    rw [hnil] at hdir
    cases hdir
  have htree : (Cache.stored w out e).tree =
      w.tree.put ((Cache.file out).place w.cwd) (.file e.render) := rfl
  have hentries : ∀ q, ¬ IsLasting (out.place w.cwd) q →
      (Cache.stored w out e).tree.get? q = w.tree.get? q := by
    intro q hq
    have hplace : q ≠ (Cache.file out).place w.cwd := by
      intro heq
      rw [heq] at hq
      exact hq (isLasting_file hout)
    rw [htree, FileTree.get?_put_of_ne hplace]
  have hformed : (Cache.stored w out e).tree.WellFormed := by
    rw [htree]
    exact hw.wellFormed.put hne (isProper_place hproper _) hparent hdir
  exact ⟨hw.of_waypoints rfl hformed fun q hq => hentries q (not_isLasting_of_waypoint hway hq),
    hentries⟩

/-! ### Builds that have a library -/

omit hproper hout hway in
/-- A build with foreign code that succeeds has staged it. -/
theorem exists_staged (hs : s.isEmpty = false)
    (h : (build t s triple out).runOn w = (.ok o, v)) :
    ∃ st u, (Staging.assemble s t.mode out).runOn w = (.ok st, u) := by
  cases build_succeeds h with
  | nothing _ hempty => cases hs.symm.trans hempty
  | hit _ _ hstage | made _ _ hstage => exact ⟨_, _, hstage⟩

/-- A build has come to a library: what is staged has a key, and the library is found by this key
now. Since the staging only lasting places have changed. -/
inductive HasLibrary (t : Toolchain) (s : Sources) (triple : String) (out : Path) (cwd : Place)
    (w : World) (o : Output) (v : World) : Prop
  | intro {target text : String} {st : Staged} {u : World} {e : CacheEntry}
      (htarget : Target.ofTriple triple = .ok target)
      (hstage : (Staging.assemble s t.mode out).runOn w = (.ok st, u))
      (hkey : keyText u st target (Target.optimization t.profile) out = .ok text)
      (houtput : o = library out target (Digest.sha256 text) o.isCached e.artifact)
      (hfound : Cache.found v out (Digest.sha256 text) = some e)
      (hlasts : OnlyLasts cwd out u v)

omit hproper hout hway in
theorem isTime_of_ran (ht : t.compiler.WritesArtifact) (hw : CacheEntry.isTime w.clock = true)
    {call : CompilerCall} {result : CompilerResult} (h : Ran t call w result v) :
    CacheEntry.isTime v.clock = true := by
  obtain ⟨log, hrun⟩ := h
  have htime := ht.isTime call { w with log, calls := w.calls ++ [call] } hw
  rwa [hrun] at htime

/-- After a build with foreign code the library is found by the key of the build. -/
theorem hasLibrary_of_build (ht : t.compiler.WritesArtifact) (habs : out.isAbsolute = true)
    (hline : '\n' ∉ out.text.toList) (hs : s.isEmpty = false) (hw : w.IsReady cwd out)
    (htime : CacheEntry.isTime w.clock = true)
    (h : (build t s triple out).runOn w = (.ok o, v)) :
    HasLibrary t s triple out cwd w o v := by
  have hstaged : ∀ {st : Staged} {u : World}, (Staging.assemble s t.mode out).runOn w = (.ok st, u) →
      u.IsReady cwd out ∧ CacheEntry.isTime u.clock = true := by
    intro st u hstage
    have hframe : Staging.IsStagingFrame out (Staging.Tidies cwd out fun _ => False) :=
      Staging.Tidies.isStagingFrame hway hproper hout fun _ => id
    have htidy := (Staging.assemble_preserves hframe t.mode).of_ok hstage hw
    obtain ⟨tree, log, rfl⟩ := (World.OnlyWrites.assemble t.mode).of_ok hstage
    exact ⟨htidy.isReady, htime⟩
  cases build_succeeds h with
  | nothing _ hempty => cases hs.symm.trans hempty
  | hit htarget _ hstage hkey hfound =>
    obtain ⟨hu, -⟩ := hstaged hstage
    exact .intro htarget hstage hkey rfl hfound
      ⟨⟨hu.cwd_eq, hu.wellFormed, hu.isDirectory⟩, fun _ _ => rfl⟩
  | @made target text st u x result htarget _ hstage hkey hran hexists hloc hdir hparent =>
    obtain ⟨hu, hclock⟩ := hstaged hstage
    have hmode := (Staging.assemble_returns t.mode w u st hstage).mode_eq
    have hx := hran.onlyLasts hproper hout hway ht hmode htarget hu
    have hv := onlyLasts_stored hproper hout hway hx.isReady hdir hparent
      ⟨Digest.sha256 text, artifact t.mode target out, x.clock⟩
    have hfront : out.text.toList.head?.any Text.isSpace = false := by
      rw [of_decide_eq_true habs]
      rfl
    have hne : out.text ≠ "" := by
      intro hempty
      rw [Path.isAbsolute, hempty] at habs
      cases habs
    refine .intro htarget hstage hkey rfl (found_stored hloc hdir (Digest.isWord_sha256 text)
      (isTime_of_ran ht hclock hran) (told_artifact hne hline hfront _ _)
      (text_artifact_ne_empty _ _ _) hexists) ⟨hv.isReady, fun q hq => ?_⟩
    rw [hv.entries q hq, hx.entries q hq]

omit hproper hout hway in
/-- A build that comes to the key of a library that is found takes this library. -/
theorem build_of_found {text : String} {e : CacheEntry} (hs : s.isEmpty = false)
    (htarget : Target.ofTriple triple = .ok target)
    (hstage : (Staging.assemble s t.mode out).runOn w = (.ok st, u))
    (hkey : keyText u st target (Target.optimization t.profile) out = .ok text)
    (hfound : Cache.found u out (Digest.sha256 text) = some e) :
    ∃ log, (build t s triple out).runOn w =
      (.ok (library out target (Digest.sha256 text) true e.artifact), { u with log }) := by
  obtain ⟨log, hlookup⟩ := Cache.lookup_runOn u out (Digest.sha256 text)
  rw [hfound] at hlookup
  rw [build, runOn_bind_of_ok (orBuild_ok.2 ⟨htarget, rfl⟩), hs]
  simp only [Bool.false_eq_true, if_false]
  rw [runOn_bind_of_ok hstage, runOn_get_bind, runOn_bind_of_ok (ofExcept_ok.2 ⟨hkey, rfl⟩),
    runOn_bind_of_ok hlookup]
  exact ⟨_, rfl⟩

end

theorem writingCompiler_writesArtifact : writingCompiler.WritesArtifact where
  provided call w := by
    rcases writingCompiler_cases call w with ⟨h, _⟩ | ⟨a, _, _, _, _, h⟩
    · rw [h]
    · rw [h]
  directives call w := by
    rcases writingCompiler_cases call w with ⟨h, _⟩ | ⟨a, _, _, _, _, h⟩
    · rw [h]
    · rw [h]
  cwd := writingCompiler_isHonest.cwd
  wellFormed call w hproper hw := by
    rcases writingCompiler_cases call w with ⟨h, _⟩ | ⟨a, _, _, hdir, hparent, h⟩
    · rw [h]
      exact hw
    · rw [h]
      refine hw.put ?_ (isProper_place hproper a) hparent hdir
      intro hnil
      rw [hnil] at hdir
      cases hdir
  isTime call w hw := by
    rcases writingCompiler_cases call w with ⟨h, _⟩ | ⟨a, _, _, _, _, h⟩
    · rw [h]
      exact hw
    · rw [h]
      exact hw
  kept call w q hq := by
    rcases writingCompiler_cases call w with ⟨h, _⟩ | ⟨a, ha, _, _, _, h⟩
    · rw [h]
      exact .inl rfl
    · rw [h]
      exact .inl (FileTree.get?_put_of_ne (hq a ha).symm)

end Build
end Bindery
