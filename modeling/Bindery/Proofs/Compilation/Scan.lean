import Bindery.Proofs.Annotation.Places
import Bindery.Proofs.Compilation.Generate
import Bindery.Proofs.World.Canonical

/-!
# Scanned sources

A scan reads the hosts below a root in the order of their paths, and takes the annotations of each
in the order of its text. It changes nothing but the log.
-/
namespace Bindery
open Act

namespace Sources
variable {root out host : Path} {w v : World} {s : Sources}

/-- The annotations that a host is scanned to. -/
def IsScanned (w : World) (root host : Path) (as : List Annotation) : Prop :=
  ∃ text, w.read? host = some text ∧
    Annotation.result (w.source root host) text.toList = .ok as

/-- Sources with the annotations of the hosts below a root, host by host. -/
structure AreScanned (s : Sources) (w : World) (root out : Path) : Prop where
  annotations : ∃ ass, s.annotations = ass.flatten ∧
    List.Forall₂ (IsScanned w root) ((files w root out).filter Host.isSource) ass
  auxiliary : s.auxiliary = ((files w root out).filter isAuxiliary).map w.canonical

theorem ofHost_ok {as : List Annotation} (h : (ofHost root host).runOn w = (.ok as, v)) :
    IsScanned w root host as ∧ w.OnlyLogs v := by
  have hlogs := (World.OnlyLogs.ofHost root host).of_ok h
  obtain ⟨text, u, hread, htext⟩ := bind_ok.1 h
  rw [runOn_read] at hread
  cases hcontent : w.read? host with
  | none =>
    rw [hcontent] at hread
    cases hread
  | some content =>
    rw [hcontent] at hread
    cases hread
    refine ⟨⟨text, hcontent, ?_⟩, hlogs⟩
    rw [← result_ofText, htext]

/-- The log does not matter. -/
theorem isScanned_log {log : String} {as : List Annotation} :
    IsScanned { w with log } root host as ↔ IsScanned w root host as := by
  have hread : ({ w with log } : World).read? host = w.read? host := rfl
  rw [IsScanned, IsScanned, hread, World.source_log]

theorem mapM_ofHost_ok {hosts : List Path} {ass : List (List Annotation)}
    (h : (hosts.mapM (ofHost root)).runOn w = (.ok ass, v)) :
    List.Forall₂ (IsScanned w root) hosts ass ∧ w.OnlyLogs v := by
  induction hosts generalizing ass w with
  | nil =>
    obtain ⟨rfl, rfl⟩ := Act.mapM_nil_ok.1 h
    exact ⟨.nil, World.OnlyLogs.isFrame.refl v⟩
  | cons host hosts ih =>
    obtain ⟨as, ass, u, rfl, hfirst, hrest⟩ := Act.mapM_cons_ok.1 h
    obtain ⟨hscanned, log, rfl⟩ := ofHost_ok hfirst
    obtain ⟨hall, hlogs⟩ := ih hrest
    refine ⟨.cons hscanned (hall.imp fun _ _ => isScanned_log.1), ?_⟩
    exact World.OnlyLogs.isFrame.trans ⟨log, rfl⟩ hlogs

/-- What a scan that succeeds has seen. -/
theorem scan_ok (h : (scan root out).runOn w = (.ok s, v)) :
    s.AreScanned w root out ∧ w.OnlyLogs v := by
  unfold scan at h
  rw [runOn_get_bind] at h
  dsimp only at h
  by_cases hlong : w.isTooLong root = true
  · rw [if_pos hlong] at h
    obtain ⟨_, _, hthrow, -⟩ := bind_ok.1 h
    cases hthrow
  rw [if_neg hlong] at h
  by_cases hdir : (!w.isDirectory root) = true
  · rw [if_pos hdir] at h
    obtain ⟨_, _, hthrow, -⟩ := bind_ok.1 h
    cases hthrow
  rw [if_neg hdir] at h
  obtain ⟨ass, u, hmap, hrest⟩ := bind_ok.1 h
  obtain ⟨hall, hlogs⟩ := mapM_ofHost_ok hmap
  obtain ⟨_, u', hinfo, hdone⟩ := bind_ok.1 hrest
  cases hinfo
  cases hdone
  exact ⟨⟨⟨ass, rfl, hall⟩, rfl⟩, World.OnlyLogs.isFrame.trans hlogs ⟨_, rfl⟩⟩

/-! ### Included files -/

/-- What an include is resolved to is a file, by its canonical path. -/
theorem included?_eq_some {path : String} {file : Path}
    (h : w.included? root host path = some file) :
    ∃ place content, file = World.pathOf place ∧ w.tree.get? place = some (.file content) := by
  obtain ⟨candidate, hfind, rfl⟩ := Option.map_eq_some_iff.1 h
  have hfile := List.find?_some hfind
  rw [World.isFile] at hfile
  cases hget : w.get? candidate with
  | none =>
    rw [hget] at hfile
    cases hfile
  | some e =>
    rw [hget] at hfile
    cases e with
    | directory => cases hfile
    | file content =>
      exact ⟨_, content, World.canonical_of_exists (World.exists?_iff.2 ⟨_, hget⟩),
        (World.get?_eq_some hget).2⟩

/-- The files that annotations name are what their includes are resolved to. -/
def IsResolved (w : World) (s : Sources) : Prop :=
  ∀ a ∈ s.annotations, ∀ file, a.file = some file →
    ∃ root path, w.included? root a.host path = some file

theorem include?_of_isWritten {src : Annotation.Source} {front written : List Char}
    {a : Annotation} {file : Path} (h : Annotation.IsWritten src front written a)
    (hfile : a.file = some file) : a.host = src.host ∧ ∃ path, src.include? path = some file := by
  cases h with
  | inline _ _ _ _ => cases hfile
  | included _ _ hinclude _ =>
    cases hfile
    exact ⟨rfl, _, hinclude⟩
  | declared hhead _ _ =>
    cases hhead with
    | inline _ _ => cases hfile
    | included _ _ hinclude _ _ =>
      cases hfile
      exact ⟨rfl, _, hinclude⟩

/-- A scan resolves the includes. -/
theorem AreScanned.isResolved (h : s.AreScanned w root out) : s.IsResolved w := by
  obtain ⟨ass, hass, hall⟩ := h.annotations
  intro a ha file hfile
  rw [hass, List.mem_flatten] at ha
  obtain ⟨as, has, ha⟩ := ha
  obtain ⟨n, hn, rfl⟩ := List.mem_iff_getElem.1 has
  obtain ⟨text, -, hresult⟩ := hall.get (by rw [hall.length_eq]; exact hn) hn
  have hin := Annotation.areIn_of_result hresult
  obtain ⟨front, written, rest, -, hwritten⟩ := hin.exists_written ha
  obtain ⟨hhost, path, hinclude⟩ := include?_of_isWritten hwritten hfile
  simp only [World.source] at hhost hinclude
  exact ⟨root, path, by rw [hhost, hinclude]⟩

end Sources

/-! ### Stages of a compilation -/

namespace Compilation

theorem ok_of_mapError {ε ε' α : Type} {f : ε → ε'} {x : Except ε α} {a : α}
    (h : x.mapError f = .ok a) : x = .ok a := by
  cases x with
  | ok b =>
    cases h
    rfl
  | error e => cases h

/-- The stages that a compilation goes through if it succeeds. -/
inductive Compiles (c : Compilation) (w : World) (o : Output) (v : World) : Prop
  | intro {target : String} {s : Sources} {stems : List (Path × String)} {hosts : List Host}
      {built : Output} {u₁ u₂ u₃ u₄ u₅ : World}
      (htarget : Target.ofTriple c.triple = .ok target)
      (hcreate : (createDirectories c.outDir).runOn { w with provided := [] } = (.ok ⟨⟩, u₁))
      (hscan : (Sources.scan c.root c.outDir).runOn u₁ = (.ok s, u₂))
      (hstems : Host.stems s.hosts c.root = .ok stems)
      (hhosts : (stems.mapM fun (path, stem) => c.generate s path stem).runOn u₂ = (.ok hosts, u₃))
      (hbuild : (c.build s target).runOn u₃ = (.ok built, u₄))
      (houtput : o = { built with
        exported := hosts.flatMap (·.exported), sources := hosts.map c.sourceOf })
      (hlink : (Linkage.emit o).runOn u₄ = (.ok ⟨⟩, u₅))
      (hlogs : u₅.OnlyLogs v)

theorem compile_ok {c : Compilation} {w v : World} {o : Output}
    (h : c.compile.runOn w = (.ok o, v)) : Compiles c w o v := by
  unfold compile at h
  rw [runOn_modify_bind] at h
  obtain ⟨target, _, htarget, h₁⟩ := bind_ok.1 h
  obtain ⟨htarget', rfl⟩ := orBuild_ok.1 htarget
  obtain ⟨_, u, hcreate, h₂⟩ := bind_ok.1 h₁
  obtain ⟨s, u₁, hscan, h₃⟩ := bind_ok.1 h₂
  obtain ⟨stems, _, hstems, h₄⟩ := bind_ok.1 h₃
  obtain ⟨hstems', rfl⟩ := orBuild_ok.1 hstems
  obtain ⟨hosts, u₂, hhosts, h₅⟩ := bind_ok.1 h₄
  obtain ⟨built, u₃, hbuild, h₆⟩ := bind_ok.1 h₅
  obtain ⟨_, u₄, hlink, h₇⟩ := bind_ok.1 h₆
  rw [runOn_get_bind] at h₇
  cases h₇
  exact ⟨htarget', hcreate, hscan, ok_of_mapError hstems', hhosts, hbuild, rfl, hlink, _, rfl⟩

end Compilation
end Bindery
