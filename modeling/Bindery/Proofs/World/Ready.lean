import Bindery.Proofs.World.Canonical
import Bindery.Proofs.World.Frame

/-!
# Directories to write in

While nothing is changed that the path of a directory leads through, the directory stays where it
is. The names below it then lead to the places below its own, unless one of them or its whole path
is too long.
-/
namespace Bindery
open FileTree
open Bindery.Path (IsName)

/-- A place that lies properly below another one. -/
def Place.IsInside (o q : Place) : Prop := o <+: q ∧ q ≠ o

namespace Place
variable {o q r rest : Place}

theorem isInside_append (h : rest ≠ []) : IsInside o (o ++ rest) :=
  ⟨List.prefix_append _ _, fun heq => h (List.append_right_eq_self.1 heq)⟩

theorem isInside_concat (o : Place) (name : String) : IsInside o (o ++ [name]) :=
  isInside_append (List.cons_ne_nil _ _)

theorem IsInside.mono (h : IsInside o q) (hq : q <+: r) : IsInside o r := by
  refine ⟨h.1.trans hq, ?_⟩
  rintro rfl
  exact h.2 (hq.eq_of_length_le h.1.length_le)

theorem not_isInside_self : ¬ IsInside o o := fun h => h.2 rfl

theorem IsInside.of_concat {front : Place} {name : String} (h : IsInside o (front ++ [name])) :
    o <+: front := by
  obtain ⟨hfront, hne⟩ := h
  rcases List.prefix_concat_iff.1 hfront with heq | hfront
  · exact absurd heq.symm hne
  · exact hfront

end Place

/-- A name that the file system takes below a path. -/
def Path.Admits (out : Path) (name : String) : Prop :=
  (out / name).isTooLong = false ∧ name.length ≤ maxName

namespace World

/-- Where a look-up gets through there are directories all the way. -/
theorem isDirectory_of_follow {t : FileTree} {cur q : Place} {names : List String}
    (h : follow t cur names = .ok q) (hq : t.isDirectory q = true) :
    ∀ r ∈ Place.waypoints cur names, t.isDirectory r = true := by
  induction names generalizing cur with
  | nil =>
    cases h
    intro r hr
    rw [List.mem_singleton.1 hr]
    exact hq
  | cons n ns ih =>
    rw [follow] at h
    intro r hr
    rcases List.mem_cons.1 hr with rfl | hr
    · by_contra hcur
      rw [Bool.not_eq_true] at hcur
      rw [hcur] at h
      cases h
    · refine @ih (Place.step cur n) ?_ r hr
      rw [Place.step]
      split_ifs at h ⊢
      · exact h
      · exact h
      · exact h

/-- A world with a well-formed tree in which a path leads to a directory. -/
structure IsReady (cwd : Place) (out : Path) (w : World) : Prop where
  cwd_eq : w.cwd = cwd
  wellFormed : w.tree.WellFormed
  isDirectory : w.isDirectory out = true

namespace IsReady
variable {cwd : Place} {out : Path} {name : String} {w v : World} {q : Place}

theorem get?_eq (hw : w.IsReady cwd out) : w.get? out = some .directory :=
  decide_eq_true_iff.1 hw.isDirectory

theorem locate_eq (hw : w.IsReady cwd out) : w.locate out = some (out.place cwd) := by
  rw [(World.get?_eq_some hw.get?_eq).1, hw.cwd_eq]

theorem isDirectory_place (hw : w.IsReady cwd out) : w.tree.isDirectory (out.place cwd) = true := by
  have h := (World.get?_eq_some hw.get?_eq).2
  rw [hw.cwd_eq] at h
  exact isDirectory_iff.2 h

/-- A change beside the way leaves the directory where it is. -/
theorem of_waypoints (hw : w.IsReady cwd out) (hcwd : v.cwd = w.cwd) (hv : v.tree.WellFormed)
    (hsame : ∀ q ∈ out.waypoints cwd, v.tree.get? q = w.tree.get? q) : v.IsReady cwd out := by
  refine ⟨hcwd.trans hw.cwd_eq, hv, ?_⟩
  rw [World.isDirectory, World.get?_congr hcwd, hw.get?_eq]
  · exact decide_eq_true rfl
  · intro q hq
    rw [hcwd, hw.cwd_eq] at hq
    exact hsame q hq

theorem follow_names (hwhole : out.IsWhole) (hw : w.IsReady cwd out) :
    follow w.tree (out.start cwd) out.names = .ok (out.place cwd) := by
  have hloc := hw.locate_eq
  rw [locate, lookup_eq, Path.terminated_of_isWhole hwhole, hw.cwd_eq, Path.route,
    follow_append] at hloc
  split_ifs at hloc
  · cases hloc
  · cases hloc
  all_goals
    cases hnames : follow w.tree (out.start cwd) out.names with
    | error o =>
      rw [hnames] at hloc
      cases hloc
    | ok r => rw [Path.place_of_isWhole hwhole, follow_ok hnames]

theorem isDirectory_waypoints (hwhole : out.IsWhole) (hw : w.IsReady cwd out) :
    ∀ q ∈ Place.waypoints (out.start cwd) out.names, w.tree.isDirectory q = true :=
  isDirectory_of_follow (hw.follow_names hwhole) hw.isDirectory_place

/-- Nothing is made where a directory is. -/
theorem createDirectories_self (hwhole : out.IsWhole) (hw : w.IsReady cwd out) :
    (Act.createDirectories out).runOn w = (.ok ⟨⟩, w) := by
  have hloc := hw.locate_eq
  rw [locate, lookup_eq, Path.terminated_of_isWhole hwhole] at hloc
  have hmake : w.tree.makeDirectories (out.start cwd) out.names = (w.tree, true) :=
    makeDirectories_of_isDirectory (Path.areSteps_names hwhole).ne_empty
      (hw.isDirectory_waypoints hwhole)
  have hrun : ∀ h : ¬ (out.isEmpty = true ∨ out.isTooLong = true),
      (Act.createDirectories out).runOn w = (.ok ⟨⟩, w) := by
    intro h
    have hstart : w.start out = out.start cwd := by rw [← hw.cwd_eq]; rfl
    rw [Act.createDirectories, Path.terminated_of_isWhole hwhole]
    dsimp only
    rw [if_neg h, Act.runOn_get_bind, hstart, hmake]
    rfl
  split_ifs at hloc with hempty hlong
  · cases hloc
  · cases hloc
  · exact hrun (not_or.2 ⟨hempty, hlong⟩)

variable (hwhole : out.IsWhole) (hname : IsName name)
include hwhole hname

/-- Making a directory below. -/
theorem createDirectories_div (hw : w.IsReady cwd out) :
    (Act.createDirectories (out / name)).runOn w =
      if (out / name).isTooLong then (.error .fileSystem, w)
      else
        match w.tree.get? (out.place cwd ++ [name]) with
        | some .directory => (.ok ⟨⟩, w)
        | some (.file _) => (.error .fileSystem, w)
        | none =>
          if name.length > maxName then (.error .fileSystem, w)
          else (.ok ⟨⟩, { w with tree := w.tree.put (out.place cwd ++ [name]) .directory }) := by
  have hempty : (out / name).isEmpty = false := by
    rw [Path.isEmpty, String.isEmpty_eq_false_iff]
    exact Path.text_div_ne_empty out hname.isPiece hname.1
  have hstart : w.start (out / name) = out.start cwd := by
    rw [← Path.start_div hname.isPiece, ← hw.cwd_eq]
    rfl
  have hmake : w.tree.makeDirectories (out.start cwd) (out.names ++ [name]) =
      w.tree.makeDirectories (out.place cwd) [name] := by
    rw [Path.place_of_isWhole hwhole]
    exact makeDirectories_append (Path.areSteps_names hwhole).ne_empty
      (hw.isDirectory_waypoints hwhole)
  rw [Act.createDirectories, Path.terminated_of_isWhole (hwhole.div hname), hempty]
  dsimp only
  by_cases hlong : (out / name).isTooLong = true
  · rw [if_pos (.inr hlong), if_pos hlong]
    rfl
  · rw [if_neg (not_or.2 ⟨Bool.false_ne_true, hlong⟩), if_neg hlong, Act.runOn_get_bind,
      hstart, Path.names_div_name out hname.isPiece hname.1, hmake,
      makeDirectories_cons hname.1, if_neg (not_or.2 ⟨hname.2.1, hname.2.2.1⟩),
      Place.step_name hname]
    cases w.tree.get? (out.place cwd ++ [name]) with
    | some e =>
      cases e with
      | file content => rfl
      | directory => rfl
    | none =>
      by_cases hlength : name.length > maxName
      · simp only [if_pos hlength]
        rfl
      · simp only [if_neg hlength]
        rfl

theorem lookup_div (hw : w.IsReady cwd out) :
    w.lookup (out / name) =
      if (out / name).isTooLong then .error .tooLong
      else if name.length > maxName then .error .tooLong else .ok (out.place cwd ++ [name]) := by
  have hempty : (out / name).isEmpty = false := by
    rw [Path.isEmpty, String.isEmpty_eq_false_iff]
    exact Path.text_div_ne_empty out hname.isPiece hname.1
  have hroute : (out / name).route = out.names ++ [name] := by
    rw [Path.route, Path.hasSlashAtEnd_div out hname, Path.names_div_name out hname.isPiece hname.1]
    exact List.append_nil _
  have hfollow : follow w.tree (out.start cwd) (out.names ++ [name]) =
      if name.length > maxName then .error .tooLong else .ok (out.place cwd ++ [name]) := by
    rw [follow_append, hw.follow_names hwhole, Except.bind, follow, hw.isDirectory_place,
      Bool.not_true, if_neg Bool.false_ne_true, if_neg (not_or.2 ⟨hname.2.1, hname.1⟩),
      if_neg hname.2.2.1]
    rfl
  rw [lookup_eq, Path.terminated_of_isWhole (hwhole.div hname), hempty,
    if_neg Bool.false_ne_true, hroute, Path.start_div hname.isPiece, hw.cwd_eq, hfollow]

theorem locate_div (hw : w.IsReady cwd out) (hadmits : out.Admits name) :
    w.locate (out / name) = some (out.place cwd ++ [name]) := by
  rw [locate, hw.lookup_div hwhole hname, hadmits.1, if_neg Bool.false_ne_true,
    if_neg (not_lt.2 hadmits.2)]
  rfl

/-- What can be found below the directory has a name that the file system takes. -/
theorem admits_of_locate (hw : w.IsReady cwd out) (h : w.locate (out / name) = some q) :
    out.Admits name ∧ q = out.place cwd ++ [name] := by
  rw [locate, hw.lookup_div hwhole hname] at h
  split_ifs at h with hlong hname'
  · cases h
  · cases h
  · exact ⟨⟨Bool.eq_false_iff.2 hlong, not_lt.1 hname'⟩, (Option.some.inj h).symm⟩

/-- Removing what has a name that the file system takes. -/
theorem removeAll_div (hw : w.IsReady cwd out) (hadmits : out.Admits name) :
    (Act.removeAll (out / name)).runOn w =
      (.ok ⟨⟩, { w with tree := w.tree.erase (out.place cwd ++ [name]) }) := by
  rw [Act.removeAll, Act.runOn_get_bind, hw.lookup_div hwhole hname, hadmits.1,
    if_neg Bool.false_ne_true, if_neg (not_lt.2 hadmits.2)]
  rfl

end IsReady

/-- Where a directory is ready to write in it stays so, and the places that `kept` tells keep their
entries. -/
def Spares (cwd : Place) (out : Path) (kept : Place → Prop) (w v : World) : Prop :=
  w.IsReady cwd out → v.IsReady cwd out ∧ ∀ q, kept q → v.tree.get? q = w.tree.get? q

namespace Spares
variable {cwd : Place} {out p : Path} {kept : Place → Prop} {w v : World}

theorem isFrame : Act.IsFrame (Spares cwd out kept) where
  refl _ hw := ⟨hw, fun _ _ => rfl⟩
  trans h h' hw := by
    obtain ⟨hv, hsame⟩ := h hw
    obtain ⟨hu, hsame'⟩ := h' hv
    exact ⟨hu, fun q hq => (hsame' q hq).trans (hsame q hq)⟩
  log _ _ hw := ⟨⟨hw.cwd_eq, hw.wellFormed, hw.isDirectory⟩, fun _ _ => rfl⟩

variable (hway : ∀ q ∈ out.waypoints cwd, kept q)
include hway

/-- A change of the tree that leaves the kept places as they are. -/
theorem of_tree {t : FileTree}
    (h : w.IsReady cwd out → t.WellFormed ∧ ∀ q, kept q → t.get? q = w.tree.get? q) :
    Spares cwd out kept w { w with tree := t } := fun hw =>
  ⟨hw.of_waypoints rfl (h hw).1 fun q hq => (h hw).2 q (hway q hq), (h hw).2⟩

theorem put (hproper : cwd.IsProper) (hp : ∀ w : World, w.IsReady cwd out →
      w.locate p = some (p.place cwd) → ¬ kept (p.place cwd)) (content : String)
    (failure : Failure) : (Act.put p content failure).Preserves (Spares cwd out kept) := by
  intro w
  rcases Act.put_cases w p content failure with h | ⟨hloc, hdir, hparent, h⟩
  · rw [h]
    exact isFrame.refl w
  · rw [h]
    refine of_tree hway fun hw => ?_
    rw [hw.cwd_eq] at hloc hdir hparent ⊢
    have hne : p.place cwd ≠ [] := by
      intro hnil
      rw [hnil] at hdir
      cases hdir
    refine ⟨hw.wellFormed.put hne (Act.isProper_place hproper p) hparent hdir, fun q hq => ?_⟩
    refine get?_put_of_ne ?_
    intro hplace
    exact hp w hw hloc (hplace ▸ hq)

theorem removeAll (hp : ∀ w : World, w.IsReady cwd out → w.locate p = some (p.place cwd) →
      ∀ q, kept q → ¬ p.place cwd <+: q) :
    (Act.removeAll p).Preserves (Spares cwd out kept) := by
  intro w
  rcases Act.removeAll_cases w p with h | ⟨hloc, h⟩
  · rw [h]
    exact isFrame.refl w
  · rw [h]
    refine of_tree hway fun hw => ?_
    rw [hw.cwd_eq] at hloc ⊢
    refine ⟨hw.wellFormed.erase, fun q hq => ?_⟩
    rw [get?_erase, if_neg]
    exact fun hq' => hp w hw hloc q hq hq'.2

theorem createDirectories_div (hproper : cwd.IsProper) (hwhole : out.IsWhole) {name : String}
    (hname : IsName name) (h : out.Admits name → ¬ kept (out.place cwd ++ [name])) :
    (Act.createDirectories (out / name)).Preserves (Spares cwd out kept) := by
  intro w hw
  rw [hw.createDirectories_div hwhole hname]
  by_cases hlong : (out / name).isTooLong = true
  · rw [if_pos hlong]
    exact isFrame.refl w hw
  rw [if_neg hlong]
  cases hget : w.tree.get? (out.place cwd ++ [name]) with
  | some e =>
    cases e with
    | file content => exact isFrame.refl w hw
    | directory => exact isFrame.refl w hw
  | none =>
    dsimp only
    by_cases hlength : name.length > maxName
    · rw [if_pos hlength]
      exact isFrame.refl w hw
    rw [if_neg hlength]
    have hne : out.place cwd ++ [name] ≠ [] := List.concat_ne_nil _ _
    have hnot : w.tree.isDirectory (out.place cwd ++ [name]) = false := by
      rw [FileTree.isDirectory, hget]
      rfl
    refine of_tree hway (fun hw => ⟨?_, fun q hq => ?_⟩) hw
    · refine hw.wellFormed.put hne ((Act.isProper_place hproper out).append hname) ?_ hnot
      rw [List.dropLast_concat]
      exact hw.isDirectory_place
    · refine get?_put_of_ne ?_
      intro hplace
      exact h ⟨Bool.eq_false_iff.2 hlong, not_lt.1 hlength⟩ (hplace ▸ hq)

end Spares
end World
end Bindery
