import Bindery.Proofs.Staging.Afresh
import Bindery.Proofs.World.Around

/-!
# Staging again

A staging over what an earlier one has left, in a world that is otherwise the same around the output
directory, stages the same files with the same texts. What is written to the output directory before
and after it makes no difference.
-/
namespace Bindery.Staging
open Act FileTree
open Bindery.Path (IsName)

variable {cwd : Place} {out : Path} {s : Sources} {mode : Mode} {st : Staged} {u v w : World}
  {files : Place → Prop}

/-- What a run has changed that only writes in an output directory. Nothing around it is changed,
the file system takes the paths of what has a staged name if it did before, and no directory comes
up at the places that `files` tells. -/
structure IsTidy (cwd : Place) (out : Path) (files : Place → Prop) (w v : World) : Prop where
  isReady : v.IsReady cwd out
  around : ∀ q, ¬ (out.place cwd).IsInside q → v.tree.get? q = w.tree.get? q
  areAdmitted : AreAdmitted cwd out w.tree → AreAdmitted cwd out v.tree
  isDirectory : ∀ q, files q → v.tree.isDirectory q = true → w.tree.isDirectory q = true

/-- A run that only writes in an output directory, if this is ready. -/
def Tidies (cwd : Place) (out : Path) (files : Place → Prop) (w v : World) : Prop :=
  w.IsReady cwd out → IsTidy cwd out files w v

namespace Tidies

theorem isFrame : IsFrame (Tidies cwd out files) where
  refl _ hw := ⟨hw, fun _ _ => rfl, id, fun _ _ => id⟩
  trans h h' hw := by
    obtain ⟨hv, haround, hadmitted, hdir⟩ := h hw
    obtain ⟨hu, haround', hadmitted', hdir'⟩ := h' hv
    exact ⟨hu, fun q hq => (haround' q hq).trans (haround q hq), hadmitted' ∘ hadmitted,
      fun q hq h => hdir q hq (hdir' q hq h)⟩
  log _ _ hw := ⟨⟨hw.cwd_eq, hw.wellFormed, hw.isDirectory⟩, fun _ _ => rfl, id, fun _ _ => id⟩

variable (hway : out.Avoids cwd out)
include hway

/-- A change of the tree in the output directory. -/
theorem of_tree {t : FileTree} (ht : w.IsReady cwd out → t.WellFormed)
    (haround : ∀ q, ¬ (out.place cwd).IsInside q → t.get? q = w.tree.get? q)
    (hadmitted : w.IsReady cwd out → AreAdmitted cwd out w.tree → AreAdmitted cwd out t)
    (hdir : ∀ q, files q → t.isDirectory q = true → w.tree.isDirectory q = true) :
    Tidies cwd out files w { w with tree := t } := fun hw =>
  ⟨hw.of_waypoints rfl (ht hw) fun q hq => haround q (hway q hq), haround, hadmitted hw, hdir⟩

variable (hproper : cwd.IsProper) (hout : out.IsWhole)
include hproper

theorem put {p : Path} (hinside : (out.place cwd).IsInside (p.place cwd))
    (hadmits : ∀ w : World, w.IsReady cwd out → w.locate p = some (p.place cwd) →
      ∀ name, p.place cwd = out.place cwd ++ [name] → out.Admits name)
    (content : String) (failure : Failure) :
    (Act.put p content failure).Preserves (Tidies cwd out files) := by
  intro w
  rcases put_cases w p content failure with h | ⟨hloc, hdir, hparent, h⟩
  · rw [h]
    exact isFrame.refl w
  rw [h]
  intro hw
  obtain rfl := hw.cwd_eq
  have hne : p.place w.cwd ≠ [] := by
    intro hnil
    rw [hnil] at hdir
    cases hdir
  refine of_tree hway (fun hw => ?_) (fun q hq => ?_) (fun hw hadmitted name hstaged hsome => ?_)
    (fun q _ hq => ?_) hw
  · exact hw.wellFormed.put hne (isProper_place hproper p) hparent hdir
  · refine get?_put_of_ne ?_
    intro hplace
    rw [hplace] at hq
    exact hq hinside
  · rw [FileTree.get?_put hne] at hsome
    by_cases hplace : out.place w.cwd ++ [name] = p.place w.cwd
    · exact hadmits w hw hloc name hplace.symm
    · rw [if_neg hplace] at hsome
      exact hadmitted name hstaged hsome
  · rwa [World.isDirectory_put hdir] at hq

include hout

/-- Putting a file below the output directory. -/
theorem put_div {name : String} (hname : IsName name) (content : String) (failure : Failure) :
    (Act.put (out / name) content failure).Preserves (Tidies cwd out files) := by
  have hplace : (out / name).place cwd = out.place cwd ++ [name] := Path.place_div hout hname
  refine put hway hproper ?_ (fun w hw hloc other hother => ?_) content failure
  · rw [hplace]
    exact Place.isInside_concat _ _
  · obtain rfl := List.singleton_inj.1 (List.append_cancel_left (hplace.symm.trans hother))
    exact (hw.admits_of_locate hout hname hloc).1

theorem put_target {p : Path} (hp : IsTarget out p) (content : String) (failure : Failure) :
    (Act.put p content failure).Preserves (Tidies cwd out files) := by
  cases hp with
  | file hstaged hname => exact put_div hway hproper hout hname content failure
  | @copy name i hname =>
    have hext := isName_externalName i
    have hplace : (out / externalName i / name).place cwd =
        out.place cwd ++ [externalName i, name] := by
      rw [Path.place_div (hout.div hext) hname, Path.place_div hout hext, List.append_assoc,
        List.singleton_append]
    refine put hway hproper ?_ (fun w hw hloc other hother => ?_) content failure
    · rw [hplace]
      exact Place.isInside_append (List.cons_ne_nil _ _)
    · have hnames := List.append_cancel_left (hplace.symm.trans hother)
      cases (List.cons.inj hnames).2

omit hproper in
theorem removeAll_div {name : String} (hname : IsName name) :
    (Act.removeAll (out / name)).Preserves (Tidies cwd out files) := by
  intro w
  rcases removeAll_cases w (out / name) with h | ⟨hloc, h⟩
  · rw [h]
    exact isFrame.refl w
  rw [h]
  intro hw
  obtain rfl := hw.cwd_eq
  rw [Path.place_div hout hname]
  have hlost : ∀ q e, (w.tree.erase (out.place w.cwd ++ [name])).get? q = some e →
      w.tree.get? q = some e := by
    intro q e hq
    rw [get?_erase] at hq
    split_ifs at hq
    exact hq
  refine of_tree hway (fun hw => hw.wellFormed.erase) (fun q hq => ?_)
    (fun _ hadmitted other hstaged hsome => ?_) (fun q _ hq => ?_) hw
  · rw [get?_erase, if_neg]
    exact fun hfront => hq ((Place.isInside_concat _ _).mono hfront.2)
  · obtain ⟨e, he⟩ := Option.isSome_iff_exists.1 hsome
    exact hadmitted other hstaged (Option.isSome_iff_exists.2 ⟨e, hlost _ e he⟩)
  · exact isDirectory_iff.2 (hlost q _ (isDirectory_iff.1 hq))

theorem createDirectories_div {name : String} (hname : IsName name)
    (hfiles : ¬ files (out.place cwd ++ [name])) :
    (Act.createDirectories (out / name)).Preserves (Tidies cwd out files) := by
  intro w hw
  rw [hw.createDirectories_div hout hname]
  by_cases hlong : (out / name).isTooLong = true
  · rw [if_pos hlong]
    exact isFrame.refl w hw
  rw [if_neg hlong]
  cases hget : w.tree.get? (out.place cwd ++ [name]) with
  | some e =>
    cases e with
    | file content => exact isFrame.refl w hw
    | directory => exact isFrame.refl w hw
  | none =>
    dsimp only
    by_cases hlength : name.length > maxName
    · rw [if_pos hlength]
      exact isFrame.refl w hw
    rw [if_neg hlength]
    have hne : out.place cwd ++ [name] ≠ [] := List.concat_ne_nil _ _
    have hnot : w.tree.isDirectory (out.place cwd ++ [name]) = false := by
      rw [FileTree.isDirectory, hget]
      rfl
    refine of_tree hway (fun hw => ?_) (fun q hq => ?_) (fun _ hadmitted other hstaged hsome => ?_)
      (fun q hq hdir => ?_) hw
    · refine hw.wellFormed.put hne ((isProper_place hproper out).append hname) ?_ hnot
      rw [List.dropLast_concat]
      exact hw.isDirectory_place
    · refine get?_put_of_ne ?_
      intro hplace
      rw [hplace] at hq
      exact hq (Place.isInside_concat _ _)
    · rw [FileTree.get?_put hne] at hsome
      by_cases hother : out.place cwd ++ [other] = out.place cwd ++ [name]
      · obtain rfl := List.singleton_inj.1 (List.append_cancel_left hother)
        exact ⟨Bool.eq_false_iff.2 hlong, not_lt.1 hlength⟩
      · rw [if_neg hother] at hsome
        exact hadmitted other hstaged hsome
    · rw [FileTree.isDirectory, get?_put_of_ne] at hdir
      · exact hdir
      · intro hplace
        rw [hplace] at hq
        exact hfiles hq

/-- Staging only writes in its output directory. -/
theorem isStagingFrame (hfiles : ∀ i, ¬ files (out.place cwd ++ [externalName i])) :
    IsStagingFrame out (Tidies cwd out files) where
  toIsFrame := isFrame
  ofUnnamed h hw := absurd hw.wellFormed.isNamed h
  create w hw := by
    rw [hw.createDirectories_self hout]
    exact isFrame.refl w hw
  createExternal i :=
    createDirectories_div hway hproper hout (isName_externalName i) (hfiles i)
  remove _ _ hname := removeAll_div hway hout hname
  put _ content failure hp := put_target hway hproper hout hp content failure

end Tidies

/-! ### Staging once more -/

theorem isClear_of_avoids (hway : out.Avoids cwd out) : IsClear cwd out := by
  rintro q hq ⟨name, -, hfront⟩
  exact hway q hq ((Place.isInside_concat _ _).mono hfront)

section
variable (hproper : cwd.IsProper) (hout : out.IsWhole) (hway : out.Avoids cwd out)
include hproper hout hway

omit hproper in
/-- A staging that succeeds could remove all that has a staged name. -/
theorem areAdmitted_of_assemble (hw : w.IsReady cwd out)
    (hrun : (assemble s mode out).runOn w = (.ok st, v)) : AreAdmitted cwd out w.tree := by
  rw [assemble_eq, runOn_bind_of_ok (hw.createDirectories_self hout)] at hrun
  obtain ⟨_, u, hclean, -⟩ := bind_ok.1 hrun
  exact areAdmitted_of_clean hout (isClear_of_avoids hway) hw hclean

/-- A staging that succeeds from one world succeeds from any other that agrees with it around the
output directory, if all can be removed there that has a staged name. It returns the same and leaves
the same at the staged places. -/
theorem assemble_again (hfiles : ∀ file ∈ externals s, IsOutside (out.place cwd) file)
    (h : World.AgreeAround cwd out w v) (hadmitted : AreAdmitted cwd out v.tree) {w' : World}
    (hrun : (assemble s mode out).runOn w = (.ok st, w')) :
    ∃ v', (assemble s mode out).runOn v = (.ok st, v') ∧ AreAlike cwd out w' v' ∧
      ∀ p ∈ st.files, w'.hashed p = v'.hashed p := by
  have hclear := isClear_of_avoids hway
  have hadmittedLeft := areAdmitted_of_assemble hout hway h.left hrun
  rw [assemble_eq, runOn_bind_of_ok (h.left.createDirectories_self hout)] at hrun
  obtain ⟨_, w₁, hclean, hstage⟩ := bind_ok.1 hrun
  obtain ⟨w₂, hclean', hw₁, hnone⟩ := clean_of_isReady hout hclear h.left hadmittedLeft
  obtain rfl := (Prod.mk.inj (hclean'.symm.trans hclean)).2
  obtain ⟨v₁, hcleanRight, hv₁, hnoneRight⟩ := clean_of_isReady hout hclear h.right hadmitted
  have hbefore : AreAlike cwd out w₂ v₁ := by
    refine ⟨hw₁.isReady, hv₁.isReady, fun q hq => ?_⟩
    by_cases hstaged : IsStagedPlace (out.place cwd) q
    · rw [hnone q hstaged, hnoneRight q hstaged]
    · rw [hw₁.kept q hstaged, hv₁.kept q hstaged]
      refine h.entries q ?_
      rcases hq with hinside | hq | hq
      · exact hinside
      · exact absurd hq hstaged
      · exact hway q hq
  obtain ⟨-, v', hstageRight, hafter⟩ :=
    repeats_stage hproper hout hclear hfiles w₂ v₁ w' st hbefore hstage
  refine ⟨v', ?_, hafter, fun p hp => ?_⟩
  · rw [assemble_eq, runOn_bind_of_ok (h.right.createDirectories_self hout),
      runOn_bind_of_ok hcleanRight, hstageRight]
  -- What is staged is found at its place in either world, and stands there alike.
  have hlocated : ∀ {x y : World}, x.IsReady cwd out → (stage s out mode).runOn x = (.ok st, y) →
      y.locate p = some (p.place cwd) ∧ IsStagedPlace (out.place cwd) (p.place cwd) := by
    intro x y hx hrun
    obtain ⟨l, hl, hlays, hwritten⟩ := stage_ok hproper hx.wellFormed.isIndexed hx.cwd_eq hout
      (areApart_of_outside hfiles) hrun
    rw [hl] at hp
    obtain ⟨content, hmem⟩ := mem_filesOf.1 hp
    exact ⟨hlays.located p content hmem, hwritten.areStaged hout (p, .file content) hmem⟩
  obtain ⟨hloc, hstaged⟩ := hlocated hw₁.isReady hstage
  obtain ⟨hloc', -⟩ := hlocated hv₁.isReady hstageRight
  rw [World.hashed, World.hashed, World.get?, World.get?, hloc, hloc', Option.bind_some,
    Option.bind_some, hafter.entries _ (.inr (.inl hstaged))]

end

end Bindery.Staging
