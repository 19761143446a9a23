import Bindery.Proofs.Staging.Frame
import Bindery.Proofs.World.Listing
import Bindery.Proofs.World.Made
import Bindery.Proofs.World.Repeat

/-!
# Cleaning up

A staging first removes whatever has a staged name. This leaves the rest of the output directory as
it is, and fails only where the file system does not take the path of something to remove.
-/
namespace Bindery.Staging
open Act FileTree
open Bindery.Path (IsName)

variable {cwd : Place} {out : Path} {u v w : World}

/-- The staged names in a directory have paths that the file system takes. -/
def AreAdmitted (cwd : Place) (out : Path) (t : FileTree) : Prop :=
  ∀ name, isStaged name = true → (t.get? (out.place cwd ++ [name])).isSome → out.Admits name

/-- The way to an output directory does not lead through what is staged. -/
def IsClear (cwd : Place) (out : Path) : Prop :=
  ∀ q ∈ out.waypoints cwd, ¬ IsStagedPlace (out.place cwd) q

theorem runOn_list_of_isReady (hw : w.IsReady cwd out) :
    (Act.list out).runOn w =
      (.ok ((w.tree.children (out.place cwd)).map fun x => (out / x.1, x.2)), w) := by
  rw [runOn_list, World.list?, hw.locate_eq]
  dsimp only
  rw [if_pos hw.isDirectory_place]
  rfl

/-- Entries only go away. -/
structure IsCleaning (cwd : Place) (out : Path) (w u : World) : Prop where
  isReady : u.IsReady cwd out
  kept : ∀ q, ¬ IsStagedPlace (out.place cwd) q → u.tree.get? q = w.tree.get? q
  lost : ∀ q, u.tree.get? q = none ∨ u.tree.get? q = w.tree.get? q

theorem IsCleaning.removeAll (hout : out.IsWhole) (hclear : IsClear cwd out) {name : String}
    (hname : IsName name) (hstaged : isStaged name = true) (hadmits : out.Admits name)
    (h : IsCleaning cwd out w u) :
    ∃ v, (Act.removeAll (out / name)).runOn u = (.ok ⟨⟩, v) ∧ IsCleaning cwd out w v ∧
      (∀ q, out.place cwd ++ [name] <+: q → v.tree.get? q = none) ∧
      ∀ q, u.tree.get? q = none → v.tree.get? q = none := by
  have hget : ∀ q, (u.tree.erase (out.place cwd ++ [name])).get? q =
      if out.place cwd ++ [name] <+: q then none else u.tree.get? q := by
    intro q
    rw [get?_erase]
    by_cases hq : out.place cwd ++ [name] <+: q
    · have hne : q ≠ [] := by
        rintro rfl
        exact List.concat_ne_nil _ _ (List.prefix_nil.1 hq)
      rw [if_pos ⟨hne, hq⟩, if_pos hq]
    · rw [if_neg fun h => hq h.2, if_neg hq]
  have hsame : ∀ q, ¬ IsStagedPlace (out.place cwd) q →
      (u.tree.erase (out.place cwd ++ [name])).get? q = u.tree.get? q := by
    intro q hq
    rw [hget, if_neg fun h => hq ⟨name, hstaged, h⟩]
  refine ⟨_, h.isReady.removeAll_div hout hname hadmits, ⟨?_, ?_, ?_⟩, ?_, ?_⟩
  · exact h.isReady.of_waypoints rfl h.isReady.wellFormed.erase fun q hq => hsame q (hclear q hq)
  · exact fun q hq => (hsame q hq).trans (h.kept q hq)
  · intro q
    rw [hget]
    split_ifs
    · exact .inl rfl
    · exact h.lost q
  · exact fun q hq => (hget q).trans (if_pos hq)
  · intro q hq
    rw [hget, hq, ite_self]

/-- What the clean-up does about one entry. -/
def cleanEntry (x : Path × Entry) : Act Unit :=
  if isStaged x.1.filename then Act.removeAll x.1 else pure ()

/-- Nothing is left of an entry that has a staged name. -/
def IsGone (cwd : Place) (out : Path) (x : Path × Entry) (u : World) : Prop :=
  isStaged x.1.filename = true → ∀ q, out.place cwd ++ [x.1.filename] <+: q → u.tree.get? q = none

theorem clean_eq (out : Path) : clean out = (do (← Act.list out).forM cleanEntry) := rfl

/-- The clean-up leaves nothing that has a staged name, and all else as it is. -/
theorem clean_of_isReady (hout : out.IsWhole) (hclear : IsClear cwd out) (hw : w.IsReady cwd out)
    (hadmitted : AreAdmitted cwd out w.tree) :
    ∃ v, (clean out).runOn w = (.ok ⟨⟩, v) ∧ IsCleaning cwd out w v ∧
      ∀ q, IsStagedPlace (out.place cwd) q → v.tree.get? q = none := by
  have hindexed := hw.wellFormed.isIndexed
  have hstep : ∀ x ∈ (w.tree.children (out.place cwd)).map fun x => (out / x.1, x.2), ∀ u,
      IsCleaning cwd out w u → ∃ v, (cleanEntry x).runOn u = (.ok ⟨⟩, v) ∧
        IsCleaning cwd out w v ∧ IsGone cwd out x v ∧
        ∀ y, IsGone cwd out y u → IsGone cwd out y v := by
    intro x hx u hu
    obtain ⟨⟨name, e⟩, hchild, rfl⟩ := List.mem_map.1 hx
    have hget := (mem_children hindexed).1 hchild
    have hname := hindexed.isNamed.isProper hget name (List.mem_append_right _ List.mem_cons_self)
    rw [cleanEntry, Path.filename_div_name out hname]
    by_cases hstaged : isStaged name = true
    · have hadmits := hadmitted name hstaged (by rw [hget]; rfl)
      obtain ⟨v, hrun, hv, hgone, hstays⟩ := hu.removeAll hout hclear hname hstaged hadmits
      rw [if_pos hstaged]
      refine ⟨v, hrun, hv, fun _ q hq => hgone q ?_, fun y hy hs q hq => hstays q (hy hs q hq)⟩
      rwa [Path.filename_div_name out hname] at hq
    · rw [if_neg hstaged]
      refine ⟨u, rfl, hu, fun h => ?_, fun y hy => hy⟩
      rw [Path.filename_div_name out hname] at h
      exact absurd h hstaged
  obtain ⟨v, hrun, hv, -, hgone⟩ := forM_ok hstep ⟨hw, fun _ _ => rfl, fun _ => .inr rfl⟩
  refine ⟨v, ?_, hv, fun q hq => ?_⟩
  · rw [clean_eq, runOn_bind_of_ok (runOn_list_of_isReady hw), hrun]
  -- Below a staged name that was listed all is gone; below any other there was nothing.
  obtain ⟨name, hstaged, hfront⟩ := hq
  by_contra hsome
  obtain ⟨e, he⟩ := Option.ne_none_iff_exists'.1 hsome
  obtain ⟨e', he'⟩ := hv.isReady.wellFormed.exists_of_prefix hfront he
  have hget : w.tree.get? (out.place cwd ++ [name]) = some e' := by
    rcases hv.lost (out.place cwd ++ [name]) with hnone | hsame
    · cases hnone.symm.trans he'
    · rw [← hsame, he']
  have hname := hindexed.isNamed.isProper hget name (List.mem_append_right _ List.mem_cons_self)
  have hgone' := hgone (out / name, e')
    (List.mem_map.2 ⟨(name, e'), (mem_children hindexed).2 hget, rfl⟩)
  rw [IsGone, Path.filename_div_name out hname] at hgone'
  exact hsome (hgone' hstaged q hfront)

/-- A clean-up that succeeds could remove all that has a staged name. -/
theorem areAdmitted_of_clean (hout : out.IsWhole) (hclear : IsClear cwd out)
    (hw : w.IsReady cwd out) (h : (clean out).runOn w = (.ok ⟨⟩, v)) :
    AreAdmitted cwd out w.tree := by
  have hindexed := hw.wellFormed.isIndexed
  have hnames : ∀ {name e}, (name, e) ∈ w.tree.children (out.place cwd) → IsName name :=
    fun hchild => hindexed.isNamed.isProper ((mem_children hindexed).1 hchild) _
      (List.mem_append_right _ List.mem_cons_self)
  have hstep : ∀ x ∈ (w.tree.children (out.place cwd)).map fun x => (out / x.1, x.2), ∀ u u',
      u.IsReady cwd out → (cleanEntry x).runOn u = (.ok ⟨⟩, u') → u'.IsReady cwd out := by
    intro x hx u u' hu hrun
    obtain ⟨⟨name, e⟩, hchild, rfl⟩ := List.mem_map.1 hx
    have hname := hnames hchild
    rw [cleanEntry, Path.filename_div_name out hname] at hrun
    split_ifs at hrun with hstaged
    · have hspares : (Act.removeAll (out / name)).Preserves
          (World.Spares cwd out (· ∈ out.waypoints cwd)) := by
        refine World.Spares.removeAll (fun _ => id) fun _ _ _ q hway hfront => hclear q hway ?_
        rw [Path.place_div hout hname] at hfront
        exact ⟨name, hstaged, hfront⟩
      exact (hspares.of_ok hrun hu).1
    · obtain ⟨-, rfl⟩ := Prod.mk.inj hrun
      exact hu
  rw [clean_eq, runOn_bind_of_ok (runOn_list_of_isReady hw)] at h
  intro name hstaged hsome
  obtain ⟨e, hget⟩ := Option.isSome_iff_exists.1 hsome
  have hchild := (mem_children hindexed).2 hget
  have hname := hnames hchild
  obtain ⟨u, u', hu, hrun⟩ :=
    exists_of_forM_ok hstep hw h (List.mem_map.2 ⟨(name, e), hchild, rfl⟩)
  rw [cleanEntry, Path.filename_div_name out hname, if_pos hstaged, Act.removeAll, runOn_get_bind,
    hu.lookup_div hout hname] at hrun
  split_ifs at hrun with hlong hlength
  · cases hrun
  · cases hrun
  · exact ⟨Bool.eq_false_iff.2 hlong, not_lt.1 hlength⟩

end Bindery.Staging
