import Bindery.Proofs.World.Ready

/-!
# Making a directory to write in

A directory that can be listed after it has been made is ready to write in. Whether it can be made
depends on its path and on the files in the way only, so what lies in it makes no difference.
-/
namespace Bindery
open FileTree

/-- A name of a path that the file system takes. -/
def FileTree.IsShort (name : String) : Prop :=
  name = "" ∨ name = "." ∨ name = ".." ∨ name.length ≤ maxName

namespace FileTree
variable {t : FileTree} {cur q : Place} {names : List String}

/-- Directories can be made along short names where no file is in the way. -/
theorem makeDirectories_of_not_file (hne : ∀ n ∈ names, n ≠ "") (hshort : ∀ n ∈ names, IsShort n)
    (hfree : ∀ q ∈ Place.waypoints cur names, ∀ content, t.get? q ≠ some (.file content)) :
    (t.makeDirectories cur names).2 = true := by
  induction names generalizing t cur with
  | nil => rfl
  | cons n ns ih =>
    have hne' : ∀ m ∈ ns, m ≠ "" := fun m hm => hne m (List.mem_cons_of_mem _ hm)
    have hshort' : ∀ m ∈ ns, IsShort m := fun m hm => hshort m (List.mem_cons_of_mem _ hm)
    have hfree' : ∀ q ∈ Place.waypoints (Place.step cur n) ns, ∀ content,
        t.get? q ≠ some (.file content) := fun q hq => hfree q (List.mem_cons_of_mem _ hq)
    rcases makeDirectories_cases (hne n List.mem_cons_self) t cur ns with
      ⟨-, hdot, hup, hway⟩ | ⟨hlead, -⟩ | ⟨hmake, hstep, -⟩
    · rcases hway with hlong | ⟨content, hfile⟩
      · rcases hshort n List.mem_cons_self with h | h | h | h
        · exact absurd h (hne n List.mem_cons_self)
        · exact absurd h hdot
        · exact absurd h hup
        · exact absurd h (not_le.2 hlong)
      · exact absurd hfile (hfree' _ Place.mem_waypoints_self content)
    · rw [hlead]
      exact ih hne' hshort' hfree'
    · rw [hmake]
      refine ih hne' hshort' fun q hq content => ?_
      rw [get?_put (hstep ▸ List.concat_ne_nil n cur)]
      split_ifs
      · nofun
      · exact hfree' q hq content

end FileTree

namespace World
variable {t : FileTree} {cur q : Place} {names : List String}

/-- Only short names can be followed. -/
theorem isShort_of_follow (h : follow t cur names = .ok q) : ∀ n ∈ names, IsShort n := by
  induction names generalizing cur with
  | nil => exact fun n hn => absurd hn List.not_mem_nil
  | cons n ns ih =>
    rw [follow] at h
    split_ifs at h with hdir hdot hup hlong
    · refine List.forall_mem_cons.2 ⟨?_, ih h⟩
      rcases hdot with hdot | hempty
      · exact .inr (.inl hdot)
      · exact .inl hempty
    · exact List.forall_mem_cons.2 ⟨.inr (.inr (.inl hup)), ih h⟩
    · exact List.forall_mem_cons.2 ⟨.inr (.inr (.inr (not_lt.1 hlong))), ih h⟩

/-- Short names can be followed from directory to directory. -/
theorem follow_of_isDirectory (hshort : ∀ n ∈ names, IsShort n)
    (h : ∀ q ∈ Place.waypoints cur names, t.isDirectory q = true) :
    follow t cur names = .ok (Place.walk cur names) := by
  induction names generalizing cur with
  | nil => rfl
  | cons n ns ih =>
    have hrest : follow t (Place.step cur n) ns = .ok (Place.walk (Place.step cur n) ns) :=
      ih (fun m hm => hshort m (List.mem_cons_of_mem _ hm))
        fun q hq => h q (List.mem_cons_of_mem _ hq)
    rw [follow, h cur List.mem_cons_self, Bool.not_true, if_neg Bool.false_ne_true, Place.walk_cons]
    rw [Place.step] at hrest ⊢
    split_ifs at hrest ⊢ with hdot hup hlong
    · exact hrest
    · exact hrest
    · rcases hshort n List.mem_cons_self with hn | hn | hn | hn
      · exact absurd (.inr hn) hdot
      · exact absurd (.inl hn) hdot
      · exact absurd hn hup
      · exact absurd hn (not_le.2 hlong)
    · exact hrest

section
variable {cwd : Place} {out : Path} {u v w : World} {entries : List (Path × Entry)}

/-- A path that can be made and followed, were there no files in the way. -/
structure IsFit (out : Path) : Prop where
  isEmpty : out.isEmpty = false
  isTooLong : out.isTooLong = false
  isShort : ∀ n ∈ out.names, IsShort n

/-- What is found has a path that is fit. -/
theorem IsReady.isFit (hwhole : out.IsWhole) (hw : w.IsReady cwd out) : IsFit out := by
  have hloc := hw.locate_eq
  rw [locate, lookup_eq, Path.terminated_of_isWhole hwhole] at hloc
  split_ifs at hloc with hempty hlong
  · cases hloc
  · cases hloc
  · exact ⟨Bool.eq_false_iff.2 hempty, Bool.eq_false_iff.2 hlong,
      isShort_of_follow (hw.follow_names hwhole)⟩

/-- A directory that is listed after it was made is ready. -/
theorem isReady_of_list (hproper : cwd.IsProper) (hcwd : w.cwd = cwd) (hw : w.tree.WellFormed)
    (hdir : w.tree.isDirectory cwd = true)
    (hcreate : (Act.createDirectories out).runOn w = (.ok ⟨⟩, u))
    (hlist : (Act.list out).runOn u = (.ok entries, v)) : u.IsReady cwd out := by
  have hstart : w.tree.isDirectory (out.terminated.start cwd) = true := by
    rw [Path.start]
    split_ifs
    · rfl
    · exact hdir
  rcases Act.createDirectories_cases w out with herror | hdone
  · cases herror.symm.trans hcreate
  have hu : u.cwd = cwd ∧ u.tree.WellFormed := by
    rw [hdone] at hcreate
    obtain ⟨-, rfl⟩ := Prod.mk.inj hcreate
    refine ⟨hcwd, ?_⟩
    rw [Act.withDirectories, hcwd]
    exact (hw.makeDirectories (Act.isProper_start hproper _) hstart (Act.areSteps_terminated _)).1
  refine ⟨hu.1, hu.2, ?_⟩
  rw [Act.runOn_list, list?] at hlist
  cases hloc : u.locate out with
  | none =>
    rw [hloc] at hlist
    cases hlist
  | some place =>
    rw [hloc] at hlist
    dsimp only at hlist
    split_ifs at hlist with hplace
    · rw [isDirectory, get?, hloc, Option.bind_some]
      exact decide_eq_true (isDirectory_iff.1 hplace)
    · cases hlist

/-- A directory with a fit path becomes ready by making it, if no file is in the way. -/
theorem IsFit.createDirectories (hfit : IsFit out) (hproper : cwd.IsProper) (hwhole : out.IsWhole)
    (hcwd : w.cwd = cwd) (hw : w.tree.WellFormed) (hdir : w.tree.isDirectory cwd = true)
    (hfree : ∀ q ∈ out.waypoints cwd, ∀ content, w.tree.get? q ≠ some (.file content)) :
    ∃ v, (Act.createDirectories out).runOn w = (.ok ⟨⟩, v) ∧ v.IsReady cwd out := by
  have hstart : w.tree.isDirectory (out.start cwd) = true := by
    rw [Path.start]
    split_ifs
    · rfl
    · exact hdir
  have hsteps := Path.areSteps_names hwhole
  rw [Path.waypoints_of_isWhole hwhole] at hfree
  have hmade := makeDirectories_of_not_file hsteps.ne_empty hfit.isShort hfree
  obtain ⟨hformed, hall⟩ := hw.makeDirectories (Act.isProper_start hproper out) hstart hsteps
  have hway := hall hmade
  let v : World := { w with tree := (w.tree.makeDirectories (out.start cwd) out.names).1 }
  refine ⟨v, ?_, hcwd, hformed, ?_⟩
  · have hw' : w.start out = out.start cwd := by rw [← hcwd]; rfl
    rw [Act.createDirectories, Path.terminated_of_isWhole hwhole]
    dsimp only
    rw [if_neg (by rw [hfit.isEmpty, hfit.isTooLong]; simp), Act.runOn_get_bind, hw', hmade]
    rfl
  · have hfollow : follow v.tree (out.start cwd) out.route = .ok (out.place cwd) := by
      rw [Path.place_of_isWhole hwhole, ← Path.walk_route]
      refine follow_of_isDirectory (fun n hn => ?_)
        fun q hq => hway q (Path.mem_waypoints_route.1 hq)
      rcases List.mem_append.1 hn with hn | hn
      · exact hfit.isShort n hn
      · split_ifs at hn
        · exact .inl (List.mem_singleton.1 hn)
        · exact absurd hn List.not_mem_nil
    have hplace : v.tree.isDirectory (out.place cwd) = true := by
      refine hway _ ?_
      rw [Path.place_of_isWhole hwhole]
      exact Place.walk_mem_waypoints
    have hloc : v.locate out = some (out.place cwd) := by
      rw [locate, lookup_eq, Path.terminated_of_isWhole hwhole, hfit.isEmpty, hfit.isTooLong]
      change (follow v.tree (out.start w.cwd) out.route).toOption = _
      rw [hcwd, hfollow]
      rfl
    rw [isDirectory, get?, hloc, Option.bind_some]
    exact decide_eq_true (isDirectory_iff.1 hplace)

end
end World
end Bindery
