import Bindery.Proofs.World.Listing
import Bindery.Proofs.World.Repeat

/-!
# Worlds that agree around a directory

Whatever lies in a directory, paths that do not lead into it lead to the same. So a search below
another directory that passes it by finds the same files.
-/
namespace Bindery
open FileTree

/-- The way of a path does not lead into a directory, though it may lead to it. -/
def Path.Avoids (p : Path) (cwd : Place) (out : Path) : Prop :=
  ∀ q ∈ p.waypoints cwd, ¬ (out.place cwd).IsInside q

/-- Names that lead from a directory to what is not in another one lead around that one. -/
theorem Path.avoids_below {cwd : Place} {out p : Path} (hp : p.IsWhole) (havoids : p.Avoids cwd out)
    {names : List String} (hnames : Place.IsProper names)
    (hplace : ¬ (out.place cwd).IsInside (p.place cwd ++ names)) :
    (p.below names).Avoids cwd out := by
  intro q hq hinside
  rcases Path.mem_waypoints_below hp hnames hq with hway | ⟨-, hfront⟩
  · exact havoids q hway hinside
  · exact hplace (hinside.mono hfront)

namespace World

/-- Worlds in which a directory is ready to write in, with the same around it. -/
abbrev AgreeAround (cwd : Place) (out : Path) : World → World → Prop :=
  Alike cwd out fun q => ¬ (out.place cwd).IsInside q

variable {cwd : Place} {out p dir : Path} {P P' : Place → Prop} {w v : World}

theorem Alike.mono (h : Alike cwd out P w v) (hmono : ∀ q, P' q → P q) : Alike cwd out P' w v :=
  ⟨h.left, h.right, fun q hq => h.entries q (hmono q hq)⟩

theorem canonical_congr (hcwd : w.cwd = v.cwd) (hget : w.get? p = v.get? p)
    (hexists : w.exists? p = true) : w.canonical p = v.canonical p := by
  have hexists' : v.exists? p = true := by rwa [exists?, ← hget]
  rw [canonical_of_exists hexists, canonical_of_exists hexists', hcwd]

/-- Of some paths that lead to the same, the same is the first file. -/
theorem map_find?_congr (hcwd : w.cwd = v.cwd) {ps : List Path}
    (h : ∀ p ∈ ps, w.get? p = v.get? p) :
    (ps.find? w.isFile).map w.canonical = (ps.find? v.isFile).map v.canonical := by
  induction ps with
  | nil => rw [List.find?_nil, List.find?_nil, Option.map_none, Option.map_none]
  | cons p ps ih =>
    have hget := h p List.mem_cons_self
    have hfile : v.isFile p = w.isFile p := by rw [isFile, isFile, hget]
    rw [List.find?_cons, List.find?_cons, hfile]
    cases hp : w.isFile p with
    | true =>
      have hexists : w.exists? p = true := by
        rw [isFile] at hp
        rw [exists?]
        cases hw : w.get? p with
        | none =>
          rw [hw] at hp
          cases hp
        | some e => rfl
      exact congrArg some (canonical_congr hcwd hget hexists)
    | false => exact ih fun q hq => h q (List.mem_cons_of_mem _ hq)

/-- A directory that is there has the canonical path of its place. -/
theorem IsReady.canonical_eq (hw : w.IsReady cwd out) :
    w.canonical out = pathOf (out.place cwd) := by
  rw [canonical_of_exists (exists?_iff.2 ⟨_, hw.get?_eq⟩), hw.cwd_eq]

/-- Where agreeing worlds are searched for files that are not in the directory, the same are found. -/
theorem AgreeAround.perm_filesBelow (h : AgreeAround cwd out w v) (hdir : dir.Avoids cwd out)
    {keep keep' : List String → Bool}
    (hsame : ∀ names, Place.IsProper names → keep names = keep' names)
    (hkeep : ∀ names, Place.IsProper names → keep names = true →
      ¬ (out.place cwd).IsInside (dir.place cwd ++ names)) :
    ((w.filesBelow dir).filter keep).Perm ((v.filesBelow dir).filter keep') := by
  have hloc : v.locate dir = w.locate dir := by rw [locate, locate, h.lookup_eq hdir]
  rw [filesBelow, filesBelow, hloc]
  cases hplace : w.locate dir with
  | none => exact List.Perm.refl _
  | some place =>
    obtain rfl : place = dir.place cwd := by rw [locate_eq_some hplace, h.left.cwd_eq]
    dsimp only
    rw [← h.isDirectory_eq (hdir _ dir.place_mem_waypoints)]
    by_cases hdirectory : w.tree.isDirectory (dir.place cwd) = true
    · rw [if_pos hdirectory, if_pos hdirectory]
      have hw := h.left.wellFormed.isIndexed
      have hv := h.right.wellFormed.isIndexed
      have hnames : ∀ {t : FileTree} {names content}, t.IsIndexed →
          t.get? (dir.place cwd ++ names) = some (.file content) → Place.IsProper names :=
        fun ht hget n hn => ht.isNamed.isProper hget n (List.mem_append_right _ hn)
      refine (List.perm_ext_iff_of_nodup ((nodup_filesBelow hw _).filter _)
        ((nodup_filesBelow hv _).filter _)).2 fun names => ?_
      rw [List.mem_filter, List.mem_filter, mem_filesBelow hw, mem_filesBelow hv]
      constructor
      · rintro ⟨⟨content, hget⟩, hk⟩
        have hproper := hnames hw hget
        rw [h.entries _ (hkeep names hproper hk)] at hget
        exact ⟨⟨content, hget⟩, hsame names hproper ▸ hk⟩
      · rintro ⟨⟨content, hget⟩, hk⟩
        have hproper := hnames hv hget
        rw [← hsame names hproper] at hk
        rw [← h.entries _ (hkeep names hproper hk)] at hget
        exact ⟨⟨content, hget⟩, hk⟩
    · rw [if_neg hdirectory, if_neg hdirectory]
      exact List.Perm.refl _

end World
end Bindery
