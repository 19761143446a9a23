import Bindery.Proofs.World.Act
import Bindery.Proofs.World.Tree

/-!
# What actions leave alone

Each action that writes changes the tree at the place of its path only. So the entries of other
places are kept along a run, except that a directory may be made where there was nothing.
-/
namespace Bindery
open FileTree

namespace Act
variable {w v : World} {p : Path} {content : String} {failure : Failure}

/-- A file is put where a directory can hold it, and nothing is changed otherwise. -/
theorem put_cases (w : World) (p : Path) (content : String) (failure : Failure) :
    (put p content failure).runOn w = (.error failure, w) ∨
      (w.locate p = some (p.place w.cwd) ∧ w.tree.isDirectory (p.place w.cwd) = false ∧
        w.tree.isDirectory (List.dropLast (p.place w.cwd)) = true ∧
        (put p content failure).runOn w =
          (.ok ⟨⟩, { w with tree := w.tree.put (p.place w.cwd) (.file content) })) := by
  rw [put, runOn_get_bind]
  cases hl : w.locate p with
  | none => exact .inl rfl
  | some q =>
    obtain rfl := (World.locate_eq_some hl).symm
    dsimp only
    split_ifs with h
    · exact .inl rfl
    · rw [not_or, Bool.not_eq_true, Bool.not_eq_true', Bool.not_eq_false] at h
      exact .inr ⟨rfl, h.1, h.2, runOn_set⟩

theorem removeAll_cases (w : World) (p : Path) :
    ((removeAll p).runOn w).2 = w ∨
      (w.locate p = some (p.place w.cwd) ∧
        (removeAll p).runOn w = (.ok ⟨⟩, { w with tree := w.tree.erase (p.place w.cwd) })) := by
  rw [removeAll, runOn_get_bind]
  cases hl : w.lookup p with
  | error o => cases o <;> exact .inl rfl
  | ok q =>
    have hloc : w.locate p = some q := by rw [World.locate, hl]; rfl
    obtain rfl := (World.locate_eq_some hloc).symm
    exact .inr ⟨hloc, rfl⟩

theorem copy_ok {q : Path} :
    (copy p q).runOn w = (.ok ⟨⟩, v) ↔ ∃ content, w.read? p = some content ∧
      (put q content .fileSystem).runOn w = (.ok ⟨⟩, v) := by
  rw [copy, runOn_get_bind]
  cases w.read? p with
  | some content => simp
  | none => simp

theorem list_ok {entries : List (Path × Entry)} (h : (list p).runOn w = (.ok entries, v)) :
    v = w ∧ w.locate p = some (p.place w.cwd) ∧
      entries = (w.tree.children (p.place w.cwd)).map fun x => (p / x.1, x.2) := by
  rw [runOn_list, World.list?] at h
  cases hloc : w.locate p with
  | none =>
    rw [hloc] at h
    cases h
  | some q =>
    obtain rfl := (World.locate_eq_some hloc).symm
    rw [hloc] at h
    dsimp only at h
    split_ifs at h
    · cases h
      exact ⟨rfl, rfl, rfl⟩
    · cases h

/-- The tree with the directories on the way of a path, as far as they can be made. -/
def withDirectories (w : World) (p : Path) : FileTree × Bool :=
  w.tree.makeDirectories (p.terminated.start w.cwd) p.terminated.names

theorem createDirectories_cases (w : World) (p : Path) :
    (createDirectories p).runOn w = (.error .fileSystem, w) ∨
      ((createDirectories p).runOn w =
        (if (withDirectories w p).2 then .ok ⟨⟩ else .error .fileSystem,
          { w with tree := (withDirectories w p).1 })) := by
  rw [createDirectories]
  by_cases h : p.terminated.isEmpty = true ∨ p.terminated.isTooLong = true
  · rw [if_pos h]
    exact .inl rfl
  · rw [if_neg h]
    right
    have hmade : w.tree.makeDirectories (w.start p.terminated) p.terminated.names =
        withDirectories w p := rfl
    dsimp only
    rw [runOn_get_bind, hmade]
    generalize withDirectories w p = made
    obtain ⟨tree, done⟩ := made
    cases done with
    | true => rfl
    | false => rfl

theorem areSteps_terminated (p : Path) : AreSteps p.terminated.names := fun _ hn =>
  ⟨Path.ne_empty_of_mem_names hn, Path.isPiece_of_mem_names hn, fun h =>
    p.isWhole_terminated (Path.mem_text_of_mem_names hn h)⟩

theorem isProper_start {cwd : Place} (hcwd : cwd.IsProper) (p : Path) :
    (p.start cwd).IsProper := by
  rw [Path.start]
  split_ifs
  · exact fun _ hn => absurd hn List.not_mem_nil
  · exact hcwd

theorem isProper_place {cwd : Place} (hcwd : cwd.IsProper) (p : Path) : (p.place cwd).IsProper :=
  isProper_walk (isProper_start hcwd _) (areSteps_terminated p)

end Act

namespace World
variable {w : World} {p q : Path} {content : String}

/-- Where a file is put, no path comes to lead elsewhere. -/
theorem isDirectory_put {t : FileTree} {place : Place} (h : t.isDirectory place = false)
    (content : String) (r : Place) :
    (t.put place (.file content)).isDirectory r = t.isDirectory r := by
  have hne : place ≠ [] := by
    rintro rfl
    cases h
  by_cases hr : r = place
  · rw [hr, h, FileTree.isDirectory, get?_put_self hne]
    rfl
  · rw [FileTree.isDirectory, FileTree.isDirectory, get?_put_of_ne hr]

theorem locate_put (h : w.tree.isDirectory (p.place w.cwd) = false) (content : String) :
    ({ w with tree := w.tree.put (p.place w.cwd) (.file content) } : World).locate q = w.locate q :=
  locate_congr rfl fun r _ => isDirectory_put h content r

/-- A file that is put can be read. -/
theorem get?_put (hloc : w.locate p = some (p.place w.cwd))
    (h : w.tree.isDirectory (p.place w.cwd) = false) (content : String) :
    ({ w with tree := w.tree.put (p.place w.cwd) (.file content) } : World).get? p =
      some (.file content) := by
  have hne : p.place w.cwd ≠ [] := by
    intro hnil
    rw [hnil] at h
    cases h
  rw [World.get?, locate_put h, hloc, Option.bind_some]
  exact get?_put_self hne

end World

/-- The entry of a place before and after, where nobody writes. -/
def Entry.IsKept (made : Prop) (old new : Option Entry) : Prop :=
  new = old ∨ (old = none ∧ new = some .directory ∧ made)

theorem Entry.IsKept.trans {made : Prop} {a b c : Option Entry} (h : IsKept made a b)
    (h' : IsKept made b c) : IsKept made a c := by
  rcases h' with rfl | ⟨rfl, rfl, hmade⟩
  · exact h
  · rcases h with h | ⟨_, h, _⟩
    · exact .inr ⟨h.symm, rfl, hmade⟩
    · cases h

theorem Entry.IsKept.of_some {made : Prop} {e : Entry} {new : Option Entry}
    (h : IsKept made (some e) new) : new = some e := by
  rcases h with h | ⟨h, _⟩
  · exact h
  · cases h

namespace World

/-- From a proper world with a given current directory, the places that `kept` tells keep their
entries, up to directories made at the places in `made`. No compiler is run. -/
def Keeps (cwd : Place) (made kept : Place → Prop) (w v : World) : Prop :=
  w.cwd = cwd → w.tree.IsNamed → v.cwd = cwd ∧ v.calls = w.calls ∧ v.tree.IsNamed ∧
    ∀ q, kept q → Entry.IsKept (made q) (w.tree.get? q) (v.tree.get? q)

namespace Keeps
variable {cwd : Place} {made kept : Place → Prop} {w v : World} {p : Path}

theorem isFrame : Act.IsFrame (Keeps cwd made kept) where
  refl _ hcwd hnamed := ⟨hcwd, rfl, hnamed, fun _ _ => .inl rfl⟩
  trans h h' hcwd hnamed := by
    obtain ⟨hcwd, hcalls, hnamed, hkept⟩ := h hcwd hnamed
    obtain ⟨hcwd, hcalls', hnamed, hkept'⟩ := h' hcwd hnamed
    exact ⟨hcwd, hcalls'.trans hcalls, hnamed, fun q hq => (hkept q hq).trans (hkept' q hq)⟩
  log _ _ hcwd hnamed := ⟨hcwd, rfl, hnamed, fun _ _ => .inl rfl⟩

/-- A change of the tree that leaves the kept places as they are. -/
theorem of_tree {t : FileTree} (hnamed : w.cwd = cwd → w.tree.IsNamed → t.IsNamed)
    (hkept : w.cwd = cwd → ∀ q, kept q → Entry.IsKept (made q) (w.tree.get? q) (t.get? q)) :
    Keeps cwd made kept w { w with tree := t } := fun hcwd h =>
  ⟨hcwd, rfl, hnamed hcwd h, hkept hcwd⟩

variable (hproper : cwd.IsProper)
include hproper

theorem put (hp : ¬ kept (p.place cwd)) (content : String) (failure : Failure) :
    (Act.put p content failure).Preserves (Keeps cwd made kept) := by
  intro w
  rcases Act.put_cases w p content failure with h | ⟨_, hdir, _, h⟩
  · rw [h]
    exact isFrame.refl w
  · rw [h]
    have hne : p.place w.cwd ≠ [] := by
      intro hnil
      rw [hnil] at hdir
      cases hdir
    refine of_tree (fun hcwd hnamed => hnamed.put hne ?_) fun hcwd q hq => .inl ?_
    · rw [hcwd]
      exact Act.isProper_place hproper p
    · rw [get?_put_of_ne]
      intro hplace
      rw [hplace, hcwd] at hq
      exact hp hq

omit hproper in
theorem removeAll (hp : ∀ q, kept q → ¬ p.place cwd <+: q) :
    (Act.removeAll p).Preserves (Keeps cwd made kept) := by
  intro w
  rcases Act.removeAll_cases w p with h | ⟨_, h⟩
  · rw [h]
    exact isFrame.refl w
  · rw [h]
    refine of_tree (fun _ hnamed => hnamed.erase) fun hcwd q hq => .inl ?_
    rw [get?_erase, if_neg]
    rintro ⟨_, hfront⟩
    rw [hcwd] at hfront
    exact hp q hq hfront

theorem createDirectories (hp : ∀ q ∈ p.waypoints cwd, kept q → made q) :
    (Act.createDirectories p).Preserves (Keeps cwd made kept) := by
  intro w
  rcases Act.createDirectories_cases w p with h | h
  · rw [h]
    exact isFrame.refl w
  · rw [h]
    have hsteps := Act.areSteps_terminated p
    refine of_tree (fun hcwd hnamed => ?_) fun hcwd q hq => ?_
    · rw [← hcwd] at hproper
      exact hnamed.makeDirectories (Act.isProper_start hproper _) hsteps
    · rcases get?_makeDirectories hsteps.ne_empty q with h | ⟨hnone, hdir, hway⟩
      · exact .inl h
      · rw [hcwd] at hway
        exact .inr ⟨hnone, hdir, hp q hway hq⟩

end Keeps
end World
end Bindery
