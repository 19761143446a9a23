import Bindery.Proofs.Staging.Alike
import Bindery.Proofs.Staging.Entries

/-!
# Staging afresh

A staging removes whatever has a staged name before it writes, and reads nothing else of its output
directory. So what it makes does not depend on what earlier runs have left there.
-/
namespace Bindery.Staging
open Act FileTree
open Bindery.Path (IsName)

variable {cwd : Place} {out : Path} {s : Sources} {mode : Mode} {st : Staged} {u v w : World}

/-- A world before a staging. Its output directory may hold whatever earlier runs have left, as long
as the directories that its own path leads through are there, and the file system takes the paths of
what has a staged name. -/
structure IsPrior (cwd : Place) (out : Path) (w : World) : Prop where
  cwd_eq : w.cwd = cwd
  wellFormed : w.tree.WellFormed
  isDirectory : w.tree.isDirectory cwd = true
  not_file : ∀ content, w.tree.get? (out.place cwd) ≠ some (.file content)
  way : ∀ q ∈ out.waypoints cwd, (out.place cwd).IsInside q → w.tree.isDirectory q = true
  areAdmitted : AreAdmitted cwd out w.tree

/-- An output directory from which all that was staged has been removed. -/
structure IsEmptied (cwd : Place) (out : Path) (w u : World) : Prop where
  isReady : u.IsReady cwd out
  none : ∀ q, IsStagedPlace (out.place cwd) q → u.tree.get? q = none
  outside : ∀ q, ¬ (out.place cwd).IsInside q → q ∉ out.waypoints cwd →
    u.tree.get? q = w.tree.get? q

section
variable (hproper : cwd.IsProper) (hout : out.IsWhole) (hclear : IsClear cwd out)
include hproper hout hclear

omit hout hclear in
theorem isKept_of_create (hcwd : w.cwd = cwd) (hnamed : w.tree.IsNamed)
    (hcreate : (Act.createDirectories out).runOn w = (.ok ⟨⟩, u)) (q : Place) :
    Entry.IsKept (q ∈ out.waypoints cwd) (w.tree.get? q) (u.tree.get? q) := by
  have hkeeps : (Act.createDirectories out).Preserves
      (World.Keeps cwd (· ∈ out.waypoints cwd) fun _ => True) :=
    World.Keeps.createDirectories hproper fun _ hq _ => hq
  obtain ⟨-, -, -, hkept⟩ := hkeeps.of_ok hcreate hcwd hnamed
  exact hkept q trivial

/-- Once the output directory is there, it can be emptied. -/
theorem IsPrior.isEmptied (hw : IsPrior cwd out w)
    (hcreate : (Act.createDirectories out).runOn w = (.ok ⟨⟩, u)) (hready : u.IsReady cwd out) :
    ∃ v, (clean out).runOn u = (.ok ⟨⟩, v) ∧ IsEmptied cwd out w v := by
  have hkept := isKept_of_create hproper hw.cwd_eq hw.wellFormed.isNamed hcreate
  have hinside : ∀ q, (out.place cwd).IsInside q → u.tree.get? q = w.tree.get? q := by
    intro q hq
    rcases hkept q with hsame | ⟨hnone, -, hway⟩
    · exact hsame
    · cases hnone.symm.trans (isDirectory_iff.1 (hw.way q hway hq))
  have hadmitted : AreAdmitted cwd out u.tree := by
    intro name hstaged hsome
    rw [hinside _ (Place.isInside_concat _ _)] at hsome
    exact hw.areAdmitted name hstaged hsome
  obtain ⟨v, hrun, hv, hnone⟩ := clean_of_isReady hout hclear hready hadmitted
  refine ⟨v, hrun, hv.isReady, hnone, fun q hq hway => ?_⟩
  have hstaged : ¬ IsStagedPlace (out.place cwd) q := by
    rintro ⟨name, -, hfront⟩
    exact hq ((Place.isInside_concat _ _).mono hfront)
  rw [hv.kept q hstaged]
  rcases hkept q with hsame | ⟨-, -, hway'⟩
  · exact hsame
  · exact absurd hway' hway

omit hproper hclear in
/-- Two emptied directories are alike, if all around them is. -/
theorem IsEmptied.areAlike {w₁ v₁ : World} (hw : IsEmptied cwd out w w₁)
    (hv : IsEmptied cwd out v v₁)
    (hsame : ∀ q, ¬ out.place cwd <+: q → w.tree.get? q = v.tree.get? q) :
    AreAlike cwd out w₁ v₁ := by
  have hwaypoints : ∀ q ∈ out.waypoints cwd, w₁.tree.get? q = v₁.tree.get? q := by
    intro q hq
    rw [Path.waypoints_of_isWhole hout] at hq
    rw [isDirectory_iff.1 (hw.isReady.isDirectory_waypoints hout q hq),
      isDirectory_iff.1 (hv.isReady.isDirectory_waypoints hout q hq)]
  refine ⟨hw.isReady, hv.isReady, fun q hq => ?_⟩
  by_cases hway : q ∈ out.waypoints cwd
  · exact hwaypoints q hway
  rcases hq with hinside | hstaged | hway'
  · have hne : q ≠ out.place cwd := by
      rintro rfl
      exact hway out.place_mem_waypoints
    rw [hw.outside q hinside hway, hv.outside q hinside hway]
    exact hsame q fun hfront => hinside ⟨hfront, hne⟩
  · rw [hw.none q hstaged, hv.none q hstaged]
  · exact absurd hway' hway

omit hclear in
/-- Where a directory could be made no file is in the way, whatever lies in the directory. -/
theorem IsPrior.not_file_of_waypoint (hw : IsPrior cwd out w) (hv : IsPrior cwd out v)
    (hsame : ∀ q, ¬ out.place cwd <+: q → w.tree.get? q = v.tree.get? q)
    (hcreate : (Act.createDirectories out).runOn w = (.ok ⟨⟩, u)) (hready : u.IsReady cwd out) :
    ∀ q ∈ out.waypoints cwd, ∀ content, v.tree.get? q ≠ some (.file content) := by
  intro q hq content hfile
  by_cases hfront : out.place cwd <+: q
  · by_cases hne : q = out.place cwd
    · exact hv.not_file content (hne ▸ hfile)
    · cases hfile.symm.trans (isDirectory_iff.1 (hv.way q hq ⟨hfront, hne⟩))
  · rw [← hsame q hfront] at hfile
    have hkept := isKept_of_create hproper hw.cwd_eq hw.wellFormed.isNamed hcreate q
    rw [Path.waypoints_of_isWhole hout] at hq
    have hdir := isDirectory_iff.1 (hready.isDirectory_waypoints hout q hq)
    rw [hfile] at hkept
    cases hkept.of_some.symm.trans hdir

omit hclear hproper hout in
theorem areApart_of_outside (hfiles : ∀ file ∈ externals s, IsOutside (out.place cwd) file) :
    AreApart cwd out (externals s) := by
  intro file hfile
  obtain ⟨q, hq, rfl, hoff⟩ := hfiles file hfile
  rw [Path.parent_pathOf hq, Path.place_pathOf hq.dropLast]
  refine ⟨Path.isWhole_pathOf hq.dropLast, fun i heq => hoff ?_⟩
  have hfront : out.place cwd <+: q.dropLast := by
    rw [heq]
    exact List.prefix_append _ _
  exact hfront.trans (List.dropLast_prefix q)

omit hclear in
/-- What does not have a staged name is kept by a staging. -/
theorem IsPrior.get?_eq (hw : IsPrior cwd out w)
    (h : (assemble s mode out).runOn w = (.ok st, v)) {q : Place}
    (hinside : (out.place cwd).IsInside q) (hq : ¬ IsStagedPlace (out.place cwd) q) :
    v.tree.get? q = w.tree.get? q := by
  obtain ⟨-, -, -, hkept⟩ :=
    (assemble_keeps hout hproper mode).of_ok h hw.cwd_eq hw.wellFormed.isNamed
  rcases hkept q hq with hsame | ⟨hnone, -, hway⟩
  · exact hsame
  · cases hnone.symm.trans (isDirectory_iff.1 (hw.way q hway hinside))

/-- What a staging makes does not depend on what earlier runs have left in its output directory.
Where it succeeds with one content of the directory, it succeeds with any other one, returns the
same and leaves the same at the staged places: the files that it returns and the directories of the
foreign files. Whatever else the directory holds is left as it was. -/
theorem assemble_afresh {w' : World}
    (hfiles : ∀ a ∈ s.annotations, ∀ file, a.file = some file → IsOutside (out.place cwd) file)
    (hw : IsPrior cwd out w) (hv : IsPrior cwd out v)
    (hsame : ∀ q, ¬ out.place cwd <+: q → w.tree.get? q = v.tree.get? q)
    (h : (assemble s mode out).runOn w = (.ok st, w')) :
    ∃ v', (assemble s mode out).runOn v = (.ok st, v') ∧
      (∀ q, IsStagedPlace (out.place cwd) q → w'.tree.get? q = v'.tree.get? q) ∧
      HoldsJust cwd out s st mode w'.tree ∧
      ∀ q, (out.place cwd).IsInside q → ¬ IsStagedPlace (out.place cwd) q →
        w'.tree.get? q = w.tree.get? q ∧ v'.tree.get? q = v.tree.get? q := by
  have hexternals : ∀ file ∈ externals s, IsOutside (out.place cwd) file := by
    intro file hfile
    obtain ⟨a, ha, hafile⟩ := List.mem_filterMap.1 (Path.mem_of_mem_eraseDupsBy hfile)
    exact hfiles a ha file hafile
  have hrun := h
  rw [assemble_eq] at hrun
  obtain ⟨_, u, hcreate, hrest⟩ := bind_ok.1 hrun
  obtain ⟨_, w₁, hclean, hstage⟩ := bind_ok.1 hrest
  obtain ⟨entries, u', hlist, -⟩ := bind_ok.1 (clean_eq out ▸ hclean)
  have hready := World.isReady_of_list hproper hw.cwd_eq hw.wellFormed hw.isDirectory hcreate hlist
  obtain ⟨w₂, hclean', hw₁⟩ := hw.isEmptied hproper hout hclear hcreate hready
  obtain rfl : w₁ = w₂ := (Prod.mk.inj (hclean.symm.trans hclean')).2
  -- The other world is brought to the same state, and then nothing tells them apart.
  obtain ⟨u₂, hcreate₂, hready₂⟩ := (hready.isFit hout).createDirectories hproper hout hv.cwd_eq
    hv.wellFormed hv.isDirectory (hw.not_file_of_waypoint hproper hout hv hsame hcreate hready)
  obtain ⟨v₁, hclean₂, hv₁⟩ := hv.isEmptied hproper hout hclear hcreate₂ hready₂
  obtain ⟨-, v', hstage₂, halike⟩ := repeats_stage hproper hout hclear hexternals w₁ v₁ w' st
    (hw₁.areAlike hout hv₁ hsame) hstage
  have h₂ : (assemble s mode out).runOn v = (.ok st, v') := by
    rw [assemble_eq, runOn_bind_of_ok hcreate₂, runOn_bind_of_ok hclean₂, hstage₂]
  refine ⟨v', h₂, fun q hq => halike.entries q (.inr (.inl hq)), ?_, fun q hinside hq => ⟨?_, ?_⟩⟩
  · obtain ⟨l, hl, hlays, hwritten⟩ := stage_ok hproper hw₁.isReady.wellFormed.isIndexed
      hw₁.isReady.cwd_eq hout (areApart_of_outside hexternals) hstage
    exact holdsJust_of_lays hout hclear hw₁.none hl hlays hwritten
  · exact hw.get?_eq hproper hout h hinside hq
  · exact hv.get?_eq hproper hout h₂ hinside hq

end

/-! ### A staging with and without leftovers -/

/-- A fragment and a file that a host includes. -/
def priorSources : Sources :=
  { annotations := [{ host := ⟨"/s/a.cpp"⟩, line := 1, code := "const a = 1;" },
      { host := ⟨"/s/a.cpp"⟩, line := 2, file := some (World.pathOf ["s", "x.zig"]) }] }

/-- The file, and what there is of the output directory. -/
def priorWorld (rest : List (Place × Entry)) : World :=
  { tree := ⟨[(["s"], .directory), (["s", "x.zig"], .file "const b = 2;")] ++ rest⟩ }

/-- What a run with more fragments and foreign files has left, and a file of someone else. -/
def priorRest : List (Place × Entry) :=
  [(["o"], .directory), (["o", "keep"], .file "x"), (["o", "zigbind_frag_7.zig"], .file "y"),
    (["o", "ext4"], .directory), (["o", "ext4", "z.zig"], .file "z")]

theorem isPrior_example {rest : List (Place × Entry)} (hrest : rest = [] ∨ rest = priorRest) :
    IsPrior [] ⟨"/o"⟩ (priorWorld rest) := by
  have hplace : (⟨"/o"⟩ : Path).place [] = ["o"] := by decide
  have hway : (⟨"/o"⟩ : Path).waypoints [] = [[], ["o"]] := by decide
  refine ⟨rfl, ?_, rfl, ?_, ?_, ?_⟩
  · rcases hrest with rfl | rfl
    · exact ⟨by unfold IsNamed Place.IsProper; decide, by decide, by decide⟩
    · exact ⟨by unfold IsNamed Place.IsProper; decide, by decide, by decide⟩
  · rw [hplace]
    rcases hrest with rfl | rfl
    · exact fun _ h => absurd h nofun
    · exact fun _ h => absurd h nofun
  · rw [hplace, hway]
    intro q hq hinside
    rcases List.mem_cons.1 hq with rfl | hq
    · exact absurd hinside.1 (by decide)
    · exact absurd (List.mem_singleton.1 hq) hinside.2
  · intro name hstaged hsome
    rw [hplace] at hsome
    obtain ⟨e, he⟩ := Option.isSome_iff_exists.1 hsome
    have hmem := mem_of_get? (List.concat_ne_nil _ _) he
    have hnames : name = "keep" ∨ name = "zigbind_frag_7.zig" ∨ name = "ext4" := by
      rcases hrest with rfl | rfl
      · simp [priorWorld] at hmem
      · simp [priorWorld, priorRest] at hmem
        tauto
    unfold Path.Admits
    rcases hnames with rfl | rfl | rfl
    · decide
    · decide
    · decide

theorem assemble_afresh_leftovers :
    ∃ st w' v', (assemble priorSources .modularImport ⟨"/o"⟩).runOn (priorWorld []) = (.ok st, w') ∧
      (assemble priorSources .modularImport ⟨"/o"⟩).runOn (priorWorld priorRest) = (.ok st, v') ∧
      w'.tree.get? ["o", "ext4"] = v'.tree.get? ["o", "ext4"] ∧
      v'.tree.get? ["o", "keep"] = some (.file "x") := by
  have hsome : ((assemble priorSources .modularImport ⟨"/o"⟩).runOn
    (priorWorld [])).1.toOption.isSome = true := by decide +kernel
  obtain ⟨st, hst⟩ := Option.isSome_iff_exists.1 hsome
  obtain ⟨w', hrun⟩ := Act.exists_of_toOption hst
  have hplace : (⟨"/o"⟩ : Path).place [] = ["o"] := by decide
  have hout : (⟨"/o"⟩ : Path).IsWhole := by unfold Path.IsWhole; decide
  have hclear : IsClear [] ⟨"/o"⟩ := by
    intro q hq
    have hq : q ∈ [[], ["o"]] := hq
    rintro ⟨name, -, hfront⟩
    rw [hplace] at hfront
    have hlength := hfront.length_le
    rcases List.mem_cons.1 hq with rfl | hq
    · simp at hlength
    · rw [List.mem_singleton.1 hq] at hlength
      simp at hlength
  have hfiles : ∀ a ∈ priorSources.annotations, ∀ file, a.file = some file →
      IsOutside ((⟨"/o"⟩ : Path).place []) file := by
    intro a ha file hfile
    rcases List.mem_cons.1 ha with rfl | ha
    · cases hfile
    · rw [List.mem_singleton.1 ha] at hfile
      cases hfile
      exact ⟨["s", "x.zig"], by unfold Place.IsProper; decide, rfl, by rw [hplace]; decide⟩
  have houtside : ∀ q, ¬ (⟨"/o"⟩ : Path).place [] <+: q →
      (priorWorld []).tree.get? q = (priorWorld priorRest).tree.get? q := by
    intro q hq
    rw [hplace] at hq
    have hne : ∀ tail, (q == "o" :: tail) = false := by
      intro tail
      rw [beq_eq_false_iff_ne]
      rintro rfl
      exact hq ⟨tail, rfl⟩
    simp [priorWorld, priorRest, FileTree.get?, List.lookup_cons, hne]
  obtain ⟨v', hrun', hsame, -, hkept⟩ := assemble_afresh (fun _ h => absurd h List.not_mem_nil) hout
    hclear hfiles (isPrior_example (.inl rfl)) (isPrior_example (.inr rfl)) houtside hrun
  rw [hplace] at hsame hkept
  refine ⟨st, w', v', hrun, hrun', hsame _ (isStagedPlace_append (by decide) []), ?_⟩
  rw [(hkept ["o", "keep"] (Place.isInside_concat _ _)
    (not_isStagedPlace_append (by decide) [])).2]
  rfl

/-! ### Paths for which leftovers matter -/

/-- A directory by a path that repeats its own place many times. -/
def dots (n : Nat) : Path := .ofParts false ("o" :: List.replicate n ".") false

namespace Dots
variable {n : Nat}

theorem arePieces : Path.ArePieces ("o" :: List.replicate n ".") := by
  intro m hm
  rcases List.mem_cons.1 hm with rfl | hm
  · decide
  · rw [(List.mem_replicate.1 hm).2]
    decide

theorem length_join (s : String) :
    (Text.join "/" (s :: List.replicate n ".")).length = s.length + 2 * n := by
  induction n generalizing s with
  | zero => rfl
  | succ n ih =>
    rw [List.replicate_succ, Text.join_cons_cons, String.length_append, String.length_append, ih]
    have hslash : "/".length = 1 := rfl
    have hdot : ".".length = 1 := rfl
    omega

theorem length_text : (dots n).text.length = 1 + 2 * n := by
  have htext : (dots n).text = Text.join "/" ("o" :: List.replicate n ".") := by
    simp [dots, Path.ofParts]
  rw [htext, length_join]
  rfl

theorem text_ne_empty : (dots n).text ≠ "" := by
  intro h
  have hlength := length_text (n := n)
  rw [h] at hlength
  have hempty : "".length = 0 := rfl
  omega

theorem length_div {name : String} (hname : IsName name) :
    ((dots n) / name).text.length = 1 + 2 * n + name.length ∨
      ((dots n) / name).text.length = 2 + 2 * n + name.length := by
  rw [Path.div_eq _ hname.isPiece, if_neg text_ne_empty]
  have hslash : "/".length = 1 := rfl
  split_ifs
  · rw [String.length_append, length_text]
    exact .inl rfl
  · rw [String.length_append, String.length_append, length_text]
    exact .inr (by omega)

theorem isWhole : (dots n).IsWhole := by
  intro h
  have htext : (dots n).text = Text.join "/" ("o" :: List.replicate n ".") := by
    simp [dots, Path.ofParts]
  rw [htext] at h
  rcases Path.mem_join h with h | ⟨m, hm, h⟩
  · exact absurd h (by decide)
  · rcases List.mem_cons.1 hm with rfl | hm
    · exact absurd h (by decide)
    · rw [(List.mem_replicate.1 hm).2] at h
      exact absurd h (by decide)

theorem mem_waypoints {q cur : Place} (h : q ∈ Place.waypoints cur (List.replicate n ".")) :
    q = cur := by
  induction n with
  | zero => exact List.mem_singleton.1 h
  | succ n ih =>
    rcases List.mem_cons.1 h with h | h
    · exact h
    · exact ih h

theorem walk (cur : Place) : Place.walk cur (List.replicate n ".") = cur := by
  induction n with
  | zero => rfl
  | succ n ih => exact ih

theorem names : (dots n).names = "o" :: List.replicate n "." := Path.names_ofParts arePieces _ _

theorem start : (dots n).start [] = [] := by
  rw [Path.start]
  split_ifs <;> rfl

theorem place : (dots n).place [] = ["o"] := by
  rw [Path.place_of_isWhole isWhole, names, start, Place.walk_cons]
  exact walk _

theorem eq_of_mem_waypoints {q : Place} (h : q ∈ (dots n).waypoints []) : q = [] ∨ q = ["o"] := by
  rw [Path.waypoints_of_isWhole isWhole, names, start] at h
  rcases List.mem_cons.1 h with h | h
  · exact .inl h
  · exact .inr (mem_waypoints h)

theorem isClear : IsClear [] (dots n) := by
  intro q hq
  rintro ⟨name, -, hfront⟩
  rw [place] at hfront
  have hlength := hfront.length_le
  rcases eq_of_mem_waypoints hq with rfl | rfl
  · simp at hlength
  · simp at hlength

theorem isFit (hn : 1 + 2 * n ≤ Path.maxLength) : World.IsFit (dots n) := by
  refine ⟨?_, ?_, fun m hm => ?_⟩
  · rw [Path.isEmpty, String.isEmpty_eq_false_iff]
    exact text_ne_empty
  · rw [Path.isTooLong, length_text]
    exact decide_eq_false (not_lt.2 hn)
  · rw [names] at hm
    rcases List.mem_cons.1 hm with rfl | hm
    · exact .inr (.inr (.inr (by decide)))
    · exact .inr (.inl (List.mem_replicate.1 hm).2)

end Dots

/-- A fragment to be merged. -/
def mergedSources : Sources :=
  { annotations := [{ host := ⟨"/s/a.cpp"⟩, line := 1, code := "const a = 1;" }] }

theorem stageMerged_of_isReady (hout : out.IsWhole) (hw : w.IsReady cwd out)
    (hadmits : out.Admits mergedName)
    (hnone : w.tree.get? (out.place cwd ++ [mergedName]) = none) :
    ∃ st v, (stageMerged mergedSources out).runOn w = (.ok st, v) := by
  have hdir : w.tree.isDirectory (out.place cwd ++ [mergedName]) = false := by
    rw [FileTree.isDirectory, hnone]
    rfl
  have hput := Act.put_ok (hw.locate_div hout isName_mergedName hadmits) hdir
    (by rw [List.dropLast_concat, hw.isDirectory_place])
    (Merge.merge (fragments mergedSources ++ [])) (.file (.cannotWrite (out / mergedName)))
  exact ⟨_, _, bind_ok.2 ⟨[], w, rfl, bind_ok.2 ⟨⟨⟩, _, hput, rfl⟩⟩⟩

/-- The fragment can be staged by a long path. -/
theorem exists_assemble_dots {n : Nat} (hn : 2 + 2 * n + mergedName.length ≤ Path.maxLength) :
    ∃ st v, (assemble mergedSources .merge (dots n)).runOn {} = (.ok st, v) := by
  have hproper : Place.IsProper [] := fun _ h => absurd h List.not_mem_nil
  have hformed : ({} : World).tree.WellFormed :=
    ⟨fun _ h => absurd h List.not_mem_nil, List.nodup_nil, fun _ h => absurd h List.not_mem_nil⟩
  obtain ⟨u, hcreate, hready⟩ := (Dots.isFit (n := n) (by omega)).createDirectories hproper
    Dots.isWhole rfl hformed rfl (fun q hq content h => by
      rcases Dots.eq_of_mem_waypoints hq with rfl | rfl
      · cases h
      · cases h)
  have hprior : IsPrior [] (dots n) {} := by
    refine ⟨rfl, hformed, rfl, ?_, fun q hq hinside => ?_, fun name _ hsome => ?_⟩
    · rw [Dots.place]
      exact fun _ h => absurd h nofun
    · rw [Dots.place] at hinside
      rcases Dots.eq_of_mem_waypoints hq with rfl | rfl
      · exact absurd hinside.1 (by decide)
      · exact absurd rfl hinside.2
    · rw [Dots.place] at hsome
      cases hsome
  obtain ⟨v, hclean, hv⟩ := hprior.isEmptied hproper Dots.isWhole Dots.isClear hcreate hready
  have hstaged := hv.none _ (isStagedPlace_append isStaged_mergedName [])
  have hadmits : (dots n).Admits mergedName := by
    refine ⟨?_, by decide⟩
    rw [Path.isTooLong, decide_eq_false_iff_not]
    rcases Dots.length_div (n := n) isName_mergedName with h | h
    · omega
    · omega
  obtain ⟨st, v', hstage⟩ := stageMerged_of_isReady Dots.isWhole hv.isReady hadmits hstaged
  refine ⟨st, v', ?_⟩
  rw [assemble_eq, runOn_bind_of_ok hcreate, runOn_bind_of_ok hclean]
  exact hstage

/-- With a leftover whose path is too long it cannot. -/
theorem not_assemble_dots {n : Nat} {name : String} (hname : IsName name)
    (hstaged : isStaged name = true) (hn : Path.maxLength < 1 + 2 * n + name.length)
    (st : Staged) (v : World) :
    (assemble mergedSources .merge (dots n)).runOn
      { tree := ⟨[(["o"], .directory), (["o", name], .file "x")]⟩ } ≠ (.ok st, v) := by
  intro h
  have hproper : Place.IsProper [] := fun _ h => absurd h List.not_mem_nil
  let w : World := { tree := ⟨[(["o"], .directory), (["o", name], .file "x")]⟩ }
  have hformed : w.tree.WellFormed := by
    refine ⟨fun x hx => ?_, by simp [w], fun x hx => ?_⟩
    · rcases List.mem_cons.1 hx with rfl | hx
      · exact ⟨nofun, by unfold Place.IsProper; decide⟩
      · rw [List.mem_singleton.1 hx]
        refine ⟨nofun, fun m hm => ?_⟩
        rcases List.mem_cons.1 hm with rfl | hm
        · decide
        · rwa [List.mem_singleton.1 hm]
    · rcases List.mem_cons.1 hx with rfl | hx
      · rfl
      · rw [List.mem_singleton.1 hx]
        rfl
  rw [assemble_eq] at h
  obtain ⟨_, u, hcreate, h⟩ := bind_ok.1 h
  obtain ⟨_, v, hclean, -⟩ := bind_ok.1 h
  obtain ⟨entries, u', hlist, -⟩ := bind_ok.1 (clean_eq (dots n) ▸ hclean)
  have hready := World.isReady_of_list hproper rfl hformed rfl hcreate hlist
  have hadmitted := areAdmitted_of_clean Dots.isWhole Dots.isClear hready hclean
  have hkept := isKept_of_create hproper rfl hformed.isNamed hcreate ["o", name]
  have hget : w.tree.get? ["o", name] = some (.file "x") := by
    simp [w, FileTree.get?, List.lookup_cons]
  rw [hget] at hkept
  have hadmits := (hadmitted name hstaged (by
    rw [Dots.place]
    exact Option.isSome_of_eq_some hkept.of_some)).1
  rw [Path.isTooLong, decide_eq_false_iff_not] at hadmits
  rcases Dots.length_div (n := n) hname with h | h
  · omega
  · omega

/-- It does matter what is in the way where a path leads through what lies in the directory, and
whether a leftover can be removed by its path. -/
theorem not_assemble_afresh :
    ((assemble mergedSources .merge ⟨"o/sub/.."⟩).runOn {}).1.toOption.isSome = true ∧
      ((assemble mergedSources .merge ⟨"o/sub/.."⟩).runOn
        { tree := ⟨[(["o"], .directory), (["o", "sub"], .file "x")]⟩ }).1 = .error .fileSystem ∧
      (∃ st v, (assemble mergedSources .merge (dots 2035)).runOn {} = (.ok st, v)) ∧
      ∀ st v, (assemble mergedSources .merge (dots 2035)).runOn
        { tree := ⟨[(["o"], .directory), (["o", "zigbind_frag_1234567890.zig"], .file "x")]⟩ } ≠
          (.ok st, v) := by
  refine ⟨by decide +kernel, by decide +kernel, exists_assemble_dots (by decide), ?_⟩
  exact not_assemble_dots (by decide) (by decide) (by decide)

end Bindery.Staging
