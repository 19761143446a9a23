import Bindery.Proofs.Compilation.Scan
import Bindery.Proofs.Staging.Entries

/-!
# Stagings are closed

The entry file of a modular staging imports the fragments and then the foreign files. Each import
leads to a staged file that holds the fragment, or the same text as the foreign file, as long as the
foreign files have the extension that makes them siblings of their own.
-/
namespace Bindery.Staging
open Bindery.Path (IsName)

variable {cwd : Place} {out : Path} {s : Sources} {mode : Mode} {t₀ : FileTree} {v w : World}
  {ls : List (List (Path × Entry))} {st : Staged}

/-! ### What is imported -/

/-- A staged file by its name in the output directory, with its text in the end. -/
structure IsStagedAs (out : Path) (st : Staged) (v : World) (name content : String) : Prop where
  mem : out / name ∈ st.files
  get?_eq : v.get? (out / name) = some (.file content)

section
variable {u : World} (hout : out.IsWhole)
  (hfiles : st.files = filesOf (moduleEntries s out mode ls))
  (hlays : Lays cwd out (moduleEntries s out mode ls) u v)
  (hcopied : AreCopied cwd out t₀ 0 (externals s) ls)
include hout hfiles hlays hcopied

theorem isStagedAs_fragment {i : Nat} {code : String} (hcode : (fragments s)[i]? = some code) :
    IsStagedAs out st v (fragmentName i) code := by
  have hmem : (out / fragmentName i, .file code) ∈ moduleEntries s out mode ls :=
    List.mem_append_left _ (List.mem_append_left _ (List.mem_append_left _
      (mem_fragmentEntries.2 ⟨i, code, hcode, rfl⟩)))
  refine ⟨hfiles ▸ mem_filesOf.2 ⟨code, hmem⟩, hlays.get?_file hmem fun x hx hplace => ?_⟩
  obtain ⟨name, rest, hname, hcases⟩ := mem_modules hcopied hout hx
  rw [hname, Path.place_div hout (isName_fragmentName i)] at hplace
  obtain ⟨rfl, -⟩ := List.cons.inj (List.append_cancel_left hplace)
  rcases hcases with ⟨j, code', hj, hcode', hx⟩ | ⟨j, _, _, _, hj, -⟩ | ⟨hj, -⟩ | hj
  · rw [← fragmentName_inj hj, hcode] at hcode'
    cases hcode'
    exact hx
  · exact absurd hj (fragmentName_ne_externalName i j)
  · exact absurd hj (fragmentName_ne i (by decide))
  · exact absurd hj (fragmentName_ne i (by decide))

theorem isStagedAs_entry : IsStagedAs out st v entryName (entry (imports s)) := by
  have hmem : (out / entryName, .file (entry (imports s))) ∈ moduleEntries s out mode ls :=
    List.mem_append_left _ (List.mem_append_right _ List.mem_cons_self)
  refine ⟨hfiles ▸ mem_filesOf.2 ⟨_, hmem⟩, hlays.get?_file hmem fun x hx hplace => ?_⟩
  obtain ⟨name, rest, hname, hcases⟩ := mem_modules hcopied hout hx
  rw [hname, Path.place_div hout isName_entryName] at hplace
  obtain ⟨rfl, -⟩ := List.cons.inj (List.append_cancel_left hplace)
  rcases hcases with ⟨j, _, hj, -⟩ | ⟨j, _, _, _, hj, -⟩ | ⟨-, hx⟩ | hj
  · exact absurd hj.symm (fragmentName_ne j (by decide))
  · exact absurd hj.symm (externalName_ne j (by decide))
  · exact hx
  · exact absurd hj (by decide)

/-- A foreign file among its own siblings is staged with its text. -/
theorem isStagedAs_external {i : Nat} {front : Place} {name content : String}
    (hfile : (externals s)[i]? = some (World.pathOf (front ++ [name]))) (hfront : front.IsProper)
    (hname : IsName name) (hforeign : isForeign (World.pathOf (front ++ [name])) = true)
    (hcontent : ∀ t, KeepsUnstaged cwd out t₀ t → t.get? (front ++ [name]) = some (.file content)) :
    IsStagedAs out st v (externalName i ++ "/" ++ name) content := by
  obtain ⟨hi, hget⟩ := List.getElem?_eq_some_iff.1 hfile
  have hi' : i < ls.length := hcopied.length_eq ▸ hi
  obtain ⟨t, hkeeps, hcopies⟩ := hcopied.get hi hi'
  have hext := isName_externalName i
  have hparent : (World.pathOf (front ++ [name])).parent = World.pathOf front := by
    rw [Path.parent_pathOf (hfront.append hname), List.dropLast_concat]
  have hsource := hcontent t hkeeps
  rw [List.get_eq_getElem, List.get_eq_getElem, hget] at hcopies
  have hlaid : (out / externalName i / name, Entry.file content) ∈ ls[i] := by
    refine hcopies.copies name content hname ?_ ?_
    · rw [hparent, Path.pathOf_div hfront hname]
      exact hforeign
    · rw [hparent, Path.place_pathOf hfront]
      exact hsource
  have hmem : (out / externalName i / name, Entry.file content) ∈ moduleEntries s out mode ls :=
    List.mem_append_left _ (List.mem_append_left _ (List.mem_append_right _
      (List.mem_flatten.2 ⟨_, List.getElem_mem hi', hlaid⟩)))
  have hplaces : ∀ {n : String}, IsName n → (out / externalName i / n).place cwd =
      out.place cwd ++ [externalName i, n] := by
    intro n hn
    rw [Path.place_div (hout.div hext) hn, Path.place_div hout hext, List.append_assoc,
      List.singleton_append]
  have hpath := Path.div_div out hext hname
  refine ⟨hpath ▸ hfiles ▸ mem_filesOf.2 ⟨content, hmem⟩, ?_⟩
  rw [hpath]
  refine hlays.get?_file hmem fun x hx hplace => ?_
  obtain ⟨head, rest, hhead, hcases⟩ := mem_modules hcopied hout hx
  rw [hplaces hname] at hplace
  obtain ⟨rfl, -⟩ := List.cons.inj (List.append_cancel_left (hhead.symm.trans hplace))
  rcases hcases with ⟨j, _, hj, -⟩ | ⟨j, l, _, _, hj, hl, -, hx⟩ | ⟨hj, -⟩ | hj
  · exact absurd hj.symm (fragmentName_ne_externalName j i)
  · obtain rfl := externalName_inj hj
    rw [List.getElem?_eq_getElem hi'] at hl
    cases hl
    rcases hcopies.eq_of_mem x hx with rfl | ⟨n, content', hn, hget', rfl⟩
    · rw [Path.place_div hout hext] at hplace
      cases List.append_cancel_left hplace
    · rw [hplaces hn] at hplace
      cases List.append_cancel_left hplace
      rw [hparent, Path.place_pathOf hfront, hsource] at hget'
      cases hget'
      rfl
  · exact absurd hj (externalName_ne i (by decide))
  · exact absurd hj (externalName_ne i (by decide))

end

/-- No two imports lead to the same file. -/
theorem nodup_imports : (imports s).Nodup := by
  -- What stands before the first slash tells the imports apart.
  have hcut : ∀ {n rest : String}, IsName n →
      (n ++ "/" ++ rest).toList.takeWhile (· ≠ '/') = n.toList := by
    intro n rest hn
    rw [String.append_assoc, String.toList_append, String.toList_append]
    refine Text.takeWhile_append_of_all (fun c hc => ?_) rfl
    rw [decide_eq_true_iff]
    rintro rfl
    exact hn.2.2.2.1 hc
  have hwhole : ∀ {n : String}, IsName n → n.toList.takeWhile (· ≠ '/') = n.toList := by
    intro n hn
    refine List.takeWhile_eq_self_iff.2 fun c hc => ?_
    rw [decide_eq_true_iff]
    rintro rfl
    exact hn.2.2.2.1 hc
  have hheads : (imports s).map (fun n => n.toList.takeWhile (· ≠ '/')) =
      ((List.range (fragments s).length).map fragmentName).map String.toList ++
        ((List.range (externals s).length).map externalName).map String.toList := by
    rw [imports, List.map_append]
    refine congrArg₂ _ (List.map_congr_left fun n hn => ?_) (List.ext_getElem (by simp) ?_)
    · obtain ⟨i, -, rfl⟩ := List.mem_map.1 hn
      exact hwhole (isName_fragmentName i)
    · intro i hi hi'
      rw [List.getElem_map, List.getElem_mapIdx, hcut (isName_externalName i), List.getElem_map,
        List.getElem_map, List.getElem_range]
  refine List.Nodup.of_map (fun n => n.toList.takeWhile (· ≠ '/')) ?_
  rw [hheads, ← List.map_append]
  refine List.Nodup.map (fun _ _ => String.toList_injective) (List.Nodup.append ?_ ?_ ?_)
  · exact List.nodup_range.map fun _ _ => fragmentName_inj
  · exact List.nodup_range.map fun _ _ => externalName_inj
  · intro n hn hn'
    obtain ⟨i, -, rfl⟩ := List.mem_map.1 hn
    obtain ⟨j, -, hj⟩ := List.mem_map.1 hn'
    exact fragmentName_ne_externalName i j hj.symm

section
variable (hresolved : s.IsResolved w) (htree : w.tree.IsIndexed)
include hresolved htree

/-- What the scanner finds are files by their canonical paths. -/
theorem exists_place {file : Path} (hfile : file ∈ s.annotations.filterMap (·.file)) :
    ∃ front name content, Place.IsProper front ∧ IsName name ∧
      file = World.pathOf (front ++ [name]) ∧
      w.tree.get? (front ++ [name]) = some (.file content) := by
  obtain ⟨a, ha, hafile⟩ := List.mem_filterMap.1 hfile
  obtain ⟨root, path, hincluded⟩ := hresolved a ha file hafile
  obtain ⟨place, content, rfl, hget⟩ := Sources.included?_eq_some hincluded
  have hproper := htree.isNamed.isProper hget
  cases place using List.reverseRecOn with
  | nil => cases hget
  | append_singleton front name =>
    exact ⟨front, name, content, fun n hn => hproper n (List.mem_append_left _ hn),
      hproper name (List.mem_append_right _ List.mem_cons_self), rfl, hget⟩

theorem areApart_externals
    (houtside : ∀ file ∈ externals s, ¬ IsStagedPlace (out.place cwd) (file.place cwd)) :
    AreApart cwd out (externals s) := by
  intro file hfile
  obtain ⟨front, name, content, hfront, hname, rfl, -⟩ :=
    exists_place hresolved htree (Path.mem_of_mem_eraseDupsBy hfile)
  have hplace := houtside _ hfile
  rw [Path.place_pathOf (hfront.append hname)] at hplace
  rw [Path.parent_pathOf (hfront.append hname), List.dropLast_concat]
  refine ⟨Path.isWhole_pathOf hfront, fun i heq => hplace ?_⟩
  rw [Path.place_pathOf hfront] at heq
  rw [heq, List.append_assoc]
  exact isStagedPlace_append (isStaged_externalName i) [name]

theorem externals_eq_eraseDups :
    externals s = (s.annotations.filterMap (·.file)).eraseDups := by
  refine Path.distinct_eq_eraseDups fun p hp q hq heq => ?_
  obtain ⟨front, name, content, hfront, hname, rfl, -⟩ := exists_place hresolved htree hp
  obtain ⟨front', name', content', hfront', hname', rfl, -⟩ := exists_place hresolved htree hq
  rw [Path.components_pathOf (hfront.append hname),
    Path.components_pathOf (hfront'.append hname')] at heq
  rw [(List.cons.inj heq).2]

end

/-- In a modular staging of files that the scanner found, all of them siblings of their own, the
entry file imports each fragment and each foreign file once, and each from a staged file. -/
theorem closed_of_assemble (hcwd : w.cwd.IsProper) (htree : w.tree.IsIndexed) (hout : out.IsWhole)
    (hmode : mode ≠ .merge) (hresolved : s.IsResolved w)
    (hforeign : ∀ file ∈ externals s, isForeign file = true)
    (houtside : ∀ file ∈ externals s, ¬ IsStagedPlace (out.place w.cwd) (file.place w.cwd))
    (hrun : (assemble s mode out).runOn w = (.ok st, v)) :
    ∃ inlined external : List String, (inlined ++ external).Nodup ∧
      IsStagedAs out st v entryName (entry (inlined ++ external)) ∧
      List.Forall₂ (fun code name => IsStagedAs out st v name code) (fragments s) inlined ∧
      List.Forall₂ (fun file name => ∃ content,
        w.tree.get? (file.place w.cwd) = some (.file content) ∧ IsStagedAs out st v name content)
        (s.annotations.filterMap (·.file)).eraseDups external := by
  obtain ⟨l, u, hcleaned, hfiles, hlays, hwritten⟩ := assemble_ok hcwd htree rfl hout
    (areApart_externals hresolved htree houtside) hrun
  cases hwritten with
  | merged => exact absurd rfl hmode
  | @modules _ ls _ hcopied =>
    rw [← externals_eq_eraseDups hresolved htree]
    refine ⟨_, _, nodup_imports, isStagedAs_entry hout hfiles hlays hcopied,
      List.forall₂_iff_get.2 ⟨by simp, fun i hi hi' => ?_⟩,
      List.forall₂_iff_get.2 ⟨by simp, fun i hi hi' => ?_⟩⟩
    · have := isStagedAs_fragment hout hfiles hlays hcopied (List.getElem?_eq_getElem hi)
      simpa using this
    · have hmem := List.get_mem (externals s) ⟨i, hi⟩
      obtain ⟨front, name, content, hfront, hname, hfile, hget⟩ :=
        exists_place hresolved htree (Path.mem_of_mem_eraseDupsBy hmem)
      have hproper := hfront.append hname
      have hapart := houtside _ hmem
      have hzig := hforeign _ hmem
      rw [hfile] at hapart hzig ⊢
      rw [Path.place_pathOf hproper] at hapart ⊢
      have hkept : ∀ t, KeepsUnstaged w.cwd out u.tree t →
          t.get? (front ++ [name]) = some (.file content) := by
        intro t ht
        have hentry := (hcleaned.keeps.trans ht) _ hapart
        rw [hget] at hentry
        exact hentry.of_some
      have hstaged := isStagedAs_external hout hfiles hlays hcopied
        ((List.getElem?_eq_getElem hi).trans (congrArg some hfile)) hfront hname hzig hkept
      have hfilename : (World.pathOf (front ++ [name])).filename = name := by
        rw [Path.filename_pathOf hproper, List.getLast?_concat, Option.getD_some]
      refine ⟨content, hget, ?_⟩
      rw [← hfilename, ← hfile] at hstaged
      rw [List.get_eq_getElem, List.getElem_mapIdx]
      exact hstaged

/-! ### A foreign file with and without the extension -/

/-- A directory with a file that a host includes. -/
def exampleWorld (name : String) : World :=
  { tree := ⟨[(["s"], .directory), (["s", name], .file "const b = 2;")]⟩ }

/-- A fragment, and the file. -/
def exampleSources (name : String) : Sources :=
  { annotations := [{ host := ⟨"/s/a.cpp"⟩, line := 1, code := "const a = 1;" },
      { host := ⟨"/s/a.cpp"⟩, line := 2, file := some (World.pathOf ["s", name]) }] }

def exampleRun (name : String) : Except Failure Staged × World :=
  (assemble (exampleSources name) .modularImport ⟨"/o"⟩).runOn (exampleWorld name)

theorem isResolved_example {name : String}
    (h : (exampleWorld name).included? ⟨"/s"⟩ ⟨"/s/a.cpp"⟩ name = some (World.pathOf ["s", name])) :
    (exampleSources name).IsResolved (exampleWorld name) := by
  intro a ha file hfile
  rcases List.mem_cons.1 ha with rfl | ha
  · cases hfile
  · rw [List.mem_singleton.1 ha] at hfile ⊢
    cases hfile
    exact ⟨⟨"/s"⟩, name, h⟩

/-- Both are imported from staged files. -/
theorem closed_of_assemble_sibling :
    ∃ st v inlined external, exampleRun "x.zig" = (.ok st, v) ∧
      IsStagedAs ⟨"/o"⟩ st v entryName (entry (inlined ++ external)) ∧
      inlined.length = 1 ∧ external.length = 1 := by
  have hsome : (exampleRun "x.zig").1.toOption.isSome = true := by decide +kernel
  obtain ⟨st, hst⟩ := Option.isSome_iff_exists.1 hsome
  obtain ⟨v, hrun⟩ := Act.exists_of_toOption hst
  have hout : (⟨"/o"⟩ : Path).IsWhole := by unfold Path.IsWhole; decide
  have hplace : (⟨"/o"⟩ : Path).place [] = ["o"] := by decide
  have hexternals : ∀ file ∈ externals (exampleSources "x.zig"),
      isForeign file = true ∧ file.place [] = ["s", "x.zig"] := by decide
  obtain ⟨inlined, external, -, hentry, hinlined, hexternal⟩ :=
    closed_of_assemble (fun _ h => absurd h List.not_mem_nil)
      ⟨by unfold FileTree.IsNamed Place.IsProper; decide, by decide⟩ hout (by decide)
      (isResolved_example (by decide +kernel)) (fun file hfile => (hexternals file hfile).1)
      (fun file hfile => by
        change ¬ IsStagedPlace ((⟨"/o"⟩ : Path).place []) (file.place [])
        rw [hplace, (hexternals file hfile).2]
        rintro ⟨name, -, hfront⟩
        exact absurd (List.cons_prefix_cons.1 hfront).1 (by decide)) hrun
  exact ⟨st, v, inlined, external, hrun, hentry, hinlined.length_eq.symm, hexternal.length_eq.symm⟩

/-- A file without the extension is none of its own siblings: it is imported, but not staged. -/
theorem not_closed_of_assemble :
    (exampleSources "x.txt").IsResolved (exampleWorld "x.txt") ∧ ∃ st v,
      exampleRun "x.txt" = (.ok st, v) ∧
      IsStagedAs ⟨"/o"⟩ st v entryName (entry ["zigbind_frag_0.zig", "ext0/x.txt"]) ∧
      ⟨"/o/ext0/x.txt"⟩ ∉ st.files ∧ v.get? ⟨"/o/ext0/x.txt"⟩ = none := by
  have hrun : ((exampleRun "x.txt").1.toOption.map (·.files),
        (exampleRun "x.txt").2.get? ⟨"/o/zigbind_entry.zig"⟩,
        (exampleRun "x.txt").2.get? ⟨"/o/ext0/x.txt"⟩) =
      (some [⟨"/o/zigbind_frag_0.zig"⟩, ⟨"/o/zigbind_entry.zig"⟩],
        some (.file (entry ["zigbind_frag_0.zig", "ext0/x.txt"])), none) := by decide +kernel
  obtain ⟨hfiles, hrest⟩ := Prod.mk.inj hrun
  obtain ⟨hentry, hnone⟩ := Prod.mk.inj hrest
  obtain ⟨st, hst, hfiles⟩ := Option.map_eq_some_iff.1 hfiles
  obtain ⟨v, hv⟩ := Act.exists_of_toOption hst
  have hworld : (exampleRun "x.txt").2 = v := congrArg Prod.snd hv
  rw [hworld] at hentry hnone
  refine ⟨isResolved_example (by decide +kernel), st, v, hv, ⟨?_, hentry⟩, ?_, hnone⟩
  · rw [hfiles]
    decide
  · rw [hfiles]
    decide

end Bindery.Staging
