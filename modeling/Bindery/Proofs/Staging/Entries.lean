import Bindery.Proofs.Staging.Written

/-!
# Entries of a staging

The entries that a modular staging writes lie below names that tell where they come from. So no file
takes the place of another kind of entry, and after a staging what stands at its places can be told
from what it has written.
-/
namespace Bindery.Staging
open Bindery.Path (IsName)

variable {cwd : Place} {out : Path} {s : Sources} {mode : Mode} {t₀ : FileTree}
  {ls : List (List (Path × Entry))}

theorem mem_fragmentEntries {codes : List String} {x : Path × Entry} :
    x ∈ fragmentEntries out 0 codes ↔
      ∃ i code, codes[i]? = some code ∧ x = (out / fragmentName i, .file code) := by
  rw [fragmentEntries, List.mem_map]
  constructor
  · rintro ⟨⟨code, i⟩, hmem, rfl⟩
    exact ⟨i, code, List.mk_mem_zipIdx_iff_getElem?.1 hmem, rfl⟩
  · rintro ⟨i, code, hcode, rfl⟩
    exact ⟨(code, i), List.mk_mem_zipIdx_iff_getElem?.2 hcode, rfl⟩

theorem AreCopied.length_eq {files : List Path} (h : AreCopied cwd out t₀ 0 files ls) :
    files.length = ls.length := by
  have hlength := List.Forall₂.length_eq h
  rwa [List.length_zipIdx] at hlength

/-- The copies of one foreign file. -/
theorem AreCopied.get {files : List Path} (h : AreCopied cwd out t₀ 0 files ls) {i : Nat}
    (hi : i < files.length) (hi' : i < ls.length) : ∃ t, KeepsUnstaged cwd out t₀ t ∧
      IsCopied cwd t (out / externalName i) (files.get ⟨i, hi⟩) (ls.get ⟨i, hi'⟩) := by
  obtain ⟨t, hkeeps, hcopied⟩ := List.Forall₂.get h (by rwa [List.length_zipIdx]) hi'
  refine ⟨t, hkeeps, ?_⟩
  simpa using hcopied

theorem AreCopied.of_mem {files : List Path} (h : AreCopied cwd out t₀ 0 files ls)
    {x : Path × Entry} (hx : x ∈ ls.flatten) :
    ∃ i l t file, ls[i]? = some l ∧ IsCopied cwd t (out / externalName i) file l ∧ x ∈ l := by
  obtain ⟨l, hl, hx⟩ := List.mem_flatten.1 hx
  obtain ⟨⟨i, hi⟩, rfl⟩ := List.get_of_mem hl
  obtain ⟨t, -, hcopied⟩ := h.get (h.length_eq ▸ hi) hi
  exact ⟨i, _, t, _, List.getElem?_eq_getElem hi, hcopied, hx⟩

theorem IsCopied.place {t : FileTree} {i : Nat} {file : Path} {l : List (Path × Entry)}
    (hout : out.IsWhole) (h : IsCopied cwd t (out / externalName i) file l) {x : Path × Entry}
    (hx : x ∈ l) : ∃ rest, x.1.place cwd = out.place cwd ++ externalName i :: rest := by
  have hname := isName_externalName i
  rcases h.eq_of_mem x hx with rfl | ⟨name, content, hn, -, rfl⟩
  · exact ⟨[], Path.place_div hout hname⟩
  · refine ⟨[name], ?_⟩
    rw [Path.place_div (hout.div hname) hn, Path.place_div hout hname, List.append_assoc,
      List.singleton_append]

/-- The entries of a modular staging, each below a name of its own. -/
theorem mem_modules (hcopied : AreCopied cwd out t₀ 0 (externals s) ls) (hout : out.IsWhole)
    {x : Path × Entry}
    (hx : x ∈ moduleEntries s out mode ls) :
    ∃ name rest, x.1.place cwd = out.place cwd ++ name :: rest ∧
      ((∃ i code, name = fragmentName i ∧ (fragments s)[i]? = some code ∧ x.2 = .file code) ∨
        (∃ i l t file, name = externalName i ∧ ls[i]? = some l ∧
          IsCopied cwd t (out / externalName i) file l ∧ x ∈ l) ∨
        (name = entryName ∧ x.2 = .file (entry (imports s))) ∨ name = scriptName) := by
  rcases List.mem_append.1 hx with hx | hx
  · rcases List.mem_append.1 hx with hx | hx
    · rcases List.mem_append.1 hx with hx | hx
      · obtain ⟨i, code, hcode, rfl⟩ := mem_fragmentEntries.1 hx
        exact ⟨_, [], Path.place_div hout (isName_fragmentName i), .inl ⟨i, code, rfl, hcode, rfl⟩⟩
      · obtain ⟨i, l, t, file, hl, hcopied, hx⟩ := hcopied.of_mem hx
        obtain ⟨rest, hrest⟩ := hcopied.place hout hx
        exact ⟨_, rest, hrest, .inr (.inl ⟨i, l, t, file, rfl, hl, hcopied, hx⟩)⟩
    · rw [List.mem_singleton.1 hx]
      exact ⟨_, [], Path.place_div hout isName_entryName, .inr (.inr (.inl ⟨rfl, rfl⟩))⟩
  · cases mode with
    | modularBuild =>
      rw [List.mem_singleton.1 hx]
      exact ⟨_, [], Path.place_div hout isName_scriptName, .inr (.inr (.inr rfl))⟩
    | merge => exact absurd hx List.not_mem_nil
    | modularImport => exact absurd hx List.not_mem_nil

/-! ### What stands at the staged places -/

theorem mem_externalEntries (hcopied : AreCopied cwd out t₀ 0 (externals s) ls) {i : Nat}
    (hi : i < (externals s).length) : (out / externalName i, .directory) ∈ ls.flatten := by
  have hi' : i < ls.length := hcopied.length_eq ▸ hi
  obtain ⟨t, -, hcopies⟩ := hcopied.get hi hi'
  exact List.mem_flatten.2 ⟨_, List.get_mem ls ⟨i, hi'⟩, hcopies.directory⟩

/-- The directories that a staging makes are those of the foreign files. -/
theorem eq_externalName_of_directory (hcopied : AreCopied cwd out t₀ 0 (externals s) ls)
    {p : Path} (hp : (p, .directory) ∈ moduleEntries s out mode ls) :
    ∃ i < (externals s).length, p = out / externalName i := by
  rcases List.mem_append.1 hp with hp | hp
  · rcases List.mem_append.1 hp with hp | hp
    · rcases List.mem_append.1 hp with hp | hp
      · obtain ⟨i, code, -, heq⟩ := mem_fragmentEntries.1 hp
        cases (Prod.mk.inj heq).2
      · obtain ⟨i, l, t, file, hl, hcopies, hmem⟩ := hcopied.of_mem hp
        refine ⟨i, hcopied.length_eq ▸ (List.getElem?_eq_some_iff.1 hl).1, ?_⟩
        rcases hcopies.eq_of_mem _ hmem with heq | ⟨name, content, -, -, heq⟩
        · exact (Prod.mk.inj heq).1
        · cases (Prod.mk.inj heq).2
    · cases (Prod.mk.inj (List.mem_singleton.1 hp)).2
  · cases mode with
    | modularBuild => cases (Prod.mk.inj (List.mem_singleton.1 hp)).2
    | merge => exact absurd hp List.not_mem_nil
    | modularImport => exact absurd hp List.not_mem_nil

/-- No file stands at the place of such a directory. -/
theorem eq_directory_of_place (hcopied : AreCopied cwd out t₀ 0 (externals s) ls)
    (hout : out.IsWhole)
    {x : Path × Entry} (hx : x ∈ moduleEntries s out mode ls) {i : Nat}
    (hplace : x.1.place cwd = out.place cwd ++ [externalName i]) : x.2 = .directory := by
  obtain ⟨name, rest, hname, hcases⟩ := mem_modules hcopied hout hx
  obtain ⟨rfl, rfl⟩ := List.cons.inj (List.append_cancel_left (hname.symm.trans hplace))
  rcases hcases with ⟨j, _, hj, -⟩ | ⟨j, l, t, file, hj, -, hcopies, hmem⟩ | ⟨hj, -⟩ | hj
  · exact absurd hj.symm (fragmentName_ne_externalName j i)
  · obtain rfl := externalName_inj hj
    rcases hcopies.eq_of_mem x hmem with rfl | ⟨n, content, hn, -, rfl⟩
    · rfl
    · have hext := isName_externalName i
      rw [Path.place_div (hout.div hext) hn, Path.place_div hout hext] at hplace
      exact absurd hplace (by simp)
  · exact absurd hj (externalName_ne i (by decide))
  · exact absurd hj (externalName_ne i (by decide))

/-- What stands at the staged places of a tree are the files of a staging and, if it is modular, the
directories of its foreign files. -/
structure HoldsJust (cwd : Place) (out : Path) (s : Sources) (st : Staged) (mode : Mode)
    (t : FileTree) : Prop where
  files : ∀ q, IsStagedPlace (out.place cwd) q →
    ((∃ content, t.get? q = some (.file content)) ↔ ∃ p ∈ st.files, p.place cwd = q)
  directories : ∀ q, IsStagedPlace (out.place cwd) q →
    (t.get? q = some .directory ↔
      mode ≠ .merge ∧ ∃ i < (externals s).length, q = out.place cwd ++ [externalName i])

/-- The directories among what is written, and that they stay apart from the files. -/
structure HasKinds (cwd : Place) (out : Path) (s : Sources) (mode : Mode)
    (l : List (Path × Entry)) : Prop where
  of_directory : ∀ p, (p, .directory) ∈ l →
    mode ≠ .merge ∧ ∃ i < (externals s).length, p = out / externalName i
  of_place : ∀ x ∈ l, ∀ i, x.1.place cwd = out.place cwd ++ [externalName i] → x.2 = .directory
  mem : mode ≠ .merge → ∀ i < (externals s).length, (out / externalName i, .directory) ∈ l

theorem IsWritten.hasKinds {l : List (Path × Entry)} (hout : out.IsWhole)
    (h : IsWritten cwd out s t₀ mode l) : HasKinds cwd out s mode l := by
  cases h with
  | merged =>
    refine ⟨fun p hp => ?_, fun x hx i hplace => ?_, fun h => absurd rfl h⟩
    · cases (Prod.mk.inj (List.mem_singleton.1 hp)).2
    · rw [List.mem_singleton.1 hx, Path.place_div hout isName_mergedName] at hplace
      have hname := (List.cons.inj (List.append_cancel_left hplace)).1
      exact absurd hname.symm (externalName_ne i (by decide))
  | modules hmode hcopied =>
    refine ⟨fun p hp => ⟨hmode, eq_externalName_of_directory hcopied hp⟩,
      fun x hx i => eq_directory_of_place hcopied hout hx, fun _ i hi => ?_⟩
    exact List.mem_append_left _ (List.mem_append_left _ (List.mem_append_right _
      (mem_externalEntries hcopied hi)))

theorem IsWritten.areStaged {l : List (Path × Entry)} (hout : out.IsWhole)
    (h : IsWritten cwd out s t₀ mode l) : AreStaged cwd out l := by
  cases h with
  | merged => exact areStaged_file hout isName_mergedName isStaged_mergedName _
  | modules _ hcopied =>
    intro x hx
    obtain ⟨name, rest, hplace, hcases⟩ := mem_modules hcopied hout hx
    rw [hplace]
    refine isStagedPlace_append ?_ rest
    rcases hcases with ⟨i, _, rfl, -⟩ | ⟨i, _, _, _, rfl, -⟩ | ⟨rfl, -⟩ | rfl
    · exact isStaged_fragmentName i
    · exact isStaged_externalName i
    · exact isStaged_entryName
    · exact isStaged_scriptName

variable {u v : World} {l : List (Path × Entry)} {st : Staged}

/-- Over a tree with nothing staged in it, a staging leaves just what it writes. -/
theorem holdsJust_of_lays (hout : out.IsWhole)
    (hclear : ∀ q ∈ out.waypoints cwd, ¬ IsStagedPlace (out.place cwd) q)
    (hnone : ∀ q, IsStagedPlace (out.place cwd) q → u.tree.get? q = none)
    (hfiles : st.files = filesOf l) (hlays : Lays cwd out l u v)
    (hwritten : IsWritten cwd out s t₀ mode l) : HoldsJust cwd out s st mode v.tree := by
  have hkinds := hwritten.hasKinds hout
  have hget : ∀ q, IsStagedPlace (out.place cwd) q →
      v.tree.get? q = (World.layer cwd l).lookup q := fun q hq =>
    hlays.get?_eq_lookup (hnone q hq) fun hway => hclear q hway hq
  have hdirectory : ∀ q, (World.layer cwd l).lookup q = some .directory → mode ≠ .merge ∧
      ∃ i < (externals s).length, q = out.place cwd ++ [externalName i] := by
    intro q hq
    obtain ⟨⟨p, e⟩, hx, rfl, rfl⟩ := World.Lays.mem_of_lookup hq
    obtain ⟨hmode, i, hi, rfl⟩ := hkinds.of_directory p hx
    exact ⟨hmode, i, hi, Path.place_div hout (isName_externalName i)⟩
  refine ⟨fun q hq => ?_, fun q hq => ?_⟩
  · rw [hget q hq, hfiles]
    constructor
    · rintro ⟨content, hlookup⟩
      obtain ⟨⟨p, e⟩, hx, hplace, rfl⟩ := World.Lays.mem_of_lookup hlookup
      exact ⟨p, mem_filesOf.2 ⟨content, hx⟩, hplace⟩
    · rintro ⟨p, hp, rfl⟩
      obtain ⟨content, hx⟩ := mem_filesOf.1 hp
      obtain ⟨e, he⟩ := World.Lays.exists_lookup cwd hx
      cases e with
      | file content' => exact ⟨content', he⟩
      | directory =>
        obtain ⟨-, i, -, hplace⟩ := hdirectory _ he
        cases hkinds.of_place _ hx i hplace
  · rw [hget q hq]
    refine ⟨hdirectory q, ?_⟩
    rintro ⟨hmode, i, hi, rfl⟩
    obtain ⟨e, he⟩ := World.Lays.exists_lookup cwd (hkinds.mem hmode i hi)
    obtain ⟨x, hx, hplace, rfl⟩ := World.Lays.mem_of_lookup he
    rw [Path.place_div hout (isName_externalName i)] at he hplace
    rw [he, hkinds.of_place x hx i hplace]

end Bindery.Staging
