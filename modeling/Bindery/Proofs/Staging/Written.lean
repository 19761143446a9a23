import Bindery.Proofs.Staging.Frame
import Bindery.Proofs.World.Laid
import Bindery.Proofs.World.Listing

/-!
# What a staging writes

A staging that succeeds has laid its files over what the clean-up left: the fragments, the foreign
files with their siblings, the entry file and the build script. The files it returns are those that
it wrote, in this order.
-/
namespace Bindery.Staging
open Act
open Bindery.Path (IsName)

/-- The paths of the files among some entries. -/
def filesOf (l : List (Path × Entry)) : List Path := (l.filter (·.2 ≠ .directory)).map (·.1)

/-- The fragments in files of their own, from a number on. -/
def fragmentEntries (out : Path) (i : Nat) (codes : List String) : List (Path × Entry) :=
  (codes.zipIdx i).map fun x => (out / fragmentName x.2, .file x.1)

variable {cwd : Place} {out : Path} {w v : World} {l l' : List (Path × Entry)}

theorem filesOf_append : filesOf (l ++ l') = filesOf l ++ filesOf l' := by
  rw [filesOf, filesOf, filesOf, List.filter_append, List.map_append]

@[simp] theorem filesOf_file {p : Path} {content : String} :
    filesOf ((p, .file content) :: l) = p :: filesOf l := rfl

@[simp] theorem filesOf_directory {p : Path} : filesOf ((p, .directory) :: l) = filesOf l := rfl

theorem mem_filesOf {p : Path} : p ∈ filesOf l ↔ ∃ content, (p, .file content) ∈ l := by
  rw [filesOf, List.mem_map]
  constructor
  · rintro ⟨⟨q, e⟩, hmem, rfl⟩
    obtain ⟨hmem, hne⟩ := List.mem_filter.1 hmem
    cases e with
    | file content => exact ⟨content, hmem⟩
    | directory => exact absurd rfl (of_decide_eq_true hne)
  · rintro ⟨content, hmem⟩
    exact ⟨_, List.mem_filter.2 ⟨hmem, rfl⟩, rfl⟩

/-- What staging makes besides, on the way to the output directory. -/
abbrev Lays (cwd : Place) (out : Path) : List (Path × Entry) → World → World → Prop :=
  World.Lays cwd (· ∈ out.waypoints cwd)

theorem write_ok (hcwd : w.cwd = cwd) {p : Path} {content : String}
    (h : (write p content).runOn w = (.ok ⟨⟩, v)) : Lays cwd out [(p, .file content)] w v :=
  .put hcwd h

theorem stageFragments_ok (hcwd : w.cwd = cwd) {i : Nat} {codes : List String} {files : List Path}
    (h : (stageFragments out i codes).runOn w = (.ok files, v)) :
    files = filesOf (fragmentEntries out i codes) ∧
      Lays cwd out (fragmentEntries out i codes) w v := by
  induction codes generalizing i w files with
  | nil =>
    cases h
    exact ⟨rfl, .refl hcwd⟩
  | cons code codes ih =>
    obtain ⟨_, u, hwrite, h⟩ := bind_ok.1 h
    obtain ⟨rest, u', hrest, hdone⟩ := bind_ok.1 h
    cases hdone
    have hfirst : Lays cwd out _ w u := write_ok hcwd hwrite
    obtain ⟨rfl, hall⟩ := ih hfirst.cwd_eq hrest
    exact ⟨rfl, hfirst.trans hall⟩

/-! ### Foreign files -/

/-- The copies in a directory of some files, with the texts that a tree has for them. -/
def AreCopies (cwd : Place) (t : FileTree) (dir parent : Path) (siblings : List Path)
    (l : List (Path × Entry)) : Prop :=
  ∀ x, x ∈ l ↔ ∃ name content, IsName name ∧ parent / name ∈ siblings ∧
    t.get? (parent.place cwd ++ [name]) = some (.file content) ∧ x = (dir / name, .file content)

theorem AreCopies.cons {t : FileTree} {dir parent : Path} {siblings : List Path}
    {l : List (Path × Entry)} {name content : String} (hname : IsName name)
    (hget : t.get? (parent.place cwd ++ [name]) = some (.file content))
    (h : AreCopies cwd t dir parent siblings l) :
    AreCopies cwd t dir parent (parent / name :: siblings) ((dir / name, .file content) :: l) := by
  intro x
  rw [List.mem_cons, h x]
  constructor
  · rintro (rfl | ⟨n, c, hn, hmem, hc, rfl⟩)
    · exact ⟨name, content, hname, List.mem_cons_self, hget, rfl⟩
    · exact ⟨n, c, hn, List.mem_cons_of_mem _ hmem, hc, rfl⟩
  · rintro ⟨n, c, hn, hmem, hc, rfl⟩
    rcases List.mem_cons.1 hmem with heq | hmem
    · obtain rfl : n = name := by
        rw [← Path.filename_div_name parent hn, heq, Path.filename_div_name _ hname]
      rw [hget] at hc
      cases hc
      exact .inl rfl
    · exact .inr ⟨n, c, hn, hmem, hc, rfl⟩

/-- Copying one file to another directory. -/
theorem copySibling_ok {dir parent target : Path} {name content : String}
    (hparent : parent.IsWhole) (hname : IsName name) (hcwd : w.cwd = cwd)
    (hget : w.tree.get? (parent.place cwd ++ [name]) = some (.file content))
    (h : (do
        Act.copy (parent / name) (dir / (parent / name).filename)
        return dir / (parent / name).filename : Act Path).runOn w = (.ok target, v)) :
    target = dir / name ∧ Lays cwd out [(dir / name, .file content)] w v := by
  rw [Path.filename_div_name _ hname] at h
  obtain ⟨_, u, hcopy, hdone⟩ := bind_ok.1 h
  cases hdone
  obtain ⟨content', hread, hput⟩ := Act.copy_ok.1 hcopy
  have hplace : (parent / name).place w.cwd = parent.place cwd ++ [name] := by
    rw [hcwd, Path.place_div hparent hname]
  obtain ⟨-, hfile | ⟨hdirectory, -⟩⟩ := World.get?_of_read? hread
  · rw [hplace, hget] at hfile
    cases hfile
    exact ⟨rfl, .put hcwd hput⟩
  · rw [hplace, hget] at hdirectory
    cases hdirectory

/-- Copying files to another directory. -/
theorem copy_ok {dir parent : Path} (hdir : dir.IsWhole) (hparent : parent.IsWhole)
    (hapart : parent.place cwd ≠ dir.place cwd) {t : FileTree} {siblings files : List Path}
    (hcwd : w.cwd = cwd)
    (hsiblings : ∀ p ∈ siblings, ∃ name content, IsName name ∧ p = parent / name ∧
      t.get? (parent.place cwd ++ [name]) = some (.file content))
    (hsame : ∀ name content, t.get? (parent.place cwd ++ [name]) = some (.file content) →
      w.tree.get? (parent.place cwd ++ [name]) = some (.file content))
    (h : (siblings.mapM fun sibling : Path => do
        let target := dir / sibling.filename
        Act.copy sibling target
        return target).runOn w = (.ok files, v)) :
    ∃ l, files = filesOf l ∧ Lays cwd out l w v ∧ AreCopies cwd t dir parent siblings l := by
  induction siblings generalizing w files with
  | nil =>
    obtain ⟨rfl, rfl⟩ := mapM_nil_ok.1 h
    refine ⟨[], rfl, .refl hcwd, fun x => ⟨fun hx => absurd hx List.not_mem_nil, ?_⟩⟩
    rintro ⟨_, _, _, hmem, _⟩
    exact absurd hmem List.not_mem_nil
  | cons sibling siblings ih =>
    obtain ⟨target, files', u, rfl, hfirst, hrest⟩ := mapM_cons_ok.1 h
    obtain ⟨name, content, hname, rfl, hget⟩ := hsiblings sibling List.mem_cons_self
    obtain ⟨rfl, hlaid⟩ : target = dir / name ∧ Lays cwd out [(dir / name, .file content)] w u :=
      copySibling_ok hparent hname hcwd (hsame name content hget) hfirst
    -- The copy lies in the other directory, so the files that are still to be copied stay.
    have hsame' : ∀ n c, t.get? (parent.place cwd ++ [n]) = some (.file c) →
        u.tree.get? (parent.place cwd ++ [n]) = some (.file c) := by
      intro n c hc
      have hkept := hlaid.isKept (q := parent.place cwd ++ [n]) fun x hx => by
        rw [List.mem_singleton.1 hx, Path.place_div hdir hname]
        exact fun heq => hapart (List.append_inj' heq rfl).1.symm
      rw [hsame n c hc] at hkept
      exact hkept.of_some
    obtain ⟨l, rfl, hlays, hcopies⟩ := ih hlaid.cwd_eq
      (fun p hp => hsiblings p (List.mem_cons_of_mem _ hp)) hsame' hrest
    exact ⟨_, filesOf_file.symm, hlaid.trans hlays, hcopies.cons hname hget⟩

/-- A foreign file with all its siblings, copied to a directory of its own from a tree. -/
structure IsCopied (cwd : Place) (t : FileTree) (dir file : Path) (l : List (Path × Entry)) :
    Prop where
  directory : (dir, .directory) ∈ l
  copies : ∀ name content, IsName name → isForeign (file.parent / name) = true →
    t.get? (file.parent.place cwd ++ [name]) = some (.file content) →
    (dir / name, .file content) ∈ l
  eq_of_mem : ∀ x ∈ l, x = (dir, .directory) ∨ ∃ name content, IsName name ∧
    t.get? (file.parent.place cwd ++ [name]) = some (.file content) ∧
    x = (dir / name, .file content)

/-- The files that are staged along with a foreign file. -/
theorem mem_siblings {t : FileTree} (ht : t.IsIndexed) {parent p : Path} :
    p ∈ Path.sort (((((t.children (parent.place cwd)).map fun x => (parent / x.1, x.2)).filter
        fun x => x.2 ≠ .directory ∧ isForeign x.1).map (·.1))) ↔
      ∃ name content, IsName name ∧ p = parent / name ∧ isForeign (parent / name) = true ∧
        t.get? (parent.place cwd ++ [name]) = some (.file content) := by
  rw [Path.mem_sort, List.mem_map]
  constructor
  · rintro ⟨x, hx, rfl⟩
    obtain ⟨hx, hkeep⟩ := List.mem_filter.1 hx
    obtain ⟨⟨name, e⟩, hchild, rfl⟩ := List.mem_map.1 hx
    obtain ⟨hne, hforeign⟩ := of_decide_eq_true hkeep
    rw [FileTree.mem_children ht] at hchild
    cases e with
    | directory => exact absurd rfl hne
    | file content =>
      have hproper := ht.isNamed.isProper hchild
      exact ⟨name, content, hproper name (List.mem_append_right _ List.mem_cons_self), rfl,
        hforeign, hchild⟩
  · rintro ⟨name, content, hn, rfl, hforeign, hget⟩
    refine ⟨(parent / name, .file content), List.mem_filter.2 ⟨?_, ?_⟩, rfl⟩
    · exact List.mem_map.2 ⟨(name, .file content), (FileTree.mem_children ht).2 hget, rfl⟩
    · exact decide_eq_true ⟨nofun, hforeign⟩

theorem stageExternal_ok {i : Nat} {file : Path} {files : List Path} (hproper : cwd.IsProper)
    (hw : w.tree.IsIndexed) (hcwd : w.cwd = cwd) (hout : out.IsWhole)
    (hparent : file.parent.IsWhole)
    (hapart : file.parent.place cwd ≠ out.place cwd ++ [externalName i])
    (h : (stageExternal (out / externalName i) file).runOn w = (.ok files, v)) :
    ∃ l u, files = filesOf l ∧ Lays cwd out [(out / externalName i, .directory)] w u ∧
      Lays cwd out l w v ∧ IsCopied cwd u.tree (out / externalName i) file l := by
  have hname := isName_externalName i
  obtain ⟨_, u, hcreate, h⟩ := bind_ok.1 h
  obtain ⟨entries, u', hlist, hcopy⟩ := bind_ok.1 h
  obtain ⟨rfl, -, rfl⟩ := list_ok hlist
  have hmade : Lays cwd out [(out / externalName i, .directory)] w u' :=
    .createDirectories_div hcwd hout hname hcreate
  have hu := hmade.isIndexed hproper hw
  rw [hmade.cwd_eq] at hcopy
  obtain ⟨l, rfl, hlays, hcopies⟩ := copy_ok (hout.div hname) hparent
    (by rwa [Path.place_div hout hname]) hmade.cwd_eq
    (fun p hp => by
      obtain ⟨name, content, hn, hp, -, hget⟩ := (mem_siblings hu).1 hp
      exact ⟨name, content, hn, hp, hget⟩)
    (fun _ _ hget => hget) hcopy
  refine ⟨(out / externalName i, .directory) :: l, u', filesOf_directory.symm, hmade,
    hmade.trans hlays, List.mem_cons_self, fun name content hn hforeign hget => ?_, fun x hx => ?_⟩
  · refine List.mem_cons_of_mem _ ((hcopies _).2 ⟨name, content, hn, ?_, hget, rfl⟩)
    exact (mem_siblings hu).2 ⟨name, content, hn, rfl, hforeign, hget⟩
  · rcases List.mem_cons.1 hx with rfl | hx
    · exact .inl rfl
    · obtain ⟨name, content, hn, -, hget, rfl⟩ := (hcopies x).1 hx
      exact .inr ⟨name, content, hn, hget, rfl⟩

/-- All but what is staged is as before, up to directories on the way of the output directory. -/
def KeepsUnstaged (cwd : Place) (out : Path) (t t' : FileTree) : Prop :=
  ∀ q, ¬ IsStagedPlace (out.place cwd) q →
    Entry.IsKept (q ∈ out.waypoints cwd) (t.get? q) (t'.get? q)

theorem KeepsUnstaged.trans {t t' t'' : FileTree} (h : KeepsUnstaged cwd out t t')
    (h' : KeepsUnstaged cwd out t' t'') : KeepsUnstaged cwd out t t'' := fun q hq =>
  (h q hq).trans (h' q hq)

/-- Entries that are all staged ones. -/
def AreStaged (cwd : Place) (out : Path) (l : List (Path × Entry)) : Prop :=
  ∀ x ∈ l, IsStagedPlace (out.place cwd) (x.1.place cwd)

theorem AreStaged.keeps (hstaged : AreStaged cwd out l) (h : Lays cwd out l w v) :
    KeepsUnstaged cwd out w.tree v.tree := fun _ hq =>
  h.isKept fun x hx heq => hq (heq ▸ hstaged x hx)

section
variable (hout : out.IsWhole)
include hout

theorem areStaged_file {name : String} (hname : IsName name) (hstaged : isStaged name = true)
    (e : Entry) : AreStaged cwd out [(out / name, e)] := by
  intro x hx
  rw [List.mem_singleton.1 hx, Path.place_div hout hname]
  exact isStagedPlace_append hstaged []

theorem areStaged_fragmentEntries (i : Nat) (codes : List String) :
    AreStaged cwd out (fragmentEntries out i codes) := by
  intro x hx
  obtain ⟨⟨code, j⟩, -, rfl⟩ := List.mem_map.1 hx
  dsimp only
  rw [Path.place_div hout (isName_fragmentName j)]
  exact isStagedPlace_append (isStaged_fragmentName j) []

theorem IsCopied.areStaged {t : FileTree} {i : Nat} {file : Path}
    (h : IsCopied cwd t (out / externalName i) file l) : AreStaged cwd out l := by
  have hname := isName_externalName i
  intro x hx
  rcases h.eq_of_mem x hx with rfl | ⟨name, content, hn, -, rfl⟩
  · rw [Path.place_div hout hname]
    exact isStagedPlace_append (isStaged_externalName i) []
  · rw [Path.place_div (hout.div hname) hn, Path.place_div hout hname, List.append_assoc]
    exact isStagedPlace_append (isStaged_externalName i) [name]

end

/-- Foreign files from a number on, each copied with its siblings from a tree that is as before
apart from what is staged. -/
def AreCopied (cwd : Place) (out : Path) (t₀ : FileTree) (i : Nat) (files : List Path)
    (ls : List (List (Path × Entry))) : Prop :=
  List.Forall₂ (fun x l => ∃ t, KeepsUnstaged cwd out t₀ t ∧
    IsCopied cwd t (out / externalName x.2) x.1 l) (files.zipIdx i) ls

theorem AreCopied.mono {t t' : FileTree} {i : Nat} {files : List Path}
    {ls : List (List (Path × Entry))} (hkeeps : KeepsUnstaged cwd out t' t)
    (h : AreCopied cwd out t i files ls) : AreCopied cwd out t' i files ls :=
  List.Forall₂.imp (fun _ _ ⟨u, hu, hcopied⟩ => ⟨u, hkeeps.trans hu, hcopied⟩) h

/-- Foreign files whose directories are none that staging makes. -/
def AreApart (cwd : Place) (out : Path) (files : List Path) : Prop :=
  ∀ file ∈ files, file.parent.IsWhole ∧
    ∀ i, file.parent.place cwd ≠ out.place cwd ++ [externalName i]

theorem stageExternals_ok {i : Nat} {files staged : List Path} (hproper : cwd.IsProper)
    (hw : w.tree.IsIndexed) (hcwd : w.cwd = cwd) (hout : out.IsWhole)
    (hfiles : AreApart cwd out files)
    (h : (stageExternals out i files).runOn w = (.ok staged, v)) :
    ∃ ls, staged = filesOf ls.flatten ∧ Lays cwd out ls.flatten w v ∧
      AreCopied cwd out w.tree i files ls := by
  induction files generalizing i w staged with
  | nil =>
    obtain ⟨hstaged, rfl⟩ := Prod.mk.inj h
    cases hstaged
    exact ⟨[], rfl, .refl hcwd, .nil⟩
  | cons file files ih =>
    obtain ⟨first, u, hfirst, h⟩ := bind_ok.1 h
    obtain ⟨rest, u', hrest, hdone⟩ := bind_ok.1 h
    obtain ⟨hstaged, rfl⟩ := Prod.mk.inj hdone
    obtain rfl := Except.ok.inj hstaged
    obtain ⟨hwhole, hapart⟩ := hfiles file List.mem_cons_self
    obtain ⟨l, t, rfl, hmade, hlays, hcopied⟩ :=
      stageExternal_ok hproper hw hcwd hout hwhole (hapart i) hfirst
    obtain ⟨ls, rfl, hlays', hcopied'⟩ := ih (hlays.isIndexed hproper hw) hlays.cwd_eq
      (fun f hf => hfiles f (List.mem_cons_of_mem _ hf)) hrest
    have hbefore := (areStaged_file hout (isName_externalName i) (isStaged_externalName i) _).keeps
      hmade
    refine ⟨l :: ls, ?_, ?_, .cons ⟨t.tree, hbefore, hcopied⟩
      (hcopied'.mono ((hcopied.areStaged hout).keeps hlays))⟩
    · rw [List.flatten_cons, filesOf_append]
    · rw [List.flatten_cons]
      exact hlays.trans hlays'

/-! ### Whole stagings -/

/-- The build script, in the mode that has one. -/
def scriptEntries (s : Sources) (out : Path) : Mode → List (Path × Entry)
  | .modularBuild => [(out / scriptName, .file (BuildScript.render entryName s.auxiliary))]
  | _ => []

/-- The entries of a modular staging, with the copies of the foreign files. -/
def moduleEntries (s : Sources) (out : Path) (mode : Mode) (ls : List (List (Path × Entry))) :
    List (Path × Entry) :=
  fragmentEntries out 0 (fragments s) ++ ls.flatten ++
    [(out / entryName, .file (entry (imports s)))] ++ scriptEntries s out mode

/-- What a staging in a mode writes, when the tree is `t₀` at first. -/
inductive IsWritten (cwd : Place) (out : Path) (s : Sources) (t₀ : FileTree) :
    Mode → List (Path × Entry) → Prop
  | merged {codes : List String} :
      IsWritten cwd out s t₀ .merge [(out / mergedName, .file (Merge.merge (fragments s ++ codes)))]
  | modules {mode : Mode} {ls : List (List (Path × Entry))} (hmode : mode ≠ .merge)
      (hcopied : AreCopied cwd out t₀ 0 (externals s) ls) :
      IsWritten cwd out s t₀ mode (moduleEntries s out mode ls)

variable {s : Sources} {st : Staged} {mode : Mode}

theorem mapM_externalFragment_ok {files : List Path} {codes : List String}
    (h : (files.mapM externalFragment).runOn w = (.ok codes, v)) : v = w := by
  induction files generalizing w codes with
  | nil => exact (mapM_nil_ok.1 h).2
  | cons file files ih =>
    obtain ⟨_, _, u, -, hfirst, hrest⟩ := mapM_cons_ok.1 h
    obtain ⟨_, u', hread, hdone⟩ := bind_ok.1 hfirst
    rw [runOn_read] at hread
    obtain ⟨-, rfl⟩ := Prod.mk.inj hread
    obtain ⟨-, rfl⟩ := Prod.mk.inj hdone
    exact ih hrest

theorem noted_ok {text : String} {a b : Staged}
    (h : (do Act.debug text; return a : Act Staged).runOn w = (.ok b, v)) :
    b = a ∧ ∃ log, v = { w with log } := by
  obtain ⟨_, u, hnote, hdone⟩ := bind_ok.1 h
  obtain ⟨hb, rfl⟩ := Prod.mk.inj hdone
  obtain ⟨-, rfl⟩ := Prod.mk.inj hnote
  exact ⟨(Except.ok.inj hb).symm, _, rfl⟩

theorem stageMerged_ok (hcwd : w.cwd = cwd) (h : (stageMerged s out).runOn w = (.ok st, v)) :
    ∃ l, st.files = filesOf l ∧ Lays cwd out l w v ∧ IsWritten cwd out s w.tree .merge l := by
  obtain ⟨codes, u, hread, h₁⟩ := bind_ok.1 h
  obtain rfl := mapM_externalFragment_ok hread
  dsimp only at h₁
  obtain ⟨_, u', hwrite, h₂⟩ := bind_ok.1 h₁
  obtain ⟨rfl, log, rfl⟩ := noted_ok h₂
  have hlaid : Lays cwd out _ _ u' := write_ok hcwd hwrite
  have hall := hlaid.trans (.log hlaid.cwd_eq log)
  exact ⟨_, rfl, hall, .merged⟩

theorem stageModules_ok (hproper : cwd.IsProper) (hw : w.tree.IsIndexed) (hcwd : w.cwd = cwd)
    (hout : out.IsWhole)
    (hmode : mode ≠ .merge) (hapart : AreApart cwd out (externals s))
    (h : (stageModules s mode out).runOn w = (.ok st, v)) :
    ∃ l, st.files = filesOf l ∧ Lays cwd out l w v ∧ IsWritten cwd out s w.tree mode l := by
  obtain ⟨inlined, u₁, hinlined, h₁⟩ := bind_ok.1 h
  obtain ⟨external, u₂, hexternal, h₂⟩ := bind_ok.1 h₁
  dsimp only at h₂
  obtain ⟨_, u₃, hentry, h₃⟩ := bind_ok.1 h₂
  obtain ⟨rfl, hlays₁⟩ := stageFragments_ok hcwd hinlined
  obtain ⟨ls, rfl, hlays₂, hcopied⟩ :=
    stageExternals_ok hproper (hlays₁.isIndexed hproper hw) hlays₁.cwd_eq hout hapart hexternal
  have hlays₃ := (hlays₁.trans hlays₂).trans (write_ok hlays₂.cwd_eq hentry)
  have hcopied' := hcopied.mono ((areStaged_fragmentEntries hout 0 _).keeps hlays₁)
  cases mode with
  | merge => exact absurd rfl hmode
  | modularImport =>
    obtain ⟨rfl, log, rfl⟩ := noted_ok h₃
    have hlays₄ := hlays₃.trans (.log hlays₃.cwd_eq log)
    refine ⟨_, ?_, hlays₄, .modules hmode hcopied'⟩
    simp only [filesOf_append, List.append_nil]
    rfl
  | modularBuild =>
    obtain ⟨_, u₄, hwrite, h₄⟩ := bind_ok.1 h₃
    obtain ⟨rfl, log, rfl⟩ := noted_ok h₄
    have hlays₄ := hlays₃.trans (write_ok hlays₃.cwd_eq hwrite)
    have hlays₅ := hlays₄.trans (.log hlays₄.cwd_eq log)
    rw [List.append_nil] at hlays₅
    refine ⟨_, ?_, hlays₅, .modules hmode hcopied'⟩
    simp only [filesOf_append]
    rfl

/-- What a staging finds after the clean-up. -/
structure IsCleaned (cwd : Place) (out : Path) (w u : World) : Prop where
  cwd_eq : u.cwd = cwd
  isIndexed : u.tree.IsIndexed
  keeps : KeepsUnstaged cwd out w.tree u.tree

/-- Places are made and removed one by one. -/
theorem isFrame_isIndexed :
    Act.IsFrame fun w v =>
      w.cwd.IsProper → w.tree.IsIndexed → v.cwd = w.cwd ∧ v.tree.IsIndexed where
  refl _ _ h := ⟨rfl, h⟩
  trans h h' hcwd hw := by
    obtain ⟨hsame, hv⟩ := h hcwd hw
    obtain ⟨hsame', hv'⟩ := h' (hsame ▸ hcwd) hv
    exact ⟨hsame'.trans hsame, hv'⟩
  log _ _ _ h := ⟨rfl, h⟩

theorem isCleaned_of_clean (hproper : cwd.IsProper) (hw : w.tree.IsIndexed) (hcwd : w.cwd = cwd)
    (hout : out.IsWhole) {u : World} (hcreate : (createDirectories out).runOn w = (.ok ⟨⟩, u))
    (hclean : (clean out).runOn u = (.ok ⟨⟩, v)) : IsCleaned cwd out w v := by
  have hrun : (createDirectories out >>= fun _ => clean out).runOn w = (.ok ⟨⟩, v) := by
    rw [runOn_bind_of_ok hcreate, hclean]
  have hframe := keeps_isStagingFrame hout hproper
  obtain ⟨hcwd', -, -, hkeeps⟩ := (Preserves.bind hframe.toIsFrame hframe.create
    fun _ => clean_preserves hframe).of_ok hrun hcwd hw.isNamed
  refine ⟨hcwd', ?_, hkeeps⟩
  refine ((Preserves.bind isFrame_isIndexed (fun w => ?_) fun _ => ?_).of_ok hrun
    (hcwd ▸ hproper) hw).2
  · intro hproper hw
    rcases createDirectories_cases w out with h | h
    · rw [h]
      exact ⟨rfl, hw⟩
    · rw [h]
      exact ⟨rfl, hw.makeDirectories (isProper_start hproper _) (areSteps_terminated out)⟩
  · refine Preserves.bind isFrame_isIndexed (Preserves.list isFrame_isIndexed _) fun entries => ?_
    refine Preserves.forM isFrame_isIndexed fun x _ => ?_
    obtain ⟨p, e⟩ := x
    dsimp only
    split_ifs
    · intro w hproper hw
      rcases removeAll_cases w p with h | ⟨-, h⟩
      · rw [h]
        exact ⟨rfl, hw⟩
      · rw [h]
        exact ⟨rfl, hw.erase⟩
    · exact Preserves.pure isFrame_isIndexed _

/-- The staging in a mode, once all has been cleaned up. -/
def stage (s : Sources) (out : Path) : Mode → Act Staged
  | .merge => stageMerged s out
  | mode => stageModules s mode out

theorem assemble_eq (s : Sources) (mode : Mode) (out : Path) :
    assemble s mode out = (do createDirectories out; clean out; stage s out mode) := by
  cases mode <;> rfl

theorem stage_ok (hproper : cwd.IsProper) (hw : w.tree.IsIndexed) (hcwd : w.cwd = cwd)
    (hout : out.IsWhole) (hapart : AreApart cwd out (externals s))
    (h : (stage s out mode).runOn w = (.ok st, v)) :
    ∃ l, st.files = filesOf l ∧ Lays cwd out l w v ∧ IsWritten cwd out s w.tree mode l := by
  cases mode with
  | merge => exact stageMerged_ok hcwd h
  | modularImport => exact stageModules_ok hproper hw hcwd hout (by decide) hapart h
  | modularBuild => exact stageModules_ok hproper hw hcwd hout (by decide) hapart h

/-- What a staging that succeeds has written after the clean-up. -/
theorem assemble_ok (hproper : cwd.IsProper) (hw : w.tree.IsIndexed) (hcwd : w.cwd = cwd)
    (hout : out.IsWhole) (hapart : AreApart cwd out (externals s))
    (h : (assemble s mode out).runOn w = (.ok st, v)) :
    ∃ l u, IsCleaned cwd out w u ∧ st.files = filesOf l ∧ Lays cwd out l u v ∧
      IsWritten cwd out s u.tree mode l := by
  rw [assemble_eq] at h
  obtain ⟨_, u₁, hcreate, h₁⟩ := bind_ok.1 h
  obtain ⟨_, u₂, hclean, h₂⟩ := bind_ok.1 h₁
  have hcleaned := isCleaned_of_clean hproper hw hcwd hout hcreate hclean
  obtain ⟨l, hfiles, hlays, hwritten⟩ := stage_ok hproper hcleaned.isIndexed hcleaned.cwd_eq hout
    hapart h₂
  exact ⟨l, u₂, hcleaned, hfiles, hlays, hwritten⟩

/-! ### The entry -/

theorem read?_log (w : World) (log : String) (p : Path) :
    ({ w with log } : World).read? p = w.read? p := rfl

/-- What is written can be read. -/
theorem read?_of_write {p : Path} {content : String} (h : (write p content).runOn w = (.ok ⟨⟩, v)) :
    v.read? p = some content := by
  rcases put_cases w p content (.file (.cannotWrite p)) with hput | ⟨hloc, hdir, -, hput⟩
  · cases hput.symm.trans h
  · cases hput.symm.trans h
    rw [World.read?, World.get?_put hloc hdir]

/-- The file that the compiler begins with is a staged one and can be read. A build script holds
what is rendered for the auxiliary sources. -/
structure HasEntry (s : Sources) (mode : Mode) (st : Staged) (v : World) : Prop where
  entry_mem : st.entry ∈ st.files
  isReadable : ∃ content, v.read? st.entry = some content
  read?_script : mode = .modularBuild →
    v.read? st.entry = some (BuildScript.render entryName s.auxiliary)

theorem hasEntry_of_stageMerged (h : (stageMerged s out).runOn w = (.ok st, v)) :
    HasEntry s .merge st v := by
  obtain ⟨codes, u, -, h₁⟩ := bind_ok.1 h
  dsimp only at h₁
  obtain ⟨_, u', hwrite, h₂⟩ := bind_ok.1 h₁
  obtain ⟨rfl, log, rfl⟩ := noted_ok h₂
  have hread := (read?_log u' log _).trans (read?_of_write hwrite)
  exact ⟨List.mem_singleton_self _, ⟨_, hread⟩, fun hbuild => by cases hbuild⟩

theorem hasEntry_of_stageModules (hmode : mode ≠ .merge)
    (h : (stageModules s mode out).runOn w = (.ok st, v)) : HasEntry s mode st v := by
  obtain ⟨inlined, u₁, -, h₁⟩ := bind_ok.1 h
  obtain ⟨external, u₂, -, h₂⟩ := bind_ok.1 h₁
  dsimp only at h₂
  obtain ⟨_, u₃, hentry, h₃⟩ := bind_ok.1 h₂
  cases mode with
  | merge => exact absurd rfl hmode
  | modularImport =>
    obtain ⟨rfl, log, rfl⟩ := noted_ok h₃
    have hread := (read?_log u₃ log _).trans (read?_of_write hentry)
    refine ⟨List.mem_append_right _ (List.mem_singleton_self _), ⟨_, hread⟩, fun hbuild => ?_⟩
    cases hbuild
  | modularBuild =>
    obtain ⟨_, u₄, hwrite, h₄⟩ := bind_ok.1 h₃
    obtain ⟨rfl, log, rfl⟩ := noted_ok h₄
    have hread := (read?_log u₄ log _).trans (read?_of_write hwrite)
    exact ⟨List.mem_append_right _ (List.mem_singleton_self _), ⟨_, hread⟩, fun _ => hread⟩

theorem hasEntry_of_assemble (h : (assemble s mode out).runOn w = (.ok st, v)) :
    HasEntry s mode st v := by
  obtain ⟨_, u, -, h₁⟩ := bind_ok.1 h
  obtain ⟨_, u', -, h₂⟩ := bind_ok.1 h₁
  cases mode with
  | merge => exact hasEntry_of_stageMerged h₂
  | modularImport => exact hasEntry_of_stageModules (by decide) h₂
  | modularBuild => exact hasEntry_of_stageModules (by decide) h₂

end Bindery.Staging
