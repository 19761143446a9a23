import Bindery.Build
import Bindery.Proofs.Digest.Fields
import Bindery.Proofs.Path.Order
import Bindery.Proofs.Staging.Assemble
import Bindery.Proofs.World.Canonical

/-!
# What a key tells

The text that a key is the digest of tells all that the compiler is given. Its fields run on from
one list of files to the next, but each list is known by its names: staged files go by relative
ones, auxiliary sources and headers by absolute ones, and these two differ in their extensions.
-/
namespace Bindery

/-- Auxiliary sources as a scan finds them: C sources by their canonical paths. -/
def Sources.IsCanonical (s : Sources) : Prop :=
  ∀ p ∈ s.auxiliary, (∃ place : Place, place.IsProper ∧ p = World.pathOf place) ∧
    p.extension = ".c"

namespace Build
open Tokens (bind_eq_ok)

/-- The contents of some files with the names that they go by. -/
def contents (w : World) (files : List (String × Path)) : Except Failure (List (String × String)) :=
  files.mapM fun (name, p) => (w.hashed p).map fun content => (name, content)

/-- The staged files, by their paths from the output directory. -/
def stagedFiles (s : Staged) (out : Path) : List (String × Path) :=
  s.files.map fun p => ((p.relativeTo out).generic, p)

/-- Files that go by their own paths. -/
def named (ps : List Path) : List (String × Path) := ps.map fun p => (p.generic, p)

section Contents
variable {w : World} {files fs gs : List (String × Path)} {l : List (String × String)}

theorem contents_cons (name : String) (p : Path) :
    contents w ((name, p) :: files) = .ok l ↔
      ∃ content rest, w.hashed p = .ok content ∧ contents w files = .ok rest ∧
        l = (name, content) :: rest := by
  rw [contents, List.mapM_cons]
  change (do
    let x ← (w.hashed p).map fun content => (name, content)
    let xs ← contents w files
    pure (x :: xs)) = .ok l ↔ _
  cases w.hashed p with
  | error e => simp [Except.map, bind, Except.bind]
  | ok content =>
    cases contents w files with
    | error e => simp [Except.map, bind, Except.bind]
    | ok rest => simp [Except.map, bind, Except.bind, pure, Except.pure, eq_comm]

theorem contents_append (h : contents w (fs ++ gs) = .ok l) :
    ∃ a b, contents w fs = .ok a ∧ contents w gs = .ok b ∧ l = a ++ b := by
  induction fs generalizing l with
  | nil => exact ⟨[], l, rfl, h, rfl⟩
  | cons x fs ih =>
    obtain ⟨name, p⟩ := x
    rw [List.cons_append, contents_cons] at h
    obtain ⟨content, rest, hp, hrest, rfl⟩ := h
    obtain ⟨a, b, ha, hb, rfl⟩ := ih hrest
    exact ⟨(name, content) :: a, b, (contents_cons name p).2 ⟨content, a, hp, ha, rfl⟩, hb, rfl⟩

theorem names_contents (h : contents w files = .ok l) : l.map (·.1) = files.map (·.1) := by
  induction files generalizing l with
  | nil =>
    cases h
    rfl
  | cons x files ih =>
    obtain ⟨name, p⟩ := x
    obtain ⟨content, rest, _, hrest, rfl⟩ := (contents_cons name p).1 h
    rw [List.map_cons, List.map_cons, ih hrest]

end Contents

/-- The fields that a key covers besides the files. -/
def settingFields (s : Staged) (target optimization : String) : List String :=
  [s.mode.name, target, optimization]

def fileFields (l : List (String × String)) : List String := l.flatMap fun x => [x.1, x.2]

theorem fileFields_injective {l l' : List (String × String)} (h : fileFields l = fileFields l') :
    l = l' := by
  induction l generalizing l' with
  | nil =>
    cases l' with
    | nil => rfl
    | cons y l' => cases h
  | cons x l ih =>
    cases l' with
    | nil => cases h
    | cons y l' =>
      simp only [fileFields, List.flatMap_cons, List.cons_append, List.nil_append,
        List.cons.injEq] at h
      obtain ⟨hname, hcontent, hrest⟩ := h
      rw [Prod.ext hname hcontent, ih hrest]

variable {w w₁ w₂ : World} {s : Sources} {st st₁ st₂ : Staged} {out : Path}
  {target t₁ t₂ optimization o₁ o₂ text : String}

/-- The text of a key is a run of fields: settings first, then each file as two fields. -/
theorem keyText_ok (h : keyText w st target optimization out = .ok text) :
    ∃ l, contents w (keyFiles w st out) = .ok l ∧
      text = String.join ((settingFields st target optimization ++ fileFields l).map
        Digest.field) := by
  have hfiles : ∀ (files : List (String × Path)) (fields : List String),
      (files.mapM fun (name, p) => do
        let content ← w.hashed p
        return Digest.field name ++ Digest.field content) = .ok fields →
      ∃ l, contents w files = .ok l ∧
        String.join fields = String.join ((fileFields l).map Digest.field) := by
    intro files
    induction files with
    | nil =>
      intro fields hf
      cases hf
      exact ⟨[], rfl, rfl⟩
    | cons x files ih =>
      obtain ⟨name, p⟩ := x
      intro fields hf
      rw [List.mapM_cons, bind_eq_ok] at hf
      obtain ⟨field, hfield, hf⟩ := hf
      rw [bind_eq_ok] at hf
      obtain ⟨rest, hrest, hf⟩ := hf
      cases hf
      rw [bind_eq_ok] at hfield
      obtain ⟨content, hcontent, hfield⟩ := hfield
      cases hfield
      obtain ⟨l, hl, hjoin⟩ := ih rest hrest
      refine ⟨(name, content) :: l, (contents_cons name p).2 ⟨content, l, hcontent, hl, rfl⟩, ?_⟩
      rw [String.join_cons, hjoin]
      simp [fileFields, String.append_assoc]
  rw [keyText, bind_eq_ok] at h
  obtain ⟨fields, hfields, h⟩ := h
  cases h
  obtain ⟨l, hl, hjoin⟩ := hfiles _ _ hfields
  refine ⟨l, hl, ?_⟩
  rw [hjoin, List.map_append, String.join_append]
  rfl

/-! ### Telling the lists apart -/

theorem mem_headers {p : Path} {auxiliary : List Path} (h : p ∈ headers w auxiliary out) :
    isHeader p = true ∧ ∃ src ∈ auxiliary, ∃ names, p = Path.below ⟨src.parent.text⟩ names := by
  have hmem := Path.mem_of_mem_eraseDupsBy (Path.mem_sort.1 h)
  obtain ⟨dir, hdir, hp⟩ := List.mem_flatMap.1 hmem
  obtain ⟨hp, hheader⟩ := List.mem_filter.1 hp
  obtain ⟨names, _, rfl⟩ := List.mem_map.1 hp
  rw [includeDirs, List.mem_mergeSort, List.mem_eraseDups] at hdir
  obtain ⟨src, hsrc, rfl⟩ := List.mem_map.1 hdir
  exact ⟨hheader, src, hsrc, names, rfl⟩

/-- Whether a name stands for an auxiliary source or a header. -/
def isOutside (name : String) : Bool := Path.isAbsolute ⟨name⟩

def isSourceName (name : String) : Bool := Sources.isAuxiliary ⟨name⟩

theorem isOutside_stagedFiles : ∀ x ∈ stagedFiles st out, isOutside x.1 = false := by
  intro x hx
  obtain ⟨p, _, rfl⟩ := List.mem_map.1 hx
  rw [isOutside, Path.isAbsolute_generic]
  exact Path.isAbsolute_relativeTo p out

theorem isOutside_auxiliary (hs : s.IsCanonical) :
    ∀ x ∈ named s.auxiliary, isOutside x.1 = true ∧ isSourceName x.1 = true := by
  intro x hx
  obtain ⟨p, hp, rfl⟩ := List.mem_map.1 hx
  obtain ⟨⟨place, hplace, rfl⟩, hext⟩ := hs p hp
  constructor
  · rw [isOutside, Path.isAbsolute_generic]
    exact Path.isAbsolute_pathOf hplace
  · rw [isSourceName, Sources.isAuxiliary, Path.extension_generic, hext]
    rfl

theorem extension_ne_of_isHeader {p : Path} (h : isHeader p = true) : p.extension ≠ ".c" := by
  intro hext
  rw [isHeader, hext, decide_eq_true_eq] at h
  simp at h

theorem isOutside_headers (hs : s.IsCanonical) :
    ∀ x ∈ named (headers w s.auxiliary out), isOutside x.1 = true ∧ isSourceName x.1 = false := by
  intro x hx
  obtain ⟨p, hp, rfl⟩ := List.mem_map.1 hx
  obtain ⟨hheader, src, hsrc, names, hbelow⟩ := mem_headers hp
  obtain ⟨⟨place, hplace, rfl⟩, _⟩ := hs src hsrc
  constructor
  · rw [isOutside, Path.isAbsolute_generic, hbelow]
    exact Path.isAbsolute_below (Path.isAbsolute_parent (Path.isAbsolute_pathOf hplace)) names
  · rw [isSourceName, Sources.isAuxiliary, Path.extension_generic, decide_eq_false_iff_not]
    exact extension_ne_of_isHeader hheader

/-- Where two lists are put together from what has a property and what does not, the parts are
known from the whole. -/
theorem append_inj_of_forall {α : Type} (p : α → Prop) [DecidablePred p] {l m l' m' : List α}
    (hl : ∀ x ∈ l, p x) (hm : ∀ x ∈ m, ¬ p x) (hl' : ∀ x ∈ l', p x) (hm' : ∀ x ∈ m', ¬ p x)
    (h : l ++ m = l' ++ m') : l = l' ∧ m = m' := by
  have hfilter : ∀ {l m : List α}, (∀ x ∈ l, p x) → (∀ x ∈ m, ¬ p x) →
      (l ++ m).filter (fun x => decide (p x)) = l := by
    intro l m hl hm
    have hl₁ : l.filter (fun x => decide (p x)) = l :=
      List.filter_eq_self.2 fun x hx => decide_eq_true (hl x hx)
    have hm₁ : m.filter (fun x => decide (p x)) = [] :=
      List.filter_eq_nil_iff.2 fun x hx => by rw [decide_eq_true_eq]; exact hm x hx
    rw [List.filter_append, hl₁, hm₁, List.append_nil]
  have heq : l = l' := by rw [← hfilter hl hm, h, hfilter hl' hm']
  rw [heq] at h
  exact ⟨heq, List.append_cancel_left h⟩

/-- The names in three lists tell the lists apart. -/
structure AreApart (outside source : String → Bool) (a b c : List (String × String)) : Prop where
  left : ∀ x ∈ a, outside x.1 = false
  middle : ∀ x ∈ b, outside x.1 = true ∧ source x.1 = true
  right : ∀ x ∈ c, outside x.1 = true ∧ source x.1 = false

theorem AreApart.append_inj {outside source : String → Bool} {a a' b b' c c' : List (String × String)}
    (h : AreApart outside source a b c) (h' : AreApart outside source a' b' c')
    (heq : a ++ (b ++ c) = a' ++ (b' ++ c')) : a = a' ∧ b = b' ∧ c = c' := by
  have hrest : ∀ {a b c : List (String × String)}, AreApart outside source a b c →
      ∀ x ∈ b ++ c, ¬ outside x.1 = false := by
    intro a b c h x hx
    rw [Bool.not_eq_false]
    rcases List.mem_append.1 hx with hx | hx
    · exact (h.middle x hx).1
    · exact (h.right x hx).1
  have hright : ∀ {a b c : List (String × String)}, AreApart outside source a b c →
      ∀ x ∈ c, ¬ source x.1 = true := by
    intro a b c h x hx
    rw [(h.right x hx).2]
    exact Bool.false_ne_true
  obtain ⟨ha, hbc⟩ := append_inj_of_forall (fun x => outside x.1 = false) h.left (hrest h)
    h'.left (hrest h') heq
  exact ⟨ha, append_inj_of_forall (fun x => source x.1 = true) (fun x hx => (h.middle x hx).2)
    (hright h) (fun x hx => (h'.middle x hx).2) (hright h') hbc⟩

/-- A key covers the staged files, the auxiliary sources and the headers, in this order. -/
theorem contents_keyFiles {l : List (String × String)} (hs : s.IsCanonical)
    (hst : st.auxiliary = s.auxiliary) (h : contents w (keyFiles w st out) = .ok l) :
    ∃ a b c, contents w (stagedFiles st out) = .ok a ∧ contents w (named st.auxiliary) = .ok b ∧
      contents w (named (headers w st.auxiliary out)) = .ok c ∧ AreApart isOutside isSourceName a b c ∧
      l = a ++ (b ++ c) := by
  have hfiles : keyFiles w st out = stagedFiles st out ++
      (named st.auxiliary ++ named (headers w st.auxiliary out)) := by
    rw [keyFiles, stagedFiles, named, named, List.map_append]
  rw [hfiles] at h
  obtain ⟨a, bc, ha, hbc, rfl⟩ := contents_append h
  obtain ⟨b, c, hb, hc, rfl⟩ := contents_append hbc
  have hnames : ∀ {l : List (String × String)} {files : List (String × Path)} {P : String → Prop},
      contents w files = .ok l → (∀ x ∈ files, P x.1) → ∀ x ∈ l, P x.1 := by
    intro l files P hl hP x hx
    have hx' : x.1 ∈ files.map (·.1) := by
      rw [← names_contents hl]
      exact List.mem_map_of_mem hx
    obtain ⟨y, hy, hyx⟩ := List.mem_map.1 hx'
    rw [← hyx]
    exact hP y hy
  refine ⟨a, b, c, ha, hb, hc, ⟨?_, ?_, ?_⟩, rfl⟩
  · exact hnames (P := fun n => isOutside n = false) ha isOutside_stagedFiles
  · rw [hst] at hb
    exact hnames (P := fun n => isOutside n = true ∧ isSourceName n = true) hb
      (isOutside_auxiliary hs)
  · rw [hst] at hc
    exact hnames (P := fun n => isOutside n = true ∧ isSourceName n = false) hc
      (isOutside_headers hs)

/-- The same paths stand behind the same names of canonical sources. -/
theorem auxiliary_eq_of_names {s₁ s₂ : Sources} (h₁ : s₁.IsCanonical) (h₂ : s₂.IsCanonical)
    (h : (named s₁.auxiliary).map (·.1) = (named s₂.auxiliary).map (·.1)) :
    s₁.auxiliary = s₂.auxiliary := by
  have htext : ∀ {s : Sources}, s.IsCanonical →
      (named s.auxiliary).map (·.1) = s.auxiliary.map (·.text) := by
    intro s hs
    rw [named, List.map_map]
    refine List.map_congr_left fun p hp => ?_
    obtain ⟨⟨place, hplace, rfl⟩, _⟩ := hs p hp
    exact Path.generic_pathOf hplace
  rw [htext h₁, htext h₂] at h
  exact List.map_injective_iff.2 (fun p q hpq => by cases p; cases q; cases hpq; rfl) h

/-- A key is sound: where two builds into an output directory digest the same text, the compiler
is given the same mode, target and optimisation, the same files by the same names in the same
order, and so the same command line. -/
theorem keyText_sound {w₁' w₂' : World} {s₁ s₂ : Sources} {m₁ m₂ : Mode}
    (hs₁ : s₁.IsCanonical) (hs₂ : s₂.IsCanonical)
    (ha₁ : (Staging.assemble s₁ m₁ out).runOn w₁ = (.ok st₁, w₁'))
    (ha₂ : (Staging.assemble s₂ m₂ out).runOn w₂ = (.ok st₂, w₂'))
    (hk₁ : keyText w₁' st₁ t₁ o₁ out = .ok text) (hk₂ : keyText w₂' st₂ t₂ o₂ out = .ok text) :
    m₁ = m₂ ∧ t₁ = t₂ ∧ o₁ = o₂ ∧ st₁.auxiliary = st₂.auxiliary ∧
      (∃ staged auxiliary headers,
        contents w₁' (stagedFiles st₁ out) = .ok staged ∧
        contents w₂' (stagedFiles st₂ out) = .ok staged ∧
        contents w₁' (named st₁.auxiliary) = .ok auxiliary ∧
        contents w₂' (named st₂.auxiliary) = .ok auxiliary ∧
        contents w₁' (named (Build.headers w₁' st₁.auxiliary out)) = .ok headers ∧
        contents w₂' (named (Build.headers w₂' st₂.auxiliary out)) = .ok headers) ∧
      compileArgs st₁ t₁ o₁ out = compileArgs st₂ t₂ o₂ out := by
  have hst₁ := Staging.assemble_returns m₁ w₁ w₁' st₁ ha₁
  have hst₂ := Staging.assemble_returns m₂ w₂ w₂' st₂ ha₂
  obtain ⟨l₁, hl₁, htext₁⟩ := keyText_ok hk₁
  obtain ⟨l₂, hl₂, htext₂⟩ := keyText_ok hk₂
  have hfields := Digest.join_fields_injective (htext₁.symm.trans htext₂)
  simp only [settingFields, List.cons_append, List.nil_append, List.cons.injEq] at hfields
  obtain ⟨hmode, htarget, hopt, hfiles⟩ := hfields
  obtain ⟨a₁, b₁, c₁, hst, haux, hhead, hcov, rfl⟩ := contents_keyFiles hs₁ hst₁.auxiliary_eq hl₁
  obtain ⟨a₂, b₂, c₂, hst', haux', hhead', hcov', rfl⟩ :=
    contents_keyFiles hs₂ hst₂.auxiliary_eq hl₂
  obtain ⟨rfl, rfl, rfl⟩ := hcov.append_inj hcov' (fileFields_injective hfiles)
  have hm : m₁ = m₂ := by
    rw [hst₁.mode_eq, hst₂.mode_eq] at hmode
    have := congrArg Mode.ofName? hmode
    rwa [Mode.ofName?_name, Mode.ofName?_name, Option.some.injEq] at this
  have hsame : st₁.auxiliary = st₂.auxiliary := by
    rw [hst₁.auxiliary_eq] at haux ⊢
    rw [hst₂.auxiliary_eq] at haux' ⊢
    refine auxiliary_eq_of_names hs₁ hs₂ ?_
    rw [← names_contents haux, ← names_contents haux']
  refine ⟨hm, htarget, hopt, hsame, ⟨a₁, b₁, c₁, hst, hst', haux, haux', hhead, hhead'⟩, ?_⟩
  rw [compileArgs, compileArgs, hst₁.mode_eq, hst₂.mode_eq, hst₁.entry_eq, hst₂.entry_eq, hsame,
    hm, htarget, hopt]

def exampleSources : Sources := { auxiliary := [⟨"/s/a.c"⟩] }

theorem exampleSources_isCanonical : exampleSources.IsCanonical := by
  intro p hp
  rw [List.mem_singleton.1 hp]
  refine ⟨⟨["s", "a.c"], ?_, rfl⟩, by decide⟩
  unfold Place.IsProper
  decide

def exampleStaged : Staged where
  mode := .merge
  entry := ⟨"/o/zigbind_merged.zig"⟩
  files := [⟨"/o/zigbind_merged.zig"⟩]
  auxiliary := [⟨"/s/a.c"⟩]

/-- The staging of a C source that has a header beside it, in a tree with some other entries. -/
def exampleStaging (others : List (Place × Entry)) : Except Failure Staged × World :=
  (Staging.assemble exampleSources .merge ⟨"/o"⟩).runOn
    { tree := ⟨[(["s"], .directory), (["s", "a.c"], .file "int a;"),
        (["s", "a.h"], .file "int b;")] ++ others⟩ }

/-- An output directory with something that an earlier run staged. -/
def exampleRest : List (Place × Entry) :=
  [(["o"], .directory), (["o", "zigbind_entry.zig"], .file "const c = 1;")]

def exampleText : String :=
  "5:merge6:native5:Debug18:zigbind_merged.zig0:6:/s/a.c6:int a;6:/s/a.h6:int b;"

/-- What is left from an earlier run makes no difference to a key. -/
theorem keyText_sound_of_rest :
    exampleSources.IsCanonical ∧ (exampleStaging []).1 = .ok exampleStaged ∧
      (exampleStaging exampleRest).1 = .ok exampleStaged ∧
      keyText (exampleStaging []).2 exampleStaged "native" "Debug" ⟨"/o"⟩ = .ok exampleText ∧
      keyText (exampleStaging exampleRest).2 exampleStaged "native" "Debug" ⟨"/o"⟩ =
        .ok exampleText ∧
      ∃ staged, contents (exampleStaging []).2 (stagedFiles exampleStaged ⟨"/o"⟩) = .ok staged ∧
        contents (exampleStaging exampleRest).2 (stagedFiles exampleStaged ⟨"/o"⟩) = .ok staged := by
  have hstaged (others) (h : (exampleStaging others).1 = .ok exampleStaged) :
      exampleStaging others = (.ok exampleStaged, (exampleStaging others).2) := Prod.ext h rfl
  have h₁ : (exampleStaging []).1 = .ok exampleStaged := by decide +kernel
  have h₂ : (exampleStaging exampleRest).1 = .ok exampleStaged := by decide +kernel
  have hk₁ : keyText (exampleStaging []).2 exampleStaged "native" "Debug" ⟨"/o"⟩ =
      .ok exampleText := by decide +kernel
  have hk₂ : keyText (exampleStaging exampleRest).2 exampleStaged "native" "Debug" ⟨"/o"⟩ =
      .ok exampleText := by decide +kernel
  obtain ⟨-, -, -, -, ⟨staged, _, _, hs₁, hs₂, _⟩, -⟩ := keyText_sound exampleSources_isCanonical
    exampleSources_isCanonical (hstaged _ h₁) (hstaged _ h₂) hk₁ hk₂
  exact ⟨exampleSources_isCanonical, h₁, h₂, hk₁, hk₂, staged, hs₁, hs₂⟩

end Build
end Bindery
