import Bindery.Proofs.Compilation.Rescan

/-!
# Walking the tree

A walk lists a directory, takes its files and walks the directories in it, but for those that it
passes by. In whatever order the entries of a directory are listed, the files that a walk comes to
are the same, and so are the sources once they are sorted: those of the hosts, in the order of their
paths, and the auxiliary ones. The first host in this order that cannot be scanned fails the scan.
-/
namespace Bindery
open Act

/-- A way to list the directories of a tree: all that lies in each, in some order. -/
def FileTree.IsListing (t : FileTree) (list : Place → List (String × Entry)) : Prop :=
  ∀ p, (list p).Perm (t.children p)

/-- Two paths that stand for the same place. -/
def World.IsSame (w : World) (p q : Path) : Prop := (w.canonical p).same (w.canonical q) = true

/-- What exists stands for its place. -/
theorem World.isSame_iff {w : World} (htree : w.tree.WellFormed) {p q : Path}
    (hp : w.exists? p = true) (hq : w.exists? q = true) :
    w.IsSame p q ↔ p.place w.cwd = q.place w.cwd := by
  obtain ⟨_, he⟩ := exists?_iff.1 hp
  obtain ⟨_, hf⟩ := exists?_iff.1 hq
  have hproper := htree.isNamed.isProper (get?_eq_some he).2
  have hproper' := htree.isNamed.isProper (get?_eq_some hf).2
  rw [IsSame, canonical_of_exists hp, canonical_of_exists hq, Path.same_pathOf hproper hproper',
    decide_eq_true_iff]

theorem World.isDirectory_place {w : World} {p : Path} (h : w.isDirectory p = true) :
    w.tree.isDirectory (p.place w.cwd) = true :=
  FileTree.isDirectory_iff.2 (get?_eq_some (decide_eq_true_iff.1 h)).2

theorem World.filesBelow_of_isDirectory {w : World} {p : Path} (h : w.isDirectory p = true) :
    w.filesBelow p = w.tree.filesBelow (p.place w.cwd) := by
  rw [filesBelow, (get?_eq_some (decide_eq_true_iff.1 h)).1]
  exact if_pos (isDirectory_place h)

/-- Different names lead to different paths below a directory. -/
theorem Path.below_inj {dir : Path} {ns ms : List String} (hns : Place.IsProper ns)
    (hms : Place.IsProper ms) (h : dir.below ns = dir.below ms) : ns = ms := by
  have hnames := congrArg names h
  rw [names_below (areSteps_of_isProper hns), names_below (areSteps_of_isProper hms)] at hnames
  exact List.append_cancel_left hnames

namespace Sources
variable {w v : World} {list : Place → List (String × Entry)} {root out dir host : Path}
  {place : Place} {es : List (String × Entry)} {found : List (List String)} {name : String}
  {names : List String}

/-! ### Walks -/

/-- A directory that a walk does not enter: a hidden one, or the output directory. -/
def IsPassed (w : World) (out dir : Path) (name : String) : Prop :=
  isHidden name = true ∨ w.IsSame (dir / name) out

/-- A walk through the entries of a directory that are still to come, and the files that it comes
to, by the names that lead there from the directory. -/
inductive Walk (w : World) (list : Place → List (String × Entry)) (out : Path) :
    Path → Place → List (String × Entry) → List (List String) → Prop
  | done {dir : Path} {place : Place} : Walk w list out dir place [] []
  | file {dir : Path} {place : Place} {name content : String} {es : List (String × Entry)}
      {found : List (List String)} (h : Walk w list out dir place es found) :
      Walk w list out dir place ((name, .file content) :: es) ([name] :: found)
  | pass {dir : Path} {place : Place} {name : String} {es : List (String × Entry)}
      {found : List (List String)} (hpass : IsPassed w out dir name)
      (h : Walk w list out dir place es found) :
      Walk w list out dir place ((name, .directory) :: es) found
  | enter {dir : Path} {place : Place} {name : String} {es : List (String × Entry)}
      {within found : List (List String)} (hpass : ¬ IsPassed w out dir name)
      (hwithin : Walk w list out (dir / name) (place ++ [name]) (list (place ++ [name])) within)
      (h : Walk w list out dir place es found) :
      Walk w list out dir place ((name, .directory) :: es) (within.map (name :: ·) ++ found)

theorem reaches_cons {next : String} :
    reaches w (w.canonical out) dir (name :: next :: names) = true ↔
      ¬ IsPassed w out dir name ∧
        reaches w (w.canonical out) (dir / name) (next :: names) = true := by
  rw [reaches, IsPassed, World.IsSame]
  simp only [Bool.and_eq_true, Bool.not_eq_true', Bool.not_eq_true, not_or]

/-- A file is come to if none of the directories before it is passed by. -/
theorem reaches_iff : reaches w (w.canonical out) dir names = true ↔
    ∀ front name rest, rest ≠ [] → names = front ++ name :: rest →
      ¬ IsPassed w out (dir.below front) name := by
  induction names generalizing dir with
  | nil => exact iff_of_true rfl fun front name rest _ h => absurd h.symm (by simp)
  | cons first names ih =>
    cases names with
    | nil =>
      refine iff_of_true rfl fun front name rest hrest h => absurd h ?_
      rcases front with _ | ⟨_, front⟩ <;> simp [Ne.symm hrest]
    | cons next names =>
      rw [reaches_cons, ih]
      constructor
      · rintro ⟨hfirst, hnames⟩ front name rest hrest h
        rcases front with _ | ⟨first', front⟩
        · obtain ⟨rfl, -⟩ := List.cons.inj h
          exact hfirst
        · obtain ⟨rfl, htail⟩ := List.cons.inj h
          exact hnames front name rest hrest htail
      · intro h
        refine ⟨h [] first _ (List.cons_ne_nil _ _) rfl, fun front name rest hrest hnames => ?_⟩
        exact h (first :: front) name rest hrest (by rw [hnames, List.cons_append])

/-- A file below a directory that a walk comes to. -/
def IsReached (w : World) (out dir : Path) (place : Place) (names : List String) : Prop :=
  (∃ content, w.tree.get? (place ++ names) = some (.file content)) ∧
    reaches w (w.canonical out) dir names = true

theorem isProper_of_mem_filesBelow (htree : w.tree.WellFormed)
    (h : names ∈ w.tree.filesBelow place) : Place.IsProper names := by
  obtain ⟨_, hget⟩ := (FileTree.mem_filesBelow htree.isIndexed).1 h
  exact fun n hn => htree.isNamed.isProper hget n (List.mem_append_right _ hn)

section
variable (htree : w.tree.WellFormed) (hlist : w.tree.IsListing list)
include htree hlist

theorem get?_of_mem_list {x : String × Entry} (hx : x ∈ list place) :
    w.tree.get? (place ++ [x.1]) = some x.2 :=
  (FileTree.mem_children htree.isIndexed).1 ((hlist place).mem_iff.1 hx)

/-- What lies below a directory lies in something that the directory lists. -/
theorem mem_list_of_get? {rest : List String} {e : Entry}
    (h : w.tree.get? (place ++ name :: rest) = some e) : name ∈ (list place).map (·.1) := by
  obtain ⟨f, hf⟩ := htree.exists_of_prefix ⟨rest, (List.append_cons place name rest).symm⟩ h
  have hmem := (hlist place).mem_iff.2 ((FileTree.mem_children htree.isIndexed).2 hf)
  exact List.mem_map.2 ⟨_, hmem, rfl⟩

theorem nodup_list (place : Place) : ((list place).map (·.1)).Nodup := by
  refine ((hlist place).map _).nodup_iff.2 (List.Nodup.of_map (place ++ [·]) ?_)
  rw [List.map_map]
  exact htree.nodup.sublist (FileTree.map_children_sublist w.tree place)

/-- A walk comes to the files below the entries that it goes through, as far as no directory on the
way is passed by. -/
theorem Walk.mem_iff (h : Walk w list out dir place es found)
    (hes : ∀ x ∈ es, w.tree.get? (place ++ [x.1]) = some x.2) :
    names ∈ found ↔ (∃ name ∈ es.map (·.1), names.head? = some name) ∧
      IsReached w out dir place names := by
  induction h generalizing names with
  | done => simp
  | @file dir place name content es found h ih =>
    obtain ⟨hfirst, hes⟩ := List.forall_mem_cons.1 hes
    rw [List.mem_cons, ih hes, List.map_cons, List.exists_mem_cons_iff, or_and_right]
    refine or_congr_left ⟨?_, ?_⟩
    · rintro rfl
      exact ⟨rfl, ⟨content, hfirst⟩, rfl⟩
    · rintro ⟨hhead, ⟨content', hget⟩, -⟩
      obtain ⟨rest, rfl⟩ := List.head?_eq_some_iff.1 hhead
      by_contra hne
      have hrest : rest ≠ [] := fun hnil => hne (by rw [hnil])
      rw [← List.singleton_append, ← List.append_assoc] at hget
      cases hfirst.symm.trans (FileTree.isDirectory_iff.1 (htree.isDirectory_of_prefix hrest hget))
  | @pass dir place name es found hpass h ih =>
    obtain ⟨hfirst, hes⟩ := List.forall_mem_cons.1 hes
    rw [ih hes, List.map_cons, List.exists_mem_cons_iff, or_and_right]
    refine (or_iff_right ?_).symm
    rintro ⟨hhead, ⟨content, hget⟩, hreaches⟩
    obtain ⟨rest, rfl⟩ := List.head?_eq_some_iff.1 hhead
    cases rest with
    | nil => cases hfirst.symm.trans hget
    | cons next rest => exact (reaches_cons.1 hreaches).1 hpass
  | @enter dir place name es within found hpass hwithin h ihwithin ih =>
    obtain ⟨hfirst, hes⟩ := List.forall_mem_cons.1 hes
    rw [List.mem_append, ih hes, List.map_cons, List.exists_mem_cons_iff, or_and_right]
    refine or_congr_left ⟨?_, ?_⟩
    · intro hmem
      obtain ⟨ns, hns, rfl⟩ := List.mem_map.1 hmem
      obtain ⟨⟨next, -, hhead⟩, ⟨content, hget⟩, hreaches⟩ :=
        (ihwithin fun _ => get?_of_mem_list htree hlist).1 hns
      obtain ⟨rest, rfl⟩ := List.head?_eq_some_iff.1 hhead
      rw [List.append_assoc, List.singleton_append] at hget
      exact ⟨rfl, ⟨content, hget⟩, reaches_cons.2 ⟨hpass, hreaches⟩⟩
    · rintro ⟨hhead, ⟨content, hget⟩, hreaches⟩
      obtain ⟨rest, rfl⟩ := List.head?_eq_some_iff.1 hhead
      cases rest with
      | nil => cases hfirst.symm.trans hget
      | cons next rest =>
        rw [← List.singleton_append, ← List.append_assoc] at hget
        have hwithin := (ihwithin fun _ => get?_of_mem_list htree hlist).2
          ⟨⟨next, mem_list_of_get? htree hlist hget, rfl⟩, ⟨content, hget⟩,
            (reaches_cons.1 hreaches).2⟩
        exact List.mem_map_of_mem hwithin

/-- A walk comes to each file once. -/
theorem Walk.nodup (h : Walk w list out dir place es found) (hnodup : (es.map (·.1)).Nodup)
    (hes : ∀ x ∈ es, w.tree.get? (place ++ [x.1]) = some x.2) : found.Nodup := by
  -- What is found below later entries does not begin with the name of this one.
  have hlater {dir place name es found} (h : Walk w list out dir place es found)
      (hes : ∀ x ∈ es, w.tree.get? (place ++ [x.1]) = some x.2)
      (hname : name ∉ es.map (·.1)) (ns : List String) : name :: ns ∉ found := by
    intro hmem
    obtain ⟨⟨_, hother, hhead⟩, -⟩ := (h.mem_iff htree hlist hes).1 hmem
    cases hhead
    exact hname hother
  induction h with
  | done => exact List.nodup_nil
  | file h ih =>
    obtain ⟨hname, hnodup⟩ := List.nodup_cons.1 hnodup
    have hes := (List.forall_mem_cons.1 hes).2
    exact List.nodup_cons.2 ⟨hlater h hes hname [], ih hnodup hes⟩
  | pass hpass h ih =>
    exact ih (List.nodup_cons.1 hnodup).2 (List.forall_mem_cons.1 hes).2
  | enter hpass hwithin h ihwithin ih =>
    obtain ⟨hname, hnodup⟩ := List.nodup_cons.1 hnodup
    have hes := (List.forall_mem_cons.1 hes).2
    have hnodupWithin := ihwithin (nodup_list htree hlist _) fun _ => get?_of_mem_list htree hlist
    refine List.Nodup.append (hnodupWithin.map fun _ _ h => (List.cons.inj h).2) (ih hnodup hes) ?_
    intro ns hns hfound
    obtain ⟨ms, -, rfl⟩ := List.mem_map.1 hns
    exact hlater h hes hname ms hfound

/-- However the directories are listed, a walk comes to the same files. -/
theorem Walk.perm (h : Walk w list out dir place (list place) found)
    (hplace : w.tree.isDirectory place = true) :
    found.Perm ((w.tree.filesBelow place).filter (reaches w (w.canonical out) dir)) := by
  have hes : ∀ x ∈ list place, w.tree.get? (place ++ [x.1]) = some x.2 :=
    fun _ => get?_of_mem_list htree hlist
  refine (List.perm_ext_iff_of_nodup (h.nodup htree hlist (nodup_list htree hlist place) hes)
    ((FileTree.nodup_filesBelow htree.isIndexed place).filter _)).2 fun names => ?_
  rw [h.mem_iff htree hlist hes, List.mem_filter, FileTree.mem_filesBelow htree.isIndexed]
  refine and_iff_right_of_imp fun ⟨⟨content, hget⟩, _⟩ => ?_
  cases names with
  | nil =>
    rw [List.append_nil] at hget
    cases hget.symm.trans (FileTree.isDirectory_iff.1 hplace)
  | cons name rest => exact ⟨name, mem_list_of_get? htree hlist hget, rfl⟩

/-- A walk comes to its end: directories are nested only as deep as the longest place. -/
theorem exists_walk {deepest : Nat} (hdeepest : ∀ x ∈ w.tree.entries, x.1.length ≤ deepest)
    (hes : ∀ x ∈ es, w.tree.get? (place ++ [x.1]) = some x.2) :
    ∃ found, Walk w list out dir place es found := by
  induction hdepth : deepest + 1 - place.length using Nat.strong_induction_on generalizing
    dir place es with
  | _ depth ihdepth =>
    induction es with
    | nil => exact ⟨[], .done⟩
    | cons x es ih =>
      obtain ⟨hfirst, hes⟩ := List.forall_mem_cons.1 hes
      obtain ⟨found, hfound⟩ := ih hes
      obtain ⟨name, e⟩ := x
      cases e with
      | file content => exact ⟨_, hfound.file⟩
      | directory =>
        by_cases hpass : IsPassed w out dir name
        · exact ⟨_, hfound.pass hpass⟩
        have hlength := hdeepest _ (FileTree.mem_of_get? (List.concat_ne_nil _ _) hfirst)
        rw [List.length_append, List.length_singleton] at hlength
        have hless : deepest + 1 - (place ++ [name]).length < depth := by
          rw [List.length_append, List.length_singleton]
          omega
        obtain ⟨within, hwithin⟩ :
            ∃ within, Walk w list out (dir / name) (place ++ [name]) (list (place ++ [name]))
              within :=
          ihdepth _ hless (fun _ => get?_of_mem_list htree hlist) rfl
        exact ⟨_, .enter hpass hwithin hfound⟩

/-- Sorted, what a walk comes to are the files of a scan. -/
theorem Walk.sort_eq (hroot : w.isDirectory root = true)
    (h : Walk w list out root (root.place w.cwd) (list (root.place w.cwd)) found) :
    Path.sort (found.map root.below) = files w root out := by
  have hperm := h.perm htree hlist (World.isDirectory_place hroot)
  rw [files, World.filesBelow_of_isDirectory hroot]
  refine Path.sort_eq_of_perm (hperm.map root.below) (areDistinct_below fun names hnames => ?_)
  exact isProper_of_mem_filesBelow htree (List.mem_of_mem_filter (hperm.mem_iff.1 hnames))

end

/-! ### Files in order -/

section
variable (htree : w.tree.WellFormed) (hroot : w.isDirectory root = true)
include htree hroot

/-- The files of a scan, said of each by itself. -/
theorem mem_files_iff {file : Path} : file ∈ files w root out ↔
    ∃ names, file = root.below names ∧ IsReached w out root (root.place w.cwd) names := by
  rw [files, Path.mem_sort, List.mem_map, World.filesBelow_of_isDirectory hroot]
  refine exists_congr fun names => ?_
  rw [List.mem_filter, FileTree.mem_filesBelow htree.isIndexed, IsReached, and_comm,
    @eq_comm _ file]

/-- The files of a scan stand in the strict order of their paths. -/
theorem pairwise_files : (files w root out).Pairwise fun p q => p.lt q = true := by
  rw [files, World.filesBelow_of_isDirectory hroot]
  have hproper : ∀ names ∈ (w.tree.filesBelow (root.place w.cwd)).filter
      (reaches w (w.canonical out) root), Place.IsProper names := fun names hnames =>
    isProper_of_mem_filesBelow htree (List.mem_of_mem_filter hnames)
  have hdistinct := @areDistinct_below root _ hproper
  have hnodup := ((FileTree.nodup_filesBelow htree.isIndexed (root.place w.cwd)).filter
    (reaches w (w.canonical out) root)).map_on fun ns hns ms hms (h : root.below ns = _) =>
      Path.below_inj (hproper ns hns) (hproper ms hms) h
  replace hnodup := (List.mergeSort_perm _ fun p q : Path => !q.lt p).nodup_iff.2 hnodup
  refine ((Path.pairwise_sort _).and hnodup).imp_of_mem fun {p q} hp hq h => ?_
  by_contra hlt
  rw [Bool.not_eq_true] at hlt
  have heq := Path.components_eq_of_not_lt h.1 (by rw [hlt]; rfl)
  exact h.2 (hdistinct p (Path.mem_sort.1 hp) q (Path.mem_sort.1 hq) heq)

end

/-! ### Scanning hosts -/

/-- The annotations that a host is scanned to, or why it cannot be scanned. -/
def scanned (w : World) (root host : Path) : Except Failure (List Annotation) :=
  match w.read? host with
  | some text => Annotation.result (w.source root host) text.toList
  | none => .error (.file (.cannotOpen host))

theorem scanned_log {log : String} : scanned { w with log } root host = scanned w root host := by
  have hread : ({ w with log } : World).read? host = w.read? host := rfl
  rw [scanned, scanned, hread, World.source_log]

theorem isScanned_of_scanned {as : List Annotation} (h : scanned w root host = .ok as) :
    IsScanned w root host as := by
  unfold scanned at h
  split at h
  · rename_i text hread
    exact ⟨text, hread, h⟩
  · cases h

theorem result_ofHost : ((ofHost root host).runOn w).1 = scanned w root host := by
  rw [ofHost, scanned]
  cases hread : w.read? host with
  | none =>
    have hrun : (Act.read host (.cannotOpen host)).runOn w =
        (.error (.file (.cannotOpen host)), w) := by
      rw [runOn_read, hread]
      rfl
    rw [runOn_bind_of_error hrun]
  | some text =>
    have hrun : (Act.read host (.cannotOpen host)).runOn w = (.ok text, w) := by
      rw [runOn_read, hread]
      rfl
    rw [runOn_bind_of_ok hrun, result_ofText]

/-- Hosts are scanned one by one. -/
theorem result_mapM_ofHost (hosts : List Path) :
    ((hosts.mapM (ofHost root)).runOn w).1 = hosts.mapM (scanned w root) := by
  induction hosts generalizing w with
  | nil => rfl
  | cons host hosts ih =>
    have hfirst := @result_ofHost w root host
    rw [List.mapM_cons, List.mapM_cons, ← hfirst]
    cases hrun : (ofHost root host).runOn w with
    | mk result u =>
      cases result with
      | error e => rw [runOn_bind_of_error hrun]; rfl
      | ok as =>
        obtain ⟨log, rfl⟩ := (World.OnlyLogs.ofHost root host).of_ok hrun
        have hrest := @ih { w with log }
        rw [funext fun host => @scanned_log w root host log] at hrest
        rw [runOn_bind_of_ok hrun]
        cases hmap : (hosts.mapM (ofHost root)).runOn { w with log } with
        | mk result u =>
          rw [hmap] at hrest
          rw [← hrest]
          cases result with
          | error e => rw [runOn_bind_of_error hmap]; rfl
          | ok ass => rw [runOn_bind_of_ok hmap]; rfl

/-- What fails a row of steps is the first of them that fails. -/
theorem mapM_eq_error {ε α β : Type} {f : α → Except ε β} {as : List α} {e : ε} :
    as.mapM f = .error e ↔ ∃ before a after, as = before ++ a :: after ∧
      (∀ b ∈ before, ∃ x, f b = .ok x) ∧ f a = .error e := by
  induction as with
  | nil => exact iff_of_false nofun (by simp)
  | cons a as ih =>
    rw [List.mapM_cons]
    cases ha : f a with
    | error e' =>
      constructor
      · rintro ⟨⟩
        exact ⟨[], a, as, rfl, nofun, ha⟩
      · rintro ⟨before, b, after, hsplit, hbefore, hb⟩
        cases before with
        | nil =>
          obtain ⟨rfl, -⟩ := List.cons.inj hsplit
          rw [ha] at hb
          exact congrArg Except.error (Except.error.inj hb)
        | cons c before =>
          obtain ⟨rfl, -⟩ := List.cons.inj hsplit
          obtain ⟨x, hx⟩ := hbefore a List.mem_cons_self
          cases ha.symm.trans hx
    | ok x =>
      have hrest : (do let y ← (Except.ok x : Except ε β); let ys ← as.mapM f; pure (y :: ys)) =
          .error e ↔ as.mapM f = .error e := by
        cases as.mapM f with
        | error e' => exact Iff.rfl
        | ok ys => exact iff_of_false nofun nofun
      rw [hrest, ih]
      constructor
      · rintro ⟨before, b, after, rfl, hbefore, hb⟩
        exact ⟨a :: before, b, after, rfl, List.forall_mem_cons.2 ⟨⟨x, ha⟩, hbefore⟩, hb⟩
      · rintro ⟨before, b, after, hsplit, hbefore, hb⟩
        cases before with
        | nil =>
          obtain ⟨rfl, -⟩ := List.cons.inj hsplit
          cases ha.symm.trans hb
        | cons c before =>
          obtain ⟨rfl, rfl⟩ := List.cons.inj hsplit
          exact ⟨before, b, after, rfl, (List.forall_mem_cons.1 hbefore).2, hb⟩

theorem result_scan (hroot : w.isDirectory root = true) :
    ((scan root out).runOn w).1 = (((files w root out).filter Host.isSource).mapM
      (scanned w root)).map fun ass =>
        ⟨ass.flatten, ((files w root out).filter isAuxiliary).map w.canonical⟩ := by
  have hlong : w.isTooLong root = false := by
    obtain ⟨hlocate, -⟩ := World.get?_eq_some (decide_eq_true_iff.1 hroot)
    rw [World.locate] at hlocate
    rw [World.isTooLong]
    cases hlookup : w.lookup root with
    | ok place => rfl
    | error o =>
      rw [hlookup] at hlocate
      cases hlocate
  unfold scan
  rw [runOn_get_bind]
  dsimp only
  rw [hlong, hroot, if_neg Bool.false_ne_true, Bool.not_true, if_neg Bool.false_ne_true,
    ← result_mapM_ofHost]
  cases hmap : (((files w root out).filter Host.isSource).mapM (ofHost root)).runOn w with
  | mk result u =>
    cases result with
    | error e => rw [runOn_bind_of_error hmap]; rfl
    | ok ass => rw [runOn_bind_of_ok hmap]; rfl

/-- However the directories are listed, a scan takes the files that it can walk to past the hidden
directories and the output directory: their annotations and the auxiliary sources, in the strict
order of paths, and in each file in the order of its text. The first host that cannot be scanned
fails the scan. -/
theorem scan_in_order (root out : Path) (w : World) (htree : w.tree.WellFormed)
    (hroot : w.isDirectory root = true) :
    let place := root.place w.cwd
    let hosts := (files w root out).filter Host.isSource
    (∀ list, w.tree.IsListing list →
      (∃ found, Walk w list out root place (list place) found) ∧
      ∀ found, Walk w list out root place (list place) found →
        Path.sort (found.map root.below) = files w root out) ∧
    (∀ file, file ∈ files w root out ↔ ∃ names, file = root.below names ∧
      (∃ content, w.tree.get? (place ++ names) = some (.file content)) ∧
      ∀ front name rest, rest ≠ [] → names = front ++ name :: rest →
        isHidden name = false ∧ ¬ w.IsSame (root.below (front ++ [name])) out) ∧
    (∀ dir, w.exists? dir = true → w.exists? out = true →
      (w.IsSame dir out ↔ dir.place w.cwd = out.place w.cwd)) ∧
    (files w root out).Pairwise (fun p q => p.lt q = true) ∧
    match ((scan root out).runOn w).1 with
    | .ok s => s.auxiliary = ((files w root out).filter isAuxiliary).map w.canonical ∧
      ∃ ass, s.annotations = ass.flatten ∧ List.Forall₂ (fun host as =>
        scanned w root host = .ok as ∧ ∃ text, w.read? host = some text ∧
          Annotation.AreIn (w.source root host) [] text.toList as) hosts ass
    | .error failure => ∃ before host after, hosts = before ++ host :: after ∧
      (∀ earlier ∈ before, ∃ as, scanned w root earlier = .ok as) ∧
      scanned w root host = .error failure := by
  intro place hosts
  refine ⟨fun list hlist => ⟨?_, fun found h => h.sort_eq htree hlist hroot⟩, fun file => ?_,
    fun dir hdir hout => World.isSame_iff htree hdir hout, pairwise_files htree hroot, ?_⟩
  · obtain ⟨deepest, hdeepest⟩ : ∃ deepest, ∀ x ∈ w.tree.entries, x.1.length ≤ deepest :=
      ⟨(w.tree.entries.map (·.1.length)).sum, fun x hx =>
        List.single_le_sum (fun _ _ => Nat.zero_le _) _ (List.mem_map_of_mem hx)⟩
    exact exists_walk htree hlist hdeepest fun _ => get?_of_mem_list htree hlist
  · rw [mem_files_iff htree hroot]
    refine exists_congr fun names => and_congr_right fun _ => and_congr_right fun _ => ?_
    rw [reaches_iff]
    refine forall₅_congr fun front name rest _ _ => ?_
    rw [IsPassed, not_or, Bool.not_eq_true, Path.below_concat]
  · rw [result_scan hroot]
    cases hmap : hosts.mapM (scanned w root) with
    | error failure => exact mapM_eq_error.1 hmap
    | ok ass =>
      refine ⟨rfl, ass, rfl, (mapM_eq_ok.1 hmap).imp fun host as h => ⟨h, ?_⟩⟩
      obtain ⟨text, hread, hresult⟩ := isScanned_of_scanned h
      exact ⟨text, hread, Annotation.areIn_of_result hresult⟩

/-- A tree with a hidden directory and an output directory, each with a file in it. -/
def exampleWalked : World where
  tree := ⟨[(["s"], .directory), (["s", "b.hpp"], .file ""), (["s", ".git"], .directory),
    (["s", ".git", "h.hpp"], .file ""), (["s", "o"], .directory), (["s", "o", "g.c"], .file ""),
    (["s", "a"], .directory), (["s", "a", "z.c"], .file "")]⟩

/-- The two other files are found in their order also if each directory is listed backwards. -/
theorem scan_in_order_backwards :
    let list := fun p => (exampleWalked.tree.children p).reverse
    exampleWalked.tree.WellFormed ∧ exampleWalked.isDirectory ⟨"/s"⟩ = true ∧
      ∃ found, Walk exampleWalked list ⟨"/s/o"⟩ ⟨"/s"⟩ ["s"] (list ["s"]) found ∧
        Path.sort (found.map (Path.below ⟨"/s"⟩)) = [⟨"/s/a/z.c"⟩, ⟨"/s/b.hpp"⟩] := by
  intro list
  have htree : exampleWalked.tree.WellFormed := by
    refine ⟨?_, by decide, by decide⟩
    unfold FileTree.IsNamed Place.IsProper
    decide
  have hroot : exampleWalked.isDirectory ⟨"/s"⟩ = true := by decide +kernel
  have hplace : (⟨"/s"⟩ : Path).place exampleWalked.cwd = ["s"] := by decide +kernel
  have hfiles : files exampleWalked ⟨"/s"⟩ ⟨"/s/o"⟩ = [⟨"/s/a/z.c"⟩, ⟨"/s/b.hpp"⟩] := by
    have hunsorted : ((exampleWalked.filesBelow ⟨"/s"⟩).filter
        (reaches exampleWalked (exampleWalked.canonical ⟨"/s/o"⟩) ⟨"/s"⟩)).map (Path.below ⟨"/s"⟩) =
        [⟨"/s/b.hpp"⟩, ⟨"/s/a/z.c"⟩] := by decide +kernel
    have hlt : Path.lt ⟨"/s/a/z.c"⟩ ⟨"/s/b.hpp"⟩ = true := by decide +kernel
    rw [files, hunsorted, Path.sort]
    simp [List.mergeSort, List.MergeSort.Internal.splitInTwo, hlt]
  obtain ⟨hwalks, -⟩ := scan_in_order ⟨"/s"⟩ ⟨"/s/o"⟩ exampleWalked htree hroot
  obtain ⟨⟨found, hfound⟩, hsort⟩ := hwalks list fun _ => List.reverse_perm _
  have hsorted := hsort found hfound
  rw [hplace] at hfound
  exact ⟨htree, hroot, found, hfound, hsorted.trans hfiles⟩

end Sources
end Bindery
