import Bindery.Proofs.Annotation.Includes
import Bindery.Proofs.Compilation.Scan
import Bindery.Proofs.Path.Stem
import Bindery.Proofs.Staging.Alike
import Bindery.Proofs.World.Around

/-!
# Scanning again

A scan passes its output directory by. So it finds the same sources in worlds that agree around this
directory, as long as no include of a host leads into it.
-/
namespace Bindery
open Act
open Bindery.Path (IsName)

namespace Sources
variable {cwd : Place} {root out dir host : Path} {w v : World} {s : Sources}
  {names : List String}

/-- The hosts that a scan reads. -/
def hostFiles (w : World) (root out : Path) : List Path := (files w root out).filter Host.isSource

/-- All that the includes of the scanned hosts may stand for is looked for around the output
directory. -/
def IncludesAvoid (w : World) (root out : Path) : Prop :=
  ∀ host ∈ hostFiles w root out, ∀ text, w.read? host = some text →
    ∀ path ∈ Annotation.includes host text.toList, ∀ dir ∈ [host.parent, root],
      (dir / path).Avoids w.cwd out

/-! ### The files below a root -/

theorem canonical_div (habs : dir.isAbsolute = true) (hdir : dir.IsWhole) {name : String}
    (hname : IsName name) : w.canonical (dir / name) = World.pathOf (dir.place w.cwd ++ [name]) := by
  have hnames := Path.names_div_name dir hname.isPiece hname.1
  rw [World.canonical_eq (Path.isAbsolute_div_of_isAbsolute name habs) (hdir.div hname)
    (Path.hasSlashAtEnd_div dir hname) (by rw [hnames, List.getLast?_concat]) hname,
    Path.place_div hdir hname]

/-- What else there is makes no difference to a walk. -/
theorem reaches_eq (hcwd : w.cwd = v.cwd) (habs : dir.isAbsolute = true) (hdir : dir.IsWhole)
    (hnames : Place.IsProper names) (o : Path) :
    reaches w o dir names = reaches v o dir names := by
  induction names generalizing dir with
  | nil => rfl
  | cons name rest ih =>
    have hname := hnames name List.mem_cons_self
    cases rest with
    | nil => rfl
    | cons next rest =>
      rw [reaches, reaches, canonical_div habs hdir hname, canonical_div habs hdir hname, hcwd,
        ih (Path.isAbsolute_div_of_isAbsolute name habs) (hdir.div hname)
          fun n hn => hnames n (List.mem_cons_of_mem _ hn)]

/-- A walk from elsewhere does not come into the directory that it passes by. -/
theorem not_isInside_of_reaches {o : Place} (ho : o.IsProper) (hcwd : w.cwd.IsProper)
    (habs : dir.isAbsolute = true) (hdir : dir.IsWhole) (hnames : Place.IsProper names)
    (h : reaches w (World.pathOf o) dir names = true) (hoff : ¬ o <+: dir.place w.cwd) :
    ¬ o.IsInside (dir.place w.cwd ++ names) := by
  induction names generalizing dir with
  | nil =>
    rw [List.append_nil]
    exact fun hinside => hoff hinside.1
  | cons name rest ih =>
    have hname := hnames name List.mem_cons_self
    cases rest with
    | nil => exact fun hinside => hoff hinside.of_concat
    | cons next rest =>
      have hplace : (dir / name).place w.cwd = dir.place w.cwd ++ [name] :=
        Path.place_div hdir hname
      rw [reaches, canonical_div habs hdir hname, Path.same_pathOf
        ((isProper_place hcwd dir).append hname) ho] at h
      simp only [Bool.and_eq_true, Bool.not_eq_true', decide_eq_false_iff_not] at h
      obtain ⟨⟨-, hne⟩, hrest⟩ := h
      have hoff' : ¬ o <+: (dir / name).place w.cwd := by
        rw [hplace, List.prefix_concat_iff]
        exact not_or.2 ⟨fun heq => hne heq.symm, hoff⟩
      have hinside := ih (Path.isAbsolute_div_of_isAbsolute name habs) (hdir.div hname)
        (fun n hn => hnames n (List.mem_cons_of_mem _ hn)) hrest hoff'
      rwa [hplace, List.append_assoc, List.singleton_append] at hinside

/-- The paths below a directory are told apart by the names that lead there. -/
theorem areDistinct_below {l : List (List String)} (hl : ∀ names ∈ l, Place.IsProper names) :
    Path.AreDistinct (l.map dir.below) := by
  intro p hp q hq heq
  obtain ⟨ns, hns, rfl⟩ := List.mem_map.1 hp
  obtain ⟨ms, hms, rfl⟩ := List.mem_map.1 hq
  have hsteps : ∀ {ns}, ns ∈ l → FileTree.AreSteps ns := fun h => Path.areSteps_of_isProper (hl _ h)
  have hnames := Path.names_eq_of_components_eq heq
  rw [Path.names_below (hsteps hns), Path.names_below (hsteps hms)] at hnames
  rw [List.append_cancel_left hnames]

/-- A root to scan beside an output directory: its path does not lead into the directory, which
neither is the root nor contains it. -/
structure IsBeside (cwd : Place) (out root : Path) : Prop where
  isAbsolute : root.isAbsolute = true
  isWhole : root.IsWhole
  avoids : root.Avoids cwd out
  not_prefix : ¬ out.place cwd <+: root.place cwd

section
variable (hproper : cwd.IsProper) (hroot : IsBeside cwd out root)
include hproper hroot

theorem IsBeside.not_isInside (hw : w.IsReady cwd out) (hnames : Place.IsProper names)
    (h : reaches w (w.canonical out) root names = true) :
    ¬ (out.place cwd).IsInside (root.place cwd ++ names) := by
  obtain rfl := hw.cwd_eq
  rw [hw.canonical_eq] at h
  exact not_isInside_of_reaches (isProper_place hproper out) hproper hroot.isAbsolute
    hroot.isWhole hnames h hroot.not_prefix

theorem IsBeside.perm_files (h : World.AgreeAround cwd out w v) :
    ((w.filesBelow root).filter (reaches w (w.canonical out) root)).Perm
      ((v.filesBelow root).filter (reaches v (v.canonical out) root)) := by
  refine h.perm_filesBelow hroot.avoids (fun names hnames => ?_) fun names hnames hkeep =>
    hroot.not_isInside hproper h.left hnames hkeep
  rw [h.left.canonical_eq, h.right.canonical_eq]
  exact reaches_eq h.cwd_eq hroot.isAbsolute hroot.isWhole hnames _

omit hproper hroot in
theorem exists_of_mem_filesBelow (hw : w.tree.WellFormed) (h : names ∈ w.filesBelow dir) :
    Place.IsProper names ∧
      ∃ content, w.tree.get? (dir.place w.cwd ++ names) = some (.file content) := by
  rw [World.filesBelow] at h
  cases hloc : w.locate dir with
  | none =>
    rw [hloc] at h
    exact absurd h List.not_mem_nil
  | some place =>
    rw [hloc] at h
    obtain rfl := (World.locate_eq_some hloc).symm
    dsimp only at h
    split_ifs at h with hplace
    · obtain ⟨content, hget⟩ := (FileTree.mem_filesBelow hw.isIndexed).1 h
      exact ⟨fun n hn => hw.isNamed.isProper hget n (List.mem_append_right _ hn), content, hget⟩
    · exact absurd h List.not_mem_nil

theorem IsBeside.files_eq (h : World.AgreeAround cwd out w v) :
    files w root out = files v root out := by
  refine Path.sort_eq_of_perm ((hroot.perm_files hproper h).map root.below) ?_
  exact areDistinct_below fun names hnames =>
    (exists_of_mem_filesBelow h.left.wellFormed (List.mem_of_mem_filter hnames)).1

/-- A scanned file is below the root, and not in the output directory. -/
theorem IsBeside.of_mem_files (hw : w.IsReady cwd out) {file : Path}
    (h : file ∈ files w root out) : ∃ names, Place.IsProper names ∧ file = root.below names ∧
      (∃ content, w.tree.get? (root.place cwd ++ names) = some (.file content)) ∧
      ¬ out.place cwd <+: root.place cwd ++ names := by
  obtain ⟨names, hnames, rfl⟩ := List.mem_map.1 (Path.mem_sort.1 h)
  obtain ⟨hmem, hreaches⟩ := List.mem_filter.1 hnames
  obtain ⟨hnames, content, hget⟩ := exists_of_mem_filesBelow hw.wellFormed hmem
  rw [hw.cwd_eq] at hget
  refine ⟨names, hnames, rfl, ⟨content, hget⟩, fun hfront => ?_⟩
  refine hroot.not_isInside hproper hw hnames hreaches ⟨hfront, fun heq => ?_⟩
  rw [heq] at hget
  cases hget.symm.trans (FileTree.isDirectory_iff.1 hw.isDirectory_place)

theorem IsBeside.avoids_of_mem_files (hw : w.IsReady cwd out) {file : Path}
    (h : file ∈ files w root out) : file.Avoids cwd out := by
  obtain ⟨names, hnames, rfl, -, hplace⟩ := hroot.of_mem_files hproper hw h
  exact Path.avoids_below hroot.isWhole hroot.avoids hnames fun hinside => hplace hinside.1

/-- The canonical path of a scanned file is that of its place. -/
theorem IsBeside.canonical_of_mem_files (hw : w.IsReady cwd out)
    (hdir : w.isDirectory root = true) {file : Path} (h : file ∈ files w root out) :
    w.canonical file = World.pathOf (file.place cwd) ∧
      Staging.IsOutside (out.place cwd) (World.pathOf (file.place cwd)) := by
  obtain ⟨names, hnames, rfl, ⟨content, hget⟩, hplace⟩ := hroot.of_mem_files hproper hw h
  have hne : names ≠ [] := by
    rintro rfl
    have hplace := (World.get?_eq_some (decide_eq_true_iff.1 hdir)).2
    rw [hw.cwd_eq] at hplace
    rw [List.append_nil] at hget
    cases hget.symm.trans hplace
  have hbelow : (root.below names).place cwd = root.place cwd ++ names :=
    (Path.place_below hroot.isWhole hnames).2
  refine ⟨?_, _, isProper_place hproper _, rfl, by rwa [hbelow]⟩
  obtain ⟨front, name, rfl⟩ : ∃ front name, names = front ++ [name] :=
    ⟨_, _, (List.dropLast_concat_getLast hne).symm⟩
  have hfront : Place.IsProper front := fun n hn => hnames n (List.mem_append_left _ hn)
  have hname := hnames name (List.mem_append_right _ List.mem_cons_self)
  have hwhole : (root.below front).IsWhole := (@Path.place_below root cwd hroot.isWhole _ hfront).1
  rw [Path.below_concat, canonical_div (Path.isAbsolute_below hroot.isAbsolute _) hwhole hname,
    Path.place_div hwhole hname, hw.cwd_eq]

/-! ### Scanning -/

omit hproper hroot in
theorem included?_eq (h : World.AgreeAround cwd out w v) {path : String}
    (hpath : ∀ dir ∈ [host.parent, root], (dir / path).Avoids cwd out) :
    w.included? root host path = v.included? root host path := by
  refine World.map_find?_congr h.cwd_eq fun p hp => ?_
  obtain ⟨dir, hdir, hdirp⟩ := List.mem_map.1 hp
  rw [← hdirp]
  exact h.get?_eq (hpath dir hdir)

theorem IsBeside.isScanned (h : World.AgreeAround cwd out w v) (hincludes : IncludesAvoid v root out)
    (hhost : host ∈ hostFiles v root out) {as : List Annotation}
    (hscanned : IsScanned w root host as) : IsScanned v root host as := by
  obtain ⟨text, hread, hresult⟩ := hscanned
  have hmem := List.mem_of_mem_filter hhost
  have hread' : v.read? host = some text := by
    rw [← h.read?_eq (hroot.avoids_of_mem_files hproper h.right hmem), hread]
  refine ⟨text, hread', Annotation.result_congr hresult fun path hpath => ?_⟩
  refine (included?_eq h fun dir hdir => ?_).symm
  rw [← h.right.cwd_eq]
  exact hincludes host hhost text hread' path hpath dir hdir

end

/-- Includes that avoid a directory do so whatever lies in it. -/
theorem IncludesAvoid.of_agree (hproper : cwd.IsProper) (hroot : IsBeside cwd out root)
    (h : World.AgreeAround cwd out w v) (hincludes : IncludesAvoid w root out) :
    IncludesAvoid v root out := by
  intro host hhost text hread path hpath dir hdir
  have hmem : host ∈ hostFiles w root out := by
    rw [hostFiles, hroot.files_eq hproper h]
    exact hhost
  have hread' : w.read? host = some text := by
    rw [h.read?_eq (hroot.avoids_of_mem_files hproper h.left (List.mem_of_mem_filter hmem)), hread]
  rw [← h.cwd_eq]
  exact hincludes host hmem text hread' path hpath dir hdir

/-! ### What is found lies outside -/

/-- The file of an annotation is found by a path that an include names. -/
theorem exists_include {f : String → Option Path} {text : List Char} {as : List Annotation}
    {a : Annotation} {file : Path} (h : Annotation.result ⟨host, f⟩ text = .ok as) (ha : a ∈ as)
    (hfile : a.file = some file) : ∃ path ∈ Annotation.includes host text, f path = some file := by
  classical
  -- A scan that finds nothing else has the same result.
  have hsame := Annotation.result_congr
    (g := fun path => if path ∈ Annotation.includes host text then f path else none) h
    fun path hpath => if_pos hpath
  have hin := Annotation.areIn_of_result hsame
  obtain ⟨front, written, rest, -, hwritten⟩ := hin.exists_written ha
  obtain ⟨-, path, hinclude⟩ := include?_of_isWritten hwritten hfile
  dsimp only at hinclude
  split_ifs at hinclude with hpath
  exact ⟨path, hpath, hinclude⟩

/-- All that scanned sources name lies outside of the output directory. -/
structure AreOutside (s : Sources) (o : Place) : Prop where
  files : ∀ a ∈ s.annotations, ∀ file, a.file = some file → Staging.IsOutside o file
  auxiliary : ∀ file ∈ s.auxiliary, Staging.IsOutside o file

theorem isOutside_of_included? (hproper : cwd.IsProper) (hw : w.IsReady cwd out) {path : String}
    {file : Path} (hpath : ∀ dir ∈ [host.parent, root], (dir / path).Avoids cwd out)
    (h : w.included? root host path = some file) : Staging.IsOutside (out.place cwd) file := by
  obtain ⟨candidate, hfind, rfl⟩ := Option.map_eq_some_iff.1 h
  obtain ⟨dir, hdir, hcandidate⟩ := List.mem_map.1 (List.mem_of_find?_eq_some hfind)
  have hfile := List.find?_some hfind
  rw [World.isFile] at hfile
  cases hget : w.get? candidate with
  | none =>
    rw [hget] at hfile
    cases hfile
  | some e =>
    rw [hget] at hfile
    have hplace := (World.get?_eq_some hget).2
    rw [World.canonical_of_exists (World.exists?_iff.2 ⟨_, hget⟩)]
    rw [hw.cwd_eq] at hplace ⊢
    have havoids : candidate.Avoids cwd out := by
      rw [← hcandidate]
      exact hpath dir hdir
    refine ⟨_, isProper_place hproper candidate, rfl, fun hfront => ?_⟩
    refine havoids _ candidate.place_mem_waypoints ⟨hfront, fun heq => ?_⟩
    rw [heq, FileTree.isDirectory_iff.1 hw.isDirectory_place] at hplace
    cases hplace
    cases hfile

/-- A scan that succeeds starts from a directory. -/
theorem isDirectory_of_scan {w' : World} (h : (scan root out).runOn w = (.ok s, w')) :
    w.isTooLong root = false ∧ w.isDirectory root = true := by
  unfold scan at h
  rw [runOn_get_bind] at h
  dsimp only at h
  cases hlong : w.isTooLong root with
  | true =>
    rw [hlong, if_pos rfl] at h
    obtain ⟨_, _, hthrow, -⟩ := bind_ok.1 h
    cases hthrow
  | false =>
    rw [hlong, if_neg Bool.false_ne_true] at h
    cases hdir : w.isDirectory root with
    | true => exact ⟨rfl, rfl⟩
    | false =>
      rw [hdir, Bool.not_false, if_pos rfl] at h
      obtain ⟨_, _, hthrow, -⟩ := bind_ok.1 h
      cases hthrow

/-- A scan finds what lies outside of the output directory. -/
theorem areOutside_of_scan (hproper : cwd.IsProper) (hroot : IsBeside cwd out root)
    (hw : w.IsReady cwd out) (hincludes : IncludesAvoid w root out) {w' : World}
    (h : (scan root out).runOn w = (.ok s, w')) : s.AreOutside (out.place cwd) := by
  obtain ⟨⟨⟨ass, hass, hall⟩, hauxiliary⟩, -⟩ := scan_ok h
  refine ⟨fun a ha file hfile => ?_, fun file hfile => ?_⟩
  · rw [hass, List.mem_flatten] at ha
    obtain ⟨as, has, ha⟩ := ha
    obtain ⟨n, hn, rfl⟩ := List.mem_iff_getElem.1 has
    have hn' : n < (hostFiles w root out).length := by rw [hostFiles, hall.length_eq]; exact hn
    obtain ⟨text, hread, hresult⟩ := hall.get hn' hn
    obtain ⟨path, hpath, hinclude⟩ := exists_include hresult ha hfile
    refine isOutside_of_included? hproper hw (fun dir hdir => ?_) hinclude
    rw [← hw.cwd_eq]
    exact hincludes _ (List.get_mem _ ⟨n, hn'⟩) text hread path hpath dir hdir
  · rw [hauxiliary] at hfile
    obtain ⟨source, hsource, rfl⟩ := List.mem_map.1 hfile
    obtain ⟨hcanonical, houtside⟩ := hroot.canonical_of_mem_files hproper hw
      (isDirectory_of_scan h).2 (List.mem_of_mem_filter hsource)
    rw [hcanonical]
    exact houtside

/-! ### Scanning once more -/

theorem ofHost_of_isScanned {as : List Annotation} (h : IsScanned w root host as) :
    ∃ v, (ofHost root host).runOn w = (.ok as, v) := by
  obtain ⟨text, hread, hresult⟩ := h
  have hrun : (Act.read host (.cannotOpen host)).runOn w = (.ok text, w) := by
    rw [runOn_read, hread]
    rfl
  refine ⟨((ofText root host text).runOn w).2, ?_⟩
  rw [ofHost, runOn_bind_of_ok hrun]
  exact Prod.ext (result_ofText.trans hresult) rfl

theorem mapM_ofHost_of_isScanned {hosts : List Path} {ass : List (List Annotation)}
    (h : List.Forall₂ (IsScanned w root) hosts ass) :
    ∃ v, (hosts.mapM (ofHost root)).runOn w = (.ok ass, v) := by
  induction hosts generalizing w ass with
  | nil =>
    cases h
    exact ⟨w, rfl⟩
  | cons host hosts ih =>
    cases h with
    | cons hfirst hrest =>
      obtain ⟨u, hrun⟩ := ofHost_of_isScanned hfirst
      obtain ⟨log, rfl⟩ := (World.OnlyLogs.ofHost root _).of_ok hrun
      obtain ⟨v, hv⟩ := ih (hrest.imp fun _ _ => isScanned_log.2)
      exact ⟨v, mapM_cons_ok.2 ⟨_, _, _, rfl, hrun, hv⟩⟩

/-- A scan that succeeds does so again, with the same sources, where all around the output directory
is the same. -/
theorem scan_again (hproper : cwd.IsProper) (hroot : IsBeside cwd out root)
    (h : World.AgreeAround cwd out w v) (hincludes : IncludesAvoid v root out) {w' : World}
    (hscan : (scan root out).runOn w = (.ok s, w')) :
    ∃ v', (scan root out).runOn v = (.ok s, v') := by
  have hlookup := h.lookup_eq hroot.avoids
  have hget := h.get?_eq hroot.avoids
  have hlong : v.isTooLong root = w.isTooLong root := by
    rw [World.isTooLong, World.isTooLong, hlookup]
  have hdir : v.isDirectory root = w.isDirectory root := by
    rw [World.isDirectory, World.isDirectory, hget]
  have hfiles := hroot.files_eq hproper h
  obtain ⟨hlong', hdir'⟩ := isDirectory_of_scan hscan
  unfold scan at hscan ⊢
  rw [runOn_get_bind] at hscan ⊢
  dsimp only at hscan ⊢
  rw [hlong, hdir, ← hfiles]
  rw [hlong', hdir', if_neg Bool.false_ne_true, Bool.not_true, if_neg Bool.false_ne_true]
    at hscan ⊢
  obtain ⟨ass, u, hmap, hrest⟩ := bind_ok.1 hscan
  obtain ⟨_, u', hinfo, hdone⟩ := bind_ok.1 hrest
  cases hinfo
  cases hdone
  have hscanned := (List.forall₂_and_left (hostFiles w root out) ass).2
    ⟨fun _ hhost => hhost, (mapM_ofHost_ok hmap).1⟩
  obtain ⟨v', hv'⟩ := mapM_ofHost_of_isScanned (hscanned.imp fun host as hhost =>
    hroot.isScanned hproper h hincludes (by rw [hostFiles, ← hfiles]; exact hhost.1) hhost.2)
  have hauxiliary : ((files w root out).filter isAuxiliary).map v.canonical =
      ((files w root out).filter isAuxiliary).map w.canonical := by
    refine List.map_congr_left fun file hfile => ?_
    have hmem := List.mem_of_mem_filter hfile
    rw [(hroot.canonical_of_mem_files hproper h.left hdir' hmem).1,
      (hroot.canonical_of_mem_files hproper h.right (hdir.trans hdir') (hfiles ▸ hmem)).1]
  rw [hauxiliary]
  exact ⟨_, bind_ok.2 ⟨ass, v', hv', rfl⟩⟩

end Sources
end Bindery
