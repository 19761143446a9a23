import Bindery.Proofs.Compilation.Inventory
import Bindery.Proofs.Compilation.Rescan

/-!
# Keys that stay the same

The key of a build covers what is staged and files outside of the output directory. It is the same
in two worlds that agree around the output directory, where the staged files have the same texts.
-/
namespace Bindery.Build
open Act
open Bindery.Path (IsName)

variable {cwd : Place} {out : Path} {w v : World} {auxiliary : List Path} {names : List String}
  {st : Staged}

/-! ### The same headers -/

/-- The search for headers does not come to the directory that it skips. -/
theorem not_isInside_of_finds {o d : Place} (ho : o.IsProper) (hd : d.IsProper)
    (hnames : Place.IsProper names) (hoff : ¬ o <+: d)
    (h : finds (World.pathOf o) (World.pathOf d) names = true) : ¬ o <+: d ++ names := by
  induction names generalizing d with
  | nil => rwa [List.append_nil]
  | cons name rest ih =>
    have hname := hnames name List.mem_cons_self
    have hd' := hd.append hname
    rw [finds, Path.pathOf_div hd hname, Path.same_pathOf hd' ho] at h
    simp only [Bool.and_eq_true, Bool.not_eq_true', decide_eq_false_iff_not] at h
    obtain ⟨⟨-, hne⟩, hrest⟩ := h
    have hoff' : ¬ o <+: d ++ [name] := by
      rw [List.prefix_concat_iff]
      exact not_or.2 ⟨fun heq => hne heq.symm, hoff⟩
    have hall := ih hd' (fun n hn => hnames n (List.mem_cons_of_mem _ hn)) hoff' hrest
    rwa [List.append_assoc, List.singleton_append] at hall

/-- The directory of a file outside is outside. -/
theorem exists_includeDir {o : Place} (haux : ∀ p ∈ auxiliary, Staging.IsOutside o p) {dir : String}
    (hdir : dir ∈ includeDirs auxiliary) :
    ∃ d : Place, d.IsProper ∧ (⟨dir⟩ : Path) = World.pathOf d ∧ ¬ o <+: d := by
  rw [includeDirs, List.mem_mergeSort, List.mem_eraseDups] at hdir
  obtain ⟨src, hsrc, rfl⟩ := List.mem_map.1 hdir
  obtain ⟨q, hq, rfl, hoff⟩ := haux src hsrc
  exact ⟨q.dropLast, hq.dropLast, Path.parent_pathOf hq,
    fun hfront => hoff (hfront.trans (List.dropLast_prefix q))⟩

theorem avoids_pathOf {q : Place} (hq : q.IsProper) (hoff : ¬ (out.place cwd).IsInside q) :
    (World.pathOf q).Avoids cwd out := fun _ hr hinside =>
  hoff (hinside.mono ((Path.mem_waypoints_pathOf hq).1 hr))

/-- The headers below a directory, as the search finds them. -/
def headersBelow (w : World) (skip dir : Path) : List Path :=
  (((w.filesBelow dir).filter (finds skip dir)).map dir.below).filter isHeader

theorem headers_eq_sort (w : World) (auxiliary : List Path) (out : Path) :
    headers w auxiliary out = Path.sort (Path.distinct
      ((includeDirs auxiliary).flatMap fun dir => headersBelow w (w.canonical out) ⟨dir⟩)) := rfl

section
variable (hproper : cwd.IsProper) (h : World.AgreeAround cwd out w v)
include hproper h

theorem perm_headersBelow {d : Place} (hd : d.IsProper) (hoff : ¬ out.place cwd <+: d) :
    (headersBelow w (w.canonical out) (World.pathOf d)).Perm
      (headersBelow v (v.canonical out) (World.pathOf d)) := by
  rw [headersBelow, headersBelow, h.left.canonical_eq, h.right.canonical_eq]
  refine ((h.perm_filesBelow (avoids_pathOf hd fun hinside => hoff hinside.1) (fun _ _ => rfl)
    fun names hnames hfinds hinside => ?_).map _).filter _
  rw [Path.place_pathOf hd] at hinside
  exact not_isInside_of_finds (isProper_place hproper out) hd hnames hoff hfinds hinside.1

/-- A header that the search finds goes by the path of its place, and lies outside. -/
theorem isOutside_of_mem_headersBelow {d : Place} (hd : d.IsProper) (hoff : ¬ out.place cwd <+: d)
    {p : Path} (hp : p ∈ headersBelow w (w.canonical out) (World.pathOf d)) :
    Staging.IsOutside (out.place cwd) p := by
  obtain ⟨names, hnames, rfl⟩ := List.mem_map.1 (List.mem_of_mem_filter hp)
  obtain ⟨hmem, hfinds⟩ := List.mem_filter.1 hnames
  obtain ⟨hnames, -⟩ := Sources.exists_of_mem_filesBelow h.left.wellFormed hmem
  rw [h.left.canonical_eq] at hfinds
  refine ⟨d ++ names, fun n hn => ?_, Path.below_pathOf hd hnames,
    not_isInside_of_finds (isProper_place hproper out) hd hnames hoff hfinds⟩
  rcases List.mem_append.1 hn with hn | hn
  · exact hd n hn
  · exact hnames n hn

variable (haux : ∀ p ∈ auxiliary, Staging.IsOutside (out.place cwd) p)
include haux

theorem isOutside_of_mem_headers {p : Path} (hp : p ∈ headers w auxiliary out) :
    Staging.IsOutside (out.place cwd) p := by
  rw [headers_eq_sort] at hp
  obtain ⟨dir, hdir, hp⟩ := List.mem_flatMap.1 (Path.mem_of_mem_eraseDupsBy (Path.mem_sort.1 hp))
  obtain ⟨d, hd, hdird, hoff⟩ := exists_includeDir haux hdir
  rw [hdird] at hp
  exact isOutside_of_mem_headersBelow hproper h hd hoff hp

theorem headers_congr : headers w auxiliary out = headers v auxiliary out := by
  rw [headers_eq_sort, headers_eq_sort]
  refine Path.sort_distinct_eq_of_perm (List.Perm.flatMap_left _ fun dir hdir => ?_) ?_
  · obtain ⟨d, hd, hdird, hoff⟩ := exists_includeDir haux hdir
    rw [hdird]
    exact perm_headersBelow hproper h hd hoff
  · intro p hp q hq heq
    have hplace : ∀ {p}, p ∈ (includeDirs auxiliary).flatMap (fun dir =>
        headersBelow w (w.canonical out) ⟨dir⟩) → ∃ r : Place, r.IsProper ∧ p = World.pathOf r := by
      intro p hp
      obtain ⟨dir, hdir, hp⟩ := List.mem_flatMap.1 hp
      obtain ⟨d, hd, hdird, hoff⟩ := exists_includeDir haux hdir
      rw [hdird] at hp
      obtain ⟨r, hr, hpr, -⟩ := isOutside_of_mem_headersBelow hproper h hd hoff hp
      exact ⟨r, hr, hpr⟩
    obtain ⟨r, hr, rfl⟩ := hplace hp
    obtain ⟨r', hr', rfl⟩ := hplace hq
    rw [Path.components_pathOf hr, Path.components_pathOf hr'] at heq
    rw [(List.cons.inj heq).2]

/-! ### The same key -/

omit hproper haux in
theorem hashed_congr {p : Path} (hp : Staging.IsOutside (out.place cwd) p) :
    w.hashed p = v.hashed p := by
  obtain ⟨q, hq, rfl, hoff⟩ := hp
  rw [World.hashed, World.hashed,
    h.get?_eq (avoids_pathOf hq fun hinside => hoff hinside.1)]

omit hproper h haux in
theorem mapM_congr {ε α β : Type} {l : List α} {f g : α → Except ε β}
    (hfg : ∀ a ∈ l, f a = g a) : l.mapM f = l.mapM g := by
  induction l with
  | nil => rfl
  | cons a l ih =>
    rw [List.mapM_cons, List.mapM_cons, hfg a List.mem_cons_self,
      ih fun b hb => hfg b (List.mem_cons_of_mem _ hb)]

/-- A key depends on what is staged, and on files outside of the output directory. -/
theorem keyText_congr (hst : st.auxiliary = auxiliary)
    (hfiles : ∀ p ∈ st.files, w.hashed p = v.hashed p) (target optimization : String) :
    keyText w st target optimization out = keyText v st target optimization out := by
  have hheaders : headers w st.auxiliary out = headers v st.auxiliary out := by
    rw [hst]
    exact headers_congr hproper h haux
  have hkeys : keyFiles w st out = keyFiles v st out := by rw [keyFiles, keyFiles, hheaders]
  have hhashed : ∀ x ∈ keyFiles v st out, w.hashed x.2 = v.hashed x.2 := by
    intro x hx
    rcases List.mem_append.1 hx with hx | hx
    · obtain ⟨p, hp, rfl⟩ := List.mem_map.1 hx
      exact hfiles p hp
    · obtain ⟨p, hp, rfl⟩ := List.mem_map.1 hx
      refine hashed_congr h ?_
      rcases List.mem_append.1 hp with hp | hp
      · exact haux p (hst ▸ hp)
      · rw [← hheaders, hst] at hp
        exact isOutside_of_mem_headers hproper h haux hp
  rw [keyText, keyText, hkeys]
  refine congrArg (· >>= _) (mapM_congr fun x hx => ?_)
  obtain ⟨name, p⟩ := x
  dsimp only
  rw [hhashed _ hx]

end

end Bindery.Build
