import Bindery.Proofs.World.Tree

/-!
# Canonical paths

The canonical path of a place spells its names from the root. A path from the root that ends in a
name has the canonical path of the place that it leads to, however much of it exists.
-/
namespace Bindery
open Text

namespace Path
variable {place other : Place} {name : String} {cwd : Place} {p : Path}

theorem arePieces_of_isProper (h : place.IsProper) : ArePieces place :=
  fun n hn => ⟨(h n hn).1, (h n hn).isPiece⟩

theorem isAbsolute_pathOf (h : place.IsProper) : (World.pathOf place).isAbsolute = true :=
  isAbsolute_ofParts (arePieces_of_isProper h) _ _

theorem generic_pathOf (h : place.IsProper) :
    (World.pathOf place).generic = (World.pathOf place).text :=
  generic_ofParts (arePieces_of_isProper h) _ _

theorem names_pathOf (h : place.IsProper) : (World.pathOf place).names = place :=
  names_ofParts (arePieces_of_isProper h) _ _

theorem hasSlashAtEnd_pathOf (h : place.IsProper) :
    (World.pathOf place).hasSlashAtEnd = false := by
  rw [World.pathOf, hasSlashAtEnd_ofParts (arePieces_of_isProper h), Bool.false_and]

theorem text_pathOf (place : Place) : (World.pathOf place).text = "/" ++ join "/" place := by
  simp [World.pathOf, ofParts]

theorem components_pathOf (h : place.IsProper) :
    (World.pathOf place).components = "/" :: place := by
  rw [components, isAbsolute_pathOf h, hasSlashAtEnd_pathOf h, names_pathOf h]
  simp

theorem same_pathOf (h : place.IsProper) (h' : other.IsProper) :
    (World.pathOf place).same (World.pathOf other) = decide (place = other) := by
  rw [same, components_pathOf h, components_pathOf h']
  simp

theorem mem_join {names : List String} {c : Char} (h : c ∈ (join "/" names).toList) :
    c = '/' ∨ ∃ n ∈ names, c ∈ n.toList := by
  induction names with
  | nil => exact absurd h (by simp)
  | cons n ns ih =>
    cases ns with
    | nil => exact .inr ⟨n, List.mem_cons_self, h⟩
    | cons m ms =>
      rw [join_cons_cons, String.toList_append, String.toList_append] at h
      rcases List.mem_append.1 h with h | h
      · rcases List.mem_append.1 h with h | h
        · exact .inr ⟨n, List.mem_cons_self, h⟩
        · exact .inl (by simpa using h)
      · rcases ih h with h | ⟨k, hk, hc⟩
        · exact .inl h
        · exact .inr ⟨k, List.mem_cons_of_mem _ hk, hc⟩

theorem isWhole_pathOf (h : place.IsProper) : (World.pathOf place).IsWhole := by
  intro hnull
  rw [text_pathOf, String.toList_append] at hnull
  rcases List.mem_append.1 hnull with hnull | hnull
  · exact absurd hnull (by decide)
  · rcases mem_join hnull with hslash | ⟨n, hn, hc⟩
    · exact absurd hslash (by decide)
    · exact (h n hn).2.2.2.2 hc

theorem start_of_isAbsolute (h : p.isAbsolute = true) : p.start cwd = [] := if_pos h

theorem place_pathOf (h : place.IsProper) : (World.pathOf place).place cwd = place := by
  rw [place_of_isWhole (isWhole_pathOf h), start_of_isAbsolute (isAbsolute_pathOf h),
    names_pathOf h, Place.walk_names h, List.nil_append]

/-- The way of a canonical path leads through the directories above its place only. -/
theorem mem_waypoints_pathOf (h : place.IsProper) {q : Place} :
    q ∈ (World.pathOf place).waypoints cwd ↔ q <+: place := by
  rw [waypoints_of_isWhole (isWhole_pathOf h), start_of_isAbsolute (isAbsolute_pathOf h),
    names_pathOf h, Place.mem_waypoints_names h, List.nil_append]
  exact and_iff_right List.nil_prefix

theorem join_concat (hne : place ≠ []) (name : String) :
    join "/" (place ++ [name]) = join "/" place ++ "/" ++ name := by
  induction place with
  | nil => exact absurd rfl hne
  | cons n ns ih =>
    cases ns with
    | nil => rfl
    | cons m ms =>
      have ih := ih (List.cons_ne_nil m ms)
      rw [List.cons_append] at ih
      rw [List.cons_append, List.cons_append, join_cons_cons, ih, join_cons_cons]
      simp only [String.append_assoc]

theorem filename_pathOf (h : place.IsProper) :
    (World.pathOf place).filename = place.getLast?.getD "" := by
  rw [filename, hasSlashAtEnd_pathOf h, names_pathOf h]
  rfl

theorem pathOf_div (h : place.IsProper) (hname : IsName name) :
    World.pathOf place / name = World.pathOf (place ++ [name]) := by
  have hne : (World.pathOf place).text ≠ "" := by
    rw [text_pathOf]
    simp
  rw [div_eq _ hname.isPiece, if_neg hne, filename_pathOf h]
  cases hlast : place.getLast? with
  | none =>
    rw [List.getLast?_eq_none_iff.1 hlast]
    simp [World.pathOf, ofParts]
  | some last =>
    have hmem := List.mem_of_getLast? hlast
    have hplace : place ≠ [] := List.ne_nil_of_mem hmem
    rw [Option.getD_some, if_neg (h last hmem).1]
    simp [World.pathOf, ofParts, join_concat hplace, String.append_assoc]

theorem below_pathOf (h : place.IsProper) {names : List String} (hnames : Place.IsProper names) :
    (World.pathOf place).below names = World.pathOf (place ++ names) := by
  induction names generalizing place with
  | nil => rw [List.append_nil, below, List.foldl_nil]
  | cons n ns ih =>
    have hn := hnames n List.mem_cons_self
    change (World.pathOf place / n).below ns = _
    rw [pathOf_div h hn, ih (h.append hn) fun m hm => hnames m (List.mem_cons_of_mem _ hm),
      List.append_assoc, List.singleton_append]

/-- The path of a place other than the root has no slash at its end. -/
theorem dropWhile_slash_pathOf (h : place.IsProper) (hne : place ≠ []) :
    (World.pathOf place).text.toList.reverse.dropWhile (· = '/') =
      (World.pathOf place).text.toList.reverse := by
  have hlast : (join "/" place).toList.reverse.head? ≠ some '/' := by
    rw [List.head?_reverse]
    exact getLast?_join_ne_slash (arePieces_of_isProper h)
  have hjoin : (join "/" place).toList.reverse ≠ [] := by
    simpa using join_ne_empty (arePieces_of_isProper h) hne
  obtain ⟨c, cs, hcs⟩ := List.exists_cons_of_ne_nil hjoin
  rw [hcs, List.head?_cons, ne_eq, Option.some.injEq] at hlast
  rw [text_pathOf, String.toList_append, List.reverse_append, hcs, List.cons_append,
    List.dropWhile_cons_of_neg (by simpa using hlast)]

theorem parent_pathOf (h : place.IsProper) :
    (World.pathOf place).parent = World.pathOf place.dropLast := by
  rw [parent, names_pathOf h, isAbsolute_pathOf h]
  by_cases hplace : place = []
  · rw [if_pos hplace, hplace]
    rfl
  · rw [if_neg hplace]
    obtain ⟨front, name, rfl⟩ : ∃ front name, place = front ++ [name] :=
      ⟨_, _, (List.dropLast_concat_getLast hplace).symm⟩
    have hname : IsName name := h name (by simp)
    have hfront : Place.IsProper front := fun n hn => h n (List.mem_append_left _ hn)
    have hchars : ∀ c ∈ name.toList.reverse, decide (c ≠ '/') = true := by
      intro c hc
      rw [decide_eq_true_eq]
      rintro rfl
      exact hname.isPiece (List.mem_reverse.1 hc)
    rw [List.dropLast_concat]
    by_cases hnil : front = []
    · have htext : (World.pathOf (front ++ [name])).text.toList.reverse =
          name.toList.reverse ++ ['/'] := by
        rw [hnil, text_pathOf]
        simp
      rw [htext, List.dropWhile_append_of_pos hchars, hnil]
      rfl
    · have htext : (World.pathOf (front ++ [name])).text.toList.reverse =
          name.toList.reverse ++ '/' :: (World.pathOf front).text.toList.reverse := by
        rw [text_pathOf, text_pathOf, join_concat hnil]
        simp
      have hnonempty : ¬ ((World.pathOf front).text.toList.reverse = [] ∧ true = true) := by
        rw [text_pathOf]
        simp
      rw [htext, List.dropWhile_append_of_pos hchars, List.dropWhile_cons_of_neg (by simp),
        List.dropWhile_cons_of_pos (by simp), dropWhile_slash_pathOf hfront hnil]
      dsimp only
      rw [if_neg hnonempty, List.reverse_reverse, String.ofList_toList]

/-! ### Paths with dots -/

theorem isWhole_div {s : String} (hp : p.IsWhole) (hs : IsPiece s) (hnull : '\x00' ∉ s.toList) :
    (p / s).IsWhole := by
  intro h
  rcases mem_text_div hs h with h | h | h
  · exact hp h
  · exact absurd h (by decide)
  · exact hnull h

theorem isAbsolute_below (hp : p.isAbsolute = true) (names : List String) :
    (p.below names).isAbsolute = true := by
  induction names generalizing p with
  | nil => exact hp
  | cons n ns ih => exact ih (isAbsolute_div_of_isAbsolute n hp)

theorem below_append (p : Path) (ms ns : List String) :
    p.below (ms ++ ns) = (p.below ms).below ns := List.foldl_append

theorem below_concat (p : Path) (ns : List String) (name : String) :
    p.below (ns ++ [name]) = p.below ns / name := below_append p ns [name]

theorem names_below {names : List String} (hnames : FileTree.AreSteps names) :
    (p.below names).names = p.names ++ names := by
  induction names generalizing p with
  | nil => exact (List.append_nil _).symm
  | cons n ns ih =>
    have hn := hnames n List.mem_cons_self
    change ((p / n).below ns).names = _
    rw [ih fun m hm => hnames m (List.mem_cons_of_mem _ hm), names_div_name p hn.2.1 hn.1,
      List.append_assoc, List.singleton_append]

theorem isWhole_below (hp : p.IsWhole) {names : List String} (hnames : FileTree.AreSteps names) :
    (p.below names).IsWhole := by
  induction names generalizing p with
  | nil => exact hp
  | cons n ns ih =>
    have hn := hnames n List.mem_cons_self
    exact ih (isWhole_div hp hn.2.1 hn.2.2) fun m hm => hnames m (List.mem_cons_of_mem _ hm)

theorem place_of_isAbsolute (hp : p.IsWhole) (habs : p.isAbsolute = true) :
    p.place cwd = Place.walk [] p.names := by
  rw [place_of_isWhole hp, start_of_isAbsolute habs]

theorem areSteps_names (hp : p.IsWhole) : FileTree.AreSteps p.names := fun _ hn =>
  ⟨ne_empty_of_mem_names hn, isPiece_of_mem_names hn, fun h => hp (mem_text_of_mem_names hn h)⟩

theorem areSteps_of_isProper (h : place.IsProper) : FileTree.AreSteps place :=
  fun n hn => ⟨(h n hn).1, (h n hn).isPiece, (h n hn).2.2.2.2⟩

theorem names_push {n : Normal} (hn : Place.IsProper n.names) (c : String) :
    (Normal.push true n c).names = Place.step n.names c := by
  rw [Normal.push, Place.step]
  by_cases hdot : c = "." ∨ c = ""
  · rw [if_pos hdot, if_pos hdot]
  · rw [if_neg hdot, if_neg hdot]
    by_cases hup : c = ".."
    · rw [if_pos hup, if_pos hup]
      cases hlast : n.names.getLast? with
      | none =>
        dsimp only
        rw [if_pos rfl, List.getLast?_eq_none_iff.1 hlast]
        rfl
      | some last =>
        have hname := hn last (List.mem_of_getLast? hlast)
        dsimp only
        rw [if_neg hname.2.2.1]
    · rw [if_neg hup, if_neg hup]

theorem names_foldl_push {n : Normal} (hn : Place.IsProper n.names) {cs : List String}
    (hcs : FileTree.AreSteps cs) :
    (cs.foldl (Normal.push true) n).names = Place.walk n.names cs := by
  induction cs generalizing n with
  | nil => rfl
  | cons c cs ih =>
    have hpush := names_push hn c
    rw [List.foldl_cons, Place.walk_cons, ← hpush]
    refine ih ?_ fun d hd => hcs d (List.mem_cons_of_mem _ hd)
    rw [hpush]
    exact FileTree.isProper_step hn (hcs c List.mem_cons_self)

/-- Taking the dots out of a path from the root gives the canonical path of its place. -/
theorem normal_eq (habs : p.isAbsolute = true) (hwhole : p.IsWhole)
    (hslash : p.hasSlashAtEnd = false) (hlast : p.names.getLast? = some name)
    (hname : IsName name) : p.normal = World.pathOf (Place.walk [] p.names) := by
  have hproper : Place.IsProper [] := fun _ h => absurd h List.not_mem_nil
  have hsteps := areSteps_names hwhole
  have hnames := names_foldl_push (n := {}) hproper hsteps
  have hend : (p.names.foldl (Normal.push true) {}).slashAtEnd = false := by
    obtain ⟨front, hfront⟩ := List.getLast?_eq_some_iff.1 hlast
    rw [hfront, List.foldl_append, List.foldl_cons, List.foldl_nil, Normal.push,
      if_neg (not_or.2 ⟨hname.2.1, hname.1⟩), if_neg hname.2.2.1]
  have hne : p.isEmpty = false := by
    rw [isEmpty, String.isEmpty_eq_false_iff]
    intro hempty
    rw [isAbsolute, hempty] at habs
    cases habs
  have hfull : (World.pathOf (Place.walk [] p.names)).isEmpty = false := by
    rw [isEmpty, String.isEmpty_eq_false_iff, text_pathOf]
    simp
  rw [normal, if_neg (by rw [hne]; exact Bool.false_ne_true), habs, hslash]
  simp only [Bool.false_eq_true, if_false, List.append_nil, hend, hnames, Bool.false_and]
  change (if (World.pathOf (Place.walk [] p.names)).isEmpty = true then _ else _) = _
  rw [hfull, if_neg Bool.false_ne_true]
  rfl

/-- The same below the canonical path of a place. -/
theorem normal_below (h : place.IsProper) {names : List String} (hnames : FileTree.AreSteps names)
    (hlast : (place ++ names).getLast? = some name) (hname : IsName name) :
    ((World.pathOf place).below names).normal = World.pathOf (Place.walk place names) := by
  have hbelow : ((World.pathOf place).below names).names = place ++ names := by
    rw [names_below hnames, names_pathOf h]
  have hslash : ((World.pathOf place).below names).hasSlashAtEnd = false := by
    by_cases hnil : names = []
    · rw [hnil]
      exact hasSlashAtEnd_pathOf h
    · rw [List.getLast?_append_of_ne_nil _ hnil] at hlast
      obtain ⟨front, rfl⟩ := List.getLast?_eq_some_iff.1 hlast
      rw [below_concat, hasSlashAtEnd_div _ hname]
  rw [normal_eq (isAbsolute_below (isAbsolute_pathOf h) _) (isWhole_below (isWhole_pathOf h) hnames)
    hslash (hbelow ▸ hlast) hname, hbelow, Place.walk_append, Place.walk_names h, List.nil_append]

theorem place_below_root {names : List String} (hnames : FileTree.AreSteps names) :
    (below ⟨"/"⟩ names).place cwd = Place.walk [] names := by
  have hroot : (⟨"/"⟩ : Path).IsWhole := by
    unfold IsWhole
    decide
  rw [place_of_isAbsolute (isWhole_below hroot hnames) (isAbsolute_below rfl _), names_below hnames]
  rfl

end Path

namespace World
variable {w : World} {p : Path}

theorem exists?_iff : w.exists? p = true ↔ ∃ e, w.get? p = some e := by
  rw [exists?, Option.isSome_iff_exists]

theorem exists?_root (w : World) : w.exists? ⟨"/"⟩ = true := rfl

/-- What of a path exists is a front of its names. -/
theorem existingPart_eq {found : Path} (hfound : w.exists? found = true) (cs : List String) :
    ∃ front back, cs = front ++ back ∧ w.existingPart found cs = (found.below front, back) ∧
      w.exists? (found.below front) = true := by
  induction cs generalizing found with
  | nil => exact ⟨[], [], rfl, rfl, hfound⟩
  | cons c cs ih =>
    rw [existingPart]
    by_cases hc : w.exists? (found / c) = true
    · rw [if_pos hc]
      obtain ⟨front, back, hcs, hpart, hexists⟩ := ih hc
      exact ⟨c :: front, back, by rw [hcs, List.cons_append], hpart, hexists⟩
    · rw [if_neg hc]
      exact ⟨[], c :: cs, rfl, rfl, hfound⟩

theorem partlyCanonical_eq (habs : p.isAbsolute = true) (hwhole : p.IsWhole)
    (hslash : p.hasSlashAtEnd = false) {name : String} (hlast : p.names.getLast? = some name)
    (hname : Path.IsName name) : w.partlyCanonical p = pathOf (p.place w.cwd) := by
  have hcomponents : p.components = "/" :: p.names := by
    rw [Path.components, habs, hslash]
    simp
  have hfirst : w.existingPart .empty p.components = w.existingPart ⟨"/"⟩ p.names := by
    rw [hcomponents, existingPart]
    exact if_pos (exists?_root w)
  obtain ⟨front, back, hnames, hpart, hexists⟩ := existingPart_eq (exists?_root w) p.names
  obtain ⟨e, he⟩ := exists?_iff.1 hexists
  have hsteps := Path.areSteps_names hwhole
  rw [hnames] at hsteps
  have hfront : FileTree.AreSteps front := fun n hn => hsteps n (List.mem_append_left _ hn)
  have hback : FileTree.AreSteps back := fun n hn => hsteps n (List.mem_append_right _ hn)
  have hproper : (Place.walk [] front).IsProper :=
    FileTree.isProper_walk (fun _ h => absurd h List.not_mem_nil) hfront
  -- The name at the end stands in the part that is missing, or the walk ends with it.
  have hend : (Place.walk [] front ++ back).getLast? = some name := by
    rw [hnames] at hlast
    by_cases hnil : back = []
    · rw [hnil, List.append_nil] at hlast ⊢
      obtain ⟨front', rfl⟩ := List.getLast?_eq_some_iff.1 hlast
      rw [Place.walk_append, Place.walk_cons, Place.walk_nil, Place.step_name hname,
        List.getLast?_concat]
    · rwa [List.getLast?_append_of_ne_nil _ hnil] at hlast ⊢
  have hplace : p.place w.cwd = Place.walk (Place.walk [] front) back := by
    rw [Path.place_of_isAbsolute hwhole habs, hnames, Place.walk_append]
  rw [partlyCanonical, hfirst, hpart]
  dsimp only
  rw [(get?_eq_some he).1, Path.place_below_root hfront, Option.map_some, Option.getD_some, hplace]
  exact Path.normal_below hproper hback hend hname

/-- A path from the root that ends in a name has the canonical path of its place. -/
theorem canonical_eq (habs : p.isAbsolute = true) (hwhole : p.IsWhole)
    (hslash : p.hasSlashAtEnd = false) {name : String} (hlast : p.names.getLast? = some name)
    (hname : Path.IsName name) : w.canonical p = pathOf (p.place w.cwd) := by
  rw [canonical]
  cases hloc : w.locate p with
  | none => exact partlyCanonical_eq habs hwhole hslash hlast hname
  | some q =>
    obtain rfl := (locate_eq_some hloc).symm
    dsimp only
    split_ifs
    · rfl
    · exact partlyCanonical_eq habs hwhole hslash hlast hname

/-- What exists has the canonical path of its place. -/
theorem canonical_of_exists (h : w.exists? p = true) : w.canonical p = pathOf (p.place w.cwd) := by
  obtain ⟨e, he⟩ := exists?_iff.1 h
  obtain ⟨hloc, hget⟩ := get?_eq_some he
  rw [canonical, hloc]
  dsimp only
  rw [hget, Option.isSome_some, if_pos rfl]

end World
end Bindery
