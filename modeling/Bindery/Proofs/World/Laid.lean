import Bindery.Proofs.World.Frame

/-!
# What has been written

A run that only puts files and makes directories lays entries over the tree, later ones over earlier
ones. Where an entry has been laid stays reachable, since no directory on the way goes away again.
-/
namespace Bindery
open FileTree
open Bindery.Path (IsName)

namespace FileTree
variable {t t' : FileTree} {cur : Place} {names : List String} {name : String}

/-- Making directories leaves a directory at the end, if all can be made. -/
theorem isDirectory_makeDirectories_concat (hnames : ∀ n ∈ names, n ≠ "") (hname : IsName name)
    (h : (t.makeDirectories cur (names ++ [name])).2 = true) :
    (t.makeDirectories cur (names ++ [name])).1.isDirectory (Place.walk cur names ++ [name]) =
      true := by
  induction names generalizing t cur with
  | nil =>
    rw [List.nil_append] at h ⊢
    rw [Place.walk_nil, ← Place.step_name hname]
    rcases makeDirectories_cases hname.1 t cur [] with
      ⟨hstop, -⟩ | ⟨hlead, hway⟩ | ⟨hmake, hstep, -⟩
    · rw [hstop] at h
      cases h
    · rw [hlead]
      exact (hway.resolve_left hname.2.1).resolve_left hname.2.2.1
    · rw [hmake]
      exact isDirectory_iff.2 (get?_put_self (hstep ▸ List.concat_ne_nil name cur))
  | cons n ns ih =>
    have hns : ∀ m ∈ ns, m ≠ "" := fun m hm => hnames m (List.mem_cons_of_mem _ hm)
    rw [List.cons_append] at h ⊢
    rw [Place.walk_cons]
    rcases makeDirectories_cases (hnames n List.mem_cons_self) t cur (ns ++ [name]) with
      ⟨hstop, -⟩ | ⟨hlead, -⟩ | ⟨hmake, -⟩
    · rw [hstop] at h
      cases h
    · rw [hlead] at h ⊢
      exact ih hns h
    · rw [hmake] at h ⊢
      exact ih hns h

end FileTree

namespace World

/-- More directories take no way away. -/
theorem follow_mono {t t' : FileTree} {cur q : Place} {names : List String}
    (hmono : ∀ r, t.isDirectory r = true → t'.isDirectory r = true)
    (h : follow t cur names = .ok q) : follow t' cur names = .ok q := by
  induction names generalizing cur with
  | nil => exact h
  | cons n ns ih =>
    rw [follow] at h ⊢
    by_cases hdir : t.isDirectory cur = true
    · rw [hdir] at h
      rw [hmono cur hdir]
      split_ifs at h ⊢
      · exact ih h
      · exact ih h
      · exact ih h
    · rw [Bool.not_eq_true] at hdir
      rw [hdir] at h
      cases h

theorem locate_mono {w v : World} {p : Path} {q : Place} (hcwd : v.cwd = w.cwd)
    (hmono : ∀ r, w.tree.isDirectory r = true → v.tree.isDirectory r = true)
    (h : w.locate p = some q) : v.locate p = some q := by
  rw [locate, lookup_eq] at h ⊢
  rw [hcwd]
  split_ifs at h ⊢
  · cases h
  · cases h
  · cases hfollow : follow w.tree (p.terminated.start w.cwd) p.terminated.route with
    | error o =>
      rw [hfollow] at h
      cases h
    | ok r =>
      rw [hfollow] at h
      rw [follow_mono hmono hfollow]
      exact h

/-- The entries of some paths by their places, the last ones on top. -/
def layer (cwd : Place) (l : List (Path × Entry)) : List (Place × Entry) :=
  (l.map fun x => (x.1.place cwd, x.2)).reverse

/-- What a run has laid over the world, path by path. At the places in `made` it may have made
directories besides. -/
structure Lays (cwd : Place) (made : Place → Prop) (l : List (Path × Entry)) (w v : World) :
    Prop where
  cwd_eq : v.cwd = cwd
  isIndexed : cwd.IsProper → w.tree.IsIndexed → v.tree.IsIndexed
  isDirectory : ∀ q, w.tree.isDirectory q = true → v.tree.isDirectory q = true
  located : ∀ p content, (p, .file content) ∈ l → v.locate p = some (p.place cwd)
  entries : ∀ q, Entry.IsKept (made q) (((layer cwd l).lookup q).or (w.tree.get? q)) (v.tree.get? q)

namespace Lays
variable {cwd q : Place} {made : Place → Prop} {l l' : List (Path × Entry)} {u w v : World}
  {p : Path} {e : Entry}

protected theorem refl (hcwd : w.cwd = cwd) : Lays cwd made [] w w where
  cwd_eq := hcwd
  isIndexed _ := id
  isDirectory _ := id
  located _ _ hx := absurd hx List.not_mem_nil
  entries _ := .inl rfl

protected theorem log (hcwd : w.cwd = cwd) (log : String) : Lays cwd made [] w { w with log } where
  cwd_eq := hcwd
  isIndexed _ := id
  isDirectory _ := id
  located _ _ hx := absurd hx List.not_mem_nil
  entries _ := .inl rfl

theorem layer_append : layer cwd (l ++ l') = layer cwd l' ++ layer cwd l := by
  simp only [layer, List.map_append, List.reverse_append]

protected theorem trans (h : Lays cwd made l u w) (h' : Lays cwd made l' w v) :
    Lays cwd made (l ++ l') u v where
  cwd_eq := h'.cwd_eq
  isIndexed hcwd hu := h'.isIndexed hcwd (h.isIndexed hcwd hu)
  isDirectory q hq := h'.isDirectory q (h.isDirectory q hq)
  located p content hp := by
    rcases List.mem_append.1 hp with hp | hp
    · exact locate_mono (h'.cwd_eq.trans h.cwd_eq.symm) h'.isDirectory (h.located p content hp)
    · exact h'.located p content hp
  entries q := by
    have hfirst := h.entries q
    have hsecond := h'.entries q
    rw [layer_append, List.lookup_append]
    cases htop : (layer cwd l').lookup q with
    | some e =>
      rw [htop] at hsecond
      exact hsecond
    | none =>
      rw [htop] at hsecond
      exact hfirst.trans hsecond

theorem put (hcwd : w.cwd = cwd) {content : String} {failure : Failure}
    (h : (Act.put p content failure).runOn w = (.ok ⟨⟩, v)) :
    Lays cwd made [(p, .file content)] w v := by
  rcases Act.put_cases w p content failure with herror | ⟨hloc, hdir, -, hput⟩
  · cases herror.symm.trans h
  cases hput.symm.trans h
  subst hcwd
  have hne : p.place w.cwd ≠ [] := by
    intro hnil
    rw [hnil] at hdir
    cases hdir
  have hmono : ∀ q, w.tree.isDirectory q = true →
      (w.tree.put (p.place w.cwd) (.file content)).isDirectory q = true := fun q hq =>
    (isDirectory_put hdir content q).trans hq
  refine ⟨rfl, fun hcwd hw => hw.put hne (Act.isProper_place hcwd p), hmono,
    fun r c hr => ?_, fun q => .inl ?_⟩
  · cases List.mem_singleton.1 hr
    exact (locate_put hdir content).trans hloc
  · rw [FileTree.get?_put hne]
    by_cases hq : q = p.place w.cwd
    · simp [layer, hq]
    · rw [if_neg hq]
      have hq' : (q == p.place w.cwd) = false := by simpa using hq
      simp [layer, List.lookup_cons, hq']

/-- Making a directory below another one. -/
theorem createDirectories_div (hcwd : w.cwd = cwd) (hwhole : p.IsWhole)
    {name : String} (hname : IsName name)
    (h : (Act.createDirectories (p / name)).runOn w = (.ok ⟨⟩, v)) :
    Lays cwd (· ∈ p.waypoints cwd) [(p / name, .directory)] w v := by
  have hwhole' := hwhole.div hname
  have hnames : (p / name).names = p.names ++ [name] :=
    Path.names_div_name p hname.isPiece hname.1
  have hsteps : AreSteps (p / name).names := fun n hn =>
    ⟨Path.ne_empty_of_mem_names hn, Path.isPiece_of_mem_names hn, fun hnull =>
      hwhole' (Path.mem_text_of_mem_names hn hnull)⟩
  rcases Act.createDirectories_cases w (p / name) with herror | hdone
  · cases herror.symm.trans h
  rw [hdone] at h
  by_cases hall : (Act.withDirectories w (p / name)).2 = true
  · rw [hall, if_pos rfl] at h
    cases h
    subst hcwd
    rw [Act.withDirectories, Path.terminated_of_isWhole hwhole'] at hall ⊢
    have hplace := @Path.place_of_isWhole (p / name) w.cwd hwhole'
    have hlast : (w.tree.makeDirectories ((p / name).start w.cwd) (p / name).names).1.get?
        ((p / name).place w.cwd) = some .directory := by
      rw [hnames] at hall hplace ⊢
      rw [Place.walk_append, Place.walk_cons, Place.walk_nil, Place.step_name hname] at hplace
      rw [hplace]
      refine isDirectory_iff.1 (isDirectory_makeDirectories_concat ?_ hname hall)
      exact fun n hn => Path.ne_empty_of_mem_names hn
    refine ⟨rfl, fun hproper hw => hw.makeDirectories (Act.isProper_start hproper _) hsteps,
      fun q hq => isDirectory_makeDirectories hsteps.ne_empty hq, fun r c hr => ?_, fun q => ?_⟩
    · cases List.mem_singleton.1 hr
    · by_cases hq : q = (p / name).place w.cwd
      · rw [hq, hlast]
        exact .inl (by simp [layer])
      · have hq' : (q == (p / name).place w.cwd) = false := by simpa using hq
        have hnone : (layer w.cwd [(p / name, Entry.directory)]).lookup q = none := by
          simp [layer, List.lookup_cons, hq']
        rw [hnone, Option.none_or]
        rcases get?_makeDirectories hsteps.ne_empty q with hsame | ⟨hget, hdir, hway⟩
        · exact .inl hsame
        · refine .inr ⟨hget, hdir, ?_⟩
          have hway' : q ∈ (p / name).waypoints w.cwd := by
            rwa [Path.waypoints_of_isWhole hwhole']
          rcases (Path.mem_waypoints_div hwhole hname).1 hway' with hway | hway
          · exact hway
          · rw [Path.place_div hwhole hname] at hq
            exact absurd hway hq
  · rw [if_neg hall] at h
    cases h

theorem mem_of_lookup (h : (layer cwd l).lookup q = some e) :
    ∃ x ∈ l, x.1.place cwd = q ∧ x.2 = e := by
  obtain ⟨front, back, heq, -⟩ := List.lookup_eq_some_iff.1 h
  have hmem : (q, e) ∈ layer cwd l := by
    rw [heq]
    exact List.mem_append_right _ List.mem_cons_self
  obtain ⟨x, hx, hxe⟩ := List.mem_map.1 (List.mem_reverse.1 hmem)
  exact ⟨x, hx, (Prod.mk.inj hxe).1, (Prod.mk.inj hxe).2⟩

theorem exists_lookup (cwd : Place) {x : Path × Entry} (hx : x ∈ l) :
    ∃ e, (layer cwd l).lookup (x.1.place cwd) = some e := by
  refine Option.ne_none_iff_exists'.1 fun hnone => ?_
  rw [List.lookup_eq_none_iff] at hnone
  simpa using hnone _ (List.mem_reverse.2 (List.mem_map.2 ⟨x, hx, rfl⟩))

/-- The entry of a place where all that has been laid is the same. -/
theorem get?_place (h : Lays cwd made l w v) (hp : (p, e) ∈ l)
    (hsame : ∀ x ∈ l, x.1.place cwd = p.place cwd → x.2 = e) :
    v.tree.get? (p.place cwd) = some e := by
  obtain ⟨e', hlookup⟩ := exists_lookup cwd hp
  obtain ⟨x, hx, hplace, rfl⟩ := mem_of_lookup hlookup
  have hentry := h.entries (p.place cwd)
  rw [hlookup, Option.some_or, hsame x hx hplace] at hentry
  exact hentry.of_some

/-- Where there was nothing, and is no directory on the way, there is what has been laid. -/
theorem get?_eq_lookup (h : Lays cwd made l w v) (hnone : w.tree.get? q = none) (hmade : ¬ made q) :
    v.tree.get? q = (layer cwd l).lookup q := by
  have hentry := h.entries q
  rw [hnone, Option.or_none] at hentry
  rcases hentry with hsame | ⟨-, -, hmade'⟩
  · exact hsame
  · exact absurd hmade' hmade

/-- A file that has been laid can be read. -/
theorem get?_file (h : Lays cwd made l w v) {content : String} (hp : (p, .file content) ∈ l)
    (hsame : ∀ x ∈ l, x.1.place cwd = p.place cwd → x.2 = .file content) :
    v.get? p = some (.file content) := by
  rw [World.get?, h.located p content hp, Option.bind_some, h.get?_place hp hsame]

/-- Where nothing has been laid all is kept. -/
theorem isKept (h : Lays cwd made l w v) (hq : ∀ x ∈ l, x.1.place cwd ≠ q) :
    Entry.IsKept (made q) (w.tree.get? q) (v.tree.get? q) := by
  have hnone : (layer cwd l).lookup q = none := by
    rw [List.lookup_eq_none_iff]
    intro x hx
    obtain ⟨y, hy, rfl⟩ := List.mem_map.1 (List.mem_reverse.1 hx)
    simpa using (hq y hy).symm
  have hentry := h.entries q
  rwa [hnone, Option.none_or] at hentry

end Lays
end World
end Bindery
