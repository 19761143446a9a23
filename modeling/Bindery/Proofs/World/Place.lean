import Bindery.Proofs.Path.Parts
import Bindery.World.Basic

/-!
# Places and the paths to them

Where a path leads is decided by its spelling alone; whether it gets there depends on the
directories on its way. Trees that have the same directories on the way of a path agree on it.
-/
namespace Bindery
open Text

namespace Place
variable {cur p q : Place} {name : String} {names as bs : List String}

/-- Where a name leads from a place. -/
def step (cur : Place) (name : String) : Place :=
  if name = "." ∨ name = "" then cur else if name = ".." then cur.dropLast else cur ++ [name]

def walk (cur : Place) (names : List String) : Place := names.foldl step cur

/-- The places that some names lead through, the first and the last one included. -/
def waypoints (cur : Place) : List String → List Place
  | [] => [cur]
  | name :: names => cur :: waypoints (step cur name) names

theorem step_empty : step cur "" = cur := rfl

theorem step_name (h : Path.IsName name) : step cur name = cur ++ [name] := by
  rw [step, if_neg (not_or.2 ⟨h.2.1, h.1⟩), if_neg h.2.2.1]

@[simp] theorem walk_nil : walk cur [] = cur := rfl

@[simp] theorem walk_cons : walk cur (name :: names) = walk (step cur name) names := rfl

theorem walk_append : walk cur (as ++ bs) = walk (walk cur as) bs := List.foldl_append

theorem walk_names (h : ∀ n ∈ names, Path.IsName n) : walk cur names = cur ++ names := by
  induction names generalizing cur with
  | nil => rw [walk_nil, List.append_nil]
  | cons n ns ih =>
    rw [walk_cons, step_name (h n List.mem_cons_self), ih fun m hm => h m (List.mem_cons_of_mem _ hm),
      List.append_assoc, List.singleton_append]

theorem mem_waypoints_self : cur ∈ waypoints cur names := by
  cases names with
  | nil => exact List.mem_singleton_self cur
  | cons n ns => exact List.mem_cons_self

theorem mem_waypoints_append :
    q ∈ waypoints cur (as ++ bs) ↔ q ∈ waypoints cur as ∨ q ∈ waypoints (walk cur as) bs := by
  induction as generalizing cur with
  | nil =>
    simp only [List.nil_append, waypoints, walk_nil, List.mem_singleton]
    constructor
    · exact .inr
    · rintro (rfl | h)
      · exact mem_waypoints_self
      · exact h
  | cons n ns ih =>
    simp only [List.cons_append, waypoints, walk_cons, List.mem_cons, ih, or_assoc]

theorem walk_mem_waypoints : walk cur names ∈ waypoints cur names := by
  induction names generalizing cur with
  | nil => exact List.mem_singleton_self cur
  | cons n ns ih => exact List.mem_cons_of_mem _ ih

theorem mem_waypoints_names (h : ∀ n ∈ names, Path.IsName n) :
    q ∈ waypoints cur names ↔ cur <+: q ∧ q <+: cur ++ names := by
  induction names generalizing cur with
  | nil =>
    rw [waypoints, List.mem_singleton, List.append_nil]
    constructor
    · rintro rfl
      exact ⟨List.prefix_refl _, List.prefix_refl _⟩
    · exact fun h => (h.2.eq_of_length_le h.1.length_le)
  | cons n ns ih =>
    rw [waypoints, List.mem_cons, step_name (h n List.mem_cons_self),
      ih fun m hm => h m (List.mem_cons_of_mem _ hm), List.append_assoc, List.singleton_append]
    constructor
    · rintro (rfl | ⟨h, h'⟩)
      · exact ⟨List.prefix_refl _, List.prefix_append _ _⟩
      · exact ⟨(List.prefix_append _ _).trans h, h'⟩
    · rintro ⟨⟨t, rfl⟩, ht⟩
      rw [List.prefix_append_right_inj] at ht
      cases t with
      | nil => exact .inl (List.append_nil _)
      | cons m ms =>
        obtain ⟨rfl, hms⟩ := List.cons_prefix_cons.1 ht
        refine .inr ⟨?_, ?_⟩
        · rw [List.prefix_append_right_inj]
          exact List.cons_prefix_cons.2 ⟨rfl, List.nil_prefix⟩
        · rw [List.prefix_append_right_inj]
          exact List.cons_prefix_cons.2 ⟨rfl, hms⟩

end Place

namespace Path
variable {p : Path} {s : String} {cwd : Place}

/-- A path that no null character cuts off. -/
def IsWhole (p : Path) : Prop := '\x00' ∉ p.text.toList

def start (cwd : Place) (p : Path) : Place := if p.isAbsolute then [] else cwd

/-- The place that a path leads to from a current directory. -/
def place (cwd : Place) (p : Path) : Place := Place.walk (p.terminated.start cwd) p.terminated.names

/-- The places on the way of a path. -/
def waypoints (cwd : Place) (p : Path) : List Place :=
  Place.waypoints (p.terminated.start cwd) p.terminated.names

theorem terminated_of_isWhole (h : p.IsWhole) : p.terminated = p := by
  have hall : ∀ c ∈ p.text.toList, decide (c ≠ '\x00') = true := by
    intro c hc
    rw [decide_eq_true_eq]
    rintro rfl
    exact h hc
  rw [terminated, Text.terminated, List.takeWhile_eq_self_iff.2 hall, String.ofList_toList]

theorem isWhole_terminated (p : Path) : p.terminated.IsWhole := by
  intro h
  have := List.mem_takeWhile_imp (by simpa [terminated, Text.terminated] using h)
  simp at this

theorem place_of_isWhole (h : p.IsWhole) : p.place cwd = Place.walk (p.start cwd) p.names := by
  rw [place, terminated_of_isWhole h]

theorem waypoints_of_isWhole (h : p.IsWhole) :
    p.waypoints cwd = Place.waypoints (p.start cwd) p.names := by
  rw [waypoints, terminated_of_isWhole h]

/-- The names that a look-up follows; a slash at the end asks for a directory. -/
def route (p : Path) : List String := p.names ++ if p.hasSlashAtEnd then [""] else []

theorem walk_route {cur : Place} : Place.walk cur p.route = Place.walk cur p.names := by
  rw [route, Place.walk_append]
  split_ifs
  · rfl
  · rfl

theorem mem_waypoints_route {cur q : Place} :
    q ∈ Place.waypoints cur p.route ↔ q ∈ Place.waypoints cur p.names := by
  rw [route]
  split_ifs
  · rw [Place.mem_waypoints_append, Place.waypoints, Place.waypoints, Place.step_empty,
      List.mem_cons, List.mem_singleton, or_self]
    constructor
    · rintro (h | rfl)
      · exact h
      · exact Place.walk_mem_waypoints
    · exact .inl
  · rw [List.append_nil]

theorem place_mem_waypoints (p : Path) : p.place cwd ∈ p.waypoints cwd := Place.walk_mem_waypoints

theorem isAbsolute_div_piece (h : IsPiece s) : (p / s).isAbsolute = p.isAbsolute := by
  by_cases hp : p.text = ""
  · rw [div_eq p h, if_pos hp, isAbsolute_of_isPiece h]
    simp [isAbsolute, hp]
  · exact isAbsolute_div h hp

theorem start_div (h : IsPiece s) : (p / s).start cwd = p.start cwd := by
  rw [start, start, isAbsolute_div_piece h]

theorem IsWhole.div (hp : p.IsWhole) (hs : IsName s) : (p / s).IsWhole := by
  intro h
  rcases mem_text_div hs.isPiece h with h | h | h
  · exact hp h
  · exact absurd h (by decide)
  · exact hs.2.2.2.2 h

theorem place_div (hp : p.IsWhole) (hs : IsName s) : (p / s).place cwd = p.place cwd ++ [s] := by
  rw [place_of_isWhole (hp.div hs), place_of_isWhole hp, start_div hs.isPiece,
    names_div_name p hs.isPiece hs.1, Place.walk_append, Place.walk_cons, Place.walk_nil,
    Place.step_name hs]

theorem mem_waypoints_div (hp : p.IsWhole) (hs : IsName s) {q : Place} :
    q ∈ (p / s).waypoints cwd ↔ q ∈ p.waypoints cwd ∨ q = p.place cwd ++ [s] := by
  rw [waypoints_of_isWhole (hp.div hs), waypoints_of_isWhole hp, place_of_isWhole hp,
    start_div hs.isPiece, names_div_name p hs.isPiece hs.1, Place.mem_waypoints_append,
    Place.waypoints, Place.waypoints, Place.step_name hs, List.mem_cons, List.mem_singleton]
  constructor
  · rintro (h | rfl | h)
    · exact .inl h
    · exact .inl Place.walk_mem_waypoints
    · exact .inr h
  · rintro (h | h)
    · exact .inl h
    · exact .inr (.inr h)

/-- The names below a directory lead there one by one. -/
theorem place_below (hp : p.IsWhole) {ns : List String} (hns : ∀ n ∈ ns, IsName n) :
    (p.below ns).IsWhole ∧ (p.below ns).place cwd = p.place cwd ++ ns := by
  induction ns generalizing p with
  | nil => exact ⟨hp, (List.append_nil _).symm⟩
  | cons n ns ih =>
    have hn := hns n List.mem_cons_self
    obtain ⟨hwhole, hplace⟩ := ih (hp.div hn) fun m hm => hns m (List.mem_cons_of_mem _ hm)
    refine ⟨hwhole, ?_⟩
    change ((p / n).below ns).place cwd = _
    rw [hplace, place_div hp hn, List.append_assoc, List.singleton_append]

theorem mem_waypoints_below (hp : p.IsWhole) {ns : List String} (hns : ∀ n ∈ ns, IsName n)
    {q : Place} (hq : q ∈ (p.below ns).waypoints cwd) :
    q ∈ p.waypoints cwd ∨ (p.place cwd <+: q ∧ q <+: p.place cwd ++ ns) := by
  induction ns generalizing p with
  | nil => exact .inl hq
  | cons n ns ih =>
    have hn := hns n List.mem_cons_self
    have hplace : (p / n).place cwd = p.place cwd ++ [n] := place_div hp hn
    rcases ih (hp.div hn) (fun m hm => hns m (List.mem_cons_of_mem _ hm)) hq with h | ⟨h, h'⟩
    · rcases (mem_waypoints_div hp hn).1 h with h | h
      · exact .inl h
      · obtain rfl := h.symm
        refine .inr ⟨List.prefix_append _ _, ?_⟩
        rw [List.prefix_append_right_inj]
        exact List.cons_prefix_cons.2 ⟨rfl, List.nil_prefix⟩
    · rw [hplace] at h h'
      rw [List.append_assoc, List.singleton_append] at h'
      exact .inr ⟨(List.prefix_append _ _).trans h, h'⟩

end Path

namespace World
variable {w v : World} {p : Path} {q : Place} {t t' : FileTree} {cur : Place}
  {names as bs : List String}

theorem follow_ok (h : follow t cur names = .ok q) : q = Place.walk cur names := by
  induction names generalizing cur with
  | nil =>
    rw [follow, Except.ok.injEq] at h
    exact h.symm
  | cons n ns ih =>
    rw [Place.walk_cons, Place.step]
    rw [follow] at h
    split_ifs at h ⊢
    · exact ih h
    · exact ih h
    · exact ih h

theorem follow_append :
    follow t cur (as ++ bs) = (follow t cur as).bind fun p => follow t p bs := by
  induction as generalizing cur with
  | nil => rfl
  | cons n ns ih =>
    rw [List.cons_append, follow, follow]
    split_ifs
    · rfl
    · exact ih
    · exact ih
    · rfl
    · exact ih

/-- What is on the way decides where some names lead. -/
theorem follow_congr (h : ∀ q ∈ Place.waypoints cur names, t.isDirectory q = t'.isDirectory q) :
    follow t cur names = follow t' cur names := by
  induction names generalizing cur with
  | nil => rfl
  | cons n ns ih =>
    have hcur := h cur List.mem_cons_self
    have hns : ∀ next, next = Place.step cur n → follow t next ns = follow t' next ns := by
      rintro next rfl
      exact ih fun q hq => h q (List.mem_cons_of_mem _ hq)
    rw [follow, follow, hcur]
    split_ifs with hdir hdot hup hlong
    · rfl
    · exact hns cur (by rw [Place.step, if_pos hdot])
    · exact hns _ (by rw [Place.step, if_neg hdot, if_pos hup])
    · rfl
    · exact hns _ (by rw [Place.step, if_neg hdot, if_neg hup])

theorem lookup_eq (w : World) (p : Path) :
    w.lookup p =
      if p.terminated.isEmpty then .error .missing
      else if p.terminated.isTooLong then .error .tooLong
      else follow w.tree (p.terminated.start w.cwd) p.terminated.route := rfl

theorem locate_eq_some (h : w.locate p = some q) : q = p.place w.cwd := by
  rw [locate, lookup_eq] at h
  split_ifs at h
  · cases h
  · cases h
  · cases hf : follow w.tree (p.terminated.start w.cwd) p.terminated.route with
    | error o =>
      rw [hf] at h
      cases h
    | ok r =>
      rw [hf] at h
      cases h
      rw [follow_ok hf, Path.walk_route, Path.place]

/-- Worlds that have the same directories on the way of a path agree on where it leads. -/
theorem lookup_congr (hcwd : w.cwd = v.cwd)
    (h : ∀ q ∈ p.waypoints w.cwd, w.tree.isDirectory q = v.tree.isDirectory q) :
    w.lookup p = v.lookup p := by
  rw [lookup_eq, lookup_eq, ← hcwd]
  split_ifs
  · rfl
  · rfl
  · exact follow_congr fun q hq => h q (Path.mem_waypoints_route.1 hq)

theorem locate_congr (hcwd : w.cwd = v.cwd)
    (h : ∀ q ∈ p.waypoints w.cwd, w.tree.isDirectory q = v.tree.isDirectory q) :
    w.locate p = v.locate p := by
  rw [locate, locate, lookup_congr hcwd h]

theorem get?_eq_some {e : Entry} (h : w.get? p = some e) :
    w.locate p = some (p.place w.cwd) ∧ w.tree.get? (p.place w.cwd) = some e := by
  rw [get?, Option.bind_eq_some_iff] at h
  obtain ⟨q, hq, he⟩ := h
  obtain rfl := (locate_eq_some hq).symm
  exact ⟨hq, he⟩

/-- What is read is a file, or else a directory, which reads as an empty one. -/
theorem get?_of_read? {content : String} (h : w.read? p = some content) :
    w.locate p = some (p.place w.cwd) ∧
      (w.tree.get? (p.place w.cwd) = some (.file content) ∨
        w.tree.get? (p.place w.cwd) = some .directory ∧ content = "") := by
  rw [read?] at h
  cases hget : w.get? p with
  | none =>
    rw [hget] at h
    cases h
  | some e =>
    rw [hget] at h
    obtain ⟨hloc, hplace⟩ := get?_eq_some hget
    cases e with
    | file c =>
      cases h
      exact ⟨hloc, .inl hplace⟩
    | directory =>
      cases h
      exact ⟨hloc, .inr ⟨hplace, rfl⟩⟩

theorem exists?_of_read? {content : String} (h : w.read? p = some content) : w.exists? p = true := by
  rw [exists?]
  cases hget : w.get? p with
  | some e => rfl
  | none =>
    rw [read?, hget] at h
    cases h

theorem exists?_of_isFile (h : w.isFile p = true) : w.exists? p = true := by
  rw [exists?]
  cases hget : w.get? p with
  | some e => rfl
  | none =>
    rw [isFile, hget] at h
    cases h

/-- Worlds with the same entries on the way of a path agree on what it leads to. -/
theorem get?_congr (hcwd : w.cwd = v.cwd)
    (h : ∀ q ∈ p.waypoints w.cwd, w.tree.get? q = v.tree.get? q) : w.get? p = v.get? p := by
  have hdir : ∀ q ∈ p.waypoints w.cwd, w.tree.isDirectory q = v.tree.isDirectory q := by
    intro q hq
    rw [FileTree.isDirectory, FileTree.isDirectory, h q hq]
  rw [get?, get?, ← locate_congr hcwd hdir]
  cases hl : w.locate p with
  | none => rfl
  | some q =>
    have hq := h q (locate_eq_some hl ▸ p.place_mem_waypoints)
    rw [Option.bind_some, Option.bind_some, hq]

end World
end Bindery
