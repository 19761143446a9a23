import Bindery.Proofs.World.Place

/-!
# Well-formed file trees

In a tree that a file system can hold every entry has a proper name, no two entries share a place,
and whatever lies in a directory has that directory. Putting, erasing and making directories keep
a tree well-formed, and each changes the entries of the places it is about only.
-/
namespace Bindery
open Bindery.Path (IsName)

/-- The names of a place can all name files. -/
def Place.IsProper (p : Place) : Prop := ∀ n ∈ p, IsName n

theorem Place.IsProper.dropLast {p : Place} (h : p.IsProper) : Place.IsProper p.dropLast :=
  fun n hn => h n (List.dropLast_subset p hn)

theorem Place.IsProper.append {p : Place} {name : String} (h : p.IsProper) (hn : IsName name) :
    Place.IsProper (p ++ [name]) := by
  intro n hmem
  rcases List.mem_append.1 hmem with hmem | hmem
  · exact h n hmem
  · rw [List.mem_singleton.1 hmem]
    exact hn

namespace FileTree
variable {t : FileTree} {p q cur : Place} {e f : Entry} {names : List String}

def IsNamed (t : FileTree) : Prop := ∀ x ∈ t.entries, x.1 ≠ [] ∧ x.1.IsProper

/-- A tree with one entry for each place. -/
structure IsIndexed (t : FileTree) : Prop where
  isNamed : t.IsNamed
  nodup : (t.entries.map (·.1)).Nodup

structure WellFormed (t : FileTree) : Prop where
  isNamed : t.IsNamed
  nodup : (t.entries.map (·.1)).Nodup
  parents : ∀ x ∈ t.entries, t.isDirectory x.1.dropLast = true

theorem isDirectory_iff : t.isDirectory p = true ↔ t.get? p = some .directory := decide_eq_true_iff

@[simp] theorem get?_nil : t.get? [] = some .directory := rfl

@[simp] theorem isDirectory_nil : t.isDirectory [] = true := rfl

theorem mem_of_get? (hp : p ≠ []) (h : t.get? p = some e) : (p, e) ∈ t.entries := by
  rw [get?, if_neg hp, List.lookup_eq_some_iff] at h
  obtain ⟨front, back, heq, _⟩ := h
  rw [heq]
  exact List.mem_append_right _ List.mem_cons_self

theorem lookup_of_mem {l : List (Place × Entry)} (hl : (l.map (·.1)).Nodup) (h : (p, e) ∈ l) :
    l.lookup p = some e := by
  induction l with
  | nil => exact absurd h List.not_mem_nil
  | cons x l ih =>
    obtain ⟨r, f⟩ := x
    obtain ⟨hx, hl⟩ := List.nodup_cons.1 hl
    rcases List.mem_cons.1 h with h | hl'
    · cases h
      exact List.lookup_cons_self
    · have hne : (p == r) = false := by
        rw [beq_eq_false_iff_ne]
        rintro rfl
        exact hx (List.mem_map_of_mem (f := (·.1)) hl')
      rw [List.lookup_cons, hne]
      exact ih hl hl'

theorem IsIndexed.get?_of_mem (ht : t.IsIndexed) (h : (p, e) ∈ t.entries) :
    t.get? p = some e := by
  rw [get?, if_neg (ht.isNamed _ h).1]
  exact lookup_of_mem ht.nodup h

theorem WellFormed.isIndexed (ht : t.WellFormed) : t.IsIndexed := ⟨ht.isNamed, ht.nodup⟩

theorem IsNamed.isProper (ht : t.IsNamed) (h : t.get? p = some e) : p.IsProper := by
  by_cases hp : p = []
  · rw [hp]
    exact fun n hn => absurd hn List.not_mem_nil
  · exact (ht _ (mem_of_get? hp h)).2

theorem WellFormed.isDirectory_dropLast (ht : t.WellFormed) (h : t.get? p = some e) :
    t.isDirectory p.dropLast = true := by
  by_cases hp : p = []
  · rw [hp]
    rfl
  · exact ht.parents _ (mem_of_get? hp h)

/-- All that leads to an entry is a directory. -/
theorem WellFormed.isDirectory_of_prefix (ht : t.WellFormed) {tail : Place} (htail : tail ≠ [])
    (h : t.get? (p ++ tail) = some e) : t.isDirectory p = true := by
  induction tail using List.reverseRecOn generalizing e with
  | nil => exact absurd rfl htail
  | append_singleton front last ih =>
    have hdir := ht.isDirectory_dropLast h
    rw [← List.append_assoc, List.dropLast_concat] at hdir
    by_cases hfront : front = []
    · rwa [hfront, List.append_nil] at hdir
    · exact ih hfront (isDirectory_iff.1 hdir)

/-- What lies below a place lies below something that is there. -/
theorem WellFormed.exists_of_prefix (ht : t.WellFormed) {front q : Place} (hfront : front <+: q)
    (h : t.get? q = some e) : ∃ f, t.get? front = some f := by
  obtain ⟨tail, rfl⟩ := hfront
  by_cases htail : tail = []
  · rw [htail, List.append_nil] at h
    exact ⟨e, h⟩
  · exact ⟨.directory, isDirectory_iff.1 (ht.isDirectory_of_prefix htail h)⟩

/-! ### Putting -/

theorem mem_putEntry {l : List (Place × Entry)} {x : Place × Entry} (h : x ∈ putEntry p e l) :
    x = (p, e) ∨ x ∈ l := by
  induction l with
  | nil => exact .inl (List.mem_singleton.1 h)
  | cons y l ih =>
    simp only [putEntry] at h
    split_ifs at h
    · exact (List.mem_cons.1 h).imp_right (List.mem_cons_of_mem y)
    · rcases List.mem_cons.1 h with rfl | h
      · exact .inr List.mem_cons_self
      · exact (ih h).imp_right (List.mem_cons_of_mem y)

theorem nodup_putEntry {l : List (Place × Entry)} (hl : (l.map (·.1)).Nodup) :
    ((putEntry p e l).map (·.1)).Nodup := by
  induction l with
  | nil => exact List.nodup_singleton p
  | cons y l ih =>
    obtain ⟨r, f⟩ := y
    obtain ⟨hy, hl⟩ := List.nodup_cons.1 hl
    simp only [putEntry]
    split_ifs with hyp
    · subst hyp
      exact List.nodup_cons.2 ⟨hy, hl⟩
    · refine List.nodup_cons.2 ⟨?_, ih hl⟩
      intro hmem
      obtain ⟨x, hx, hxy⟩ := List.mem_map.1 hmem
      rcases mem_putEntry hx with rfl | hx
      · exact hyp hxy.symm
      · exact hy (List.mem_map.2 ⟨x, hx, hxy⟩)

theorem get?_put (hp : p ≠ []) : (t.put p e).get? q = if q = p then some e else t.get? q := by
  split_ifs with h
  · rw [h, get?_put_self hp]
  · exact get?_put_of_ne h

theorem IsNamed.put (ht : t.IsNamed) (hp : p ≠ []) (hproper : p.IsProper) :
    (t.put p e).IsNamed := by
  intro x hx
  rcases mem_putEntry hx with rfl | hx
  · exact ⟨hp, hproper⟩
  · exact ht x hx

/-- A file may replace a file, and a directory may be made where there is nothing. -/
theorem IsIndexed.put (ht : t.IsIndexed) (hp : p ≠ []) (hproper : p.IsProper) :
    (t.put p e).IsIndexed :=
  ⟨ht.isNamed.put hp hproper, nodup_putEntry ht.nodup⟩

theorem WellFormed.put (ht : t.WellFormed) (hp : p ≠ []) (hproper : p.IsProper)
    (hparent : t.isDirectory p.dropLast = true) (hkind : t.isDirectory p = false) :
    (t.put p e).WellFormed := by
  have hdir : ∀ q, t.isDirectory q = true → (t.put p e).isDirectory q = true := by
    intro q hq
    have hne : q ≠ p := by
      rintro rfl
      rw [hkind] at hq
      cases hq
    rw [isDirectory_iff, get?_put hp, if_neg hne]
    exact isDirectory_iff.1 hq
  refine ⟨ht.isNamed.put hp hproper, nodup_putEntry ht.nodup, fun x hx => ?_⟩
  rcases mem_putEntry hx with rfl | hx
  · exact hdir _ hparent
  · exact hdir _ (ht.parents x hx)

/-! ### Erasing -/

theorem lookup_filter_prefix {l : List (Place × Entry)} :
    (l.filter fun x => !p.isPrefixOf x.1).lookup q =
      if p <+: q then none else l.lookup q := by
  induction l with
  | nil => simp
  | cons x l ih =>
    obtain ⟨r, f⟩ := x
    by_cases hpr : p <+: r
    · rw [List.filter_cons_of_neg (by simpa using hpr), ih]
      split_ifs with hpq
      · rfl
      · have hne : (q == r) = false := by
          rw [beq_eq_false_iff_ne]
          rintro rfl
          exact hpq hpr
        rw [List.lookup_cons, hne]
    · have hneg : (!p.isPrefixOf r) = true := by
        rw [Bool.not_eq_true', ← Bool.not_eq_true, List.isPrefixOf_iff_prefix]
        exact hpr
      rw [List.filter_cons_of_pos (a := (r, f)) hneg, List.lookup_cons, List.lookup_cons, ih]
      by_cases hqr : q = r
      · simp [hqr, hpr]
      · simp [beq_eq_false_iff_ne.2 hqr]

theorem get?_erase : (t.erase p).get? q = if q ≠ [] ∧ p <+: q then none else t.get? q := by
  by_cases hq : q = []
  · simp [hq]
  · rw [get?, get?, if_neg hq, if_neg hq, erase, lookup_filter_prefix]
    simp only [ne_eq, hq, not_false_eq_true, true_and]

theorem IsNamed.erase (ht : t.IsNamed) : (t.erase p).IsNamed := fun x hx =>
  ht x (List.mem_of_mem_filter hx)

theorem IsIndexed.erase (ht : t.IsIndexed) : (t.erase p).IsIndexed :=
  ⟨ht.isNamed.erase, ht.nodup.sublist (List.filter_sublist.map _)⟩

theorem WellFormed.erase (ht : t.WellFormed) : (t.erase p).WellFormed := by
  refine ⟨ht.isNamed.erase, ?_, fun x hx => ?_⟩
  · exact ht.nodup.sublist (List.filter_sublist.map _)
  · obtain ⟨hx, hpx⟩ := List.mem_filter.1 hx
    have hdir := isDirectory_iff.1 (ht.parents x hx)
    rw [isDirectory_iff, get?_erase, if_neg]
    · exact hdir
    · rintro ⟨_, hp⟩
      have : p.isPrefixOf x.1 = true :=
        List.isPrefixOf_iff_prefix.2 (hp.trans (List.dropLast_prefix _))
      rw [this] at hpx
      cases hpx

/-! ### Making directories -/

theorem makeDirectories_cons {name : String} (hname : name ≠ "") :
    t.makeDirectories cur (name :: names) =
      if name = "." ∨ name = ".." then t.makeDirectories (Place.step cur name) names
      else
        match t.get? (Place.step cur name) with
        | some .directory => t.makeDirectories (Place.step cur name) names
        | some (.file _) => (t, false)
        | none =>
          if name.length > maxName then (t, false)
          else (t.put (Place.step cur name) .directory).makeDirectories (Place.step cur name)
            names := by
  rw [makeDirectories]
  by_cases hdot : name = "."
  · simp [hdot, Place.step]
  · by_cases hup : name = ".."
    · simp [hup, Place.step]
    · have hstep : Place.step cur name = cur ++ [name] := by
        simp [Place.step, hdot, hup, hname]
      rw [hstep]
      exact (if_neg hdot).trans ((if_neg hup).trans (if_neg (not_or.2 ⟨hdot, hup⟩)).symm)

/-- What the first name comes to: it stops the making, it leads on, or its directory is made. -/
theorem makeDirectories_cases {name : String} (hname : name ≠ "") (t : FileTree) (cur : Place)
    (names : List String) :
    (t.makeDirectories cur (name :: names) = (t, false) ∧ name ≠ "." ∧ name ≠ ".." ∧
      (maxName < name.length ∨ ∃ content, t.get? (Place.step cur name) = some (.file content))) ∨
    (t.makeDirectories cur (name :: names) = t.makeDirectories (Place.step cur name) names ∧
      (name = "." ∨ name = ".." ∨ t.isDirectory (Place.step cur name) = true)) ∨
    t.makeDirectories cur (name :: names) =
        (t.put (Place.step cur name) .directory).makeDirectories (Place.step cur name) names ∧
      Place.step cur name = cur ++ [name] ∧ t.get? (Place.step cur name) = none := by
  rw [makeDirectories_cons hname]
  by_cases hdot : name = "." ∨ name = ".."
  · exact .inr (.inl ⟨if_pos hdot, hdot.imp_right .inl⟩)
  · rw [if_neg hdot]
    obtain ⟨hdot, hup⟩ := not_or.1 hdot
    cases hget : t.get? (Place.step cur name) with
    | some e =>
      cases e with
      | file content => exact .inl ⟨rfl, hdot, hup, .inr ⟨content, rfl⟩⟩
      | directory => exact .inr (.inl ⟨rfl, .inr (.inr (isDirectory_iff.2 hget))⟩)
    | none =>
      dsimp only
      split_ifs with hlong
      · exact .inl ⟨rfl, hdot, hup, .inl hlong⟩
      · refine .inr (.inr ⟨rfl, ?_, rfl⟩)
        rw [Place.step, if_neg (not_or.2 ⟨hdot, hname⟩), if_neg hup]

/-- Where the first directories are there, only the rest is made. -/
theorem makeDirectories_append {more : List String} (hnames : ∀ n ∈ names, n ≠ "")
    (h : ∀ q ∈ Place.waypoints cur names, t.isDirectory q = true) :
    t.makeDirectories cur (names ++ more) = t.makeDirectories (Place.walk cur names) more := by
  induction names generalizing cur with
  | nil => rfl
  | cons n ns ih =>
    have hstep := h _ (List.mem_cons_of_mem _ Place.mem_waypoints_self)
    have hrest := ih (fun m hm => hnames m (List.mem_cons_of_mem _ hm))
      fun q hq => h q (List.mem_cons_of_mem _ hq)
    rw [List.cons_append, makeDirectories_cons (hnames n List.mem_cons_self),
      isDirectory_iff.1 hstep, Place.walk_cons, ite_self]
    exact hrest

/-- Where all directories are there none is made. -/
theorem makeDirectories_of_isDirectory (hnames : ∀ n ∈ names, n ≠ "")
    (h : ∀ q ∈ Place.waypoints cur names, t.isDirectory q = true) :
    t.makeDirectories cur names = (t, true) := by
  have happend : t.makeDirectories cur (names ++ []) = _ := makeDirectories_append hnames h
  rwa [List.append_nil, makeDirectories] at happend

/-- Making directories adds directories on the way and changes nothing else. -/
theorem get?_makeDirectories (hnames : ∀ n ∈ names, n ≠ "") (q : Place) :
    (t.makeDirectories cur names).1.get? q = t.get? q ∨
      (t.get? q = none ∧ (t.makeDirectories cur names).1.get? q = some .directory ∧
        q ∈ Place.waypoints cur names) := by
  induction names generalizing t cur with
  | nil => exact .inl rfl
  | cons n ns ih =>
    have hmore := fun u : FileTree =>
      @ih u (Place.step cur n) fun m hm => hnames m (List.mem_cons_of_mem _ hm)
    rcases makeDirectories_cases (hnames n List.mem_cons_self) t cur ns with
      ⟨hstop, -⟩ | ⟨hlead, -⟩ | ⟨hmake, hstep, hnone⟩
    · rw [hstop]
      exact .inl rfl
    · rw [hlead]
      rcases hmore t with h | ⟨h, h', hq⟩
      · exact .inl h
      · exact .inr ⟨h, h', List.mem_cons_of_mem _ hq⟩
    · rw [hmake]
      have hput := get?_put (t := t) (e := .directory) (q := q) (hstep ▸ List.concat_ne_nil n cur)
      by_cases hq : q = Place.step cur n
      · rw [if_pos hq] at hput
        rcases hmore (t.put (Place.step cur n) .directory) with h | ⟨h, _⟩
        · refine .inr ⟨by rw [hq, hnone], h.trans hput, ?_⟩
          rw [hq]
          exact List.mem_cons_of_mem _ Place.mem_waypoints_self
        · rw [hput] at h
          cases h
      · rw [if_neg hq] at hput
        rcases hmore (t.put (Place.step cur n) .directory) with h | ⟨h, h', hq⟩
        · exact .inl (h.trans hput)
        · exact .inr ⟨hput.symm.trans h, h', List.mem_cons_of_mem _ hq⟩

theorem isDirectory_makeDirectories (hnames : ∀ n ∈ names, n ≠ "")
    (h : t.isDirectory q = true) : (t.makeDirectories cur names).1.isDirectory q = true := by
  rw [isDirectory_iff] at h ⊢
  rcases get?_makeDirectories hnames q with hq | ⟨hnone, _⟩
  · rw [hq, h]
  · rw [hnone] at h
    cases h

/-- What names may be, when directories are made along them. -/
def AreSteps (names : List String) : Prop :=
  ∀ n ∈ names, n ≠ "" ∧ '/' ∉ n.toList ∧ '\x00' ∉ n.toList

theorem AreSteps.ne_empty (h : AreSteps names) : ∀ n ∈ names, n ≠ "" := fun n hn => (h n hn).1

theorem isProper_step (hcur : cur.IsProper) {name : String}
    (hname : name ≠ "" ∧ '/' ∉ name.toList ∧ '\x00' ∉ name.toList) :
    (Place.step cur name).IsProper := by
  rw [Place.step]
  split_ifs with hdot hup
  · exact hcur
  · exact hcur.dropLast
  · exact hcur.append ⟨hname.1, fun h => hdot (.inl h), hup, hname.2⟩

theorem isProper_walk (hcur : cur.IsProper) (hnames : AreSteps names) :
    (Place.walk cur names).IsProper := by
  induction names generalizing cur with
  | nil => exact hcur
  | cons n ns ih =>
    exact ih (isProper_step hcur (hnames n List.mem_cons_self))
      fun m hm => hnames m (List.mem_cons_of_mem _ hm)

/-- What is true of a tree stays true when directories are made, if it does with each of them. -/
theorem makeDirectories_induction {P : FileTree → Prop}
    (hput : ∀ (u : FileTree) (q : Place), P u → q ≠ [] → q.IsProper → P (u.put q .directory))
    (ht : P t) (hcur : cur.IsProper) (hnames : AreSteps names) :
    P (t.makeDirectories cur names).1 := by
  induction names generalizing t cur with
  | nil => exact ht
  | cons n ns ih =>
    have hn := hnames n List.mem_cons_self
    have hns : AreSteps ns := fun m hm => hnames m (List.mem_cons_of_mem _ hm)
    have hproper := isProper_step hcur hn
    rcases makeDirectories_cases hn.1 t cur ns with
      ⟨hstop, -⟩ | ⟨hlead, -⟩ | ⟨hmake, hstep, -⟩
    · rw [hstop]
      exact ht
    · rw [hlead]
      exact ih ht hproper hns
    · rw [hmake]
      exact ih (hput _ _ ht (hstep ▸ List.concat_ne_nil n cur) hproper) hproper hns

theorem IsNamed.makeDirectories (ht : t.IsNamed) (hcur : cur.IsProper) (hnames : AreSteps names) :
    (t.makeDirectories cur names).1.IsNamed :=
  makeDirectories_induction (fun _ _ h => h.put) ht hcur hnames

theorem IsIndexed.makeDirectories (ht : t.IsIndexed) (hcur : cur.IsProper)
    (hnames : AreSteps names) : (t.makeDirectories cur names).1.IsIndexed :=
  makeDirectories_induction (fun _ _ h => h.put) ht hcur hnames

/-- The dots lead from a directory to a directory. -/
theorem WellFormed.isDirectory_step (ht : t.WellFormed) {name : String}
    (hdir : t.isDirectory cur = true)
    (h : name = "." ∨ name = ".." ∨ t.isDirectory (Place.step cur name) = true) :
    t.isDirectory (Place.step cur name) = true := by
  rcases h with rfl | rfl | h
  · exact hdir
  · exact ht.isDirectory_dropLast (isDirectory_iff.1 hdir)
  · exact h

theorem WellFormed.put_step (ht : t.WellFormed) {name : String}
    (hproper : (Place.step cur name).IsProper) (hdir : t.isDirectory cur = true)
    (hstep : Place.step cur name = cur ++ [name]) (hnone : t.get? (Place.step cur name) = none) :
    (t.put (Place.step cur name) .directory).WellFormed := by
  refine ht.put (hstep ▸ List.concat_ne_nil name cur) hproper ?_ ?_
  · rw [hstep, List.dropLast_concat]
    exact hdir
  · rw [isDirectory, hnone]
    rfl

theorem WellFormed.makeDirectories (ht : t.WellFormed) (hcur : cur.IsProper)
    (hdir : t.isDirectory cur = true) (hnames : AreSteps names) :
    (t.makeDirectories cur names).1.WellFormed ∧
      ((t.makeDirectories cur names).2 = true →
        ∀ q ∈ Place.waypoints cur names, (t.makeDirectories cur names).1.isDirectory q = true) := by
  induction names generalizing t cur with
  | nil =>
    refine ⟨ht, fun _ q hq => ?_⟩
    rw [List.mem_singleton.1 hq]
    exact hdir
  | cons n ns ih =>
    have hn := hnames n List.mem_cons_self
    have hns : AreSteps ns := fun m hm => hnames m (List.mem_cons_of_mem _ hm)
    have hproper := isProper_step hcur hn
    have hmore : ∀ {u : FileTree}, u.WellFormed → u.isDirectory cur = true →
        u.isDirectory (Place.step cur n) = true →
        (u.makeDirectories (Place.step cur n) ns).1.WellFormed ∧
          ((u.makeDirectories (Place.step cur n) ns).2 = true →
            ∀ q ∈ Place.waypoints cur (n :: ns),
              (u.makeDirectories (Place.step cur n) ns).1.isDirectory q = true) := by
      intro u hu hucur hustep
      obtain ⟨hwf, hall⟩ := ih hu hproper hustep hns
      refine ⟨hwf, fun hdone q hq => ?_⟩
      rcases List.mem_cons.1 hq with rfl | hq
      · exact isDirectory_makeDirectories hns.ne_empty hucur
      · exact hall hdone q hq
    rcases makeDirectories_cases hn.1 t cur ns with
      ⟨hstop, -⟩ | ⟨hlead, hway⟩ | ⟨hmake, hstep, hnone⟩
    · rw [hstop]
      exact ⟨ht, fun h => by cases h⟩
    · rw [hlead]
      exact hmore ht hdir (ht.isDirectory_step hdir hway)
    · rw [hmake]
      refine hmore (ht.put_step hproper hdir hstep hnone) ?_ ?_
      · rw [isDirectory_iff, get?_put_of_ne, ← isDirectory_iff]
        · exact hdir
        · rw [hstep]
          exact fun h => absurd (congrArg List.length h) (by simp)
      · rw [isDirectory_iff, get?_put_self (hstep ▸ List.concat_ne_nil n cur)]

end FileTree
end Bindery
