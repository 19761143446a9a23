import Bindery.Proofs.World.Listing
import Bindery.Proofs.World.Ready

/-!
# Actions that repeat

Two worlds that agree on some places cannot be told apart by an action that only looks at these and
only writes at these. What succeeds in the one then succeeds in the other with the same result, and
leaves worlds that agree on the places again.
-/
namespace Bindery
open FileTree

namespace Act
variable {α β γ : Type} {R : World → World → Prop}

/-- What succeeds in a world succeeds with the same result in the worlds that `R` relates it to,
and leaves worlds that `R` relates. The result has the property `Q`. -/
def Repeats (R : World → World → Prop) (Q : α → Prop) (m : Act α) : Prop :=
  ∀ (w v w' : World) (a : α), R w v → m.runOn w = (.ok a, w') →
    Q a ∧ ∃ v', m.runOn v = (.ok a, v') ∧ R w' v'

namespace Repeats
variable {Q : α → Prop} {Q' : β → Prop} {m : Act α} {f : α → Act β}

protected theorem pure {a : α} (h : Q a) : (pure a : Act α).Repeats R Q := by
  intro w v w' b hR hrun
  cases hrun
  exact ⟨h, v, rfl, hR⟩

protected theorem bind (hm : m.Repeats R Q) (hf : ∀ a, Q a → (f a).Repeats R Q') :
    (m >>= f).Repeats R Q' := by
  intro w v w' b hR hrun
  obtain ⟨a, u, ha, hb⟩ := bind_ok.1 hrun
  obtain ⟨hQ, u', ha', hR'⟩ := hm w v u a hR ha
  obtain ⟨hQ', v', hb', hR''⟩ := hf a hQ u u' w' b hR' hb
  exact ⟨hQ', v', bind_ok.2 ⟨a, u', ha', hb'⟩, hR''⟩

protected theorem note (hR : IgnoresLog R) (n : Note) : (note n).Repeats R fun _ => True := by
  intro w v w' a h hrun
  cases hrun
  exact ⟨trivial, _, runOn_note n, hR w v _ _ h⟩

protected theorem read {p : Path} {fault : FileFault}
    (hp : ∀ w v, R w v → w.read? p = v.read? p) : (read p fault).Repeats R fun _ => True := by
  intro w v w' a h hrun
  rw [runOn_read] at hrun
  obtain ⟨hread, rfl⟩ := Prod.mk.inj hrun
  refine ⟨trivial, v, ?_, h⟩
  rw [runOn_read, ← hp w v h, hread]

theorem copy {p q : Path} (hp : ∀ w v, R w v → w.read? p = v.read? p)
    (hput : ∀ content, (put q content .fileSystem).Repeats R fun _ => True) :
    (copy p q).Repeats R fun _ => True := by
  intro w v w' a h hrun
  obtain ⟨content, hread, hrun⟩ := copy_ok.1 hrun
  obtain ⟨-, v', hrun', hR⟩ := hput content w v w' a h hrun
  exact ⟨trivial, v', copy_ok.2 ⟨content, hp w v h ▸ hread, hrun'⟩, hR⟩

/-- What goes on from a listing repeats, if it does not depend on the order of the listing. The
listings are known to have the property `G`. -/
theorem list_bind {p : Path} {f : List (Path × Entry) → Act β} {G : List (Path × Entry) → Prop}
    (hp : ∀ w v l, R w v → w.list? p = some l → G l ∧ ∃ l', v.list? p = some l' ∧ l.Perm l')
    (hperm : ∀ l l', G l → l.Perm l' → f l = f l') (hf : ∀ l, G l → (f l).Repeats R Q') :
    (list p >>= f).Repeats R Q' := by
  intro w v w' b h hrun
  obtain ⟨l, u, hlist, hrest⟩ := bind_ok.1 hrun
  rw [runOn_list] at hlist
  cases hw : w.list? p with
  | none =>
    rw [hw] at hlist
    cases hlist
  | some entries =>
    rw [hw] at hlist
    cases hlist
    obtain ⟨hG, l', hl', hsame⟩ := hp w v _ h hw
    obtain ⟨hQ, v', hrest', hR⟩ := hf _ hG w v w' b h hrest
    have hlist' : (list p).runOn v = (.ok l', v) := by
      rw [runOn_list, hl']
      rfl
    exact ⟨hQ, v', bind_ok.2 ⟨l', v, hlist', hperm _ _ hG hsame ▸ hrest'⟩, hR⟩

theorem mapM {l : List γ} {g : γ → Act α} (hg : ∀ x ∈ l, (g x).Repeats R Q) :
    (l.mapM g).Repeats R fun as => ∀ a ∈ as, Q a := by
  induction l with
  | nil => exact Repeats.pure fun a ha => absurd ha List.not_mem_nil
  | cons x l ih =>
    rw [List.mapM_cons]
    refine Repeats.bind (hg x List.mem_cons_self) fun a ha => ?_
    refine Repeats.bind (ih fun y hy => hg y (List.mem_cons_of_mem _ hy)) fun as has => ?_
    refine Repeats.pure fun b hb => ?_
    obtain rfl | hb := List.mem_cons.1 hb
    · exact ha
    · exact has b hb

theorem get_bind {f : World → Act α} (hsame : ∀ w v, R w v → f w = f v)
    (hf : ∀ w, (f w).Repeats R Q) : ((get : Act World) >>= f).Repeats R Q := by
  intro w v w' a h hrun
  rw [runOn_get_bind] at hrun
  obtain ⟨hQ, v', hv, hR⟩ := hf w w v w' a h hrun
  exact ⟨hQ, v', by rw [runOn_get_bind, ← hsame w v h, hv], hR⟩

theorem forM {l : List β} {g : β → Act PUnit} (hg : ∀ x ∈ l, (g x).Repeats R fun _ => True) :
    (l.forM g).Repeats R fun _ => True := by
  induction l with
  | nil => exact Repeats.pure trivial
  | cons x l ih =>
    change (g x >>= fun _ => l.forM g).Repeats R _
    refine Repeats.bind (hg x List.mem_cons_self) fun _ _ => ?_
    exact ih fun y hy => hg y (List.mem_cons_of_mem _ hy)

theorem ofExcept (r : Except Failure α) : (Act.ofExcept r).Repeats R fun _ => True := by
  intro w v w' a h hrun
  obtain ⟨rfl, rfl⟩ := ofExcept_ok.1 hrun
  exact ⟨trivial, v, ofExcept_ok.2 ⟨rfl, rfl⟩, h⟩

end Repeats

/-- Steps that all succeed, each of which brings something about that no later one undoes. -/
theorem forM_ok {l : List γ} {g : γ → Act PUnit} {I : World → Prop} {G : γ → World → Prop}
    (hg : ∀ x ∈ l, ∀ u, I u → ∃ v, (g x).runOn u = (.ok ⟨⟩, v) ∧ I v ∧ G x v ∧
      ∀ y, G y u → G y v) {w : World} (hw : I w) :
    ∃ v, (l.forM g).runOn w = (.ok ⟨⟩, v) ∧ I v ∧ (∀ y, G y w → G y v) ∧ ∀ x ∈ l, G x v := by
  induction l generalizing w with
  | nil => exact ⟨w, rfl, hw, fun _ h => h, fun x hx => absurd hx List.not_mem_nil⟩
  | cons x l ih =>
    obtain ⟨u, hrun, hu, hx, hstays⟩ := hg x List.mem_cons_self w hw
    obtain ⟨v, hrest, hv, hstays', hall⟩ := ih (fun y hy => hg y (List.mem_cons_of_mem _ hy)) hu
    refine ⟨v, ?_, hv, fun y hy => hstays' y (hstays y hy), fun y hy => ?_⟩
    · change (g x >>= fun _ => l.forM g).runOn w = _
      rw [runOn_bind_of_ok hrun, hrest]
    · rcases List.mem_cons.1 hy with rfl | hy
      · exact hstays' _ hx
      · exact hall y hy

/-- Each of some steps that succeed together has succeeded from a world with what they keep. -/
theorem exists_of_forM_ok {l : List γ} {g : γ → Act PUnit} {I : World → Prop}
    (hg : ∀ x ∈ l, ∀ u u', I u → (g x).runOn u = (.ok ⟨⟩, u') → I u') {w v : World} (hw : I w)
    (h : (l.forM g).runOn w = (.ok ⟨⟩, v)) {x : γ} (hx : x ∈ l) :
    ∃ u u', I u ∧ (g x).runOn u = (.ok ⟨⟩, u') := by
  induction l generalizing w with
  | nil => exact absurd hx List.not_mem_nil
  | cons y l ih =>
    change (g y >>= fun _ => l.forM g).runOn w = _ at h
    obtain ⟨_, u, hfirst, hrest⟩ := bind_ok.1 h
    rcases List.mem_cons.1 hx with rfl | hx
    · exact ⟨w, u, hw, hfirst⟩
    · exact ih (fun z hz => hg z (List.mem_cons_of_mem _ hz))
        (hg y List.mem_cons_self w u hw hfirst) hrest hx

theorem put_ok {w : World} {p : Path} {q : Place} (hloc : w.locate p = some q)
    (hdir : w.tree.isDirectory q = false) (hparent : w.tree.isDirectory q.dropLast = true)
    (content : String) (failure : Failure) :
    (put p content failure).runOn w =
      (.ok ⟨⟩, { w with tree := w.tree.put q (.file content) }) := by
  rw [put, runOn_get_bind, hloc]
  dsimp only
  rw [if_neg]
  · rfl
  · rw [hdir, hparent]
    simp

end Act

namespace World

/-- Two worlds in which a directory is ready to write in, with the same entries at the places of
`P`. -/
structure Alike (cwd : Place) (out : Path) (P : Place → Prop) (w v : World) : Prop where
  left : w.IsReady cwd out
  right : v.IsReady cwd out
  entries : ∀ q, P q → w.tree.get? q = v.tree.get? q

namespace Alike
variable {cwd : Place} {out p : Path} {P kept : Place → Prop} {w v : World} {content : String}
  {failure : Failure} {name : String}

theorem ignoresLog : Act.IgnoresLog (Alike cwd out P) := fun _ _ _ _ h =>
  ⟨⟨h.left.cwd_eq, h.left.wellFormed, h.left.isDirectory⟩,
    ⟨h.right.cwd_eq, h.right.wellFormed, h.right.isDirectory⟩, h.entries⟩

theorem cwd_eq (h : Alike cwd out P w v) : w.cwd = v.cwd := h.left.cwd_eq.trans h.right.cwd_eq.symm

theorem isDirectory_eq (h : Alike cwd out P w v) {q : Place} (hq : P q) :
    w.tree.isDirectory q = v.tree.isDirectory q := by
  rw [FileTree.isDirectory, FileTree.isDirectory, h.entries q hq]

theorem lookup_eq (h : Alike cwd out P w v) (hp : ∀ q ∈ p.waypoints cwd, P q) :
    w.lookup p = v.lookup p :=
  lookup_congr h.cwd_eq fun q hq => h.isDirectory_eq (hp q (h.left.cwd_eq ▸ hq))

theorem get?_eq (h : Alike cwd out P w v) (hp : ∀ q ∈ p.waypoints cwd, P q) :
    w.get? p = v.get? p :=
  get?_congr h.cwd_eq fun q hq => h.entries q (hp q (h.left.cwd_eq ▸ hq))

theorem read?_eq (h : Alike cwd out P w v) (hp : ∀ q ∈ p.waypoints cwd, P q) :
    w.read? p = v.read? p := by
  rw [read?, read?, h.get?_eq hp]

/-- A directory is listed alike, up to the order of its entries, in worlds that are alike all the
way there and in it. -/
theorem list?_eq (h : Alike cwd out P w v) (hp : ∀ q ∈ p.waypoints cwd, P q)
    (hchildren : ∀ name, P (p.place cwd ++ [name])) {l : List (Path × Entry)}
    (hl : w.list? p = some l) :
    (∀ x ∈ l, ∃ name, Path.IsName name ∧ x.1 = p / name) ∧
      ∃ l', v.list? p = some l' ∧ l.Perm l' := by
  have hplace : ∀ place, w.locate p = some place → place = p.place cwd := by
    intro place hloc
    rw [locate_eq_some hloc, h.left.cwd_eq]
  have hloc' : v.locate p = w.locate p := by rw [locate, locate, h.lookup_eq hp]
  rw [list?] at hl ⊢
  rw [hloc']
  cases hloc : w.locate p with
  | none =>
    rw [hloc] at hl
    cases hl
  | some place =>
    rw [hloc] at hl
    obtain rfl := hplace place hloc
    dsimp only at hl ⊢
    rw [← h.isDirectory_eq (hp _ p.place_mem_waypoints)]
    split_ifs at hl ⊢
    cases hl
    refine ⟨fun x hx => ?_, _, rfl, List.Perm.map _ ?_⟩
    · obtain ⟨⟨name, e⟩, hchild, rfl⟩ := List.mem_map.1 hx
      have hindexed := h.left.wellFormed.isIndexed
      have hproper := hindexed.isNamed.isProper ((mem_children hindexed).1 hchild)
      exact ⟨name, hproper name (List.mem_append_right _ List.mem_cons_self), rfl⟩
    · exact perm_children h.left.wellFormed.isIndexed h.right.wellFormed.isIndexed
        fun name => h.entries _ (hchildren name)

/-- Files are put alike in worlds that are alike all the way there. -/
theorem put (hspares : (Act.put p content failure).Preserves (Spares cwd out kept))
    (hp : ∀ q ∈ p.waypoints cwd, P q) (hparent : P (p.place cwd).dropLast) :
    (Act.put p content failure).Repeats (Alike cwd out P) fun _ => True := by
  intro w v w' a h hrun
  have hw' := (hspares.of_ok hrun h.left).1
  rcases Act.put_cases w p content failure with herror | ⟨hloc, hdir, hparent', hput⟩
  · cases herror.symm.trans hrun
  cases hput.symm.trans hrun
  rw [h.left.cwd_eq] at hloc hdir hparent' hw' ⊢
  have hplace := hp _ p.place_mem_waypoints
  have hloc' : v.locate p = some (p.place cwd) := by
    rw [locate, ← h.lookup_eq hp]
    exact hloc
  have hdir' : v.tree.isDirectory (p.place cwd) = false := by rw [← h.isDirectory_eq hplace, hdir]
  have hrun' :=
    Act.put_ok hloc' hdir' (by rw [← h.isDirectory_eq hparent, hparent']) content failure
  have hne : p.place cwd ≠ [] := by
    intro hnil
    rw [hnil] at hdir
    cases hdir
  refine ⟨trivial, _, hrun', hw', (hspares.of_ok hrun' h.right).1, fun q hq => ?_⟩
  rw [FileTree.get?_put hne, FileTree.get?_put hne, h.entries q hq]

/-- Directories are made alike in worlds that are alike where they are made. -/
theorem createDirectories_div (hwhole : out.IsWhole) (hname : Path.IsName name)
    (hspares : (Act.createDirectories (out / name)).Preserves (Spares cwd out kept))
    (hp : P (out.place cwd ++ [name])) :
    (Act.createDirectories (out / name)).Repeats (Alike cwd out P) fun _ => True := by
  intro w v w' a h hrun
  have hw' := (hspares.of_ok hrun h.left).1
  have hne : out.place cwd ++ [name] ≠ [] := List.concat_ne_nil _ _
  have hdiv := h.right.createDirectories_div hwhole hname
  rw [h.left.createDirectories_div hwhole hname] at hrun
  rw [← h.entries _ hp] at hdiv
  by_cases hlong : (out / name).isTooLong = true
  · rw [if_pos hlong] at hrun
    cases hrun
  rw [if_neg hlong] at hrun hdiv
  cases hget : w.tree.get? (out.place cwd ++ [name]) with
  | some e =>
    rw [hget] at hrun hdiv
    cases e with
    | file content => cases hrun
    | directory =>
      cases hrun
      exact ⟨trivial, v, hdiv, h⟩
  | none =>
    rw [hget] at hrun hdiv
    dsimp only at hrun hdiv
    by_cases hlength : name.length > maxName
    · rw [if_pos hlength] at hrun
      cases hrun
    rw [if_neg hlength] at hrun hdiv
    cases hrun
    refine ⟨trivial, _, hdiv, hw', (hspares.of_ok hdiv h.right).1, fun q hq => ?_⟩
    rw [FileTree.get?_put hne, FileTree.get?_put hne, h.entries q hq]

end Alike
end World
end Bindery
