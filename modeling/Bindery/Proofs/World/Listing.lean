import Bindery.Proofs.World.Canonical

/-!
# Listings of trees

In a tree with one entry for each place all are listed once. So trees with the same entries list the same, up
to the order.
-/
namespace Bindery.FileTree
variable {t : FileTree} {p : Place} {name : String} {names : List String} {e : Entry}

theorem mem_children (ht : t.IsIndexed) :
    (name, e) ∈ t.children p ↔ t.get? (p ++ [name]) = some e := by
  rw [children, List.mem_filterMap]
  constructor
  · rintro ⟨⟨q, f⟩, hmem, hlisted⟩
    dsimp only at hlisted
    cases hlast : q.getLast? with
    | none =>
      rw [hlast] at hlisted
      cases hlisted
    | some last =>
      rw [hlast] at hlisted
      dsimp only at hlisted
      split_ifs at hlisted with hp
      cases hlisted
      obtain ⟨front, rfl⟩ := List.getLast?_eq_some_iff.1 hlast
      rw [List.dropLast_concat] at hp
      rw [← hp]
      exact ht.get?_of_mem hmem
  · intro h
    refine ⟨(p ++ [name], e), mem_of_get? (List.concat_ne_nil _ _) h, ?_⟩
    dsimp only
    rw [List.getLast?_concat]
    dsimp only
    rw [if_pos (List.dropLast_concat)]

/-- The children of a directory come in the order of the entries. -/
theorem map_children_sublist (t : FileTree) (p : Place) :
    ((t.children p).map fun x => p ++ [x.1]).Sublist (t.entries.map (·.1)) := by
  obtain ⟨l⟩ := t
  induction l with
  | nil => exact List.Sublist.slnil
  | cons x l ih =>
    obtain ⟨q, e⟩ := x
    rw [children, List.filterMap_cons]
    dsimp only
    cases hlast : q.getLast? with
    | none => exact ih.cons _
    | some name =>
      dsimp only
      by_cases hp : q.dropLast = p
      · obtain ⟨front, rfl⟩ := List.getLast?_eq_some_iff.1 hlast
        rw [List.dropLast_concat] at hp
        rw [List.dropLast_concat, if_pos hp, hp]
        exact ih.cons_cons _
      · rw [if_neg hp]
        exact ih.cons _

theorem nodup_children (ht : t.IsIndexed) (p : Place) : (t.children p).Nodup :=
  List.Nodup.of_map _ (ht.nodup.sublist (map_children_sublist t p))

/-- Trees with the same entries in a directory list it alike. -/
theorem perm_children {t' : FileTree} (ht : t.IsIndexed) (ht' : t'.IsIndexed)
    (h : ∀ name, t.get? (p ++ [name]) = t'.get? (p ++ [name])) :
    (t.children p).Perm (t'.children p) := by
  refine (List.perm_ext_iff_of_nodup (nodup_children ht p) (nodup_children ht' p)).2 ?_
  rintro ⟨name, e⟩
  rw [mem_children ht, mem_children ht', h]

theorem mem_filesBelow (ht : t.IsIndexed) :
    names ∈ t.filesBelow p ↔ ∃ content, t.get? (p ++ names) = some (.file content) := by
  rw [filesBelow, List.mem_filterMap]
  constructor
  · rintro ⟨⟨q, f⟩, hmem, hlisted⟩
    cases f with
    | directory => cases hlisted
    | file content =>
      dsimp only at hlisted
      split_ifs at hlisted with hp
      cases hlisted
      obtain ⟨rest, rfl⟩ := List.isPrefixOf_iff_prefix.1 hp
      rw [List.drop_left]
      exact ⟨content, ht.get?_of_mem hmem⟩
  · rintro ⟨content, h⟩
    have hne : p ++ names ≠ [] := by
      intro hnil
      rw [hnil] at h
      cases h
    refine ⟨(p ++ names, .file content), mem_of_get? hne h, ?_⟩
    dsimp only
    rw [if_pos (List.isPrefixOf_iff_prefix.2 (List.prefix_append _ _)), List.drop_left]

/-- The files below a directory come in the order of the entries. -/
theorem map_filesBelow_sublist (t : FileTree) (p : Place) :
    ((t.filesBelow p).map (p ++ ·)).Sublist (t.entries.map (·.1)) := by
  obtain ⟨l⟩ := t
  induction l with
  | nil => exact List.Sublist.slnil
  | cons x l ih =>
    obtain ⟨q, e⟩ := x
    rw [filesBelow, List.filterMap_cons]
    cases e with
    | directory => exact ih.cons _
    | file content =>
      dsimp only
      by_cases hp : p.isPrefixOf q = true
      · obtain ⟨rest, rfl⟩ := List.isPrefixOf_iff_prefix.1 hp
        rw [if_pos hp, List.drop_left]
        exact ih.cons_cons _
      · rw [if_neg hp]
        exact ih.cons _

theorem nodup_filesBelow (ht : t.IsIndexed) (p : Place) : (t.filesBelow p).Nodup :=
  List.Nodup.of_map _ (ht.nodup.sublist (map_filesBelow_sublist t p))

end Bindery.FileTree
