import Bindery.Proofs.Path.Names

/-!
# Parts of a path

A path that is put together from its parts has these parts again, so the spelling with single
slashes names the same thing as the path it is made from. A path relative to a base begins at no
root.
-/
namespace Bindery.Path
open Text
variable {p q base : Path} {ns : List String}

/-- The names that a path can be made of. -/
def ArePieces (ns : List String) : Prop := ∀ n ∈ ns, n ≠ "" ∧ IsPiece n

theorem arePieces_names (p : Path) : ArePieces p.names := fun _ h =>
  ⟨ne_empty_of_mem_names h, isPiece_of_mem_names h⟩

theorem names_join (h : ArePieces ns) : names ⟨join "/" ns⟩ = ns := by
  induction ns with
  | nil => rfl
  | cons n ns ih =>
    obtain ⟨hne, hn⟩ := h n List.mem_cons_self
    cases ns with
    | nil => exact names_of_isPiece hn hne
    | cons m ms =>
      have hms : ArePieces (m :: ms) := fun k hk => h k (List.mem_cons_of_mem _ hk)
      rw [join_cons_cons, names_append_slash, names_of_isPiece hn hne, ih hms]
      rfl

theorem names_ofParts (h : ArePieces ns) (a s : Bool) : (ofParts a ns s).names = ns := by
  have hfront (t : String) : names ⟨(if a then "/" else "") ++ t⟩ = names ⟨t⟩ := by
    cases a
    · simp
    · exact names_append_of_slash (a := "/") rfl
  have hend : names ⟨join "/" ns ++ if s ∧ ns ≠ [] then "/" else ""⟩ = names ⟨join "/" ns⟩ := by
    split
    · simpa using names_append_slash (join "/" ns) ""
    · simp
  rw [ofParts, String.append_assoc, hfront, hend, names_join h]

theorem join_ne_empty (h : ArePieces ns) (hne : ns ≠ []) : join "/" ns ≠ "" := by
  intro he
  have := names_join h
  rw [he] at this
  exact hne this.symm

theorem head?_join_ne_slash (h : ArePieces ns) : (join "/" ns).toList.head? ≠ some '/' := by
  cases ns with
  | nil => simp
  | cons n ns =>
    obtain ⟨hne, hn⟩ := h n List.mem_cons_self
    have hhead : n.toList.head? ≠ some '/' := fun he => hn (List.mem_of_mem_head? he)
    cases ns with
    | nil => exact hhead
    | cons m ms =>
      rw [join_cons_cons, String.append_assoc, head?_append _ hne]
      exact hhead

theorem isAbsolute_ofParts (h : ArePieces ns) (a s : Bool) : (ofParts a ns s).isAbsolute = a := by
  cases a
  · by_cases hns : ns = []
    · simp [ofParts, isAbsolute, hns]
    · simp only [ofParts, isAbsolute, Bool.false_eq_true, if_false, String.empty_append]
      rw [head?_append _ (join_ne_empty h hns)]
      exact decide_eq_false (head?_join_ne_slash h)
  · simp [ofParts, isAbsolute]

theorem getLast?_join_ne_slash (h : ArePieces ns) :
    (join "/" ns).toList.getLast? ≠ some '/' := by
  induction ns with
  | nil => simp
  | cons n ns ih =>
    obtain ⟨hne, hn⟩ := h n List.mem_cons_self
    cases ns with
    | nil => exact fun he => hn (List.mem_of_getLast? he)
    | cons m ms =>
      have hms : ArePieces (m :: ms) := fun k hk => h k (List.mem_cons_of_mem _ hk)
      have hjoin : (join "/" (m :: ms)).toList ≠ [] := by simpa using join_ne_empty hms (by simp)
      rw [join_cons_cons, String.toList_append, List.getLast?_append_of_ne_nil _ hjoin]
      exact ih hms

theorem hasSlashAtEnd_ofParts (h : ArePieces ns) (a s : Bool) :
    (ofParts a ns s).hasSlashAtEnd = (s && !ns.isEmpty) := by
  rw [hasSlashAtEnd, names_ofParts h]
  cases ns with
  | nil => simp
  | cons n ns =>
    have hjoin : (join "/" (n :: ns)).toList ≠ [] := by simpa using join_ne_empty h (by simp)
    cases s
    · have hlast := getLast?_join_ne_slash h
      simp only [ofParts, Bool.false_eq_true, false_and, if_false, String.append_empty,
        String.toList_append, List.getLast?_append_of_ne_nil _ hjoin]
      simp [hlast]
    · simp [ofParts]

theorem names_generic (p : Path) : names ⟨p.generic⟩ = p.names :=
  names_ofParts (arePieces_names p) _ _

theorem isAbsolute_generic (p : Path) : isAbsolute ⟨p.generic⟩ = p.isAbsolute :=
  isAbsolute_ofParts (arePieces_names p) _ _

theorem hasSlashAtEnd_generic (p : Path) : hasSlashAtEnd ⟨p.generic⟩ = p.hasSlashAtEnd := by
  rw [generic, hasSlashAtEnd_ofParts (arePieces_names p)]
  cases hn : p.names <;> simp [hasSlashAtEnd, hn]

theorem extension_generic (p : Path) : extension ⟨p.generic⟩ = p.extension := by
  rw [extension, filename, hasSlashAtEnd_generic, names_generic]
  rfl

/-- The spelling of a path made of parts is already the one with single slashes. -/
theorem generic_ofParts (h : ArePieces ns) (a s : Bool) :
    (ofParts a ns s).generic = (ofParts a ns s).text := by
  rw [generic, isAbsolute_ofParts h, names_ofParts h, hasSlashAtEnd_ofParts h]
  cases ns <;> simp [ofParts]

theorem isPiece_empty : IsPiece "" := by decide

theorem isAbsolute_div_eq_false {s : String} (h : IsPiece s) (hp : p.isAbsolute = false) :
    (p / s).isAbsolute = false := by
  by_cases hne : p.text = ""
  · rw [div_eq p h, if_pos hne]
    exact isAbsolute_of_isPiece h
  · rw [isAbsolute_div h hne, hp]

theorem isAbsolute_foldl_div_eq_false {cs : List String} (h : ∀ c ∈ cs, IsPiece c)
    (hp : p.isAbsolute = false) : (cs.foldl (· / ·) p).isAbsolute = false := by
  induction cs generalizing p with
  | nil => exact hp
  | cons c cs ih =>
    exact ih (fun d hd => h d (List.mem_cons_of_mem _ hd))
      (isAbsolute_div_eq_false (h c List.mem_cons_self) hp)

theorem isAbsolute_div_of_isAbsolute (s : String) (hp : p.isAbsolute = true) :
    (p / s).isAbsolute = true := by
  have hne : p.text ≠ "" := by
    rintro he
    simp [isAbsolute, he] at hp
  rw [div_eq_append, append]
  split_ifs with h hf
  · exact h.resolve_right (by simpa [isEmpty] using hne)
  · simpa only [isAbsolute, head?_append s hne] using hp
  · simpa only [isAbsolute, String.append_assoc, head?_append _ hne] using hp

theorem dropCommon_suffix (as bs : List String) : (dropCommon as bs).1 <:+ as := by
  induction as generalizing bs with
  | nil => simp [dropCommon]
  | cons a as ih =>
    cases bs with
    | nil => simp [dropCommon]
    | cons b bs =>
      simp only [dropCommon]
      split_ifs
      · exact (ih bs).trans (List.suffix_cons a as)
      · exact List.suffix_refl _

/-- The components after the root. -/
def piecesOf (p : Path) : List String := p.names ++ if p.hasSlashAtEnd then [""] else []

theorem components_eq (p : Path) :
    p.components = (if p.isAbsolute then ["/"] else []) ++ p.piecesOf := by
  rw [components, piecesOf, List.append_assoc]

theorem isPiece_of_mem_piecesOf {s : String} (h : s ∈ p.piecesOf) : IsPiece s := by
  rcases List.mem_append.1 h with h | h
  · exact isPiece_of_mem_names h
  · split_ifs at h
    · rw [List.mem_singleton.1 h]
      exact isPiece_empty
    · exact absurd h List.not_mem_nil

/-- What two paths do not have in common lies after the root, if both or none begin there. -/
theorem isPiece_of_mem_dropCommon {s : String} (habs : p.isAbsolute = base.isAbsolute)
    (h : s ∈ (dropCommon p.components base.components).1) : IsPiece s := by
  rw [components_eq, components_eq, ← habs] at h
  cases ha : p.isAbsolute <;> rw [ha] at h
  · exact isPiece_of_mem_piecesOf ((dropCommon_suffix _ _).subset h)
  · simp only [if_true, List.singleton_append, dropCommon] at h
    exact isPiece_of_mem_piecesOf ((dropCommon_suffix _ _).subset h)

theorem isAbsolute_relativeTo (p base : Path) : (p.relativeTo base).isAbsolute = false := by
  unfold relativeTo
  split_ifs with habs
  · rfl
  · split
    · rfl
    · rename_i rest up _ heq
      have hpieces : ∀ s ∈ rest, IsPiece s := fun s hs =>
        isPiece_of_mem_dropCommon (not_not.1 habs) (by rw [heq]; exact hs)
      dsimp only
      split_ifs
      · rfl
      · rfl
      · refine isAbsolute_foldl_div_eq_false (fun c hc => ?_) rfl
        rcases List.mem_append.1 hc with hc | hc
        · rw [List.eq_of_mem_replicate hc]
          decide
        · exact hpieces c hc

theorem isAbsolute_parent (h : p.isAbsolute = true) : p.parent.isAbsolute = true := by
  unfold parent
  split_ifs with hn
  · exact h
  · dsimp only
    split_ifs with hb
    · rfl
    · have hne := fun he => hb ⟨he, h⟩
      simp only [isAbsolute, decide_eq_true_eq] at h ⊢
      set front := (p.text.toList.reverse.dropWhile (· ≠ '/')).dropWhile (· = '/') with hfront
      have hsuffix : front <:+ p.text.toList.reverse :=
        (List.dropWhile_suffix _).trans (List.dropWhile_suffix _)
      obtain ⟨rest, hrest⟩ := List.reverse_prefix.2 hsuffix
      rw [List.reverse_reverse] at hrest
      rw [← hrest, List.head?_append_of_ne_nil _ (by simpa using hne)] at h
      simpa using h

end Bindery.Path
