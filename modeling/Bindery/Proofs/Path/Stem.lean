import Bindery.Host.Stem
import Bindery.Proofs.Path.Parts

/-!
# Stems of paths

What is made of the components of a path does not depend on its spelling. So a host has one stem,
however its path is spelt.
-/
namespace Bindery
namespace Path
variable {p q root : Path}

/-! ### Components -/

theorem head?_piecesOf_ne_slash (p : Path) : p.piecesOf.head? ≠ some "/" := by
  intro hhead
  exact isPiece_of_mem_piecesOf (List.mem_of_mem_head? hhead) (by decide)

theorem isAbsolute_eq_of_components_eq (h : p.components = q.components) :
    p.isAbsolute = q.isAbsolute := by
  have hhead : ∀ r : Path, r.components.head? = some "/" ↔ r.isAbsolute = true := by
    intro r
    rw [components_eq]
    cases hr : r.isAbsolute with
    | true => simp
    | false => simpa using head?_piecesOf_ne_slash r
  rw [Bool.eq_iff_iff, ← hhead, ← hhead, h]

theorem piecesOf_eq_of_components_eq (h : p.components = q.components) :
    p.piecesOf = q.piecesOf := by
  have habs := isAbsolute_eq_of_components_eq h
  rw [components_eq, components_eq, habs] at h
  exact List.append_cancel_left h

theorem getLast?_piecesOf (p : Path) :
    p.piecesOf.getLast? = some "" ↔ p.hasSlashAtEnd = true := by
  cases hp : p.hasSlashAtEnd with
  | true => simp [piecesOf, hp]
  | false =>
    rw [piecesOf, hp]
    simp only [Bool.false_eq_true, if_false, List.append_nil, iff_false]
    exact fun hlast => ne_empty_of_mem_names (List.mem_of_getLast? hlast) rfl

theorem hasSlashAtEnd_eq_of_components_eq (h : p.components = q.components) :
    p.hasSlashAtEnd = q.hasSlashAtEnd := by
  rw [Bool.eq_iff_iff, ← getLast?_piecesOf, ← getLast?_piecesOf, piecesOf_eq_of_components_eq h]

theorem names_eq_of_components_eq (h : p.components = q.components) : p.names = q.names := by
  have hpieces := piecesOf_eq_of_components_eq h
  rw [piecesOf, piecesOf, hasSlashAtEnd_eq_of_components_eq h] at hpieces
  exact List.append_cancel_right hpieces

theorem generic_eq_of_components_eq (h : p.components = q.components) : p.generic = q.generic := by
  rw [generic, generic, isAbsolute_eq_of_components_eq h, names_eq_of_components_eq h,
    hasSlashAtEnd_eq_of_components_eq h]

theorem filename_eq_of_components_eq (h : p.components = q.components) :
    p.filename = q.filename := by
  rw [filename, filename, hasSlashAtEnd_eq_of_components_eq h, names_eq_of_components_eq h]

/-- A path below another one ends in the name that was added. -/
theorem getLast?_components_div (p : Path) {s : String} (h : IsName s) :
    (p / s).components.getLast? = some s := by
  rw [components_eq, piecesOf, hasSlashAtEnd_div p h, names_div_name p h.isPiece h.1]
  simp

/-! ### Leaving out the extension -/

/-- A list is what follows the last occurrence of a character, after what ends there. -/
theorem eq_append_of_takeWhile (c : Char) (cs : List Char) :
    ∃ front, cs = front ++ (cs.reverse.takeWhile (· ≠ c)).reverse ∧
      (front = [] ∨ front.getLast? = some c) := by
  refine ⟨(cs.reverse.dropWhile (· ≠ c)).reverse, ?_, ?_⟩
  · rw [← List.reverse_append, List.takeWhile_append_dropWhile, List.reverse_reverse]
  · by_cases hnil : cs.reverse.dropWhile (· ≠ c) = []
    · rw [hnil]
      exact .inl rfl
    · have hhead := List.head_dropWhile_not _ hnil
      rw [decide_eq_false_iff_not, not_not] at hhead
      rw [List.getLast?_reverse, List.head?_eq_some_head hnil, hhead]
      exact .inr rfl

/-- A path is its last piece after what ends in a slash. -/
theorem exists_front (p : Path) : ∃ front last : String, p.text = front ++ last ∧ IsPiece last ∧
    (front = "" ∨ front.toList.getLast? = some '/') := by
  obtain ⟨front, htext, hfront⟩ := eq_append_of_takeWhile '/' p.text.toList
  refine ⟨String.ofList front,
    String.ofList (p.text.toList.reverse.takeWhile (· ≠ '/')).reverse, ?_, ?_, ?_⟩
  · rw [← String.toList_inj, String.toList_append, String.toList_ofList, String.toList_ofList]
    exact htext
  · rw [IsPiece, String.toList_ofList, List.mem_reverse]
    intro hslash
    simpa using List.mem_takeWhile_imp hslash
  · rw [String.toList_ofList]
    refine hfront.imp_left ?_
    rintro rfl
    rfl

/-- A name is its stem and its extension. -/
theorem splitExtension_append (name : String) :
    (splitExtension name).1 ++ (splitExtension name).2 = name := by
  rw [splitExtension]
  split_ifs with h
  · exact String.append_empty
  · obtain ⟨-, -, hlength⟩ : name ≠ ".." ∧ _ ∧ _ := by simpa only [not_or] using h
    obtain ⟨front, htext, hfront⟩ := eq_append_of_takeWhile '.' name.toList
    rw [← String.toList_inj, String.toList_append, String.toList_ofList, String.toList_ofList]
    generalize name.toList.reverse.takeWhile (· ≠ '.') = tail at *
    rcases hfront with rfl | hlast
    · rw [htext, List.nil_append, List.length_reverse] at hlength
      exact absurd rfl hlength
    · obtain ⟨stem, rfl⟩ := List.getLast?_eq_some_iff.1 hlast
      have htake : (stem ++ ['.'] ++ tail.reverse).length - tail.length - 1 = stem.length := by
        simp only [List.length_append, List.length_reverse, List.length_singleton]
        omega
      rw [htext, htake, List.append_assoc, List.take_left, List.singleton_append]

theorem splitExtension_fst_ne_empty {name : String} (h : name ≠ "") :
    (splitExtension name).1 ≠ "" := by
  rw [splitExtension]
  split_ifs with hwhole
  · exact h
  · obtain ⟨-, hstem, -⟩ : name ≠ ".." ∧ _ ∧ _ := by simpa only [not_or] using hwhole
    intro hempty
    rw [← String.toList_inj, String.toList_ofList] at hempty
    exact hstem hempty

theorem withoutExtension_of_extension_eq_empty (h : p.extension = "") :
    p.withoutExtension = p := by
  rw [withoutExtension, h, String.length_empty, Nat.sub_zero, ← String.length_toList,
    List.take_length, String.ofList_toList]

/-- A piece after what ends in a slash is the last name. -/
theorem components_append_piece {front s : String}
    (hfront : front = "" ∨ front.toList.getLast? = some '/') (h : IsPiece s) (hne : s ≠ "") :
    names ⟨front ++ s⟩ = names ⟨front⟩ ++ [s] ∧ hasSlashAtEnd ⟨front ++ s⟩ = false ∧
      isAbsolute ⟨front ++ s⟩ = isAbsolute ⟨front⟩ := by
  have hs : s.toList ≠ [] := by simpa using hne
  refine ⟨?_, ?_, ?_⟩
  · rcases hfront with rfl | hslash
    · rw [String.empty_append, names_empty, List.nil_append, names_of_isPiece h hne]
    · rw [names_append_of_slash hslash, names_of_isPiece h hne]
  · rw [hasSlashAtEnd, Bool.and_eq_false_iff]
    refine .inr (decide_eq_false fun hslash => ?_)
    rw [String.toList_append, List.getLast?_append_of_ne_nil _ hs] at hslash
    exact h (List.mem_of_getLast? hslash)
  · rcases hfront with rfl | hslash
    · rw [String.empty_append, isAbsolute_of_isPiece h]
      rfl
    · have hfront : front ≠ "" := by
        rintro rfl
        cases hslash
      rw [isAbsolute, isAbsolute, head?_append s hfront]

theorem components_withoutExtension (h : p.extension ≠ "") :
    p.withoutExtension.components =
      (if p.isAbsolute then ["/"] else []) ++ (p.names.dropLast ++ [p.stem]) := by
  obtain ⟨front, last, htext, hpiece, hfront⟩ := exists_front p
  obtain rfl : p = ⟨front ++ last⟩ := congrArg Path.mk htext
  have hlast : last ≠ "" := by
    rintro rfl
    refine h ?_
    rw [String.append_empty, extension, filename]
    split_ifs with hslash
    · rfl
    · rcases hfront with rfl | hslash'
      · rfl
      · rw [hasSlashAtEnd, hslash', Bool.and_eq_true, not_and] at hslash
        have hnil : names ⟨front⟩ = [] := by
          by_contra hne
          exact hslash (decide_eq_true hne) (decide_eq_true rfl)
        rw [hnil]
        rfl
  obtain ⟨hnames, hend, habs⟩ := components_append_piece hfront hpiece hlast
  have hfilename : filename ⟨front ++ last⟩ = last := by
    rw [filename, hend, hnames, List.getLast?_concat]
    rfl
  have hsplit := splitExtension_append last
  have hwithout : withoutExtension ⟨front ++ last⟩ = ⟨front ++ (splitExtension last).1⟩ := by
    have htext : front ++ last = front ++ (splitExtension last).1 ++ (splitExtension last).2 := by
      rw [String.append_assoc, hsplit]
    rw [withoutExtension, extension, hfilename, Path.mk.injEq, ← String.toList_inj,
      String.toList_ofList]
    dsimp only
    rw [htext, String.length_append, Nat.add_sub_cancel, String.toList_append,
      ← String.length_toList, List.take_left]
  have hstem : IsPiece (splitExtension last).1 := by
    intro hslash
    refine hpiece ?_
    rw [← hsplit, String.toList_append]
    exact List.mem_append_left _ hslash
  obtain ⟨hnames', hend', habs'⟩ :=
    components_append_piece hfront hstem (splitExtension_fst_ne_empty hlast)
  rw [hwithout, components_eq, piecesOf, hnames', hend', habs', habs, hnames, stem, hfilename]
  simp

theorem withoutExtension_components_congr (h : p.components = q.components) :
    p.withoutExtension.components = q.withoutExtension.components := by
  have hfilename := filename_eq_of_components_eq h
  have hextension : p.extension = q.extension := by rw [extension, extension, hfilename]
  by_cases hempty : p.extension = ""
  · rw [withoutExtension_of_extension_eq_empty hempty,
      withoutExtension_of_extension_eq_empty (hextension ▸ hempty), h]
  · rw [components_withoutExtension hempty, components_withoutExtension (hextension ▸ hempty),
      isAbsolute_eq_of_components_eq h, names_eq_of_components_eq h, stem, stem, hfilename]

theorem relativeTo_congr (h : p.components = q.components) :
    p.relativeTo root = q.relativeTo root := by
  rw [relativeTo, relativeTo, isAbsolute_eq_of_components_eq h, h]

end Path

namespace Host
variable {p q root : Path}

theorem plainStem_congr (h : p.components = q.components) : plainStem p = plainStem q := by
  rw [plainStem, plainStem, Path.stem, Path.stem, Path.filename_eq_of_components_eq h]

theorem pathStem_congr (h : p.components = q.components) : pathStem root p = pathStem root q := by
  have hbelow : p.relativeTo root = q.relativeTo root := Path.relativeTo_congr h
  rw [pathStem, pathStem, hbelow]
  split_ifs
  · rw [Path.generic_eq_of_components_eq (Path.withoutExtension_components_congr h)]
  · rfl

/-- Hosts with the same components are given the same stem. -/
theorem stemAmong_congr (hosts : List Path) (h : p.components = q.components) :
    stemAmong hosts root p = stemAmong hosts root q := by
  rw [stemAmong, stemAmong, plainStem_congr h, pathStem_congr h]

end Host
end Bindery
