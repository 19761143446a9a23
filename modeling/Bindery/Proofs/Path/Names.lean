import Mathlib
import Bindery.Path

/-!
# Names along a path

The names of a path below another one are the names of the other path followed by its own, and a
path relative to a base begins at no root. These facts only look at how paths are spelled.
-/
namespace Bindery
open Text

namespace Text
variable {sep c : Char} {cs ds piece : List Char}

theorem splitOn_of_not_mem (h : sep ∉ cs) : splitOn sep cs = [cs] := by
  induction cs with
  | nil => rfl
  | cons d ds ih =>
    obtain ⟨hd, hds⟩ := List.ne_and_not_mem_of_not_mem_cons h
    simp only [splitOn, if_neg (Ne.symm hd), ih hds]

theorem splitOn_append_cons (cs ds : List Char) :
    splitOn sep (cs ++ sep :: ds) = splitOn sep cs ++ splitOn sep ds := by
  induction cs with
  | nil => simp [splitOn]
  | cons c cs ih =>
    simp only [List.cons_append, splitOn, ih]
    split
    · rfl
    · cases h : splitOn sep cs with
      | nil => exact absurd h (splitOn_ne_nil sep cs)
      | cons p ps => rfl

theorem not_mem_of_mem_splitOn (h : piece ∈ splitOn sep cs) : sep ∉ piece := by
  induction cs generalizing piece with
  | nil =>
    rw [List.mem_singleton.1 h]
    exact List.not_mem_nil
  | cons c cs ih =>
    simp only [splitOn] at h
    split at h
    · rcases List.mem_cons.1 h with rfl | h
      · exact List.not_mem_nil
      · exact ih h
    · rename_i hc
      cases hs : splitOn sep cs with
      | nil => exact absurd hs (splitOn_ne_nil sep cs)
      | cons p ps =>
        rw [hs] at h ih
        rcases List.mem_cons.1 h with rfl | h
        · exact List.not_mem_cons_of_ne_of_not_mem (Ne.symm hc) (ih List.mem_cons_self)
        · exact ih (List.mem_cons_of_mem _ h)

theorem mem_of_mem_splitOn (h : piece ∈ splitOn sep cs) (hc : c ∈ piece) : c ∈ cs := by
  induction cs generalizing piece with
  | nil =>
    rw [List.mem_singleton.1 h] at hc
    exact hc
  | cons d ds ih =>
    simp only [splitOn] at h
    split at h
    · rcases List.mem_cons.1 h with rfl | h
      · exact absurd hc List.not_mem_nil
      · exact List.mem_cons_of_mem _ (ih h hc)
    · cases hs : splitOn sep ds with
      | nil => exact absurd hs (splitOn_ne_nil sep ds)
      | cons p ps =>
        rw [hs] at h ih
        rcases List.mem_cons.1 h with rfl | h
        · rcases List.mem_cons.1 hc with rfl | hc
          · exact List.mem_cons_self
          · exact List.mem_cons_of_mem _ (ih List.mem_cons_self hc)
        · exact List.mem_cons_of_mem _ (ih (List.mem_cons_of_mem _ h) hc)

/-- Every character but the separator is in one of the pieces. -/
theorem exists_mem_splitOn (hc : c ∈ cs) (hne : c ≠ sep) : ∃ piece ∈ splitOn sep cs, c ∈ piece := by
  induction cs with
  | nil => exact absurd hc List.not_mem_nil
  | cons d ds ih =>
    simp only [splitOn]
    split
    · rename_i hd
      rcases List.mem_cons.1 hc with rfl | hc
      · exact absurd hd hne
      · obtain ⟨q, hq, hcq⟩ := ih hc
        exact ⟨q, List.mem_cons_of_mem _ hq, hcq⟩
    · cases hs : splitOn sep ds with
      | nil => exact absurd hs (splitOn_ne_nil sep ds)
      | cons p ps =>
        rw [hs] at ih
        rcases List.mem_cons.1 hc with rfl | hc
        · exact ⟨c :: p, List.mem_cons_self, List.mem_cons_self⟩
        · obtain ⟨q, hq, hcq⟩ := ih hc
          rcases List.mem_cons.1 hq with rfl | hq
          · exact ⟨d :: q, List.mem_cons_self, List.mem_cons_of_mem _ hcq⟩
          · exact ⟨q, List.mem_cons_of_mem _ hq, hcq⟩

theorem dropPrefix?_append (front rest : List Char) :
    (front ++ rest).dropPrefix? front = some rest :=
  List.dropPrefix?_eq_some_iff.2 ⟨front, rfl, beq_self_eq_true front⟩

end Text

namespace Path
variable {p q : Path} {s t : String}

/-- What may name a file in a directory. -/
def IsName (s : String) : Prop :=
  s ≠ "" ∧ s ≠ "." ∧ s ≠ ".." ∧ '/' ∉ s.toList ∧ '\x00' ∉ s.toList

instance : DecidablePred IsName := fun s =>
  inferInstanceAs (Decidable (s ≠ "" ∧ s ≠ "." ∧ s ≠ ".." ∧ '/' ∉ s.toList ∧ '\x00' ∉ s.toList))

/-- A piece of a path: it has no slash. -/
def IsPiece (s : String) : Prop := '/' ∉ s.toList

instance : DecidablePred IsPiece := fun s => inferInstanceAs (Decidable ('/' ∉ s.toList))

theorem IsName.isPiece (h : IsName s) : IsPiece s := h.2.2.2.1

theorem mem_names {n : String} :
    n ∈ p.names ↔ n.toList ∈ splitOn '/' p.text.toList ∧ n ≠ "" := by
  simp only [names, List.mem_map, List.mem_filter, ne_eq, decide_not, Bool.not_eq_eq_eq_not,
    Bool.not_true, decide_eq_false_iff_not]
  constructor
  · rintro ⟨cs, ⟨hcs, hne⟩, rfl⟩
    exact ⟨by simpa using hcs, by simpa using hne⟩
  · rintro ⟨hn, hne⟩
    exact ⟨n.toList, ⟨hn, by simpa using hne⟩, by simp⟩

theorem ne_empty_of_mem_names {n : String} (h : n ∈ p.names) : n ≠ "" := (mem_names.1 h).2

theorem isPiece_of_mem_names {n : String} (h : n ∈ p.names) : IsPiece n :=
  not_mem_of_mem_splitOn (mem_names.1 h).1

theorem mem_text_of_mem_names {n : String} {c : Char} (h : n ∈ p.names) (hc : c ∈ n.toList) :
    c ∈ p.text.toList :=
  mem_of_mem_splitOn (mem_names.1 h).1 hc

@[simp] theorem names_empty : names ⟨""⟩ = [] := rfl

theorem names_of_isPiece (h : IsPiece s) (hne : s ≠ "") : names ⟨s⟩ = [s] := by
  have hs : s.toList ≠ [] := by simpa using hne
  simp [names, splitOn_of_not_mem h, hs]

theorem names_append_slash (a b : String) :
    names ⟨a ++ "/" ++ b⟩ = names ⟨a⟩ ++ names ⟨b⟩ := by
  have h : (a ++ "/" ++ b).toList = a.toList ++ '/' :: b.toList := by simp
  simp only [names, h, splitOn_append_cons, List.filter_append, List.map_append]

/-- A text that ends in a slash adds its names to those of what follows. -/
theorem names_append_of_slash {a b : String} (h : a.toList.getLast? = some '/') :
    names ⟨a ++ b⟩ = names ⟨a⟩ ++ names ⟨b⟩ := by
  obtain ⟨front, hfront⟩ := List.getLast?_eq_some_iff.1 h
  have ha : a = String.ofList front ++ "/" := by
    rw [← String.toList_inj, hfront]
    simp
  have hself : names ⟨String.ofList front ++ "/"⟩ = names ⟨String.ofList front⟩ := by
    have := names_append_slash (String.ofList front) ""
    simpa using this
  rw [ha, hself, ← names_append_slash]

theorem eq_slash_of_names_eq_nil (h : p.names = []) {c : Char} (hc : c ∈ p.text.toList) :
    c = '/' := by
  by_contra hne
  obtain ⟨piece, hpiece, hcp⟩ := exists_mem_splitOn hc hne
  have : String.ofList piece ∈ p.names := by
    refine mem_names.2 ⟨by simpa using hpiece, ?_⟩
    rintro he
    rw [← String.toList_inj, String.toList_ofList] at he
    simp [he] at hcp
  simp [h] at this

/-- A path without a filename that is not empty ends in a slash. -/
theorem getLast?_of_filename_eq_empty (hp : p.text ≠ "") (h : p.filename = "") :
    p.text.toList.getLast? = some '/' := by
  by_cases hs : p.hasSlashAtEnd = true
  · have hs' := hs
    simp only [hasSlashAtEnd, Bool.and_eq_true, decide_eq_true_eq] at hs'
    exact hs'.2
  · simp only [filename, hs] at h
    have hnil : p.names = [] := by
      cases hl : p.names.getLast? with
      | none => exact List.getLast?_eq_none_iff.1 hl
      | some n =>
        rw [hl] at h
        exact absurd h (ne_empty_of_mem_names (List.mem_of_getLast? hl))
    have hne : p.text.toList ≠ [] := by simpa using hp
    rw [List.getLast?_eq_some_getLast hne]
    exact congrArg some (eq_slash_of_names_eq_nil hnil (List.getLast_mem hne))

theorem isAbsolute_of_isPiece (h : IsPiece s) : isAbsolute ⟨s⟩ = false := by
  simp only [isAbsolute, decide_eq_false_iff_not]
  intro hhead
  exact h (List.mem_of_mem_head? hhead)

theorem div_eq (p : Path) (h : IsPiece s) :
    p / s = if p.text = "" then ⟨s⟩
      else if p.filename = "" then ⟨p.text ++ s⟩ else ⟨p.text ++ "/" ++ s⟩ := by
  rw [div_eq_append, append, isAbsolute_of_isPiece h]
  by_cases hp : p.text = ""
  · simp [isEmpty, hp]
  · simp [isEmpty, hp]

theorem names_div (p : Path) (h : IsPiece s) : (p / s).names = p.names ++ names ⟨s⟩ := by
  rw [div_eq p h]
  split_ifs with hp hf
  · obtain ⟨text⟩ := p
    dsimp only at hp
    subst hp
    rfl
  · exact names_append_of_slash (getLast?_of_filename_eq_empty hp hf)
  · exact names_append_slash p.text s

theorem names_div_name (p : Path) (h : IsPiece s) (hne : s ≠ "") :
    (p / s).names = p.names ++ [s] := by
  rw [names_div p h, names_of_isPiece h hne]

theorem hasSlashAtEnd_div (p : Path) (h : IsName s) : (p / s).hasSlashAtEnd = false := by
  have hne : s.toList ≠ [] := by simpa using h.1
  have hlast : (p / s).text.toList.getLast? = s.toList.getLast? := by
    rw [div_eq p h.isPiece]
    split_ifs
    · rfl
    · rw [String.toList_append, List.getLast?_append_of_ne_nil _ hne]
    · rw [String.toList_append, List.getLast?_append_of_ne_nil _ hne]
  rw [hasSlashAtEnd, hlast, Bool.and_eq_false_iff]
  refine .inr (decide_eq_false ?_)
  intro hslash
  exact h.isPiece (List.mem_of_getLast? hslash)

/-- A path below another one is known by its last name. -/
theorem filename_div_name (p : Path) (h : IsName s) : (p / s).filename = s := by
  rw [filename, hasSlashAtEnd_div p h, names_div_name p h.isPiece h.1, List.getLast?_concat]
  rfl

theorem head?_append {a : String} (b : String) (ha : a ≠ "") :
    (a ++ b).toList.head? = a.toList.head? := by
  have hne : a.toList ≠ [] := by simpa using ha
  rw [String.toList_append, List.head?_append_of_ne_nil _ hne]

theorem isAbsolute_div (h : IsPiece s) (hp : p.text ≠ "") : (p / s).isAbsolute = p.isAbsolute := by
  rw [div_eq p h, if_neg hp]
  split_ifs
  · simp only [isAbsolute, head?_append s hp]
  · simp only [isAbsolute, String.append_assoc, head?_append _ hp]

theorem head?_text_div (h : IsPiece s) (hp : p.text ≠ "") :
    (p / s).text.toList.head? = p.text.toList.head? := by
  rw [div_eq p h, if_neg hp]
  split_ifs
  · exact head?_append s hp
  · dsimp only
    rw [String.append_assoc]
    exact head?_append _ hp

theorem text_div_ne_empty (p : Path) (h : IsPiece s) (hne : s ≠ "") : (p / s).text ≠ "" := by
  rw [div_eq p h]
  split_ifs <;> simp [hne]

/-- Two names may be joined before they are put below a path. -/
theorem div_div (p : Path) {a b : String} (ha : IsName a) (hb : IsName b) :
    p / (a ++ "/" ++ b) = p / a / b := by
  have habsolute : isAbsolute ⟨a ++ "/" ++ b⟩ = false := by
    rw [isAbsolute, decide_eq_false_iff_not, String.append_assoc, String.toList_append]
    intro hhead
    refine ha.2.2.2.1 (List.mem_of_mem_head? ?_)
    rwa [List.head?_append_of_ne_nil _ (by simpa using ha.1)] at hhead
  rw [div_eq _ hb.isPiece, if_neg (text_div_ne_empty p ha.isPiece ha.1), filename_div_name p ha,
    if_neg ha.1, div_eq p ha.isPiece, div_eq_append, append, habsolute]
  by_cases hp : p.text = ""
  · simp [isEmpty, hp]
  · by_cases hfilename : p.filename = ""
    · simp [isEmpty, hp, hfilename, String.append_assoc]
    · simp [isEmpty, hp, hfilename, String.append_assoc]

/-- The characters of a path below another one. -/
theorem mem_text_div (h : IsPiece s) {c : Char} (hc : c ∈ (p / s).text.toList) :
    c ∈ p.text.toList ∨ c = '/' ∨ c ∈ s.toList := by
  rw [div_eq p h] at hc
  split_ifs at hc
  · exact .inr (.inr hc)
  · simp only [String.toList_append, List.mem_append] at hc
    exact hc.elim .inl (.inr ∘ .inr)
  · simp only [String.toList_append, List.mem_append] at hc
    rcases hc with (hc | hc) | hc
    · exact .inl hc
    · exact .inr (.inl (by simpa using hc))
    · exact .inr (.inr hc)

end Path
end Bindery
