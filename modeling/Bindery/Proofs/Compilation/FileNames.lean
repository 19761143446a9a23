import Bindery.Proofs.Build.Honest
import Bindery.Proofs.Compilation.Generate
import Bindery.Proofs.Syntax.Spelling

/-!
# The files of a host

The files generated for a host are named by its stem, which is an identifier. Hosts of one
compilation have different stems, so they share no file.
-/
namespace Bindery
open Text
open Bindery.Path (IsName)

namespace Name

theorem isIdentifier_ofText (s : String) : isIdentifier (ofText s) = true := by
  have hchars : ∀ c ∈ s.toList.map fun c => if isNameChar c then c else '_',
      isNameChar c = true := by
    intro c hc
    obtain ⟨d, -, rfl⟩ := List.mem_map.1 hc
    split_ifs with hd
    · exact hd
    · rfl
  unfold ofText
  generalize s.toList.map (fun c => if isNameChar c then c else '_') = cs at hchars
  cases cs with
  | nil => rfl
  | cons c cs =>
    dsimp only
    rw [isIdentifier]
    by_cases hdigit : isDigit c = true
    · rw [if_pos hdigit, String.toList_ofList, Bool.and_eq_true, List.all_eq_true]
      exact ⟨rfl, hchars⟩
    · rw [if_neg hdigit, String.toList_ofList, Bool.and_eq_true, List.all_eq_true]
      have hc := hchars c List.mem_cons_self
      rw [isNameChar, Bool.or_eq_true] at hc
      exact ⟨hc.resolve_right hdigit, fun d hd => hchars d (List.mem_cons_of_mem c hd)⟩

theorem ofText_of_isIdentifier {s : String} (h : isIdentifier s = true) : ofText s = s := by
  have hchars : s.toList.map (fun c => if isNameChar c then c else '_') = s.toList := by
    rw [List.map_congr_left fun c hc => if_pos (Lexeme.isNameChar_of_mem h hc), List.map_id']
  unfold ofText
  rw [hchars]
  unfold isIdentifier at h
  cases hs : s.toList with
  | nil =>
    rw [hs] at h
    cases h
  | cons c cs =>
    rw [hs] at h
    rw [Bool.and_eq_true] at h
    dsimp only
    rw [if_neg, ← hs, String.ofList_toList]
    rw [Lexer.isDigit_of_isLetter h.1]
    exact Bool.false_ne_true

end Name

namespace Host
variable {hosts : List Path} {root : Path} {given stems : List (Path × String)}
  {stemOf : Path → String} {name : String}

/-- No two hosts are given one stem. -/
theorem nodup_assignStems (hgiven : (given.map (·.2)).Nodup)
    (h : assignStems stemOf given hosts = .ok stems) : (stems.map (·.2)).Nodup := by
  induction hosts generalizing given with
  | nil =>
    cases h
    exact hgiven
  | cons host hosts ih =>
    unfold assignStems at h
    split at h
    · cases h
    · rename_i hnone
      refine ih ?_ h
      rw [List.map_append, List.nodup_append]
      refine ⟨hgiven, List.nodup_singleton _, fun stem hstem => ?_⟩
      obtain ⟨owner, howner, rfl⟩ := List.mem_map.1 hstem
      have hne := List.find?_eq_none.1 hnone owner howner
      simpa using hne

theorem nodup_stems (h : Host.stems hosts root = .ok stems) : (stems.map (·.2)).Nodup := by
  obtain ⟨given, hgiven, ⟨⟩⟩ := Tokens.bind_eq_ok.1 h
  have hperm := (List.mergeSort_perm given fun a b => !b.1.lt a.1).map (·.2)
  have hnil : (([] : List (Path × String)).map (·.2)).Nodup := List.nodup_nil
  exact hperm.nodup_iff.2 (nodup_assignStems hnil hgiven)

theorem stem_new (path : Path) {stem : String} (h : isIdentifier stem = true) :
    (new path stem).stem = stem := by
  rw [new]
  split_ifs with hempty
  · rw [String.isEmpty_iff.1 hempty] at h
    cases h
  · exact Name.ofText_of_isIdentifier h

theorem isIdentifier_of_mem_stems (h : Host.stems hosts root = .ok stems) {host : Path × String}
    (hhost : host ∈ stems) : isIdentifier host.2 = true := by
  obtain ⟨given, hgiven, ⟨⟩⟩ := Tokens.bind_eq_ok.1 h
  rw [List.mem_mergeSort, assignStems_eq hgiven, List.nil_append] at hhost
  obtain ⟨path, -, rfl⟩ := List.mem_map.1 hhost
  dsimp only
  rw [stemAmong]
  split_ifs
  · rw [pathStem]
    exact Name.isIdentifier_ofText _
  · rw [plainStem]
    exact Name.isIdentifier_ofText _

/-- The files that can be generated for a host. -/
def fileNames (h : Host) : List String :=
  [Header.fileName h, Header.sourceName h, Interface.fileName h, Interface.loaderName h]

def fileEndings : List String := [".zigbind.hpp", ".zigbind.cpp", ".zigbind.d.ts", ".zigbind.js"]

theorem mem_fileNames {h : Host} : name ∈ h.fileNames ↔ ∃ e ∈ fileEndings, name = h.stem ++ e := by
  simp [fileNames, fileEndings, Header.fileName, Header.sourceName, Interface.fileName,
    Interface.loaderName]

/-- The stem ends at the first point. -/
theorem span_of_mem_fileNames {h : Host} (hstem : isIdentifier h.stem = true)
    (hname : name ∈ h.fileNames) :
    name.toList.takeWhile (· ≠ '.') = h.stem.toList ∧
      String.ofList (name.toList.dropWhile (· ≠ '.')) ∈ fileEndings := by
  obtain ⟨e, he, rfl⟩ := mem_fileNames.1 hname
  have hpoint : ∀ e ∈ fileEndings, e.toList.head?.any (· ≠ '.') = false := by decide
  have hchars : ∀ c ∈ h.stem.toList, decide (c ≠ '.') = true := by
    intro c hc
    have hc := Lexeme.isNameChar_of_mem hstem hc
    rw [decide_eq_true_eq]
    rintro rfl
    cases hc
  rw [String.toList_append, takeWhile_append_of_all hchars (hpoint e he),
    dropWhile_append_of_all hchars (hpoint e he), String.ofList_toList]
  exact ⟨rfl, he⟩

theorem stem_eq_of_mem_fileNames {h h' : Host} (hstem : isIdentifier h.stem = true)
    (hstem' : isIdentifier h'.stem = true) (hname : name ∈ h.fileNames)
    (hname' : name ∈ h'.fileNames) : h.stem = h'.stem := by
  rw [← String.toList_inj, ← (span_of_mem_fileNames hstem hname).1,
    (span_of_mem_fileNames hstem' hname').1]

theorem isName_of_mem_fileNames {h : Host} (hstem : isIdentifier h.stem = true)
    (hname : name ∈ h.fileNames) : IsName name := by
  obtain ⟨e, he, rfl⟩ := mem_fileNames.1 hname
  have hlength : ∀ e ∈ fileEndings, 2 < e.toList.length := by decide
  have hmem : ∀ c, isNameChar c = false → (∀ e ∈ fileEndings, c ∉ e.toList) →
      c ∉ (h.stem ++ e).toList := by
    intro c hc hends hmem
    rw [String.toList_append, List.mem_append] at hmem
    rcases hmem with hmem | hmem
    · rw [Lexeme.isNameChar_of_mem hstem hmem] at hc
      cases hc
    · exact hends e he hmem
  have hne : ∀ s : String, s.toList.length ≤ 2 → h.stem ++ e ≠ s := by
    rintro s hs rfl
    have := hlength e he
    rw [String.toList_append, List.length_append] at hs
    omega
  exact ⟨hne _ (by decide), hne _ (by decide), hne _ (by decide), hmem _ rfl (by decide),
    hmem _ rfl (by decide)⟩

end Host

/-- The files that a product is written to are files of its host. -/
theorem Product.mem_fileNames {p : Product} {h : Host} {path : Path} {file : String × String}
    (hfile : file ∈ p.files h path) : file.1 ∈ h.fileNames := by
  cases p with
  | header x =>
    rcases List.mem_pair.1 hfile with rfl | rfl
    · exact List.mem_cons_self
    · exact List.mem_cons_of_mem _ List.mem_cons_self
  | script x =>
    rcases List.mem_pair.1 hfile with rfl | rfl <;> simp [Host.fileNames]

end Bindery
