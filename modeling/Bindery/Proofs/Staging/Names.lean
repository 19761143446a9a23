import Bindery.Proofs.Path.Names
import Bindery.Proofs.Text.Decimal
import Bindery.Staging.Basic

/-!
# The names that staging keeps for itself

All that is staged has a name that the next run removes, and whatever a build leaves besides has
another one.
-/
namespace Bindery
open Text
open Bindery.Path (IsName)

namespace Path

/-- A numbered name can name a file. -/
theorem isName_append_toString (pre post : String) (i : Nat) (hne : pre ≠ "")
    (hpre : '/' ∉ pre.toList ∧ '\x00' ∉ pre.toList)
    (hpost : '/' ∉ post.toList ∧ '\x00' ∉ post.toList) : IsName (pre ++ toString i ++ post) := by
  have hdigit : ∀ c ∈ (toString i).toList, isDigit c = true := fun _ => isDigit_of_mem_toString
  have hmem : ∀ c, isDigit c = false → c ∉ pre.toList → c ∉ post.toList →
      c ∉ (pre ++ toString i ++ post).toList := by
    intro c hc hcpre hcpost hmem
    simp only [String.toList_append, List.mem_append] at hmem
    rcases hmem with (h | h) | h
    · exact hcpre h
    · rw [hdigit c h] at hc
      cases hc
    · exact hcpost h
  have hlong : ∀ d : Char, pre ++ toString i ++ post ≠ String.singleton d := by
    intro d h
    have hlen := congrArg (fun s => s.toList.length) h
    have hpre' : 0 < pre.toList.length := List.length_pos_iff.2 (by simpa using hne)
    have hnum : 0 < (toString i).toList.length := List.length_pos_iff.2 (toString_ne_nil i)
    simp only [String.toList_append, List.length_append, String.toList_singleton,
      List.length_singleton] at hlen
    omega
  refine ⟨?_, hlong '.', ?_, hmem '/' (by decide) hpre.1 hpost.1,
    hmem '\x00' (by decide) hpre.2 hpost.2⟩
  · simp [hne]
  · intro h
    have hnum : ∃ c, c ∈ (toString i).toList := List.exists_mem_of_ne_nil _ (toString_ne_nil i)
    obtain ⟨c, hc⟩ := hnum
    have hall : c ∈ ("..").toList := by
      rw [← h]
      simp only [String.toList_append, List.mem_append]
      exact .inl (.inr hc)
    have hcdot : c = '.' := by simpa using hall
    have := hdigit c hc
    rw [hcdot] at this
    cases this

end Path

namespace Staging

theorem isStaged_mergedName : isStaged mergedName = true := by decide

theorem isStaged_entryName : isStaged entryName = true := by decide

theorem isStaged_scriptName : isStaged scriptName = true := by decide

theorem isPrefixOf_fragmentName (i : Nat) :
    fragmentStem.toList.isPrefixOf (fragmentName i).toList = true := by
  rw [List.isPrefixOf_iff_prefix, fragmentName, String.toList_append, String.toList_append,
    List.append_assoc]
  exact List.prefix_append _ _

theorem toList_externalName (i : Nat) :
    (externalName i).toList = "ext".toList ++ (toString i).toList := by
  rw [externalName, String.toList_append]

theorem isPrefixOf_externalName (i : Nat) :
    "ext".toList.isPrefixOf (externalName i).toList = true := by
  rw [List.isPrefixOf_iff_prefix, toList_externalName]
  exact List.prefix_append _ _

theorem isStaged_fragmentName (i : Nat) : isStaged (fragmentName i) = true := by
  rw [isStaged]
  simp only [isPrefixOf_fragmentName, Bool.true_or]

theorem isStaged_externalName (i : Nat) : isStaged (externalName i) = true := by
  have hdrop : (externalName i).toList.drop 3 = (toString i).toList := by
    rw [toList_externalName]
    rfl
  have hall : (toString i).toList.all isDigit = true :=
    List.all_eq_true.2 fun _ => isDigit_of_mem_toString
  have hne : (toString i).toList.isEmpty = false := by
    rw [List.isEmpty_eq_false_iff]
    exact toString_ne_nil i
  rw [isStaged]
  simp only [isPrefixOf_externalName, hdrop, hall, hne, Bool.not_false, Bool.and_self,
    Bool.or_true]

theorem fragmentName_inj {i j : Nat} (h : fragmentName i = fragmentName j) : i = j := by
  have hlist := congrArg String.toList h
  rw [fragmentName, fragmentName, String.toList_append, String.toList_append,
    String.toList_append, String.toList_append] at hlist
  exact toString_inj (List.append_cancel_left (List.append_cancel_right hlist))

theorem externalName_inj {i j : Nat} (h : externalName i = externalName j) : i = j := by
  have hlist := congrArg String.toList h
  rw [toList_externalName, toList_externalName] at hlist
  exact toString_inj (List.append_cancel_left hlist)

/-- Fragments have names that begin alike, and no other staged name begins so. -/
theorem fragmentName_ne {name : String} (i : Nat)
    (h : fragmentStem.toList.isPrefixOf name.toList = false) : fragmentName i ≠ name := by
  rintro rfl
  rw [isPrefixOf_fragmentName] at h
  cases h

theorem fragmentName_ne_externalName (i j : Nat) : fragmentName i ≠ externalName j := by
  refine fragmentName_ne i ?_
  rw [toList_externalName]
  rfl

theorem externalName_ne {name : String} (i : Nat)
    (h : "ext".toList.isPrefixOf name.toList = false) : externalName i ≠ name := by
  rintro rfl
  rw [isPrefixOf_externalName] at h
  cases h

theorem isName_mergedName : IsName mergedName := by decide

theorem isName_entryName : IsName entryName := by decide

theorem isName_scriptName : IsName scriptName := by decide

theorem isName_fragmentName (i : Nat) : IsName (fragmentName i) :=
  Path.isName_append_toString fragmentStem ".zig" i (by decide) (by decide +kernel)
    (by decide)

theorem isName_externalName (i : Nat) : IsName (externalName i) := by
  have := Path.isName_append_toString "ext" "" i (by decide) (by decide +kernel)
    (by decide)
  rwa [String.append_empty] at this

/-- A place at or below a staged name of an output directory. -/
def IsStagedPlace (out q : Place) : Prop :=
  ∃ name, isStaged name = true ∧ (out ++ [name]) <+: q

theorem isStagedPlace_append {out : Place} {name : String} (h : isStaged name = true)
    (rest : Place) : IsStagedPlace out (out ++ name :: rest) :=
  ⟨name, h, ⟨rest, by rw [List.append_assoc, List.singleton_append]⟩⟩

theorem not_isStagedPlace_append {out : Place} {name : String} (h : isStaged name = false)
    (rest : Place) : ¬ IsStagedPlace out (out ++ name :: rest) := by
  rintro ⟨other, hother, hfront⟩
  rw [List.prefix_append_right_inj] at hfront
  obtain ⟨rfl, _⟩ := List.cons_prefix_cons.1 hfront
  rw [h] at hother
  cases hother

end Staging
end Bindery
