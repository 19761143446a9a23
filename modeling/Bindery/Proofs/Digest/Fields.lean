import Bindery.Digest
import Bindery.Proofs.Text.Decimal

/-!
# Fields run together

A text that consists of fields tells where each of them ends, whatever characters the fields hold:
two lists of fields that run together to the same text are the same list.
-/
namespace Bindery.Digest
open Text

theorem toList_field (s : String) :
    (field s).toList = (toString s.length).toList ++ ':' :: s.toList := by
  simp [field]

/-- A field at the front of a text is determined by the text, and so is what follows it. -/
theorem field_append_inj {s t : String} {xs ys : List Char}
    (h : (field s).toList ++ xs = (field t).toList ++ ys) : s = t ∧ xs = ys := by
  have hcolon (r : List Char) : (':' :: r).head?.any isDigit = false := by
    simp only [List.head?_cons, Option.any_some]
    decide
  simp only [toList_field, List.append_assoc, List.cons_append] at h
  have hdigits := congrArg (List.takeWhile isDigit) h
  rw [takeWhile_append_of_all (fun _ => isDigit_of_mem_toString) (hcolon _),
    takeWhile_append_of_all (fun _ => isDigit_of_mem_toString) (hcolon _)] at hdigits
  have hlength : s.length = t.length := by
    rw [← ofDigits_toString s.length, hdigits, ofDigits_toString]
  rw [hdigits] at h
  obtain ⟨-, h⟩ := List.cons.inj (List.append_cancel_left h)
  obtain ⟨hst, hrest⟩ := List.append_inj h (by rwa [String.length_toList, String.length_toList])
  exact ⟨String.toList_inj.1 hst, hrest⟩

theorem field_ne_nil (s : String) (xs : List Char) : (field s).toList ++ xs ≠ [] := by
  simp [toList_field]

theorem toList_join_fields (ss : List String) :
    (String.join (ss.map field)).toList = ss.flatMap fun s => (field s).toList := by
  simp [String.toList_join, List.flatMap_map]

/-- Fields that are run together can be told apart again. -/
theorem join_fields_injective {ss ts : List String}
    (h : String.join (ss.map field) = String.join (ts.map field)) : ss = ts := by
  have hchars := congrArg String.toList h
  rw [toList_join_fields, toList_join_fields] at hchars
  clear h
  induction ss generalizing ts with
  | nil =>
    cases ts with
    | nil => rfl
    | cons t ts => exact absurd hchars.symm (field_ne_nil t _)
  | cons s ss ih =>
    cases ts with
    | nil => exact absurd hchars (field_ne_nil s _)
    | cons t ts =>
      obtain ⟨rfl, hrest⟩ := field_append_inj hchars
      rw [ih hrest]

end Bindery.Digest
