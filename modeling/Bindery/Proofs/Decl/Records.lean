import Bindery.Proofs.Decl.Signatures

/-!
# Structs and enumerations are read as they are written

The fields of a struct are read one after the other and the enumerators with commas between them.
Each value of an enumerator is written out, so that none depends on the one before.
-/
namespace Bindery.Tokens
open Lexeme

variable {ts rest : Tokens}

theorem newField_of_begins {r : Record} {p : Param} (hp : p.IsWritable [])
    (hnew : p.name ∉ r.fields.map (·.name))
    (h : Begins (p.lexemes ++ [.punct .semicolon]) ts rest) :
    ts.newField r = .ok ({ r with fields := r.fields ++ [p] }, rest) := by
  obtain ⟨mid, hfield, hend⟩ := begins_append.1 h
  obtain ⟨after, hsemicolon, rfl⟩ := punct_of_begins hend
  rw [newField, param?_of_begins hp hfield (hend.avoids_of_not_mem (by decide))]
  simp only [hsemicolon]
  exact if_neg hnew

theorem fields_of_begins {r : Record} {ps : List Param}
    (hps : Param.AreWritable [] (r.fields ++ ps))
    (h : Begins (ps.flatMap (fun p => p.lexemes ++ [.punct .semicolon]) ++ [.punct .curlyClose])
      ts rest) :
    block fields .curlyClose r ts = .ok ({ r with fields := r.fields ++ ps }, rest) := by
  induction ps generalizing r ts with
  | nil =>
    obtain ⟨mid, hclose, rfl⟩ := punct?_of_begins h
    rw [block_close hclose, List.append_nil]
  | cons p ps ih =>
    rw [List.flatMap_cons, List.append_assoc] at h
    obtain ⟨mid, hfield, hmore⟩ := begins_append.1 h
    have havoids : ts.Avoids [.curlyClose] := h.avoids nofun
    have hp : p.IsWritable [] := hps.1 p (List.mem_append_right _ List.mem_cons_self)
    have hnodup := hps.2
    rw [List.map_append, List.map_cons] at hnodup
    have hnew : p.name ∉ r.fields.map (·.name) := fun hname =>
      (List.nodup_append.1 hnodup).2.2 _ hname _ List.mem_cons_self rfl
    rw [block_step (punct?_of_avoids havoids List.mem_cons_self) (newField_of_begins hp hnew hfield)]
    have hrest := @ih mid { r with fields := r.fields ++ [p] } (by
      rwa [List.append_assoc, List.singleton_append]) hmore
    rw [hrest, List.append_assoc, List.singleton_append]

theorem struct_of_begins {r : Record} (hr : r.IsWritable) {attrs : List Attribute}
    (hattrs : attrs.map (·.unplaced) = r.attributes.map (·.unplaced)) (pos : Position)
    (h : Begins (Name.lexemes r.name ++ r.bodyLexemes) ts rest) :
    ts.struct attrs pos = .ok ({ r with pos := pos }, rest) := by
  have hadd := Record.addAttributes_congr hattrs (Record.addAttributes_attributes pos)
  obtain ⟨mid, hname, hbody⟩ := begins_append.1 h
  cases hdefined : r.isDefined with
  | false =>
    rw [Record.bodyLexemes, hdefined, if_neg Bool.false_ne_true] at hbody
    obtain ⟨after, hsemicolon, rfl⟩ := punct?_of_begins hbody
    have hpath := path_of_begins hname (hbody.avoids_of_not_mem (by decide))
    have hfields : r.fields = [] := by
      by_cases hne : r.fields = []
      · exact hne
      · rw [hr.isDefined.2 hne] at hdefined
        cases hdefined
    simp only [struct, hpath, hadd, hsemicolon, bind, Except.bind]
    rw [hfields]
  | true =>
    rw [Record.bodyLexemes, hdefined, if_pos rfl] at hbody
    have hpath := path_of_begins hname (hbody.avoids_of_not_mem (by decide))
    have havoids : mid.Avoids [.semicolon] := hbody.avoids_of_not_mem (by decide)
    have hno := punct?_of_avoids havoids List.mem_cons_self
    obtain ⟨inner, hopen, hinner⟩ := punct_of_begins hbody
    have hcolon : ':' ∉ r.name.toList := by
      intro hmem
      exact absurd (isNameChar_of_mem (hr.unqualified hdefined).1 hmem) (by decide)
    have hfields := @fields_of_begins inner rest
      { name := r.name, hasLayout := r.hasLayout, isDefined := true, pos := pos } r.fields
      hr.fields hinner
    have hne : r.fields ≠ [] := hr.isDefined.1 hdefined
    simp only [struct, hpath, hadd, hno, if_neg hcolon, hopen, hfields, bind, Except.bind,
      List.nil_append, if_neg hne]

section
variable {enum : String} {kind : IntKind} {seen : List (String × Int)} {implicit : Int}
  {item : String × Int}

theorem enumItem_of_begins (hnew : item.1 ∉ seen.map (·.1)) (hlow : kind.range.1 ≤ item.2)
    (hhigh : item.2 ≤ kind.range.2) (hmin : -9223372036854775808 < item.2)
    (h : Begins (Enum.itemLexemes item) ts rest) :
    enumItem enum kind seen implicit ts = .ok (item, rest) := by
  obtain ⟨_, _, rfl, _, _, rfl, p, tail, rfl, rfl⟩ := h
  have hmax : kind.range.2 < 9223372036854775808 := by cases kind <;> decide
  have hvalue : numberValue (toString item.2) p = .ok item.2 := by
    apply numberValue_toString
    omega
  rw [enumItem, if_neg hnew]
  simp only [hvalue, bind, Except.bind]
  exact if_pos ⟨hlow, hhigh⟩

theorem enumItems_last {after : Tokens} (hts : ts.punct? .curlyClose = .ok (false, ts))
    (hi : enumItem enum kind seen implicit ts = .ok (item, after))
    (hc : after.punct? .curlyClose = .ok (true, rest)) :
    enumItems enum kind seen implicit ts = .ok (seen ++ [item], rest) := by
  rw [enumItems]
  split
  · simp_all
  · simp_all
  · rename_i h
    rw [hts] at h
    cases h
    split
    · simp_all
    · rename_i h
      rw [hi] at h
      cases h
      split
      all_goals simp_all

theorem enumItems_more {after : Tokens} (hts : ts.punct? .curlyClose = .ok (false, ts))
    (hi : enumItem enum kind seen implicit ts = .ok (item, after))
    (hc : after.punct? .curlyClose = .ok (false, after)) (hk : after.punct .comma = .ok rest) :
    enumItems enum kind seen implicit ts =
      enumItems enum kind (seen ++ [item]) (item.2 + 1) rest := by
  rw [enumItems]
  split
  · simp_all
  · simp_all
  · rename_i h
    rw [hts] at h
    cases h
    split
    · simp_all
    · rename_i h
      rw [hi] at h
      cases h
      split
      · simp_all
      · simp_all
      · rename_i h
        rw [hc] at h
        cases h
        split
        all_goals simp_all

/-- The enumerators up to the closing bracket, whatever value the next one would get by itself. -/
theorem enumItems_of_begins {items : List (String × Int)} (hne : items ≠ [])
    (hitems : ∀ i ∈ items, kind.range.1 ≤ i.2 ∧ i.2 ≤ kind.range.2 ∧ -9223372036854775808 < i.2)
    (hnodup : ((seen ++ items).map (·.1)).Nodup)
    (h : Begins (commas (items.map Enum.itemLexemes) ++ [.punct .curlyClose]) ts rest) :
    enumItems enum kind seen implicit ts = .ok (seen ++ items, rest) := by
  induction items generalizing seen implicit ts with
  | nil => exact absurd rfl hne
  | cons item items ih =>
    obtain ⟨hlow, hhigh, hmin⟩ := hitems item List.mem_cons_self
    have hnew : item.1 ∉ seen.map (·.1) := fun hname => by
      rw [List.map_append, List.map_cons] at hnodup
      exact (List.nodup_append.1 hnodup).2.2 _ hname _ List.mem_cons_self rfl
    have havoids : ts.Avoids [.curlyClose] := h.avoids_commas nofun
    have hts := punct?_of_avoids havoids List.mem_cons_self
    cases items with
    | nil =>
      obtain ⟨after, hitem, hafter⟩ := begins_append.1 h
      obtain ⟨mid, hclose, rfl⟩ := punct?_of_begins hafter
      exact enumItems_last hts (enumItem_of_begins hnew hlow hhigh hmin hitem) hclose
    | cons next items =>
      rw [List.map_cons, List.map_cons, commas, List.append_assoc, List.cons_append,
        ← List.map_cons] at h
      obtain ⟨after, hitem, hafter⟩ := begins_append.1 h
      have hno : after.Avoids [.curlyClose] := hafter.avoids_of_not_mem (by decide)
      obtain ⟨mid, hcomma, hmid⟩ := punct_of_begins hafter
      rw [enumItems_more hts (enumItem_of_begins hnew hlow hhigh hmin hitem)
        (punct?_of_avoids hno List.mem_cons_self) hcomma]
      rw [ih (List.cons_ne_nil _ _) (fun i hi => hitems i (List.mem_cons_of_mem _ hi))
        (by rwa [List.append_assoc, List.singleton_append]) hmid, List.append_assoc,
        List.singleton_append]

end

theorem enum_of_begins {e : Enum} (he : e.IsWritable) (pos : Position)
    (h : Begins e.tailLexemes ts rest) : ts.enum [] pos = .ok ({ e with pos := pos }, rest) := by
  obtain ⟨_, afterName, rfl, h⟩ := h
  obtain ⟨afterColon, hcolon, h⟩ := punct?_of_begins h
  obtain ⟨_, afterKind, rfl, h⟩ := h
  obtain ⟨inner, hopen, hinner⟩ := punct_of_begins h
  have hitems := @enumItems_of_begins inner rest e.name e.kind [] 0 e.items he.items_ne_nil
    (fun i hi => (he.items i hi).2) he.items_nodup hinner
  simp only [enum, ident, Attribute.refuse, intKind, hcolon, hopen, hitems, bind, Except.bind,
    List.nil_append, if_neg he.items_ne_nil]

end Bindery.Tokens
