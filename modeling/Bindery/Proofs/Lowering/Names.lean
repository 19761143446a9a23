import Bindery.Foreign
import Bindery.Proofs.Decl.Spelling
import Bindery.Proofs.Lowering.Slots

/-!
# Names of slots

A slot has the name of its parameter with the suffix of its role. Only the shape of a type decides
which roles the slots of a parameter have. Parameters of different names have slots of different
names, unless one of them takes a single slot and has the name of a slot of the other.
-/
namespace Bindery

namespace Role

/-- The last letter of a suffix. -/
def mark : Role → Option Char
  | whole => none | pointer => 'r' | length => 'n' | present => 't' | value => 'e'

theorem suffix_injective : Function.Injective suffix := by
  intro r r' h
  cases r <;> cases r' <;> first | rfl | simp [suffix] at h

variable {r r' : Role} {s s' : String}

theorem getLast?_append_suffix (h : r ≠ .whole) : (s ++ r.suffix).toList.getLast? = r.mark := by
  rw [String.toList_append]
  cases r with
  | whole => exact absurd rfl h
  | _ => rw [List.getLast?_append_of_ne_nil _ (by simp [suffix])]; rfl

/-- The last letter of a name tells the role of a slot that is not its whole parameter. -/
theorem eq_of_append_suffix_eq (h : r ≠ .whole) (h' : r' ≠ .whole)
    (heq : s ++ r.suffix = s' ++ r'.suffix) : r = r' := by
  have hmark : r.mark = r'.mark := by
    rw [← getLast?_append_suffix (s := s) h, heq, getLast?_append_suffix h']
  cases r <;> cases r' <;> first | rfl | simp [mark] at hmark

end Role

/-- The roles of the slots that a parameter of a type takes. -/
def Ty.roles : Ty → List Role
  | .slice .. | .text _ | .wrapped .optional (.slice ..) | .wrapped .optional (.text _) =>
    [.pointer, .length]
  | .wrapped .optional (.scalar _) | .wrapped .optional (.record _) => [.present, .value]
  | _ => [.whole]

theorem Ty.nodup_roles (t : Ty) : t.roles.Nodup := by
  unfold roles
  split <;> decide

namespace Registry
variable {reg : Registry} {t : Ty} {l : Lowered}

/-- A parameter that lowers has the slots that the shape of its type says. -/
theorem roles_of_lowerParam (h : reg.lowerParam t = .ok l) : l.slots.map (·.role) = t.roles := by
  rw [lowerParam_eq_ok] at h
  cases h with
  | value h => cases h <;> rfl
  | ref mutable | refArray mutable | optionalRef mutable => cases mutable <;> rfl
  | optionalValue h => cases h <;> rfl
  | slice | text | array | optionalSlice | optionalText => rfl

end Registry

namespace Param
variable {p q : Param} {ps : List Param} {scope : List String}

/-- The names of the slots of a parameter. -/
def slotNames (p : Param) : List String := p.type.roles.map fun r => p.name ++ r.suffix

/-- A parameter that does not have, as its single slot, the name of a slot of another one. -/
def AvoidsSlotsOf (p q : Param) : Prop :=
  .whole ∈ p.type.roles → ∀ r ∈ q.type.roles, r ≠ .whole → p.name ≠ q.name ++ r.suffix

instance : Decidable (p.AvoidsSlotsOf q) := inferInstanceAs (Decidable (_ → _))

theorem mem_slotNames {name : String} :
    name ∈ p.slotNames ↔ ∃ r ∈ p.type.roles, p.name ++ r.suffix = name := List.mem_map

theorem nodup_slotNames (p : Param) : p.slotNames.Nodup := by
  refine p.type.nodup_roles.map fun r r' h => ?_
  exact Role.suffix_injective ((String.append_right_inj _).1 h)

/-- Slots of differently named parameters are named alike only if one of them is a parameter by
itself. -/
theorem disjoint_slotNames (hne : p.name ≠ q.name) :
    p.slotNames.Disjoint q.slotNames ↔ p.AvoidsSlotsOf q ∧ q.AvoidsSlotsOf p := by
  have hwhole : ∀ {p : Param}, .whole ∈ p.type.roles → p.name ∈ p.slotNames :=
    fun h => mem_slotNames.2 ⟨.whole, h, String.append_empty⟩
  constructor
  · intro hdisjoint
    refine ⟨fun hp r hr _ heq => ?_, fun hq r hr _ heq => ?_⟩
    · exact hdisjoint (hwhole hp) (mem_slotNames.2 ⟨r, hr, heq.symm⟩)
    · exact hdisjoint (mem_slotNames.2 ⟨r, hr, heq.symm⟩) (hwhole hq)
  · rintro ⟨hpq, hqp⟩ name hp hq
    obtain ⟨r, hr, rfl⟩ := mem_slotNames.1 hp
    obtain ⟨r', hr', heq⟩ := mem_slotNames.1 hq
    by_cases hsame : r' = r
    · subst hsame
      exact hne ((String.append_left_inj _).1 heq).symm
    by_cases h : r = .whole
    · subst h
      rw [Role.suffix, String.append_empty] at heq
      exact hpq hr r' hr' hsame heq.symm
    by_cases h' : r' = .whole
    · subst h'
      rw [Role.suffix, String.append_empty] at heq
      exact hqp hr' r hr h heq
    exact hsame (Role.eq_of_append_suffix_eq h' h heq)

/-- Parameters none of which has the name of a slot of another one. -/
def AreApart (ps : List Param) : Prop := ∀ p ∈ ps, ∀ q ∈ ps, p.AvoidsSlotsOf q

instance : Decidable (AreApart ps) := inferInstanceAs (Decidable (∀ p ∈ ps, ∀ q ∈ ps, _))

theorem avoidsSlotsOf_self (p : Param) : p.AvoidsSlotsOf p := by
  intro _ r _ hr heq
  refine hr (Role.suffix_injective ?_)
  rw [← String.append_right_inj p.name, ← heq, Role.suffix, String.append_empty]

/-- The slots of parameters with distinct names have distinct names just if the parameters are
apart. -/
theorem nodup_flatMap_slotNames (h : (ps.map (·.name)).Nodup) :
    (ps.flatMap slotNames).Nodup ↔ AreApart ps := by
  have hnames : ps.Pairwise fun p q => p.name ≠ q.name := List.pairwise_map.1 h
  rw [List.nodup_flatMap, and_iff_right fun p _ => nodup_slotNames p]
  constructor
  · intro hdisjoint
    have hboth : ps.Pairwise fun p q => p.AvoidsSlotsOf q ∧ q.AvoidsSlotsOf p :=
      (hnames.and hdisjoint).imp fun ⟨hne, hpq⟩ => (disjoint_slotNames hne).1 hpq
    have hsymm : Std.Symm fun p q : Param => p.AvoidsSlotsOf q ∧ q.AvoidsSlotsOf p :=
      ⟨fun _ _ => And.symm⟩
    intro p hp q hq
    have hself : ∀ p ∈ ps, p.AvoidsSlotsOf p ∧ p.AvoidsSlotsOf p :=
      fun p _ => ⟨avoidsSlotsOf_self p, avoidsSlotsOf_self p⟩
    exact (hboth.forall_of_forall hself hp hq).1
  · intro hapart
    refine hnames.imp_of_mem fun {p q} hp hq hne => ?_
    exact (disjoint_slotNames hne).2 ⟨hapart p hp q hq, hapart q hq p hp⟩

/-- No slot of a parameter is named as the object of a method. -/
theorem self_not_mem_slotNames (h : Lexeme.IsIdent p.name) : "self" ∉ p.slotNames := by
  intro hmem
  obtain ⟨r, -, heq⟩ := mem_slotNames.1 hmem
  by_cases hr : r = .whole
  · subst hr
    rw [Role.suffix, String.append_empty] at heq
    rw [heq] at h
    exact absurd h (by decide)
  · have hlast := Role.getLast?_append_suffix (s := p.name) hr
    rw [heq] at hlast
    cases r <;> contradiction

end Param
end Bindery
