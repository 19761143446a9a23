import Bindery.Proofs.Ty.Named
import Bindery.Proofs.Ty.Reading

/-!
# Types in place of generic parameters

Putting a type without generic parameters in place of the only one in scope leaves none, and it
does to a type what reading does to its text: the parameter may as well be printed as that type.
-/
namespace Bindery

namespace Ty
variable {name : String} {t u : Ty}

/-- The declaration syntax of a type with its generic parameters shown in some way. -/
def renderWith (shown : String → String) : Ty → String
  | scalar s => s.name
  | array elem length => elem.renderWith shown ++ "[" ++ toString length ++ "]"
  | slice false elem => "slice<" ++ elem.renderWith shown ++ ">"
  | slice true elem => "slice_mut<" ++ elem.renderWith shown ++ ">"
  | text false => "str"
  | text true => "str_mut"
  | record name => name
  | generic name => shown name
  | wrapped .ref inner => "ref<" ++ inner.renderWith shown ++ ">"
  | wrapped .refMut inner => "ref_mut<" ++ inner.renderWith shown ++ ">"
  | wrapped .optional inner => "optional<" ++ inner.renderWith shown ++ ">"

theorem renderWith_id (t : Ty) : t.renderWith id = t.render := by
  induction t with
  | slice mutable elem ih => cases mutable <;> simp [renderWith, render, ih]
  | wrapped kind inner ih => cases kind <;> simp [renderWith, render, ih]
  | text mutable => cases mutable <;> rfl
  | _ => simp_all [renderWith, render]

/-- Printing after a substitution shows the parameter as the type in its place. -/
theorem render_subst (name : String) (t u : Ty) : (t.subst name u).render =
    t.renderWith fun n => if n = name then u.render else n := by
  induction t with
  | generic n =>
    simp only [subst, renderWith]
    split <;> rfl
  | slice mutable elem ih => cases mutable <;> simp [renderWith, render, subst, ih]
  | wrapped kind inner ih => cases kind <;> simp [renderWith, render, subst, ih]
  | text mutable => cases mutable <;> rfl
  | _ => simp_all [renderWith, render, subst]

theorem isWritable_subst (ht : t.IsWritable) (hu : u.IsWritable) :
    (t.subst name u).IsWritable := by
  induction t with
  | generic n =>
    simp only [subst]
    split
    · exact hu
    · exact ht
  | array elem length ih => exact ⟨ih ht.1, ht.2⟩
  | slice mutable elem ih | wrapped kind elem ih => exact ih ht
  | _ => exact ht

/-- A substitution for the only name in scope leaves no generic parameter. -/
theorem isScoped_subst (ht : t.IsScoped [name]) (hu : u.IsScoped []) :
    (t.subst name u).IsScoped [] := by
  induction t with
  | generic n =>
    rw [subst, if_pos (List.mem_singleton.1 ht)]
    exact hu
  | array elem length ih | slice mutable elem ih | wrapped kind elem ih => exact ih ht
  | record n => exact List.not_mem_nil
  | _ => trivial

/-- Substitution commutes with reading: a type with a parameter shown as some text is read as the
type with what the text is read as in the parameter's place. -/
theorem parse_renderWith (ht : t.Fits [name]) (hu : u.Fits []) :
    Ty.parse (t.renderWith fun n => if n = name then u.render else n) [] =
      .ok (t.subst name u) := by
  rw [← render_subst, parse_rendered (isWritable_subst ht.1 hu.1),
    inScope_of_isScoped (isScoped_subst ht.2 hu.2)]

end Ty
end Bindery
