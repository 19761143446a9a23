import Bindery.Proofs.Lowering.Slots
import Bindery.Proofs.Ty.Derivation

/-!
# Arrays within optionals

An array within an optional has no form, and the fault that says so advises an optional reference to
the array. The host has a type for that, but what an optional reference refers to has to cross by
value, as no array does. So the advice cannot be followed, although a reference to the array crosses
without the optional.
-/
namespace Bindery

/-- What is advised in place of an optional of a type. -/
def Ty.advised (t : Ty) : Ty := .wrapped .optional (.reference false t)

theorem Ty.render_advised (t : Ty) :
    t.advised.render = "optional<" ++ ("ref<" ++ t.render ++ ">") ++ ">" := rfl

/-- A type that can be written is read back from the advice. -/
theorem Ty.parse_advised {t : Ty} {scope : List String} (h : t.Fits scope) :
    Ty.parse t.advised.render scope = .ok t.advised :=
  parse_render_of_fits (t := t.advised) h

theorem LoweringFault.message_optionalArray (t a : Ty) :
    (optionalArray t a).message = t.render ++ " has no FFI-safe form; use " ++ a.advised.render := by
  have hopen : " has no FFI-safe form; use optional<ref<" =
    " has no FFI-safe form; use " ++ ("optional<" ++ "ref<") := by decide
  have hclose : ">>" = ">" ++ ">" := by decide
  change t.render ++ " has no FFI-safe form; use optional<ref<" ++ a.render ++ ">>" = _
  rw [Ty.render_advised, hopen, hclose]
  simp only [String.append_assoc]

theorem Spelling.param_advised {elem : Ty} {s : String} (h : value elem = .ok s) (length : Nat) :
    param (Ty.array elem length).advised =
      .ok ("const " ++ ("std::array<" ++ s ++ ", " ++ toString length ++ ">") ++ "*") :=
  Tokens.bind_eq_ok.2 ⟨_, Tokens.bind_eq_ok.2 ⟨s, h, rfl⟩, rfl⟩

namespace Registry
variable {reg : Registry} {t : Ty}

/-- An optional reference crosses just if what it refers to crosses by value. -/
theorem lowers_optionalRef_iff (mutable : Bool) :
    (∃ l, reg.lowerParam (.wrapped .optional (.reference mutable t)) = .ok l) ↔
      ∃ v, reg.ByValue t v := by
  rw [lowerParam_optionalRef]
  constructor
  · rintro ⟨l, hl⟩
    obtain ⟨v, hv⟩ | ⟨fault, hfault⟩ := byValue_or_fault reg .optionalReference t
    · exact ⟨v, hv⟩
    · cases (error_bind (pointee_of_fault hfault) _).symm.trans hl
  · rintro ⟨v, hv⟩
    exact ⟨_, Tokens.bind_eq_ok.2 ⟨_, pointee_of_byValue hv _, rfl⟩⟩

/-- An optional of an array whose elements cross by value is refused with the advice to use an
optional reference to the array, which is read back as that type. The host has a type for it, and a
reference to the array crosses by itself as a pointer to the elements. But only optional references
to what crosses by value have a form, so the one to the array is refused in turn. -/
theorem array_advice (reg : Registry) (elem : Ty) (length : Nat) (v : ValueForm)
    (h : reg.ByValue elem v) :
    let a : Ty := .array elem length
    let fault : LoweringFault := .optionalArray (.wrapped .optional a) a
    reg.lowerParam (.wrapped .optional a) = .error fault ∧
    fault.message = (Ty.wrapped .optional a).render ++ " has no FFI-safe form; use " ++
      a.advised.render ∧
    (∀ scope, a.Fits scope → Ty.parse a.advised.render scope = .ok a.advised) ∧
    (∃ s, Spelling.value elem = .ok s ∧ Spelling.param a.advised =
      .ok ("const " ++ ("std::array<" ++ s ++ ", " ++ toString length ++ ">") ++ "*")) ∧
    (∀ mutable, reg.lowerParam (.reference mutable a) =
      .ok ⟨pointerTo v.target mutable false, .array, .reference mutable a, a⟩) ∧
    (∀ mutable t, (∃ l, reg.lowerParam (.wrapped .optional (.reference mutable t)) = .ok l) ↔
      ∃ w, reg.ByValue t w) ∧
    reg.lowerParam a.advised = .error (.notByValue a .optionalReference) := by
  intro a fault
  obtain ⟨s, hs⟩ := h.spelled
  exact ⟨lowerParam_of_fault (.optionalArray elem length),
    LoweringFault.message_optionalArray _ a,
    fun _ => Ty.parse_advised,
    ⟨s, hs, Spelling.param_advised hs length⟩,
    fun mutable => lowerParam_of_form (.refArray mutable length h),
    fun mutable _ => lowers_optionalRef_iff mutable,
    lowerParam_of_fault (.optionalRef false (.kind rfl))⟩

/-- An array of four integers. -/
theorem array_advice_integers :
    let reg : Registry := {}
    let elem : Ty := .scalar (.int .i32)
    let v : ValueForm := ⟨.scalar (.int .i32), .scalar (.int .i32), .direct⟩
    reg.ByValue elem v ∧
    reg.lowerParam (.reference true (.array elem 4)) =
      .ok ⟨pointerTo v.target true false, .array, .reference true (.array elem 4),
        .array elem 4⟩ ∧
    reg.lowerParam (Ty.array elem 4).advised =
      .error (.notByValue (.array elem 4) .optionalReference) := by
  intro reg elem v
  have h : reg.ByValue elem v := .scalar nofun
  obtain ⟨-, -, -, -, href, -, hrefused⟩ := array_advice reg elem 4 v h
  exact ⟨h, href true, hrefused⟩

/-- The advice for it is to use a type that has no form as a pointer that may be null. -/
theorem advice_refused :
    let reg : Registry := {}
    let a : Ty := .array (.scalar (.int .i32)) 4
    (∃ fault, reg.lowerParam (.wrapped .optional a) = .error fault ∧
      fault.message = "optional<i32[4]> has no FFI-safe form; use optional<ref<i32[4]>>") ∧
    Ty.parse "optional<ref<i32[4]>>" [] = .ok a.advised ∧
    ¬∃ l, reg.lowerParam a.advised = .ok l ∧
      l.slots = pointerTo (.scalar (.int .i32)) false true := by
  intro reg a
  have hfits : a.Fits [] := ⟨by decide, by decide⟩
  have hrender : a.advised.render = "optional<ref<i32[4]>>" := by decide
  refine ⟨⟨.optionalArray (.wrapped .optional a) a, rfl, ?_⟩, ?_, ?_⟩
  · rw [LoweringFault.message_optionalArray, hrender]
    decide
  · rw [← hrender]
    exact Ty.parse_advised hfits
  · rintro ⟨l, ⟨⟩, -⟩

end Registry
end Bindery
