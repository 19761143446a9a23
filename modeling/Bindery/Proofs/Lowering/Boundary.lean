import Bindery.Foreign
import Bindery.Proofs.Emission.Run
import Bindery.Proofs.Lowering.Forms

/-!
# What crosses the boundary

A slot that a type is lowered to holds scalars, declared enumerations and records with a declared
layout only, by value or behind a pointer.
-/
namespace Bindery

namespace Registry

/-- A name that stands for an enumeration, or else for a record with a declared layout. -/
def IsLaidOut (reg : Registry) (name : String) : Prop :=
  (reg.enum? name).isSome = true ∨ ∃ r, reg.record? name = some r ∧ r.hasLayout = true

/-- A type with a declared layout. -/
def IsPlain (reg : Registry) : Ty → Prop
  | .scalar s => s ≠ .void
  | .record name => reg.IsLaidOut name
  | _ => False

end Registry

/-- A slot of declared layout. What a handle points to is not known at all. -/
def Slot.Crosses (reg : Registry) (s : Slot) : Prop :=
  match s.shape with
  | .scalar k => k ≠ .void
  | .record name => reg.enum? name = none ∧ reg.IsLaidOut name
  | .pointer (.scalar k) _ _ => k ≠ .void
  | .pointer (.named name) _ _ => reg.IsLaidOut name
  | .pointer .char _ _ | .pointer .opaqueObject _ _ | .void => True

/-- The named type that a slot holds or points to. -/
def Slot.named? (s : Slot) : Option String :=
  match s.shape with
  | .record name | .pointer (.named name) _ _ => some name
  | _ => none

/-- The slots of a foreign function. -/
def ForeignFunction.slots (f : ForeignFunction) : List Slot := f.result :: f.params.map (·.slot)

def ForeignFunction.Crosses (reg : Registry) (f : ForeignFunction) : Prop :=
  ∀ s ∈ f.slots, s.Crosses reg

namespace Slot
variable {reg : Registry} {s : Slot} {name : String}

theorem isLaidOut_of_named? (h : s.Crosses reg) (hname : s.named? = some name) :
    reg.IsLaidOut name := by
  obtain ⟨shape, role⟩ := s
  cases shape with
  | record n =>
    cases hname
    exact h.2
  | pointer target mutable nullable =>
    cases target with
    | named n =>
      cases hname
      exact h
    | _ => cases hname
  | _ => cases hname

theorem crosses_opaqueHandle : opaqueHandle.Crosses reg := trivial

end Slot

namespace Registry
variable {reg : Registry} {t : Ty} {v : ValueForm} {l : Lowered}

/-- A type that is passed by value has a declared layout. -/
theorem ByValue.isPlain (h : reg.ByValue t v) : reg.IsPlain t := by
  cases h with
  | scalar h => exact h
  | enum h => exact .inl (by rw [h]; rfl)
  | record henum h hlayout => exact .inr ⟨_, h, hlayout⟩

/-- So has its slot. -/
theorem ByValue.crosses (h : reg.ByValue t v) (role : Role) : Slot.Crosses reg ⟨v.shape, role⟩ := by
  cases h with
  | scalar h => exact h
  | enum h => exact nofun
  | record henum h hlayout => exact ⟨henum, .inr ⟨_, h, hlayout⟩⟩

theorem ByValue.crosses_pointer (h : reg.ByValue t v) (mutable nullable : Bool) (role : Role) :
    Slot.Crosses reg ⟨.pointer v.target mutable nullable, role⟩ := by
  have hplain := h.isPlain
  cases h <;> exact hplain

theorem crosses_pointerAndLength {target : Pointee} {mutable nullable : Bool}
    (h : Slot.Crosses reg ⟨.pointer target mutable nullable, .pointer⟩) :
    ∀ s ∈ pointerAndLength target mutable nullable, s.Crosses reg := by
  intro s hs
  rcases List.mem_pair.1 hs with rfl | rfl
  · exact h
  · exact nofun

theorem crosses_singleton {s : Slot} (h : s.Crosses reg) : ∀ x ∈ [s], x.Crosses reg :=
  fun _ hx => List.mem_singleton.1 hx ▸ h

theorem crosses_of_lowerParam (h : reg.lowerParam t = .ok l) : ∀ s ∈ l.slots, s.Crosses reg := by
  rw [lowerParam_eq_ok] at h
  cases h with
  | value h => exact crosses_singleton (h.crosses _)
  | slice _ h | optionalSlice _ h => exact crosses_pointerAndLength (h.crosses_pointer _ _ _)
  | text | optionalText => exact crosses_pointerAndLength trivial
  | array _ h | ref _ h | refArray _ _ h | optionalRef _ h =>
    exact crosses_singleton (h.crosses_pointer _ _ _)
  | optionalValue h =>
    intro s hs
    rcases List.mem_pair.1 hs with rfl | rfl
    · exact nofun
    · exact h.crosses _

/-- The single slot of a result crosses. -/
theorem crosses_of_lowerReturn (h : reg.lowerReturn t = .ok l) : l.slot.Crosses reg := by
  rw [lowerReturn_eq_ok] at h
  cases h with
  | void => exact trivial
  | value h => exact h.crosses _
  | ref _ h | optionalRef _ h => exact h.crosses_pointer _ _ _

theorem crosses_of_lowerParams {ps : List Param} {lps : List LoweredParam}
    (h : reg.lowerParams ps = .ok lps) : ∀ lp ∈ lps, ∀ s ∈ lp.lowered.slots, s.Crosses reg := by
  have hall := mapM_eq_ok.1 h
  clear h
  induction hall with
  | nil => exact fun _ hlp => absurd hlp List.not_mem_nil
  | cons hfirst _ ih =>
    obtain ⟨l, hl, ⟨⟩⟩ := Tokens.bind_eq_ok.1 hfirst
    exact List.forall_mem_cons.2 ⟨crosses_of_lowerParam hl, ih⟩

end Registry

/-- A foreign function crosses if its parameters and its result do. -/
theorem ForeignFunction.crosses_new {reg : Registry} {symbol : String} {lps : List LoweredParam}
    {result : Slot} (hparams : ∀ lp ∈ lps, ∀ s ∈ lp.lowered.slots, s.Crosses reg)
    (hresult : result.Crosses reg) : (ForeignFunction.new symbol lps result).Crosses reg := by
  intro s hs
  rcases List.mem_cons.1 hs with rfl | hs
  · exact hresult
  · obtain ⟨p, hp, rfl⟩ := List.mem_map.1 hs
    obtain ⟨lp, hlp, hp⟩ := List.mem_flatMap.1 hp
    obtain ⟨slot, hslot, rfl⟩ := List.mem_map.1 hp
    exact hparams lp hlp slot hslot

theorem ForeignFunction.Crosses.onSelf {reg : Registry} {f : ForeignFunction} (h : f.Crosses reg) :
    f.onSelf.Crosses reg := by
  intro s hs
  rcases List.mem_cons.1 hs with rfl | hs
  · exact h _ List.mem_cons_self
  · rcases List.mem_cons.1 hs with rfl | hs
    · exact Slot.crosses_opaqueHandle
    · exact h s (List.mem_cons_of_mem _ hs)

end Bindery
