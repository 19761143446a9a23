import Bindery.Lowering.Basic
import Bindery.Syntax.Token
import Mathlib.Data.List.Basic

/-!
# Forms of lowered types

The types that cross the foreign boundary as parameters and as results, each with the slots that it
takes, and those that do not, each with the fault that it is refused with. Lowering comes to nothing
else.
-/
namespace Bindery

/-- Two kinds of ends, each of which a computation comes to, and no others. -/
theorem eq_iff_of_total {ε α : Type} {x : Except ε α} {P : α → Prop} {E : ε → Prop}
    (hok : ∀ a, P a → x = .ok a) (herror : ∀ e, E e → x = .error e)
    (htotal : (∃ a, P a) ∨ ∃ e, E e) : (∀ a, x = .ok a ↔ P a) ∧ ∀ e, x = .error e ↔ E e := by
  obtain ⟨a, ha⟩ | ⟨e, he⟩ := htotal
  · have hx := hok a ha
    refine ⟨fun b => ⟨fun hb => ?_, hok b⟩, fun e => ⟨fun he => ?_, herror e⟩⟩
    · rwa [← Except.ok.inj (hx.symm.trans hb)]
    · cases hx.symm.trans he
  · have hx := herror e he
    refine ⟨fun a => ⟨fun ha => ?_, hok a⟩, fun e' => ⟨fun he' => ?_, herror e'⟩⟩
    · cases hx.symm.trans ha
    · rwa [← Except.error.inj (hx.symm.trans he')]

theorem error_bind {ε α β : Type} {x : Except ε α} {e : ε} (h : x = .error e)
    (f : α → Except ε β) : (x >>= f) = .error e := by
  rw [h]
  rfl

namespace Ty

/-- A reference, mutable or not. -/
def reference : Bool → Ty → Ty
  | false => wrapped .ref
  | true => wrapped .refMut

/-- The kinds of types that cross by value if they are declared as they should be. -/
def isSimple : Ty → Bool
  | scalar _ | record _ | generic _ => true
  | _ => false

def isArray : Ty → Bool
  | array _ _ => true
  | _ => false

def isReference : Ty → Bool
  | wrapped .ref _ | wrapped .refMut _ => true
  | _ => false

end Ty

/-- How a by-value type crosses the boundary: the shape of its slot, what a pointer to one of its
values points to, and the recipe of a value. -/
structure ValueForm where
  shape : Shape
  target : Pointee
  recipe : Recipe

namespace Registry

/-! ### Types that cross -/

/-- The by-value types: scalars but not `void`, enumerations, and records whose first declaration
has a layout. An enumeration goes before a record of its name; it is passed as its integer, while a
pointer to it keeps the name. -/
inductive ByValue (reg : Registry) : Ty → ValueForm → Prop
  | scalar {s : Scalar} (h : s ≠ .void) :
      ByValue reg (.scalar s) ⟨.scalar s, .scalar s, .direct⟩
  | enum {name : String} {e : Enum} (h : reg.enum? name = some e) :
      ByValue reg (.record name) ⟨.scalar (.int e.kind), .named name, .enumCast⟩
  | record {name : String} {r : Record} (henum : reg.enum? name = none)
      (h : reg.record? name = some r) (hlayout : r.hasLayout = true) :
      ByValue reg (.record name) ⟨.record name, .named name, .direct⟩

/-- A pointer that stands for a whole parameter. -/
def pointerTo (target : Pointee) (mutable nullable : Bool) : List Slot :=
  [⟨.pointer target mutable nullable, .whole⟩]

/-- The types that cross as parameters, each with its slots, its recipe and what the recipe works
on. -/
inductive ParamForm (reg : Registry) : Ty → Lowered → Prop
  | value {t : Ty} {v : ValueForm} (h : reg.ByValue t v) :
      ParamForm reg t ⟨[⟨v.shape, .whole⟩], v.recipe, t, t⟩
  | slice {t : Ty} {v : ValueForm} (mutable : Bool) (h : reg.ByValue t v) :
      ParamForm reg (.slice mutable t)
        ⟨pointerAndLength v.target mutable false, .slice, .slice mutable t, t⟩
  | text (mutable : Bool) :
      ParamForm reg (.text mutable)
        ⟨pointerAndLength .char mutable false, .text, .text mutable, .text mutable⟩
  | array {t : Ty} {v : ValueForm} (length : Nat) (h : reg.ByValue t v) :
      ParamForm reg (.array t length)
        ⟨pointerTo v.target false false, .array, .array t length, .array t length⟩
  | ref {t : Ty} {v : ValueForm} (mutable : Bool) (h : reg.ByValue t v) :
      ParamForm reg (.reference mutable t)
        ⟨pointerTo v.target mutable false, .ref, .reference mutable t, t⟩
  | refArray {t : Ty} {v : ValueForm} (mutable : Bool) (length : Nat) (h : reg.ByValue t v) :
      ParamForm reg (.reference mutable (.array t length))
        ⟨pointerTo v.target mutable false, .array, .reference mutable (.array t length),
          .array t length⟩
  | optionalRef {t : Ty} {v : ValueForm} (mutable : Bool) (h : reg.ByValue t v) :
      ParamForm reg (.wrapped .optional (.reference mutable t))
        ⟨pointerTo v.target mutable true, .optionalRef, .wrapped .optional (.reference mutable t), t⟩
  | optionalSlice {t : Ty} {v : ValueForm} (mutable : Bool) (h : reg.ByValue t v) :
      ParamForm reg (.wrapped .optional (.slice mutable t))
        ⟨pointerAndLength v.target mutable true, .optionalSlice,
          .wrapped .optional (.slice mutable t), .slice mutable t⟩
  | optionalText (mutable : Bool) :
      ParamForm reg (.wrapped .optional (.text mutable))
        ⟨pointerAndLength .char mutable true, .optionalSlice,
          .wrapped .optional (.text mutable), .text mutable⟩
  | optionalValue {t : Ty} {v : ValueForm} (h : reg.ByValue t v) :
      ParamForm reg (.wrapped .optional t)
        ⟨[⟨.scalar .bool, .present⟩, ⟨v.shape, .value⟩], .optionalValue, .wrapped .optional t, t⟩

/-- The types that cross as results. -/
inductive ReturnForm (reg : Registry) : Ty → Lowered → Prop
  | void : ReturnForm reg .void ⟨[⟨.void, .whole⟩], .direct, .void, .void⟩
  | value {t : Ty} {v : ValueForm} (h : reg.ByValue t v) :
      ReturnForm reg t ⟨[⟨v.shape, .whole⟩], v.recipe, t, t⟩
  | ref {t : Ty} {v : ValueForm} (mutable : Bool) (h : reg.ByValue t v) :
      ReturnForm reg (.reference mutable t)
        ⟨pointerTo v.target mutable false, .ref, .reference mutable t, t⟩
  | optionalRef {t : Ty} {v : ValueForm} (mutable : Bool) (h : reg.ByValue t v) :
      ReturnForm reg (.wrapped .optional (.reference mutable t))
        ⟨pointerTo v.target mutable true, .optionalRef, .wrapped .optional (.reference mutable t), t⟩

/-! ### Types that do not -/

/-- Why a type does not cross by value at a site. -/
inductive ValueFault (reg : Registry) (site : Site) : Ty → LoweringFault → Prop
  | generic (name : String) : ValueFault reg site (.generic name) (.unresolvedGeneric name site)
  | void : ValueFault reg site .void (.voidValue site)
  | unknown {name : String} (henum : reg.enum? name = none) (h : reg.record? name = none) :
      ValueFault reg site (.record name) (.unknownType name site)
  | noLayout {name : String} {r : Record} (henum : reg.enum? name = none)
      (h : reg.record? name = some r) (hlayout : r.hasLayout = false) :
      ValueFault reg site (.record name) (.noLayout name)
  | kind {t : Ty} (h : t.isSimple = false) : ValueFault reg site t (.notByValue t site)

/-- Why a type does not cross as a parameter. -/
inductive ParamFault (reg : Registry) : Ty → LoweringFault → Prop
  | value {t : Ty} {fault : LoweringFault} (ht : t.isSimple = true)
      (h : reg.ValueFault .parameter t fault) : ParamFault reg t fault
  | slice {t : Ty} {fault : LoweringFault} (mutable : Bool)
      (h : reg.ValueFault .sliceElement t fault) : ParamFault reg (.slice mutable t) fault
  | array {t : Ty} {fault : LoweringFault} (length : Nat)
      (h : reg.ValueFault .arrayElement t fault) : ParamFault reg (.array t length) fault
  | ref {t : Ty} {fault : LoweringFault} (mutable : Bool) (ht : t.isArray = false)
      (h : reg.ValueFault .reference t fault) : ParamFault reg (.reference mutable t) fault
  | refArray {t : Ty} {fault : LoweringFault} (mutable : Bool) (length : Nat)
      (h : reg.ValueFault .arrayElement t fault) :
      ParamFault reg (.reference mutable (.array t length)) fault
  | optionalRef {t : Ty} {fault : LoweringFault} (mutable : Bool)
      (h : reg.ValueFault .optionalReference t fault) :
      ParamFault reg (.wrapped .optional (.reference mutable t)) fault
  | optionalSlice {t : Ty} {fault : LoweringFault} (mutable : Bool)
      (h : reg.ValueFault .sliceElement t fault) :
      ParamFault reg (.wrapped .optional (.slice mutable t)) fault
  | optionalValue {t : Ty} {fault : LoweringFault} (ht : t.isSimple = true)
      (h : reg.ValueFault .optionalParameter t fault) :
      ParamFault reg (.wrapped .optional t) fault
  | optionalOptional (t : Ty) :
      ParamFault reg (.wrapped .optional (.wrapped .optional t))
        (.nestedOptional (.wrapped .optional (.wrapped .optional t)))
  | optionalArray (t : Ty) (length : Nat) :
      ParamFault reg (.wrapped .optional (.array t length))
        (.optionalArray (.wrapped .optional (.array t length)) (.array t length))

/-- Why a type does not cross as a result. -/
inductive ReturnFault (reg : Registry) : Ty → LoweringFault → Prop
  | value {t : Ty} {fault : LoweringFault} (ht : t.isSimple = true) (hvoid : t ≠ .void)
      (h : reg.ValueFault .result t fault) : ReturnFault reg t fault
  | slice (mutable : Bool) (t : Ty) :
      ReturnFault reg (.slice mutable t) (.notReturnable (.slice mutable t))
  | text (mutable : Bool) : ReturnFault reg (.text mutable) (.notReturnable (.text mutable))
  | array (t : Ty) (length : Nat) :
      ReturnFault reg (.array t length) (.notReturnable (.array t length))
  | ref {t : Ty} {fault : LoweringFault} (mutable : Bool) (ht : t.isArray = false)
      (h : reg.ValueFault .returnedReference t fault) :
      ReturnFault reg (.reference mutable t) fault
  | refArray (mutable : Bool) (t : Ty) (length : Nat) :
      ReturnFault reg (.reference mutable (.array t length)) (.returnedArray (.array t length))
  | optionalRef {t : Ty} {fault : LoweringFault} (mutable : Bool) (ht : t.isArray = false)
      (h : reg.ValueFault .returnedReference t fault) :
      ReturnFault reg (.wrapped .optional (.reference mutable t)) fault
  | optionalRefArray (mutable : Bool) (t : Ty) (length : Nat) :
      ReturnFault reg (.wrapped .optional (.reference mutable (.array t length)))
        (.returnedArray (.array t length))
  | optional {t : Ty} (ht : t.isReference = false) :
      ReturnFault reg (.wrapped .optional t) (.optionalNotReturnable (.wrapped .optional t))

variable {reg : Registry} {t : Ty} {site : Site} {v : ValueForm} {fault : LoweringFault}

/-! ### Values -/

theorem ByValue.isSimple (h : reg.ByValue t v) : t.isSimple = true := by
  cases h <;> rfl

theorem byValue_or_fault (reg : Registry) (site : Site) (t : Ty) :
    (∃ v, reg.ByValue t v) ∨ ∃ fault, reg.ValueFault site t fault := by
  cases t with
  | generic name => exact .inr ⟨_, .generic name⟩
  | scalar s =>
    by_cases hs : s = .void
    · subst hs
      exact .inr ⟨_, .void⟩
    · exact .inl ⟨_, .scalar hs⟩
  | record name =>
    cases henum : reg.enum? name with
    | some e => exact .inl ⟨_, .enum henum⟩
    | none =>
      cases hrecord : reg.record? name with
      | none => exact .inr ⟨_, .unknown henum hrecord⟩
      | some r =>
        cases hlayout : r.hasLayout with
        | false => exact .inr ⟨_, .noLayout henum hrecord hlayout⟩
        | true => exact .inl ⟨_, .record henum hrecord hlayout⟩
  | _ => exact .inr ⟨_, .kind rfl⟩

theorem valueShape_of_byValue (h : reg.ByValue t v) (site : Site) :
    reg.valueShape site t = .ok v.shape := by
  cases h with
  | scalar h =>
    unfold valueShape
    split <;> simp_all
  | enum h => simp [valueShape, h]
  | record henum h hlayout => simp [valueShape, henum, h, hlayout]

theorem valueShape_of_fault (h : reg.ValueFault site t fault) :
    reg.valueShape site t = .error fault := by
  cases h with
  | generic | void => rfl
  | unknown henum h => simp [valueShape, henum, h]
  | noLayout henum h hlayout => simp [valueShape, henum, h, hlayout]
  | kind h =>
    cases t with
    | scalar | record | generic => cases h
    | _ => rfl

theorem byValue_of_valueShape {shape : Shape} (h : reg.valueShape site t = .ok shape) :
    ∃ v, reg.ByValue t v ∧ v.shape = shape := by
  obtain ⟨v, hv⟩ | ⟨fault, hfault⟩ := byValue_or_fault reg site t
  · exact ⟨v, hv, Except.ok.inj ((valueShape_of_byValue hv site).symm.trans h)⟩
  · cases (valueShape_of_fault hfault).symm.trans h

theorem pointee_of_byValue (h : reg.ByValue t v) (site : Site) :
    reg.pointee site t = .ok v.target := by
  refine Tokens.bind_eq_ok.2 ⟨_, valueShape_of_byValue h site, ?_⟩
  cases h <;> rfl

theorem pointee_of_fault (h : reg.ValueFault site t fault) : reg.pointee site t = .error fault :=
  error_bind (valueShape_of_fault h) _

theorem valueRecipe_of_byValue (h : reg.ByValue t v) : reg.valueRecipe t = v.recipe := by
  cases h with
  | scalar => rfl
  | enum h => simp [valueRecipe, h]
  | record henum => simp [valueRecipe, henum]

/-! ### Parameters -/

theorem refForm_or_fault (reg : Registry) (mutable : Bool) (t : Ty) :
    (∃ l, reg.ParamForm (.reference mutable t) l) ∨
      ∃ fault, reg.ParamFault (.reference mutable t) fault := by
  cases t with
  | array elem length =>
    obtain ⟨v, hv⟩ | ⟨fault, hfault⟩ := byValue_or_fault reg .arrayElement elem
    · exact .inl ⟨_, .refArray mutable length hv⟩
    · exact .inr ⟨_, .refArray mutable length hfault⟩
  | _ =>
    obtain ⟨v, hv⟩ | ⟨fault, hfault⟩ := byValue_or_fault reg .reference _
    · exact .inl ⟨_, .ref mutable hv⟩
    · exact .inr ⟨_, .ref mutable rfl hfault⟩

theorem optionalRefForm_or_fault (reg : Registry) (mutable : Bool) (t : Ty) :
    (∃ l, reg.ParamForm (.wrapped .optional (.reference mutable t)) l) ∨
      ∃ fault, reg.ParamFault (.wrapped .optional (.reference mutable t)) fault := by
  obtain ⟨v, hv⟩ | ⟨fault, hfault⟩ := byValue_or_fault reg .optionalReference t
  · exact .inl ⟨_, .optionalRef mutable hv⟩
  · exact .inr ⟨_, .optionalRef mutable hfault⟩

theorem optionalForm_or_fault (reg : Registry) (t : Ty) :
    (∃ l, reg.ParamForm (.wrapped .optional t) l) ∨
      ∃ fault, reg.ParamFault (.wrapped .optional t) fault := by
  cases t with
  | scalar | record | generic =>
    obtain ⟨v, hv⟩ | ⟨fault, hfault⟩ := byValue_or_fault reg .optionalParameter _
    · exact .inl ⟨_, .optionalValue hv⟩
    · exact .inr ⟨_, .optionalValue rfl hfault⟩
  | array elem length => exact .inr ⟨_, .optionalArray elem length⟩
  | slice mutable elem =>
    obtain ⟨v, hv⟩ | ⟨fault, hfault⟩ := byValue_or_fault reg .sliceElement elem
    · exact .inl ⟨_, .optionalSlice mutable hv⟩
    · exact .inr ⟨_, .optionalSlice mutable hfault⟩
  | text mutable => exact .inl ⟨_, .optionalText mutable⟩
  | wrapped kind inner =>
    cases kind with
    | ref => exact optionalRefForm_or_fault reg false inner
    | refMut => exact optionalRefForm_or_fault reg true inner
    | optional => exact .inr ⟨_, .optionalOptional inner⟩

/-- Every type crosses as a parameter or is refused. -/
theorem paramForm_or_fault (reg : Registry) (t : Ty) :
    (∃ l, reg.ParamForm t l) ∨ ∃ fault, reg.ParamFault t fault := by
  cases t with
  | scalar | record | generic =>
    obtain ⟨v, hv⟩ | ⟨fault, hfault⟩ := byValue_or_fault reg .parameter _
    · exact .inl ⟨_, .value hv⟩
    · exact .inr ⟨_, .value rfl hfault⟩
  | array elem length =>
    obtain ⟨v, hv⟩ | ⟨fault, hfault⟩ := byValue_or_fault reg .arrayElement elem
    · exact .inl ⟨_, .array length hv⟩
    · exact .inr ⟨_, .array length hfault⟩
  | slice mutable elem =>
    obtain ⟨v, hv⟩ | ⟨fault, hfault⟩ := byValue_or_fault reg .sliceElement elem
    · exact .inl ⟨_, .slice mutable hv⟩
    · exact .inr ⟨_, .slice mutable hfault⟩
  | text mutable => exact .inl ⟨_, .text mutable⟩
  | wrapped kind inner =>
    cases kind with
    | ref => exact refForm_or_fault reg false inner
    | refMut => exact refForm_or_fault reg true inner
    | optional => exact optionalForm_or_fault reg inner

/-- How a type that is passed on to stand by value is lowered. -/
theorem lowerParam_of_isSimple (ht : t.isSimple = true) :
    reg.lowerParam t = (do
      let shape ← reg.valueShape .parameter t
      .ok ⟨[⟨shape, .whole⟩], reg.valueRecipe t, t, t⟩) := by
  cases t with
  | scalar | record | generic => rfl
  | _ => cases ht

theorem lowerOptional_of_isSimple (ht : t.isSimple = true) (source : Ty) :
    reg.lowerOptional source t = (do
      let shape ← reg.valueShape .optionalParameter t
      .ok ⟨[⟨.scalar .bool, .present⟩, ⟨shape, .value⟩], .optionalValue, source, t⟩) := by
  cases t with
  | scalar | record | generic => rfl
  | _ => cases ht

theorem lowerRef_of_not_isArray (ht : t.isArray = false) (source : Ty) (mutable : Bool) :
    reg.lowerRef source mutable t = (do
      let target ← reg.pointee .reference t
      .ok ⟨pointerTo target mutable false, .ref, source, t⟩) := by
  cases t with
  | array => cases ht
  | _ => rfl

theorem lowerParam_reference (mutable : Bool) :
    reg.lowerParam (.reference mutable t) =
      reg.lowerRef (.reference mutable t) mutable t := by
  cases mutable <;> rfl

theorem lowerParam_optionalRef (mutable : Bool) :
    reg.lowerParam (.wrapped .optional (.reference mutable t)) =
      reg.lowerOptionalRef (.wrapped .optional (.reference mutable t)) mutable t := by
  cases mutable <;> rfl

theorem lowerView_slice (h : reg.ByValue t v) (nullable mutable : Bool) :
    reg.lowerView nullable (.slice mutable t) =
      .ok (some ⟨pointerAndLength v.target mutable nullable, .slice, .slice mutable t, t⟩) :=
  Tokens.bind_eq_ok.2 ⟨_, pointee_of_byValue h _, rfl⟩

theorem ByValue.isArray (h : reg.ByValue t v) : t.isArray = false := by
  cases h <;> rfl

theorem lowerParam_of_form {l : Lowered} (h : reg.ParamForm t l) : reg.lowerParam t = .ok l := by
  cases h with
  | value h =>
    rw [lowerParam_of_isSimple h.isSimple, valueShape_of_byValue h, valueRecipe_of_byValue h]
    rfl
  | slice mutable h => exact Tokens.bind_eq_ok.2 ⟨_, lowerView_slice h _ mutable, rfl⟩
  | text => rfl
  | array length h => exact Tokens.bind_eq_ok.2 ⟨_, pointee_of_byValue h _, rfl⟩
  | ref mutable h =>
    rw [lowerParam_reference, lowerRef_of_not_isArray h.isArray, pointee_of_byValue h]
    rfl
  | refArray mutable length h =>
    rw [lowerParam_reference]
    exact Tokens.bind_eq_ok.2 ⟨_, pointee_of_byValue h _, rfl⟩
  | optionalRef mutable h =>
    rw [lowerParam_optionalRef]
    exact Tokens.bind_eq_ok.2 ⟨_, pointee_of_byValue h _, rfl⟩
  | optionalSlice mutable h => exact Tokens.bind_eq_ok.2 ⟨_, lowerView_slice h _ mutable, rfl⟩
  | optionalText => rfl
  | optionalValue h =>
    change reg.lowerOptional _ _ = _
    rw [lowerOptional_of_isSimple h.isSimple, valueShape_of_byValue h]
    rfl

theorem lowerParam_of_fault (h : reg.ParamFault t fault) : reg.lowerParam t = .error fault := by
  cases h with
  | value ht h =>
    rw [lowerParam_of_isSimple ht]
    exact error_bind (valueShape_of_fault h) _
  | slice mutable h => exact error_bind (error_bind (pointee_of_fault h) _) _
  | array length h => exact error_bind (pointee_of_fault h) _
  | ref mutable ht h =>
    rw [lowerParam_reference, lowerRef_of_not_isArray ht]
    exact error_bind (pointee_of_fault h) _
  | refArray mutable length h =>
    rw [lowerParam_reference]
    exact error_bind (pointee_of_fault h) _
  | optionalRef mutable h =>
    rw [lowerParam_optionalRef]
    exact error_bind (pointee_of_fault h) _
  | optionalSlice mutable h => exact error_bind (error_bind (pointee_of_fault h) _) _
  | optionalValue ht h =>
    change reg.lowerOptional _ _ = _
    rw [lowerOptional_of_isSimple ht]
    exact error_bind (valueShape_of_fault h) _
  | optionalOptional | optionalArray => rfl

theorem lowerParam_eq_ok {l : Lowered} : reg.lowerParam t = .ok l ↔ reg.ParamForm t l :=
  (eq_iff_of_total (fun _ => lowerParam_of_form) (fun _ => lowerParam_of_fault)
    (paramForm_or_fault reg t)).1 l

theorem lowerParam_eq_error : reg.lowerParam t = .error fault ↔ reg.ParamFault t fault :=
  (eq_iff_of_total (fun _ => lowerParam_of_form) (fun _ => lowerParam_of_fault)
    (paramForm_or_fault reg t)).2 fault

/-! ### Results -/

theorem simpleReturn_or_fault (reg : Registry) (ht : t.isSimple = true) :
    (∃ l, reg.ReturnForm t l) ∨ ∃ fault, reg.ReturnFault t fault := by
  by_cases hvoid : t = .void
  · subst hvoid
    exact .inl ⟨_, .void⟩
  obtain ⟨v, hv⟩ | ⟨fault, hfault⟩ := byValue_or_fault reg .result t
  · exact .inl ⟨_, .value hv⟩
  · exact .inr ⟨_, .value ht hvoid hfault⟩

theorem refReturn_or_fault (reg : Registry) (mutable : Bool) (t : Ty) :
    (∃ l, reg.ReturnForm (.reference mutable t) l) ∨
      ∃ fault, reg.ReturnFault (.reference mutable t) fault := by
  cases t with
  | array elem length => exact .inr ⟨_, .refArray mutable elem length⟩
  | _ =>
    obtain ⟨v, hv⟩ | ⟨fault, hfault⟩ := byValue_or_fault reg .returnedReference _
    · exact .inl ⟨_, .ref mutable hv⟩
    · exact .inr ⟨_, .ref mutable rfl hfault⟩

theorem optionalRefReturn_or_fault (reg : Registry) (mutable : Bool) (t : Ty) :
    (∃ l, reg.ReturnForm (.wrapped .optional (.reference mutable t)) l) ∨
      ∃ fault, reg.ReturnFault (.wrapped .optional (.reference mutable t)) fault := by
  cases t with
  | array elem length => exact .inr ⟨_, .optionalRefArray mutable elem length⟩
  | _ =>
    obtain ⟨v, hv⟩ | ⟨fault, hfault⟩ := byValue_or_fault reg .returnedReference _
    · exact .inl ⟨_, .optionalRef mutable hv⟩
    · exact .inr ⟨_, .optionalRef mutable rfl hfault⟩

/-- Every type crosses as a result or is refused. -/
theorem returnForm_or_fault (reg : Registry) (t : Ty) :
    (∃ l, reg.ReturnForm t l) ∨ ∃ fault, reg.ReturnFault t fault := by
  cases t with
  | scalar | record | generic => exact simpleReturn_or_fault reg rfl
  | array elem length => exact .inr ⟨_, .array elem length⟩
  | slice mutable elem => exact .inr ⟨_, .slice mutable elem⟩
  | text mutable => exact .inr ⟨_, .text mutable⟩
  | wrapped kind inner =>
    cases kind with
    | ref => exact refReturn_or_fault reg false inner
    | refMut => exact refReturn_or_fault reg true inner
    | optional =>
      cases inner with
      | wrapped kind t =>
        cases kind with
        | ref => exact optionalRefReturn_or_fault reg false t
        | refMut => exact optionalRefReturn_or_fault reg true t
        | optional => exact .inr ⟨_, .optional rfl⟩
      | _ => exact .inr ⟨_, .optional rfl⟩

theorem lowerReturn_of_isSimple (ht : t.isSimple = true) (hvoid : t ≠ .void) :
    reg.lowerReturn t = (do
      let shape ← reg.valueShape .result t
      .ok ⟨[⟨shape, .whole⟩], reg.valueRecipe t, t, t⟩) := by
  cases t with
  | scalar s =>
    cases s with
    | void => exact absurd rfl hvoid
    | _ => rfl
  | record | generic => rfl
  | _ => cases ht

theorem lowerReturn_reference (mutable : Bool) :
    reg.lowerReturn (.reference mutable t) = (do
      let slot ← reg.returnedRef mutable false t
      .ok ⟨[slot], .ref, .reference mutable t, t⟩) := by
  cases mutable <;> rfl

theorem lowerReturn_optionalRef (mutable : Bool) :
    reg.lowerReturn (.wrapped .optional (.reference mutable t)) = (do
      let slot ← reg.returnedRef mutable true t
      .ok ⟨[slot], .optionalRef, .wrapped .optional (.reference mutable t), t⟩) := by
  cases mutable <;> rfl

theorem returnedRef_of_not_isArray (ht : t.isArray = false) (mutable nullable : Bool) :
    reg.returnedRef mutable nullable t = (do
      let target ← reg.pointee .returnedReference t
      .ok ⟨.pointer target mutable nullable, .whole⟩) := by
  cases t with
  | array => cases ht
  | _ => rfl

theorem returnedRef_of_byValue (h : reg.ByValue t v) (mutable nullable : Bool) :
    reg.returnedRef mutable nullable t = .ok ⟨.pointer v.target mutable nullable, .whole⟩ := by
  rw [returnedRef_of_not_isArray h.isArray, pointee_of_byValue h]
  rfl

theorem returnedRef_of_fault (ht : t.isArray = false)
    (h : reg.ValueFault .returnedReference t fault) (mutable nullable : Bool) :
    reg.returnedRef mutable nullable t = .error fault := by
  rw [returnedRef_of_not_isArray ht]
  exact error_bind (pointee_of_fault h) _

theorem ByValue.ne_void (h : reg.ByValue t v) : t ≠ .void := by
  rintro rfl
  cases h with
  | scalar h => exact h rfl

theorem lowerReturn_of_form {l : Lowered} (h : reg.ReturnForm t l) : reg.lowerReturn t = .ok l := by
  cases h with
  | void => rfl
  | value h =>
    rw [lowerReturn_of_isSimple h.isSimple h.ne_void, valueShape_of_byValue h,
      valueRecipe_of_byValue h]
    rfl
  | ref mutable h =>
    rw [lowerReturn_reference, returnedRef_of_byValue h]
    rfl
  | optionalRef mutable h =>
    rw [lowerReturn_optionalRef, returnedRef_of_byValue h]
    rfl

theorem lowerReturn_of_fault (h : reg.ReturnFault t fault) : reg.lowerReturn t = .error fault := by
  cases h with
  | value ht hvoid h =>
    rw [lowerReturn_of_isSimple ht hvoid]
    exact error_bind (valueShape_of_fault h) _
  | slice | text | array => rfl
  | ref mutable ht h =>
    rw [lowerReturn_reference]
    exact error_bind (returnedRef_of_fault ht h _ _) _
  | optionalRef mutable ht h =>
    rw [lowerReturn_optionalRef]
    exact error_bind (returnedRef_of_fault ht h _ _) _
  | refArray mutable =>
    rw [lowerReturn_reference]
    rfl
  | optionalRefArray mutable =>
    rw [lowerReturn_optionalRef]
    rfl
  | optional ht =>
    rename_i t
    cases t with
    | wrapped kind =>
      cases kind with
      | ref | refMut => cases ht
      | optional => rfl
    | _ => rfl

theorem lowerReturn_eq_ok {l : Lowered} : reg.lowerReturn t = .ok l ↔ reg.ReturnForm t l :=
  (eq_iff_of_total (fun _ => lowerReturn_of_form) (fun _ => lowerReturn_of_fault)
    (returnForm_or_fault reg t)).1 l

theorem lowerReturn_eq_error : reg.lowerReturn t = .error fault ↔ reg.ReturnFault t fault :=
  (eq_iff_of_total (fun _ => lowerReturn_of_form) (fun _ => lowerReturn_of_fault)
    (returnForm_or_fault reg t)).2 fault

end Registry

/-! ### Marks of pointers -/

/-- The mutable forms, which stay so within an optional. -/
def Ty.isMutable : Ty → Bool
  | slice mutable _ | text mutable => mutable
  | wrapped .refMut _ => true
  | wrapped .optional t => t.isMutable
  | _ => false

def Ty.isOptional : Ty → Bool
  | wrapped .optional _ => true
  | _ => false

/-- Pointers to write through belong to mutable forms, and pointers that may be null to optional
ones. -/
def Lowered.IsMarkedAs (l : Lowered) (t : Ty) : Prop :=
  ∀ s ∈ l.slots, ∀ target mutable nullable, s.shape = .pointer target mutable nullable →
    mutable = t.isMutable ∧ nullable = t.isOptional

namespace Registry
variable {reg : Registry} {t : Ty} {v : ValueForm} {l l' : Lowered}

theorem isMutable_reference (mutable : Bool) : (Ty.reference mutable t).isMutable = mutable := by
  cases mutable <;> rfl

theorem isOptional_reference (mutable : Bool) : (Ty.reference mutable t).isOptional = false := by
  cases mutable <;> rfl

theorem ByValue.shape_ne_pointer (h : reg.ByValue t v) (target : Pointee) (mutable nullable : Bool) :
    v.shape ≠ .pointer target mutable nullable := by
  cases h <;> exact nofun

theorem ParamForm.isMarkedAs (h : reg.ParamForm t l) : l.IsMarkedAs t := by
  intro s hs target mutable nullable hshape
  cases h with
  | value h =>
    obtain rfl := List.mem_singleton.1 hs
    exact absurd hshape (h.shape_ne_pointer _ _ _)
  | slice | text | optionalSlice | optionalText =>
    obtain rfl | rfl := List.mem_pair.1 hs
    · cases hshape
      exact ⟨rfl, rfl⟩
    · cases hshape
  | array =>
    obtain rfl := List.mem_singleton.1 hs
    cases hshape
    exact ⟨rfl, rfl⟩
  | ref | refArray =>
    obtain rfl := List.mem_singleton.1 hs
    cases hshape
    exact ⟨(isMutable_reference _).symm, (isOptional_reference _).symm⟩
  | optionalRef =>
    obtain rfl := List.mem_singleton.1 hs
    cases hshape
    exact ⟨(isMutable_reference _).symm, rfl⟩
  | optionalValue h =>
    obtain rfl | rfl := List.mem_pair.1 hs
    · cases hshape
    · exact absurd hshape (h.shape_ne_pointer _ _ _)

theorem ReturnForm.isMarkedAs (h : reg.ReturnForm t l) : l.IsMarkedAs t := by
  cases h with
  | void =>
    rintro s hs target mutable nullable hshape
    obtain rfl := List.mem_singleton.1 hs
    cases hshape
  | value h => exact ParamForm.isMarkedAs (.value h)
  | ref mutable h => exact ParamForm.isMarkedAs (.ref mutable h)
  | optionalRef mutable h => exact ParamForm.isMarkedAs (.optionalRef mutable h)

theorem ReturnForm.exists_slot (h : reg.ReturnForm t l) : ∃ s, l.slots = [s] := by
  cases h <;> exact ⟨_, rfl⟩

/-- A type has one form as a parameter. -/
theorem ParamForm.unique (h : reg.ParamForm t l) (h' : reg.ParamForm t l') : l = l' :=
  Except.ok.inj ((lowerParam_of_form h).symm.trans (lowerParam_of_form h'))

/-- A type that crosses both ways has the same form both ways. -/
theorem ReturnForm.eq_of_paramForm (h : reg.ReturnForm t l) (h' : reg.ParamForm t l') : l' = l := by
  cases h with
  | void =>
    have hvoid : reg.lowerParam .void = .ok l' := lowerParam_of_form h'
    cases hvoid
  | value h => exact h'.unique (.value h)
  | ref mutable h => exact h'.unique (.ref mutable h)
  | optionalRef mutable h => exact h'.unique (.optionalRef mutable h)

/-- A type crosses the boundary just if it has a form, with the slots of the form; any other type is
refused with a fault of its own. The pointers among the slots are marked as the type is. A result
takes a single slot, and the one that it would take as a parameter. -/
theorem lowering_forms (reg : Registry) (t : Ty) :
    (∀ l, reg.lowerParam t = .ok l ↔ reg.ParamForm t l) ∧
    (∀ fault, reg.lowerParam t = .error fault ↔ reg.ParamFault t fault) ∧
    ((∃ l, reg.ParamForm t l) ∨ ∃ fault, reg.ParamFault t fault) ∧
    (∀ l, reg.lowerReturn t = .ok l ↔ reg.ReturnForm t l) ∧
    (∀ fault, reg.lowerReturn t = .error fault ↔ reg.ReturnFault t fault) ∧
    ((∃ l, reg.ReturnForm t l) ∨ ∃ fault, reg.ReturnFault t fault) ∧
    (∀ l, reg.ParamForm t l ∨ reg.ReturnForm t l → l.IsMarkedAs t) ∧
    ∀ l, reg.ReturnForm t l → (∃ s, l.slots = [s]) ∧ ∀ l', reg.ParamForm t l' → l' = l := by
  refine ⟨fun _ => lowerParam_eq_ok, fun _ => lowerParam_eq_error, paramForm_or_fault reg t,
    fun _ => lowerReturn_eq_ok, fun _ => lowerReturn_eq_error, returnForm_or_fault reg t, ?_,
    fun l hl => ⟨hl.exists_slot, fun _ => hl.eq_of_paramForm⟩⟩
  rintro l (hl | hl)
  · exact hl.isMarkedAs
  · exact hl.isMarkedAs

end Registry
end Bindery
