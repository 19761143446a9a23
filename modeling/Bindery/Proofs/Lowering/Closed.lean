import Bindery.Emission
import Bindery.Proofs.Lowering.Forms
import Bindery.Proofs.Syntax.Reads
import Bindery.Proofs.Ty.Spelling

/-!
# Lowering types without generic parameters

A function in whose types no generic parameter occurs may have types that cannot cross the foreign
boundary, but no product fails over an unresolved parameter when the function is added to it.
-/
namespace Bindery

namespace LoweringFault

/-- A fault without the names of the function, the parameter or the field that it is in. -/
def root : LoweringFault → LoweringFault
  | inParam _ _ cause | inReturn _ cause | inField _ _ cause => cause.root
  | fault => fault

/-- A fault that is not over an unresolved generic parameter. -/
def IsResolved (fault : LoweringFault) : Prop :=
  ∀ name site, fault.root ≠ .unresolvedGeneric name site

end LoweringFault

/-- Lowering with some result, or without one but not for an unresolved generic parameter. -/
def Resolves {α : Type} (x : Except LoweringFault α) : Prop :=
  Gives LoweringFault.IsResolved (fun _ => True) x

namespace Resolves
variable {α β : Type} {x : Except LoweringFault α} {fault : LoweringFault}

theorem ok {a : α} : Resolves (.ok a) := trivial

/-- A fault of another kind. -/
theorem error (h : fault.IsResolved) : Resolves (α := α) (.error fault) := h

theorem bind {f : α → Except LoweringFault β} (hx : Resolves x) (hf : ∀ a, Resolves (f a)) :
    Resolves (x >>= f) :=
  Gives.bind hx fun a _ => hf a

theorem map (hx : Resolves x) (f : α → β) : Resolves (f <$> x) := by
  cases x with
  | ok a => exact .ok
  | error e => exact hx

theorem mapM {f : α → Except LoweringFault β} {as : List α} (h : ∀ a ∈ as, Resolves (f a)) :
    Resolves (as.mapM f) := by
  induction as with
  | nil => exact .ok
  | cons a as ih =>
    rw [List.mapM_cons]
    refine (h a List.mem_cons_self).bind fun _ => ?_
    exact (ih fun b hb => h b (List.mem_cons_of_mem _ hb)).bind fun _ => .ok

theorem mapOption {f : α → Except LoweringFault β} {o : Option α} (h : ∀ a ∈ o, Resolves (f a)) :
    Resolves (o.mapM f) := by
  cases o with
  | none => exact .ok
  | some a => exact (h a rfl).bind fun _ => .ok

end Resolves

namespace Registry
variable {reg : Registry} {t : Ty} {site : Site} {fault : LoweringFault}

theorem ValueFault.isResolved (h : reg.ValueFault site t fault) (ht : t.IsScoped []) :
    fault.IsResolved := by
  cases h with
  | generic => exact absurd ht List.not_mem_nil
  | _ => exact nofun

theorem isScoped_reference {mutable : Bool} (ht : (Ty.reference mutable t).IsScoped []) :
    t.IsScoped [] := by
  cases mutable <;> exact ht

theorem ParamFault.isResolved (h : reg.ParamFault t fault) (ht : t.IsScoped []) :
    fault.IsResolved := by
  cases h with
  | value _ h | slice _ h | array _ h | optionalSlice _ h | optionalValue _ h =>
    exact h.isResolved ht
  | ref _ _ h | optionalRef _ h => exact h.isResolved (isScoped_reference ht)
  | refArray _ length h => exact h.isResolved (isScoped_reference (t := .array _ length) ht)
  | optionalOptional | optionalArray => exact nofun

theorem ReturnFault.isResolved (h : reg.ReturnFault t fault) (ht : t.IsScoped []) :
    fault.IsResolved := by
  cases h with
  | value _ _ h => exact h.isResolved ht
  | ref _ _ h | optionalRef _ _ h => exact h.isResolved (isScoped_reference ht)
  | _ => exact nofun

theorem resolves_lowerValue (ht : t.IsScoped []) : Resolves (reg.lowerValue t) := by
  refine Resolves.bind ?_ fun _ => .ok
  obtain ⟨v, hv⟩ | ⟨fault, hfault⟩ := byValue_or_fault reg .value t
  · rw [valueShape_of_byValue hv]
    exact .ok
  · rw [valueShape_of_fault hfault]
    exact .error (hfault.isResolved ht)

theorem resolves_lowerParam (ht : t.IsScoped []) : Resolves (reg.lowerParam t) := by
  cases hlower : reg.lowerParam t with
  | ok l => exact .ok
  | error fault => exact .error ((lowerParam_eq_error.1 hlower).isResolved ht)

theorem resolves_lowerReturn (ht : t.IsScoped []) : Resolves (reg.lowerReturn t) := by
  cases hlower : reg.lowerReturn t with
  | ok l => exact .ok
  | error fault => exact .error ((lowerReturn_eq_error.1 hlower).isResolved ht)

theorem resolves_lowerParamsOf {function : String} {ps : List Param}
    (h : ∀ p ∈ ps, p.type.IsScoped []) : Resolves (reg.lowerParamsOf function ps) := by
  refine .mapM fun p hp => ?_
  split
  · exact .ok
  · have hfault := (resolves_lowerParam (h p hp)).of_error ‹_›
    exact .error hfault

theorem resolves_lowerParams {ps : List Param} (h : ∀ p ∈ ps, p.type.IsScoped []) :
    Resolves (reg.lowerParams ps) :=
  .mapM fun p hp => (resolves_lowerParam (h p hp)).bind fun _ => .ok

theorem resolves_lowerReturnOf {function : String} (ht : t.IsScoped []) :
    Resolves (reg.lowerReturnOf function t) := by
  unfold lowerReturnOf
  split
  · exact .ok
  · have hfault := (resolves_lowerReturn ht).of_error ‹_›
    exact .error hfault

end Registry

/-! Spelling a type for the host fails over nothing but its form. -/

namespace Spelling
variable {t : Ty} {mutable : Bool}

theorem resolves_value : Resolves (value t) := by
  induction t with
  | scalar | record => exact .ok
  | array elem length ih => exact ih.bind fun _ => .ok
  | _ => exact .error nofun

theorem resolves_span : Resolves (span mutable t) := resolves_value.bind fun _ => .ok

theorem resolves_reference {mark : String} : Resolves (reference mutable mark t) :=
  resolves_value.bind fun _ => .ok

theorem resolves_param : Resolves (param t) := by
  unfold param
  split
  case h_1 | h_2 => exact resolves_value
  case h_3 | h_6 | h_7 | h_8 | h_9 => exact resolves_reference
  case h_4 => exact resolves_span
  case h_5 | h_11 => exact .ok
  case h_10 => exact resolves_span.map _
  case h_12 => exact resolves_value.map _
  case h_13 => exact .error nofun

theorem resolves_result : Resolves (result t) := by
  unfold result
  split
  case h_1 | h_2 => exact resolves_value
  case h_7 => exact .error nofun
  all_goals exact resolves_reference

theorem resolves_params {ps : List Param} : Resolves (params ps) :=
  (Resolves.mapM fun _ _ => resolves_param.bind fun _ => .ok).bind fun _ => .ok

end Spelling

section
variable {reg : Registry} {f : Signature} {lps : List LoweredParam} {ret : Lowered}

theorem Hold.resolves_of (l : Lowered) : Resolves (Hold.of l) := by
  unfold Hold.of
  split
  · exact Spelling.resolves_value.map _
  · exact .ok
  · exact Spelling.resolves_value.map _
  · split
    · exact Spelling.resolves_value.map _
    · exact .ok
  · exact .ok

theorem HighWrapper.resolves_new : Resolves (HighWrapper.new reg f lps ret) :=
  Spelling.resolves_result.bind fun _ => Spelling.resolves_params.bind fun _ => .ok

theorem Capture.resolves_new (lp : LoweredParam) : Resolves (Capture.new f lp) := by
  unfold Capture.new
  split
  · exact .error nofun
  · exact (Hold.resolves_of _).bind fun _ => .ok

theorem AsyncWrapper.resolves_new : Resolves (AsyncWrapper.new reg f lps ret) := by
  unfold AsyncWrapper.new
  split
  · exact .error nofun
  · refine (Resolves.mapM fun lp _ => Capture.resolves_new lp).bind fun _ => ?_
    exact Spelling.resolves_result.bind fun _ => Spelling.resolves_params.bind fun _ => .ok

theorem Transform.resolves_parse (text : String) : Resolves (Transform.parse text) := by
  unfold Transform.parse
  split
  · exact .ok
  · exact .error nofun

theorem Binding.resolves_lowSlot {b : Binding} (hb : ∀ t ∈ b.lowReturn, t.IsScoped []) :
    Resolves (b.lowSlot reg f) := by
  unfold Binding.lowSlot
  split
  · exact .ok
  · refine (Registry.resolves_lowerReturnOf (hb _ ‹_›)).bind fun l => ?_
    split
    · exact .error nofun
    · exact .ok

theorem LowWrapper.resolves_new {b : Binding} (hb : ∀ t ∈ b.lowReturn, t.IsScoped []) :
    Resolves (LowWrapper.new reg f lps ret b) := by
  refine (Binding.resolves_lowSlot hb).bind fun _ => ?_
  exact (Resolves.mapOption fun t _ => Transform.resolves_parse t).bind fun _ => .ok

theorem Signature.resolves_checkBinding : Resolves f.checkBinding := by
  unfold Signature.checkBinding
  split
  · exact .ok
  · split
    · exact .ok
    · split
      · exact .error nofun
      · split
        · exact .error nofun
        · refine (Resolves.mapOption fun t _ => Transform.resolves_parse t).bind fun _ => ?_
          split
          · exact .error nofun
          · exact .ok

end

/-! ### Products -/

/-- An emission that fails over no unresolved generic parameter. -/
def Emit.Resolves {α : Type} (m : Emit α) : Prop :=
  ∀ e, Gives (fun failure => ∀ fault, failure = .lowering fault → fault.IsResolved) (fun _ => True)
    ((ExceptT.run m).run e).1

namespace Emit
variable {α β : Type} {m : Emit α}

theorem resolves_pure (a : α) : Resolves (pure a) := fun _ => trivial

theorem Resolves.bind {f : α → Emit β} (hm : m.Resolves) (hf : ∀ a, (f a).Resolves) :
    Resolves (m >>= f) := by
  intro e
  have hfirst := hm e
  rw [ExceptT.run_bind, StateT.run_bind]
  generalize StateT.run (ExceptT.run m) e = outcome at hfirst ⊢
  obtain ⟨result, e'⟩ := outcome
  cases result with
  | ok a => exact hf a e'
  | error failure => exact hfirst

theorem Resolves.map (hm : m.Resolves) (f : α → β) : Resolves (f <$> m) :=
  hm.bind fun _ => resolves_pure _

theorem resolves_lower {x : Except LoweringFault α} (hx : Bindery.Resolves x) :
    Resolves (lower x) := by
  cases x with
  | ok a => exact resolves_pure a
  | error fault =>
    rintro e _ ⟨⟩
    exact hx

/-- A refusal, whatever would come after it. -/
theorem resolves_refuse (fault : LoweringFault) (h : fault.IsResolved) (f : α → Emit β) :
    Resolves (throw (.lowering fault) >>= f) := by
  rintro e _ ⟨⟩
  exact h

theorem resolves_note (level : Level) (text : String) : Resolves (note level text) :=
  fun _ => trivial

theorem resolves_provide (name : String) (kind : ProvidedKind) (type : String) :
    Resolves (provide name kind type) :=
  fun _ => trivial

theorem resolves_registry : Resolves registry := fun _ => trivial

theorem resolves_declare (x : Header) (f : ForeignFunction) : Resolves (declare x f) :=
  fun _ => trivial

end Emit

namespace Header
open Emit
variable {x : Header} {f : Signature} {lps : List LoweredParam} {ret : Lowered}

theorem resolves_noteBinding (f : Signature) : (noteBinding f).Resolves := by
  unfold noteBinding
  split
  · exact resolves_pure _
  · split
    · split
      · exact resolves_note _ _
      · exact resolves_pure _
    · split
      · exact resolves_note _ _
      · exact resolves_pure _

theorem resolves_addHigh : (addHigh x f lps ret).Resolves := by
  refine resolves_registry.bind fun reg => ?_
  split
  · refine (resolves_lower AsyncWrapper.resolves_new).bind fun w => ?_
    exact (resolves_provide _ _ _).bind fun _ => resolves_pure _
  · refine (resolves_lower HighWrapper.resolves_new).bind fun w => ?_
    exact (resolves_provide _ _ _).bind fun _ => resolves_pure _

end Header

/-- The types that lowering a function takes from it. -/
def Signature.types (f : Signature) : List Ty :=
  f.params.map (·.type) ++ f.ret :: (f.binding.bind (·.lowReturn)).toList

variable {f : Signature}

namespace Signature

theorem isScoped_params (h : ∀ t ∈ f.types, t.IsScoped []) :
    ∀ p ∈ f.params, p.type.IsScoped [] :=
  fun _ hp => h _ (List.mem_append_left _ (List.mem_map_of_mem hp))

theorem isScoped_ret (h : ∀ t ∈ f.types, t.IsScoped []) : f.ret.IsScoped [] :=
  h _ (List.mem_append_right _ List.mem_cons_self)

theorem isScoped_lowReturn (h : ∀ t ∈ f.types, t.IsScoped []) :
    ∀ t ∈ f.binding.bind (·.lowReturn), t.IsScoped [] :=
  fun t ht => h t (List.mem_append_right _ (List.mem_cons_of_mem _ (Option.mem_toList.2 ht)))

end Signature

theorem Header.resolves_addLow {x : Header} {lps : List LoweredParam} {ret : Lowered}
    (h : ∀ t ∈ f.types, t.IsScoped []) : (addLow x f lps ret).Resolves := by
  have hlow : ∀ t ∈ (f.binding.getD {}).lowReturn, t.IsScoped [] := by
    have hscoped := Signature.isScoped_lowReturn h
    cases hb : f.binding with
    | none => nofun
    | some b =>
      rw [hb] at hscoped
      exact hscoped
  refine Emit.resolves_registry.bind fun reg => ?_
  refine (Emit.resolves_lower (LowWrapper.resolves_new hlow)).bind fun w => ?_
  exact (Emit.resolves_provide _ _ _).bind fun _ => Emit.resolves_pure _

theorem Header.resolves_addFunction {x : Header} (h : ∀ t ∈ f.types, t.IsScoped []) :
    (addFunction x f).Resolves := by
  have hadd : ∀ {y : Header} {lps : List LoweredParam} {ret : Lowered},
      (if f.hasLow then y.addLow f lps ret else pure y : Emit Header).Resolves := by
    intro y lps ret
    split
    · exact resolves_addLow h
    · exact Emit.resolves_pure _
  unfold addFunction
  dsimp only
  split
  · exact Emit.resolves_refuse (.genericFunction f.name) nofun _
  · refine (Emit.resolves_lower Signature.resolves_checkBinding).bind fun _ => ?_
    refine (resolves_noteBinding f).bind fun _ => Emit.resolves_registry.bind fun reg => ?_
    refine (Emit.resolves_lower (Registry.resolves_lowerParamsOf
      (Signature.isScoped_params h))).bind fun lps => ?_
    refine (Emit.resolves_lower (Registry.resolves_lowerReturnOf
      (Signature.isScoped_ret h))).bind fun ret => ?_
    refine (Emit.resolves_declare _ _).bind fun y => (Emit.resolves_provide _ _ _).bind fun _ => ?_
    split
    · exact resolves_addHigh.bind fun _ => hadd
    · exact (Emit.resolves_pure _).bind fun _ => hadd

theorem Interface.resolves_ofFunction {reg : Registry} (h : ∀ t ∈ f.types, t.IsScoped []) :
    Resolves (ofFunction reg f) := by
  refine (Registry.resolves_lowerParams (Signature.isScoped_params h)).bind fun lps => ?_
  refine (Registry.resolves_lowerReturn (Signature.isScoped_ret h)).bind fun ret => ?_
  dsimp only
  split
  · refine Resolves.bind (.mapOption fun t ht => ?_) fun _ => .ok
    exact Registry.resolves_lowerReturn (Signature.isScoped_lowReturn h t ht)
  · exact .ok

/-- Adding a function without generic parameters to a product fails over none. -/
theorem Product.resolves_addFunction (p : Product) (h : ∀ t ∈ f.types, t.IsScoped []) :
    (p.addFunction f).Resolves := by
  cases p with
  | header x => exact (Header.resolves_addFunction h).map _
  | script x =>
    exact Emit.resolves_registry.bind fun reg =>
      (Emit.resolves_lower (Interface.resolves_ofFunction h)).bind fun _ => Emit.resolves_pure _

end Bindery
