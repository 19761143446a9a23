import Bindery.Proofs.Emission.Blocks
import Bindery.Proofs.Lowering.Forms
import Bindery.Proofs.Lowering.Transform

/-!
# Low-level wrappers

A function has a low-level wrapper if its binding asks for one and fits the function. The wrapper is
exported under a name of its own with the parameters of the foreign function, and returns what the
foreign function does, as it is or converted as the binding says.
-/
namespace Bindery

/-- A result type that crosses in a slot and is not `void`. -/
def Registry.Returns (reg : Registry) (t : Ty) (s : Slot) : Prop :=
  ∃ l, reg.lowerReturn t = .ok l ∧ l.slots = [s] ∧ s.shape ≠ .void

/-- A binding suits a function if its low-level wrapper gets a name apart from the foreign one and the
high-level one, if there is a result where one is to be converted, and if the transform and the type
that convert it are proper ones. -/
structure Binding.Suits (b : Binding) (reg : Registry) (f : Signature) : Prop where
  named : b.lowPrefix ≠ ""
  apart : f.hasHigh = true → b.lowPrefix ≠ b.highPrefix
  returned : b.lowReturn.isSome = true ∨ b.transform.isSome = true → f.ret ≠ .void
  transformed : ∀ text ∈ b.transform, ∃ t : Transform, t.IsWritten text
  converted : ∀ t ∈ b.lowReturn, ∃ s, reg.Returns t s

/-- The slot that a low-level wrapper returns: the one of its own type, or else the imported one. -/
inductive Binding.ReturnsAs (b : Binding) (reg : Registry) (imported : Slot) : Slot → Prop
  | imported (h : b.lowReturn = none) : ReturnsAs b reg imported imported
  | own {t : Ty} {s : Slot} (h : b.lowReturn = some t) (hs : reg.Returns t s) :
      ReturnsAs b reg imported s

/-- The text that ends a low-level wrapper of a function, for the call of the function and the type
that the wrapper returns. -/
inductive Signature.LowText (f : Signature) (b : Binding) (call type : String) : String → Prop
  | call (hret : f.ret = .void) (htype : b.lowReturn = none) (h : b.transform = none) :
      LowText f b call type ("  " ++ call ++ ";\n")
  | result (hret : f.ret ≠ .void) (htype : b.lowReturn = none) (h : b.transform = none) :
      LowText f b call type ("  return " ++ call ++ ";\n")
  | cast {t : Ty} (hret : f.ret ≠ .void) (htype : b.lowReturn = some t) (h : b.transform = none) :
      LowText f b call type ("  return " ++ ("static_cast<" ++ type ++ ">(" ++ call ++ ")") ++ ";\n")
  | transform {text : String} {t : Transform} (hret : f.ret ≠ .void) (h : b.transform = some text)
      (ht : t.IsWritten text) :
      LowText f b call type ("  auto zb_raw = " ++ call ++ ";\n  return static_cast<" ++ type ++
        ">([](auto " ++ t.param ++ ") \x7b return (" ++ t.expr ++ "); \x7d(zb_raw));\n")

/-- A low-level wrapper of a function that honours its binding. -/
structure LowWrapper.Honours (w : LowWrapper) (reg : Registry) (f : Signature) (b : Binding)
    (imported : ForeignFunction) : Prop where
  name_ne_symbol : w.foreign.symbol ≠ imported.symbol
  name_ne_high : f.hasHigh = true → w.foreign.symbol ≠ f.highName
  result : ∃ s, b.ReturnsAs reg imported.result s ∧ w.result = Spelling.slot s
  text : ∃ body,
    f.LowText b ("ffi::" ++ imported.symbol ++ "(" ++
      Text.join ", " (imported.params.map (·.name)) ++ ")") w.result body ∧
    let head := "extern \"C\" ZIGBIND_EXPORT_ATTR " ++ w.result ++ " " ++ w.foreign.symbol ++ "(" ++
      imported.paramList ++ ")"
    (Wrapper.low w).render = head ++ ";\n\n" ∧
      (Wrapper.low w).definition = head ++ "\n\x7b\n" ++ body ++ "\x7d\n\n"

section
variable {reg : Registry} {f : Signature} {b : Binding} {lps : List LoweredParam} {ret : Lowered}
  {t : Ty} {l : Lowered} {w : LowWrapper}

/-! ### What the checks let through -/

theorem Registry.lowerReturnOf_eq_ok {function : String} :
    reg.lowerReturnOf function t = .ok l ↔ reg.lowerReturn t = .ok l := by
  constructor
  · exact lowerReturn_of_lowerReturnOf
  · intro h
    rw [lowerReturnOf, h]

/-- A result takes a single slot, and only that of `void` is empty. -/
theorem Registry.slot_of_lowerReturn (h : reg.lowerReturn t = .ok l) :
    ∃ s, l.slots = [s] ∧ l.slot = s ∧ (s.isVoid = true ↔ t = .void) := by
  rw [lowerReturn_eq_ok] at h
  cases h with
  | void => exact ⟨_, rfl, rfl, by decide⟩
  | value h =>
    refine ⟨_, rfl, rfl, ⟨fun hvoid => ?_, fun ht => absurd ht h.ne_void⟩⟩
    cases h <;> cases hvoid
  | ref mutable => exact ⟨_, rfl, rfl, ⟨nofun, fun ht => by cases mutable <;> cases ht⟩⟩
  | optionalRef => exact ⟨_, rfl, rfl, nofun, nofun⟩

theorem Transform.mapM_parse_eq_ok {texts : Option String} {r : Option Transform} :
    texts.mapM parse = .ok r ↔ (texts = none ∧ r = none) ∨
      ∃ text t, texts = some text ∧ IsWritten t text ∧ r = some t := by
  cases texts with
  | none =>
    rw [Option.mapM_none]
    constructor
    · rintro ⟨⟩
      exact .inl ⟨rfl, rfl⟩
    · rintro (⟨-, rfl⟩ | ⟨_, _, ⟨⟩, _⟩)
      rfl
  | some text =>
    rw [Option.mapM_some, map_eq_ok]
    constructor
    · rintro ⟨t, ht, rfl⟩
      exact .inr ⟨text, t, rfl, parse_eq_ok.1 ht, rfl⟩
    · rintro (⟨⟨⟩, -⟩ | ⟨_, t, ⟨⟩, ht, rfl⟩)
      exact ⟨t, parse_eq_ok.2 ht, rfl⟩

theorem Transform.exists_mapM_parse_iff {texts : Option String} :
    (∃ r, texts.mapM parse = .ok r) ↔ ∀ text ∈ texts, ∃ t : Transform, t.IsWritten text := by
  constructor
  · rintro ⟨r, hr⟩ text htext
    obtain ⟨hnone, -⟩ | ⟨_, t, hsome, ht, -⟩ := mapM_parse_eq_ok.1 hr
    · rw [hnone] at htext
      cases htext
    · rw [hsome] at htext
      cases htext
      exact ⟨t, ht⟩
  · intro h
    cases texts with
    | none => exact ⟨none, rfl⟩
    | some text =>
      obtain ⟨t, ht⟩ := h text rfl
      exact ⟨some t, mapM_parse_eq_ok.2 (.inr ⟨text, t, rfl, ht, rfl⟩)⟩

theorem Signature.checkBinding_eq_ok (hb : f.binding = some b) (hlow : f.hasLow = true) :
    f.checkBinding = .ok ⟨⟩ ↔ b.lowPrefix ≠ "" ∧ (f.hasHigh = true → b.lowPrefix ≠ b.highPrefix) ∧
      (∀ text ∈ b.transform, ∃ t : Transform, t.IsWritten text) ∧
      (b.lowReturn.isSome = true ∨ b.transform.isSome = true → f.ret ≠ .void) := by
  have hvoid : f.ret.isVoid = true ↔ f.ret = .void := decide_eq_true_iff
  unfold checkBinding
  rw [hb]
  dsimp only
  rw [hlow, if_neg (by decide)]
  by_cases hempty : b.lowPrefix = ""
  · rw [if_pos hempty]
    exact ⟨nofun, fun h => absurd hempty h.1⟩
  rw [if_neg hempty]
  by_cases hequal : f.hasHigh = true ∧ b.lowPrefix = b.highPrefix
  · rw [if_pos hequal]
    exact ⟨nofun, fun h => absurd hequal.2 (h.2.1 hequal.1)⟩
  rw [if_neg hequal, Tokens.bind_eq_ok, ← Transform.exists_mapM_parse_iff]
  have hreturned : (if (b.lowReturn.isSome = true ∨ b.transform.isSome = true) ∧
      f.ret.isVoid = true then Except.error (LoweringFault.transformOnVoid f.name)
      else Except.ok ()) = .ok () ↔
        (b.lowReturn.isSome = true ∨ b.transform.isSome = true → f.ret ≠ .void) := by
    split
    · rename_i h
      exact ⟨nofun, fun hne => absurd (hvoid.1 h.2) (hne h.1)⟩
    · rename_i h
      exact ⟨fun _ hsome hret => h ⟨hsome, hvoid.2 hret⟩, fun _ => rfl⟩
  constructor
  · rintro ⟨r, hr, hret⟩
    exact ⟨hempty, fun hhigh heq => hequal ⟨hhigh, heq⟩, ⟨r, hr⟩, hreturned.1 hret⟩
  · rintro ⟨-, -, ⟨r, hr⟩, hret⟩
    exact ⟨r, hr, hreturned.2 hret⟩

theorem Binding.lowSlot_eq_ok {slot : Option Slot} : b.lowSlot reg f = .ok slot ↔
    (b.lowReturn = none ∧ slot = none) ∨
      ∃ t s, b.lowReturn = some t ∧ reg.Returns t s ∧ slot = some s := by
  unfold lowSlot
  cases b.lowReturn with
  | none =>
    constructor
    · rintro ⟨⟩
      exact .inl ⟨rfl, rfl⟩
    · rintro (⟨-, rfl⟩ | ⟨_, _, ⟨⟩, _⟩)
      rfl
  | some t =>
    rw [Tokens.bind_eq_ok]
    constructor
    · rintro ⟨l, hl, h⟩
      have hl := Registry.lowerReturnOf_eq_ok.1 hl
      obtain ⟨s, hslots, hslot, -⟩ := Registry.slot_of_lowerReturn hl
      rw [hslot] at h
      split at h
      · cases h
      · rename_i hvoid
        cases h
        exact .inr ⟨t, s, rfl, ⟨l, hl, hslots, fun hs => hvoid (decide_eq_true hs)⟩, rfl⟩
    · rintro (⟨⟨⟩, -⟩ | ⟨_, s, ⟨⟩, ⟨l, hl, hslots, hs⟩, rfl⟩)
      refine ⟨l, Registry.lowerReturnOf_eq_ok.2 hl, ?_⟩
      have hslot : l.slot = s := by
        rw [Lowered.slot, hslots]
        rfl
      have hvoid : ¬s.isVoid = true := fun hvoid => hs (of_decide_eq_true hvoid)
      rw [hslot, if_neg hvoid]

theorem Binding.exists_lowSlot_iff : (∃ slot, b.lowSlot reg f = .ok slot) ↔
    ∀ t ∈ b.lowReturn, ∃ s, reg.Returns t s := by
  constructor
  · rintro ⟨slot, hslot⟩ t ht
    obtain ⟨hnone, -⟩ | ⟨_, s, hsome, hs, -⟩ := lowSlot_eq_ok.1 hslot
    · rw [hnone] at ht
      cases ht
    · rw [hsome] at ht
      cases ht
      exact ⟨s, hs⟩
  · intro h
    cases hreturn : b.lowReturn with
    | none => exact ⟨none, lowSlot_eq_ok.2 (.inl ⟨hreturn, rfl⟩)⟩
    | some t =>
      obtain ⟨s, hs⟩ := h t hreturn
      exact ⟨some s, lowSlot_eq_ok.2 (.inr ⟨t, s, hreturn, hs, rfl⟩)⟩

/-- A binding suits a function if it is let through and the low-level wrapper can be made. -/
theorem Binding.suits_iff (hb : f.binding = some b) (hlow : f.hasLow = true)
    (lps : List LoweredParam) (ret : Lowered) :
    b.Suits reg f ↔ f.checkBinding = .ok ⟨⟩ ∧ ∃ w, LowWrapper.new reg f lps ret b = .ok w := by
  have hnew : (∃ w, LowWrapper.new reg f lps ret b = .ok w) ↔
      (∃ slot, b.lowSlot reg f = .ok slot) ∧ ∃ r, b.transform.mapM Transform.parse = .ok r := by
    constructor
    · rintro ⟨w, h⟩
      obtain ⟨slot, hslot, h⟩ := Tokens.bind_eq_ok.1 h
      obtain ⟨r, hr, -⟩ := Tokens.bind_eq_ok.1 h
      exact ⟨⟨slot, hslot⟩, r, hr⟩
    · rintro ⟨⟨slot, hslot⟩, r, hr⟩
      exact ⟨_, Tokens.bind_eq_ok.2 ⟨slot, hslot, Tokens.bind_eq_ok.2 ⟨r, hr, rfl⟩⟩⟩
  rw [hnew, Signature.checkBinding_eq_ok hb hlow, exists_lowSlot_iff,
    Transform.exists_mapM_parse_iff]
  constructor
  · rintro ⟨hnamed, hapart, hreturned, htransformed, hconverted⟩
    exact ⟨⟨hnamed, hapart, htransformed, hreturned⟩, hconverted, htransformed⟩
  · rintro ⟨⟨hnamed, hapart, htransformed, hreturned⟩, hconverted, -⟩
    exact ⟨hnamed, hapart, hreturned, htransformed, hconverted⟩

/-! ### What is written -/

theorem Signature.lowName_ne_name (hb : f.binding = some b) (h : b.lowPrefix ≠ "") :
    f.lowName ≠ f.name := by
  intro heq
  rw [lowName, hb] at heq
  have hname : b.lowPrefix ++ f.name = "" ++ f.name := heq.trans String.empty_append.symm
  exact h ((String.append_left_inj _).1 hname)

theorem Signature.lowName_ne_highName (hb : f.binding = some b) (h : b.lowPrefix ≠ b.highPrefix) :
    f.lowName ≠ f.highName := by
  intro heq
  rw [lowName, highName, hb] at heq
  exact h ((String.append_left_inj _).1 heq)

/-- A result that is passed on as it is, if there is one. -/
theorem LowWrapper.lowText_plain (w : LowWrapper) (hplain : w.conversion = .plain)
    (hvoid : w.foreign.result.isVoid = true ↔ f.ret = .void) (htype : b.lowReturn = none)
    (h : b.transform = none) : f.LowText b w.expr w.result w.body := by
  have hbody : w.body =
      (if w.foreign.result.isVoid then "  " else "  return ") ++ w.expr ++ ";\n" := by
    rw [body, hplain]
  rw [hbody]
  by_cases hret : f.ret = .void
  · rw [if_pos (hvoid.2 hret)]
    exact .call hret htype h
  · rw [if_neg (mt hvoid.1 hret)]
    exact .result hret htype h

theorem LowWrapper.lowText_cast (w : LowWrapper) (hcast : w.conversion = .cast)
    (hret : f.ret ≠ .void) (htype : b.lowReturn = some t) (h : b.transform = none) :
    f.LowText b w.expr w.result w.body := by
  have hbody : w.body =
      "  return " ++ ("static_cast<" ++ w.result ++ ">(" ++ w.expr ++ ")") ++ ";\n" := by
    rw [body, hcast]
    rfl
  rw [hbody]
  exact .cast hret htype h

theorem LowWrapper.lowText_transform (w : LowWrapper) {text : String} {r : Transform}
    (hconversion : w.conversion = .transform r) (hret : f.ret ≠ .void)
    (h : b.transform = some text) (hr : r.IsWritten text) :
    f.LowText b w.expr w.result w.body := by
  have hbody : w.body = "  auto zb_raw = " ++ w.expr ++ ";\n  return static_cast<" ++ w.result ++
      ">([](auto " ++ r.param ++ ") \x7b return (" ++ r.expr ++ "); \x7d(zb_raw));\n" := by
    rw [body, hconversion]
  rw [hbody]
  exact .transform hret h hr

/-- The parts of a low-level wrapper that is made. -/
theorem LowWrapper.new_eq_ok (h : LowWrapper.new reg f lps ret b = .ok w) :
    ∃ slot transform, b.lowSlot reg f = .ok slot ∧
      b.transform.mapM Transform.parse = .ok transform ∧
      w.foreign = .new f.lowName lps (slot.getD ret.slot) ∧ w.symbol = f.name ∧
      w.result = Spelling.slot (slot.getD ret.slot) ∧
      w.conversion = match transform, slot with
        | some t, _ => .transform t
        | none, some _ => .cast
        | none, none => .plain := by
  obtain ⟨slot, hslot, h⟩ := Tokens.bind_eq_ok.1 h
  obtain ⟨transform, htransform, ⟨⟩⟩ := Tokens.bind_eq_ok.1 h
  exact ⟨slot, transform, hslot, htransform, rfl, rfl, rfl, rfl⟩

/-- A low-level wrapper that is made for a binding that suits the function honours it. -/
theorem LowWrapper.honours_of_new (h : LowWrapper.new reg f lps ret b = .ok w)
    (hb : f.binding = some b) (hsuits : b.Suits reg f) (hret : reg.lowerReturn f.ret = .ok ret) :
    w.Honours reg f b (.new f.name lps ret.slot) := by
  obtain ⟨slot, transform, hslot, htransform, hforeign, hsymbol, hresult, hconversion⟩ :=
    new_eq_ok h
  have hreturned := hsuits.returned
  have hexpr : "ffi::" ++ f.name ++ "(" ++
      Text.join ", " ((ForeignFunction.new f.name lps ret.slot).params.map (·.name)) ++ ")" =
        w.expr := by
    rw [expr, hsymbol, hforeign]
    rfl
  have hname : w.foreign.symbol = f.lowName := by rw [hforeign, ForeignFunction.new]
  have htext : f.LowText b w.expr w.result w.body := by
    obtain ⟨hnone, rfl⟩ | ⟨text, t, hsome, ht, rfl⟩ := Transform.mapM_parse_eq_ok.1 htransform
    · obtain ⟨htype, rfl⟩ | ⟨t, s, htype, -, rfl⟩ := Binding.lowSlot_eq_ok.1 hslot
      · obtain ⟨s, -, hs, hvoid⟩ := Registry.slot_of_lowerReturn hret
        have hforeignVoid : w.foreign.result.isVoid = true ↔ f.ret = .void := by
          rw [hforeign, ← hvoid, ← hs]
          rfl
        exact w.lowText_plain hconversion hforeignVoid htype hnone
      · exact w.lowText_cast hconversion (hreturned (.inl (by rw [htype]; rfl))) htype hnone
    · exact w.lowText_transform hconversion (hreturned (.inr (by rw [hsome]; rfl))) hsome ht
  constructor
  · rw [hname]
    exact Signature.lowName_ne_name hb hsuits.named
  · intro hhigh
    rw [hname]
    exact Signature.lowName_ne_highName hb (hsuits.apart hhigh)
  · obtain ⟨htype, rfl⟩ | ⟨t, s, htype, hs, rfl⟩ := Binding.lowSlot_eq_ok.1 hslot
    · exact ⟨_, .imported htype, hresult⟩
    · exact ⟨s, .own htype hs, hresult⟩
  · have hparams : (ForeignFunction.new f.name lps ret.slot).paramList = w.foreign.paramList := by
      rw [hforeign]
      rfl
    rw [hparams]
    exact ⟨w.body, hexpr ▸ htext, rfl, rfl⟩

end

namespace Header
variable {x y : Header} {e e' : Emission} {f : Signature} {b : Binding}

/-- A function that is not generic and whose binding asks for a low-level wrapper is taken just if
the binding suits the function and whatever else it takes can be lowered and wrapped; for anything
else it is refused with a fault of lowering. It then has one low-level wrapper, after its other one,
which honours the binding. -/
theorem honours_addFunction (x : Header) (e : Emission) (hgeneric : f.isGeneric = false)
    (hb : f.binding = some b) (hlow : f.hasLow = true) :
    ((∃ y e', (x.addFunction f).runOn e = (.ok y, e')) ↔
      b.Suits e.host.types f ∧ ∃ lps ret high,
        e.host.types.lowerParamsOf f.name f.params = .ok lps ∧
        e.host.types.lowerReturnOf f.name f.ret = .ok ret ∧
        f.highWrappers e.host.types lps ret = .ok high) ∧
    (∀ failure e', (x.addFunction f).runOn e = (.error failure, e') →
      ∃ fault, failure = .lowering fault) ∧
    ∀ y e', (x.addFunction f).runOn e = (.ok y, e') → ∃ lps ret high w,
      e.host.types.lowerParamsOf f.name f.params = .ok lps ∧
      e.host.types.lowerReturnOf f.name f.ret = .ok ret ∧
      f.highWrappers e.host.types lps ret = .ok high ∧
      y.imports = x.imports ++ [.new f.name lps ret.slot] ∧
      y.wrappers = x.wrappers ++ (high ++ [.low w]) ∧
      w.Honours e.host.types f b (.new f.name lps ret.slot) := by
  have hlowWrappers : ∀ lps ret, f.lowWrappers e.host.types lps ret =
      (fun w => [.low w]) <$> LowWrapper.new e.host.types f lps ret b := by
    intro lps ret
    rw [Signature.lowWrappers, if_pos hlow, hb]
    rfl
  refine ⟨?_, ?_, ?_⟩
  · rw [exists_addFunction_iff hgeneric]
    constructor
    · rintro ⟨g, hg⟩
      obtain ⟨hcheck, lps, ret, high, low, hlps, hret, hhigh, hw, -⟩ := Signature.gain_eq_ok.1 hg
      rw [hlowWrappers] at hw
      obtain ⟨w, hnew, -⟩ := map_eq_ok.1 hw
      exact ⟨(Binding.suits_iff hb hlow lps ret).2 ⟨hcheck, w, hnew⟩, lps, ret, high, hlps, hret, hhigh⟩
    · rintro ⟨hsuits, lps, ret, high, hlps, hret, hhigh⟩
      obtain ⟨hcheck, w, hw⟩ := (Binding.suits_iff hb hlow lps ret).1 hsuits
      exact ⟨_, Signature.gain_eq_ok.2 ⟨hcheck, lps, ret, high, _, hlps, hret, hhigh,
        (hlowWrappers lps ret).trans (map_eq_ok.2 ⟨w, hw, rfl⟩), rfl⟩⟩
  · intro failure e' h
    obtain ⟨fault, -, hfault⟩ := addFunction_error hgeneric h
    exact ⟨fault, hfault⟩
  · intro y e' h
    obtain ⟨-, g, hg, rfl, -⟩ := addFunction_ok h
    obtain ⟨hcheck, lps, ret, high, low, hlps, hret, hhigh, hw, rfl⟩ := Signature.gain_eq_ok.1 hg
    rw [hlowWrappers] at hw
    obtain ⟨w, hnew, rfl⟩ := map_eq_ok.1 hw
    have hsuits : b.Suits e.host.types f := (Binding.suits_iff hb hlow lps ret).2 ⟨hcheck, w, hnew⟩
    exact ⟨lps, ret, high, w, hlps, hret, hhigh, rfl, rfl,
      LowWrapper.honours_of_new hnew hb hsuits (Registry.lowerReturn_of_lowerReturnOf hret)⟩

/-- A question that the foreign side answers with a number, asked under two names. -/
theorem honours_addFunction_ready :
    let b : Binding := {
      strategy := .both, lowPrefix := "l_", lowReturn := some (.scalar .bool)
      transform := some "| x | x | 1" }
    let f : Signature := {
      name := "ready", params := [⟨"code", .scalar (.int .i32)⟩], ret := .scalar (.int .i32)
      binding := some b, pos := .start }
    let e : Emission := ⟨.new ⟨"a.cpp"⟩ "", []⟩
    f.isGeneric = false ∧ f.binding = some b ∧ f.hasLow = true ∧
      ∃ y e', (({} : Header).addFunction f).runOn e = (.ok y, e') ∧ ∃ imported w,
        y.imports = [imported] ∧ Wrapper.low w ∈ y.wrappers ∧ w.Honours e.host.types f b imported := by
  intro b f e
  have hsuits : b.Suits e.host.types f := {
    named := by decide
    apart := fun _ => by decide
    returned := fun _ => nofun
    transformed := by
      rintro _ ⟨⟩
      exact ⟨⟨"x", "x | 1"⟩, Transform.parse_eq_ok.1 (by decide)⟩
    converted := by
      rintro _ ⟨⟩
      exact ⟨⟨.scalar .bool, .whole⟩, _, rfl, rfl, nofun⟩ }
  obtain ⟨haccepts, -, hhonours⟩ := honours_addFunction (f := f) (b := b) {} e rfl rfl rfl
  obtain ⟨y, e', hy⟩ := haccepts.2 ⟨hsuits, _, _, _, rfl, rfl, rfl⟩
  obtain ⟨lps, ret, high, w, -, -, -, himports, hwrappers, hw⟩ := hhonours y e' hy
  refine ⟨rfl, rfl, rfl, y, e', hy, _, w, himports, ?_, hw⟩
  rw [hwrappers]
  exact List.mem_append_right _ (List.mem_append_right _ List.mem_cons_self)

end Header
end Bindery
