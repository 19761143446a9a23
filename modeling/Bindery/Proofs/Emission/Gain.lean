import Bindery.Proofs.Emission.Run

/-!
# What a declaration adds

A declaration that is emitted to a header adds foreign functions, wrappers and provided names, and
all of these follow from the declaration and the types that are known. The script interface of the
same declaration is made from them as well.
-/
namespace Bindery

@[simp] theorem ForeignFunction.symbol_destructor (symbol : String) :
    (destructor symbol).symbol = symbol := rfl

/-- The names that a wrapper provides. -/
def Wrapper.provided : Wrapper → List Provided
  | high w => [⟨w.name, .high, w.result⟩]
  | async w => [⟨w.name, .async, "std::future<" ++ w.result ++ ">"⟩]
  | low w => [⟨w.foreign.symbol, .low, w.result⟩]
  | handle c =>
    c.constructors.map (fun k => ⟨c.name ++ "::" ++ k.name, .handle, c.name⟩) ++
      c.methods.map fun m => ⟨c.name ++ "::" ++ m.name, .handle, m.result⟩

/-- The foreign functions and wrappers that a header gains, with the names that it provides. -/
structure Gain where
  imports : List ForeignFunction := []
  wrappers : List Wrapper := []
  provided : List Provided := []

/-- What several declarations add, one after the other. -/
def Gain.join (gs : List Gain) : Gain where
  imports := gs.flatMap (·.imports)
  wrappers := gs.flatMap (·.wrappers)
  provided := gs.flatMap (·.provided)

def Header.gain (x : Header) (g : Gain) : Header :=
  { x with imports := x.imports ++ g.imports, wrappers := x.wrappers ++ g.wrappers }

def Host.gain (h : Host) (g : Gain) : Host :=
  { h.addSymbols (g.imports.map (·.symbol)) with provided := h.provided ++ g.provided }

section
variable (reg : Registry)

/-- The high-level wrapper of a function, if its strategy asks for one. -/
def Signature.highWrappers (f : Signature) (lps : List LoweredParam) (ret : Lowered) :
    Except LoweringFault (List Wrapper) :=
  if f.hasHigh then
    if f.isAsync then (fun w => [.async w]) <$> AsyncWrapper.new reg f lps ret
    else (fun w => [.high w]) <$> HighWrapper.new reg f lps ret
  else .ok []

def Signature.lowWrappers (f : Signature) (lps : List LoweredParam) (ret : Lowered) :
    Except LoweringFault (List Wrapper) :=
  if f.hasLow then (fun w => [.low w]) <$> LowWrapper.new reg f lps ret (f.binding.getD {})
  else .ok []

/-- What a function adds: itself as a foreign function, and its wrappers. -/
def Signature.gain (f : Signature) : Except LoweringFault Gain := do
  f.checkBinding
  let lps ← reg.lowerParamsOf f.name f.params
  let ret ← reg.lowerReturnOf f.name f.ret
  let high ← f.highWrappers reg lps ret
  let low ← f.lowWrappers reg lps ret
  .ok { imports := [.new f.name lps ret.slot], wrappers := high ++ low,
        provided := ⟨f.name, .foreign, Spelling.slot ret.slot⟩ ::
          (high ++ low).flatMap (·.provided) }

/-- The foreign function of a constructor, and the constructor that calls it. -/
def Constructor.gain (owner : String) (c : Constructor) :
    Except LoweringFault (ForeignFunction × HandleConstructor) := do
  let lps ← reg.lowerParamsOf (owner ++ "::" ++ c.name) c.params
  let made ← HandleConstructor.new reg c lps
  .ok (.new c.symbol lps .opaqueHandle, made)

/-- The foreign function of a method, and the method that calls it. -/
def Method.gain (owner : String) (m : Method) :
    Except LoweringFault (ForeignFunction × HandleMethod) := do
  let lps ← reg.lowerParamsOf (owner ++ "::" ++ m.name) m.params
  let ret ← reg.lowerReturnOf (owner ++ "::" ++ m.name) m.ret
  let made ← HandleMethod.new reg m lps ret
  .ok ((ForeignFunction.new m.symbol lps ret.slot).onSelf, made)

/-- What a handle adds: its foreign functions, and one class. -/
def Handle.gain (d : Handle) : Except LoweringFault Gain := do
  let constructors ← d.constructors.mapM (·.gain reg d.name)
  let methods ← d.methods.mapM (·.gain reg d.name)
  let destructor := d.destructor.getD ""
  let w : Wrapper := .handle ⟨d.name, destructor, constructors.map (·.2), methods.map (·.2)⟩
  .ok { imports := constructors.map (·.1) ++ [.destructor destructor] ++ methods.map (·.1),
        wrappers := [w], provided := w.provided }

end

/-! ### Functions -/

theorem Signature.gain_eq_ok {reg : Registry} {f : Signature} {g : Gain} :
    f.gain reg = .ok g ↔ f.checkBinding = .ok ⟨⟩ ∧ ∃ lps ret high low,
      reg.lowerParamsOf f.name f.params = .ok lps ∧ reg.lowerReturnOf f.name f.ret = .ok ret ∧
      f.highWrappers reg lps ret = .ok high ∧ f.lowWrappers reg lps ret = .ok low ∧
      g = { imports := [.new f.name lps ret.slot], wrappers := high ++ low,
            provided := ⟨f.name, .foreign, Spelling.slot ret.slot⟩ ::
              (high ++ low).flatMap (·.provided) } := by
  constructor
  · intro h
    obtain ⟨⟨⟩, hcheck, h⟩ := Tokens.bind_eq_ok.1 h
    obtain ⟨lps, hlps, h⟩ := Tokens.bind_eq_ok.1 h
    obtain ⟨ret, hret, h⟩ := Tokens.bind_eq_ok.1 h
    obtain ⟨high, hhigh, h⟩ := Tokens.bind_eq_ok.1 h
    obtain ⟨low, hlow, ⟨⟩⟩ := Tokens.bind_eq_ok.1 h
    exact ⟨hcheck, lps, ret, high, low, hlps, hret, hhigh, hlow, rfl⟩
  · rintro ⟨hcheck, lps, ret, high, low, hlps, hret, hhigh, hlow, rfl⟩
    refine Tokens.bind_eq_ok.2 ⟨_, hcheck, Tokens.bind_eq_ok.2 ⟨_, hlps, ?_⟩⟩
    refine Tokens.bind_eq_ok.2 ⟨_, hret, Tokens.bind_eq_ok.2 ⟨_, hhigh, ?_⟩⟩
    exact Tokens.bind_eq_ok.2 ⟨_, hlow, rfl⟩

namespace Header
open Emit
variable {x y : Header} {e e' : Emission} {f : Signature} {lps : List LoweredParam} {ret : Lowered}

theorem runOn_provide {name type : String} {kind : ProvidedKind} :
    (provide name kind type).runOn e =
      (.ok ⟨⟩, { e with host := e.host.provide ⟨name, kind, type⟩ }) := rfl

theorem runOn_declare {g : ForeignFunction} : (declare x g).runOn e =
    (.ok { x with imports := x.imports ++ [g] },
      { e with host := e.host.addSymbol g.symbol }) := rfl

theorem noteBinding_ok {u : Unit} (h : (noteBinding f).runOn e = (.ok u, e')) :
    e'.host = e.host := by
  unfold noteBinding at h
  repeat' split at h
  all_goals cases h; rfl

/-- The wrappers that a step gives a header are the ones that it provides names for. -/
def Wraps (x : Header) (e : Emission) (ws : List Wrapper) (y : Header) (e' : Emission) : Prop :=
  y = { x with wrappers := x.wrappers ++ ws } ∧
    e'.host = { e.host with provided := e.host.provided ++ ws.flatMap (·.provided) }

theorem wraps_nil : Wraps x e [] x e := by
  simp [Wraps]

theorem Wraps.append {ws ws' : List Wrapper} {z : Header} {e'' : Emission}
    (h : Wraps x e ws y e') (h' : Wraps y e' ws' z e'') : Wraps x e (ws ++ ws') z e'' := by
  obtain ⟨rfl, he⟩ := h
  obtain ⟨rfl, he'⟩ := h'
  simp [Wraps, he, he']

theorem high_ok (h : (if f.hasHigh then x.addHigh f lps ret else pure x).runOn e = (.ok y, e')) :
    ∃ ws, f.highWrappers e.host.types lps ret = .ok ws ∧ Wraps x e ws y e' := by
  unfold Signature.highWrappers
  by_cases hhigh : f.hasHigh
  · rw [if_pos hhigh] at h ⊢
    have h := registry_bind_ok.1 h
    by_cases hasync : f.isAsync
    · rw [if_pos hasync] at h ⊢
      obtain ⟨w, _, hlower, h⟩ := bind_ok.1 h
      obtain ⟨hw, rfl⟩ := lower_ok.1 hlower
      rw [runOn_bind_of_ok runOn_provide] at h
      obtain ⟨rfl, rfl⟩ := pure_ok.1 h
      exact ⟨[.async w], by rw [hw]; rfl, rfl, rfl⟩
    · rw [if_neg hasync] at h ⊢
      obtain ⟨w, _, hlower, h⟩ := bind_ok.1 h
      obtain ⟨hw, rfl⟩ := lower_ok.1 hlower
      rw [runOn_bind_of_ok runOn_provide] at h
      obtain ⟨rfl, rfl⟩ := pure_ok.1 h
      exact ⟨[.high w], by rw [hw]; rfl, rfl, rfl⟩
  · rw [if_neg hhigh] at h ⊢
    obtain ⟨rfl, rfl⟩ := pure_ok.1 h
    exact ⟨[], rfl, wraps_nil⟩

theorem low_ok (h : (if f.hasLow then x.addLow f lps ret else pure x).runOn e = (.ok y, e')) :
    ∃ ws, f.lowWrappers e.host.types lps ret = .ok ws ∧ Wraps x e ws y e' := by
  unfold Signature.lowWrappers
  by_cases hlow : f.hasLow
  · rw [if_pos hlow] at h ⊢
    have h := registry_bind_ok.1 h
    obtain ⟨w, _, hlower, h⟩ := bind_ok.1 h
    obtain ⟨hw, rfl⟩ := lower_ok.1 hlower
    rw [runOn_bind_of_ok runOn_provide] at h
    obtain ⟨rfl, rfl⟩ := pure_ok.1 h
    exact ⟨[.low w], by rw [hw]; rfl, rfl, rfl⟩
  · rw [if_neg hlow] at h ⊢
    obtain ⟨rfl, rfl⟩ := pure_ok.1 h
    exact ⟨[], rfl, wraps_nil⟩

theorem high_bind {k : Header → Emit Header} :
    (if f.hasHigh then x.addHigh f lps ret >>= k else pure x >>= k) =
      (if f.hasHigh then x.addHigh f lps ret else pure x) >>= k := by
  split <;> rfl

/-- A function that is added to a header is not generic, and adds what follows from it. -/
theorem addFunction_ok (h : (x.addFunction f).runOn e = (.ok y, e')) :
    f.isGeneric = false ∧ ∃ g, f.gain e.host.types = .ok g ∧ y = x.gain g ∧
      e'.host = e.host.gain g := by
  unfold addFunction at h
  dsimp only at h
  by_cases hgeneric : f.isGeneric
  · rw [if_pos hgeneric] at h
    obtain ⟨_, _, hthrow, -⟩ := bind_ok.1 h
    exact absurd hthrow throw_ne_ok
  rw [if_neg hgeneric] at h
  obtain ⟨_, _, hlower, h⟩ := bind_ok.1 h
  obtain ⟨hcheck, rfl⟩ := lower_ok.1 hlower
  obtain ⟨_, e₁, hnote, h⟩ := bind_ok.1 h
  have h := registry_bind_ok.1 h
  have hnote := noteBinding_ok hnote
  rw [hnote] at h
  obtain ⟨lps, _, hlower, h⟩ := bind_ok.1 h
  obtain ⟨hlps, rfl⟩ := lower_ok.1 hlower
  obtain ⟨ret, _, hlower, h⟩ := bind_ok.1 h
  obtain ⟨hret, rfl⟩ := lower_ok.1 hlower
  rw [runOn_bind_of_ok runOn_declare, runOn_bind_of_ok runOn_provide] at h
  rw [high_bind] at h
  obtain ⟨y₁, e₂, hhigh, h⟩ := bind_ok.1 h
  obtain ⟨high, hhigh, hy₁⟩ := high_ok hhigh
  obtain ⟨low, hlow, hy⟩ := low_ok h
  obtain ⟨rfl, hhost⟩ := hy₁.append hy
  rw [hy₁.2] at hlow
  simp only [Host.provide, Host.types_addSymbol, Host.provided_addSymbol, hnote] at hhigh hlow hhost
  refine ⟨by simpa using hgeneric, _, Signature.gain_eq_ok.2
    ⟨hcheck, lps, ret, high, low, hlps, hret, hhigh, hlow, rfl⟩, rfl, ?_⟩
  rw [hhost]
  simp [Host.gain, ForeignFunction.new]

theorem noteBinding_ne_error {failure : Failure} :
    (noteBinding f).runOn e ≠ (.error failure, e') := by
  intro h
  unfold noteBinding at h
  repeat' split at h
  all_goals cases h

theorem high_error {failure : Failure}
    (h : (if f.hasHigh then x.addHigh f lps ret else pure x).runOn e = (.error failure, e')) :
    ∃ fault, f.highWrappers e.host.types lps ret = .error fault ∧ failure = .lowering fault := by
  unfold Signature.highWrappers
  by_cases hhigh : f.hasHigh
  · rw [if_pos hhigh] at h ⊢
    unfold addHigh at h
    rw [runOn_bind_of_ok runOn_registry] at h
    by_cases hasync : f.isAsync
    · rw [if_pos hasync] at h ⊢
      obtain hlower | ⟨w, _, -, h⟩ := bind_error.1 h
      · obtain ⟨fault, hfault, rfl⟩ := lower_error hlower
        exact ⟨fault, by rw [hfault]; rfl, rfl⟩
      · rw [runOn_bind_of_ok runOn_provide] at h
        cases h
    · rw [if_neg hasync] at h ⊢
      obtain hlower | ⟨w, _, -, h⟩ := bind_error.1 h
      · obtain ⟨fault, hfault, rfl⟩ := lower_error hlower
        exact ⟨fault, by rw [hfault]; rfl, rfl⟩
      · rw [runOn_bind_of_ok runOn_provide] at h
        cases h
  · rw [if_neg hhigh] at h
    cases h

theorem low_error {failure : Failure}
    (h : (if f.hasLow then x.addLow f lps ret else pure x).runOn e = (.error failure, e')) :
    ∃ fault, f.lowWrappers e.host.types lps ret = .error fault ∧ failure = .lowering fault := by
  unfold Signature.lowWrappers
  by_cases hlow : f.hasLow
  · rw [if_pos hlow] at h ⊢
    unfold addLow at h
    rw [runOn_bind_of_ok runOn_registry] at h
    obtain hlower | ⟨w, _, -, h⟩ := bind_error.1 h
    · obtain ⟨fault, hfault, rfl⟩ := lower_error hlower
      exact ⟨fault, by rw [hfault]; rfl, rfl⟩
    · rw [runOn_bind_of_ok runOn_provide] at h
      cases h
  · rw [if_neg hlow] at h
    cases h

/-- A function that is not generic is only refused for a fault in what would follow from it. -/
theorem addFunction_error {failure : Failure} (hgeneric : f.isGeneric = false)
    (h : (x.addFunction f).runOn e = (.error failure, e')) :
    ∃ fault, f.gain e.host.types = .error fault ∧ failure = .lowering fault := by
  unfold addFunction at h
  dsimp only at h
  rw [if_neg (by simp [hgeneric])] at h
  obtain hlower | ⟨_, _, hlower, h⟩ := bind_error.1 h
  · obtain ⟨fault, hfault, rfl⟩ := lower_error hlower
    exact ⟨fault, by rw [Signature.gain, hfault]; rfl, rfl⟩
  obtain ⟨hcheck, rfl⟩ := lower_ok.1 hlower
  obtain hnote | ⟨_, e₁, hnote, h⟩ := bind_error.1 h
  · exact absurd hnote noteBinding_ne_error
  rw [runOn_bind_of_ok runOn_registry, noteBinding_ok hnote] at h
  obtain hlower | ⟨lps, _, hlower, h⟩ := bind_error.1 h
  · obtain ⟨fault, hfault, rfl⟩ := lower_error hlower
    exact ⟨fault, by rw [Signature.gain, hcheck, hfault]; rfl, rfl⟩
  obtain ⟨hlps, rfl⟩ := lower_ok.1 hlower
  obtain hlower | ⟨ret, _, hlower, h⟩ := bind_error.1 h
  · obtain ⟨fault, hfault, rfl⟩ := lower_error hlower
    exact ⟨fault, by rw [Signature.gain, hcheck, hlps, hfault]; rfl, rfl⟩
  obtain ⟨hret, rfl⟩ := lower_ok.1 hlower
  rw [runOn_bind_of_ok runOn_declare, runOn_bind_of_ok runOn_provide, high_bind] at h
  have hhost := noteBinding_ok hnote
  obtain hhigh | ⟨y₁, e₂, hhigh, h⟩ := bind_error.1 h
  · obtain ⟨fault, hfault, rfl⟩ := high_error hhigh
    simp only [Host.provide, Host.types_addSymbol, hhost] at hfault
    refine ⟨fault, ?_, rfl⟩
    rw [Signature.gain, hcheck, hlps, hret]
    change (f.highWrappers e.host.types lps ret >>= _) = _
    rw [hfault]
    rfl
  · obtain ⟨high, hhigh, hy₁⟩ := high_ok hhigh
    obtain ⟨fault, hfault, rfl⟩ := low_error h
    rw [hy₁.2] at hfault
    simp only [Host.provide, Host.types_addSymbol, hhost] at hhigh hfault
    refine ⟨fault, ?_, rfl⟩
    rw [Signature.gain, hcheck, hlps, hret]
    change (f.highWrappers e.host.types lps ret >>= _) = _
    rw [hhigh]
    change (f.lowWrappers e.host.types lps ret >>= _) = _
    rw [hfault]
    rfl

/-- A function that is not generic is taken just if something follows from it. -/
theorem exists_addFunction_iff (hgeneric : f.isGeneric = false) :
    (∃ y e', (x.addFunction f).runOn e = (.ok y, e')) ↔ ∃ g, f.gain e.host.types = .ok g := by
  constructor
  · rintro ⟨y, e', h⟩
    obtain ⟨-, g, hg, -⟩ := addFunction_ok h
    exact ⟨g, hg⟩
  · rintro ⟨g, hg⟩
    cases h : (x.addFunction f).runOn e with
    | mk result e' =>
      cases result with
      | ok y => exact ⟨y, e', rfl⟩
      | error failure =>
        obtain ⟨fault, hfault, -⟩ := addFunction_error hgeneric h
        rw [hg] at hfault
        cases hfault

/-! ### Handles -/

section
variable {α β γ : Type} (lowering : Registry → α → Except LoweringFault β)
  (foreign : α → β → ForeignFunction)

/-- Declares the foreign functions of some items in turn, each lowered just before. -/
def declareAll : Header → List α → Emit (Header × List (α × β))
  | x, [] => return (x, [])
  | x, a :: as => do
    let b ← lower (lowering (← registry) a)
    let x ← declare x (foreign a b)
    let (x, rest) ← declareAll x as
    return (x, (a, b) :: rest)

variable {lowering foreign} {as : List α} {r : Header × List (α × β)}

theorem declareAll_ok (h : (declareAll lowering foreign x as).runOn e = (.ok r, e')) :
    as.mapM (fun a => (a, ·) <$> lowering e.host.types a) = .ok r.2 ∧
      r.1 = { x with imports := x.imports ++ r.2.map fun p => foreign p.1 p.2 } ∧
      e'.host = e.host.addSymbols (r.2.map fun p => (foreign p.1 p.2).symbol) := by
  induction as generalizing x e r with
  | nil =>
    obtain ⟨rfl, rfl⟩ := pure_ok.1 h
    exact ⟨rfl, by simp, rfl⟩
  | cons a as ih =>
    have h := registry_bind_ok.1 h
    obtain ⟨b, _, hlower, h⟩ := bind_ok.1 h
    obtain ⟨hb, rfl⟩ := lower_ok.1 hlower
    rw [runOn_bind_of_ok runOn_declare] at h
    obtain ⟨⟨z, rest⟩, e₁, hrest, h⟩ := bind_ok.1 h
    obtain ⟨rfl, rfl⟩ := pure_ok.1 h
    obtain ⟨hmap, hz, hhost⟩ := ih hrest
    rw [Host.types_addSymbol] at hmap
    dsimp only at hz
    refine ⟨mapM_cons_eq_ok.2 ⟨(a, b), rest, rfl, by rw [hb]; rfl, hmap⟩, ?_, ?_⟩
    · rw [hz]
      simp
    · rw [hhost]
      rfl

/-- Makes what calls the foreign functions, each time with a name that is provided. -/
def makeAll (make : α → β → Except LoweringFault γ) (name : α → String) (type : γ → String)
    (abs : List (α × β)) : Emit (List γ) :=
  abs.mapM fun (a, b) => do
    let made ← lower (make a b)
    provide (name a) .handle (type made)
    return made

theorem makeAll_ok {make : α → β → Except LoweringFault γ} {name : α → String}
    {type : γ → String} {abs : List (α × β)} {made : List γ}
    (h : (makeAll make name type abs).runOn e = (.ok made, e')) :
    abs.mapM (fun p => make p.1 p.2) = .ok made ∧
      e'.host = { e.host with
        provided := e.host.provided ++
          List.zipWith (fun p c => ⟨name p.1, .handle, type c⟩) abs made } := by
  induction abs generalizing e made with
  | nil =>
    obtain ⟨rfl, rfl⟩ := mapM_nil_ok.1 h
    exact ⟨rfl, by simp⟩
  | cons p abs ih =>
    obtain ⟨c, made, e₁, rfl, hc, hmade⟩ := mapM_cons_ok.1 h
    obtain ⟨_, _, hlower, hc⟩ := bind_ok.1 hc
    obtain ⟨hmake, rfl⟩ := lower_ok.1 hlower
    rw [runOn_bind_of_ok runOn_provide] at hc
    obtain ⟨rfl, rfl⟩ := pure_ok.1 hc
    obtain ⟨hmap, hhost⟩ := ih hmade
    refine ⟨mapM_cons_eq_ok.2 ⟨_, _, rfl, hmake, hmap⟩, ?_⟩
    rw [hhost]
    simp [Host.provide]

/-- Lowering all items before anything is made of them gives the same as dealing with each. -/
theorem gain_of_mapM {lowering : α → Except LoweringFault β} {make : α → β → Except LoweringFault γ}
    {gain : α → Except LoweringFault (ForeignFunction × γ)} {name : α → String}
    {type : γ → String} {provided : γ → Provided} {abs : List (α × β)} {made : List γ}
    (hgain : ∀ a b c, lowering a = .ok b → make a b = .ok c →
      gain a = .ok (foreign a b, c) ∧ provided c = ⟨name a, .handle, type c⟩)
    (hlower : as.mapM (fun a => (a, ·) <$> lowering a) = .ok abs)
    (hmake : abs.mapM (fun p => make p.1 p.2) = .ok made) :
    ∃ gs, as.mapM gain = .ok gs ∧ gs.map (·.1) = abs.map (fun p => foreign p.1 p.2) ∧
      gs.map (·.2) = made ∧
      List.zipWith (fun p c => ⟨name p.1, .handle, type c⟩) abs made = made.map provided := by
  induction as generalizing abs made with
  | nil =>
    obtain rfl := mapM_nil_eq_ok.1 hlower
    obtain rfl := mapM_nil_eq_ok.1 hmake
    exact ⟨[], rfl, rfl, rfl, rfl⟩
  | cons a as ih =>
    obtain ⟨p, abs, rfl, hp, hlower⟩ := mapM_cons_eq_ok.1 hlower
    obtain ⟨c, made, rfl, hc, hmake⟩ := mapM_cons_eq_ok.1 hmake
    obtain ⟨gs, hgs, hfirst, hsecond, hzip⟩ := ih hlower hmake
    cases hb : lowering a with
    | error fault =>
      rw [hb] at hp
      cases hp
    | ok b =>
      rw [hb] at hp
      cases hp
      obtain ⟨hg, hprovided⟩ := hgain a b c hb hc
      refine ⟨_, mapM_cons_eq_ok.2 ⟨_, _, rfl, hg, hgs⟩, ?_, ?_, ?_⟩
      · rw [List.map_cons, List.map_cons, hfirst]
      · rw [List.map_cons, hsecond]
      · rw [List.zipWith_cons_cons, List.map_cons, hzip, hprovided]

end

section
variable (owner : String)

def lowerConstructor (reg : Registry) (c : Constructor) :
    Except LoweringFault (List LoweredParam) :=
  reg.lowerParamsOf (owner ++ "::" ++ c.name) c.params

def lowerMethod (reg : Registry) (m : Method) :
    Except LoweringFault (List LoweredParam × Lowered) := do
  let lps ← reg.lowerParamsOf (owner ++ "::" ++ m.name) m.params
  let ret ← reg.lowerReturnOf (owner ++ "::" ++ m.name) m.ret
  .ok (lps, ret)

def foreignConstructor (c : Constructor) (lps : List LoweredParam) : ForeignFunction :=
  .new c.symbol lps .opaqueHandle

def foreignMethod (m : Method) (p : List LoweredParam × Lowered) : ForeignFunction :=
  (ForeignFunction.new m.symbol p.1 p.2.slot).onSelf

theorem declareConstructors_eq (cs : List Constructor) :
    declareConstructors owner x cs =
      declareAll (lowerConstructor owner) foreignConstructor x cs := by
  induction cs generalizing x with
  | nil => rfl
  | cons c cs ih =>
    simp only [declareConstructors, declareAll, ih]
    rfl

theorem declareMethods_eq (ms : List Method) :
    declareMethods owner x ms = declareAll (lowerMethod owner) foreignMethod x ms := by
  induction ms generalizing x with
  | nil => rfl
  | cons m ms ih =>
    simp only [declareMethods, declareAll, lowerMethod, ih, lower_bind, bind_assoc]
    rfl

end

theorem gain_constructor {owner : String} {reg : Registry} (c : Constructor)
    (lps : List LoweredParam) (made : HandleConstructor)
    (hlps : lowerConstructor owner reg c = .ok lps)
    (hmade : HandleConstructor.new reg c lps = .ok made) :
    c.gain reg owner = .ok (foreignConstructor c lps, made) ∧
      (⟨owner ++ "::" ++ made.name, .handle, owner⟩ : Provided) =
        ⟨owner ++ "::" ++ c.name, .handle, owner⟩ := by
  constructor
  · change (lowerConstructor owner reg c >>= _) = _
    rw [hlps]
    change (HandleConstructor.new reg c lps >>= _) = _
    rw [hmade]
    rfl
  · obtain ⟨params, _, ⟨⟩⟩ := Tokens.bind_eq_ok.1 hmade
    rfl

theorem gain_method {owner : String} {reg : Registry} (m : Method)
    (p : List LoweredParam × Lowered) (made : HandleMethod)
    (hp : lowerMethod owner reg m = .ok p) (hmade : HandleMethod.new reg m p.1 p.2 = .ok made) :
    m.gain reg owner = .ok (foreignMethod m p, made) ∧
      (⟨owner ++ "::" ++ made.name, .handle, made.result⟩ : Provided) =
        ⟨owner ++ "::" ++ m.name, .handle, made.result⟩ := by
  constructor
  · obtain ⟨lps, hlps, hp⟩ := Tokens.bind_eq_ok.1 hp
    obtain ⟨ret, hret, ⟨⟩⟩ := Tokens.bind_eq_ok.1 hp
    simp only [Method.gain, hlps, hret, hmade, bind, Except.bind]
    rfl
  · obtain ⟨result, _, hmade⟩ := Tokens.bind_eq_ok.1 hmade
    obtain ⟨params, _, ⟨⟩⟩ := Tokens.bind_eq_ok.1 hmade
    rfl

/-- A handle is emitted in four rounds. -/
theorem addHandle_eq (x : Header) (d : Handle) : x.addHandle d = (do
    let (x, constructors) ← declareAll (lowerConstructor d.name) foreignConstructor x d.constructors
    let x ← declare x (.destructor (d.destructor.getD ""))
    let (x, methods) ← declareAll (lowerMethod d.name) foreignMethod x d.methods
    let reg ← registry
    let constructors ← makeAll (HandleConstructor.new reg) (fun c => d.name ++ "::" ++ c.name)
      (fun _ => d.name) constructors
    let methods ← makeAll (fun m p => HandleMethod.new reg m p.1 p.2)
      (fun m => d.name ++ "::" ++ m.name) (·.result) methods
    return x.addWrapper (.handle ⟨d.name, d.destructor.getD "", constructors, methods⟩)) := by
  simp only [addHandle, declareConstructors_eq, declareMethods_eq]
  rfl

/-- A handle that is added to a header adds what follows from it. -/
theorem addHandle_ok {d : Handle} (h : (x.addHandle d).runOn e = (.ok y, e')) :
    ∃ g, d.gain e.host.types = .ok g ∧ y = x.gain g ∧ e'.host = e.host.gain g := by
  rw [addHandle_eq] at h
  obtain ⟨⟨x₁, constructors⟩, e₁, hdeclare, h⟩ := bind_ok.1 h
  obtain ⟨hconstructors, hx₁, he₁⟩ := declareAll_ok hdeclare
  dsimp only at h hconstructors hx₁ he₁
  rw [runOn_bind_of_ok runOn_declare] at h
  obtain ⟨⟨x₂, methods⟩, e₂, hdeclare, h⟩ := bind_ok.1 h
  obtain ⟨hmethods, hx₂, he₂⟩ := declareAll_ok hdeclare
  dsimp only at h hmethods hx₂ he₂
  have h := registry_bind_ok.1 h
  obtain ⟨madeConstructors, e₃, hmake, h⟩ := bind_ok.1 h
  obtain ⟨hmadeConstructors, he₃⟩ := makeAll_ok hmake
  obtain ⟨madeMethods, e₄, hmake, h⟩ := bind_ok.1 h
  obtain ⟨hmadeMethods, he₄⟩ := makeAll_ok hmake
  obtain ⟨rfl, rfl⟩ := pure_ok.1 h
  have htypes₁ : e₁.host.types = e.host.types := by rw [he₁, Host.types_addSymbols]
  have htypes₂ : e₂.host.types = e.host.types := by
    rw [he₂, Host.types_addSymbols, Host.types_addSymbol, htypes₁]
  rw [Host.types_addSymbol, htypes₁] at hmethods
  rw [htypes₂] at hmadeConstructors hmadeMethods
  obtain ⟨cs, hcs, hcs₁, hcs₂, hcs₃⟩ := gain_of_mapM gain_constructor hconstructors hmadeConstructors
  obtain ⟨ms, hms, hms₁, hms₂, hms₃⟩ := gain_of_mapM gain_method hmethods hmadeMethods
  have hgain : d.gain e.host.types = .ok
      { imports := cs.map (·.1) ++ [.destructor (d.destructor.getD "")] ++ ms.map (·.1),
        wrappers := [.handle ⟨d.name, d.destructor.getD "", cs.map (·.2), ms.map (·.2)⟩],
        provided := Wrapper.provided
          (.handle ⟨d.name, d.destructor.getD "", cs.map (·.2), ms.map (·.2)⟩) } := by
    rw [Handle.gain, hcs, hms]
    rfl
  refine ⟨_, hgain, ?_, ?_⟩
  · simp only [gain, addWrapper, hx₂, hx₁, hcs₁, hms₁, hcs₂, hms₂, List.append_assoc]
  · have himports : (cs.map Prod.fst ++ [ForeignFunction.destructor (d.destructor.getD "")] ++
        ms.map Prod.fst).map ForeignFunction.symbol = constructors.map (fun p => (foreignConstructor p.1 p.2).symbol) ++
          d.destructor.getD "" :: methods.map fun p => (foreignMethod p.1 p.2).symbol := by
      rw [hcs₁, hms₁]
      simp [Function.comp_def]
    rw [he₄, he₃, hcs₃, hms₃, he₂, he₁, Host.gain, himports, Host.addSymbols_append,
      Host.addSymbols_cons, hcs₂, hms₂]
    simp [Wrapper.provided]

end Header
end Bindery
