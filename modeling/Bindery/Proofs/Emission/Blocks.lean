import Bindery.Proofs.Emission.Gain

/-!
# Emitting blocks of declarations

From a declaration, a header and the script interfaces beside it gain the same: the foreign
functions of the header and its low-level wrappers are the exports of a script interface. An
emission that succeeds for the header alone succeeds with script interfaces too, and all products
then hold what the declarations add, in order.
-/
namespace Bindery

/-- The foreign function that a wrapper defines, if it is a low-level one. -/
def Wrapper.foreign : Wrapper → List ForeignFunction
  | low w => [w.foreign]
  | _ => []

namespace Gain

/-- What a script interface declares of a gain. -/
def exports (g : Gain) : List ForeignFunction := g.imports ++ g.wrappers.flatMap (·.foreign)

end Gain

/-- A header that gained what some declarations add. Its types may have changed as well. -/
structure Header.Gains (gs : List Gain) (x y : Header) : Prop where
  imports : y.imports = x.imports ++ gs.flatMap (·.imports)
  wrappers : y.wrappers = x.wrappers ++ gs.flatMap (·.wrappers)

structure Interface.Gains (gs : List Gain) (x y : Interface) : Prop where
  isWide : y.isWide = x.isWide
  exports : y.exports = x.exports ++ gs.flatMap (·.exports)

namespace Header.Gains
variable {x y z : Header} {gs gs' : List Gain}

theorem refl (x : Header) : Gains [] x x := ⟨by simp, by simp⟩

theorem trans (h : Gains gs x y) (h' : Gains gs' y z) : Gains (gs ++ gs') x z :=
  ⟨by simp [h'.imports, h.imports], by simp [h'.wrappers, h.wrappers]⟩

theorem gain (x : Header) (g : Gain) : Gains [g] x (x.gain g) :=
  ⟨by simp [Header.gain], by simp [Header.gain]⟩

end Header.Gains

namespace Interface.Gains
variable {x y z : Interface} {gs gs' : List Gain}

theorem refl (x : Interface) : Gains [] x x := ⟨rfl, by simp⟩

theorem trans (h : Gains gs x y) (h' : Gains gs' y z) : Gains (gs ++ gs') x z :=
  ⟨h'.isWide.trans h.isWide, by simp [h'.exports, h.exports]⟩

theorem addExports (x : Interface) (g : Gain) : Gains [g] x (x.addExports g.exports) :=
  ⟨rfl, by simp [Interface.addExports]⟩

theorem trans_all {xs ys zs : List Interface} (h : List.Forall₂ (Gains gs) xs ys)
    (h' : List.Forall₂ (Gains gs') ys zs) : List.Forall₂ (Gains (gs ++ gs')) xs zs := by
  induction h generalizing zs with
  | nil =>
    cases h'
    exact .nil
  | cons hfirst _ ih =>
    cases h' with
    | cons hfirst' hrest' => exact .cons (hfirst.trans hfirst') (ih hrest')

end Interface.Gains

namespace Host
variable {h : Host}

theorem addSymbols_with_provided (provided : List Provided) (symbols : List String) :
    ({ h with provided } : Host).addSymbols symbols = { h.addSymbols symbols with provided } := by
  have hsymbols : (({ h with provided } : Host).addSymbols symbols).symbols =
      (h.addSymbols symbols).symbols := symbols_addSymbols rfl
  rw [addSymbols_eq, hsymbols, addSymbols_eq h]

theorem gain_nil : h.gain (.join []) = h := by
  simp [gain, Gain.join]

theorem gain_append (gs gs' : List Gain) :
    h.gain (.join (gs ++ gs')) = (h.gain (.join gs)).gain (.join gs') := by
  simp only [gain, Gain.join, List.flatMap_append, List.map_append, addSymbols_append,
    addSymbols_with_provided, List.append_assoc]

theorem gain_singleton (g : Gain) : h.gain (.join [g]) = h.gain g := by
  simp [gain, Gain.join]

theorem types_gain (g : Gain) : (h.gain g).types = h.types := by
  rw [gain, types_addSymbols]

end Host

/-! ### Exports of a gain -/

section
variable {reg : Registry} {f : Signature} {g : Gain}

theorem Registry.lowerParams_of_lowerParamsOf {function : String} {ps : List Param}
    {lps : List LoweredParam} (h : reg.lowerParamsOf function ps = .ok lps) :
    reg.lowerParams ps = .ok lps := by
  refine mapM_eq_ok.2 ((mapM_eq_ok.1 h).imp fun p lp hp => ?_)
  split at hp
  · cases hp
    exact Tokens.bind_eq_ok.2 ⟨_, ‹_›, rfl⟩
  · cases hp

theorem Registry.lowerReturn_of_lowerReturnOf {function : String} {t : Ty} {l : Lowered}
    (h : reg.lowerReturnOf function t = .ok l) : reg.lowerReturn t = .ok l := by
  unfold lowerReturnOf at h
  split at h
  · cases h
    assumption
  · cases h

theorem Signature.foreign_highWrappers {lps : List LoweredParam} {ret : Lowered}
    {ws : List Wrapper} (h : f.highWrappers reg lps ret = .ok ws) :
    ws.flatMap (·.foreign) = [] := by
  unfold highWrappers at h
  split at h
  · split at h
    · obtain ⟨w, -, rfl⟩ := map_eq_ok.1 h
      rfl
    · obtain ⟨w, -, rfl⟩ := map_eq_ok.1 h
      rfl
  · cases h
    rfl

/-- The result of a low-level wrapper, by its binding or else as that of the function. -/
theorem Binding.lowSlot_eq {b : Binding} {slot : Option Slot} (h : b.lowSlot reg f = .ok slot)
    (ret : Lowered) : ∃ low, b.lowReturn.mapM reg.lowerReturn = .ok low ∧
      slot.getD ret.slot = (low.getD ret).slot := by
  unfold lowSlot at h
  cases hlow : b.lowReturn with
  | none =>
    rw [hlow] at h
    cases h
    exact ⟨none, rfl, rfl⟩
  | some t =>
    rw [hlow] at h
    obtain ⟨l, hl, h⟩ := Tokens.bind_eq_ok.1 h
    have hl := Registry.lowerReturn_of_lowerReturnOf hl
    split at h
    · cases h
    · cases h
      exact ⟨some l, by rw [Option.mapM_some, hl]; rfl, rfl⟩

theorem Interface.ofFunction_of_gain (h : f.gain reg = .ok g) :
    ofFunction reg f = .ok g.exports := by
  obtain ⟨-, lps, ret, high, low, hlps, hret, hhigh, hlow, rfl⟩ := Signature.gain_eq_ok.1 h
  have hlps := Registry.lowerParams_of_lowerParamsOf hlps
  have hret := Registry.lowerReturn_of_lowerReturnOf hret
  refine Tokens.bind_eq_ok.2 ⟨lps, hlps, Tokens.bind_eq_ok.2 ⟨ret, hret, ?_⟩⟩
  have hforeign : (high ++ low).flatMap (·.foreign) = low.flatMap (·.foreign) := by
    rw [List.flatMap_append, Signature.foreign_highWrappers hhigh, List.nil_append]
  dsimp only [Gain.exports]
  rw [hforeign]
  unfold Signature.lowWrappers at hlow
  split at hlow
  · rw [if_pos ‹_›]
    obtain ⟨w, hw, rfl⟩ := map_eq_ok.1 hlow
    obtain ⟨slot, hslot, hw⟩ := Tokens.bind_eq_ok.1 hw
    obtain ⟨transform, -, ⟨⟩⟩ := Tokens.bind_eq_ok.1 hw
    obtain ⟨low, hlow, heq⟩ := Binding.lowSlot_eq hslot ret
    refine Tokens.bind_eq_ok.2 ⟨low, ?_, ?_⟩
    · rw [← hlow]
      cases f.binding with
      | none => rfl
      | some b => rfl
    · rw [← heq]
      rfl
  · rw [if_neg ‹_›]
    cases hlow
    rfl

/-- Steps whose results are made of those of other steps. -/
theorem mapM_map_ok {ε α β γ : Type} {f : α → Except ε β} {g : α → Except ε γ} {k : β → γ}
    (hstep : ∀ a b, f a = .ok b → g a = .ok (k b)) {as : List α} {bs : List β}
    (h : as.mapM f = .ok bs) : as.mapM g = .ok (bs.map k) := by
  refine mapM_eq_ok.2 ?_
  rw [List.forall₂_map_right_iff]
  exact (mapM_eq_ok.1 h).imp fun a b hb => hstep a b hb

theorem Interface.ofConstructor_of_gain {owner : String} (c : Constructor)
    (p : ForeignFunction × HandleConstructor) (h : c.gain reg owner = .ok p) :
    ofConstructor reg c = .ok p.1 := by
  obtain ⟨lps, hlps, h⟩ := Tokens.bind_eq_ok.1 h
  obtain ⟨made, -, ⟨⟩⟩ := Tokens.bind_eq_ok.1 h
  exact Tokens.bind_eq_ok.2 ⟨lps, Registry.lowerParams_of_lowerParamsOf hlps, rfl⟩

theorem Interface.ofMethod_of_gain {owner : String} (m : Method)
    (p : ForeignFunction × HandleMethod) (h : m.gain reg owner = .ok p) :
    ofMethod reg m = .ok p.1 := by
  obtain ⟨lps, hlps, h⟩ := Tokens.bind_eq_ok.1 h
  obtain ⟨ret, hret, h⟩ := Tokens.bind_eq_ok.1 h
  obtain ⟨made, -, ⟨⟩⟩ := Tokens.bind_eq_ok.1 h
  refine Tokens.bind_eq_ok.2 ⟨lps, Registry.lowerParams_of_lowerParamsOf hlps, ?_⟩
  exact Tokens.bind_eq_ok.2 ⟨ret, Registry.lowerReturn_of_lowerReturnOf hret, rfl⟩

theorem Interface.ofHandle_of_gain {d : Handle} (h : d.gain reg = .ok g) :
    ofHandle reg d = .ok g.exports := by
  obtain ⟨constructors, hconstructors, h⟩ := Tokens.bind_eq_ok.1 h
  obtain ⟨methods, hmethods, ⟨⟩⟩ := Tokens.bind_eq_ok.1 h
  refine Tokens.bind_eq_ok.2 ⟨_, mapM_map_ok ofConstructor_of_gain hconstructors, ?_⟩
  refine Tokens.bind_eq_ok.2 ⟨_, mapM_map_ok ofMethod_of_gain hmethods, ?_⟩
  simp [Gain.exports, Wrapper.foreign]

end

/-! ### Products -/

/-- A header with script interfaces beside it. -/
def Product.headed (x : Header) (ss : List Interface) : List Product := .header x :: ss.map .script

namespace Emit
variable {m m' : List Product → Emit (List Product)} {R R' : Registry → List Gain → Prop}

/-- An emission to all products of a host. Whenever it succeeds, whichever script interfaces are
beside the header, it succeeds with any others too, and adds the same to all products. -/
def Gains (m : List Product → Emit (List Product)) (R : Registry → List Gain → Prop) : Prop :=
  ∀ x ss e ps e', (m (Product.headed x ss)).runOn e = (.ok ps, e') →
    ∃ y gs, R e.host.types gs ∧ Header.Gains gs x y ∧ e'.host = e.host.gain (.join gs) ∧
      ∀ ts, ∃ ts', (m (Product.headed x ts)).runOn e = (.ok (Product.headed y ts'), e') ∧
        List.Forall₂ (Interface.Gains gs) ts ts'

theorem Gains.mono (h : Gains m R) (hR : ∀ reg gs, R reg gs → R' reg gs) : Gains m R' := by
  intro x ss e ps e' hrun
  obtain ⟨y, gs, hgs, hrest⟩ := h x ss e ps e' hrun
  exact ⟨y, gs, hR _ _ hgs, hrest⟩

theorem gains_pure : Gains pure fun _ gs => gs = [] := by
  intro x ss e ps e' hrun
  obtain ⟨rfl, rfl⟩ := pure_ok.1 hrun
  refine ⟨x, [], rfl, .refl x, Host.gain_nil.symm, fun ts => ⟨ts, pure_ok.2 ⟨rfl, rfl⟩, ?_⟩⟩
  exact List.forall₂_same.2 fun s _ => .refl s

/-- Two emissions in turn. -/
theorem Gains.comp (h : Gains m R) (h' : Gains m' R') :
    Gains (fun ps => m ps >>= m')
      fun reg gs => ∃ gs₁ gs₂, R reg gs₁ ∧ R' reg gs₂ ∧ gs = gs₁ ++ gs₂ := by
  intro x ss e ps e' hrun
  obtain ⟨ps₁, e₁, hfirst, hsecond⟩ := bind_ok.1 hrun
  obtain ⟨y, gs₁, hR, hy, he₁, hany⟩ := h x ss e ps₁ e₁ hfirst
  obtain ⟨ss', hss, -⟩ := hany ss
  obtain rfl : ps₁ = Product.headed y ss' :=
    Except.ok.inj (congrArg Prod.fst (hfirst.symm.trans hss))
  obtain ⟨z, gs₂, hR', hz, he', hany'⟩ := h' y ss' e₁ ps e' hsecond
  rw [he₁, Host.types_gain] at hR'
  refine ⟨z, gs₁ ++ gs₂, ⟨gs₁, gs₂, hR, hR', rfl⟩, hy.trans hz, ?_, fun ts => ?_⟩
  · rw [he', he₁, Host.gain_append]
  · obtain ⟨ts', hts, hgains⟩ := hany ts
    obtain ⟨ts'', hts', hgains'⟩ := hany' ts'
    exact ⟨ts'', bind_ok.2 ⟨_, _, hts, hts'⟩, Interface.Gains.trans_all hgains hgains'⟩

/-- An emission of one item after the other. -/
theorem gains_foldlM {α : Type} {step : α → List Product → Emit (List Product)}
    {R : α → Registry → List Gain → Prop} (h : ∀ a, Gains (step a) (R a)) (as : List α) :
    Gains (fun ps => as.foldlM (fun ps a => step a ps) ps)
      fun reg gs => ∃ gss, List.Forall₂ (fun a gs => R a reg gs) as gss ∧ gs = gss.flatten := by
  induction as with
  | nil =>
    refine gains_pure.mono ?_
    rintro reg _ rfl
    exact ⟨[], .nil, rfl⟩
  | cons a as ih =>
    refine ((h a).comp ih).mono ?_
    rintro reg _ ⟨gs₁, _, hgs₁, ⟨gss, hgss, rfl⟩, rfl⟩
    exact ⟨gs₁ :: gss, .cons hgs₁ hgss, rfl⟩

/-- An emission that deals with each product in turn. -/
theorem gains_mapM {step : Product → Emit Product}
    (h : ∀ x e p e', (step (.header x)).runOn e = (.ok p, e') → ∃ y gs, p = .header y ∧
      R e.host.types gs ∧ Header.Gains gs x y ∧ e'.host = e.host.gain (.join gs) ∧
      ∀ s, ∃ s', (step (.script s)).runOn e' = (.ok (.script s'), e') ∧ Interface.Gains gs s s') :
    Gains (fun ps => ps.mapM step) R := by
  intro x ss e ps e' hrun
  obtain ⟨p, ps', e₁, rfl, hheader, hscripts⟩ := mapM_cons_ok.1 hrun
  obtain ⟨y, gs, rfl, hR, hy, hhost, hscript⟩ := h x e p e₁ hheader
  have hall : ∀ ts : List Interface, ∃ ts', ((ts.map Product.script).mapM step).runOn e₁ =
      (.ok (ts'.map Product.script), e₁) ∧ List.Forall₂ (Interface.Gains gs) ts ts' := by
    intro ts
    induction ts with
    | nil => exact ⟨[], mapM_nil_ok.2 ⟨rfl, rfl⟩, .nil⟩
    | cons t ts ih =>
      obtain ⟨t', ht, hgain⟩ := hscript t
      obtain ⟨ts', hts, hgains⟩ := ih
      exact ⟨t' :: ts', mapM_cons_ok.2 ⟨_, _, _, rfl, ht, hts⟩, .cons hgain hgains⟩
  obtain ⟨ss', hss, -⟩ := hall ss
  obtain rfl : e₁ = e' := congrArg Prod.snd (hss.symm.trans hscripts)
  refine ⟨y, gs, hR, hy, hhost, fun ts => ?_⟩
  obtain ⟨ts', hts, hgains⟩ := hall ts
  exact ⟨ts', mapM_cons_ok.2 ⟨_, _, _, rfl, hheader, hts⟩, hgains⟩

end Emit

/-! ### Blocks -/

namespace Product
open Emit

theorem gains_beginModule : Emit.Gains (fun ps => ps.mapM beginModule) fun _ gs => gs = [] := by
  refine gains_mapM fun x e p e' h => ?_
  obtain ⟨_, e₁, hget, h⟩ := bind_ok.1 h
  cases hget
  obtain ⟨_, e₂, hnote, h⟩ := bind_ok.1 h
  cases hnote
  obtain ⟨rfl, rfl⟩ := pure_ok.1 h
  exact ⟨x, [], rfl, rfl, .refl x, Host.gain_nil.symm, fun s => ⟨s, rfl, .refl s⟩⟩

theorem gains_addEnum (c : Enum) :
    Emit.Gains (fun ps => ps.mapM (addEnum c)) fun _ gs => gs = [] := by
  refine gains_mapM fun x e p e' h => ?_
  obtain ⟨rfl, rfl⟩ := pure_ok.1 h
  refine ⟨x.addEnum c, [], rfl, rfl, ⟨by simp [Header.addEnum], by simp [Header.addEnum]⟩,
    Host.gain_nil.symm, fun s => ⟨s.addEnum c, rfl, ⟨rfl, by simp [Interface.addEnum]⟩⟩⟩

theorem addRecord_ok {x y : Header} {r : Record} {e e' : Emission}
    (h : (x.addRecord r).runOn e = (.ok y, e')) :
    y.imports = x.imports ∧ y.wrappers = x.wrappers ∧ e' = e := by
  obtain ⟨_, e₁, hget, h⟩ := bind_ok.1 h
  cases hget
  dsimp only at h
  split at h
  · split at h
    · obtain ⟨rfl, rfl⟩ := pure_ok.1 h
      exact ⟨rfl, rfl, rfl⟩
    · exact absurd h throw_ne_ok
  · split at h
    · exact absurd h throw_ne_ok
    · obtain ⟨fields, _, hlower, h⟩ := bind_ok.1 h
      obtain ⟨-, rfl⟩ := lower_ok.1 hlower
      obtain ⟨rfl, rfl⟩ := pure_ok.1 h
      exact ⟨rfl, rfl, rfl⟩

theorem gains_addRecord (r : Record) :
    Emit.Gains (fun ps => ps.mapM (addRecord r)) fun _ gs => gs = [] := by
  refine gains_mapM fun x e p e' h => ?_
  obtain ⟨y, hy, rfl⟩ := map_ok.1 h
  obtain ⟨himports, hwrappers, rfl⟩ := addRecord_ok hy
  exact ⟨y, [], rfl, rfl, ⟨by simpa using himports, by simpa using hwrappers⟩,
    Host.gain_nil.symm, fun s => ⟨s, rfl, .refl s⟩⟩

theorem gains_addFunction (f : Signature) :
    Emit.Gains (fun ps => ps.mapM (addFunction f)) fun reg gs =>
      f.isGeneric = false ∧ ∃ g, f.gain reg = .ok g ∧ gs = [g] := by
  refine gains_mapM fun x e p e' h => ?_
  obtain ⟨y, hy, rfl⟩ := map_ok.1 h
  obtain ⟨hgeneric, g, hg, rfl, hhost⟩ := Header.addFunction_ok hy
  refine ⟨_, [g], rfl, ⟨hgeneric, g, hg, rfl⟩, .gain x g, ?_, fun s => ⟨s.addExports g.exports, ?_,
    .addExports s g⟩⟩
  · rw [hhost, Host.gain_singleton]
  · refine registry_bind_ok.2 (bind_ok.2 ⟨_, _, lower_ok.2 ⟨?_, rfl⟩, rfl⟩)
    rw [hhost, Host.types_gain]
    exact Interface.ofFunction_of_gain hg

theorem gains_addHandle (d : Handle) :
    Emit.Gains (fun ps => ps.mapM (addHandle d)) fun reg gs =>
      ∃ g, d.gain reg = .ok g ∧ gs = [g] := by
  refine gains_mapM fun x e p e' h => ?_
  obtain ⟨y, hy, rfl⟩ := map_ok.1 h
  obtain ⟨g, hg, rfl, hhost⟩ := Header.addHandle_ok hy
  refine ⟨_, [g], rfl, ⟨g, hg, rfl⟩, .gain x g, ?_, fun s => ⟨s.addExports g.exports, ?_,
    .addExports s g⟩⟩
  · rw [hhost, Host.gain_singleton]
  · refine registry_bind_ok.2 (bind_ok.2 ⟨_, _, lower_ok.2 ⟨?_, rfl⟩, rfl⟩)
    rw [hhost, Host.types_gain]
    exact Interface.ofHandle_of_gain hg

end Product
section
variable (expand : Signature → Except Failure (List Signature)) (reg : Registry)

/-- What a declared function adds: one gain for each function that it stands for. -/
def Signature.Gains (f : Signature) (gs : List Gain) : Prop :=
  ∃ fs, expand f = .ok fs ∧ (∀ f ∈ fs, f.isGeneric = false) ∧ fs.mapM (·.gain reg) = .ok gs

/-- What the declarations of an annotation add: first its functions, then its handles. -/
def Declarations.Gains (b : Declarations) (gs : List Gain) : Prop :=
  ∃ fgs hgs, List.Forall₂ (fun f gs => f.Gains expand reg gs) b.functions fgs ∧
    b.handles.mapM (·.gain reg) = .ok hgs ∧ gs = fgs.flatten ++ hgs

/-- What the annotations of a host add, in turn. -/
def Declarations.AllGain (bs : List Declarations) (gs : List Gain) : Prop :=
  ∃ gss, List.Forall₂ (fun b gs => b.Gains expand reg gs) bs gss ∧ gs = gss.flatten

end

namespace Emit

section
variable {α : Type} {as : List α} {gss : List (List Gain)}

theorem flatten_eq_nil (h : List.Forall₂ (fun (_ : α) gs => gs = []) as gss) :
    gss.flatten = [] := by
  induction h with
  | nil => rfl
  | cons hfirst _ ih => rw [List.flatten_cons, hfirst, ih, List.nil_append]

theorem mapM_of_singletons {gain : α → Except LoweringFault Gain}
    (h : List.Forall₂ (fun a gs => ∃ g, gain a = .ok g ∧ gs = [g]) as gss) :
    as.mapM gain = .ok gss.flatten := by
  induction h with
  | nil => rfl
  | cons hfirst _ ih =>
    obtain ⟨g, hg, rfl⟩ := hfirst
    exact mapM_cons_eq_ok.2 ⟨g, _, rfl, hg, ih⟩

/-- Types add nothing else. -/
theorem gains_types {step : α → Product → Emit Product}
    (h : ∀ a, Gains (fun ps => ps.mapM (step a)) fun _ gs => gs = []) (as : List α) :
    Gains (each step as) fun _ gs => gs = [] := by
  refine (gains_foldlM h as).mono ?_
  rintro reg _ ⟨gss, hgss, rfl⟩
  exact flatten_eq_nil hgss

end

variable {expand : Signature → Except Failure (List Signature)}

theorem gains_function (f : Signature) :
    Gains (fun ps => function expand ps f) fun reg gs => f.Gains expand reg gs := by
  unfold function
  cases hexpand : expand f with
  | error failure =>
    intro x ss e ps e' hrun
    obtain ⟨_, _, hthrow, -⟩ := bind_ok.1 hrun
    cases hthrow
  | ok fs =>
    refine (gains_foldlM Product.gains_addFunction fs).mono ?_
    rintro reg _ ⟨gss, hgss, rfl⟩
    obtain ⟨hgeneric, hgains⟩ := (List.forall₂_and_left _ _).1 hgss
    exact ⟨fs, hexpand, hgeneric, mapM_of_singletons hgains⟩

/-- Emits the functions and handles of some blocks, without their types. -/
def bindings (expand : Signature → Except Failure (List Signature)) (bs : List Declarations)
    (ps : List Product) : Emit (List Product) :=
  bs.foldlM (fun ps b => do
    let ps ← b.functions.foldlM (function expand) ps
    each Product.addHandle b.handles ps) ps

theorem gains_declarations (b : Declarations) :
    Gains (fun ps => do
        let ps ← b.functions.foldlM (function expand) ps
        each Product.addHandle b.handles ps)
      fun reg gs => b.Gains expand reg gs := by
  refine ((gains_foldlM gains_function b.functions).comp
    (gains_foldlM Product.gains_addHandle b.handles)).mono ?_
  rintro reg _ ⟨_, _, ⟨fgs, hfgs, rfl⟩, ⟨hgs, hhgs, rfl⟩, rfl⟩
  exact ⟨fgs, _, hfgs, mapM_of_singletons hhgs, rfl⟩

theorem gains_bindings (bs : List Declarations) :
    Gains (bindings expand bs) (Declarations.AllGain expand · bs) :=
  gains_foldlM gains_declarations bs

/-- Blocks of declarations add what their functions and handles do. -/
theorem gains_blocks (bs : List Declarations) :
    Gains (blocks expand bs) (Declarations.AllGain expand · bs) := by
  have htypes : Gains (fun ps => bs.foldlM (fun ps b => do
      let ps ← each Product.addEnum b.enums ps
      each Product.addRecord b.records ps) ps) fun _ gs => gs = [] := by
    refine (gains_foldlM (fun b => (gains_types Product.gains_addEnum b.enums).comp
      (gains_types Product.gains_addRecord b.records)) bs).mono ?_
    rintro reg _ ⟨gss, hgss, rfl⟩
    refine flatten_eq_nil (hgss.imp ?_)
    rintro _ _ ⟨_, _, rfl, rfl, rfl⟩
    rfl
  refine (Product.gains_beginModule.comp
    (htypes.comp (gains_bindings bs))).mono ?_
  rintro reg _ ⟨_, _, rfl, ⟨_, _, rfl, hgs, rfl⟩, rfl⟩
  exact hgs

end Emit
end Bindery
