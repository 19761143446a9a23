import Bindery.Proofs.Emission.Mirror
import Bindery.Proofs.Lowering.Boundary

/-!
# Layouts behind the boundary

Whatever an emission declares to the foreign side has a declared layout, and so has what one meets
in the fields of the records that cross, to any depth. A name resolves to the first record that is
declared by it. A definition that does not ask for a layout is not checked, also if an earlier
declaration of its name does.
-/
namespace Bindery

/-- The foreign functions of a header: those it declares and those its low-level wrappers define. -/
def Header.foreign (x : Header) : List ForeignFunction :=
  x.imports ++ x.wrappers.flatMap (·.foreign)

/-! ### Foreign functions -/

section
variable {reg : Registry} {f : Signature} {g : Gain} {lps : List LoweredParam} {ret : Lowered}
  {ws : List Wrapper}

theorem LowWrapper.crosses_of_new {w : LowWrapper} {b : Binding}
    (hparams : ∀ lp ∈ lps, ∀ s ∈ lp.lowered.slots, s.Crosses reg) (hret : ret.slot.Crosses reg)
    (h : LowWrapper.new reg f lps ret b = .ok w) : w.foreign.Crosses reg := by
  obtain ⟨slot, hslot, h⟩ := Tokens.bind_eq_ok.1 h
  obtain ⟨transform, -, ⟨⟩⟩ := Tokens.bind_eq_ok.1 h
  obtain ⟨low, hlow, heq⟩ := Binding.lowSlot_eq hslot ret
  refine ForeignFunction.crosses_new hparams ?_
  rw [heq]
  cases hlowReturn : b.lowReturn with
  | none =>
    rw [hlowReturn] at hlow
    cases hlow
    exact hret
  | some t =>
    rw [hlowReturn, Option.mapM_some] at hlow
    obtain ⟨l, hl, rfl⟩ := map_eq_ok.1 hlow
    exact Registry.crosses_of_lowerReturn hl

theorem Signature.crosses_of_gain (h : f.gain reg = .ok g) : ∀ x ∈ g.exports, x.Crosses reg := by
  obtain ⟨-, lps, ret, high, low, hlps, hret, hhigh, hlow, rfl⟩ := gain_eq_ok.1 h
  have hparams := Registry.crosses_of_lowerParams (Registry.lowerParams_of_lowerParamsOf hlps)
  have hresult := Registry.crosses_of_lowerReturn (Registry.lowerReturn_of_lowerReturnOf hret)
  intro x hx
  dsimp only [Gain.exports] at hx
  rw [List.flatMap_append, foreign_highWrappers hhigh, List.nil_append] at hx
  rcases List.mem_append.1 hx with hx | hx
  · rw [List.mem_singleton.1 hx]
    exact ForeignFunction.crosses_new hparams hresult
  · unfold lowWrappers at hlow
    split at hlow
    · obtain ⟨w, hw, rfl⟩ := map_eq_ok.1 hlow
      rw [List.flatMap_singleton] at hx
      rw [List.mem_singleton.1 hx]
      exact LowWrapper.crosses_of_new hparams hresult hw
    · cases hlow
      exact absurd hx List.not_mem_nil

theorem Constructor.crosses_of_gain {owner : String} {c : Constructor}
    {p : ForeignFunction × HandleConstructor} (h : c.gain reg owner = .ok p) :
    p.1.Crosses reg := by
  obtain ⟨lps, hlps, h⟩ := Tokens.bind_eq_ok.1 h
  obtain ⟨made, -, ⟨⟩⟩ := Tokens.bind_eq_ok.1 h
  exact ForeignFunction.crosses_new
    (Registry.crosses_of_lowerParams (Registry.lowerParams_of_lowerParamsOf hlps))
    Slot.crosses_opaqueHandle

theorem Method.crosses_of_gain {owner : String} {m : Method}
    {p : ForeignFunction × HandleMethod} (h : m.gain reg owner = .ok p) : p.1.Crosses reg := by
  obtain ⟨lps, hlps, h⟩ := Tokens.bind_eq_ok.1 h
  obtain ⟨ret, hret, h⟩ := Tokens.bind_eq_ok.1 h
  obtain ⟨made, -, ⟨⟩⟩ := Tokens.bind_eq_ok.1 h
  exact (ForeignFunction.crosses_new
    (Registry.crosses_of_lowerParams (Registry.lowerParams_of_lowerParamsOf hlps))
    (Registry.crosses_of_lowerReturn (Registry.lowerReturn_of_lowerReturnOf hret))).onSelf

theorem ForeignFunction.crosses_destructor (symbol : String) :
    (ForeignFunction.destructor symbol).Crosses reg :=
  Crosses.onSelf fun _ hs => List.mem_singleton.1 hs ▸ trivial

/-- What is related to some items is related to one of them each. -/
theorem exists_of_mem_forall₂ {α β : Type} {R : α → β → Prop} {as : List α} {bs : List β}
    (h : List.Forall₂ R as bs) {b : β} (hb : b ∈ bs) : ∃ a ∈ as, R a b := by
  obtain ⟨n, hn, rfl⟩ := List.mem_iff_getElem.1 hb
  have hn' : n < as.length := by
    rw [h.length_eq]
    exact hn
  exact ⟨as[n], List.getElem_mem hn', h.get hn' hn⟩

theorem crosses_of_mapM {α β : Type} {gain : α → Except LoweringFault (ForeignFunction × β)}
    (hgain : ∀ a p, gain a = .ok p → p.1.Crosses reg) {as : List α}
    {ps : List (ForeignFunction × β)} (h : as.mapM gain = .ok ps) :
    ∀ x ∈ ps.map (·.1), x.Crosses reg := by
  intro x hx
  obtain ⟨p, hp, rfl⟩ := List.mem_map.1 hx
  obtain ⟨a, -, ha⟩ := exists_of_mem_forall₂ (mapM_eq_ok.1 h) hp
  exact hgain a p ha

theorem Handle.crosses_of_gain {d : Handle} (h : d.gain reg = .ok g) :
    ∀ x ∈ g.exports, x.Crosses reg := by
  obtain ⟨constructors, hconstructors, h⟩ := Tokens.bind_eq_ok.1 h
  obtain ⟨methods, hmethods, ⟨⟩⟩ := Tokens.bind_eq_ok.1 h
  intro x hx
  simp only [Gain.exports, Wrapper.foreign, List.flatMap_singleton, List.append_nil,
    List.mem_append, List.mem_singleton] at hx
  rcases hx with (hx | rfl) | hx
  · exact crosses_of_mapM (fun _ _ => Constructor.crosses_of_gain) hconstructors x hx
  · exact ForeignFunction.crosses_destructor _
  · exact crosses_of_mapM (fun _ _ => Method.crosses_of_gain) hmethods x hx

end

/-- All that some declarations add crosses. -/
theorem Declarations.crosses_of_allGain
    {expand : Signature → Except Failure (List Signature)} {reg : Registry}
    {bs : List Declarations} {gs : List Gain} (h : AllGain expand reg bs gs) :
    ∀ g ∈ gs, ∀ x ∈ g.exports, x.Crosses reg := by
  obtain ⟨gss, hgss, rfl⟩ := h
  intro g hg
  obtain ⟨gs, hgs, hg⟩ := List.mem_flatten.1 hg
  obtain ⟨b, -, fgs, hgs', hfgs, hhgs, rfl⟩ := exists_of_mem_forall₂ hgss hgs
  rcases List.mem_append.1 hg with hg | hg
  · obtain ⟨gs, hgs, hg⟩ := List.mem_flatten.1 hg
    obtain ⟨f, -, fs, -, -, hfs⟩ := exists_of_mem_forall₂ hfgs hgs
    obtain ⟨f', -, hf'⟩ := exists_of_mem_forall₂ (mapM_eq_ok.1 hfs) hg
    exact Signature.crosses_of_gain hf'
  · obtain ⟨d, -, hd⟩ := exists_of_mem_forall₂ (mapM_eq_ok.1 hhgs) hg
    exact Handle.crosses_of_gain hd

/-! ### Records -/

/-- A record whose fields have been checked, if it is defined. -/
def Record.IsChecked (reg : Registry) (r : Record) : Prop :=
  r.isDefined = true → ∃ fields, Header.fieldsOf reg r = .ok fields

/-- The fields of a checked record with a layout have layouts themselves. -/
theorem Record.IsChecked.isPlain {reg : Registry} {r : Record} (h : r.IsChecked reg)
    (hdefined : r.isDefined = true) (hlayout : r.hasLayout = true) {p : Param}
    (hp : p ∈ r.fields) : reg.IsPlain p.type.base := by
  obtain ⟨fields, hfields⟩ := h hdefined
  obtain ⟨n, hn, rfl⟩ := List.mem_iff_getElem.1 hp
  have hall := mapM_eq_ok.1 hfields
  have hn' : n < fields.length := by
    rw [← hall.length_eq]
    exact hn
  have hfield := hall.get hn hn'
  dsimp only [List.get_eq_getElem] at hfield
  unfold Header.field at hfield
  dsimp only at hfield
  rw [if_pos hlayout] at hfield
  cases hvalue : reg.lowerValue r.fields[n].type.base with
  | error fault =>
    rw [hvalue] at hfield
    cases hfield
  | ok slot =>
    obtain ⟨shape, hshape, -⟩ := Tokens.bind_eq_ok.1 hvalue
    obtain ⟨v, hv, -⟩ := Registry.byValue_of_valueShape hshape
    exact hv.isPlain

namespace Product
open Emit

theorem isChecked_of_addRecord {x y : Header} {r : Record} {e e' : Emission}
    (h : (x.addRecord r).runOn e = (.ok y, e')) : r.IsChecked e.host.types := by
  intro hdefined
  obtain ⟨_, e₁, hget, h⟩ := bind_ok.1 h
  cases hget
  dsimp only at h
  rw [hdefined, Bool.not_true, if_neg Bool.false_ne_true] at h
  split at h
  · exact absurd h throw_ne_ok
  · obtain ⟨fields, _, hlower, -⟩ := bind_ok.1 h
    exact ⟨fields, (lower_ok.1 hlower).1⟩

theorem gains_checkedRecord (r : Record) :
    Emit.Gains (fun ps => ps.mapM (addRecord r)) fun reg gs => gs = [] ∧ r.IsChecked reg := by
  refine gains_mapM fun x e p e' h => ?_
  obtain ⟨y, hy, rfl⟩ := map_ok.1 h
  have hchecked := isChecked_of_addRecord hy
  obtain ⟨himports, hwrappers, rfl⟩ := addRecord_ok hy
  exact ⟨y, [], rfl, ⟨rfl, hchecked⟩, ⟨by simpa using himports, by simpa using hwrappers⟩,
    Host.gain_nil.symm, fun s => ⟨s, rfl, .refl s⟩⟩

end Product

namespace Emit
variable {expand : Signature → Except Failure (List Signature)}

/-- The records of a block are checked and add nothing else. -/
theorem gains_checkedTypes (b : Declarations) :
    Gains (fun ps => do
        let ps ← each Product.addEnum b.enums ps
        each Product.addRecord b.records ps)
      fun reg gs => gs = [] ∧ ∀ r ∈ b.records, r.IsChecked reg := by
  refine ((gains_types Product.gains_addEnum b.enums).comp
    (gains_foldlM Product.gains_checkedRecord b.records)).mono ?_
  rintro reg _ ⟨_, _, rfl, ⟨gss, hgss, rfl⟩, rfl⟩
  obtain ⟨hchecked, hnone⟩ :=
    (List.forall₂_and_left _ _).1 (hgss.imp fun _ _ => And.symm)
  exact ⟨flatten_eq_nil hnone, hchecked⟩

/-- Blocks of declarations are emitted only if all their records are checked. -/
theorem gains_checkedBlocks (bs : List Declarations) :
    Gains (blocks expand bs) fun reg gs => Declarations.AllGain expand reg bs gs ∧
      ∀ b ∈ bs, ∀ r ∈ b.records, r.IsChecked reg := by
  refine (Product.gains_beginModule.comp
    ((gains_foldlM gains_checkedTypes bs).comp (gains_bindings bs))).mono ?_
  rintro reg _ ⟨_, _, rfl, ⟨_, gs, ⟨gss, hgss, rfl⟩, hgs, rfl⟩, rfl⟩
  obtain ⟨hchecked, hnone⟩ :=
    (List.forall₂_and_left _ _).1 (hgss.imp fun _ _ => And.symm)
  refine ⟨?_, hchecked⟩
  rwa [flatten_eq_nil hnone]

end Emit

/-! ### Following the fields -/

/-- A definition that asks for a layout if the first record of its name does. -/
def Record.KeepsLayout (reg : Registry) (r : Record) : Prop :=
  ∀ first, reg.record? r.name = some first → first.hasLayout = true → r.hasLayout = true

namespace Registry
variable {reg : Registry} {follow : Record → Prop} {name : String} {t : Ty}

/-- What one meets behind a name, following the fields of some of the records that are defined by
the names on the way. -/
inductive Meets (reg : Registry) (follow : Record → Prop) (name : String) : Ty → Prop
  | name : Meets reg follow name (.record name)
  | field {r : Record} {p : Param} (hr : Meets reg follow name (.record r.name))
      (henum : reg.enum? r.name = none) (hmem : r ∈ reg.records) (hdefined : r.isDefined = true)
      (hfollow : follow r) (hp : p ∈ r.fields) : Meets reg follow name p.type.base

theorem record?_keepsLayout {r : Record} (h : reg.record? r.name = some r) :
    r.KeepsLayout reg := by
  intro first hfirst hlayout
  obtain rfl : r = first := Option.some.inj (h.symm.trans hfirst)
  exact hlayout

/-- Behind a laid out name there are layouts only, as long as no definition drops that of its
name. -/
theorem Meets.isPlain (h : reg.Meets follow name t) (hname : reg.IsLaidOut name)
    (hchecked : ∀ r ∈ reg.records, r.IsChecked reg)
    (hkeeps : ∀ r ∈ reg.records, r.isDefined = true → follow r → r.KeepsLayout reg) :
    reg.IsPlain t := by
  induction h with
  | name => exact hname
  | @field r p _ henum hmem hdefined hfollow hp ih =>
    have hlayout : r.hasLayout = true := by
      rcases ih with hsome | ⟨first, hfirst, hlayout⟩
      · rw [henum] at hsome
        cases hsome
      · exact hkeeps r hmem hdefined hfollow first hfirst hlayout
    exact (hchecked r hmem).isPlain hdefined hlayout hp

end Registry

namespace Emit

/-- Once the declarations of a host are emitted, all that crosses to its foreign side has a declared
layout. So has what one meets behind it by way of the records that names resolve to, and by way of
any records if no definition drops the layout that its name was first declared with. -/
theorem layouts_behind (expand : Signature → Except Failure (List Signature))
    (bs : List Declarations) (ss : List Interface) (h : Host) (notes : List Note)
    (hnew : h.types = {}) (ps : List Product) (e : Emission)
    (hrun : (blocks expand bs (Product.headed {} ss)).runOn ⟨h.declare bs, notes⟩ = (.ok ps, e)) :
    let reg := (h.declare bs).types
    ∃ x ts, ps = Product.headed x ts ∧ ∀ f ∈ x.foreign, ∀ s ∈ f.slots, s.Crosses reg ∧
      ∀ name, s.named? = some name →
        (∀ t, reg.Meets (fun r => reg.record? r.name = some r) name t → reg.IsPlain t) ∧
        ((∀ r ∈ reg.records, r.isDefined = true → r.KeepsLayout reg) →
          ∀ t, reg.Meets (fun _ => True) name t → reg.IsPlain t) := by
  intro reg
  obtain ⟨x, gs, ⟨hgain, hrecords⟩, hx, -, hany⟩ := gains_checkedBlocks bs {} ss _ ps e hrun
  obtain ⟨ts, hts, -⟩ := hany ss
  have hchecked : ∀ r ∈ reg.records, r.IsChecked reg := by
    intro r hr
    have hmem : r ∈ bs.flatMap (·.records) := by
      simpa [reg, Host.declare, hnew] using hr
    obtain ⟨b, hb, hr⟩ := List.mem_flatMap.1 hmem
    exact hrecords b hb r hr
  refine ⟨x, ts, Except.ok.inj (congrArg Prod.fst (hrun.symm.trans hts)), fun f hf s hs => ?_⟩
  -- What the header declares is what the declarations gain.
  obtain ⟨g, hg, hexport⟩ : ∃ g ∈ gs, f ∈ g.exports := by
    refine List.mem_flatMap.1 ((Interface.perm_exports gs).mem_iff.2 ?_)
    simpa [Header.foreign, hx.imports, hx.wrappers] using hf
  have hcross := Declarations.crosses_of_allGain hgain g hg f hexport s hs
  refine ⟨hcross, fun name hname => ⟨fun t ht => ?_, fun hkeeps t ht => ?_⟩⟩
  · exact ht.isPlain (Slot.isLaidOut_of_named? hcross hname) hchecked
      fun r _ _ hfirst => Registry.record?_keepsLayout hfirst
  · exact ht.isPlain (Slot.isLaidOut_of_named? hcross hname) hchecked
      fun r hr hdefined _ => hkeeps r hr hdefined

/-- A record whose field is an array of another: the scalars of that are behind both. -/
theorem layouts_behind_array :
    let q : Record := {
      name := "Q", fields := [⟨"n", .scalar (.int .u32)⟩], isDefined := true, hasLayout := true,
      pos := .start }
    let p : Record := {
      name := "P", fields := [⟨"qs", .array (.record "Q") 2⟩], isDefined := true,
      hasLayout := true, pos := .start }
    let b : Declarations := {
      records := [q, p]
      functions := [{
        name := "f", params := [⟨"p", .record "P"⟩], ret := .scalar .void, pos := .start }] }
    let h : Host := { path := ⟨"demo.hpp"⟩, stem := "demo", modulePath := ["demo"] }
    let reg := (h.declare [b]).types
    ∃ x e f s, (blocks Signature.concrete [b] [.header {}]).runOn ⟨h.declare [b], []⟩ =
        (.ok [.header x], e) ∧
      f ∈ x.foreign ∧ s ∈ f.slots ∧ s.named? = some "P" ∧
      reg.Meets (fun _ => True) "P" (.scalar (.int .u32)) ∧
      reg.IsPlain (.scalar (.int .u32)) := by
  intro q p b h reg
  obtain ⟨x, e, f, hrun, hf, hs⟩ : ∃ x e f,
      (blocks Signature.concrete [b] [.header {}]).runOn ⟨h.declare [b], []⟩ =
        (.ok [.header x], e) ∧ f ∈ x.foreign ∧ ⟨.record "P", .whole⟩ ∈ f.slots := by
    unfold b h p q
    exact ⟨_, _, _, rfl, List.mem_cons_self, List.mem_cons_of_mem _ List.mem_cons_self⟩
  obtain ⟨_, ts, hx, hall⟩ := layouts_behind Signature.concrete [b] [] h [] rfl _ _ hrun
  obtain rfl := Product.header.inj (List.cons.inj hx).1
  have hkeeps : ∀ r ∈ reg.records, r.isDefined = true → r.KeepsLayout reg := by
    intro r hr _
    refine Registry.record?_keepsLayout ?_
    rcases List.mem_pair.1 hr with rfl | rfl
    · rfl
    · rfl
  have hmeets : reg.Meets (fun _ => True) "P" (.scalar (.int .u32)) :=
    .field (r := q) (p := ⟨"n", .scalar (.int .u32)⟩)
      (.field (r := p) (p := ⟨"qs", .array (.record "Q") 2⟩) .name rfl
        (List.mem_cons_of_mem _ List.mem_cons_self) rfl trivial List.mem_cons_self)
      rfl List.mem_cons_self rfl trivial List.mem_cons_self
  exact ⟨x, e, f, _, hrun, hf, hs, rfl, hmeets, ((hall f hf _ hs).2 "P" rfl).2 hkeeps _ hmeets⟩

/-- A record that is declared with a layout and defined without one: its fields are not checked. -/
theorem layout_dropped :
    let p : Record := {
      name := "P", fields := [⟨"q", .record "Q"⟩], isDefined := true, pos := .start }
    let b : Declarations := {
      records := [{ name := "P", hasLayout := true, pos := .start }, p]
      functions := [{
        name := "f", params := [⟨"p", .record "P"⟩], ret := .scalar .void, pos := .start }] }
    let h : Host := { path := ⟨"demo.hpp"⟩, stem := "demo", modulePath := ["demo"] }
    let reg := (h.declare [b]).types
    ∃ x e f s, (blocks Signature.concrete [b] [.header {}]).runOn ⟨h.declare [b], []⟩ =
        (.ok [.header x], e) ∧
      f ∈ x.imports ∧ s ∈ f.slots ∧ s.named? = some "P" ∧
      reg.Meets (fun _ => True) "P" (.record "Q") ∧ ¬ reg.IsPlain (.record "Q") := by
  intro p b h reg
  obtain ⟨x, e, f, hrun, hf, hs⟩ : ∃ x e f,
      (blocks Signature.concrete [b] [.header {}]).runOn ⟨h.declare [b], []⟩ =
        (.ok [.header x], e) ∧ f ∈ x.imports ∧ ⟨.record "P", .whole⟩ ∈ f.slots := by
    unfold b h p
    exact ⟨_, _, _, rfl, List.mem_cons_self, List.mem_cons_of_mem _ List.mem_cons_self⟩
  refine ⟨x, e, f, _, hrun, hf, hs, rfl, ?_, ?_⟩
  · exact .field (r := p) (p := ⟨"q", .record "Q"⟩) .name rfl
      (List.mem_cons_of_mem _ List.mem_cons_self) rfl trivial List.mem_cons_self
  · rintro (henum | ⟨r, hr, -⟩)
    · cases henum
    · cases hr

end Emit

end Bindery
