import Bindery.Generation
import Bindery.Proofs.Emission.Blocks

/-!
# The inventory of declarations

What generated code provides, and the foreign symbols that it refers to, can be listed from the
declarations alone: names, strategies and instances decide, and types do not.
-/
namespace Bindery

/-- A provided name and its kind. -/
abbrev Item := String × ProvidedKind

def Provided.item (p : Provided) : Item := (p.name, p.kind)

namespace Signature

/-- The functions that a declared one stands for: itself, or its instances in the order of their
list. -/
def concretes (f : Signature) : List Signature :=
  if f.isGeneric then f.instances.filterMap fun t => (f.instantiate t).toOption else [f]

/-- What is provided for a function that is not generic. -/
def inventory (f : Signature) : List Item :=
  (f.name, .foreign) ::
    ((if f.strategy ≠ .lowOnly then [(f.highName, if f.isAsync then .async else .high)] else []) ++
      if f.strategy ≠ .highOnly then [(f.lowName, .low)] else [])

end Signature

namespace Handle

/-- What is provided for a handle: its constructors, then its methods. -/
def inventory (d : Handle) : List Item :=
  d.constructors.map (fun c => (d.name ++ "::" ++ c.name, .handle)) ++
    d.methods.map fun m => (d.name ++ "::" ++ m.name, .handle)

/-- The foreign symbols of a handle. -/
def symbols (d : Handle) : List String :=
  d.constructors.map (·.symbol) ++ [d.destructor.getD ""] ++ d.methods.map (·.symbol)

end Handle

namespace Declarations

def concretes (b : Declarations) : List Signature := b.functions.flatMap (·.concretes)

/-- What is provided for the declarations of an annotation. -/
def inventory (b : Declarations) : List Item :=
  b.concretes.flatMap (·.inventory) ++ b.handles.flatMap (·.inventory)

/-- The foreign symbols that are imported for the declarations of an annotation. -/
def imported (b : Declarations) : List String :=
  b.concretes.map (·.name) ++ b.handles.flatMap (·.symbols)

end Declarations

section
variable {reg : Registry} {f : Signature} {g : Gain} {lps : List LoweredParam} {ret : Lowered}
  {ws : List Wrapper}

/-- The names that some wrappers provide. -/
def Wrapper.items (ws : List Wrapper) : List Item := (ws.flatMap (·.provided)).map (·.item)

theorem HighWrapper.name_of_new {w : HighWrapper} (h : HighWrapper.new reg f lps ret = .ok w) :
    w.name = f.highName := by
  obtain ⟨_, -, h⟩ := Tokens.bind_eq_ok.1 h
  obtain ⟨_, -, ⟨⟩⟩ := Tokens.bind_eq_ok.1 h
  rfl

theorem AsyncWrapper.name_of_new {w : AsyncWrapper} (h : AsyncWrapper.new reg f lps ret = .ok w) :
    w.name = f.highName := by
  unfold AsyncWrapper.new at h
  split at h
  · cases h
  · obtain ⟨_, -, h⟩ := Tokens.bind_eq_ok.1 h
    obtain ⟨_, -, h⟩ := Tokens.bind_eq_ok.1 h
    obtain ⟨_, -, ⟨⟩⟩ := Tokens.bind_eq_ok.1 h
    rfl

namespace Signature

theorem items_highWrappers (h : f.highWrappers reg lps ret = .ok ws) : Wrapper.items ws =
    if f.strategy ≠ .lowOnly then [(f.highName, if f.isAsync then .async else .high)] else [] := by
  unfold highWrappers hasHigh at h
  simp only [decide_eq_true_eq] at h
  split at h
  · rw [if_pos ‹_›]
    split at h
    · obtain ⟨w, hw, rfl⟩ := map_eq_ok.1 h
      rw [if_pos ‹_›, ← AsyncWrapper.name_of_new hw]
      rfl
    · obtain ⟨w, hw, rfl⟩ := map_eq_ok.1 h
      rw [if_neg ‹_›, ← HighWrapper.name_of_new hw]
      rfl
  · cases h
    rw [if_neg ‹_›]
    rfl

theorem items_lowWrappers (h : f.lowWrappers reg lps ret = .ok ws) : Wrapper.items ws =
    if f.strategy ≠ .highOnly then [(f.lowName, .low)] else [] := by
  unfold lowWrappers hasLow at h
  simp only [decide_eq_true_eq] at h
  split at h
  · rw [if_pos ‹_›]
    obtain ⟨w, hw, rfl⟩ := map_eq_ok.1 h
    obtain ⟨_, -, hw⟩ := Tokens.bind_eq_ok.1 hw
    obtain ⟨_, -, ⟨⟩⟩ := Tokens.bind_eq_ok.1 hw
    rfl
  · cases h
    rw [if_neg ‹_›]
    rfl

theorem items_of_gain (h : f.gain reg = .ok g) : g.provided.map (·.item) = f.inventory := by
  obtain ⟨-, lps, ret, high, low, -, -, hhigh, hlow, rfl⟩ := gain_eq_ok.1 h
  rw [inventory, ← items_highWrappers hhigh, ← items_lowWrappers hlow]
  simp [Wrapper.items, Provided.item]

theorem symbols_of_gain (h : f.gain reg = .ok g) : g.imports.map (·.symbol) = [f.name] := by
  obtain ⟨_, -, h⟩ := Tokens.bind_eq_ok.1 h
  obtain ⟨lps, -, h⟩ := Tokens.bind_eq_ok.1 h
  obtain ⟨ret, -, h⟩ := Tokens.bind_eq_ok.1 h
  obtain ⟨high, -, h⟩ := Tokens.bind_eq_ok.1 h
  obtain ⟨low, -, ⟨⟩⟩ := Tokens.bind_eq_ok.1 h
  rfl

end Signature

/-- The members of a handle, with what their gains tell of each. -/
theorem map_of_mapM {ε α β γ : Type} {f : α → Except ε β} {k : α → γ} {l : β → γ}
    (hone : ∀ a b, f a = .ok b → l b = k a) {as : List α} {bs : List β} (h : as.mapM f = .ok bs) :
    bs.map l = as.map k := by
  have hall := mapM_eq_ok.1 h
  clear h
  induction hall with
  | nil => rfl
  | cons hfirst _ ih => rw [List.map_cons, List.map_cons, hone _ _ hfirst, ih]

namespace Handle
variable {d : Handle}

theorem names_of_gain {owner : String} (c : Constructor) (p : ForeignFunction × HandleConstructor)
    (h : c.gain reg owner = .ok p) : (p.1.symbol, p.2.name) = (c.symbol, c.name) := by
  obtain ⟨lps, -, h⟩ := Tokens.bind_eq_ok.1 h
  obtain ⟨made, hmade, ⟨⟩⟩ := Tokens.bind_eq_ok.1 h
  obtain ⟨_, -, ⟨⟩⟩ := Tokens.bind_eq_ok.1 hmade
  rfl

theorem names_of_gain_method {owner : String} (m : Method) (p : ForeignFunction × HandleMethod)
    (h : m.gain reg owner = .ok p) : (p.1.symbol, p.2.name) = (m.symbol, m.name) := by
  obtain ⟨lps, -, h⟩ := Tokens.bind_eq_ok.1 h
  obtain ⟨ret, -, h⟩ := Tokens.bind_eq_ok.1 h
  obtain ⟨made, hmade, ⟨⟩⟩ := Tokens.bind_eq_ok.1 h
  obtain ⟨_, -, hmade⟩ := Tokens.bind_eq_ok.1 hmade
  obtain ⟨_, -, ⟨⟩⟩ := Tokens.bind_eq_ok.1 hmade
  rfl

theorem items_and_symbols_of_gain (h : d.gain reg = .ok g) :
    g.provided.map (·.item) = d.inventory ∧ g.imports.map (·.symbol) = d.symbols := by
  obtain ⟨cs, hcs, h⟩ := Tokens.bind_eq_ok.1 h
  obtain ⟨ms, hms, ⟨⟩⟩ := Tokens.bind_eq_ok.1 h
  have hc := map_of_mapM names_of_gain hcs
  have hm := map_of_mapM names_of_gain_method hms
  have hcnames := congrArg (List.map fun p => (d.name ++ "::" ++ p.2, ProvidedKind.handle)) hc
  have hmnames := congrArg (List.map fun p => (d.name ++ "::" ++ p.2, ProvidedKind.handle)) hm
  have hcsymbols := congrArg (List.map Prod.fst) hc
  have hmsymbols := congrArg (List.map Prod.fst) hm
  simp only [List.map_map, Function.comp_def] at hcnames hmnames hcsymbols hmsymbols
  constructor
  · simp only [Wrapper.provided, inventory, List.map_append, List.map_map, Function.comp_def,
      Provided.item]
    rw [hcnames, hmnames]
  · simp only [symbols, List.map_append, List.map_map, Function.comp_def, List.map_cons,
      List.map_nil]
    rw [hcsymbols, hmsymbols]
    rfl

end Handle
end

/-! ### Blocks -/

namespace Signature
variable {host : Path} {f : Signature} {fs : List Signature}

/-- All instances of a generic function exist. -/
def HasInstances (f : Signature) : Prop :=
  f.isGeneric → ∀ t ∈ f.instances, ∃ g, f.instantiate t = .ok g

theorem filterMap_of_mapM {ε α β : Type} {f : α → Except ε β} {as : List α} {bs : List β}
    (h : as.mapM f = .ok bs) :
    bs = as.filterMap (fun a => (f a).toOption) ∧ ∀ a ∈ as, ∃ b, f a = .ok b := by
  have hall := mapM_eq_ok.1 h
  clear h
  induction hall with
  | nil => exact ⟨rfl, fun _ ha => absurd ha List.not_mem_nil⟩
  | @cons a b _ _ hfirst _ ih =>
    obtain ⟨htail, hexist⟩ := ih
    refine ⟨?_, List.forall_mem_cons.2 ⟨⟨b, hfirst⟩, hexist⟩⟩
    rw [List.filterMap_cons, hfirst, ← htail]
    rfl

theorem bound_eq_ok (h : f.bound host = .ok fs) : fs = f.concretes ∧ f.HasInstances := by
  unfold bound concrete at h
  unfold concretes HasInstances
  split at h
  · cases h
  · split at h
    · rw [if_pos ‹_›]
      cases hall : f.instantiateAll with
      | error fault =>
        rw [hall] at h
        cases h
      | ok gs =>
        rw [hall] at h
        cases h
        obtain ⟨hgs, hexist⟩ := filterMap_of_mapM hall
        exact ⟨hgs, fun _ => hexist⟩
    · cases h
      rw [if_neg ‹_›]
      exact ⟨rfl, fun hgeneric => absurd hgeneric ‹_›⟩

end Signature

namespace Declarations
variable {host : Path} {reg : Registry} {b : Declarations} {bs : List Declarations} {gs : List Gain}

/-- Gains that tell all that is provided and imported for some declarations. -/
structure Tells (gs : List Gain) (items : List Item) (symbols : List String) : Prop where
  items : (Gain.join gs).provided.map (·.item) = items
  symbols : (Gain.join gs).imports.map (·.symbol) = symbols

theorem Tells.append {gs' : List Gain} {items items' : List Item} {symbols symbols' : List String}
    (h : Tells gs items symbols) (h' : Tells gs' items' symbols') :
    Tells (gs ++ gs') (items ++ items') (symbols ++ symbols') :=
  ⟨by rw [← h.items, ← h'.items]; simp [Gain.join],
    by rw [← h.symbols, ← h'.symbols]; simp [Gain.join]⟩

theorem tells_nil : Tells [] [] [] := ⟨rfl, rfl⟩

/-- One gain for each of some items. -/
theorem tells_of_mapM {α : Type} {gain : α → Except LoweringFault Gain} {items : α → List Item}
    {symbols : α → List String}
    (hone : ∀ a g, gain a = .ok g →
      g.provided.map (·.item) = items a ∧ g.imports.map (·.symbol) = symbols a)
    {as : List α} (h : as.mapM gain = .ok gs) :
    Tells gs (as.flatMap items) (as.flatMap symbols) := by
  have hall := mapM_eq_ok.1 h
  clear h
  induction hall with
  | nil => exact tells_nil
  | @cons a g _ _ hfirst _ ih =>
    obtain ⟨hitems, hsymbols⟩ := hone a g hfirst
    have hhead : Tells [g] (items a) (symbols a) :=
      ⟨by simpa [Gain.join] using hitems, by simpa [Gain.join] using hsymbols⟩
    exact hhead.append ih

/-- Several gains for each of some items. -/
theorem tells_flatten {α : Type} {R : α → List Gain → Prop} {items : α → List Item}
    {symbols : α → List String} (hone : ∀ a gs, R a gs → Tells gs (items a) (symbols a))
    {as : List α} {gss : List (List Gain)} (h : List.Forall₂ R as gss) :
    Tells gss.flatten (as.flatMap items) (as.flatMap symbols) := by
  induction h with
  | nil => exact tells_nil
  | cons hfirst _ ih => exact (hone _ _ hfirst).append ih

theorem tells_function (f : Signature) (gs : List Gain) (h : f.Gains (Signature.bound host) reg gs) :
    Tells gs (f.concretes.flatMap (·.inventory)) (f.concretes.map (·.name)) := by
  obtain ⟨fs, hfs, -, hgs⟩ := h
  rw [← (Signature.bound_eq_ok hfs).1]
  have htells := tells_of_mapM
    (fun f g hg => ⟨Signature.items_of_gain hg, Signature.symbols_of_gain hg⟩) hgs
  rwa [← List.map_eq_flatMap] at htells

theorem tells_declarations (b : Declarations) (gs : List Gain)
    (h : b.Gains (Signature.bound host) reg gs) : Tells gs b.inventory b.imported := by
  obtain ⟨fgs, hgs, hfunctions, hhandles, rfl⟩ := h
  have hfirst := tells_flatten tells_function hfunctions
  have hsecond := tells_of_mapM (fun _ _ => Handle.items_and_symbols_of_gain) hhandles
  have htells := hfirst.append hsecond
  rwa [← List.flatMap_assoc, ← List.map_flatMap] at htells

/-- The gains of the annotations of a host tell what is provided and imported for all of them. -/
theorem tells_all (h : AllGain (Signature.bound host) reg bs gs) :
    Tells gs (bs.flatMap (·.inventory)) (bs.flatMap (·.imported)) := by
  obtain ⟨gss, hgss, rfl⟩ := h
  exact tells_flatten tells_declarations hgss

/-- All instances of the generic functions exist. -/
theorem hasInstances_of_allGain (h : AllGain (Signature.bound host) reg bs gs) :
    ∀ b ∈ bs, ∀ f ∈ b.functions, f.HasInstances := by
  obtain ⟨gss, hgss, -⟩ := h
  refine ((List.forall₂_and_left bs gss).1 (hgss.imp fun b gs hb => ⟨?_, hb⟩)).1
  obtain ⟨fgs, _, hfunctions, -, -⟩ := hb
  refine ((List.forall₂_and_left b.functions fgs).1 (hfunctions.imp fun f gs hf => ⟨?_, hf⟩)).1
  obtain ⟨fs, hfs, -⟩ := hf
  exact (Signature.bound_eq_ok hfs).2

/-- The bindings of all functions have been checked. -/
theorem checked_of_allGain (h : AllGain (Signature.bound host) reg bs gs) :
    ∀ b ∈ bs, ∀ f ∈ b.concretes, f.checkBinding = .ok ⟨⟩ := by
  obtain ⟨gss, hgss, -⟩ := h
  refine ((List.forall₂_and_left bs gss).1 (hgss.imp fun b gs hb => ⟨?_, hb⟩)).1
  obtain ⟨fgs, _, hfunctions, -, -⟩ := hb
  have hall : ∀ f ∈ b.functions, ∀ k ∈ f.concretes, k.checkBinding = .ok ⟨⟩ := by
    refine ((List.forall₂_and_left b.functions fgs).1 (hfunctions.imp fun f gs hf => ⟨?_, hf⟩)).1
    obtain ⟨fs, hfs, -, hgains⟩ := hf
    rw [← (Signature.bound_eq_ok hfs).1]
    refine ((List.forall₂_and_left fs gs).1 ((mapM_eq_ok.1 hgains).imp fun k g hg => ⟨?_, hg⟩)).1
    obtain ⟨_, hcheck, -⟩ := Tokens.bind_eq_ok.1 hg
    exact hcheck
  intro k hk
  obtain ⟨f, hf, hk⟩ := List.mem_flatMap.1 hk
  exact hall f hf k hk

end Declarations
end Bindery
