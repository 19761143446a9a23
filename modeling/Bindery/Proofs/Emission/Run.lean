import Mathlib
import Bindery.Emission

/-!
# Runs of emissions

An emission that is run for a host gives its result and what the host is known to have after it.
Here is what a run that succeeds tells about the runs of its steps.
-/
namespace Bindery

/-- Adds foreign symbols in their order, each once. -/
def Host.addSymbols (h : Host) (symbols : List String) : Host := symbols.foldl addSymbol h

namespace Host
variable {h : Host} {symbols : List String}

@[simp] theorem addSymbols_nil : h.addSymbols [] = h := rfl

@[simp] theorem addSymbols_cons {s : String} :
    h.addSymbols (s :: symbols) = (h.addSymbol s).addSymbols symbols := rfl

theorem addSymbols_append {more : List String} :
    h.addSymbols (symbols ++ more) = (h.addSymbols symbols).addSymbols more :=
  List.foldl_append

theorem addSymbol_eq (h : Host) (s : String) :
    h.addSymbol s = { h with symbols := (h.addSymbol s).symbols } := by
  unfold addSymbol
  split <;> rfl

@[simp] theorem types_addSymbol {s : String} : (h.addSymbol s).types = h.types := by
  rw [addSymbol_eq]

@[simp] theorem provided_addSymbol {s : String} : (h.addSymbol s).provided = h.provided := by
  rw [addSymbol_eq]

/-- Foreign symbols are the only thing that adding them changes. -/
theorem addSymbols_eq (h : Host) (symbols : List String) :
    h.addSymbols symbols = { h with symbols := (h.addSymbols symbols).symbols } := by
  induction symbols generalizing h with
  | nil => rfl
  | cons s symbols ih =>
    rw [addSymbols_cons, ih, addSymbol_eq]

@[simp] theorem types_addSymbols : (h.addSymbols symbols).types = h.types := by
  rw [addSymbols_eq]

@[simp] theorem provided_addSymbols : (h.addSymbols symbols).provided = h.provided := by
  rw [addSymbols_eq]

/-- What is provided does not matter for the symbols. -/
theorem symbols_addSymbols {g : Host} (hg : g.symbols = h.symbols) :
    (g.addSymbols symbols).symbols = (h.addSymbols symbols).symbols := by
  induction symbols generalizing g h with
  | nil => exact hg
  | cons s symbols ih =>
    refine ih ?_
    simp only [addSymbol, hg]
    split
    · exact hg
    · rfl

/-- The symbols are listed in the order in which they were first added. -/
theorem symbols_addSymbols_eq_eraseDups (hnew : h.symbols = []) :
    (h.addSymbols symbols).symbols = symbols.eraseDups := by
  induction symbols using List.reverseRecOn with
  | nil => exact hnew
  | append_singleton symbols s ih =>
    rw [addSymbols_append, addSymbols_cons, addSymbols_nil, addSymbol, List.eraseDups_append, ih]
    by_cases hs : s ∈ symbols
    · have hin : s ∈ symbols.eraseDups := List.mem_eraseDups.2 hs
      simp [List.removeAll, hs, hin, ih]
    · have hout : s ∉ symbols.eraseDups := fun h => hs (List.mem_eraseDups.1 h)
      simp [List.removeAll, List.eraseDups_cons, hs, hout]

end Host

section
variable {ε α β γ : Type} {f : α → Except ε β} {a : α} {as : List α} {bs : List β}

theorem map_eq_ok {g : α → β} {x : Except ε α} {b : β} :
    g <$> x = .ok b ↔ ∃ a, x = .ok a ∧ g a = b := by
  cases x <;> simp [Functor.map, Except.map]

theorem mapM_nil_eq_ok : ([] : List α).mapM f = .ok bs ↔ bs = [] := by
  rw [List.mapM_nil]
  exact ⟨by rintro ⟨⟩; rfl, by rintro rfl; rfl⟩

theorem mapM_cons_eq_ok : (a :: as).mapM f = .ok bs ↔
    ∃ b bs', bs = b :: bs' ∧ f a = .ok b ∧ as.mapM f = .ok bs' := by
  rw [List.mapM_cons, Tokens.bind_eq_ok]
  constructor
  · rintro ⟨b, hb, h⟩
    obtain ⟨bs', hbs, ⟨⟩⟩ := Tokens.bind_eq_ok.1 h
    exact ⟨b, bs', rfl, hb, hbs⟩
  · rintro ⟨b, bs', rfl, hb, hbs⟩
    exact ⟨b, hb, Tokens.bind_eq_ok.2 ⟨bs', hbs, rfl⟩⟩

/-- Steps that all succeed give their results item by item. -/
theorem mapM_eq_ok : as.mapM f = .ok bs ↔ List.Forall₂ (fun a b => f a = .ok b) as bs := by
  induction as generalizing bs with
  | nil => rw [mapM_nil_eq_ok, List.forall₂_nil_left_iff]
  | cons a as ih =>
    rw [mapM_cons_eq_ok, List.forall₂_cons_left_iff]
    constructor
    · rintro ⟨b, bs', rfl, hb, hbs⟩
      exact ⟨b, bs', hb, ih.1 hbs, rfl⟩
    · rintro ⟨b, bs', hb, hbs, rfl⟩
      exact ⟨b, bs', rfl, hb, ih.2 hbs⟩

end

namespace Emit
variable {α β : Type} {m : Emit α} {f : α → Emit β} {e e' : Emission} {a : α} {b : β}

/-- The result of an emission, and what is known after it. -/
def runOn (m : Emit α) (e : Emission) : Except Failure α × Emission := (ExceptT.run m).run e

theorem runOn_bind_of_ok (h : m.runOn e = (.ok a, e')) : (m >>= f).runOn e = (f a).runOn e' := by
  change StateT.run (ExceptT.run m) e = (.ok a, e') at h
  change StateT.run (ExceptT.run (m >>= f)) e = _
  rw [ExceptT.run_bind, StateT.run_bind, h]
  rfl

theorem bind_ok : (m >>= f).runOn e = (.ok b, e') ↔
    ∃ a e₁, m.runOn e = (.ok a, e₁) ∧ (f a).runOn e₁ = (.ok b, e') := by
  change StateT.run (ExceptT.run (m >>= f)) e = _ ↔ _
  rw [ExceptT.run_bind, StateT.run_bind]
  change _ ↔ ∃ a e₁, StateT.run (ExceptT.run m) e = (.ok a, e₁) ∧ _
  generalize StateT.run (ExceptT.run m) e = outcome
  obtain ⟨result, e₁⟩ := outcome
  cases result with
  | ok a =>
    constructor
    · exact fun h => ⟨a, e₁, rfl, h⟩
    · rintro ⟨_, _, ⟨⟩, h⟩
      exact h
  | error failure =>
    constructor
    · rintro ⟨⟩
    · rintro ⟨_, _, ⟨⟩, _⟩

theorem bind_error {failure : Failure} : (m >>= f).runOn e = (.error failure, e') ↔
    m.runOn e = (.error failure, e') ∨
      ∃ a e₁, m.runOn e = (.ok a, e₁) ∧ (f a).runOn e₁ = (.error failure, e') := by
  change StateT.run (ExceptT.run (m >>= f)) e = _ ↔ StateT.run (ExceptT.run m) e = _ ∨
    ∃ a e₁, StateT.run (ExceptT.run m) e = (.ok a, e₁) ∧ _
  rw [ExceptT.run_bind, StateT.run_bind]
  generalize StateT.run (ExceptT.run m) e = outcome
  obtain ⟨result, e₁⟩ := outcome
  cases result with
  | ok a =>
    constructor
    · exact fun h => .inr ⟨a, e₁, rfl, h⟩
    · rintro (⟨⟨⟩⟩ | ⟨_, _, ⟨⟩, h⟩)
      exact h
  | error failure' =>
    constructor
    · rintro ⟨⟩
      exact .inl rfl
    · rintro (⟨⟨⟩⟩ | ⟨_, _, ⟨⟩, _⟩)
      rfl

theorem pure_ok {a' : α} : (pure a : Emit α).runOn e = (.ok a', e') ↔ a = a' ∧ e = e' := by
  change (Except.ok a, e) = _ ↔ _
  rw [Prod.mk.injEq, Except.ok.injEq]

theorem map_ok {g : α → β} :
    (g <$> m).runOn e = (.ok b, e') ↔ ∃ a, m.runOn e = (.ok a, e') ∧ g a = b := by
  rw [← bind_pure_comp, bind_ok]
  constructor
  · rintro ⟨a, e₁, hm, hp⟩
    obtain ⟨rfl, rfl⟩ := pure_ok.1 hp
    exact ⟨a, hm, rfl⟩
  · rintro ⟨a, hm, rfl⟩
    exact ⟨a, e', hm, pure_ok.2 ⟨rfl, rfl⟩⟩

theorem lower_ok {x : Except LoweringFault α} :
    (lower x).runOn e = (.ok a, e') ↔ x = .ok a ∧ e = e' := by
  cases x with
  | ok a' =>
    change (Except.ok a', e) = _ ↔ _
    rw [Prod.mk.injEq, Except.ok.injEq, Except.ok.injEq]
  | error fault =>
    change (Except.error (Failure.lowering fault), e) = _ ↔ _
    simp

theorem lower_error {x : Except LoweringFault α} {failure : Failure}
    (h : (lower x).runOn e = (.error failure, e')) :
    ∃ fault, x = .error fault ∧ failure = .lowering fault := by
  cases x with
  | ok a => cases h
  | error fault =>
    cases h
    exact ⟨fault, rfl, rfl⟩

/-- Two results of lowering may be taken over at once. -/
theorem lower_bind {x : Except LoweringFault α} {g : α → Except LoweringFault β} :
    lower (x >>= g) = lower x >>= fun a => lower (g a) := by
  cases x <;> rfl

theorem throw_ne_ok {failure : Failure} : (throw failure : Emit α).runOn e ≠ (.ok a, e') := by
  rintro ⟨⟩

theorem runOn_registry : registry.runOn e = (.ok e.host.types, e) := rfl

theorem registry_bind_ok {f : Registry → Emit β} :
    (registry >>= f).runOn e = (.ok b, e') ↔ (f e.host.types).runOn e = (.ok b, e') := by
  rw [runOn_bind_of_ok runOn_registry]

theorem mapM_nil_ok {g : α → Emit β} {bs : List β} :
    (([] : List α).mapM g).runOn e = (.ok bs, e') ↔ bs = [] ∧ e = e' := by
  rw [List.mapM_nil, pure_ok, eq_comm]

theorem mapM_cons_ok {g : α → Emit β} {as : List α} {bs : List β} :
    ((a :: as).mapM g).runOn e = (.ok bs, e') ↔ ∃ b bs' e₁, bs = b :: bs' ∧
      (g a).runOn e = (.ok b, e₁) ∧ (as.mapM g).runOn e₁ = (.ok bs', e') := by
  rw [List.mapM_cons, bind_ok]
  constructor
  · rintro ⟨b, e₁, hb, h⟩
    obtain ⟨bs', e₂, hbs, h⟩ := bind_ok.1 h
    obtain ⟨rfl, rfl⟩ := pure_ok.1 h
    exact ⟨b, bs', e₁, rfl, hb, hbs⟩
  · rintro ⟨b, bs', e₁, rfl, hb, hbs⟩
    exact ⟨b, e₁, hb, bind_ok.2 ⟨bs', e', hbs, pure_ok.2 ⟨rfl, rfl⟩⟩⟩

end Emit
end Bindery
