import Bindery.Proofs.Emission.Inventory
import Bindery.Proofs.Path.Order
import Bindery.Proofs.World.Writes

/-!
# Generating the products of hosts

A host that is generated provides what its declarations tell, whichever products are made of it,
and the hosts are generated in the order of their paths.
-/
namespace Bindery
open Act

namespace Act
variable {α : Type} {w v : World}

/-- An emission that is run gives its result and what is known of the host then. -/
theorem emit_ok {h : Host} {m : Emit α} {r : Except Failure α × Host}
    (hrun : (emit h m).runOn w = (.ok r, v)) :
    ∃ e, m.runOn ⟨h, []⟩ = (r.1, e) ∧ r.2 = e.host := by
  unfold emit at hrun
  change (match m.runOn ⟨h, []⟩ with
    | (result, emission) => (do
      emission.notes.forM note
      return (result, emission.host) : Act _)).runOn w = _ at hrun
  generalize m.runOn ⟨h, []⟩ = outcome at hrun ⊢
  obtain ⟨result, e⟩ := outcome
  obtain ⟨_, _, -, hrun⟩ := bind_ok.1 hrun
  cases hrun
  exact ⟨e, rfl, rfl⟩

end Act

namespace Host

theorem assignStems_eq {stemOf : Path → String} {given stems : List (Path × String)}
    {hosts : List Path} (h : assignStems stemOf given hosts = .ok stems) :
    stems = given ++ hosts.map fun host => (host, stemOf host) := by
  induction hosts generalizing given with
  | nil =>
    cases h
    rw [List.map_nil, List.append_nil]
  | cons host hosts ih =>
    unfold assignStems at h
    split at h
    · cases h
    · rw [ih h, List.append_assoc, List.map_cons, List.singleton_append]

/-- Hosts in order keep it when they are given their stems. -/
theorem map_fst_stems {hosts : List Path} {root : Path} {given : List (Path × String)}
    (hsorted : hosts.Pairwise fun p q => (!q.lt p) = true) (h : stems hosts root = .ok given) :
    given.map (·.1) = hosts := by
  obtain ⟨assigned, hassigned, ⟨⟩⟩ := Tokens.bind_eq_ok.1 h
  rw [assignStems_eq hassigned, List.nil_append, List.mergeSort_of_pairwise]
  · rw [List.map_map]
    exact List.map_id _
  · exact List.pairwise_map.2 hsorted

end Host

namespace Host

/-- A host provides nothing yet when its declarations become known. -/
theorem new_isEmpty (path : Path) (stem : String) (parts : List String) (bs : List Declarations) :
    (((Host.new path stem).setModule parts).declare bs).provided = [] ∧
      (((Host.new path stem).setModule parts).declare bs).symbols = [] := by
  unfold declare setModule
  split
  · exact ⟨rfl, rfl⟩
  · exact ⟨rfl, rfl⟩

/-- A host without symbols and provided names gains just what some gains tell. -/
theorem gain_of_isEmpty {h : Host} (hprovided : h.provided = []) (hsymbols : h.symbols = [])
    {gs : List Gain} {items : List Item} {symbols : List String}
    (htells : Declarations.Tells gs items symbols) :
    (h.gain (.join gs)).provided.map (·.item) = items ∧
      (h.gain (.join gs)).symbols = symbols.eraseDups := by
  constructor
  · rw [← htells.items, gain, hprovided, List.nil_append]
  · rw [← htells.symbols, ← symbols_addSymbols_eq_eraseDups hsymbols]
    rfl

end Host

namespace Settings
variable {settings : Settings} {compiler : Compiler} {c : Compilation} {w v : World}

/-- The products of a host: a header, perhaps with script interfaces beside it. -/
theorem products_eq_ok {ps : List Product} (h : settings.products = .ok ps) :
    ∃ ss, ps = Product.headed {} ss := by
  unfold Settings.products at h
  split at h
  · obtain ⟨target, -, ⟨⟩⟩ := Tokens.bind_eq_ok.1 h
    exact ⟨[_], rfl⟩
  · cases h
    exact ⟨[], rfl⟩

theorem start_ok (h : (settings.start compiler).runOn w = (.ok c, v)) :
    (∃ ss, c.products = Product.headed {} ss) ∧ c.toolchain.compiler = compiler := by
  unfold Settings.start at h
  dsimp only at h
  by_cases hroot : settings.root.isEmpty = true
  · rw [if_pos hroot] at h
    obtain ⟨_, _, hthrow, -⟩ := bind_ok.1 h
    cases hthrow
  · rw [if_neg hroot, runOn_get_bind] at h
    obtain ⟨ps, _, hps, h⟩ := bind_ok.1 h
    obtain ⟨ss, rfl⟩ := products_eq_ok (orBuild_ok.1 hps).1
    rw [runOn_set_bind] at h
    cases h
    exact ⟨⟨ss, rfl⟩, rfl⟩

end Settings

namespace Compilation
variable {c : Compilation} {s : Sources} {path : Path} {stem : String} {w v : World} {h : Host}

/-- The host as generation leaves it. -/
theorem generate_ok {ss : List Interface} (hproducts : c.products = Product.headed {} ss)
    (hrun : (c.generate s path stem).runOn w = (.ok h, v)) :
    v.provided = w.provided ++ h.provided ∧ v.directives = w.directives ∧
      h.provided.map (·.item) = (s.declaringIn path).flatMap (·.decls.inventory) ∧
      h.symbols = ((s.declaringIn path).flatMap (·.decls.imported)).eraseDups ∧
      ∃ reg gs, Declarations.AllGain (Signature.bound path) reg
        ((s.declaringIn path).map (·.decls)) gs := by
  unfold generate at hrun
  obtain ⟨modulePath, u, hmodule, hrun₁⟩ := bind_ok.1 hrun
  obtain ⟨-, rfl⟩ := ofExcept_ok.1 hmodule
  obtain ⟨⟨result, h'⟩, u₁, hemit, hrun₂⟩ := bind_ok.1 hrun₁
  obtain ⟨ps, u₂, hresult, hrun₃⟩ := bind_ok.1 hrun₂
  obtain ⟨rfl, rfl⟩ := ofExcept_ok.1 hresult
  obtain ⟨_, u₃, hwrite, hrun₄⟩ := bind_ok.1 hrun₃
  rw [runOn_modify_bind] at hrun₄
  cases hrun₄
  obtain ⟨e, hblocks, rfl⟩ := emit_ok hemit
  dsimp only at hblocks
  rw [hproducts] at hblocks
  obtain ⟨_, gs, hgs, -, hhost, -⟩ := Emit.gains_blocks _ _ _ _ _ _ hblocks
  obtain ⟨hprovided, hsymbols⟩ := Host.new_isEmpty path stem modulePath
    ((s.declaringIn path).map (·.decls))
  obtain ⟨hitems, hsymbols⟩ := Host.gain_of_isEmpty hprovided hsymbols (Declarations.tells_all hgs)
  obtain ⟨log, rfl⟩ := (World.OnlyLogs.emit _ _).of_ok hemit
  obtain ⟨tree', log', rfl⟩ :=
    (Preserves.forM World.OnlyWrites.isFrame fun p _ => World.OnlyWrites.write p _ _).of_ok hwrite
  refine ⟨rfl, rfl, ?_, ?_, ?_⟩
  · rw [hhost, hitems, List.flatMap_map]
  · rw [hhost, hsymbols, List.flatMap_map]
  · exact ⟨_, gs, hgs⟩

end Compilation
end Bindery
