import Bindery.Proofs.Build.Outcome
import Bindery.Proofs.Compilation.Scan

/-!
# The inventory of a compilation

What a compilation provides and the symbols that it exports follow from the annotations that it has
scanned, host by host. The options for the link are the same in the directives and in the link file.
-/
namespace Bindery
open Act

/-- A compiler that runs as a process of its own, which neither knows what a compilation provides
nor gives directives. -/
structure Compiler.IsSeparate (c : Compiler) : Prop where
  provided : ∀ call w, ((c.run call).run w).2.provided = w.provided
  directives : ∀ call w, ((c.run call).run w).2.directives = w.directives

/-- What is provided and the directives stay the same. -/
def World.Remembers (w v : World) : Prop :=
  v.provided = w.provided ∧ v.directives = w.directives

namespace World.Remembers
variable {u v w : World}

theorem trans (h : w.Remembers v) (h' : v.Remembers u) : w.Remembers u :=
  ⟨h'.1.trans h.1, h'.2.trans h.2⟩

theorem of_onlyWrites (h : w.OnlyWrites v) : w.Remembers v := by
  obtain ⟨tree, log, rfl⟩ := h
  exact ⟨rfl, rfl⟩

end World.Remembers

namespace Build
variable {t : Toolchain} {s : Sources} {triple target key : String} {st : Staged} {out : Path}
  {w v : World} {o : Output}

theorem remembers_of_ran {call : CompilerCall} {result : CompilerResult}
    (ht : t.compiler.IsSeparate) (h : Ran t call w result v) : w.Remembers v := by
  obtain ⟨log, hrun⟩ := h
  have hprovided := ht.provided call { w with log, calls := w.calls ++ [call] }
  have hdirectives := ht.directives call { w with log, calls := w.calls ++ [call] }
  rw [hrun] at hprovided hdirectives
  exact ⟨hprovided, hdirectives⟩

/-- A build that succeeds is one for the target and the directory that it is given. -/
theorem build_ok (ht : t.compiler.IsSeparate) (htarget : Target.ofTriple triple = .ok target)
    (h : (build t s triple out).runOn w = (.ok o, v)) :
    w.Remembers v ∧ o.target = target ∧ o.outDir = out := by
  cases build_succeeds h with
  | nothing htarget' =>
    cases htarget.symm.trans htarget'
    exact ⟨⟨rfl, rfl⟩, rfl, rfl⟩
  | hit htarget' _ hstage =>
    cases htarget.symm.trans htarget'
    have hwrites := (World.OnlyWrites.assemble t.mode).of_ok hstage
    exact ⟨(World.Remembers.of_onlyWrites hwrites).trans ⟨rfl, rfl⟩, rfl, rfl⟩
  | made htarget' _ hstage _ hran =>
    cases htarget.symm.trans htarget'
    have hwrites := (World.OnlyWrites.assemble t.mode).of_ok hstage
    have hran := remembers_of_ran ht hran
    exact ⟨((World.Remembers.of_onlyWrites hwrites).trans hran).trans ⟨rfl, rfl⟩, rfl, rfl⟩

end Build

/-! ### Links -/

namespace Linkage
variable {o : Output} {w v : World}

/-- The options that a link needs in order to keep what is exported. -/
def options (o : Output) : List String :=
  if o.artifact.isSome ∧ Target.isBrowser o.target then o.exported.map ("-Wl,--export=" ++ ·)
  else []

/-- A text that is written can be read, and nothing but files changes. -/
theorem write_ok {p : Path} {content : String} {fault : FileFault}
    (h : (Act.write p content fault).runOn w = (.ok ⟨⟩, v)) :
    v.read? p = some content ∧ ∃ tree, v = { w with tree } := by
  obtain hput | ⟨hloc, hdir, -, hput⟩ := put_cases w p content (.file fault)
  · cases hput.symm.trans h
  · cases hput.symm.trans h
    refine ⟨?_, _, rfl⟩
    rw [World.read?, World.get?_put hloc hdir]

theorem forM_direct_runOn (lines : List String) (w : World) :
    (lines.forM direct).runOn w =
      (.ok ⟨⟩, { w with directives := w.directives ++ String.join (lines.map (· ++ "\n")) }) := by
  induction lines generalizing w with
  | nil =>
    rw [List.map_nil, String.join_nil, String.append_empty]
    rfl
  | cons line lines ih =>
    change (direct line >>= fun _ => lines.forM direct).runOn w = _
    rw [runOn_bind_of_ok (runOn_direct line), ih, List.map_cons, String.join_cons]
    simp only [String.append_assoc]

/-- The directives are given, and the link file can be read. -/
theorem emit_ok (h : (emit o).runOn w = (.ok ⟨⟩, v)) :
    v.provided = w.provided ∧
      v.directives = w.directives ++ String.join ((directives o).map (· ++ "\n")) ∧
      v.read? (o.outDir / fileName) = some (render (lists o)) := by
  unfold emit at h
  rw [runOn_bind_of_ok (forM_direct_runOn _ _)] at h
  obtain ⟨_, u, hwrite, hnote⟩ := bind_ok.1 h
  cases hnote
  obtain ⟨hread, tree, rfl⟩ := write_ok hwrite
  exact ⟨rfl, rfl, hread⟩

end Linkage

/-! ### Hosts -/

namespace Sources
variable (s : Sources)

/-- What is provided for the annotations of the hosts, in the order of the hosts. -/
def inventory : List Item :=
  s.hosts.flatMap fun host => (s.declaringIn host).flatMap (·.decls.inventory)

/-- The symbols that the link has to keep for a host: each imported one where it is first met, then
the low-level wrappers. -/
def exportedIn (host : Path) : List String :=
  ((s.declaringIn host).flatMap (·.decls.imported)).eraseDups ++
    (((s.declaringIn host).flatMap (·.decls.inventory)).filter (·.2 = .low)).map (·.1)

def exported : List String := s.hosts.flatMap s.exportedIn

end Sources

namespace Compilation
variable {c : Compilation} {s : Sources} {w v : World}

theorem exported_of_item {h : Host} {items : List Item} (hitems : h.provided.map (·.item) = items) :
    h.exported = h.symbols ++ (items.filter (·.2 = .low)).map (·.1) := by
  rw [Host.exported, ← hitems, List.filter_map, List.map_map]
  rfl

/-- Hosts that are generated in turn provide and export what their annotations tell. -/
theorem mapM_generate_ok {ss : List Interface} (hproducts : c.products = Product.headed {} ss)
    {stems : List (Path × String)} {hosts : List Host}
    (h : (stems.mapM fun (path, stem) => c.generate s path stem).runOn w = (.ok hosts, v)) :
    v.directives = w.directives ∧
      v.provided.map (·.item) = w.provided.map (·.item) ++
        (stems.map (·.1)).flatMap (fun host => (s.declaringIn host).flatMap (·.decls.inventory)) ∧
      hosts.flatMap (·.exported) = (stems.map (·.1)).flatMap s.exportedIn ∧
      ∀ host ∈ stems.map (·.1), ∀ a ∈ s.declaringIn host, ∀ f ∈ a.decls.functions,
        f.HasInstances := by
  induction stems generalizing hosts w with
  | nil =>
    obtain ⟨rfl, rfl⟩ := Act.mapM_nil_ok.1 h
    exact ⟨rfl, by simp, rfl, fun _ hhost => absurd hhost List.not_mem_nil⟩
  | cons p stems ih =>
    obtain ⟨host, hosts, u, rfl, hfirst, hrest⟩ := Act.mapM_cons_ok.1 h
    obtain ⟨hprovided, hdirectives, hitems, hsymbols, reg, gs, hgains⟩ :=
      generate_ok hproducts hfirst
    have hinstances := List.forall_mem_map.1 (Declarations.hasInstances_of_allGain hgains)
    obtain ⟨hdirectives', hprovided', hexported, hinstances'⟩ := ih hrest
    refine ⟨hdirectives'.trans hdirectives, ?_, ?_, ?_⟩
    · rw [hprovided', hprovided, List.map_append, hitems, List.map_cons, List.flatMap_cons,
        List.append_assoc]
    · rw [List.flatMap_cons, hexported, exported_of_item hitems, hsymbols]
      rfl
    · exact List.forall_mem_cons.2 ⟨hinstances, hinstances'⟩

theorem build_ok {target : String} {o : Output} (hcompiler : c.toolchain.compiler.IsSeparate)
    (htarget : Target.ofTriple c.triple = .ok target) (h : (c.build s target).runOn w = (.ok o, v)) :
    w.Remembers v ∧ o.target = target ∧ o.outDir = c.outDir := by
  unfold build at h
  split at h
  · cases h
    exact ⟨⟨rfl, rfl⟩, rfl, rfl⟩
  · exact Build.build_ok hcompiler htarget h

end Compilation
end Bindery
