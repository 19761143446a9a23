import Bindery.Proofs.Compilation.Scan
import Bindery.Proofs.Decl.Instances

/-!
# The C names of functions

The functions of a host and their low-level wrappers share the names of C. The reader keeps the
functions of an annotation apart, the types of an instance list and, by the prefix that a wrapper
must have, a wrapper from its own function. No other names are compared: those of different
annotations, of instances and of wrappers have to be apart by themselves.
-/
namespace Bindery
open Act

namespace Signature
variable {f g : Signature} {type : String}

/-- The names that a function takes in C: its own, then that of its low-level wrapper. -/
def symbols (f : Signature) : List String := f.name :: if f.hasLow then [f.lowName] else []

/-- Low-level wrappers of two functions that take neither each other's names nor the functions'. -/
structure WrappersApart (f g : Signature) : Prop where
  left : f.hasLow → f.lowName ≠ g.name
  right : g.hasLow → g.lowName ≠ f.name
  both : f.hasLow → g.hasLow → f.lowName ≠ g.lowName

theorem disjoint_symbols :
    f.symbols.Disjoint g.symbols ↔ f.name ≠ g.name ∧ f.WrappersApart g := by
  have hapart : f.WrappersApart g ↔ (f.hasLow → f.lowName ≠ g.name) ∧
      (g.hasLow → g.lowName ≠ f.name) ∧ (f.hasLow → g.hasLow → f.lowName ≠ g.lowName) :=
    ⟨fun h => ⟨h.left, h.right, h.both⟩, fun h => ⟨h.1, h.2.1, h.2.2⟩⟩
  rw [hapart]
  unfold symbols
  by_cases hf : f.hasLow = true <;> by_cases hg : g.hasLow = true
  all_goals simp [hf, hg, eq_comm]
  all_goals tauto

/-- A wrapper has a prefix, and so another name than its function. -/
theorem nodup_symbols (h : f.checkBinding = .ok ⟨⟩) : f.symbols.Nodup := by
  unfold symbols
  by_cases hlow : f.hasLow = true
  · rw [if_pos hlow, List.nodup_cons]
    refine ⟨fun hmem => ?_, List.nodup_singleton _⟩
    have hname : f.name = f.lowName := List.mem_singleton.1 hmem
    unfold lowName at hname
    unfold checkBinding at h
    cases hb : f.binding with
    | none => simp [hasLow, strategy, hb] at hlow
    | some b =>
      rw [hb] at h hname
      dsimp only at h hname
      have hempty : b.lowPrefix = "" := by
        have hlength := congrArg String.length hname
        rw [String.length_append] at hlength
        exact String.length_eq_zero_iff.1 (by omega)
      rw [hlow, hempty] at h
      cases h
  · rw [if_neg hlow]
    exact List.nodup_singleton _

theorem name_of_instantiate (h : f.instantiate type = .ok g) :
    g.name = f.name ++ "_" ++ Name.flatten type := by
  unfold instantiate at h
  dsimp only at h
  split at h
  · cases h
  · cases h
  · split at h
    · cases h
    · split at h
      · cases h
      · split at h
        · cases h
        · cases h
          rfl

/-- The instances of a generic function are named after their types. -/
theorem names_concretes (hgeneric : f.isGeneric) (h : f.HasInstances) :
    f.concretes.map (·.name) = f.instances.map fun t => f.name ++ "_" ++ Name.flatten t := by
  have hall := h hgeneric
  rw [concretes, if_pos hgeneric]
  generalize f.instances = types at hall
  induction types with
  | nil => rfl
  | cons t types ih =>
    obtain ⟨⟨g, hg⟩, hrest⟩ := List.forall_mem_cons.1 hall
    rw [List.filterMap_cons, hg]
    change g.name :: _ = _
    rw [ih hrest, List.map_cons, name_of_instantiate hg]

/-- The instances of a function have names of their own if only the types do that are paths. -/
theorem pairwise_concretes (hf : f.IsSound) (h : f.HasInstances) :
    f.concretes.Pairwise (fun g g' => g.name ≠ g'.name) ↔
      f.instances.Pairwise fun t u =>
        Name.isQualified t.toList ∨ Name.isQualified u.toList → Name.flatten t ≠ Name.flatten u := by
  by_cases hgeneric : f.isGeneric
  · rw [← List.pairwise_map (R := (· ≠ ·)), names_concretes hgeneric h, List.pairwise_map]
    constructor
    · refine List.Pairwise.imp fun hne _ heq => hne ?_
      rw [heq]
    · intro hpaths
      refine (hf.instances_nodup.and hpaths).imp fun {t u} ⟨hne, hpath⟩ heq => ?_
      have heq := (String.append_right_inj _).1 heq
      by_cases hqualified : Name.isQualified t.toList ∨ Name.isQualified u.toList
      · exact hpath hqualified heq
      · simp only [not_or, Bool.not_eq_true] at hqualified
        rw [Name.flatten_of_not_isQualified hqualified.1,
          Name.flatten_of_not_isQualified hqualified.2] at heq
        exact hne heq
  · have hnone : f.instances = [] := by
      by_contra hsome
      have hgenerics := hf.isGeneric hsome
      simp [isGeneric, hgenerics] at hgeneric
    rw [concretes, if_neg hgeneric, hnone]
    simp

end Signature

namespace Declarations
variable {b : Declarations} {bs : List Declarations}

/-- The names that the functions of an annotation take in C. -/
def symbols (b : Declarations) : List String := b.concretes.flatMap (·.symbols)

/-- Annotations of a host for which the names differ that no check compares: of functions in two
annotations, of an instance and another function, of types in one list once the parts of paths are
joined, and of low-level wrappers and anything but their own functions. -/
structure AreApart (bs : List Declarations) : Prop where
  annotations : bs.Pairwise fun b b' => ∀ f ∈ b.concretes, ∀ g ∈ b'.concretes, f.name ≠ g.name
  instances : ∀ b ∈ bs, b.functions.Pairwise fun f g => f.isGeneric ∨ g.isGeneric →
    ∀ f' ∈ f.concretes, ∀ g' ∈ g.concretes, f'.name ≠ g'.name
  types : ∀ b ∈ bs, ∀ f ∈ b.functions, f.instances.Pairwise fun t u =>
    Name.isQualified t.toList ∨ Name.isQualified u.toList → Name.flatten t ≠ Name.flatten u
  wrappers : (bs.flatMap (·.concretes)).Pairwise Signature.WrappersApart

/-- The functions of an annotation that has been read are apart if those are that have to do with
generic ones. -/
theorem pairwise_concretes (hb : b.IsSound) (h : ∀ f ∈ b.functions, f.HasInstances) :
    b.concretes.Pairwise (fun f g => f.name ≠ g.name) ↔
      (∀ f ∈ b.functions, f.instances.Pairwise fun t u =>
        Name.isQualified t.toList ∨ Name.isQualified u.toList → Name.flatten t ≠ Name.flatten u) ∧
      b.functions.Pairwise fun f g => f.isGeneric ∨ g.isGeneric →
        ∀ f' ∈ f.concretes, ∀ g' ∈ g.concretes, f'.name ≠ g'.name := by
  rw [concretes, List.pairwise_flatMap]
  refine and_congr (forall₂_congr fun f hf =>
    Signature.pairwise_concretes (hb.functions f hf) (h f hf)) ⟨?_, fun hgeneric => ?_⟩
  · intro h
    refine h.imp ?_
    exact fun hapart _ => hapart
  · have hnames := List.pairwise_map.1 hb.functions_nodup
    refine (hnames.and hgeneric).imp fun {f g} ⟨hne, hapart⟩ => ?_
    by_cases hany : f.isGeneric ∨ g.isGeneric
    · exact hapart hany
    · rw [not_or] at hany
      rw [Signature.concretes, if_neg hany.1, Signature.concretes, if_neg hany.2]
      simpa using hne

/-- Once all functions are accepted, only the names that no check compares can be the same. -/
theorem nodup_symbols (hsound : ∀ b ∈ bs, b.IsSound)
    (hinstances : ∀ b ∈ bs, ∀ f ∈ b.functions, f.HasInstances)
    (hchecked : ∀ b ∈ bs, ∀ f ∈ b.concretes, f.checkBinding = .ok ⟨⟩) :
    (bs.flatMap (·.symbols)).Nodup ↔ AreApart bs := by
  have hone : ∀ f ∈ bs.flatMap (·.concretes), f.symbols.Nodup := by
    intro f hf
    obtain ⟨b, hb, hf⟩ := List.mem_flatMap.1 hf
    exact Signature.nodup_symbols (hchecked b hb f hf)
  have hblocks : (∀ b ∈ bs, b.concretes.Pairwise fun f g => f.name ≠ g.name) ↔ _ :=
    forall₂_congr fun b hb => pairwise_concretes (hsound b hb) (hinstances b hb)
  have hflat : bs.flatMap (·.symbols) = (bs.flatMap (·.concretes)).flatMap (·.symbols) :=
    List.flatMap_assoc.symm
  rw [hflat, List.nodup_flatMap, and_iff_right hone]
  change List.Pairwise (fun f g : Signature => f.symbols.Disjoint g.symbols) _ ↔ _
  simp only [Signature.disjoint_symbols]
  rw [List.pairwise_and_iff, List.pairwise_flatMap, hblocks]
  constructor
  · rintro ⟨⟨hblocks, hannotations⟩, hwrappers⟩
    exact ⟨hannotations, fun b hb => (hblocks b hb).2, fun b hb => (hblocks b hb).1, hwrappers⟩
  · intro h
    exact ⟨⟨fun b hb => ⟨h.types b hb, h.instances b hb⟩, h.annotations⟩, h.wrappers⟩

end Declarations

/-! ### Hosts -/

namespace Host

/-- The C names that are provided for the functions of a host. -/
def functionNames (h : Host) : List String :=
  (h.provided.filter fun p => p.kind = .foreign ∨ p.kind = .low).map (·.name)

/-- The names of functions among some items. -/
def namesOf (items : List Item) : List String :=
  (items.filter fun i => i.2 = .foreign ∨ i.2 = .low).map (·.1)

theorem functionNames_eq (h : Host) : h.functionNames = namesOf (h.provided.map (·.item)) := by
  rw [functionNames, namesOf, List.filter_map, List.map_map]
  rfl

theorem namesOf_flatMap {α : Type} (as : List α) (items : α → List Item) :
    namesOf (as.flatMap items) = as.flatMap fun a => namesOf (items a) := by
  unfold namesOf
  rw [List.filter_flatMap, List.map_flatMap]

theorem namesOf_function (f : Signature) : namesOf f.inventory = f.symbols := by
  unfold namesOf Signature.inventory Signature.symbols Signature.hasLow
  split <;> split <;> simp [*] <;> split <;> simp

theorem namesOf_handle (d : Handle) : namesOf d.inventory = [] := by
  simp [namesOf, Handle.inventory]

theorem namesOf_declarations (b : Declarations) : namesOf b.inventory = b.symbols := by
  have happend : ∀ is js, namesOf (is ++ js) = namesOf is ++ namesOf js := by simp [namesOf]
  rw [Declarations.inventory, happend, namesOf_flatMap, namesOf_flatMap]
  simp [namesOf_function, namesOf_handle, Declarations.symbols]

end Host

namespace Sources
variable {root out host : Path} {w : World} {s : Sources}

/-- Whatever has been scanned has passed the checks of the reader. -/
theorem isSound_of_areScanned (h : s.AreScanned w root out) :
    ∀ a ∈ s.annotations, a.decls.IsSound := by
  obtain ⟨⟨ass, hannotations, hall⟩, -⟩ := h
  have hsound : ∀ as ∈ ass, ∀ a ∈ as, a.decls.IsSound := by
    refine ((List.forall₂_and_left ass _).1
      (hall.flip.imp fun as host hscanned => ⟨fun a ha => ?_, hscanned⟩)).1
    obtain ⟨text, -, hresult⟩ := hscanned
    have hin := Annotation.areIn_of_result hresult
    obtain ⟨_, _, _, -, hwritten⟩ := hin.exists_written ha
    exact hwritten.isSound
  intro a ha
  rw [hannotations] at ha
  obtain ⟨as, has, ha⟩ := List.mem_flatten.1 ha
  exact hsound as has a ha

end Sources

namespace Compilation
variable {settings : Settings} {compiler : Compiler} {c : Compilation} {s : Sources}
  {root out path : Path} {stem : String} {h : Host} {w₀ w₁ w₂ w₃ w₄ w₅ : World}

/-- The C names of the functions of a host for which generation succeeds: those of the declared
functions, the instances and the low-level wrappers. They are all different just if those are that
no check compares. -/
theorem nodup_functionNames (hstart : (settings.start compiler).runOn w₀ = (.ok c, w₁))
    (hscan : (Sources.scan root out).runOn w₂ = (.ok s, w₃))
    (hgenerate : (c.generate s path stem).runOn w₄ = (.ok h, w₅)) :
    h.functionNames = (s.declaringIn path).flatMap (·.decls.symbols) ∧
      (h.functionNames.Nodup ↔ Declarations.AreApart ((s.declaringIn path).map (·.decls))) := by
  obtain ⟨⟨ss, hproducts⟩, -⟩ := Settings.start_ok hstart
  obtain ⟨hscanned, -⟩ := Sources.scan_ok hscan
  obtain ⟨-, -, hitems, -, reg, gs, hgains⟩ := generate_ok hproducts hgenerate
  have hnames : h.functionNames = (s.declaringIn path).flatMap (·.decls.symbols) := by
    rw [Host.functionNames_eq, hitems, Host.namesOf_flatMap]
    simp only [Host.namesOf_declarations]
  refine ⟨hnames, ?_⟩
  have hsound : ∀ b ∈ (s.declaringIn path).map (·.decls), b.IsSound := by
    refine List.forall_mem_map.2 fun a ha => Sources.isSound_of_areScanned hscanned a ?_
    exact List.mem_of_mem_filter (List.mem_of_mem_filter ha)
  rw [hnames, ← Declarations.nodup_symbols hsound (Declarations.hasInstances_of_allGain hgains)
    (Declarations.checked_of_allGain hgains), List.flatMap_map]

/-- The C names of the functions of the only host below a root. -/
def namesOfHost (text : String) : Except Failure (List String) :=
  (Act.runOn (do
    let c ← Settings.start { root := ⟨"/src"⟩, generatesOnly := true } ⟨"zig", fun _ => pure ⟨0, ""⟩⟩
    Act.createDirectories c.outDir
    let s ← Sources.scan ⟨"/src"⟩ c.outDir
    let h ← c.generate s ⟨"/src/a.cpp"⟩ "a"
    return h.functionNames)
  { tree := ⟨[(["src"], .directory), (["src", "a.cpp"], .file text)]⟩ }).1

theorem exists_of_namesOfHost (text : String) (names : List String)
    (h : (namesOfHost text).toOption = some names) :
    ∃ (settings : Settings) (compiler : Compiler) (c : Compilation) (s : Sources) (host : Host)
      (w₀ w₁ w₂ w₃ w₄ : World),
      (settings.start compiler).runOn w₀ = (.ok c, w₁) ∧
      (Sources.scan ⟨"/src"⟩ c.outDir).runOn w₂ = (.ok s, w₃) ∧
      (c.generate s ⟨"/src/a.cpp"⟩ "a").runOn w₃ = (.ok host, w₄) ∧ host.functionNames = names := by
  obtain ⟨_, h⟩ := exists_of_toOption h
  obtain ⟨c, w₁, hstart, h⟩ := bind_ok.1 h
  obtain ⟨_, w₂, -, h⟩ := bind_ok.1 h
  obtain ⟨s, w₃, hscan, h⟩ := bind_ok.1 h
  obtain ⟨host, w₄, hgenerate, h⟩ := bind_ok.1 h
  exact ⟨_, _, c, s, host, _, w₁, w₂, w₃, w₄, hstart, hscan, hgenerate,
    Except.ok.inj (congrArg Prod.fst h)⟩

/-- Instances and a low-level wrapper, in two annotations. -/
theorem nodup_functionNames_annotations :
    ∃ (c : Compilation) (s : Sources) (h : Host) (w v : World),
      (c.generate s ⟨"/src/a.cpp"⟩ "a").runOn w = (.ok h, v) ∧
      h.functionNames = ["f", "id_i32", "id_u8", "g", "c_g"] ∧
      Declarations.AreApart ((s.declaringIn ⟨"/src/a.cpp"⟩).map (·.decls)) := by
  obtain ⟨_, _, c, s, h, _, _, _, w, v, hstart, hscan, hgenerate, hnames⟩ :=
    exists_of_namesOfHost ("ZIGBIND(R\"(\n---\n" ++
      "fn f(); [monomorphize(i32, u8)] fn id<T>(x: T) -> T;)\")\n" ++
      "ZIGBIND(R\"(\n---\n[binding(strategy = \"both\")] fn g();)\")")
      ["f", "id_i32", "id_u8", "g", "c_g"] (by decide +kernel)
  refine ⟨c, s, h, w, v, hgenerate, hnames, ?_⟩
  refine (nodup_functionNames hstart hscan hgenerate).2.1 ?_
  rw [hnames]
  decide

/-- The low-level wrapper of a function may take the name of another function. -/
theorem functionNames_wrapper :
    ∃ (settings : Settings) (compiler : Compiler) (c : Compilation) (s : Sources) (h : Host)
      (w₀ w₁ w₂ w₃ w₄ : World),
      (settings.start compiler).runOn w₀ = (.ok c, w₁) ∧
      (Sources.scan ⟨"/src"⟩ c.outDir).runOn w₂ = (.ok s, w₃) ∧
      (c.generate s ⟨"/src/a.cpp"⟩ "a").runOn w₃ = (.ok h, w₄) ∧
      h.functionNames = ["c_f", "f", "c_f"] ∧ ¬ h.functionNames.Nodup := by
  obtain ⟨settings, compiler, c, s, h, w₀, w₁, w₂, w₃, w₄, hstart, hscan, hgenerate, hnames⟩ :=
    exists_of_namesOfHost ("ZIGBIND(R\"(\n---\n" ++
      "fn c_f() -> i32;\n[binding(strategy=\"dual\")] fn f() -> i32;)\")")
      ["c_f", "f", "c_f"] (by decide +kernel)
  refine ⟨settings, compiler, c, s, h, w₀, w₁, w₂, w₃, w₄, hstart, hscan, hgenerate, hnames, ?_⟩
  rw [hnames]
  decide

end Compilation
end Bindery
