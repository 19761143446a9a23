import Bindery.Proofs.Compilation.Unfinished
import Bindery.Proofs.Staging.Again

/-!
# Generating again

What is generated for a host is told by its declarations. So a generation that succeeds does so again
in any world with the output directory, unless directories are in the way of its files, and then
each place has the same entry in both worlds or is untouched in both.
-/
namespace Bindery
open Act
open Bindery.Path (IsName)

namespace World
variable {cwd : Place} {out : Path} {files : Place → Prop} {w₀ v₀ w v : World}

/-- Two runs that have come from the worlds `w₀` and `v₀` to the worlds `w` and `v`. Each place has
the same entry now or is untouched, and nothing that is a directory in the second run alone is at the
places that `files` tells. -/
structure Follows (cwd : Place) (out : Path) (files : Place → Prop) (w₀ v₀ w v : World) : Prop where
  left : w.IsReady cwd out
  right : v.IsReady cwd out
  provided : w.provided = v.provided
  isDirectory : ∀ q, files q → v.tree.isDirectory q = true → w.tree.isDirectory q = true
  entries : ∀ q, w.tree.get? q = v.tree.get? q ∨
    (w.tree.get? q = w₀.tree.get? q ∧ v.tree.get? q = v₀.tree.get? q)

namespace Follows

theorem ignoresLog : IgnoresLog (Follows cwd out files w₀ v₀) := fun _ _ _ _ h =>
  ⟨⟨h.left.cwd_eq, h.left.wellFormed, h.left.isDirectory⟩,
    ⟨h.right.cwd_eq, h.right.wellFormed, h.right.isDirectory⟩, h.provided, h.isDirectory, h.entries⟩

/-- A file that is put in the first run is put in the second one. -/
theorem put (hproper : cwd.IsProper) (hout : out.IsWhole) (hway : out.Avoids cwd out)
    {name : String} (hname : IsName name) (hfile : files (out.place cwd ++ [name]))
    (content : String) (failure : Failure) :
    (Act.put (out / name) content failure).Repeats (Follows cwd out files w₀ v₀)
      fun _ => True := by
  intro w v w' a h hrun
  have hplace : (out / name).place cwd = out.place cwd ++ [name] := Path.place_div hout hname
  have htidies : (Act.put (out / name) content failure).Preserves
      (Staging.Tidies cwd out files) := Staging.Tidies.put_div hway hproper hout hname _ _
  have htidy := htidies.of_ok hrun h.left
  rcases put_cases w (out / name) content failure with herror | ⟨hloc, hdir, hparent, hput⟩
  · cases herror.symm.trans hrun
  cases hput.symm.trans hrun
  rw [h.left.cwd_eq, hplace] at hloc hdir hparent htidy ⊢
  have hadmits := (h.left.admits_of_locate hout hname hloc).1
  have hdir' : v.tree.isDirectory (out.place cwd ++ [name]) = false := by
    rw [Bool.eq_false_iff] at hdir ⊢
    exact fun hv => hdir (h.isDirectory _ hfile hv)
  have hrun' := put_ok (h.right.locate_div hout hname hadmits) hdir'
    (by rw [List.dropLast_concat]; exact h.right.isDirectory_place) content failure
  have htidy' := htidies.of_ok hrun' h.right
  have hne : out.place cwd ++ [name] ≠ [] := List.concat_ne_nil _ _
  refine ⟨trivial, _, hrun', htidy.isReady, htidy'.isReady, h.provided, fun q hq hv => ?_,
    fun q => ?_⟩
  · rw [isDirectory_put hdir'] at hv
    rw [isDirectory_put hdir]
    exact h.isDirectory q hq hv
  · rw [FileTree.get?_put hne, FileTree.get?_put hne]
    split_ifs
    · exact .inl rfl
    · exact h.entries q

theorem provide (ps : List Provided) :
    (modify fun w => { w with provided := w.provided ++ ps } : Act PUnit).Repeats
      (Follows cwd out files w₀ v₀) fun _ => True := by
  intro w v w' a h hrun
  cases hrun
  exact ⟨trivial, _, rfl, ⟨h.left.cwd_eq, h.left.wellFormed, h.left.isDirectory⟩,
    ⟨h.right.cwd_eq, h.right.wellFormed, h.right.isDirectory⟩,
    congrArg (· ++ ps) h.provided, h.isDirectory, h.entries⟩

end Follows
end World

namespace Compilation
variable {c : Compilation} {s : Sources} {cwd q : Place} {files : Place → Prop}
  {w₀ v₀ w v : World} {stems : List (Path × String)}

/-- What is emitted for a host does not depend on the world. -/
theorem repeats_emission {ss : List Interface} (hproducts : c.products = Product.headed {} ss)
    {R : World → World → Prop} (hR : IgnoresLog R) (path : Path) (stem : String) :
    (c.emission s path stem).Repeats R fun emitted =>
      emitted.1.stem = (Host.new path stem).stem := by
  have hrepeats : (c.emission s path stem).Repeats R fun _ => True := by
    refine Repeats.bind (Repeats.ofExcept _) fun modulePath _ => ?_
    refine Repeats.bind (Q := fun _ => True) ?_ fun emitted _ => ?_
    · unfold Act.emit
      refine Repeats.bind (Repeats.forM fun n _ => Repeats.note hR n) fun _ _ => ?_
      exact Repeats.pure trivial
    · exact Repeats.bind (Repeats.ofExcept _) fun _ _ => Repeats.pure trivial
  intro w v w' emitted h hrun
  obtain ⟨-, v', hv, hR'⟩ := hrepeats w v w' emitted h hrun
  exact ⟨(emission_ok hproducts hrun).2, v', hv, hR'⟩

section
variable (hproper : cwd.IsProper) (hout : c.outDir.IsWhole) (hway : c.outDir.Avoids cwd c.outDir)
include hproper hout hway

theorem repeats_write {h : Host} (hstem : Text.isIdentifier h.stem = true)
    (hfiles : ∀ p ∈ h.filesIn c.outDir, files (p.place cwd)) (p : Product) :
    (p.write h c.outDir).Repeats (World.Follows cwd c.outDir files w₀ v₀) fun _ => True := by
  refine Repeats.get_bind (fun w v hfollows => ?_) fun w => ?_
  · rw [World.absolute, World.absolute, hfollows.left.cwd_eq, hfollows.right.cwd_eq]
  refine Repeats.bind (Q := fun _ => True) (Repeats.forM fun file hfile => ?_) fun _ _ => ?_
  · have hmem := Product.mem_fileNames hfile
    have hname := Host.isName_of_mem_fileNames hstem hmem
    have hplace := hfiles _ (List.mem_map_of_mem hmem)
    rw [Path.place_div hout hname] at hplace
    exact World.Follows.put hproper hout hway hname hplace _ _
  · cases (p.files h (w.absolute h.path).normal).head? with
    | none => exact Repeats.pure trivial
    | some file => exact Repeats.note World.Follows.ignoresLog _

theorem repeats_generate {ss : List Interface} (hproducts : c.products = Product.headed {} ss)
    {x : Path × String} (hfiles : ∀ p ∈ c.filesOf x, files (p.place cwd)) :
    (c.generate s x.1 x.2).Repeats (World.Follows cwd c.outDir files w₀ v₀) fun _ => True := by
  rw [generate_eq]
  refine Repeats.bind (repeats_emission hproducts World.Follows.ignoresLog x.1 x.2)
    fun emitted hstem => ?_
  have hidentifier : Text.isIdentifier emitted.1.stem = true := by
    rw [hstem]
    exact Name.isIdentifier_ofText _
  rw [filesOf, ← Host.filesIn_congr hstem] at hfiles
  refine Repeats.bind (Repeats.forM fun p _ =>
    repeats_write hproper hout hway hidentifier hfiles p) fun _ _ => ?_
  exact Repeats.bind (World.Follows.provide _) fun _ _ => Repeats.pure trivial

/-- The hosts that are generated in one world are generated in another. -/
theorem generatesAll_again {ss : List Interface} (hproducts : c.products = Product.headed {} ss)
    {stems : List (Path × String)} (hfiles : ∀ x ∈ stems, ∀ p ∈ c.filesOf x, files (p.place cwd))
    {w v w' : World} (h : World.Follows cwd c.outDir files w₀ v₀ w v) {hosts : List Host}
    (hrun : c.GeneratesAll s stems w hosts w') :
    ∃ v', c.GeneratesAll s stems v hosts v' ∧ World.Follows cwd c.outDir files w₀ v₀ w' v' := by
  have hgenerate : ∀ x ∈ stems, (c.generate s x.1 x.2).Repeats
      (World.Follows cwd c.outDir files w₀ v₀) fun _ => True :=
    fun x hx => repeats_generate hproper hout hway hproducts (hfiles x hx)
  exact (Repeats.mapM hgenerate w v w' hosts h hrun).2

end

/-! ### The files of hosts -/

/-- The places of the files of some hosts. -/
def HasFileAt (c : Compilation) (stems : List (Path × String)) (cwd q : Place) : Prop :=
  ∃ x ∈ stems, ∃ p ∈ c.filesOf x, p.place cwd = q

/-- The files of hosts are told from all others in the output directory by what stands behind the
first point of their names. -/
theorem HasFileAt.exists_ending (hout : c.outDir.IsWhole)
    (h : c.HasFileAt stems cwd q) : ∃ name, q = c.outDir.place cwd ++ [name] ∧
      String.ofList (name.toList.dropWhile (· ≠ '.')) ∈ Host.fileEndings := by
  obtain ⟨x, -, p, hp, rfl⟩ := h
  obtain ⟨name, hname, rfl⟩ := List.mem_map.1 hp
  have hstem : Text.isIdentifier (Host.new x.1 x.2).stem = true := Name.isIdentifier_ofText _
  exact ⟨name, Path.place_div hout (Host.isName_of_mem_fileNames hstem hname),
    (Host.span_of_mem_fileNames hstem hname).2⟩

theorem HasFileAt.not_isLasting (hout : c.outDir.IsWhole)
    (h : c.HasFileAt stems cwd q) : ¬ Build.IsLasting (c.outDir.place cwd) q := by
  have hends : ∀ name ∈ Build.lastingNames,
      String.ofList (name.toList.dropWhile (· ≠ '.')) ∉ Host.fileEndings := by decide
  obtain ⟨name, hq, hend⟩ := h.exists_ending hout
  rintro ⟨other, hother, rest, heq⟩
  obtain ⟨rfl, -⟩ := List.cons.inj (List.append_cancel_left (hq.symm.trans heq))
  exact hends name hother hend

theorem not_hasFileAt_external (hout : c.outDir.IsWhole) (i : Nat) :
    ¬ c.HasFileAt stems cwd (c.outDir.place cwd ++ [Staging.externalName i]) := by
  intro h
  obtain ⟨name, heq, hend⟩ := h.exists_ending hout
  obtain rfl := List.singleton_inj.1 (List.append_cancel_left heq)
  have hall : ∀ ch ∈ (Staging.externalName i).toList, decide (ch ≠ '.') = true := by
    intro ch hch
    rw [Staging.toList_externalName, List.mem_append] at hch
    rw [decide_eq_true_eq]
    rintro rfl
    rcases hch with hch | hch
    · exact absurd hch (by decide)
    · exact absurd (Text.isDigit_of_mem_toString hch) (by decide)
  rw [List.dropWhile_eq_nil_iff.2 hall] at hend
  exact absurd hend (by decide)

/-! ### What stays around the output directory -/

section
variable (hproper : cwd.IsProper) (hout : c.outDir.IsWhole) (hway : c.outDir.Avoids cwd c.outDir)
include hproper hway

include hout in
theorem generatesAll_tidies {ss : List Interface} (hproducts : c.products = Product.headed {} ss)
    {hosts : List Host} (h : c.GeneratesAll s stems w hosts v) :
    Staging.Tidies cwd c.outDir files w v := by
  refine (Preserves.mapM Staging.Tidies.isFrame fun x _ => ?_).of_ok h
  refine generate_preserves hproducts Staging.Tidies.isFrame (fun w _ hw => ?_) fun p hp => ?_
  · exact ⟨⟨hw.cwd_eq, hw.wellFormed, hw.isDirectory⟩, fun _ _ => rfl, id, fun _ _ => id⟩
  · obtain ⟨name, hname, rfl⟩ := List.mem_map.1 hp
    have hstem : Text.isIdentifier (Host.new x.1 x.2).stem = true := Name.isIdentifier_ofText _
    exact Staging.Tidies.put_div hway hproper hout (Host.isName_of_mem_fileNames hstem hname)

theorem get?_of_generatesAll {ss : List Interface} (hproducts : c.products = Product.headed {} ss)
    {hosts : List Host} (hw : w.IsReady cwd c.outDir) (h : c.GeneratesAll s stems w hosts v)
    {q : Place} (hinside : (c.outDir.place cwd).IsInside q) (hq : ¬ c.HasFileAt stems cwd q) :
    v.tree.get? q = w.tree.get? q := by
  obtain ⟨-, -, -, hkept⟩ :=
    generatesAll_keeps hproper hproducts (fun _ hx => hx) h hw.cwd_eq hw.wellFormed.isNamed
  rcases hkept q fun x hx p hp heq => hq ⟨x, hx, p, hp, heq⟩ with hsame | ⟨-, -, hq'⟩
  · exact hsame
  · exact absurd hinside (hway q hq')

end

end Compilation
end Bindery
