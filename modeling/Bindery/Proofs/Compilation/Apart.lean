import Bindery.Proofs.Compilation.Failing
import Bindery.Proofs.Compilation.FileNames
import Bindery.Proofs.Path.Stem

/-!
# Hosts kept apart

The stems that hosts are given are a map: each host has one, and no two hosts share one. So what is
generated for a host goes to files of its own, and generating a host leaves the files of the others
alone.
-/
namespace Bindery
open Act Text
open Bindery.Path (IsName)

namespace Host
variable {hosts : List Path} {root out : Path} {given stems : List (Path × String)}

/-- A map from hosts to stems, in the order of the hosts. -/
structure AreAssigned (hosts : List Path) (given : List (Path × String)) : Prop where
  keys : (given.map (·.1)).Perm hosts
  /-- Each host is listed once, up to the spelling of its path. -/
  sorted : (given.map (·.1)).Pairwise fun p q => p.lt q = true
  nodup : (given.map (·.2)).Nodup
  isStem : ∀ x ∈ given, isIdentifier x.2 = true ∧ (Host.new x.1 x.2).stem = x.2
  plain : ∀ host ∈ hosts, (hosts.map plainStem).count (plainStem host) = 1 →
    (host, plainStem host) ∈ given

theorem pairwise_components (h : Host.stems hosts root = .ok given) :
    hosts.Pairwise fun p q => p.components ≠ q.components := by
  obtain ⟨assigned, hassigned, ⟨⟩⟩ := Tokens.bind_eq_ok.1 h
  have hnil : (([] : List (Path × String)).map (·.2)).Nodup := List.nodup_nil
  have hnodup := nodup_assignStems hnil hassigned
  rw [assignStems_eq hassigned, List.nil_append, List.map_map] at hnodup
  refine (List.pairwise_map.1 hnodup).imp fun {p q} hne hsame => ?_
  exact hne (stemAmong_congr hosts hsame)

/-- A conflict names two hosts of the list, the later one second, that have one stem. -/
theorem conflict_of_assignStems {stemOf : Path → String} {conflict : StemConflict}
    (h : assignStems stemOf given hosts = .error conflict)
    (hgiven : ∀ x ∈ given, x.2 = stemOf x.1) :
    [conflict.first, conflict.second].Sublist (given.map (·.1) ++ hosts) ∧
      stemOf conflict.first = conflict.stem ∧ stemOf conflict.second = conflict.stem := by
  induction hosts generalizing given with
  | nil => cases h
  | cons host hosts ih =>
    unfold assignStems at h
    split at h
    · rename_i owner howner
      cases h
      have hmem := List.mem_of_find?_eq_some howner
      have hstem := List.find?_some howner
      rw [decide_eq_true_eq] at hstem
      refine ⟨?_, (hgiven owner hmem) ▸ hstem, rfl⟩
      have hfirst : [owner.1].Sublist (given.map (·.1)) :=
        List.singleton_sublist.2 (List.mem_map_of_mem hmem)
      exact hfirst.append (List.singleton_sublist.2 List.mem_cons_self)
    · have hall : ∀ x ∈ given ++ [(host, stemOf host)], x.2 = stemOf x.1 := by
        intro x hx
        rcases List.mem_append.1 hx with hx | hx
        · exact hgiven x hx
        · rw [List.mem_singleton.1 hx]
      have hconflict := ih h hall
      rwa [List.map_append, List.append_assoc] at hconflict

theorem conflict_of_stems {conflict : StemConflict} (h : Host.stems hosts root = .error conflict) :
    [conflict.first, conflict.second].Sublist hosts ∧
      stemAmong hosts root conflict.first = stemAmong hosts root conflict.second := by
  rcases hassigned : assignStems (stemAmong hosts root) [] hosts with e | given
  · rw [Host.stems, hassigned] at h
    cases h
    obtain ⟨hsub, hfirst, hsecond⟩ := conflict_of_assignStems hassigned fun _ hx => by cases hx
    exact ⟨hsub, hfirst.trans hsecond.symm⟩
  · rw [Host.stems, hassigned] at h
    cases h

theorem areAssigned_of_stems (h : Host.stems hosts root = .ok given) : AreAssigned hosts given := by
  have hdistinct := pairwise_components h
  have hnodup := nodup_stems h
  have hisStem := fun x (hx : x ∈ given) => isIdentifier_of_mem_stems h hx
  obtain ⟨assigned, hassigned, ⟨⟩⟩ := Tokens.bind_eq_ok.1 h
  have hmap := assignStems_eq hassigned
  rw [List.nil_append] at hmap
  have hperm := List.mergeSort_perm assigned fun a b => !b.1.lt a.1
  have hkeys : (assigned.map (·.1)) = hosts := by
    rw [hmap, List.map_map]
    exact List.map_id _
  have hkeysPerm : ((assigned.mergeSort fun a b => !b.1.lt a.1).map (·.1)).Perm hosts := by
    rw [← hkeys]
    exact hperm.map _
  refine ⟨hkeysPerm, ?_, hnodup, fun x hx => ⟨hisStem x hx, stem_new x.1 (hisStem x hx)⟩, ?_⟩
  · have hsorted := @List.pairwise_mergeSort _ (fun a b : Path × String => !b.1.lt a.1)
      (fun a b c => Path.not_lt_trans a.1 b.1 c.1) (fun a b => Path.not_lt_total a.1 b.1) assigned
    have happart := hdistinct.perm hkeysPerm.symm fun h => Ne.symm h
    rw [List.pairwise_map] at happart ⊢
    refine (hsorted.and happart).imp fun {a b} hab => ?_
    by_contra hlt
    rw [Bool.not_eq_true] at hlt
    exact hab.2 (Path.components_eq_of_not_lt hab.1 (by rw [hlt]; rfl))
  · intro host hhost hone
    rw [List.mem_mergeSort, hmap]
    refine List.mem_map.2 ⟨host, hhost, ?_⟩
    rw [stemAmong, hone, if_neg (Nat.lt_irrefl 1)]

/-- The files of a host in an output directory. -/
def filesIn (out : Path) (h : Host) : List Path := h.fileNames.map (out / ·)

theorem filesIn_congr {h h' : Host} (hstem : h.stem = h'.stem) : h.filesIn out = h'.filesIn out := by
  rw [filesIn, filesIn, fileNames, fileNames, Header.fileName, Header.sourceName,
    Interface.fileName, Interface.loaderName, hstem]
  rfl

/-- Two hosts that share no file, neither by path nor, as a path leads to what its text tells up to
the first null character, by place. -/
def IsApart (out : Path) (cwd : Place) (h h' : Host) : Prop :=
  ∀ p ∈ h.filesIn out, ∀ q ∈ h'.filesIn out, p.components ≠ q.components ∧
    (out.IsWhole → p.place cwd ≠ q.place cwd)

theorem isApart_of_stem_ne {h h' : Host} (cwd : Place) (hstem : isIdentifier h.stem = true)
    (hstem' : isIdentifier h'.stem = true) (hne : h.stem ≠ h'.stem) : IsApart out cwd h h' := by
  intro p hp q hq
  obtain ⟨name, hname, rfl⟩ := List.mem_map.1 hp
  obtain ⟨name', hname', rfl⟩ := List.mem_map.1 hq
  have hisName := isName_of_mem_fileNames hstem hname
  have hisName' := isName_of_mem_fileNames hstem' hname'
  have hnames : name ≠ name' := by
    rintro rfl
    exact hne (stem_eq_of_mem_fileNames hstem hstem' hname hname')
  refine ⟨fun hsame => hnames ?_, fun hwhole hsame => hnames ?_⟩
  · have hlast := Path.getLast?_components_div out hisName
    rw [hsame, Path.getLast?_components_div out hisName'] at hlast
    exact (Option.some.inj hlast).symm
  · rw [Path.place_div hwhole hisName, Path.place_div hwhole hisName'] at hsame
    exact List.singleton_inj.1 (List.append_cancel_left hsame)

end Host

/-! ### What generating a host changes -/

namespace World

/-- A run that changes the tree only at the places of some paths, and runs no compiler. -/
def Rewrites (paths : List Path) (w v : World) : Prop :=
  v.cwd = w.cwd ∧ v.calls = w.calls ∧
    ∀ q, (∀ p ∈ paths, p.place w.cwd ≠ q) → v.tree.get? q = w.tree.get? q

namespace Rewrites
variable {paths : List Path} {w v : World}

theorem isFrame : IsFrame (Rewrites paths) where
  refl _ := ⟨rfl, rfl, fun _ _ => rfl⟩
  trans := by
    rintro u v w ⟨hcwd, hcalls, hkept⟩ ⟨hcwd', hcalls', hkept'⟩
    refine ⟨hcwd'.trans hcwd, hcalls'.trans hcalls, fun q hq => ?_⟩
    rw [hkept' q (by rwa [hcwd]), hkept q hq]
  log _ _ := ⟨rfl, rfl, fun _ _ => rfl⟩

theorem put {p : Path} (hp : p ∈ paths) (content : String) (failure : Failure) :
    (Act.put p content failure).Preserves (Rewrites paths) := by
  intro w
  obtain h | ⟨-, -, -, h⟩ := put_cases w p content failure
  · rw [h]
    exact isFrame.refl w
  · rw [h]
    exact ⟨rfl, rfl, fun q hq => FileTree.get?_put_of_ne fun heq => hq p hp heq.symm⟩

end Rewrites
end World

section
variable {R : World → World → Prop} (hR : IsFrame R) {h : Host} {out : Path}
include hR

/-- What only logs preserves what logging does. -/
theorem Act.Preserves.of_onlyLogs {α : Type} {m : Act α} (hm : m.Preserves World.OnlyLogs) :
    m.Preserves R := by
  intro w
  obtain ⟨log, hlog⟩ := hm w
  rw [hlog]
  exact hR.log w log

/-- The files of a host are all that writing a product of it changes. -/
theorem Product.write_preserves (hput : ∀ q ∈ h.filesIn out, ∀ content failure,
      (Act.put q content failure).Preserves R) (p : Product) : (p.write h out).Preserves R := by
  refine Preserves.get_bind hR fun v => ?_
  refine Preserves.bind hR (Preserves.forM hR fun file hfile => ?_) fun _ => ?_
  · exact hput _ (List.mem_map_of_mem (Product.mem_fileNames hfile)) _ _
  · cases (p.files h (v.absolute h.path).normal).head? with
    | none => exact Preserves.pure hR _
    | some file => exact Preserves.note hR _

end

namespace Compilation
variable {c : Compilation} {s : Sources} {w v u : World} {path : Path} {stem : String}

/-- Emission leaves at most a note. -/
theorem emission_preserves {R : World → World → Prop} (hR : IsFrame R) (path : Path)
    (stem : String) : (c.emission s path stem).Preserves R := by
  refine Preserves.bind hR (Preserves.ofExcept hR _) fun modulePath => ?_
  refine Preserves.bind hR (.of_onlyLogs hR (World.OnlyLogs.emit _ _)) fun emitted => ?_
  exact Preserves.bind hR (Preserves.ofExcept hR _) fun _ => Preserves.pure hR _

/-- Emission keeps the path and the stem of a host. -/
theorem emission_ok {ss : List Interface} (hproducts : c.products = Product.headed {} ss)
    {h : Host} {ps : List Product} (hrun : (c.emission s path stem).runOn w = (.ok (h, ps), v)) :
    h.path = path ∧ h.stem = (Host.new path stem).stem := by
  unfold emission at hrun
  obtain ⟨modulePath, u, hmodule, hrun₁⟩ := bind_ok.1 hrun
  obtain ⟨⟨result, h'⟩, u₁, hemit, hrun₂⟩ := bind_ok.1 hrun₁
  obtain ⟨ps', u₂, hresult, hrun₃⟩ := bind_ok.1 hrun₂
  obtain ⟨rfl, rfl⟩ := ofExcept_ok.1 hresult
  cases hrun₃
  obtain ⟨e, hblocks, rfl⟩ := emit_ok hemit
  dsimp only at hblocks
  rw [hproducts] at hblocks
  obtain ⟨_, gs, hgs, -, hhost, -⟩ := Emit.gains_blocks _ _ _ _ _ _ hblocks
  rw [hhost, Host.gain, Host.addSymbols_eq]
  unfold Host.declare Host.setModule
  split
  · exact ⟨rfl, rfl⟩
  · exact ⟨rfl, rfl⟩

/-- What writing the files of a host preserves, generating the host does, also if it fails. -/
theorem generate_preserves {ss : List Interface} (hproducts : c.products = Product.headed {} ss)
    {R : World → World → Prop} (hR : IsFrame R) (hprovided : ∀ w provided, R w { w with provided })
    (hput : ∀ q ∈ (Host.new path stem).filesIn c.outDir, ∀ content failure,
      (Act.put q content failure).Preserves R) : (c.generate s path stem).Preserves R := by
  intro w
  have hemit : R w ((c.emission s path stem).runOn w).2 := emission_preserves hR path stem w
  rw [generate_eq]
  rcases hrun : (c.emission s path stem).runOn w with ⟨r, u⟩
  rw [hrun] at hemit
  cases r with
  | error e =>
    rw [runOn_bind_of_error hrun]
    exact hemit
  | ok emitted =>
    obtain ⟨h, ps⟩ := emitted
    obtain ⟨-, hstem⟩ := emission_ok hproducts hrun
    rw [← Host.filesIn_congr hstem] at hput
    rw [runOn_bind_of_ok hrun]
    refine hR.trans hemit (Preserves.bind hR (Preserves.forM hR fun p _ => ?_) ?_ u)
    · exact p.write_preserves hR hput
    · intro _ u
      rw [runOn_modify_bind]
      exact hprovided u _

/-- Generating a host changes none but the files of the host. -/
theorem generate_rewrites {ss : List Interface} (hproducts : c.products = Product.headed {} ss)
    (path : Path) (stem : String) : (c.generate s path stem).Preserves
      (World.Rewrites ((Host.new path stem).filesIn c.outDir)) :=
  generate_preserves hproducts World.Rewrites.isFrame (fun _ _ => ⟨rfl, rfl, fun _ _ => rfl⟩)
    fun _ hp => World.Rewrites.put hp

theorem generate_stem {ss : List Interface} (hproducts : c.products = Product.headed {} ss)
    {h : Host} (hrun : (c.generate s path stem).runOn w = (.ok h, v)) :
    h.path = path ∧ h.stem = (Host.new path stem).stem := by
  rw [generate_eq] at hrun
  obtain ⟨⟨h', ps⟩, u, hemit, hrest⟩ := bind_ok.1 hrun
  obtain ⟨_, u', -, hdone⟩ := bind_ok.1 hrest
  rw [runOn_modify_bind] at hdone
  cases hdone
  exact emission_ok hproducts hemit

/-- What the generation of a host within a compilation leaves: a host with the path and the stem
it was given, and changes at its own files only. -/
def IsGenerated (c : Compilation) (s : Sources) (x : Path × String) (h : Host) : Prop :=
  h.path = x.1 ∧ h.stem = x.2 ∧ ∃ w v, (c.generate s x.1 x.2).runOn w = (.ok h, v) ∧
    w.Rewrites (h.filesIn c.outDir) v

theorem isGenerated_of_generatesAll {ss : List Interface}
    (hproducts : c.products = Product.headed {} ss) {stems : List (Path × String)}
    (hstems : ∀ x ∈ stems, (Host.new x.1 x.2).stem = x.2) {hosts : List Host}
    (h : c.GeneratesAll s stems w hosts v) : List.Forall₂ (c.IsGenerated s) stems hosts := by
  induction stems generalizing hosts w with
  | nil =>
    obtain ⟨rfl, -⟩ := Act.mapM_nil_ok.1 h
    exact .nil
  | cons x stems ih =>
    obtain ⟨host, hosts, u, rfl, hfirst, hrest⟩ := Act.mapM_cons_ok.1 h
    obtain ⟨hpath, hstem⟩ := generate_stem hproducts hfirst
    refine .cons ⟨hpath, hstem.trans (hstems x List.mem_cons_self), w, u, hfirst, ?_⟩
      (ih (fun y hy => hstems y (List.mem_cons_of_mem x hy)) hrest)
    have hrewrites := (generate_rewrites hproducts x.1 x.2).of_ok hfirst
    rwa [← Host.filesIn_congr hstem] at hrewrites

/-- Hosts with different stems are generated apart. -/
theorem pairwise_isApart {stems : List (Path × String)} {hosts : List Host} (cwd : Place)
    (hgenerated : List.Forall₂ (c.IsGenerated s) stems hosts)
    (hnodup : (stems.map (·.2)).Nodup) (hidentifiers : ∀ x ∈ stems, isIdentifier x.2 = true) :
    hosts.Pairwise (Host.IsApart c.outDir cwd) := by
  have hmap : hosts.map (·.stem) = stems.map (·.2) := by
    clear hnodup hidentifiers
    induction hgenerated with
    | nil => rfl
    | cons h _ ih => rw [List.map_cons, List.map_cons, h.2.1, ih]
  have hidentifier : ∀ h ∈ hosts, isIdentifier h.stem = true := by
    intro h hh
    have hmem : h.stem ∈ stems.map (·.2) := hmap ▸ List.mem_map_of_mem hh
    obtain ⟨x, hx, heq⟩ := List.mem_map.1 hmem
    exact heq ▸ hidentifiers x hx
  rw [← hmap] at hnodup
  refine (List.pairwise_map.1 hnodup).imp_of_mem fun {h h'} hh hh' hne => ?_
  exact Host.isApart_of_stem_ne cwd (hidentifier h hh) (hidentifier h' hh') hne

/-- Hosts are given stems of their own or there is a conflict of two of them. The hosts of a
compilation that succeeds have files of their own. -/
theorem files_apart :
    (∀ (hosts : List Path) (root : Path),
      match (Host.stems hosts root).mapError BuildFault.outputConflict with
      | .error fault => ∃ conflict, fault = .outputConflict conflict ∧
          [conflict.first, conflict.second].Sublist hosts ∧
          Host.stemAmong hosts root conflict.first = Host.stemAmong hosts root conflict.second
      | .ok given => Host.AreAssigned hosts given) ∧
    ∀ (settings : Settings) (compiler : Compiler) (c : Compilation) (w₀ w₁ : World),
      (settings.start compiler).runOn w₀ = (.ok c, w₁) →
      ∀ (w v : World) (o : Output), c.compile.runOn w = (.ok o, v) →
        ∃ (target : String) (s : Sources) (stems : List (Path × String)) (hosts : List Host)
          (u u' : World), c.Opens w target s stems u ∧ c.GeneratesAll s stems u hosts u' ∧
          hosts.map (·.path) = s.hosts ∧ o.sources = hosts.map c.sourceOf ∧
          List.Forall₂ (c.IsGenerated s) stems hosts ∧
          hosts.Pairwise (Host.IsApart c.outDir w.cwd) := by
  refine ⟨fun hosts root => ?_, fun settings compiler c w₀ w₁ hstart w v o hrun => ?_⟩
  · cases h : Host.stems hosts root with
    | error conflict => exact ⟨conflict, rfl, Host.conflict_of_stems h⟩
    | ok given => exact Host.areAssigned_of_stems h
  · obtain ⟨⟨ss, hproducts⟩, -⟩ := Settings.start_ok hstart
    obtain ⟨htarget, hcreate, hscan, hstems, hhosts, -, rfl, -, -⟩ := compile_ok hrun
    rename_i target s stems hosts built u₁ u₂ u₃ u₄ u₅
    have hassigned := Host.areAssigned_of_stems hstems
    have hgenerated := isGenerated_of_generatesAll hproducts
      (fun x hx => (hassigned.isStem x hx).2) hhosts
    refine ⟨target, s, stems, hosts, u₂, u₃, ⟨htarget, hcreate, hscan, hstems⟩, hhosts, ?_, rfl,
      hgenerated, pairwise_isApart w.cwd hgenerated hassigned.nodup
        fun x hx => (hassigned.isStem x hx).1⟩
    have hkeys : stems.map (·.1) = s.hosts := Host.map_fst_stems (Path.pairwise_sort _) hstems
    rw [← hkeys]
    clear hrun hhosts hassigned hstems hkeys
    induction hgenerated with
    | nil => rfl
    | cons h _ ih => rw [List.map_cons, List.map_cons, h.1, ih]

/-- A host whose name has to be changed for its files. -/
theorem files_apart_hyphen :
    let compiler : Compiler := ⟨"zig", fun _ => pure ⟨0, ""⟩⟩
    let text := "ZIGBIND(R\"(\n---\nfn f();)\")"
    let w : World := { tree := ⟨[(["src"], .directory), (["src", "io-util.cpp"], .file text)]⟩ }
    let settings : Settings := { root := ⟨"/src"⟩, generatesOnly := true }
    ∃ c o w₁ v, (settings.start compiler).runOn w = (.ok c, w₁) ∧
      c.compile.runOn w₁ = (.ok o, v) ∧ o.sources = [⟨"/src/.zigbind/io_util.zigbind.cpp"⟩] ∧
      ∃ hosts : List Host, o.sources = hosts.map c.sourceOf ∧
        hosts.Pairwise (Host.IsApart c.outDir w₁.cwd) := by
  intro compiler text w settings
  have hrun : ((do
      let c ← settings.start compiler
      let o ← c.compile
      return o.sources : Act _).runOn w).1.toOption =
        some [⟨"/src/.zigbind/io_util.zigbind.cpp"⟩] := by decide +kernel
  obtain ⟨_, hrun⟩ := exists_of_toOption hrun
  obtain ⟨c, w₁, hstart, hrun⟩ := bind_ok.1 hrun
  obtain ⟨o, v, hcompile, hrun⟩ := bind_ok.1 hrun
  obtain ⟨_, _, _, hosts, _, _, _, _, _, hsources, _, happart⟩ :=
    files_apart.2 settings compiler c w w₁ hstart w₁ v o hcompile
  exact ⟨c, o, w₁, v, hstart, hcompile, Except.ok.inj (congrArg Prod.fst hrun), hosts, hsources,
    happart⟩

end Compilation
end Bindery
