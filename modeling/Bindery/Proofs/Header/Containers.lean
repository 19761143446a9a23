import Bindery.Proofs.Header.Captures

/-!
# Containers of captured slices

The worker of an asynchronous call keeps the elements of a slice in a container and passes on a view
of it. Elements that are viewed lie side by side, so the view fits only a container that stores them
like that. The container is a vector whatever the elements are, and a vector of truth values is the
one that does not.
-/
namespace Bindery

/-- The containers of the host that store elements of a type side by side. Vectors do, unless they
pack truth values into bits. -/
inductive Stores : String → String → Prop
  | vector {elem : String} (h : elem ≠ "bool") : Stores ("std::vector<" ++ elem ++ ">") elem

theorem stores_vector_iff {elem viewed : String} :
    Stores ("std::vector<" ++ elem ++ ">") viewed ↔ viewed = elem ∧ elem ≠ "bool" := by
  constructor
  · generalize hcontainer : "std::vector<" ++ elem ++ ">" = container
    rintro ⟨h⟩
    obtain rfl := (String.append_right_inj _).1 ((String.append_left_inj _).1 hcontainer)
    exact ⟨rfl, h⟩
  · rintro ⟨rfl, h⟩
    exact .vector h

/-- The elements of a slice, which may be an optional one. -/
def Ty.viewed? : Ty → Option Ty
  | .slice _ t | .wrapped .optional (.slice _ t) => some t
  | _ => none

namespace WorkerParam
variable {k : WorkerParam} {t elem : Ty} {container viewed container' viewed' : String}

/-- The worker captures a slice in a container and passes on a view of the elements in it. -/
def Keeps (k : WorkerParam) (container viewed : String) : Ty → Prop
  | .slice _ _ =>
    k.type = "std::span<const " ++ viewed ++ ">" ∧
    k.initializer = k.name ++ " = " ++ container ++ "(" ++ k.name ++ ".begin(), " ++ k.name ++
      ".end())" ∧
    k.argument = "std::span<const " ++ viewed ++ ">(" ++ k.name ++ ")"
  | .wrapped .optional (.slice _ _) =>
    k.type = "std::optional<" ++ ("std::span<const " ++ viewed ++ ">") ++ ">" ∧
    k.initializer = k.name ++ " = " ++ k.name ++ " ? std::optional<" ++ container ++
      ">(std::in_place, " ++ k.name ++ "->begin(), " ++ k.name ++ "->end()) : std::nullopt" ∧
    k.argument = k.name ++ " ? std::optional<std::span<const " ++ viewed ++ ">>(*" ++ k.name ++
      ") : std::nullopt"
  | _ => False

/-- What the worker passes on for a slice is a view of what the container stores. -/
def ViewFits (k : WorkerParam) (t : Ty) : Prop :=
  ∃ container viewed, k.Keeps container viewed t ∧ Stores container viewed

/-- The text of a capture tells the container, and that of its view the elements. -/
theorem Keeps.unique (h : k.Keeps container viewed t) (h' : k.Keeps container' viewed' t) :
    container = container' ∧ viewed = viewed' := by
  unfold Keeps at h h'
  split at h
  · obtain ⟨htype, hinitializer, -⟩ := h
    obtain ⟨htype', hinitializer', -⟩ := h'
    rw [htype] at htype'
    rw [hinitializer] at hinitializer'
    simp only [String.append_left_inj, String.append_right_inj] at htype' hinitializer'
    exact ⟨hinitializer', htype'⟩
  · obtain ⟨htype, hinitializer, -⟩ := h
    obtain ⟨htype', hinitializer', -⟩ := h'
    rw [htype] at htype'
    rw [hinitializer] at hinitializer'
    simp only [String.append_left_inj, String.append_right_inj] at htype' hinitializer'
    exact ⟨hinitializer', htype'⟩
  · exact h.elim

/-- A slice that the worker owns is kept in a vector of its elements. -/
theorem Owns.keeps (h : k.Owns t) (helem : elem ∈ t.viewed?) :
    ∃ s, Spelling.value elem = .ok s ∧ k.Keeps ("std::vector<" ++ s ++ ">") s t := by
  have hopen : " = std::vector<" = " = " ++ "std::vector<" := by decide
  have hclose : ">(" = ">" ++ "(" := by decide
  have hoptional : " ? std::optional<std::vector<" = " ? std::optional<" ++ "std::vector<" := by
    decide
  have hplace : ">>(std::in_place, " = ">" ++ ">(std::in_place, " := by decide
  cases h with
  | span p h =>
    cases helem
    refine ⟨_, h, rfl, ?_, rfl⟩
    dsimp only
    rw [hopen, hclose]
    simp only [String.append_assoc]
  | optionalSpan p h =>
    cases helem
    refine ⟨_, h, rfl, ?_, rfl⟩
    dsimp only
    rw [hoptional, hplace]
    simp only [String.append_assoc]
  | optional p h =>
    rename_i t v
    cases t with
    | slice => cases h
    | _ => cases helem
  | _ => cases helem

/-- The view of a slice fits unless the elements are truth values. -/
theorem viewFits_iff {s : String} (h : k.Keeps ("std::vector<" ++ s ++ ">") s t) :
    k.ViewFits t ↔ s ≠ "bool" := by
  constructor
  · rintro ⟨container, viewed, hkeeps, hstores⟩
    obtain ⟨rfl, rfl⟩ := h.unique hkeeps
    exact (stores_vector_iff.1 hstores).2
  · intro hs
    exact ⟨_, s, h, .vector hs⟩

/-- The worker keeps the elements of a parameter that is a slice in a vector, of which the view fits
if it does not pack them. -/
def KeepsIn (k : WorkerParam) (p : Param) : Prop :=
  k.name = p.name ∧ ∀ elem ∈ p.type.viewed?, ∃ s, Spelling.value elem = .ok s ∧
    k.Keeps ("std::vector<" ++ s ++ ">") s p.type ∧ (k.ViewFits p.type ↔ s ≠ "bool")

theorem forall₂_keepsIn {ps : List Param} {ks : List WorkerParam}
    (h : List.Forall₂ (fun p k => k.name = p.name ∧ k.Owns p.type) ps ks) :
    List.Forall₂ (fun p k => k.KeepsIn p) ps ks := by
  refine h.imp fun p k hk => ⟨hk.1, fun elem helem => ?_⟩
  obtain ⟨s, hs, hkeeps⟩ := hk.2.keeps helem
  exact ⟨s, hs, hkeeps, viewFits_iff hkeeps⟩

/-- All views of slices fit just if none is of truth values. -/
theorem forall₂_viewFits_iff {ps : List Param} {ks : List WorkerParam}
    (h : List.Forall₂ (fun p k => k.KeepsIn p) ps ks) :
    List.Forall₂ (fun p k => p.type.viewed?.isSome = true → k.ViewFits p.type) ps ks ↔
      ∀ p ∈ ps, ∀ elem ∈ p.type.viewed?, Spelling.value elem ≠ .ok "bool" := by
  have hfirst : ∀ {p k}, KeepsIn k p → ((p.type.viewed?.isSome = true → k.ViewFits p.type) ↔
      ∀ elem ∈ p.type.viewed?, Spelling.value elem ≠ .ok "bool") := by
    rintro p k ⟨-, hkeeps⟩
    cases hviewed : p.type.viewed? with
    | none => exact ⟨fun _ => nofun, fun _ => nofun⟩
    | some elem =>
      obtain ⟨s, hs, -, hfits⟩ := hkeeps elem hviewed
      have hbool : Spelling.value elem ≠ .ok "bool" ↔ s ≠ "bool" := by
        rw [hs, Ne, Except.ok.injEq]
      constructor
      · rintro h _ ⟨⟩
        exact hbool.2 (hfits.1 (h rfl))
      · exact fun h _ => hfits.2 (hbool.1 (h elem rfl))
  induction h with
  | nil => exact ⟨fun _ => nofun, fun _ => .nil⟩
  | cons hk _ ih =>
    refine List.forall₂_cons.trans ((and_congr (hfirst hk) ih).trans ?_)
    exact (List.forall_mem_cons (p := fun q : Param =>
      ∀ elem ∈ q.type.viewed?, Spelling.value elem ≠ .ok "bool")).symm

end WorkerParam

namespace Header
variable {x y : Header} {e e' : Emission} {f : Signature}

/-- The asynchronous wrapper that a header is given for a function. -/
theorem worker_of_addFunction (h : (x.addFunction f).runOn e = (.ok y, e')) (hasync : f.isAsync)
    (hhigh : f.hasHigh) :
    ∃ w low ks, y.wrappers = x.wrappers ++ .async w :: low ∧
      Text.Contains (f.workerText w.result ks) (Wrapper.async w).render ∧ f.OwnsAll ks := by
  obtain ⟨-, g, hg, rfl, -⟩ := addFunction_ok h
  obtain ⟨-, lps, ret, high, low, hlps, hret, hwrappers, -, rfl⟩ := Signature.gain_eq_ok.1 hg
  rw [Signature.highWrappers, if_pos hhigh, if_pos hasync] at hwrappers
  obtain ⟨w, hw, rfl⟩ := map_eq_ok.1 hwrappers
  obtain ⟨-, -, ks, hall, htext⟩ :=
    AsyncWrapper.owns_of_new hw hlps (Registry.lowerReturn_of_lowerReturnOf hret)
  exact ⟨w, low, ks, rfl, htext, hall⟩

/-- An asynchronous function that a header takes has a worker that keeps the elements of each slice
in a vector and passes on a view of them. The views fit what they are of just if no slice is of
truth values. -/
theorem views_of_addFunction (h : (x.addFunction f).runOn e = (.ok y, e')) (hasync : f.isAsync)
    (hhigh : f.hasHigh) :
    ∃ w low ks, y.wrappers = x.wrappers ++ .async w :: low ∧
      Text.Contains (f.workerText w.result ks) (Wrapper.async w).render ∧
      List.Forall₂ (fun p k => k.KeepsIn p) f.params ks ∧
      (List.Forall₂ (fun p k => p.type.viewed?.isSome = true → k.ViewFits p.type) f.params ks ↔
        ∀ p ∈ f.params, ∀ elem ∈ p.type.viewed?, Spelling.value elem ≠ .ok "bool") := by
  obtain ⟨w, low, ks, hwrappers, htext, hall⟩ := worker_of_addFunction h hasync hhigh
  have hkeeps := WorkerParam.forall₂_keepsIn hall
  exact ⟨w, low, ks, hwrappers, htext, hkeeps, WorkerParam.forall₂_viewFits_iff hkeeps⟩

/-- The bytes of a message. -/
theorem views_of_addFunction_bytes :
    let f : Signature := {
      name := "send", ret := .void, isAsync := true, pos := .start
      params := [⟨"bytes", .slice false (.scalar (.int .u8))⟩] }
    ∃ y e', (({} : Header).addFunction f).runOn ⟨.new ⟨"a.cpp"⟩ "", []⟩ = (.ok y, e') ∧
      f.isAsync ∧ f.hasHigh ∧ ∃ w low ks, y.wrappers = .async w :: low ∧
        List.Forall₂ (fun (p : Param) (k : WorkerParam) =>
          p.type.viewed?.isSome = true → k.ViewFits p.type) f.params ks := by
  intro f
  refine ⟨_, _, rfl, rfl, rfl, ?_⟩
  obtain ⟨w, low, ks, hy, -, -, hfits⟩ :=
    views_of_addFunction (x := {}) (f := f) (e := ⟨.new ⟨"a.cpp"⟩ "", []⟩) rfl rfl rfl
  refine ⟨w, low, ks, hy, hfits.2 ?_⟩
  decide

/-- Flags are kept in a vector that packs them, so that the view of them does not fit. -/
theorem view_of_flags_misfits :
    let f : Signature := {
      name := "f", ret := .void, isAsync := true, pos := .start
      params := [⟨"a", .slice false (.scalar .bool)⟩] }
    ∃ y e', (({} : Header).addFunction f).runOn ⟨.new ⟨"a.cpp"⟩ "", []⟩ = (.ok y, e') ∧
      ∃ w low k, y.wrappers = .async w :: low ∧
        Text.Contains (f.workerText w.result [k]) (Wrapper.async w).render ∧
        k.initializer = "a = std::vector<bool>(a.begin(), a.end())" ∧
        k.argument = "std::span<const bool>(a)" ∧
        ¬k.ViewFits (.slice false (.scalar .bool)) := by
  intro f
  refine ⟨_, _, rfl, ?_⟩
  obtain ⟨w, low, ks, hy, htext, hall⟩ :=
    worker_of_addFunction (x := {}) (f := f) (e := ⟨.new ⟨"a.cpp"⟩ "", []⟩) rfl rfl rfl
  obtain _ | ⟨⟨hname, howns⟩, _ | _⟩ := hall
  rename_i k
  obtain ⟨_, ⟨⟩, hkeeps⟩ := howns.keeps rfl
  have hmisfits := (WorkerParam.viewFits_iff hkeeps).1
  obtain ⟨-, hinitializer, hargument⟩ := hkeeps
  refine ⟨w, low, k, hy, htext, ?_, ?_, fun hfits => hmisfits hfits rfl⟩
  · rw [hinitializer, hname]
    decide
  · rw [hargument, hname]
    decide

end Header
end Bindery
