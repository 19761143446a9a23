import Bindery.Proofs.Emission.Blocks
import Bindery.Proofs.Header.Calls

/-!
# Captures of asynchronous calls

An asynchronous wrapper returns before its call is made, so the worker that makes the call has to
own what the parameters refer to. Every view and every pointer is captured by a copy of its content,
and the call gets views of the copies; whatever else a parameter can be is copied as it is captured.
-/
namespace Bindery

/-- A parameter in the text of an asynchronous wrapper: its type there, the initializer of its
capture and what the worker passes for it. -/
structure WorkerParam where
  name : String
  type : String
  initializer : String
  argument : String

open Spelling in
/-- A worker owns a parameter of a type. A view or a pointer is captured by a copy of its content,
and the argument is a view of the copy or a pointer to it; values, arrays and what references refer
to are copied by a capture under the same name, and the argument is the copy. -/
inductive WorkerParam.Owns : Ty → WorkerParam → Prop
  | span {elem : Ty} {e : String} (p : String) (h : value elem = .ok e) :
      Owns (.slice false elem) ⟨p, "std::span<const " ++ e ++ ">",
        p ++ " = std::vector<" ++ e ++ ">(" ++ p ++ ".begin(), " ++ p ++ ".end())",
        "std::span<const " ++ e ++ ">(" ++ p ++ ")"⟩
  | text (p : String) :
      Owns (.text false) ⟨p, "std::string_view",
        p ++ " = std::string(" ++ p ++ ")", "std::string_view(" ++ p ++ ")"⟩
  | pointer {t : Ty} {v : String} (p : String) (h : value t = .ok v) :
      Owns (.wrapped .optional (.wrapped .ref t)) ⟨p, "const " ++ v ++ "*",
        p ++ " = " ++ p ++ " ? std::optional<" ++ v ++ ">(*" ++ p ++ ") : std::nullopt",
        p ++ " ? &*" ++ p ++ " : nullptr"⟩
  | optionalSpan {elem : Ty} {e : String} (p : String) (h : value elem = .ok e) :
      Owns (.wrapped .optional (.slice false elem))
        ⟨p, "std::optional<" ++ ("std::span<const " ++ e ++ ">") ++ ">",
        p ++ " = " ++ p ++ " ? std::optional<std::vector<" ++ e ++ ">>(std::in_place, " ++ p ++
          "->begin(), " ++ p ++ "->end()) : std::nullopt",
        p ++ " ? std::optional<std::span<const " ++ e ++ ">>(*" ++ p ++ ") : std::nullopt"⟩
  | optionalText (p : String) :
      Owns (.wrapped .optional (.text false)) ⟨p, "std::optional<std::string_view>",
        p ++ " = " ++ p ++ " ? std::optional<std::string>(*" ++ p ++ ") : std::nullopt",
        p ++ " ? std::optional<std::string_view>(*" ++ p ++ ") : std::nullopt"⟩
  | scalar (p : String) (s : Scalar) : Owns (.scalar s) ⟨p, Spelling.scalar s, p, p⟩
  | record (p name : String) : Owns (.record name) ⟨p, name, p, p⟩
  | array {elem : Ty} {length : Nat} {v : String} (p : String)
      (h : value (.array elem length) = .ok v) :
      Owns (.array elem length) ⟨p, "const " ++ v ++ "&", p, p⟩
  | reference {t : Ty} {v : String} (p : String) (h : value t = .ok v) :
      Owns (.wrapped .ref t) ⟨p, "const " ++ v ++ "&", p, p⟩
  | optional {t : Ty} {v : String} (p : String) (h : value t = .ok v) :
      Owns (.wrapped .optional t) ⟨p, "std::optional<" ++ v ++ ">", p, p⟩

/-- The text of an asynchronous wrapper that hands a call with some parameters to a worker. -/
def Signature.workerText (f : Signature) (result : String) (ks : List WorkerParam) : String :=
  "inline std::future<" ++ result ++ "> " ++ f.highName ++ "(" ++
      Text.join ", " (ks.map fun k => k.type ++ " " ++ k.name) ++ ")\n\x7b\n" ++
    "  return ::zigbind::WorkerPool::shared().submit(\n" ++
    "    [" ++ Text.join ", " (ks.map (·.initializer)) ++ "]() \x7b\n" ++
    "      return detail::" ++ f.name ++ "_blocking(" ++
      Text.join ", " (ks.map (·.argument)) ++ ");\n" ++
    "    \x7d);\n\x7d\n\n"

/-- What a wrapper with the type `host` of a parameter does with the capture of the parameter. -/
def Capture.workerParam (c : Capture) (host : String) : WorkerParam :=
  ⟨c.param, host, c.initializer, c.view⟩

/-- No slot is a pointer that can be written through. -/
def Lowered.IsConstant (l : Lowered) : Prop :=
  ∀ slot ∈ l.slots, ∀ target nullable, slot.shape ≠ .pointer target true nullable

theorem Lowered.isConstant_iff {l : Lowered} :
    l.IsConstant ↔ l.slots.any (·.isMutablePointer) = false := by
  rw [List.any_eq_false]
  refine forall₂_congr fun slot _ => ?_
  unfold Slot.isMutablePointer
  split <;> simp_all

/-! ### What lowers is owned -/

namespace Registry
variable {reg : Registry} {t : Ty} {l : Lowered} {hold : Hold}
open Spelling

theorem eq_false_of_isConstant {target : Pointee} {mutable nullable : Bool} {role : Role}
    {rest : List Slot} (hl : l.IsConstant)
    (hslots : l.slots = ⟨.pointer target mutable nullable, role⟩ :: rest) : mutable = false := by
  cases mutable with
  | false => rfl
  | true =>
    have hmem : ⟨.pointer target true nullable, role⟩ ∈ l.slots := by
      rw [hslots]
      exact List.mem_cons_self
    exact absurd rfl (hl _ hmem target nullable)

/-- A type is spelled as some host type, and a capture of one of its parameters owns it. -/
def IsOwnedBy (t : Ty) (hold : Hold) (p : String) : Prop :=
  ∃ host, param t = .ok host ∧ WorkerParam.Owns t (Capture.workerParam ⟨p, hold⟩ host)

theorem isOwnedBy_reference {v : String} (hv : value t = .ok v) (p : String) :
    IsOwnedBy (.reference false t) .copy p :=
  ⟨_, Tokens.bind_eq_ok.2 ⟨v, hv, rfl⟩, .reference p hv⟩

/-- Whatever a parameter is lowered to without a pointer to write through, the worker owns it. -/
theorem isOwnedBy_of_lowerParam (h : reg.lowerParam t = .ok l) (hl : l.IsConstant)
    (hhold : Hold.of l = .ok hold) (p : String) : IsOwnedBy t hold p := by
  rw [lowerParam_eq_ok] at h
  cases h with
  | value h =>
    cases h with
    | scalar =>
      cases hhold
      exact ⟨_, rfl, .scalar p _⟩
    | enum | record =>
      cases hhold
      exact ⟨_, rfl, .record p _⟩
  | slice mutable h =>
    obtain rfl := eq_false_of_isConstant hl rfl
    obtain ⟨e, he, rfl⟩ := map_eq_ok.1 hhold
    exact ⟨_, Tokens.bind_eq_ok.2 ⟨e, he, rfl⟩, .span p he⟩
  | text mutable =>
    obtain rfl := eq_false_of_isConstant hl rfl
    cases hhold
    exact ⟨_, rfl, .text p⟩
  | array length h =>
    obtain ⟨v, hv⟩ := value_array h.spelled
    cases hhold
    exact ⟨_, Tokens.bind_eq_ok.2 ⟨v, hv, rfl⟩, .array p hv⟩
  | ref mutable h =>
    obtain rfl := eq_false_of_isConstant hl rfl
    obtain ⟨v, hv⟩ := h.spelled
    cases hhold
    exact isOwnedBy_reference hv p
  | refArray mutable length h =>
    obtain rfl := eq_false_of_isConstant hl rfl
    obtain ⟨v, hv⟩ := value_array h.spelled
    cases hhold
    exact isOwnedBy_reference hv p
  | optionalRef mutable h =>
    obtain rfl := eq_false_of_isConstant hl rfl
    obtain ⟨v, hv, rfl⟩ := map_eq_ok.1 hhold
    exact ⟨_, Tokens.bind_eq_ok.2 ⟨v, hv, rfl⟩, .pointer p hv⟩
  | optionalSlice mutable h =>
    obtain rfl := eq_false_of_isConstant hl rfl
    obtain ⟨e, he, rfl⟩ := map_eq_ok.1 hhold
    exact ⟨_, map_eq_ok.2 ⟨_, Tokens.bind_eq_ok.2 ⟨e, he, rfl⟩, rfl⟩, .optionalSpan p he⟩
  | optionalText mutable =>
    obtain rfl := eq_false_of_isConstant hl rfl
    cases hhold
    exact ⟨_, rfl, .optionalText p⟩
  | optionalValue h =>
    cases hhold
    cases h with
    | scalar | enum | record => exact ⟨_, rfl, .optional p rfl⟩

/-- A result that lowers to neither kind of reference is not wrapped at all. -/
theorem not_wrapped_of_lowerReturn (h : reg.lowerReturn t = .ok l)
    (hl : ¬(l.recipe = .ref ∨ l.recipe = .optionalRef)) (kind : Wrap) (inner : Ty) :
    t ≠ .wrapped kind inner := by
  rw [lowerReturn_eq_ok] at h
  cases h with
  | void => exact nofun
  | value h => cases h <;> exact nofun
  | ref => exact absurd (.inl rfl) hl
  | optionalRef => exact absurd (.inr rfl) hl

/-- A lowered parameter keeps its declaration. -/
theorem forall₂_lowerParamsOf {function : String} {ps : List Param} {lps : List LoweredParam}
    (h : reg.lowerParamsOf function ps = .ok lps) :
    List.Forall₂ (fun p lp => lp.param = p ∧ reg.lowerParam p.type = .ok lp.lowered) ps lps := by
  refine (mapM_eq_ok.1 (lowerParams_of_lowerParamsOf h)).imp fun p lp hp => ?_
  obtain ⟨l, hl, ⟨⟩⟩ := Tokens.bind_eq_ok.1 hp
  exact ⟨rfl, hl⟩

end Registry

/-! ### Wrappers -/

section
variable {reg : Registry} {f : Signature} {lps : List LoweredParam} {ret : Lowered}

/-- A capture is refused where the call could write through it; any other owns its parameter. -/
theorem Capture.owns_of_new {lp : LoweredParam} {c : Capture} (h : Capture.new f lp = .ok c)
    (hlower : reg.lowerParam lp.param.type = .ok lp.lowered) :
    lp.lowered.IsConstant ∧ ∃ host, Spelling.param lp.param.type = .ok host ∧
      (c.workerParam host).name = lp.param.name ∧ (c.workerParam host).Owns lp.param.type := by
  unfold Capture.new at h
  split at h
  · cases h
  · obtain ⟨hold, hhold, ⟨⟩⟩ := Tokens.bind_eq_ok.1 h
    have hl := Lowered.isConstant_iff.2 (Bool.eq_false_iff.2 ‹_›)
    obtain ⟨host, hhost, howns⟩ := Registry.isOwnedBy_of_lowerParam hlower hl hhold lp.param.name
    exact ⟨hl, host, hhost, rfl, howns⟩

/-- The captures of lowered parameters, with the parameters as the worker has them. -/
theorem Capture.owns_of_mapM {ps : List Param} {cs : List Capture}
    (hlps : List.Forall₂ (fun p lp => lp.param = p ∧ reg.lowerParam p.type = .ok lp.lowered) ps lps)
    (hcs : List.Forall₂ (fun lp c => Capture.new f lp = .ok c) lps cs) :
    (∀ p ∈ ps, ∃ l, reg.lowerParam p.type = .ok l ∧ l.IsConstant) ∧
      ∃ ks : List WorkerParam, List.Forall₂ (fun p k => k.name = p.name ∧ k.Owns p.type) ps ks ∧
        List.Forall₂ (fun p k => k.name = p.name ∧ Spelling.param p.type = .ok k.type) ps ks ∧
        ks.map (·.initializer) = cs.map (·.initializer) ∧
        ks.map (·.argument) = cs.map (·.view) := by
  induction hlps generalizing cs with
  | nil =>
    cases hcs
    exact ⟨List.forall_mem_nil _, [], .nil, .nil, rfl, rfl⟩
  | cons hlp _ ih =>
    obtain ⟨rfl, hlower⟩ := hlp
    obtain _ | ⟨hc, hcs⟩ := hcs
    obtain ⟨hconstant, host, hhost, hname, howns⟩ := Capture.owns_of_new hc hlower
    obtain ⟨hconstants, ks, hall, hhosts, hinitializers, harguments⟩ := ih hcs
    refine ⟨List.forall_mem_cons.2 ⟨⟨_, hlower, hconstant⟩, hconstants⟩, _ :: ks,
      .cons ⟨hname, howns⟩ hall, .cons ⟨hname, hhost⟩ hhosts, ?_, ?_⟩
    · rw [List.map_cons, List.map_cons, hinitializers]
      rfl
    · rw [List.map_cons, List.map_cons, harguments]
      rfl

theorem Spelling.params_eq {ps : List Param} {ks : List WorkerParam}
    (h : List.Forall₂ (fun p k => k.name = p.name ∧ Spelling.param p.type = .ok k.type) ps ks) :
    params ps = .ok (Text.join ", " (ks.map fun k => k.type ++ " " ++ k.name)) := by
  refine Tokens.bind_eq_ok.2 ⟨_, mapM_eq_ok.2 (List.forall₂_map_right_iff.2 ?_), rfl⟩
  refine h.imp fun p k hk => Tokens.bind_eq_ok.2 ⟨k.type, hk.2, ?_⟩
  rw [hk.1]
  rfl

/-- The parameters of a function as the worker has them. -/
def Signature.OwnsAll (f : Signature) (ks : List WorkerParam) : Prop :=
  List.Forall₂ (fun p k => k.name = p.name ∧ k.Owns p.type) f.params ks

/-- An asynchronous wrapper is made only for a result that refers to nothing and parameters that
the call cannot write through, and its text has a capture that owns each of them. -/
theorem AsyncWrapper.owns_of_new {w : AsyncWrapper} (h : AsyncWrapper.new reg f lps ret = .ok w)
    (hlps : reg.lowerParamsOf f.name f.params = .ok lps)
    (hret : reg.lowerReturn f.ret = .ok ret) :
    (∀ p ∈ f.params, ∃ l, reg.lowerParam p.type = .ok l ∧ l.IsConstant) ∧
      (∀ kind inner, f.ret ≠ .wrapped kind inner) ∧
      ∃ ks, f.OwnsAll ks ∧ Text.Contains (f.workerText w.result ks) (Wrapper.async w).render := by
  unfold AsyncWrapper.new at h
  split at h
  · cases h
  · obtain ⟨captures, hcaptures, h⟩ := Tokens.bind_eq_ok.1 h
    obtain ⟨result, -, h⟩ := Tokens.bind_eq_ok.1 h
    obtain ⟨params, hparams, ⟨⟩⟩ := Tokens.bind_eq_ok.1 h
    obtain ⟨hconstants, ks, hall, hhosts, hinitializers, harguments⟩ :=
      Capture.owns_of_mapM (Registry.forall₂_lowerParamsOf hlps) (mapM_eq_ok.1 hcaptures)
    refine ⟨hconstants, Registry.not_wrapped_of_lowerReturn hret ‹_›, ks, hall, ?_⟩
    rw [Spelling.params_eq hhosts] at hparams
    obtain rfl := Except.ok.inj hparams
    unfold Signature.workerText Wrapper.render
    rw [hinitializers, harguments]
    -- What precedes is the blocking body, which the worker calls.
    refine ⟨"namespace detail \x7b\n" ++ "inline " ++ result ++ " " ++ f.name ++ "_blocking(" ++
      Text.join ", " (ks.map fun k => k.type ++ " " ++ k.name) ++ ")\n\x7b\n" ++
      (Body.new reg f.name lps ret).render "  " ++ "\x7d\n\x7d // namespace detail\n\n", "", ?_⟩
    simp only [String.append_assoc, String.append_empty]

theorem Signature.isAsync_of_lowWrappers {ws : List Wrapper}
    (h : f.lowWrappers reg lps ret = .ok ws) : ∀ w ∈ ws, w.isAsync = false := by
  unfold lowWrappers at h
  split at h
  · obtain ⟨w, -, rfl⟩ := map_eq_ok.1 h
    exact List.forall_mem_singleton.2 rfl
  · cases h
    exact List.forall_mem_nil _

end

namespace Header
variable {x y : Header} {e e' : Emission} {f : Signature}

/-- An asynchronous function that a header takes has no parameter that is lowered to a pointer to
write through, and returns no reference. It is given one asynchronous wrapper, whose text hands a
call to a worker that owns each of the parameters: a view or a pointer is captured by a copy of its
content, anything else by its value, and the call gets the captures or views of them in the order
of the parameters. -/
theorem ownsAll_of_addFunction (h : (x.addFunction f).runOn e = (.ok y, e')) (hasync : f.isAsync)
    (hhigh : f.hasHigh) :
    (∀ p ∈ f.params, ∃ l, e.host.types.lowerParam p.type = .ok l ∧ l.IsConstant) ∧
      (∀ kind inner, f.ret ≠ .wrapped kind inner) ∧
      ∃ w low ks, y.wrappers = x.wrappers ++ .async w :: low ∧ (∀ v ∈ low, v.isAsync = false) ∧
        f.OwnsAll ks ∧ Text.Contains (f.workerText w.result ks) (Wrapper.async w).render := by
  obtain ⟨-, g, hg, rfl, -⟩ := addFunction_ok h
  obtain ⟨_, -, hg⟩ := Tokens.bind_eq_ok.1 hg
  obtain ⟨lps, hlps, hg⟩ := Tokens.bind_eq_ok.1 hg
  obtain ⟨ret, hret, hg⟩ := Tokens.bind_eq_ok.1 hg
  obtain ⟨high, hwrappers, hg⟩ := Tokens.bind_eq_ok.1 hg
  obtain ⟨low, hlow, ⟨⟩⟩ := Tokens.bind_eq_ok.1 hg
  rw [Signature.highWrappers, if_pos hhigh, if_pos hasync] at hwrappers
  obtain ⟨w, hw, rfl⟩ := map_eq_ok.1 hwrappers
  obtain ⟨hconstants, hwrapped, ks, hall, htext⟩ :=
    AsyncWrapper.owns_of_new hw hlps (Registry.lowerReturn_of_lowerReturnOf hret)
  exact ⟨hconstants, hwrapped, w, low, ks, rfl, Signature.isAsync_of_lowWrappers hlow, hall, htext⟩

/-- A digest of a slice, salted with a text that may be missing. -/
theorem ownsAll_of_addFunction_digest :
    let f : Signature := {
      name := "digest", ret := .scalar (.int .u64), isAsync := true, pos := .start
      params := [⟨"data", .slice false (.scalar (.int .u8))⟩,
        ⟨"salt", .wrapped .optional (.text false)⟩, ⟨"rounds", .scalar (.int .u32)⟩] }
    ∃ y e', (({} : Header).addFunction f).runOn ⟨.new ⟨"a.cpp"⟩ "", []⟩ = (.ok y, e') ∧
      f.isAsync ∧ f.hasHigh ∧ ∃ w low ks, y.wrappers = .async w :: low ∧ f.OwnsAll ks ∧
        Text.Contains (f.workerText w.result ks) (Wrapper.async w).render := by
  intro f
  refine ⟨_, _, rfl, rfl, rfl, ?_⟩
  obtain ⟨-, -, w, low, ks, hy, -, hall, htext⟩ :=
    ownsAll_of_addFunction (x := {}) (f := f) (e := ⟨.new ⟨"a.cpp"⟩ "", []⟩) rfl rfl rfl
  exact ⟨w, low, ks, hy, hall, htext⟩

end Header
end Bindery
