import Bindery.Decl.Parser
import Bindery.Proofs.Decl.Attributes

/-!
# Signatures are read as they are written

Parameters, return types and generic parameters come back from their tokens, each in front of what
the grammar lets follow it, and with them whole functions with their attributes.
-/
namespace Bindery.Tokens
open Lexeme

variable {ts rest : Tokens} {ls : List Lexeme} {scope : List String}

theorem type?_of_isScoped {t : Ty} (ht : t.IsWritable) (hs : t.IsScoped scope)
    (h : Begins t.lexemes ts rest) (hr : rest.Avoids typeMarks) :
    ts.type? scope = .ok (some t, rest) := by
  rw [type?_of_begins ht h hr, Ty.inScope_of_isScoped hs]

theorem param?_of_begins {p : Param} (hp : p.IsWritable scope) (h : Begins p.lexemes ts rest)
    (hr : rest.Avoids typeMarks) : ts.param? scope = .ok (some p, rest) := by
  obtain ⟨_, _, rfl, _, tail, rfl, h⟩ := h
  have htype := type?_of_isScoped hp.2.1 hp.2.2 h hr
  simp only [param?, head, htype, bind, Except.bind]

theorem newParam_of_begins {p : Param} {seen : List Param} (hp : p.IsWritable scope)
    (hnew : p.name ∉ seen.map (·.name)) (h : Begins p.lexemes ts rest)
    (hr : rest.Avoids typeMarks) : ts.newParam scope seen = .ok (p, rest) := by
  rw [newParam, param?_of_begins hp h hr]
  exact if_neg hnew

/-- The parameters up to the closing bracket, of which there is at least one. -/
theorem params_of_begins {p : Param} {ps : List Param} (hps : Param.AreWritable scope (p :: ps))
    (h : Begins (commas ((p :: ps).map (·.lexemes)) ++ [.punct .roundClose]) ts rest) :
    separated (params scope) .roundClose [] ts = .ok (p :: ps, rest) := by
  have hitem : ∀ front b back items ts rest, p :: ps = front ++ b :: back →
      items.map id = front.map id → Begins (Param.lexemes b) ts rest →
      (∀ marks, .comma ∉ marks → .roundClose ∉ marks → rest.Avoids marks) →
      ∃ a, id a = id b ∧ (params scope).run ([] ++ items) ts = .ok (a, rest) := by
    intro front b back items ts rest hsplit hitems hb hafter
    rw [List.map_id, List.map_id] at hitems
    subst hitems
    have hmem : b ∈ p :: ps := by
      rw [hsplit]
      exact List.mem_append_right _ List.mem_cons_self
    have hnodup := hps.2
    rw [hsplit, List.map_append, List.map_cons] at hnodup
    have hnew : b.name ∉ items.map (·.name) := fun hname =>
      (List.nodup_append.1 hnodup).2.2 _ hname _ List.mem_cons_self rfl
    exact ⟨b, rfl, newParam_of_begins (hps.1 b hmem) hnew hb
      (hafter _ (by decide) (by decide))⟩
  obtain ⟨items, mid, hitems, hsep, rfl⟩ := separated_of_begins _ _ _ (List.cons_ne_nil _ _)
    (by decide) hitem h
  rw [List.map_id, List.map_id] at hitems
  rw [hsep, hitems, List.nil_append]

theorem paramList_of_begins {ps : List Param} (hps : Param.AreWritable scope ps)
    (h : Begins (commas (ps.map (·.lexemes)) ++ [.punct .roundClose]) ts rest) :
    ts.paramList scope = .ok (ps, rest) := by
  cases ps with
  | nil =>
    obtain ⟨mid, hclose, rfl⟩ := punct?_of_begins h
    simp only [paramList, hclose, bind, Except.bind]
  | cons p ps =>
    have havoids : ts.Avoids [.roundClose] := h.avoids_commas fun _ heq => Lexeme.noConfusion heq
    have hno := punct?_of_avoids havoids List.mem_cons_self
    simp only [paramList, hno, bind, Except.bind, params_of_begins hps h]

theorem commas_flatMap {α : Type} (spell : α → List Lexeme) (a : α) (as : List α) :
    (a :: as).flatMap (fun b => .punct .comma :: spell b) =
      .punct .comma :: commas ((a :: as).map spell) := by
  induction as generalizing a with
  | nil => simp [commas]
  | cons b as ih =>
    rw [List.flatMap_cons, ih b]
    rfl

theorem moreParams_of_begins {ps : List Param} (hps : Param.AreWritable scope ps)
    (h : Begins (Param.moreLexemes ps) ts rest) : ts.moreParams scope = .ok (ps, rest) := by
  cases ps with
  | nil =>
    obtain ⟨mid, hclose, rfl⟩ := punct?_of_begins h
    simp only [moreParams, hclose, bind, Except.bind]
  | cons p ps =>
    rw [Param.moreLexemes, commas_flatMap, List.cons_append] at h
    have havoids : ts.Avoids [.roundClose] := h.avoids_of_not_mem (by decide)
    have hno := punct?_of_avoids havoids List.mem_cons_self
    obtain ⟨mid, hcomma, hmid⟩ := punct_of_begins h
    simp only [moreParams, hno, hcomma, bind, Except.bind, params_of_begins hps hmid]

theorem returnType_of_begins {t : Ty} (ht : t.IsWritable) (hs : t.IsScoped scope)
    (h : Begins t.returnLexemes ts rest) (hr : rest.Avoids (.arrow :: typeMarks)) :
    ts.returnType scope = .ok (t, rest) := by
  by_cases hvoid : t.isVoid = true
  · rw [Ty.returnLexemes, if_pos hvoid] at h
    obtain rfl : ts = rest := h
    obtain rfl : t = .void := by simpa [Ty.isVoid] using hvoid
    simp only [returnType, punct?_of_avoids hr List.mem_cons_self, bind, Except.bind]
  · rw [Ty.returnLexemes, if_neg hvoid] at h
    obtain ⟨mid, harrow, hmid⟩ := punct?_of_begins h
    have htypes : rest.Avoids typeMarks := hr.mono fun m hm => List.mem_cons_of_mem _ hm
    simp only [returnType, harrow, type?_of_isScoped ht hs hmid htypes, bind, Except.bind]

theorem moreBounds_of_avoids {seen : List String} (h : ts.Avoids [.plus]) :
    ts.moreBounds seen = .ok (seen, ts) := by
  rw [moreBounds]
  have hno := punct?_of_avoids h List.mem_cons_self
  split
  all_goals simp_all

theorem moreBounds_step {seen : List String} {inner : Tokens} {bound : String}
    (hplus : ts.punct? .plus = .ok (true, inner)) (hpath : inner.path = .ok (bound, rest)) :
    ts.moreBounds seen = rest.moreBounds (seen ++ [bound]) := by
  rw [moreBounds]
  split
  · simp_all
  · simp_all
  · rename_i h
    rw [hplus] at h
    cases h
    split
    all_goals simp_all

/-- What does not continue a list of bounds. -/
def boundMarks : List Punct := [.plus, .doubleColon]

theorem avoids_of_bounds {bounds : List String}
    (h : Begins (bounds.flatMap fun b => .punct .plus :: Name.lexemes b) ts rest)
    (hr : rest.Avoids boundMarks) : ts.Avoids [.doubleColon] := by
  cases bounds with
  | nil =>
    obtain rfl : ts = rest := h
    exact hr.mono (by decide)
  | cons bound bounds =>
    rw [List.flatMap_cons, List.cons_append] at h
    exact h.avoids_of_not_mem (by decide)

theorem moreBounds_of_begins {bounds seen : List String}
    (h : Begins (bounds.flatMap fun b => .punct .plus :: Name.lexemes b) ts rest)
    (hr : rest.Avoids boundMarks) : ts.moreBounds seen = .ok (seen ++ bounds, rest) := by
  induction bounds generalizing seen ts with
  | nil =>
    obtain rfl : ts = rest := h
    rw [moreBounds_of_avoids (hr.mono (by decide)), List.append_nil]
  | cons bound bounds ih =>
    rw [List.flatMap_cons, List.cons_append] at h
    obtain ⟨inner, hplus, hinner⟩ := punct?_of_begins h
    obtain ⟨mid, hpath, hmid⟩ := begins_append.1 hinner
    rw [moreBounds_step hplus (path_of_begins hpath (avoids_of_bounds hmid hr)), ih hmid,
      List.append_assoc, List.singleton_append]

theorem generic_of_begins {g : Generic} (h : Begins g.lexemes ts rest)
    (hr : rest.Avoids (.colon :: boundMarks)) : ts.generic = .ok (g, rest) := by
  obtain ⟨name, bounds⟩ := g
  obtain ⟨_, tail, rfl, h⟩ := h
  cases bounds with
  | nil =>
    obtain rfl : tail = rest := h
    simp only [generic, Tokens.bounds, punct?_of_avoids hr List.mem_cons_self, bind, Except.bind]
  | cons bound bounds =>
    have hbounds : rest.Avoids boundMarks := hr.mono fun m hm => List.mem_cons_of_mem _ hm
    obtain ⟨inner, hcolon, hinner⟩ := punct?_of_begins h
    obtain ⟨mid, hpath, hmid⟩ := begins_append.1 hinner
    simp only [generic, Tokens.bounds, hcolon,
      path_of_begins hpath (avoids_of_bounds hmid hbounds), moreBounds_of_begins hmid hbounds,
      bind, Except.bind, List.singleton_append]

theorem genericList_of_begins {gs : List Generic} (h : Begins (Generic.listLexemes gs) ts rest)
    (hr : rest.Avoids [.less]) : ts.genericList = .ok (gs, rest) := by
  cases gs with
  | nil =>
    obtain rfl : ts = rest := h
    simp only [genericList, punct?_of_avoids hr List.mem_cons_self, bind, Except.bind]
  | cons g gs =>
    obtain ⟨inner, hopen, hinner⟩ := punct?_of_begins h
    have hitem : ∀ front b back items ts rest, g :: gs = front ++ b :: back →
        items.map id = front.map id → Begins (Generic.lexemes b) ts rest →
        (∀ marks, .comma ∉ marks → .greater ∉ marks → rest.Avoids marks) →
        ∃ a, id a = id b ∧ genericItems.run ([] ++ items) ts = .ok (a, rest) := by
      intro front b back items ts rest _ _ hb hafter
      exact ⟨b, rfl, generic_of_begins hb (hafter _ (by decide) (by decide))⟩
    obtain ⟨items, mid, hitems, hsep, rfl⟩ := separated_of_begins _ _ _ (List.cons_ne_nil _ _)
      (by decide) hitem hinner
    rw [List.map_id, List.map_id] at hitems
    simp only [genericList, hopen, hsep, hitems, bind, Except.bind, List.nil_append]

/-- A signature without its attributes and its first keywords. -/
theorem signature_of_begins {f : Signature} (hf : f.IsWritable) (pos : Position)
    (h : Begins f.tailLexemes ts rest) :
    ts.signature f.isAsync pos =
      .ok ({ f with binding := none, instances := [], pos := pos }, rest) := by
  obtain ⟨_, tail, rfl, h⟩ := h
  obtain ⟨afterGenerics, hgenerics, h⟩ := begins_append.1 h
  obtain ⟨afterParams, hparams, h⟩ := begins_append.1 h
  obtain ⟨afterRet, hret, hend⟩ := begins_append.1 h
  obtain ⟨inner, hopen, hinner⟩ := punct_of_begins hparams
  obtain ⟨after, hsemicolon, rfl⟩ := punct_of_begins hend
  have hgenericList := genericList_of_begins hgenerics (hparams.avoids_of_not_mem (by decide))
  have hparamList := paramList_of_begins hf.params hinner
  have hreturn := returnType_of_begins hf.ret.1 hf.ret.2 hret
    (hend.avoids_of_not_mem (by decide))
  rw [Signature.scope] at hparamList hreturn
  simp only [signature, ident, hgenericList, hopen, hparamList, hreturn, hsemicolon, bind,
    Except.bind]

/-- A function takes what its attributes tell from any that differ only in where they stand. -/
theorem function_of_begins {ds : Declarations} {f : Signature} (hf : f.IsWritable)
    (hnew : f.name ∉ ds.functions.map (·.name)) {attrs : List Attribute}
    (hattrs : attrs.map (·.unplaced) = f.attributes.map (·.unplaced)) (pos : Position)
    (h : Begins f.tailLexemes ts rest) :
    ts.function ds attrs f.isAsync pos =
      .ok ({ ds with functions := ds.functions ++ [{ f with pos := pos }] }, rest) := by
  have hadd := Signature.addAttributes_congr hattrs (Signature.addAttributes_attributes hf pos)
  simp only [function, signature_of_begins hf pos h, hadd, bind, Except.bind]
  exact if_neg hnew

theorem declaration?_function {ds : Declarations} {f : Signature} (hf : f.IsWritable)
    (hnew : f.name ∉ ds.functions.map (·.name))
    (h : Begins ((if f.isAsync then [.keyword .async] else []) ++ .keyword .fn :: f.tailLexemes)
      ts rest) :
    ∃ pos, ∀ attrs : List Attribute, attrs.map (·.unplaced) = f.attributes.map (·.unplaced) →
      ts.declaration? ds attrs =
        .ok (some { ds with functions := ds.functions ++ [{ f with pos := pos }] }, rest) := by
  cases hasync : f.isAsync with
  | true =>
    rw [hasync] at h
    obtain ⟨pos, _, rfl, _, tail, rfl, h⟩ := h
    refine ⟨pos, fun attrs hattrs => ?_⟩
    have hfun := function_of_begins hf hnew hattrs pos h
    rw [hasync] at hfun
    simp only [declaration?, hfun, bind, Except.bind]
  | false =>
    rw [hasync] at h
    obtain ⟨pos, tail, rfl, h⟩ := h
    refine ⟨pos, fun attrs hattrs => ?_⟩
    have hfun := function_of_begins hf hnew hattrs pos h
    rw [hasync] at hfun
    simp only [declaration?, hfun, bind, Except.bind]

end Bindery.Tokens
