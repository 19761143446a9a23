import Bindery.Instance
import Bindery.Proofs.Decl.Sound
import Bindery.Proofs.Lowering.Closed
import Bindery.Proofs.Ty.Closed
import Mathlib.Data.List.Forall2

/-!
# Instances are closed

An instance of a function that was read has no generic parameters left. Its types are those of the
function with the type's text printed in place of the parameter, read again; all else is as in the
function.
-/
namespace Bindery

namespace Name

theorem mem_flattenChars {c : Char} {cs : List Char} (h : c ∈ cs) :
    c ∈ flattenChars cs ∨ c = ':' := by
  fun_induction flattenChars cs with
  | case1 cs ih =>
    rcases List.mem_cons.1 h with rfl | h
    · exact .inr rfl
    · rcases List.mem_cons.1 h with rfl | h
      · exact .inr rfl
      · exact (ih h).imp_left (List.mem_cons_of_mem _)
  | case2 d cs _ ih =>
    rcases List.mem_cons.1 h with rfl | h
    · exact .inl List.mem_cons_self
    · exact (ih h).imp_left (List.mem_cons_of_mem _)
  | case3 => cases h

theorem flattenChars_of_not_isQualified {cs : List Char} (h : isQualified cs = false) :
    flattenChars cs = cs := by
  fun_induction flattenChars cs with
  | case1 cs => cases h
  | case2 c cs hcolons ih =>
    rw [isQualified.eq_2 _ _ hcolons] at h
    rw [ih h]
  | case3 => rfl

theorem flatten_of_not_isQualified {s : String} (h : isQualified s.toList = false) :
    flatten s = s := by
  rw [flatten, flattenChars_of_not_isQualified h, String.ofList_toList]

end Name

/-- A type with a generic parameter printed as some text is read as another type. -/
def Ty.IsReadAs (generic type : String) (t u : Ty) : Prop :=
  Ty.parse (t.renderWith fun n => if n = generic then type else n) [] = .ok u

namespace Signature

/-- What makes a function the instance of another one for a type, given by its text, in place of
the generic parameter. -/
structure IsInstanceOf (f : Signature) (generic type : String) (k : Signature) : Prop where
  generics : k.generics = []
  closed : ∀ t ∈ k.types, t.IsScoped []
  params : List.Forall₂ (fun p q => q.name = p.name ∧ p.type.IsReadAs generic type q.type)
    f.params k.params
  ret : f.ret.IsReadAs generic type k.ret
  lowReturn : Option.Rel (Ty.IsReadAs generic type) (f.binding.bind (·.lowReturn))
    (k.binding.bind (·.lowReturn))
  binding : k.binding.map (fun b => { b with lowReturn := none }) =
    f.binding.map fun b => { b with lowReturn := none }
  isAsync : k.isAsync = f.isAsync
  name : k.name = f.name ++ "_" ++ Name.flatten type

variable {f k : Signature} {g : Generic} {type : String}

theorem isPlain_of_isIdentifier (front : String)
    (h : Text.isIdentifier (front ++ "_" ++ Name.flatten type) = true) :
    Tokens.IsPlain type.toList := by
  intro c hc
  refine (Name.mem_flattenChars hc).imp_left fun hmem => ?_
  refine Lexeme.isNameChar_of_mem h ?_
  rw [String.toList_append, Name.flatten, String.toList_ofList]
  exact List.mem_append_right _ hmem

theorem fits_of_mem_types (hf : f.IsSound) {t : Ty} (ht : t ∈ f.types) : t.Fits f.scope := by
  rcases List.mem_append.1 ht with ht | ht
  · obtain ⟨p, hp, rfl⟩ := List.mem_map.1 ht
    exact (hf.params.1 p hp).2
  · rcases List.mem_cons.1 ht with rfl | ht
    · exact hf.ret
    · obtain ⟨b, hb, ht⟩ := Option.bind_eq_some_iff.1 (Option.mem_toList.1 ht)
      exact (hf.binding b hb).lowReturn t ht

theorem types_specialize (f : Signature) (generic : String) (u : Ty) (name : String) :
    (f.specialize generic u name).types = f.types.map (·.subst generic u) := by
  unfold types specialize
  cases hb : f.binding with
  | none => simp
  | some b => cases hl : b.lowReturn <;> simp [hl]

theorem isInstanceOf_specialize (hf : f.IsSound) (hg : f.generics = [g]) {u : Ty}
    (hu : u.Fits []) :
    f.IsInstanceOf g.name u.render
      (f.specialize g.name u (f.name ++ "_" ++ Name.flatten u.render)) := by
  have hfits : ∀ t ∈ f.types, t.Fits [g.name] := by
    have hscope : f.scope = [g.name] := by rw [scope, hg, List.map_singleton]
    exact fun t ht => hscope ▸ fits_of_mem_types hf ht
  have hread : ∀ t ∈ f.types, t.IsReadAs g.name u.render (t.subst g.name u) :=
    fun t ht => Ty.parse_renderWith (hfits t ht) hu
  refine ⟨rfl, ?_, ?_, hread _ (by simp [types]), ?_, ?_, rfl, rfl⟩
  · rw [types_specialize]
    intro t ht
    obtain ⟨s, hs, rfl⟩ := List.mem_map.1 ht
    exact Ty.isScoped_subst (hfits s hs).2 hu.2
  · refine List.forall₂_map_right_iff.2 (List.forall₂_same.2 fun p hp => ⟨rfl, ?_⟩)
    exact hread _ (List.mem_append_left _ (List.mem_map_of_mem hp))
  · cases hb : f.binding with
    | none => simp [specialize, hb]
    | some b =>
      cases hl : b.lowReturn with
      | none => simp [specialize, hb, hl]
      | some t =>
        have ht : t ∈ f.types := by simp [types, hb, hl]
        simpa [specialize, hb, hl] using hread t ht
  · cases hb : f.binding <;> simp [specialize, hb]

/-- An instance of a function that was read is refused for its name or for its type, or it is
closed. A closed function can be lowered as far as generic parameters are concerned, whatever is
declared for the host and in whatever product. -/
theorem instantiate_of_parse {text file : String} {p : Position} {ds : Declarations}
    (h : Declarations.parse text file p = .ok ds) (hf : f ∈ ds.functions)
    (hg : f.generics = [g]) (ht : type ∈ f.instances) :
    f.instantiate type =
        .error (.badName f.name type (f.name ++ "_" ++ Name.flatten type)) ∨
      (∃ cause, f.instantiate type = .error (.badType type f.name cause)) ∨
      ∃ k, f.instantiate type = .ok k ∧ f.IsInstanceOf g.name type k ∧
        (∀ (reg : Registry), ∀ t ∈ k.types, Resolves (reg.lowerParam t) ∧
          Resolves (reg.lowerReturn t) ∧ Resolves (reg.lowerValue t)) ∧
        ∀ product : Product, (product.addFunction k).Resolves := by
  have hsound := (Declarations.areSoundIn_of_parse h).1.functions f hf
  unfold instantiate
  rw [hg]
  dsimp only
  rw [if_neg (not_not_intro ht)]
  split
  · exact .inl rfl
  · rename_i hname
    split
    · exact .inr (.inl ⟨_, rfl⟩)
    · rename_i u hu
      have hplain : Tokens.IsPlain type.toList := by
        refine isPlain_of_isIdentifier f.name ?_
        simpa using hname
      have hrender := Ty.render_of_parse hplain hu
      have hinstance := isInstanceOf_specialize hsound hg (Ty.fits_of_parse hu)
      rw [hrender] at hinstance
      refine .inr (.inr ⟨_, rfl, hinstance, fun reg t ht => ?_, fun product => ?_⟩)
      · have hclosed := hinstance.closed t ht
        exact ⟨Registry.resolves_lowerParam hclosed, Registry.resolves_lowerReturn hclosed,
          Registry.resolves_lowerValue hclosed⟩
      · exact product.resolves_addFunction hinstance.closed

/-- A function with a generic parameter in all kinds of places. -/
def sample : Signature where
  name := "first"
  generics := [⟨"T", []⟩]
  params := [⟨"items", .slice false (.generic "T")⟩,
    ⟨"pair", .wrapped .ref (.array (.generic "T") 2)⟩]
  ret := .generic "T"
  instances := ["geo::Point"]
  binding := some { strategy := .both, lowReturn := some (.wrapped .ref (.generic "T")) }
  pos := .start

theorem instantiate_of_parse_sample : ∃ ds f k,
    Declarations.parse (Declarations.render { functions := [sample] }) "host.cpp" .start =
        .ok ds ∧
      f ∈ ds.functions ∧ f.generics = [⟨"T", []⟩] ∧ "geo::Point" ∈ f.instances ∧
      f.instantiate "geo::Point" = .ok k ∧ f.IsInstanceOf "T" "geo::Point" k := by
  have hw : Declarations.IsWritable { functions := [sample] } := by
    refine ⟨nofun, ?_, by decide, nofun, nofun, nofun⟩
    intro f hf
    obtain rfl := List.mem_singleton.1 hf
    refine ⟨by decide, ?_, by decide, by decide, ?_, by decide, by decide, ?_⟩
    · intro g hg
      obtain rfl := List.mem_singleton.1 hg
      exact ⟨by decide, nofun⟩
    · intro s hs
      obtain rfl := List.mem_singleton.1 hs
      exact ⟨.record "geo::Point", by decide, rfl⟩
    · rintro b ⟨⟩
      exact ⟨.inl rfl, .inr (by decide), by decide, nofun⟩
  obtain ⟨pos, hts⟩ := Tokens.ofText_text (Declarations.arePrintable_lexemes hw) .start
  obtain ⟨ds, hrun, hds⟩ := Declarations.statements_lexemes hw hts
  have hparse : Declarations.parse (Declarations.render { functions := [sample] }) "host.cpp"
      .start = .ok ds := by
    rw [Declarations.parse, Declarations.render, hrun]
  obtain ⟨f, hf, hsame⟩ := List.map_eq_singleton_iff.1 (congrArg Declarations.functions hds)
  have hf' : f = { sample with pos := f.pos } :=
    congrArg (fun k : Signature => { k with pos := f.pos }) hsame
  have hmem : f ∈ ds.functions := hf ▸ List.mem_cons_self
  have hg : f.generics = [⟨"T", []⟩] := by rw [hf']; rfl
  have ht : "geo::Point" ∈ f.instances := by rw [hf']; exact List.mem_cons_self
  have hread : Ty.parse "geo::Point" [] = .ok (.record "geo::Point") :=
    Ty.parse_rendered (t := .record "geo::Point") (by decide) []
  have hname : Text.isIdentifier (f.name ++ "_" ++ Name.flatten "geo::Point") = true := by
    have hf : f.name = "first" := by rw [hf']; rfl
    rw [hf]
    decide
  have hok : ∃ k, f.instantiate "geo::Point" = .ok k := by
    simp [instantiate, hg, ht, hname, hread]
  obtain ⟨k, hk⟩ := hok
  rcases instantiate_of_parse hparse hmem hg ht with h | ⟨c, h⟩ | ⟨k, hk, hinstance, -⟩
  · rw [hk] at h
    cases h
  · rw [hk] at h
    cases h
  · exact ⟨ds, f, k, hparse, hmem, hg, ht, hk, hinstance⟩

end Signature
end Bindery
