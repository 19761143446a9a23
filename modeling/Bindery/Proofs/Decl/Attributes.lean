import Bindery.Proofs.Decl.Spelling
import Bindery.Proofs.Ty.Reading

/-!
# Attributes are read as they are written

A group of attributes is read back up to the positions of its parts. The binding and the instances
of a function come back from the attributes that spell them, with `c_ret` read anew in the scope of
the function.
-/
namespace Bindery
open Lexeme

namespace Tokens
variable {ts rest : Tokens} {ls : List Lexeme} {t : Ty}

theorem lexemes_of_begins {pos : Position} (h : Begins ls ts (.done pos)) : ts.lexemes = ls := by
  induction ls generalizing ts with
  | nil =>
    obtain rfl : ts = .done pos := h
    rfl
  | cons l ls ih =>
    obtain ⟨_, tail, rfl, h⟩ := h
    rw [lexemes, ih h]

/-- The tokens of the printed form of a type are those of the type. -/
theorem lexemes_render (ht : t.IsWritable) : (ofText t.render .start).lexemes = t.lexemes := by
  obtain ⟨pos, h⟩ := ofText_text (fun l hl => Ty.isPrintable_lexemes ht hl) .start
  rw [Ty.text_lexemes] at h
  exact lexemes_of_begins h

/-- The value of an argument is a quoted text, or else consists of the tokens of a type. -/
theorem valueLexemes_cases {a : AttributeArg} (ha : a.IsWritable) :
    (a.isQuoted = true ∧ a.valueLexemes = [.quoted a.value]) ∨
      ∃ t : Ty, t.IsWritable ∧ a.isQuoted = false ∧ a.value = t.render ∧
        a.valueLexemes = t.lexemes := by
  cases hq : a.isQuoted with
  | true => exact .inl ⟨rfl, by rw [AttributeArg.valueLexemes, hq, if_pos rfl]⟩
  | false =>
    obtain ⟨t, ht, hv⟩ := ha.2.2 hq
    refine .inr ⟨t, ht, rfl, hv, ?_⟩
    rw [AttributeArg.valueLexemes, hq, if_neg Bool.false_ne_true, hv, lexemes_render ht]

theorem valueLexemes_ne_nil {a : AttributeArg} (ha : a.IsWritable) : a.valueLexemes ≠ [] := by
  rcases valueLexemes_cases ha with ⟨-, hl⟩ | ⟨t, -, -, -, hl⟩
  · rw [hl]
    exact List.cons_ne_nil _ _
  · rw [hl]
    exact t.lexemes_ne_nil

theorem mem_marks_of_mem_valueLexemes {a : AttributeArg} (ha : a.IsWritable) {m : Punct}
    (hm : .punct m ∈ a.valueLexemes) : m ∈ Ty.marks := by
  rcases valueLexemes_cases ha with ⟨-, hl⟩ | ⟨t, -, -, -, hl⟩
  · rw [hl] at hm
    cases List.mem_singleton.1 hm
  · rw [hl] at hm
    exact Ty.mem_marks hm

/-- A value is read as it is; a type counts by its printed form, which no scope changes. -/
theorem argValue_of_begins {a : AttributeArg} (ha : a.IsWritable)
    (h : Begins a.valueLexemes ts rest) (hr : rest.Avoids typeMarks) (key : Option String)
    (pos : Position) (cause : Token → Cause) :
    ts.argValue key pos cause = .ok (⟨key, a.value, a.isQuoted, pos⟩, rest) := by
  rcases valueLexemes_cases ha with ⟨hq, hl⟩ | ⟨t, ht, hq, hv, hl⟩
  · rw [hl] at h
    obtain ⟨_, tail, rfl, rfl⟩ := h
    rw [hq]
    rfl
  · rw [hl] at h
    have htype : ts.type? [] = .ok (some (t.inScope []), rest) := type?_of_begins ht h hr
    unfold argValue
    split
    · obtain ⟨k, ks, hk⟩ := List.exists_cons_of_ne_nil t.lexemes_ne_nil
      have hw : k.isWord = true := Ty.head?_lexemes (by rw [hk]; rfl)
      rw [hk] at h
      obtain ⟨_, _, heq, -⟩ := h
      cases heq
      cases hw
    · rw [htype, hq, hv]
      simp only [Ty.render_inScope]

/-- An argument is positional unless a mark of assignment follows an identifier. -/
theorem attributeArg_positional (hts : ts.Avoids [])
    (hno : ∀ name pos tail, ts = next ⟨.ident name, pos⟩ tail → tail.Avoids [.assign]) :
    ∃ pos, ts.attributeArg = ts.argValue none pos fun t => .unexpected t.lexeme.describe := by
  obtain ⟨first, hfirst, -⟩ := hts
  simp only [attributeArg, hfirst, bind, Except.bind]
  split
  · rename_i name pos after
    refine ⟨pos, ?_⟩
    rcases (hno name pos after rfl).cases List.mem_cons_self with ⟨_, rfl⟩ | ⟨⟨l, _⟩, tail, rfl, hl⟩
    · rfl
    · split
      all_goals simp_all
  · exact ⟨first.pos, rfl⟩

theorem attributeArg_of_begins {a : AttributeArg} (ha : a.IsWritable)
    (h : Begins a.lexemes ts rest) (hr : rest.Avoids (.assign :: typeMarks)) :
    ∃ b, b.unplaced = a.unplaced ∧ ts.attributeArg = .ok (b, rest) := by
  have htypes : rest.Avoids typeMarks := hr.mono fun m hm => List.mem_cons_of_mem _ hm
  cases hkey : a.key with
  | some key =>
    rw [AttributeArg.lexemes, hkey] at h
    obtain ⟨pos, tail, rfl, _, us, rfl, hb⟩ := h
    refine ⟨_, ?_, argValue_of_begins ha hb htypes (some key) pos _⟩
    rw [← hkey]
    rfl
  | none =>
    rw [AttributeArg.lexemes, hkey] at h
    have hmarks : ∀ l ∈ a.valueLexemes, ∀ m ∈ [Punct.assign], l ≠ .punct m := by
      rintro l hl m hm rfl
      rw [List.mem_singleton.1 hm] at hl
      exact absurd (mem_marks_of_mem_valueLexemes ha hl) (by decide)
    have hassign : rest.Avoids [.assign] := hr.mono (by decide)
    have hhead : ts.Avoids [] := (h.avoids_of_forall hmarks hassign).mono nofun
    have htail : ∀ name pos tail, ts = next ⟨.ident name, pos⟩ tail → tail.Avoids [.assign] := by
      rintro name pos tail rfl
      exact h.tail_avoids (valueLexemes_ne_nil ha) hmarks hassign
    obtain ⟨pos, hpos⟩ := attributeArg_positional hhead htail
    refine ⟨_, ?_, hpos.trans (argValue_of_begins ha h htypes none pos _)⟩
    rw [← hkey]
    rfl

theorem lexemes_eq_cons {a : AttributeArg} (ha : a.IsWritable) :
    ∃ l ls, a.lexemes = l :: ls ∧ ∀ m, l ≠ .punct m := by
  cases hkey : a.key with
  | some key =>
    rw [AttributeArg.lexemes, hkey]
    exact ⟨_, _, rfl, nofun⟩
  | none =>
    rw [AttributeArg.lexemes, hkey]
    rcases valueLexemes_cases ha with ⟨-, hl⟩ | ⟨t, -, -, -, hl⟩
    · exact ⟨_, _, hl, nofun⟩
    · obtain ⟨k, ks, hk⟩ := List.exists_cons_of_ne_nil t.lexemes_ne_nil
      have hw : k.isWord = true := Ty.head?_lexemes (by rw [hk]; rfl)
      refine ⟨k, ks, hl.trans hk, ?_⟩
      rintro m rfl
      cases hw

theorem argList_of_begins {args : List AttributeArg} (hargs : ∀ arg ∈ args, arg.IsWritable)
    (h : Begins (Attribute.argLexemes args) ts rest) (hr : rest.Avoids [.roundOpen]) :
    ∃ bs, bs.map (·.unplaced) = args.map (·.unplaced) ∧ ts.argList = .ok (bs, rest) := by
  cases args with
  | nil =>
    obtain rfl : ts = rest := h
    refine ⟨[], rfl, ?_⟩
    simp only [argList, punct?_of_avoids hr List.mem_cons_self, bind, Except.bind]
  | cons arg args =>
    obtain ⟨inner, hopen, hinner⟩ := punct?_of_begins h
    obtain ⟨l, ls, hl, hmark⟩ := lexemes_eq_cons (hargs arg List.mem_cons_self)
    have havoids : inner.Avoids [.roundClose] := by
      rw [List.map_cons, hl] at hinner
      exact hinner.avoids_commas hmark
    have hitem : ∀ front b back items ts rest, arg :: args = front ++ b :: back →
        items.map (·.unplaced) = front.map (·.unplaced) → Begins (AttributeArg.lexemes b) ts rest →
        (∀ marks, .comma ∉ marks → .roundClose ∉ marks → rest.Avoids marks) →
        ∃ a, a.unplaced = b.unplaced ∧ attributeArgs.run ([] ++ items) ts = .ok (a, rest) := by
      intro front b back items ts rest hsplit _ hb hafter
      have hmem : b ∈ arg :: args := by
        rw [hsplit]
        exact List.mem_append_right _ List.mem_cons_self
      exact attributeArg_of_begins (hargs b hmem) hb (hafter _ (by decide) (by decide))
    obtain ⟨bs, mid, hbs, hsep, rfl⟩ := separated_of_begins _ _ _ (List.cons_ne_nil _ _)
      (by decide) hitem hinner
    refine ⟨bs, hbs, ?_⟩
    simp only [argList, hopen, punct?_of_avoids havoids List.mem_cons_self, bind, Except.bind, hsep]
    rfl

theorem oneAttribute_of_begins {a : Attribute} (ha : a.IsWritable)
    (h : Begins a.lexemes ts rest) (hr : rest.Avoids [.roundOpen]) :
    ∃ b, b.unplaced = a.unplaced ∧ ts.oneAttribute = .ok (b, rest) := by
  obtain ⟨pos, tail, rfl, h⟩ := h
  obtain ⟨bs, hbs, hargs⟩ := argList_of_begins ha.2 h hr
  refine ⟨⟨a.name, bs, pos⟩, ?_, ?_⟩
  · simp only [Attribute.unplaced, hbs]
  · simp only [oneAttribute, head, ident, hargs, bind, Except.bind]

theorem attributes_of_avoids {seen : List Attribute} (h : ts.Avoids [.squareOpen]) :
    ts.attributes seen = .ok (seen, ts) := by
  rw [attributes]
  have hno := punct?_of_avoids h List.mem_cons_self
  split
  all_goals simp_all

theorem attributes_step {seen all : List Attribute} {inner : Tokens}
    (hopen : ts.punct? .squareOpen = .ok (true, inner))
    (hsep : separated attributeGroup .squareClose seen inner = .ok (all, rest)) :
    ts.attributes seen = rest.attributes all := by
  rw [attributes]
  split
  · simp_all
  · simp_all
  · rename_i h
    rw [hopen] at h
    cases h
    split
    all_goals simp_all

/-- A group of attributes is read back, wherever its parts stand. -/
theorem attributes_of_begins {attrs : List Attribute} (hattrs : ∀ a ∈ attrs, a.IsWritable)
    (h : Begins (Attribute.groupLexemes attrs) ts rest) (hr : rest.Avoids [.squareOpen]) :
    ∃ bs, bs.map (·.unplaced) = attrs.map (·.unplaced) ∧ ts.attributes [] = .ok (bs, rest) := by
  cases attrs with
  | nil =>
    obtain rfl : ts = rest := h
    exact ⟨[], rfl, attributes_of_avoids hr⟩
  | cons attr attrs =>
    obtain ⟨inner, hopen, hinner⟩ := punct?_of_begins h
    have hitem : ∀ front b back items ts rest, attr :: attrs = front ++ b :: back →
        items.map (·.unplaced) = front.map (·.unplaced) → Begins (Attribute.lexemes b) ts rest →
        (∀ marks, .comma ∉ marks → .squareClose ∉ marks → rest.Avoids marks) →
        ∃ a, a.unplaced = b.unplaced ∧ attributeGroup.run ([] ++ items) ts = .ok (a, rest) := by
      intro front b back items ts rest hsplit _ hb hafter
      have hmem : b ∈ attr :: attrs := by
        rw [hsplit]
        exact List.mem_append_right _ List.mem_cons_self
      exact oneAttribute_of_begins (hattrs b hmem) hb (hafter _ (by decide) (by decide))
    obtain ⟨bs, mid, hbs, hsep, rfl⟩ := separated_of_begins _ _ _ (List.cons_ne_nil _ _)
      (by decide) hitem hinner
    exact ⟨bs, hbs, (attributes_step hopen hsep).trans (attributes_of_avoids hr)⟩

end Tokens

/-! What attributes tell a declaration does not depend on where they stand. -/

section
variable {scope : List String} {b b' : Binding}

theorem Binding.set_congr {a a' : AttributeArg} {key : String} (h : a.unplaced = a'.unplaced)
    (hs : b.set scope a' key = .ok b') : b.set scope a key = .ok b' := by
  obtain ⟨k, value, isQuoted, pos⟩ := a
  obtain ⟨k', value', isQuoted', pos'⟩ := a'
  cases h
  unfold Binding.set at hs ⊢
  split
  case h_6 =>
    simp only at hs
    cases hs
  all_goals
    simp only at hs ⊢
    split at hs
    all_goals simp_all

theorem Binding.ofArgs_congr {used : List String} {args args' : List AttributeArg}
    (h : args.map (·.unplaced) = args'.map (·.unplaced))
    (hb : Binding.ofArgs scope b used args' = .ok b') :
    Binding.ofArgs scope b used args = .ok b' := by
  induction args generalizing args' b used with
  | nil =>
    obtain rfl := List.map_eq_nil_iff.1 h.symm
    exact hb
  | cons a args ih =>
    obtain ⟨a', rest', rfl, ha, hargs⟩ := List.map_eq_cons_iff.1 h.symm
    have hkey : a.key = a'.key := (congrArg AttributeArg.key ha.symm :)
    unfold Binding.ofArgs at hb ⊢
    rw [hkey]
    cases hk : a'.key with
    | none => simp only [hk] at hb; cases hb
    | some key =>
      simp only [hk] at hb ⊢
      split at hb
      · cases hb
      · rename_i hnew
        obtain ⟨c, hc, hb⟩ := Tokens.bind_eq_ok.1 hb
        rw [if_neg hnew, Binding.set_congr ha.symm hc]
        exact ih hargs.symm hb

end

namespace Signature
variable {f f' : Signature}

theorem addInstances_congr {args args' : List AttributeArg}
    (h : args.map (·.unplaced) = args'.map (·.unplaced))
    (hf : f.addInstances args' = .ok f') : f.addInstances args = .ok f' := by
  induction args generalizing args' f with
  | nil =>
    obtain rfl := List.map_eq_nil_iff.1 h.symm
    exact hf
  | cons a args ih =>
    obtain ⟨a', rest', rfl, ha, hargs⟩ := List.map_eq_cons_iff.1 h.symm
    have hkey : a.key = a'.key := (congrArg AttributeArg.key ha.symm :)
    have hvalue : a.value = a'.value := (congrArg AttributeArg.value ha.symm :)
    unfold addInstances at hf ⊢
    rw [hkey, hvalue]
    cases hk : a'.key with
    | some key => simp only [hk] at hf; cases hf
    | none =>
      simp only [hk] at hf ⊢
      split at hf
      · cases hf
      · rename_i hnew
        rw [if_neg hnew]
        exact ih hargs.symm hf

theorem addAttribute_congr {a a' : Attribute} (h : a.unplaced = a'.unplaced)
    (hf : f.addAttribute a' = .ok f') : f.addAttribute a = .ok f' := by
  have hname : a.name = a'.name := (congrArg Attribute.name h :)
  have hargs : a.args.map (·.unplaced) = a'.args.map (·.unplaced) :=
    (congrArg Attribute.args h :)
  have hempty : a.args.isEmpty = a'.args.isEmpty := by
    rw [← List.isEmpty_map, hargs, List.isEmpty_map]
  unfold addAttribute at hf ⊢
  rw [hname]
  simp only at hf ⊢
  split at hf
  · split at hf
    · cases hf
    · obtain ⟨b, hb, hf⟩ := Tokens.bind_eq_ok.1 hf
      rw [Binding.ofArgs_congr hargs hb]
      exact hf
  · rw [hempty]
    split at hf
    · cases hf
    · rename_i hgeneric
      rw [if_neg hgeneric]
      split at hf
      · cases hf
      · rename_i hne
        rw [if_neg hne]
        exact addInstances_congr hargs hf
  · cases hf
  · cases hf

theorem addAttributes_congr {attrs attrs' : List Attribute}
    (h : attrs.map (·.unplaced) = attrs'.map (·.unplaced))
    (hf : f.addAttributes attrs' = .ok f') : f.addAttributes attrs = .ok f' := by
  induction attrs generalizing attrs' f with
  | nil =>
    obtain rfl := List.map_eq_nil_iff.1 h.symm
    exact hf
  | cons a attrs ih =>
    obtain ⟨a', rest', rfl, ha, hattrs⟩ := List.map_eq_cons_iff.1 h.symm
    unfold addAttributes at hf ⊢
    obtain ⟨g, hg, hf⟩ := Tokens.bind_eq_ok.1 hf
    rw [addAttribute_congr ha.symm hg]
    exact ih hattrs.symm hf

end Signature

/-! The attributes that spell a binding or a list of instances tell just these. -/

namespace Binding
variable {scope used : List String} {b b' : Binding} {a : AttributeArg} {args : List AttributeArg}

theorem ofArgs_cons {key : String} (hkey : a.key = some key) (hnew : key ∉ used)
    (hs : b.set scope a key = .ok b') :
    ofArgs scope b used (a :: args) = ofArgs scope b' (key :: used) args := by
  rw [ofArgs, hkey]
  simp only [if_neg hnew, hs]
  rfl

theorem strategyOf?_strategyWord (s : Strategy) : strategyOf? (strategyWord s) = some s := by
  cases s <;> rfl

theorem set_strategy (s : Strategy) (pos : Position) :
    b.set scope ⟨some "strategy", strategyWord s, true, pos⟩ "strategy" =
      .ok { b with strategy := s } := by
  simp only [set, strategyOf?_strategyWord]

theorem isPart_of {s : String} (h : s = "" ∨ Text.isIdentifier s = true) :
    (s.isEmpty || Text.isIdentifier s) = true := by
  rcases h with rfl | h
  · rfl
  · rw [h, Bool.or_true]

theorem set_highPrefix {s : String} (h : s = "" ∨ Text.isIdentifier s = true) (pos : Position) :
    b.set scope ⟨some "prefix_high", s, true, pos⟩ "prefix_high" =
      .ok { b with highPrefix := s } := by
  simp only [set, isPart_of h, if_true]

theorem set_lowPrefix {s : String} (h : s = "" ∨ Text.isIdentifier s = true) (pos : Position) :
    b.set scope ⟨some "prefix_low", s, true, pos⟩ "prefix_low" =
      .ok { b with lowPrefix := s } := by
  simp only [set, isPart_of h, if_true]

/-- The type of `c_ret` was read without a scope; its printed form is read in the right one. -/
theorem set_lowReturn {t : Ty} (ht : t.IsWritable) (hs : t.IsScoped scope) (pos : Position) :
    b.set scope ⟨some "c_ret", t.render, false, pos⟩ "c_ret" =
      .ok { b with lowReturn := some t } := by
  simp only [set, Ty.parse_rendered ht, Ty.inScope_of_isScoped hs]

theorem ofArgs_transform (hb : b.transform = none) (hnew : "map_fn" ∉ used) (s : Option String) :
    ofArgs scope b used (s.toList.map fun s => ⟨some "map_fn", s, true, .start⟩) =
      .ok { b with transform := s } := by
  cases s with
  | none =>
    cases b
    cases hb
    rfl
  | some s => exact ofArgs_cons rfl hnew rfl

/-- A binding is what its arguments spell. -/
theorem ofArgs_args (h : b.IsWritable scope) : ofArgs scope {} [] b.args = .ok b := by
  obtain ⟨strategy, highPrefix, lowPrefix, lowReturn, transform⟩ := b
  rw [args, List.append_assoc, List.cons_append, ofArgs_cons rfl (by decide) (set_strategy _ _),
    List.cons_append, ofArgs_cons rfl (by decide) (set_highPrefix h.highPrefix _),
    List.cons_append, ofArgs_cons rfl (by decide) (set_lowPrefix h.lowPrefix _), List.nil_append]
  cases lowReturn with
  | none => exact ofArgs_transform rfl (by decide) transform
  | some t =>
    obtain ⟨ht, hs⟩ := h.lowReturn t rfl
    rw [Option.toList_some, List.map_singleton, List.singleton_append,
      ofArgs_cons rfl (by decide) (set_lowReturn ht hs _)]
    exact ofArgs_transform rfl (by decide) transform

theorem isQuotable_of_isPart {s : String} (h : s = "" ∨ Text.isIdentifier s = true) :
    IsQuotable s := by
  rcases h with rfl | h
  · decide
  · have hno : ∀ c, Text.isNameChar c = false → c ∉ s.toList := by
      intro c hc hmem
      rw [isNameChar_of_mem h hmem] at hc
      cases hc
    exact ⟨hno _ (by decide), hno _ (by decide)⟩

theorem IsWritable.isWritable_args (h : b.IsWritable scope) : ∀ a ∈ b.args, a.IsWritable := by
  have hquoted : ∀ key value : String, IsIdent key → IsQuotable value →
      AttributeArg.IsWritable ⟨some key, value, true, .start⟩ := by
    intro key value hkey hvalue
    exact ⟨fun k hk => Option.some.inj hk ▸ hkey, fun _ => hvalue, nofun⟩
  have hstrategy : ∀ s : Strategy, IsQuotable (strategyWord s) := by
    intro s
    cases s <;> decide
  intro a ha
  simp only [args, List.mem_append, List.mem_cons, List.not_mem_nil, or_false, List.mem_map,
    Option.mem_toList] at ha
  rcases ha with ((rfl | rfl | rfl) | ⟨t, ht, rfl⟩) | ⟨s, hs, rfl⟩
  · exact hquoted _ _ (by decide) (hstrategy _)
  · exact hquoted _ _ (by decide) (isQuotable_of_isPart h.highPrefix)
  · exact hquoted _ _ (by decide) (isQuotable_of_isPart h.lowPrefix)
  · refine ⟨fun k hk => ?_, nofun, fun _ => ⟨t, (h.lowReturn t ht).1, rfl⟩⟩
    obtain rfl := Option.some.inj hk
    decide
  · exact hquoted _ _ (by decide) (h.transform s hs)

end Binding

namespace Signature
variable {f : Signature}

/-- The listed types are added after those already there. -/
theorem addInstances_of_nodup {values : List String} (h : (f.instances ++ values).Nodup) :
    f.addInstances (values.map fun s => ⟨none, s, false, .start⟩) =
      .ok { f with instances := f.instances ++ values } := by
  induction values generalizing f with
  | nil => rw [List.append_nil]; rfl
  | cons value values ih =>
    have hnew : value ∉ f.instances := fun hmem =>
      (List.nodup_append.1 h).2.2 value hmem value List.mem_cons_self rfl
    rw [List.map_cons, addInstances, if_neg hnew]
    have hmore := @ih { f with instances := f.instances ++ [value] } (by
      rwa [List.append_assoc, List.singleton_append])
    rw [hmore, List.append_assoc, List.singleton_append]

theorem addAttribute_binding {b : Binding} (hb : b.IsWritable f.scope) (hf : f.binding = none) :
    f.addAttribute ⟨"binding", b.args, .start⟩ = .ok { f with binding := some b } := by
  simp only [addAttribute, hf]
  have hargs : Binding.ofArgs (f.generics.map (·.name)) {} [] b.args = .ok b :=
    Binding.ofArgs_args hb
  rw [hargs]
  rfl

theorem addAttribute_instances {values : List String} (hf : f.instances = [])
    (hg : f.generics ≠ []) (hne : values ≠ []) (h : values.Nodup) :
    f.addAttribute ⟨"monomorphize", values.map fun s => ⟨none, s, false, .start⟩, .start⟩ =
      .ok { f with instances := values } := by
  have hgeneric : ¬(!f.isGeneric) = true := by simp [isGeneric, hg]
  have hargs : ¬(values.map fun s => (⟨none, s, false, .start⟩ : AttributeArg)).isEmpty = true := by
    simp [hne]
  simp only [addAttribute, if_neg hgeneric, if_neg hargs]
  have hadd := @addInstances_of_nodup f values (by rwa [hf, List.nil_append])
  rwa [hf, List.nil_append] at hadd

/-- The attributes of a function give it the binding and the instances that they spell. -/
theorem addAttributes_attributes (h : f.IsWritable) (pos : Position) :
    addAttributes { f with binding := none, instances := [], pos := pos } f.attributes =
      .ok { f with pos := pos } := by
  have hinstances : ∀ g : Signature, g.instances = [] → g.generics = f.generics →
      g.addAttributes (if f.instances = [] then []
        else [⟨"monomorphize", f.instances.map fun s => ⟨none, s, false, .start⟩, .start⟩]) =
        .ok { g with instances := f.instances } := by
    intro g hg hgenerics
    by_cases hne : f.instances = []
    · rw [if_pos hne, hne, ← hg]
      rfl
    · have hgen : g.generics ≠ [] := by
        rw [hgenerics]
        exact h.isGeneric hne
      rw [if_neg hne, addAttributes, addAttribute_instances hg hgen hne h.instances_nodup]
      rfl
  rw [attributes]
  cases hb : f.binding with
  | none =>
    rw [Option.toList_none, List.map_nil, List.nil_append]
    exact hinstances _ rfl rfl
  | some b =>
    have hbinding := @addAttribute_binding
      { f with binding := none, instances := [], pos := pos } b (h.binding b hb) rfl
    rw [Option.toList_some, List.map_singleton, List.singleton_append, addAttributes, hbinding]
    exact hinstances _ rfl rfl

theorem isWritable_attributes (h : f.IsWritable) : ∀ a ∈ f.attributes, a.IsWritable := by
  intro a ha
  rcases List.mem_append.1 ha with ha | ha
  · obtain ⟨b, hb, rfl⟩ := List.mem_map.1 ha
    have hb' : b.IsWritable f.scope := h.binding b (Option.mem_toList.1 hb)
    have hname : IsIdent "binding" := by decide
    exact ⟨hname, fun arg harg => hb'.isWritable_args arg harg⟩
  · split at ha
    · cases ha
    · obtain rfl := List.mem_singleton.1 ha
      have hname : IsIdent "monomorphize" := by decide
      refine ⟨hname, ?_⟩
      intro arg harg
      obtain ⟨s, hs, rfl⟩ := List.mem_map.1 harg
      exact ⟨nofun, nofun, fun _ => h.instances s hs⟩

end Signature

namespace Record
variable {r r' : Record}

theorem addAttributes_congr {attrs attrs' : List Attribute}
    (h : attrs.map (·.unplaced) = attrs'.map (·.unplaced))
    (hr : r.addAttributes attrs' = .ok r') : r.addAttributes attrs = .ok r' := by
  induction attrs generalizing attrs' r with
  | nil =>
    obtain rfl := List.map_eq_nil_iff.1 h.symm
    exact hr
  | cons a attrs ih =>
    obtain ⟨a', rest', rfl, ha, hattrs⟩ := List.map_eq_cons_iff.1 h.symm
    have hname : a.name = a'.name := (congrArg Attribute.name ha.symm :)
    have hargs : a.args.map (·.unplaced) = a'.args.map (·.unplaced) :=
      (congrArg Attribute.args ha.symm :)
    unfold addAttributes at hr ⊢
    rw [hname]
    split at hr
    · rename_i hlayout
      rw [if_pos hlayout]
      split at hr
      · rename_i isQuoted pos hc
        rw [hc] at hargs
        obtain ⟨arg, more, hargs', harg, hmore⟩ := List.map_eq_cons_iff.1 hargs
        obtain rfl := List.map_eq_nil_iff.1 hmore
        obtain ⟨key, value, isQuoted', pos'⟩ := arg
        cases harg
        rw [hargs']
        exact ih hattrs.symm hr
      · cases hr
    · cases hr

/-- The attributes of a record give it the layout that they spell. -/
theorem addAttributes_attributes (pos : Position) :
    addAttributes { name := r.name, pos } r.attributes =
      .ok { name := r.name, hasLayout := r.hasLayout, pos } := by
  rw [attributes]
  cases r.hasLayout <;> rfl

theorem isWritable_attributes : ∀ a ∈ r.attributes, a.IsWritable := by
  intro a ha
  rw [attributes] at ha
  split at ha
  · obtain rfl := List.mem_singleton.1 ha
    refine ⟨by decide, ?_⟩
    intro arg harg
    obtain rfl := List.mem_singleton.1 harg
    have hc : Name.IsPath "c" := by decide
    exact ⟨nofun, nofun, fun _ => ⟨.record "c", hc, rfl⟩⟩
  · cases ha

end Record
end Bindery
