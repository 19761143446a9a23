import Bindery.Proofs.Decl.Attributes

/-!
# The tokens of declarations have spellings

Every token of declarations that can be written is printable, so that their text is read as these
tokens.
-/
namespace Bindery
namespace Lexeme

def ArePrintable (ls : List Lexeme) : Prop := ∀ l ∈ ls, l.IsPrintable

variable {l : Lexeme} {ls ms : List Lexeme}

theorem arePrintable_nil : ArePrintable [] := nofun

theorem arePrintable_cons (hl : l.IsPrintable) (h : ArePrintable ls) : ArePrintable (l :: ls) := by
  intro m hm
  rcases List.mem_cons.1 hm with rfl | hm
  · exact hl
  · exact h m hm

theorem arePrintable_append (h : ArePrintable ls) (h' : ArePrintable ms) :
    ArePrintable (ls ++ ms) := by
  intro m hm
  rcases List.mem_append.1 hm with hm | hm
  · exact h m hm
  · exact h' m hm

theorem arePrintable_flatMap {α : Type} {as : List α} {spell : α → List Lexeme}
    (h : ∀ a ∈ as, ArePrintable (spell a)) : ArePrintable (as.flatMap spell) := by
  intro m hm
  obtain ⟨a, ha, hm⟩ := List.mem_flatMap.1 hm
  exact h a ha m hm

theorem arePrintable_commas {α : Type} {as : List α} {spell : α → List Lexeme}
    (h : ∀ a ∈ as, ArePrintable (spell a)) : ArePrintable (commas (as.map spell)) := by
  induction as with
  | nil => exact arePrintable_nil
  | cons a as ih =>
    have ha := h a List.mem_cons_self
    have has := ih fun b hb => h b (List.mem_cons_of_mem _ hb)
    cases as with
    | nil => exact ha
    | cons b as => exact arePrintable_append ha (arePrintable_cons trivial has)

end Lexeme

open Lexeme

namespace Attribute

theorem arePrintable_arg {a : AttributeArg} (ha : a.IsWritable) : ArePrintable a.lexemes := by
  have hvalue : ArePrintable a.valueLexemes := by
    rcases Tokens.valueLexemes_cases ha with ⟨hq, hl⟩ | ⟨t, ht, -, -, hl⟩
    · rw [hl]
      exact arePrintable_cons (ha.2.1 hq) arePrintable_nil
    · rw [hl]
      exact fun l hl => Ty.isPrintable_lexemes ht hl
  rw [AttributeArg.lexemes]
  cases hkey : a.key with
  | none => exact hvalue
  | some key => exact arePrintable_cons (ha.1 key hkey) (arePrintable_cons trivial hvalue)

theorem arePrintable_lexemes {a : Attribute} (ha : a.IsWritable) : ArePrintable a.lexemes := by
  refine arePrintable_cons ha.1 ?_
  cases hargs : a.args with
  | nil => exact arePrintable_nil
  | cons arg args =>
    have hcommas := arePrintable_commas fun b hb => arePrintable_arg (ha.2 b hb)
    rw [hargs] at hcommas
    exact arePrintable_cons trivial
      (arePrintable_append hcommas (arePrintable_cons trivial arePrintable_nil))

theorem arePrintable_group {attrs : List Attribute} (h : ∀ a ∈ attrs, a.IsWritable) :
    ArePrintable (groupLexemes attrs) := by
  cases attrs with
  | nil => exact arePrintable_nil
  | cons attr attrs =>
    exact arePrintable_cons trivial (arePrintable_append
      (arePrintable_commas fun b hb => arePrintable_lexemes (h b hb))
      (arePrintable_cons trivial arePrintable_nil))

end Attribute

namespace Param
variable {scope : List String} {ps : List Param}

theorem arePrintable_lexemes {p : Param} (hp : p.IsWritable scope) : ArePrintable p.lexemes :=
  arePrintable_cons hp.1 (arePrintable_cons trivial fun _ hl => Ty.isPrintable_lexemes hp.2.1 hl)

theorem arePrintable_list (h : AreWritable scope ps) : ArePrintable (listLexemes ps) :=
  arePrintable_cons trivial (arePrintable_append
    (arePrintable_commas fun p hp => arePrintable_lexemes (h.1 p hp))
    (arePrintable_cons trivial arePrintable_nil))

theorem arePrintable_more (h : AreWritable scope ps) : ArePrintable (moreLexemes ps) :=
  arePrintable_append
    (arePrintable_flatMap fun p hp => arePrintable_cons trivial (arePrintable_lexemes (h.1 p hp)))
    (arePrintable_cons trivial arePrintable_nil)

end Param

theorem Name.arePrintable_lexemes {name : String} (h : IsPath name) :
    ArePrintable (lexemes name) := fun _ hl => isPrintable_lexemes h hl

theorem Generic.arePrintable_list {gs : List Generic} (h : ∀ g ∈ gs, g.IsWritable) :
    ArePrintable (listLexemes gs) := by
  have hone : ∀ g ∈ gs, ArePrintable g.lexemes := by
    intro g hg
    refine arePrintable_cons (h g hg).1 ?_
    cases hbounds : g.bounds with
    | nil => exact arePrintable_nil
    | cons b bs =>
      have hb : ∀ c ∈ b :: bs, Name.IsPath c := hbounds ▸ (h g hg).2
      exact arePrintable_cons trivial (arePrintable_append
        (Name.arePrintable_lexemes (hb b List.mem_cons_self))
        (arePrintable_flatMap fun c hc => arePrintable_cons trivial
          (Name.arePrintable_lexemes (hb c (List.mem_cons_of_mem _ hc)))))
  cases gs with
  | nil => exact arePrintable_nil
  | cons g gs =>
    exact arePrintable_cons trivial (arePrintable_append (arePrintable_commas hone)
      (arePrintable_cons trivial arePrintable_nil))

theorem Ty.arePrintable_return {t : Ty} (h : t.IsWritable) : ArePrintable t.returnLexemes := by
  rw [returnLexemes]
  split
  · exact arePrintable_nil
  · exact arePrintable_cons trivial fun _ hl => isPrintable_lexemes h hl

theorem Signature.arePrintable_lexemes {f : Signature} (h : f.IsWritable) :
    ArePrintable f.lexemes := by
  have hasync : ArePrintable (if f.isAsync then [.keyword .async] else []) := by
    split
    · exact arePrintable_cons trivial arePrintable_nil
    · exact arePrintable_nil
  have htail : ArePrintable f.tailLexemes :=
    arePrintable_cons h.name (arePrintable_append (Generic.arePrintable_list h.generics)
      (arePrintable_append (Param.arePrintable_list h.params)
        (arePrintable_append (Ty.arePrintable_return h.ret.1)
          (arePrintable_cons trivial arePrintable_nil))))
  exact arePrintable_append (Attribute.arePrintable_group (isWritable_attributes h))
    (arePrintable_append hasync (arePrintable_cons trivial htail))

theorem Record.arePrintable_lexemes {r : Record} (h : r.IsWritable) : ArePrintable r.lexemes := by
  have hbody : ArePrintable r.bodyLexemes := by
    rw [bodyLexemes]
    split
    · exact arePrintable_cons trivial (arePrintable_append
        (arePrintable_flatMap fun p hp => arePrintable_append
          (Param.arePrintable_lexemes (h.fields.1 p hp))
          (arePrintable_cons trivial arePrintable_nil))
        (arePrintable_cons trivial arePrintable_nil))
    · exact arePrintable_cons trivial arePrintable_nil
  exact arePrintable_append (Attribute.arePrintable_group isWritable_attributes)
    (arePrintable_cons trivial (arePrintable_append (Name.arePrintable_lexemes h.name) hbody))

theorem Enum.arePrintable_lexemes {e : Enum} (h : e.IsWritable) : ArePrintable e.lexemes := by
  have hitems : ArePrintable (commas (e.items.map itemLexemes)) :=
    arePrintable_commas fun i hi => arePrintable_cons (h.items i hi).1
      (arePrintable_cons trivial (arePrintable_cons ⟨i.2, rfl⟩ arePrintable_nil))
  exact arePrintable_cons trivial (arePrintable_cons h.name (arePrintable_cons trivial
    (arePrintable_cons trivial (arePrintable_cons trivial
      (arePrintable_append hitems (arePrintable_cons trivial arePrintable_nil))))))

namespace Handle

theorem arePrintable_symbol {symbol : String} (h : IsIdent symbol) :
    ArePrintable (symbolLexemes symbol) :=
  arePrintable_cons trivial (arePrintable_cons h (arePrintable_cons trivial arePrintable_nil))

theorem arePrintable_lexemes {d : Handle} (h : d.IsWritable) : ArePrintable d.lexemes := by
  have hconstructors : ArePrintable (d.constructors.flatMap constructorLexemes) := by
    apply arePrintable_flatMap
    intro c hc
    obtain ⟨hname, hparams, hsymbol⟩ := h.constructors c hc
    exact arePrintable_cons trivial (arePrintable_cons hname
      (arePrintable_append (Param.arePrintable_list hparams) (arePrintable_symbol hsymbol)))
  have hdestructor : ArePrintable (d.destructor.toList.flatMap destructorLexemes) := by
    apply arePrintable_flatMap
    intro s hs
    obtain ⟨symbol, hd, hsymbol⟩ := h.destructor
    rw [hd] at hs
    obtain rfl := List.mem_singleton.1 hs
    exact arePrintable_cons trivial (arePrintable_symbol hsymbol)
  have hmethods : ArePrintable (d.methods.flatMap methodLexemes) := by
    apply arePrintable_flatMap
    intro m hm
    obtain ⟨hname, hparams, hret, -, hsymbol⟩ := h.methods m hm
    have hself : ArePrintable (selfLexemes m.mutable) := by
      cases m.mutable
      · exact arePrintable_cons trivial arePrintable_nil
      · exact arePrintable_cons trivial (arePrintable_cons trivial arePrintable_nil)
    exact arePrintable_cons trivial (arePrintable_cons hname (arePrintable_cons trivial
      (arePrintable_append hself (arePrintable_append (Param.arePrintable_more hparams)
        (arePrintable_append (Ty.arePrintable_return hret) (arePrintable_symbol hsymbol))))))
  exact arePrintable_cons trivial (arePrintable_cons h.name (arePrintable_cons trivial
    (arePrintable_append hconstructors (arePrintable_append hdestructor
      (arePrintable_append hmethods (arePrintable_cons trivial arePrintable_nil))))))

end Handle

theorem Declarations.arePrintable_lexemes {ds : Declarations} (h : ds.IsWritable) :
    ArePrintable ds.lexemes := by
  have hmodule : ArePrintable (moduleLexemes ds.modulePath) := by
    cases hpath : ds.modulePath with
    | nil => exact arePrintable_nil
    | cons part parts =>
      have hparts : ∀ p ∈ part :: parts, IsIdent p := hpath ▸ h.modulePath
      exact arePrintable_cons trivial (arePrintable_cons (hparts part List.mem_cons_self)
        (arePrintable_append (arePrintable_flatMap fun p hp => arePrintable_cons trivial
          (arePrintable_cons (hparts p (List.mem_cons_of_mem _ hp)) arePrintable_nil))
          (arePrintable_cons trivial arePrintable_nil)))
  exact arePrintable_append hmodule
    (arePrintable_append
      (arePrintable_flatMap fun r hr => Record.arePrintable_lexemes (h.records r hr))
      (arePrintable_append
        (arePrintable_flatMap fun e he => Enum.arePrintable_lexemes (h.enums e he))
        (arePrintable_append
          (arePrintable_flatMap fun f hf => Signature.arePrintable_lexemes (h.functions f hf))
          (arePrintable_flatMap fun d hd => Handle.arePrintable_lexemes (h.handles d hd)))))

end Bindery
