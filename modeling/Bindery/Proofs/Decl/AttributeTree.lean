import Bindery.Proofs.Decl.Checked
import Bindery.Proofs.Decl.Spelling
import Bindery.Proofs.Ty.Derivation

/-!
# The grammar of attributes

Attributes are written in groups between square brackets. An attribute has a name and may have
arguments between round brackets, and an argument is a quoted text or a type, with or without a key.
What the reader takes for attributes is derived by this grammar.
-/
namespace Bindery
open Lexeme

/-- The value of an argument as it is written. -/
inductive ValueTree
  | quoted (value : String)
  | type (d : TypeTree)

namespace ValueTree

def lexemes : ValueTree → List Lexeme
  | quoted value => [.quoted value]
  | type d => d.lexemes

/-- A value as a text, where a type counts by its printed form. -/
def text : ValueTree → String
  | quoted value => value
  | type d => (d.type []).render

def isQuoted : ValueTree → Bool
  | quoted _ => true
  | type _ => false

/-- The type that a value tells within a scope. -/
def Denotes (scope : List String) : ValueTree → Ty → Prop
  | quoted value, t => Ty.parse value scope = .ok t
  | type d, t => d.type scope = t

/-- A value that can be written, with lengths that fit an array. -/
def IsProper : ValueTree → Prop
  | quoted _ => True
  | type d => d.IsSized ∧ (d.type []).IsWritable

end ValueTree

structure ArgTree where
  key : Option String
  value : ValueTree

namespace ArgTree

def lexemes (a : ArgTree) : List Lexeme :=
  match a.key with
  | some key => .ident key :: .punct .assign :: a.value.lexemes
  | none => a.value.lexemes

/-- What an argument tells. -/
def told (a : ArgTree) : AttributeArg := ⟨a.key, a.value.text, a.value.isQuoted, .start⟩

end ArgTree

/-- An attribute as it is written; one without round brackets has no list of arguments. -/
structure AttributeTree where
  name : String
  brackets : Option (List ArgTree)

namespace AttributeTree

def args (a : AttributeTree) : List ArgTree := a.brackets.getD []

def bracketLexemes : Option (List ArgTree) → List Lexeme
  | none => []
  | some args => .punct .roundOpen :: (commas (args.map (·.lexemes)) ++ [.punct .roundClose])

def lexemes (a : AttributeTree) : List Lexeme := .ident a.name :: bracketLexemes a.brackets

def IsProper (a : AttributeTree) : Prop := ∀ arg ∈ a.args, arg.value.IsProper

/-- What an attribute tells. -/
def told (a : AttributeTree) : Attribute := ⟨a.name, a.args.map (·.told), .start⟩

def groupLexemes (group : List AttributeTree) : List Lexeme :=
  .punct .squareOpen :: (commas (group.map (·.lexemes)) ++ [.punct .squareClose])

/-- Groups none of which is empty. -/
def AreGroups (groups : List (List AttributeTree)) : Prop :=
  ∀ group ∈ groups, group ≠ [] ∧ ∀ a ∈ group, a.IsProper

end AttributeTree

namespace Tokens
variable {x : Passage} {ts mid rest : Tokens} {ls : List Lexeme} {p : Punct}

theorem AreOf.of_begins (h : ts.AreOf x) (hls : Begins ls ts rest) : rest.AreOf x := by
  induction ls generalizing ts with
  | nil =>
    obtain rfl : ts = rest := hls
    exact h
  | cons l ls ih =>
    obtain ⟨_, _, rfl, hls⟩ := hls
    exact ih h.2 hls

theorem begins_of_punct? (h : ts.punct? p = .ok (true, rest)) : Begins [.punct p] ts rest := by
  unfold punct? at h
  split at h
  · split at h
    · cases h
      subst_vars
      exact ⟨_, _, rfl, rfl⟩
    · cases h
  · cases h
  · cases h

theorem eq_of_punct? (h : ts.punct? p = .ok (false, rest)) : rest = ts := by
  unfold punct? at h
  split at h
  · split at h
    · cases h
    · cases h
      rfl
  · cases h
  · cases h
    rfl

theorem begins_of_ident {name : String} (h : ts.ident = .ok (name, rest)) :
    Begins [.ident name] ts rest := by
  unfold ident at h
  split at h
  · cases h
    exact ⟨_, _, rfl, rfl⟩
  · exact absurd h unexpected_ne_ok

/-- Items separated by commas, each of which is derived, are derived as a list. -/
theorem exists_of_separated {α β γ : Type} {item : Rule (List α) α} {closing : Punct}
    {P : β → Prop} {spell : β → List Lexeme} {shows : α → γ} {tells : β → γ}
    (hitem : ∀ seen ts a rest, ts.AreOf x → item.run seen ts = .ok (a, rest) →
      ∃ b, P b ∧ Begins (spell b) ts rest ∧ shows a = tells b)
    {seen items : List α} (hts : ts.AreOf x)
    (h : separated item closing seen ts = .ok (items, rest)) :
    ∃ bs, bs ≠ [] ∧ (∀ b ∈ bs, P b) ∧
      Begins (commas (bs.map spell) ++ [.punct closing]) ts rest ∧
      items.map shows = seen.map shows ++ bs.map tells := by
  fun_induction separated item closing seen ts with
  | case1 | case2 | case4 => cases h
  | case3 seen ts a after hi _ hc =>
    cases h
    obtain ⟨b, hb, hbegins, hshows⟩ := hitem _ _ _ _ hts hi
    refine ⟨[b], List.cons_ne_nil _ _, by simpa using hb, ?_, by simp [hshows]⟩
    exact begins_append.2 ⟨after, hbegins, begins_of_punct? hc⟩
  | case5 seen ts a after hi atComma hc next hk ih =>
    obtain ⟨b, hb, hbegins, hshows⟩ := hitem _ _ _ _ hts hi
    obtain rfl := eq_of_punct? hc
    have hcomma := begins_of_punct hk
    obtain ⟨bs, hne, hbs, hmore, htold⟩ := ih ((hts.of_begins hbegins).of_begins hcomma) h
    obtain ⟨b', bs, rfl⟩ := List.exists_cons_of_ne_nil hne
    refine ⟨b :: b' :: bs, List.cons_ne_nil _ _, List.forall_mem_cons.2 ⟨hb, hbs⟩, ?_, ?_⟩
    · have hall := begins_append.2 ⟨_, begins_append.2 ⟨_, hbegins, hcomma⟩, hmore⟩
      simpa [commas] using hall
    · rw [htold]
      simp [hshows]

theorem exists_of_argValue {key : Option String} {pos : Position} {cause : Token → Cause}
    {arg : AttributeArg} (hts : ts.AreOf x) (h : ts.argValue key pos cause = .ok (arg, rest)) :
    ∃ v : ValueTree, v.IsProper ∧ Begins v.lexemes ts rest ∧ arg.unplaced = ArgTree.told ⟨key, v⟩ := by
  unfold argValue at h
  split at h
  · cases h
    exact ⟨.quoted _, trivial, ⟨_, _, rfl, rfl⟩, rfl⟩
  · split at h
    · cases h
    · exact absurd h failAt_ne_ok
    · rename_i t _ htype
      cases h
      obtain ⟨d, hd⟩ := exists_of_typeWithin htype
      obtain ⟨ls, hls, hlexemes⟩ := hd.begins
      rw [openings, List.nil_append] at hlexemes
      have hfits := ((reads_type? [] hts).of_ok htype).1 t rfl
      refine ⟨.type d, ⟨hd.isSized, ?_⟩, ?_, ?_⟩
      · rw [hd.type]
        exact hfits.1
      · rw [ValueTree.lexemes, hlexemes]
        exact hls
      · simp only [AttributeArg.unplaced, ArgTree.told, ValueTree.text, ValueTree.isQuoted, hd.type]

theorem exists_of_attributeArg {arg : AttributeArg} (hts : ts.AreOf x)
    (h : ts.attributeArg = .ok (arg, rest)) :
    ∃ a : ArgTree, a.value.IsProper ∧ Begins a.lexemes ts rest ∧ arg.unplaced = a.told := by
  obtain ⟨first, -, h⟩ := bind_eq_ok.1 h
  split at h
  · split at h
    · obtain ⟨v, hv, hbegins, htold⟩ := exists_of_argValue hts.2.2 h
      exact ⟨⟨some _, v⟩, hv, ⟨_, _, rfl, _, _, rfl, hbegins⟩, htold⟩
    · cases h
    · obtain ⟨v, hv, hbegins, htold⟩ := exists_of_argValue hts h
      exact ⟨⟨none, v⟩, hv, hbegins, htold⟩
  · obtain ⟨v, hv, hbegins, htold⟩ := exists_of_argValue hts h
    exact ⟨⟨none, v⟩, hv, hbegins, htold⟩

theorem exists_of_argList {args : List AttributeArg} (hts : ts.AreOf x)
    (h : ts.argList = .ok (args, rest)) :
    ∃ brackets : Option (List ArgTree), (∀ a ∈ brackets.getD [], a.value.IsProper) ∧
      Begins (AttributeTree.bracketLexemes brackets) ts rest ∧
      args.map (·.unplaced) = (brackets.getD []).map (·.told) := by
  obtain ⟨⟨opened, mid⟩, ho, h⟩ := bind_eq_ok.1 h
  cases opened with
  | false =>
    cases h
    obtain rfl := eq_of_punct? ho
    exact ⟨none, nofun, rfl, rfl⟩
  | true =>
    have hopen := begins_of_punct? ho
    obtain ⟨⟨closed, after⟩, hc, hargs⟩ := bind_eq_ok.1 h
    cases closed with
    | true =>
      cases hargs
      exact ⟨some [], nofun, begins_append.2 ⟨mid, hopen, begins_of_punct? hc⟩, rfl⟩
    | false =>
      obtain rfl := eq_of_punct? hc
      have hitem : ∀ seen ts a rest, ts.AreOf x → attributeArgs.run seen ts = .ok (a, rest) →
          ∃ b : ArgTree, b.value.IsProper ∧ Begins b.lexemes ts rest ∧ a.unplaced = b.told :=
        fun _ _ _ _ hts hi => exists_of_attributeArg hts hi
      obtain ⟨as, -, hproper, hbegins, htold⟩ :=
        exists_of_separated hitem (hts.of_begins hopen) hargs
      exact ⟨some as, hproper, begins_append.2 ⟨_, hopen, hbegins⟩, htold⟩

theorem exists_of_oneAttribute {a : Attribute} (hts : ts.AreOf x)
    (h : ts.oneAttribute = .ok (a, rest)) :
    ∃ t : AttributeTree, t.IsProper ∧ Begins t.lexemes ts rest ∧ a.unplaced = t.told := by
  obtain ⟨first, -, h⟩ := bind_eq_ok.1 h
  obtain ⟨⟨name, mid⟩, hi, h⟩ := bind_eq_ok.1 h
  obtain ⟨⟨args, after⟩, ha, ⟨⟩⟩ := bind_eq_ok.1 h
  have hname := begins_of_ident hi
  obtain ⟨brackets, hproper, hbegins, htold⟩ := exists_of_argList (hts.of_begins hname) ha
  refine ⟨⟨name, brackets⟩, hproper, begins_append.2 ⟨mid, hname, hbegins⟩, ?_⟩
  simp only [Attribute.unplaced, htold, AttributeTree.told, AttributeTree.args]

/-- The attributes that are read in front of a declaration are derived, group by group. -/
theorem exists_of_attributes {seen all : List Attribute} (hts : ts.AreOf x)
    (h : ts.attributes seen = .ok (all, rest)) :
    ∃ groups, AttributeTree.AreGroups groups ∧
      Begins (groups.flatMap AttributeTree.groupLexemes) ts rest ∧
      all.map (·.unplaced) = seen.map (·.unplaced) ++ groups.flatten.map (·.told) := by
  fun_induction attributes seen ts with
  | case1 | case3 => cases h
  | case2 seen ts after hb =>
    cases h
    obtain rfl := eq_of_punct? hb
    exact ⟨[], List.forall_mem_nil _, rfl, by simp⟩
  | case4 seen ts inner hb next after hs ih =>
    have hopen := begins_of_punct? hb
    have hitem : ∀ seen ts a rest, ts.AreOf x → attributeGroup.run seen ts = .ok (a, rest) →
        ∃ t : AttributeTree, t.IsProper ∧ Begins t.lexemes ts rest ∧ a.unplaced = t.told :=
      fun _ _ _ _ hts hi => exists_of_oneAttribute hts hi
    obtain ⟨group, hne, hproper, hbegins, htold⟩ :=
      exists_of_separated hitem (hts.of_begins hopen) hs
    have hgroup : Begins (AttributeTree.groupLexemes group) ts after :=
      begins_append.2 ⟨inner, hopen, hbegins⟩
    obtain ⟨groups, hgroups, hmore, hall⟩ := ih (hts.of_begins hgroup) h
    refine ⟨group :: groups, List.forall_mem_cons.2 ⟨⟨hne, hproper⟩, hgroups⟩,
      begins_append.2 ⟨after, hgroup, hmore⟩, ?_⟩
    rw [hall, htold]
    simp

end Tokens
end Bindery
