import Bindery.Proofs.Decl.Configuration
import Bindery.Proofs.Decl.Sound
import Bindery.Proofs.Decl.Ungrouped

/-!
# No attribute is ignored

An accepted text is a sequence of statements, of which only functions and structs have attributes.
Each bracket of the text that opens a group of attributes belongs to one of these, and what the text
declares is configured by all attributes in front of it and by nothing else.
-/
namespace Bindery
open Lexeme

/-- A function as it is written: its attributes, its name and the tokens after it. -/
structure FunctionTree where
  groups : List (List AttributeTree)
  isAsync : Bool
  name : String
  body : List Lexeme

/-- A struct as it is written: its attributes, the parts of its name and the tokens after it. -/
structure RecordTree where
  groups : List (List AttributeTree)
  first : String
  parts : List String
  body : List Lexeme

/-- A statement as it is written; only functions and structs have attributes. -/
inductive StatementTree
  | semicolon
  | module (body : List Lexeme)
  | function (t : FunctionTree)
  | record (t : RecordTree)
  | enum (body : List Lexeme)
  | handle (body : List Lexeme)

namespace StatementTree

def groups : StatementTree → List (List AttributeTree)
  | function t => t.groups
  | record t => t.groups
  | _ => []

/-- The tokens of a statement after its attributes. -/
def tail : StatementTree → List Lexeme
  | semicolon => [.punct .semicolon]
  | module body => .keyword .moduleName :: body
  | function t => (if t.isAsync then [.keyword .async] else []) ++
      .keyword .fn :: .ident t.name :: t.body
  | record t => .keyword .struct :: .ident t.first :: (partLexemes t.parts ++ t.body)
  | enum body => .keyword .enum :: body
  | handle body => .keyword .handle :: body

def lexemes (s : StatementTree) : List Lexeme :=
  s.groups.flatMap AttributeTree.groupLexemes ++ s.tail

/-- Groups of attributes, after which no other group begins within the statement. -/
def IsProper (s : StatementTree) : Prop := AttributeTree.AreGroups s.groups ∧ AreUngrouped s.tail

def function? : StatementTree → Option FunctionTree
  | function t => some t
  | _ => none

def record? : StatementTree → Option RecordTree
  | record t => some t
  | _ => none

end StatementTree

/-- A function with the name and the configuration that are written. -/
structure Signature.IsWrittenAs (f : Signature) (t : FunctionTree) : Prop where
  name : f.name = t.name
  isAsync : f.isAsync = t.isAsync
  isConfigured : f.IsConfiguredBy t.groups.flatten

/-- A record with the name and the configuration that are written. -/
structure Record.IsWrittenAs (r : Record) (t : RecordTree) : Prop where
  name : r.name = pathName t.first t.parts
  isConfigured : r.IsConfiguredBy t.groups.flatten

/-- Declarations whose functions and records are those of some statements, in their order. -/
structure Declarations.AreWrittenAs (ds : Declarations) (ss : List StatementTree) : Prop where
  isProper : ∀ s ∈ ss, s.IsProper
  functions : List.Forall₂ Signature.IsWrittenAs ds.functions (ss.filterMap (·.function?))
  records : List.Forall₂ Record.IsWrittenAs ds.records (ss.filterMap (·.record?))

/-- What the statement is about is declared, with the name and the configuration that are written;
of a statement that has no attributes nothing is said. -/
def StatementTree.IsApplied (ds : Declarations) : StatementTree → Prop
  | .function t => ∃ f ∈ ds.functions, f.IsWrittenAs t
  | .record t => ∃ r ∈ ds.records, r.IsWrittenAs t
  | _ => False

theorem exists_of_forall₂ {α β : Type} {R : α → β → Prop} {as : List α} {bs : List β} {b : β}
    (h : List.Forall₂ R as bs) (hb : b ∈ bs) : ∃ a ∈ as, R a b := by
  induction h with
  | nil => cases hb
  | @cons a c as bs hac _ ih =>
    rcases List.mem_cons.1 hb with rfl | hb
    · exact ⟨a, List.mem_cons_self, hac⟩
    · obtain ⟨a', ha', hab⟩ := ih hb
      exact ⟨a', List.mem_cons_of_mem a ha', hab⟩

/-- Attributes are those of a function or a struct that is declared. -/
theorem Declarations.AreWrittenAs.isApplied {ds : Declarations} {ss : List StatementTree}
    {s : StatementTree} (h : ds.AreWrittenAs ss) (hs : s ∈ ss) (hgroups : s.groups ≠ []) :
    s.IsApplied ds := by
  cases s with
  | function t => exact exists_of_forall₂ h.functions (List.mem_filterMap.2 ⟨_, hs, rfl⟩)
  | record t => exact exists_of_forall₂ h.records (List.mem_filterMap.2 ⟨_, hs, rfl⟩)
  | semicolon | module | enum | handle => exact absurd rfl hgroups

/-! ### Where groups begin -/

namespace Lexeme
variable {l : Lexeme} {front back : List Lexeme}

theorem areUngrouped_commas {lss : List (List Lexeme)} (h : ∀ ls ∈ lss, AreUngrouped ls) :
    AreUngrouped (commas lss) := by
  induction lss with
  | nil => trivial
  | cons ls lss ih =>
    rw [List.forall_mem_cons] at h
    cases lss with
    | nil => exact h.1
    | cons ms lss => exact h.1.append (ih h.2)

theorem areUngrouped_value (v : ValueTree) : AreUngrouped v.lexemes := by
  cases v with
  | quoted value => trivial
  | type d => exact Tokens.areUngrouped_type d

theorem areUngrouped_arg (a : ArgTree) : AreUngrouped a.lexemes := by
  obtain ⟨key, v⟩ := a
  cases key with
  | none => exact areUngrouped_value v
  | some key => exact areUngrouped_value v

theorem areUngrouped_attribute (a : AttributeTree) : AreUngrouped a.lexemes := by
  obtain ⟨name, brackets⟩ := a
  cases brackets with
  | none => trivial
  | some args =>
    have hargs : AreUngrouped (commas (args.map (·.lexemes))) := by
      refine areUngrouped_commas fun ls hls => ?_
      obtain ⟨a, -, rfl⟩ := List.mem_map.1 hls
      exact areUngrouped_arg a
    have hclose : AreUngrouped [.punct .roundClose] := trivial
    exact hargs.append hclose

/-- Within a group no other group begins. -/
theorem areUngrouped_group (group : List AttributeTree) :
    AreUngrouped (commas (group.map (·.lexemes)) ++ [.punct .squareClose]) := by
  refine AreUngrouped.append (areUngrouped_commas fun ls hls => ?_) trivial
  obtain ⟨a, -, rfl⟩ := List.mem_map.1 hls
  exact areUngrouped_attribute a

/-- A bracket that no number follows is the first token of one of the groups, or stands after
them. -/
theorem groups_split {groups : List (List AttributeTree)} {ms : List Lexeme}
    (hl : ∀ digits, l ≠ .number digits)
    (h : groups.flatMap AttributeTree.groupLexemes ++ ms =
      front ++ .punct .squareOpen :: l :: back) :
    (∃ before group after, groups = before ++ group :: after ∧
      front = before.flatMap AttributeTree.groupLexemes) ∨
    ∃ front', front = groups.flatMap AttributeTree.groupLexemes ++ front' ∧
      ms = front' ++ .punct .squareOpen :: l :: back := by
  induction groups generalizing front with
  | nil => exact .inr ⟨front, rfl, h⟩
  | cons group groups ih =>
    cases front with
    | nil => exact .inl ⟨[], group, groups, rfl, rfl⟩
    | cons k front =>
      rw [List.flatMap_cons, List.append_assoc, AttributeTree.groupLexemes, List.cons_append,
        List.cons_append] at h
      obtain ⟨rfl, hinner⟩ := List.cons.inj h
      obtain ⟨front', rfl, hgroups⟩ := (areUngrouped_group group).split hl hinner
      rcases ih hgroups with ⟨before, group', after, rfl, rfl⟩ | ⟨front', rfl, rfl⟩
      · exact .inl ⟨group :: before, group', after, rfl, by
          simp [AttributeTree.groupLexemes]⟩
      · exact .inr ⟨front', by simp [AttributeTree.groupLexemes], rfl⟩

/-- Each bracket that opens a group of attributes opens one of a function or a struct. -/
theorem statements_split {ss : List StatementTree} (hss : ∀ s ∈ ss, s.IsProper)
    (hl : ∀ digits, l ≠ .number digits)
    (h : ss.flatMap (·.lexemes) = front ++ .punct .squareOpen :: l :: back) :
    ∃ before s after groups group more, ss = before ++ s :: after ∧
      s.groups = groups ++ group :: more ∧
      front = before.flatMap (·.lexemes) ++ groups.flatMap AttributeTree.groupLexemes := by
  induction ss generalizing front with
  | nil => exact absurd (congrArg List.length h) (by simp)
  | cons s ss ih =>
    rw [List.forall_mem_cons] at hss
    rw [List.flatMap_cons, StatementTree.lexemes, List.append_assoc] at h
    rcases groups_split hl h with ⟨groups, group, more, hgroups, rfl⟩ | ⟨front', rfl, htail⟩
    · exact ⟨[], s, ss, groups, group, more, rfl, hgroups, rfl⟩
    · obtain ⟨front'', rfl, hmore⟩ := hss.1.2.split hl htail
      obtain ⟨before, s', after, groups, group, more, rfl, hgroups, rfl⟩ := ih hss.2 hmore
      refine ⟨s :: before, s', after, groups, group, more, rfl, hgroups, ?_⟩
      simp [StatementTree.lexemes]

end Lexeme

/-! ### Statements as they are read -/

namespace Tokens
variable {x : Passage} {ts mid rest : Tokens} {ds ds' : Declarations} {attrs : List Attribute}
  {groups : List (List AttributeTree)} {pos : Position}

/-- A signature begins with the name of the function. -/
theorem begins_of_signature {isAsync : Bool} {f : Signature}
    (h : ts.signature isAsync pos = .ok (f, rest)) :
    (∃ body, Begins (.ident f.name :: body) ts rest ∧ AreUngrouped body) ∧
      f.isAsync = isAsync ∧ f.binding = none ∧ f.instances = [] := by
  obtain ⟨⟨name, after⟩, hi, h⟩ := bind_eq_ok.1 h
  obtain ⟨_, hg, h⟩ := bind_eq_ok.1 h
  obtain ⟨_, ho, h⟩ := bind_eq_ok.1 h
  obtain ⟨_, hp, h⟩ := bind_eq_ok.1 h
  obtain ⟨_, hr, h⟩ := bind_eq_ok.1 h
  obtain ⟨_, hs, h⟩ := bind_eq_ok.1 h
  cases h
  have hfront := (readsPlainly_genericList _ _ hg).trans (plainly_punct (by decide) ho)
  have htypes := (readsPlainly_paramList _ _ hp).trans (readsPlainly_returnType _ _ hr)
  obtain ⟨body, hbody, hplain⟩ := (hfront.trans htypes).trans (plainly_punct (by decide) hs)
  exact ⟨⟨body, begins_append.2 ⟨after, begins_of_ident hi, hbody⟩, hplain⟩, rfl, rfl, rfl⟩

theorem exists_of_function {isAsync : Bool} (hgroups : AttributeTree.AreGroups groups)
    (htold : attrs.map (·.unplaced) = groups.flatten.map (·.told))
    (h : ts.function ds attrs isAsync pos = .ok (ds', rest)) :
    ∃ (f : Signature) (t : FunctionTree), f.IsWrittenAs t ∧ t.groups = groups ∧
      t.isAsync = isAsync ∧ AreUngrouped t.body ∧ Begins (.ident t.name :: t.body) ts rest ∧
      ds' = { ds with functions := ds.functions ++ [f] } := by
  obtain ⟨⟨f, after⟩, hf, h⟩ := bind_eq_ok.1 h
  obtain ⟨g, hg, h⟩ := bind_eq_ok.1 h
  split at h
  · cases h
  · cases h
    obtain ⟨⟨body, hbegins, hplain⟩, hasync, hbinding, hinstances⟩ := begins_of_signature hf
    have hunplaced := f.addAttributes_unplaced attrs
    rw [hg, htold] at hunplaced
    have hproper : ∀ a ∈ groups.flatten, a.IsProper := by
      intro a ha
      obtain ⟨group, hgroup, ha⟩ := List.mem_flatten.1 ha
      exact (hgroups group hgroup).2 a ha
    obtain ⟨hconfigured, hname, hasync'⟩ :=
      Signature.isConfiguredBy_of_addAttributes (f := f.unplaced) hproper hbinding hinstances hunplaced
    have hname' : g.name = f.name := hname
    refine ⟨g, ⟨groups, isAsync, f.name, body⟩, ⟨hname', hasync'.trans hasync, ?_⟩, rfl, rfl,
      hplain, hbegins, rfl⟩
    exact ⟨hconfigured.known, hconfigured.binding, hconfigured.lists, hconfigured.instances⟩

/-- Fields do not change what the attributes of a struct have told. -/
theorem block_fields {r r' : Record} (h : block fields .curlyClose r ts = .ok (r', rest)) :
    r'.name = r.name ∧ r'.hasLayout = r.hasLayout := by
  have hfield : ∀ {r r' : Record} {ts rest : Tokens}, fields.run r ts = .ok (r', rest) →
      r'.name = r.name ∧ r'.hasLayout = r.hasLayout := by
    intro r r' ts rest h
    change ts.newField r = _ at h
    unfold newField at h
    split at h
    · cases h
    · exact absurd h failAt_ne_ok
    · split at h
      · cases h
      · split at h
        · exact absurd h failAt_ne_ok
        · cases h
          exact ⟨rfl, rfl⟩
  fun_induction block fields .curlyClose r ts with
  | case1 | case3 => cases h
  | case2 => cases h; exact ⟨rfl, rfl⟩
  | case4 r ts _ _ _ _ hi ih =>
    obtain ⟨hname, hlayout⟩ := ih h
    obtain ⟨hname', hlayout'⟩ := hfield hi
    exact ⟨hname.trans hname', hlayout.trans hlayout'⟩

theorem exists_of_struct {r : Record} (hgroups : AttributeTree.AreGroups groups)
    (htold : attrs.map (·.unplaced) = groups.flatten.map (·.told))
    (h : ts.struct attrs pos = .ok (r, rest)) :
    ∃ t : RecordTree, r.IsWrittenAs t ∧ t.groups = groups ∧ AreUngrouped t.body ∧
      Begins (.ident t.first :: (partLexemes t.parts ++ t.body)) ts rest := by
  obtain ⟨⟨name, after⟩, hpath, hrest⟩ := bind_eq_ok.1 h
  obtain ⟨⟨first, mid⟩, hi, hpathFrom⟩ := bind_eq_ok.1 hpath
  obtain ⟨parts, hparts, rfl⟩ := exists_of_pathFrom hpathFrom
  obtain ⟨q, hq, h⟩ := bind_eq_ok.1 hrest
  have hname := begins_append.2 ⟨mid, begins_of_ident hi, hparts⟩
  have hunplaced := Record.addAttributes_unplaced ⟨pathName first parts, [], false, false, pos⟩ attrs
  rw [hq, htold] at hunplaced
  have hproper : ∀ a ∈ groups.flatten, a.IsProper := by
    intro a ha
    obtain ⟨group, hgroup, ha⟩ := List.mem_flatten.1 ha
    exact (hgroups group hgroup).2 a ha
  obtain ⟨⟨hknown, hlayout⟩, hqname⟩ :=
    Record.isConfiguredBy_of_addAttributes hproper rfl hunplaced
  have hqname' : q.name = pathName first parts := hqname
  have hqlayout : q.hasLayout = true ↔ groups.flatten ≠ [] := hlayout
  have hwritten : ∀ body, r.name = q.name → r.hasLayout = q.hasLayout →
      r.IsWrittenAs ⟨groups, first, parts, body⟩ := fun body hname hlayout =>
    ⟨hname.trans hqname', hknown, by rw [hlayout]; exact hqlayout⟩
  obtain ⟨⟨ends, atBody⟩, hs, hbody⟩ := bind_eq_ok.1 h
  cases ends with
  | true =>
    cases hbody
    refine ⟨⟨groups, first, parts, [.punct .semicolon]⟩, hwritten _ rfl rfl, rfl, trivial, ?_⟩
    exact begins_append.2 ⟨after, hname, begins_of_punct? hs⟩
  | false =>
    obtain rfl := eq_of_punct? hs
    dsimp only at hbody
    split at hbody
    · cases hbody
    · obtain ⟨inner, ho, h⟩ := bind_eq_ok.1 hbody
      obtain ⟨⟨r', last⟩, hb, h⟩ := bind_eq_ok.1 h
      dsimp only at h
      split at h
      · cases h
      · cases h
        obtain ⟨hrname, hrlayout⟩ := block_fields hb
        have hfields := readsPlainly_block (by decide) (fun r _ => readsPlainly_newField r) _ _ _ _ hb
        obtain ⟨body, hbody, hplain⟩ := (plainly_punct (by decide) ho).trans hfields
        refine ⟨⟨groups, first, parts, body⟩, hwritten _ hrname hrlayout, rfl, hplain, ?_⟩
        exact begins_append.2 ⟨_, hname, hbody⟩

theorem eq_nil_of_refuse {owner : Owner} {name : String} {u : Unit}
    (hgroups : AttributeTree.AreGroups groups)
    (htold : attrs.map (·.unplaced) = groups.flatten.map (·.told))
    (h : Attribute.refuse owner name attrs = .ok u) : groups = [] := by
  cases attrs with
  | cons a attrs => cases h
  | nil =>
    cases groups with
    | nil => rfl
    | cons group groups =>
      obtain ⟨a, group, rfl⟩ := List.exists_cons_of_ne_nil (hgroups group List.mem_cons_self).1
      cases htold

/-- A statement that adds a function, a record or neither to the declarations before it. -/
def Adds (s : StatementTree) (ds ds' : Declarations) : Prop :=
  (∃ fs, ds'.functions = ds.functions ++ fs ∧
    List.Forall₂ Signature.IsWrittenAs fs s.function?.toList) ∧
  ∃ rs, ds'.records = ds.records ++ rs ∧ List.Forall₂ Record.IsWrittenAs rs s.record?.toList

theorem exists_of_declaration? (hgroups : AttributeTree.AreGroups groups)
    (htold : attrs.map (·.unplaced) = groups.flatten.map (·.told))
    (h : ts.declaration? ds attrs = .ok (some ds', rest)) :
    ∃ s : StatementTree, s.groups = groups ∧ AreUngrouped s.tail ∧ Begins s.tail ts rest ∧
      Adds s ds ds' := by
  have hfunction : ∀ (isAsync : Bool) {pos : Position} {front : List Lexeme} {mid : Tokens},
      front = (if isAsync then [.keyword .async] else []) ++ [.keyword .fn] → Begins front ts mid →
      (mid.function ds attrs isAsync pos >>= fun r => .ok (some r.1, r.2)) = .ok (some ds', rest) →
      ∃ s : StatementTree, s.groups = groups ∧ AreUngrouped s.tail ∧ Begins s.tail ts rest ∧
        Adds s ds ds' := by
    intro isAsync pos front mid hfront hmid h
    obtain ⟨⟨ds', after⟩, hf, ⟨⟩⟩ := bind_eq_ok.1 h
    obtain ⟨f, t, ht, hgroups', hasync, hplain, hbegins, rfl⟩ := exists_of_function hgroups htold hf
    have htail : (StatementTree.function t).tail = front ++ (.ident t.name :: t.body) := by
      rw [StatementTree.tail, hasync, hfront, List.append_assoc]
      rfl
    refine ⟨.function t, hgroups', ?_, ?_, ⟨[f], rfl, .cons ht .nil⟩, [], by simp, .nil⟩
    · rw [htail, hfront]
      cases isAsync <;> exact hplain
    · rw [htail]
      exact begins_append.2 ⟨mid, hmid, hbegins⟩
  unfold declaration? at h
  split at h
  · exact hfunction false rfl ⟨_, _, rfl, rfl⟩ h
  · exact hfunction true rfl ⟨_, _, rfl, _, _, rfl, rfl⟩ h
  · obtain ⟨⟨r, after⟩, hr, ⟨⟩⟩ := bind_eq_ok.1 h
    obtain ⟨t, ht, hgroups', hplain, hbegins⟩ := exists_of_struct hgroups htold hr
    refine ⟨.record t, hgroups', ?_, ⟨_, _, rfl, hbegins⟩, ⟨[], by simp, .nil⟩, [r], rfl, .cons ht .nil⟩
    exact (areUngrouped_parts t.parts).append hplain
  · obtain ⟨⟨e, after⟩, he, ⟨⟩⟩ := bind_eq_ok.1 h
    obtain ⟨body, hbody, hplain⟩ := readsPlainly_enum _ _ _ _ he
    obtain ⟨_, -, he⟩ := bind_eq_ok.1 he
    obtain ⟨_, hrefuse, -⟩ := bind_eq_ok.1 he
    obtain rfl := eq_nil_of_refuse hgroups htold hrefuse
    exact ⟨.enum body, rfl, hplain, ⟨_, _, rfl, hbody⟩, ⟨[], by simp, .nil⟩, [], by simp, .nil⟩
  · obtain ⟨⟨d, after⟩, hd, ⟨⟩⟩ := bind_eq_ok.1 h
    obtain ⟨body, hbody, hplain⟩ := readsPlainly_handle _ _ _ _ hd
    obtain ⟨_, -, hd⟩ := bind_eq_ok.1 hd
    obtain ⟨_, hrefuse, -⟩ := bind_eq_ok.1 hd
    obtain rfl := eq_nil_of_refuse hgroups htold hrefuse
    exact ⟨.handle body, rfl, hplain, ⟨_, _, rfl, hbody⟩, ⟨[], by simp, .nil⟩, [], by simp, .nil⟩
  all_goals cases h

theorem exists_of_oneStatement (hts : ts.AreOf x) (h : ts.oneStatement ds = .ok (ds', rest)) :
    ∃ s : StatementTree, s.IsProper ∧ Begins s.lexemes ts rest ∧ Adds s ds ds' := by
  have hstatement : ts.statement? ds = .ok (some ds', rest) := by
    unfold oneStatement at h
    split at h
    · cases h
    · exact absurd h failAt_ne_ok
    · cases h
      assumption
  unfold statement? at hstatement
  split at hstatement
  · split at hstatement
    · cases hstatement
    · obtain ⟨⟨parts, after⟩, hm, ⟨⟩⟩ := bind_eq_ok.1 hstatement
      obtain ⟨body, hbody, hplain⟩ := readsPlainly_moduleName _ _ hm
      exact ⟨.module body, ⟨nofun, hplain⟩, ⟨_, _, rfl, hbody⟩, ⟨[], by simp, .nil⟩, [], by simp, .nil⟩
  · cases hstatement
    exact ⟨.semicolon, ⟨nofun, trivial⟩, ⟨_, _, rfl, rfl⟩, ⟨[], by simp, .nil⟩, [], by simp, .nil⟩
  · obtain ⟨⟨attrs, mid⟩, hattrs, hdeclared⟩ := bind_eq_ok.1 hstatement
    obtain ⟨⟨found, after⟩, hd, hfound⟩ := bind_eq_ok.1 hdeclared
    obtain ⟨groups, hgroups, hbegins, htold⟩ := exists_of_attributes hts hattrs
    have hsome : found = some ds' ∧ after = rest := by
      split at hfound
      · cases hfound
      · cases hfound
        exact ⟨rfl, rfl⟩
    obtain ⟨rfl, rfl⟩ := hsome
    obtain ⟨s, rfl, hplain, htail, hadds⟩ := exists_of_declaration? hgroups (by simpa using htold) hd
    exact ⟨s, ⟨hgroups, hplain⟩, begins_append.2 ⟨mid, hbegins, htail⟩, hadds⟩

theorem filterMap_cons_toList {α β : Type} (f : α → Option β) (a : α) (as : List α) :
    (a :: as).filterMap f = (f a).toList ++ as.filterMap f := by
  cases h : f a <;> simp [h]

/-- The statements of a text that is accepted, and what they add to the declarations. -/
theorem exists_of_statements (hts : ts.AreOf x) (h : ts.statements ds = .ok ds') :
    ∃ ss : List StatementTree, (∀ s ∈ ss, s.IsProper) ∧
      (∃ pos, Begins (ss.flatMap (·.lexemes)) ts (.done pos)) ∧
      (∃ fs, ds'.functions = ds.functions ++ fs ∧
        List.Forall₂ Signature.IsWrittenAs fs (ss.filterMap (·.function?))) ∧
      ∃ rs, ds'.records = ds.records ++ rs ∧
        List.Forall₂ Record.IsWrittenAs rs (ss.filterMap (·.record?)) := by
  fun_induction statements ds ts with
  | case1 ds pos =>
    cases h
    exact ⟨[], List.forall_mem_nil _, ⟨pos, rfl⟩, ⟨[], by simp, .nil⟩, [], by simp, .nil⟩
  | case2 => cases h
  | case3 ds ts _ mid rest hs ih =>
    obtain ⟨s, hs', hbegins, ⟨fs, hfs, hf⟩, rs, hrs, hr⟩ := exists_of_oneStatement hts hs
    obtain ⟨ss, hss, ⟨pos, hmore⟩, ⟨fs', hfs', hf'⟩, rs', hrs', hr'⟩ :=
      ih (hts.of_begins hbegins) h
    refine ⟨s :: ss, List.forall_mem_cons.2 ⟨hs', hss⟩,
      ⟨pos, begins_append.2 ⟨rest, hbegins, hmore⟩⟩, ⟨fs ++ fs', ?_, ?_⟩, rs ++ rs', ?_, ?_⟩
    · rw [hfs', hfs, List.append_assoc]
    · rw [filterMap_cons_toList]
      exact List.rel_append hf hf'
    · rw [hrs', hrs, List.append_assoc]
    · rw [filterMap_cons_toList]
      exact List.rel_append hr hr'

end Tokens

namespace Declarations
variable {text file : String} {p : Position} {ds : Declarations}

/-- The tokens of an accepted text are those of statements of which only functions and structs have
attributes. Each function and each record that is declared is configured by all attributes in front
of it, which are of known kinds, with known keys and with arguments of the right form. No attribute
stands elsewhere: a bracket of the text that no number follows opens one of these groups, and what
the group is applied to is declared. -/
theorem parse_attributes (h : parse text file p = .ok ds) :
    ∃ ss : List StatementTree, ds.AreWrittenAs ss ∧
      (∃ pos, Tokens.Begins (ss.flatMap (·.lexemes)) (Tokens.ofText text p) (.done pos)) ∧
      ∀ front l back, ss.flatMap (·.lexemes) = front ++ .punct .squareOpen :: l :: back →
        (∀ digits, l ≠ .number digits) →
        ∃ before s after groups group more, ss = before ++ s :: after ∧
          s.groups = groups ++ group :: more ∧
          front = before.flatMap (·.lexemes) ++ groups.flatMap AttributeTree.groupLexemes ∧
          s.IsApplied ds := by
  unfold parse at h
  split at h
  · rename_i hstatements
    cases h
    obtain ⟨ss, hss, hbegins, ⟨fs, hfs, hf⟩, rs, hrs, hr⟩ :=
      Tokens.exists_of_statements (Tokens.areOf_ofText text p) hstatements
    rw [List.nil_append] at hfs hrs
    subst hfs hrs
    have hwritten : ds.AreWrittenAs ss := ⟨hss, hf, hr⟩
    refine ⟨ss, hwritten, hbegins, fun front l back heq hl => ?_⟩
    obtain ⟨before, s, after, groups, group, more, rfl, hgroups, hfront⟩ :=
      statements_split hss hl heq
    refine ⟨before, s, after, groups, group, more, rfl, hgroups, hfront, ?_⟩
    exact hwritten.isApplied (by simp) (by simp [hgroups])
  · cases h

/-- Two groups before a generic function: a binding, and instances in two lists. -/
theorem parse_attributes_groups : ∃ ds : Declarations, ∃ ss, parse
    "[binding(prefix_low = \"\", c_ret = T), monomorphize(i32)] [monomorphize(u8)] fn f<T>() -> T;"
    "a" .start = .ok ds ∧
    ds.functions.map (fun f => (f.binding, f.instances)) =
      [(some { lowPrefix := "", lowReturn := some (.generic "T") }, ["i32", "u8"])] ∧
    ds.AreWrittenAs ss := by
  have h : ((parse
      "[binding(prefix_low = \"\", c_ret = T), monomorphize(i32)] [monomorphize(u8)] fn f<T>() -> T;"
      "a" .start).toOption.map (·.functions.map (fun f => (f.binding, f.instances)))) =
      some [(some { lowPrefix := "", lowReturn := some (.generic "T") }, ["i32", "u8"])] := by
    decide +kernel
  obtain ⟨ds, hds, hfunctions⟩ := Option.map_eq_some_iff.1 h
  unfold Except.toOption at hds
  split at hds <;> cases hds
  rename_i hparse
  obtain ⟨ss, hwritten, -⟩ := parse_attributes hparse
  exact ⟨ds, ss, hparse, hfunctions, hwritten⟩

end Declarations
end Bindery
