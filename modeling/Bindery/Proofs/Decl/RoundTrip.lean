import Bindery.Proofs.Decl.Handles
import Bindery.Proofs.Decl.Printable
import Bindery.Proofs.Decl.Records

/-!
# Declarations are read as they are written

The text of declarations is read statement by statement. Each statement leaves the stream in front
of the next one and adds one declaration, which differs from the written one only in where it
stands.
-/
namespace Bindery
namespace Tokens
open Lexeme

variable {ts mid rest : Tokens} {ds ds' : Declarations} {ls : List Lexeme}

theorem statements_step (h : ts.oneStatement ds = .ok (ds', rest)) :
    statements ds ts = statements ds' rest := by
  have hdone : ∀ pos, ts ≠ .done pos := by
    rintro pos rfl
    exact absurd (oneStatement_length h) (Nat.not_lt_zero _)
  rw [statements]
  · split
    all_goals simp_all
  · exact hdone

theorem statements_error {fault : Fault} (hdone : ∀ pos, ts ≠ .done pos)
    (h : ts.oneStatement ds = .error fault) : statements ds ts = .error fault := by
  rw [statements]
  · split
    all_goals simp_all
  · exact hdone

theorem moduleParts_of_begins {parts seen : List String}
    (h : Begins (parts.flatMap (fun p => [.punct .dot, .ident p])) ts rest)
    (hr : rest.Avoids [.dot]) : moduleParts seen ts = .ok (seen ++ parts, rest) := by
  induction parts generalizing seen ts with
  | nil =>
    obtain rfl : ts = rest := h
    rw [List.append_nil]
    rcases hr.cases List.mem_cons_self with ⟨_, rfl⟩ | ⟨⟨l, _⟩, tail, rfl, hl⟩
    · rfl
    · unfold moduleParts
      split
      all_goals simp_all
  | cons part parts ih =>
    obtain ⟨_, _, rfl, _, tail, rfl, h⟩ := h
    rw [moduleParts, ih h, List.append_assoc, List.singleton_append]

theorem statements_module {parts : List String} (hds : ds.modulePath = [])
    (h : Begins (Declarations.moduleLexemes parts ++ ls) ts rest) :
    ∃ mid, statements ds ts = statements { ds with modulePath := parts } mid ∧
      Begins ls mid rest := by
  cases parts with
  | nil => exact ⟨ts, by rw [← hds], h⟩
  | cons part parts =>
    obtain ⟨mid, hmodule, hmid⟩ := begins_append.1 h
    obtain ⟨_, _, rfl, _, tail, rfl, htail⟩ := hmodule
    obtain ⟨afterParts, hparts, hsemicolon⟩ := begins_append.1 htail
    obtain ⟨_, hend, rfl⟩ := punct_of_begins hsemicolon
    have hmore := @moduleParts_of_begins _ _ parts [part] hparts
      (hsemicolon.avoids_of_not_mem (by decide))
    refine ⟨_, ?_, hmid⟩
    apply statements_step
    have hne : ¬ds.modulePath ≠ [] := fun hne => hne hds
    simp only [oneStatement, statement?, if_neg hne, moduleName, ident, hmore, hend, bind,
      Except.bind, List.singleton_append]

theorem oneStatement_of_attributes {t : Token} {tail : Tokens} {attrs : List Attribute}
    (hmodule : t.lexeme ≠ .keyword .moduleName) (hsemicolon : t.lexeme ≠ .punct .semicolon)
    (ha : (next t tail).attributes [] = .ok (attrs, mid))
    (hd : mid.declaration? ds attrs = .ok (some ds', rest)) :
    (next t tail).oneStatement ds = .ok (ds', rest) := by
  have hs : (next t tail).statement? ds = .ok (some ds', rest) := by
    unfold statement?
    split
    · rename_i heq
      cases heq
      exact absurd rfl hmodule
    · rename_i heq
      cases heq
      exact absurd rfl hsemicolon
    · simp only [ha, hd, bind, Except.bind]
  rw [oneStatement, hs]

/-- A declaration is read with the attributes before it. -/
theorem statements_declaration {attrs : List Attribute} (hattrs : ∀ a ∈ attrs, a.IsWritable)
    {k : Keyword} (hk : k ≠ .moduleName) (h : Begins (Attribute.groupLexemes attrs) ts mid)
    (hmid : Begins (.keyword k :: ls) mid rest)
    (hd : ∀ bs : List Attribute, bs.map (·.unplaced) = attrs.map (·.unplaced) →
      mid.declaration? ds bs = .ok (some ds', rest)) :
    statements ds ts = statements ds' rest := by
  obtain ⟨bs, hbs, hread⟩ := attributes_of_begins hattrs h (hmid.avoids nofun)
  have hdecl := hd bs hbs
  cases attrs with
  | nil =>
    obtain rfl : ts = mid := h
    obtain ⟨_, tail, rfl, -⟩ := hmid
    apply statements_step
    have hmodule : Lexeme.keyword k ≠ .keyword .moduleName := fun hkey => hk (by cases hkey; rfl)
    exact oneStatement_of_attributes hmodule (by rintro ⟨⟩) hread hdecl
  | cons attr attrs =>
    obtain ⟨_, tail, rfl, -⟩ := h
    apply statements_step
    exact oneStatement_of_attributes (by rintro ⟨⟩) (by rintro ⟨⟩) hread hdecl

theorem statements_plain {k : Keyword} (hk : k ≠ .moduleName)
    (h : Begins (.keyword k :: ls) ts rest)
    (hd : ts.declaration? ds [] = .ok (some ds', rest)) :
    statements ds ts = statements ds' rest := by
  have hno : ∀ a ∈ ([] : List Attribute), a.IsWritable := nofun
  refine statements_declaration hno hk rfl h fun bs hbs => ?_
  obtain rfl := List.map_eq_nil_iff.1 hbs
  exact hd

/-- Declarations of one kind are read one after the other, where `add` tells what there is once
some of them are read. -/
theorem statements_of_begins {β : Type} {spell : β → List Lexeme} {shows : β → β} {bs : List β}
    {add : List β → Declarations}
    (hstep : ∀ front b back items ts rest, bs = front ++ b :: back →
      items.map shows = front.map shows → Begins (spell b) ts rest →
      ∃ c, shows c = shows b ∧ statements (add items) ts = statements (add (items ++ [c])) rest)
    (h : Begins (bs.flatMap spell ++ ls) ts rest) :
    ∃ items mid, items.map shows = bs.map shows ∧
      statements (add []) ts = statements (add items) mid ∧ Begins ls mid rest := by
  induction bs generalizing add ts with
  | nil => exact ⟨[], ts, rfl, rfl, h⟩
  | cons b bs ih =>
    rw [List.flatMap_cons, List.append_assoc] at h
    obtain ⟨after, hb, hmore⟩ := begins_append.1 h
    obtain ⟨c, hc, hfirst⟩ := hstep [] b bs [] ts after rfl rfl hb
    have hnext : ∀ front b' back items ts rest, bs = front ++ b' :: back →
        items.map shows = front.map shows → Begins (spell b') ts rest →
        ∃ d, shows d = shows b' ∧
          statements (add (c :: items)) ts = statements (add (c :: (items ++ [d]))) rest := by
      intro front b' back items ts rest hsplit hitems hb'
      have hfront : (c :: items).map shows = (b :: front).map shows := by
        rw [List.map_cons, List.map_cons, hc, hitems]
      exact hstep (b :: front) b' back (c :: items) ts rest (by rw [hsplit, List.cons_append])
        hfront hb'
    obtain ⟨items, mid, hitems, hrest, hmid⟩ := @ih after (fun items => add (c :: items)) hnext hmore
    refine ⟨c :: items, mid, by rw [List.map_cons, hc, hitems, ← List.map_cons], ?_, hmid⟩
    rw [hfirst, List.nil_append, hrest]

end Tokens

namespace Tokens
open Lexeme

variable {ts rest : Tokens} {ds : Declarations} {ls : List Lexeme}

theorem statements_records {rs : List Record} (hrs : ∀ r ∈ rs, r.IsWritable)
    (h : Begins (rs.flatMap (·.lexemes) ++ ls) ts rest) :
    ∃ items mid, items.map (·.unplaced) = rs.map (·.unplaced) ∧
      statements ds ts = statements { ds with records := ds.records ++ items } mid ∧
      Begins ls mid rest := by
  have hstep : ∀ front r back (items : List Record) ts rest, rs = front ++ r :: back →
      items.map (·.unplaced) = front.map (·.unplaced) → Begins (Record.lexemes r) ts rest →
      ∃ c, Record.unplaced c = r.unplaced ∧
        statements { ds with records := ds.records ++ items } ts =
          statements { ds with records := ds.records ++ (items ++ [c]) } rest := by
    intro front r back items ts rest hsplit _ hr
    have hw : r.IsWritable := hrs r (by rw [hsplit]; exact List.mem_append_right _ List.mem_cons_self)
    obtain ⟨mid, hattrs, hdecl⟩ := begins_append.1 hr
    have hkeyword := hdecl
    obtain ⟨pos, tail, rfl, htail⟩ := hdecl
    refine ⟨{ r with pos := pos }, rfl, ?_⟩
    apply statements_declaration Record.isWritable_attributes (by decide) hattrs hkeyword
    intro bs hbs
    simp only [declaration?, struct_of_begins hw hbs pos htail, bind, Except.bind,
      List.append_assoc]
  obtain ⟨items, mid, hitems, hrun, hmid⟩ := statements_of_begins hstep h
  rw [List.append_nil] at hrun
  exact ⟨items, mid, hitems, hrun, hmid⟩

theorem statements_enums {es : List Enum} (hes : ∀ e ∈ es, e.IsWritable)
    (h : Begins (es.flatMap (·.lexemes) ++ ls) ts rest) :
    ∃ items mid, items.map (·.unplaced) = es.map (·.unplaced) ∧
      statements ds ts = statements { ds with enums := ds.enums ++ items } mid ∧
      Begins ls mid rest := by
  have hstep : ∀ front e back (items : List Enum) ts rest, es = front ++ e :: back →
      items.map (·.unplaced) = front.map (·.unplaced) → Begins (Enum.lexemes e) ts rest →
      ∃ c, Enum.unplaced c = e.unplaced ∧
        statements { ds with enums := ds.enums ++ items } ts =
          statements { ds with enums := ds.enums ++ (items ++ [c]) } rest := by
    intro front e back items ts rest hsplit _ he
    have hw : e.IsWritable := hes e (by rw [hsplit]; exact List.mem_append_right _ List.mem_cons_self)
    have hkeyword := he
    obtain ⟨pos, tail, rfl, htail⟩ := he
    refine ⟨{ e with pos := pos }, rfl, ?_⟩
    apply statements_plain (by decide) hkeyword
    simp only [declaration?, enum_of_begins hw pos htail, bind, Except.bind, List.append_assoc]
  obtain ⟨items, mid, hitems, hrun, hmid⟩ := statements_of_begins hstep h
  rw [List.append_nil] at hrun
  exact ⟨items, mid, hitems, hrun, hmid⟩

theorem statements_functions {fs : List Signature} (hfs : ∀ f ∈ fs, f.IsWritable)
    (hnodup : ((ds.functions ++ fs).map (·.name)).Nodup)
    (h : Begins (fs.flatMap (·.lexemes) ++ ls) ts rest) :
    ∃ items mid, items.map (·.unplaced) = fs.map (·.unplaced) ∧
      statements ds ts = statements { ds with functions := ds.functions ++ items } mid ∧
      Begins ls mid rest := by
  have hstep : ∀ front f back (items : List Signature) ts rest, fs = front ++ f :: back →
      items.map (·.unplaced) = front.map (·.unplaced) → Begins (Signature.lexemes f) ts rest →
      ∃ c, Signature.unplaced c = f.unplaced ∧
        statements { ds with functions := ds.functions ++ items } ts =
          statements { ds with functions := ds.functions ++ (items ++ [c]) } rest := by
    intro front f back items ts rest hsplit hitems hf
    have hw : f.IsWritable := hfs f (by rw [hsplit]; exact List.mem_append_right _ List.mem_cons_self)
    have hnames : items.map (·.name) = front.map (·.name) := by
      have hmap := congrArg (List.map (·.name)) hitems
      rwa [List.map_map, List.map_map] at hmap
    have hnew : f.name ∉ (ds.functions ++ items).map (·.name) := by
      rw [hsplit, List.map_append, List.map_append, List.map_cons, ← List.append_assoc] at hnodup
      rw [List.map_append, hnames]
      exact fun hmem => (List.nodup_append.1 hnodup).2.2 _ hmem _ List.mem_cons_self rfl
    obtain ⟨mid, hattrs, hdecl⟩ := begins_append.1 hf
    obtain ⟨pos, hread⟩ := @declaration?_function _ _
      { ds with functions := ds.functions ++ items } f hw hnew hdecl
    have hkeyword : ∃ k ms, k ≠ Keyword.moduleName ∧ Begins (.keyword k :: ms) mid rest := by
      cases hasync : f.isAsync with
      | true => rw [hasync] at hdecl; exact ⟨.async, _, by decide, hdecl⟩
      | false => rw [hasync] at hdecl; exact ⟨.fn, _, by decide, hdecl⟩
    obtain ⟨k, ms, hk, hkeyword⟩ := hkeyword
    refine ⟨{ f with pos := pos }, rfl, ?_⟩
    apply statements_declaration (Signature.isWritable_attributes hw) hk hattrs hkeyword
    intro bs hbs
    rw [hread bs hbs, List.append_assoc]
  obtain ⟨items, mid, hitems, hrun, hmid⟩ := statements_of_begins hstep h
  rw [List.append_nil] at hrun
  exact ⟨items, mid, hitems, hrun, hmid⟩

theorem statements_handles {hs : List Handle} (hhs : ∀ d ∈ hs, d.IsWritable)
    (h : Begins (hs.flatMap (·.lexemes) ++ ls) ts rest) :
    ∃ items mid, items.map (·.unplaced) = hs.map (·.unplaced) ∧
      statements ds ts = statements { ds with handles := ds.handles ++ items } mid ∧
      Begins ls mid rest := by
  have hstep : ∀ front d back (items : List Handle) ts rest, hs = front ++ d :: back →
      items.map (·.unplaced) = front.map (·.unplaced) → Begins (Handle.lexemes d) ts rest →
      ∃ c, Handle.unplaced c = d.unplaced ∧
        statements { ds with handles := ds.handles ++ items } ts =
          statements { ds with handles := ds.handles ++ (items ++ [c]) } rest := by
    intro front d back items ts rest hsplit _ hd
    have hw : d.IsWritable := hhs d (by rw [hsplit]; exact List.mem_append_right _ List.mem_cons_self)
    have hkeyword := hd
    obtain ⟨pos, tail, rfl, htail⟩ := hd
    refine ⟨{ d with pos := pos }, rfl, ?_⟩
    apply statements_plain (by decide) hkeyword
    simp only [declaration?, handle_of_begins hw pos htail, bind, Except.bind, List.append_assoc]
  obtain ⟨items, mid, hitems, hrun, hmid⟩ := statements_of_begins hstep h
  rw [List.append_nil] at hrun
  exact ⟨items, mid, hitems, hrun, hmid⟩

end Tokens

namespace Declarations

/-- Declarations come back from any stream of their tokens, wherever these stand. -/
theorem statements_lexemes {ds : Declarations} (h : ds.IsWritable) {ts : Tokens} {pos : Position}
    (hts : Tokens.Begins ds.lexemes ts (.done pos)) :
    ∃ es, ts.statements {} = .ok es ∧ es.unplaced = ds.unplaced := by
  obtain ⟨ts1, hrun1, hts⟩ := @Tokens.statements_module _ _ {} _ _ rfl hts
  obtain ⟨records, ts2, hrecords, hrun2, hts⟩ :=
    @Tokens.statements_records _ _ { modulePath := ds.modulePath } _ _ h.records hts
  obtain ⟨enums, ts3, henums, hrun3, hts⟩ :=
    @Tokens.statements_enums _ _ { modulePath := ds.modulePath, records } _ _ h.enums hts
  obtain ⟨functions, ts4, hfunctions, hrun4, hts⟩ :=
    @Tokens.statements_functions _ _ { modulePath := ds.modulePath, records, enums } _ _
      h.functions h.functions_nodup hts
  rw [← List.append_nil (ds.handles.flatMap _)] at hts
  obtain ⟨handles, ts5, hhandles, hrun5, hend⟩ :=
    @Tokens.statements_handles _ _ { modulePath := ds.modulePath, records, enums, functions } _ _
      h.handles hts
  obtain rfl : ts5 = .done pos := hend
  refine ⟨{ modulePath := ds.modulePath, functions, records, enums, handles }, ?_, ?_⟩
  · rw [hrun1]
    refine hrun2.trans (hrun3.trans (hrun4.trans (hrun5.trans ?_)))
    rw [Tokens.statements]
    rfl
  · simp only [unplaced, hrecords, henums, hfunctions, hhandles]

/-- Parsing undoes printing: the text of declarations is read as these declarations, in any file
and from any position on, but for the positions at which they stand. -/
theorem parse_render {ds : Declarations} (h : ds.IsWritable) (file : String) (p : Position) :
    (Declarations.parse ds.render file p).map (·.unplaced) = .ok ds.unplaced := by
  obtain ⟨pos, hts⟩ := Tokens.ofText_text (arePrintable_lexemes h) p
  obtain ⟨es, hrun, hes⟩ := statements_lexemes h hts
  rw [parse, render, hrun]
  exact congrArg Except.ok hes

/-- Declarations of every kind. -/
def sample : Declarations where
  modulePath := ["geo", "shapes"]
  functions :=
    [{ name := "sum", params := [⟨"xs", .slice false (.generic "T")⟩], ret := .generic "T",
       generics := [⟨"T", ["math::Num", "Copy"]⟩], isAsync := true, instances := ["i32"],
       binding := some
        { strategy := .both, lowReturn := some (.generic "T"), transform := some "|x| \"\\\"" },
       pos := .start }]
  records :=
    [{ name := "P", fields := [⟨"xy", .array (.scalar .f32) 2⟩], isDefined := true,
       hasLayout := true, pos := .start }]
  enums := [{ name := "E", kind := .i8, items := [("low", -128), ("high", 127)], pos := .start }]
  handles :=
    [{ name := "H", constructors := [⟨"make", [], "h_make"⟩], destructor := some "h_free",
       methods := [⟨"area", true, [⟨"unit", .record "geo::Unit"⟩], .scalar .f64, "h_area"⟩],
       pos := .start }]

theorem parse_render_sample : sample.IsWritable ∧
    (Declarations.parse sample.render "host.cpp" .start).map (·.unplaced) = .ok sample.unplaced := by
  have hfunction : ∀ f ∈ sample.functions, f.IsWritable := by
    intro f hf
    obtain rfl := List.mem_singleton.1 hf
    refine ⟨by decide, ?_, by decide, by decide, ?_, by decide, by decide, ?_⟩
    · intro g hg
      obtain rfl := List.mem_singleton.1 hg
      exact ⟨by decide, by decide⟩
    · intro s hs
      obtain rfl := List.mem_singleton.1 hs
      exact ⟨.scalar (.int .i32), trivial, rfl⟩
    · rintro b ⟨⟩
      exact ⟨.inl rfl, .inr (by decide), by decide, by decide⟩
  have hrecord : ∀ r ∈ sample.records, r.IsWritable := by
    intro r hr
    obtain rfl := List.mem_singleton.1 hr
    exact ⟨by decide, fun _ => by decide, by decide, by decide⟩
  have henum : ∀ e ∈ sample.enums, e.IsWritable := by
    intro e he
    obtain rfl := List.mem_singleton.1 he
    exact ⟨by decide, by decide, by decide, by decide⟩
  have hhandle : ∀ d ∈ sample.handles, d.IsWritable := by
    intro d hd
    obtain rfl := List.mem_singleton.1 hd
    exact ⟨by decide, by decide, by decide, ⟨_, rfl, by decide⟩, by decide⟩
  have h : sample.IsWritable :=
    ⟨by decide, hfunction, by decide, hrecord, henum, hhandle⟩
  exact ⟨h, parse_render h "host.cpp" .start⟩

end Declarations
end Bindery
