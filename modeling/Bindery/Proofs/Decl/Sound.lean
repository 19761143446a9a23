import Bindery.Proofs.Decl.Checked
import Bindery.Proofs.Decl.RoundTrip
import Mathlib

/-!
# Declarations as they are read

Whatever text is read, its declarations have passed every check of the reader: names are distinct
where they have to be, generic parameters occur in their own functions only, and all numbers keep
their bounds. Each declaration stands at its keyword, and a text that is refused has its fault in
it.
-/
namespace Bindery
open Lexeme

/-- Declarations as the reader lets them through. -/
structure Declarations.IsSound (ds : Declarations) : Prop where
  modulePath : ∀ part ∈ ds.modulePath, IsIdent part
  functions : ∀ f ∈ ds.functions, f.IsSound
  functions_nodup : (ds.functions.map (·.name)).Nodup
  records : ∀ r ∈ ds.records, r.IsWritable
  enums : ∀ e ∈ ds.enums, e.IsWritable
  handles : ∀ d ∈ ds.handles, d.IsWritable

/-- The keyword that opens a function. -/
def Signature.keyword (f : Signature) : Keyword := if f.isAsync then .async else .fn

/-- Declarations that stand in a passage, each at its keyword. -/
structure Declarations.StandIn (x : Passage) (ds : Declarations) : Prop where
  functions : ∀ f ∈ ds.functions, x.Shows f.keyword.spelling f.pos
  records : ∀ r ∈ ds.records, x.Shows Keyword.struct.spelling r.pos
  enums : ∀ e ∈ ds.enums, x.Shows Keyword.enum.spelling e.pos
  handles : ∀ d ∈ ds.handles, x.Shows Keyword.handle.spelling d.pos

theorem forall_mem_append_singleton {α : Type} {P : α → Prop} {as : List α} {a : α}
    (h : ∀ b ∈ as, P b) (ha : P a) : ∀ b ∈ as ++ [a], P b := by
  intro b hb
  rcases List.mem_append.1 hb with hb | hb
  · exact h b hb
  · exact List.mem_singleton.1 hb ▸ ha

namespace Tokens
variable {x : Passage} {ts : Tokens} {pos : Position}

/-! ### Structs -/

theorem reads_newField {r : Record} (hr : Param.AreWritable [] r.fields) (h : ts.AreOf x) :
    Reads x (fun r' => Param.AreWritable [] r'.fields ∧ r' = { r with fields := r'.fields })
      (ts.newField r) := by
  have hparam := reads_param? [] h
  unfold newField
  split
  · exact hparam.of_error ‹_›
  · exact reads_failAt h _
  · have hp := hparam.of_ok ‹_›
    have hsemicolon := skips_punct hp.2 .semicolon
    split
    · exact hsemicolon.of_error ‹_›
    · split
      · exact reads_failAt h _
      · exact reads_ok ⟨areWritable_append hr (hp.1 _ rfl) ‹_›, rfl⟩ (hsemicolon.of_ok ‹_›)

theorem checks_addAttributes {r : Record} {attrs : List Attribute}
    (hattrs : ∀ a ∈ attrs, a.IsOf x) :
    Checks x (fun r' => r' = { r with hasLayout := r'.hasLayout }) (r.addAttributes attrs) := by
  induction attrs generalizing r with
  | nil => exact checks_ok rfl
  | cons a attrs ih =>
    have ha := (hattrs a List.mem_cons_self).has
    unfold Record.addAttributes
    split
    · split
      · exact ih fun b hb => hattrs b (List.mem_cons_of_mem _ hb)
      · exact checks_error ha
    · exact checks_error ha

theorem reads_struct {attrs : List Attribute} (hattrs : ∀ a ∈ attrs, a.IsOf x)
    (hpos : x.Has pos) (h : ts.AreOf x) :
    Reads x (fun r => r.IsWritable ∧ r.pos = pos) (ts.struct attrs pos) := by
  refine (reads_path h).bind fun name rest hname hrest => ?_
  refine (checks_addAttributes hattrs).reads fun r hr => ?_
  refine (reads_punct? hrest .semicolon).bind fun closed rest _ hrest => ?_
  cases closed with
  | true =>
    refine reads_ok ?_ hrest
    rw [hr]
    exact ⟨⟨hname, nofun, areWritable_nil, by simp⟩, rfl⟩
  | false =>
    dsimp only
    split
    · exact reads_error hpos
    · rename_i hcolon
      refine (skips_punct hrest .curlyOpen).bind fun rest hrest => ?_
      have hfields : Param.AreWritable [] { r with isDefined := true }.fields := by
        rw [hr]
        exact areWritable_nil
      have hblock : Reads x (fun r' => Param.AreWritable [] r'.fields ∧
          r' = { r with isDefined := true, fields := r'.fields })
          (block fields .curlyClose { r with isDefined := true } rest) := by
        refine reads_block (fun s ts hs hts => ?_) ⟨hfields, rfl⟩ hrest
        exact (reads_newField hs.1 hts).mono fun s' hs' => ⟨hs'.1, by rw [hs'.2, hs.2]⟩
      refine hblock.bind fun r' rest hr' hrest => ?_
      dsimp only
      split
      · exact reads_error hpos
      · rename_i hne
        have hident : IsIdent name := by
          have hone := hname name.toList
          rw [Name.parts_of_not_mem hcolon, String.ofList_toList] at hone
          exact hone (List.mem_singleton.2 rfl)
        refine reads_ok ?_ hrest
        have hname' : r'.name = name := by rw [hr'.2, hr]
        have hdefined : r'.isDefined = true := by rw [hr'.2]
        have hpos' : r'.pos = pos := by rw [hr'.2, hr]
        exact ⟨⟨hname' ▸ hname, fun _ => hname' ▸ hident, hr'.1, by simp [hdefined, hne]⟩, hpos'⟩

/-! ### Enumerations -/

/-- What is known of the enumerators read so far. -/
structure AreItems (kind : IntKind) (items : List (String × Int)) : Prop where
  bounded : ∀ item ∈ items, IsIdent item.1 ∧ kind.range.1 ≤ item.2 ∧ item.2 ≤ kind.range.2 ∧
    -9223372036854775808 < item.2
  nodup : (items.map (·.1)).Nodup

theorem magnitude_lt {base n : Nat} {isDigit : Char → Bool} {cs : List Char}
    (h : magnitude base isDigit cs = .ok n) : n < 9223372036854775808 := by
  unfold magnitude at h
  dsimp only at h
  split at h
  · cases h
  · split at h <;> cases h
    omega

theorem unsigned_lt {n : Nat} {cs : List Char} (h : unsigned cs = .ok n) :
    n < 9223372036854775808 := by
  unfold unsigned at h
  split at h
  · exact magnitude_lt h
  · exact magnitude_lt h

theorem lt_numberValue {digits : String} {p : Position} {n : Int}
    (h : numberValue digits p = .ok n) : -9223372036854775808 < n := by
  unfold numberValue at h
  split at h <;> cases h
  rename_i h
  unfold integer at h
  split at h
  · obtain ⟨m, hm, h⟩ := bind_eq_ok.1 h
    cases h
    have := unsigned_lt hm
    omega
  · obtain ⟨m, hm, h⟩ := bind_eq_ok.1 h
    cases h
    omega

theorem checks_value {digits : String} {p : Position} (hp : x.Has p) :
    Checks x (fun n => -9223372036854775808 < n) (numberValue digits p) :=
  Gives.of_forall (fun _ hn => lt_numberValue hn) fun _ hf => (checks_numberValue hp).of_error hf

variable {name : String} {kind : IntKind} {seen : List (String × Int)} {implicit : Int}

theorem reads_enumItem (hseen : AreItems kind seen) (himplicit : -9223372036854775808 < implicit)
    (h : ts.AreOf x) :
    Reads x (fun item => AreItems kind (seen ++ [item])) (enumItem name kind seen implicit ts) := by
  have happend : ∀ {item : String × Int}, IsIdent item.1 → item.1 ∉ seen.map (·.1) →
      kind.range.1 ≤ item.2 ∧ item.2 ≤ kind.range.2 → -9223372036854775808 < item.2 →
      AreItems kind (seen ++ [item]) := by
    intro item hitem hnew hrange hmin
    refine ⟨forall_mem_append_singleton hseen.bounded ⟨hitem, hrange.1, hrange.2, hmin⟩, ?_⟩
    rw [List.map_append]
    exact nodup_append_singleton hseen.nodup hnew
  unfold enumItem
  split
  · rename_i hident
    split
    · exact reads_error h.1.has
    · rename_i hnew
      split
      · refine (checks_value h.2.2.1.has).reads fun value hvalue => ?_
        split
        · exact reads_ok (happend (h.1.ident _ rfl) hnew ‹_› hvalue) h.2.2.2
        · exact reads_error h.2.2.1.has
      · exact reads_unexpected h.2.2
      · exact reads_error h.2
      · split
        · exact reads_ok (happend (h.1.ident _ rfl) hnew ‹_› himplicit) h.2
        · exact reads_error h.1.has
  · exact reads_unexpected h

theorem reads_enumItems (hseen : AreItems kind seen) (himplicit : -9223372036854775808 < implicit)
    (h : ts.AreOf x) : Reads x (AreItems kind) (enumItems name kind seen implicit ts) := by
  fun_induction enumItems name kind seen implicit ts with
  | case1 seen implicit ts fault hc => exact (reads_punct? h .curlyClose).of_error hc
  | case2 seen implicit ts rest hc => exact reads_ok hseen ((reads_punct? h .curlyClose).of_ok hc).2
  | case3 seen implicit ts atItem hc fault hi =>
    have hitem := ((reads_punct? h .curlyClose).of_ok hc).2
    exact (reads_enumItem hseen himplicit hitem).of_error hi
  | case4 seen implicit ts atItem hc item after hi fault hl =>
    have hitem := ((reads_punct? h .curlyClose).of_ok hc).2
    have hafter := (reads_enumItem hseen himplicit hitem).of_ok hi
    exact (reads_punct? hafter.2 .curlyClose).of_error hl
  | case5 seen implicit ts atItem hc item after hi rest hl =>
    have hitem := ((reads_punct? h .curlyClose).of_ok hc).2
    have hafter := (reads_enumItem hseen himplicit hitem).of_ok hi
    exact reads_ok hafter.1 ((reads_punct? hafter.2 .curlyClose).of_ok hl).2
  | case6 seen implicit ts atItem hc item after hi atComma hl fault hk =>
    have hitem := ((reads_punct? h .curlyClose).of_ok hc).2
    have hafter := (reads_enumItem hseen himplicit hitem).of_ok hi
    exact (skips_punct ((reads_punct? hafter.2 .curlyClose).of_ok hl).2 .comma).of_error hk
  | case7 seen implicit ts atItem hc item after hi atComma hl rest hk ih =>
    have hitem := ((reads_punct? h .curlyClose).of_ok hc).2
    have hafter := (reads_enumItem hseen himplicit hitem).of_ok hi
    have hlast := (hafter.1.bounded item (by simp)).2.2.2
    have hcomma := ((reads_punct? hafter.2 .curlyClose).of_ok hl).2
    exact ih hafter.1 (by omega) ((skips_punct hcomma .comma).of_ok hk)

theorem reads_intKind (h : ts.AreOf x) : Reads x (fun _ => True) ts.intKind := by
  refine (reads_punct? h .colon).bind fun colon rest _ hrest => ?_
  cases colon with
  | false => exact reads_ok trivial hrest
  | true =>
    dsimp only
    split
    · exact reads_ok trivial hrest.2
    · exact reads_failAt hrest _

theorem checks_refuse {owner : Owner} {attrs : List Attribute} (hattrs : ∀ a ∈ attrs, a.IsOf x) :
    Checks x (fun _ => True) (Attribute.refuse owner name attrs) := by
  cases attrs with
  | nil => exact checks_ok trivial
  | cons a attrs => exact checks_error (hattrs a List.mem_cons_self).has

theorem reads_enum {attrs : List Attribute} (hattrs : ∀ a ∈ attrs, a.IsOf x)
    (hpos : x.Has pos) (h : ts.AreOf x) :
    Reads x (fun e => e.IsWritable ∧ e.pos = pos) (ts.enum attrs pos) := by
  refine (reads_ident h).bind fun name rest hname hrest => ?_
  refine (checks_refuse hattrs).reads fun _ _ => ?_
  refine (reads_intKind hrest).bind fun kind rest _ hrest => ?_
  refine (skips_punct hrest .curlyOpen).bind fun rest hrest => ?_
  refine (reads_enumItems ⟨List.forall_mem_nil _, List.nodup_nil⟩ (by decide) hrest).bind
    fun items rest hitems hrest => ?_
  dsimp only
  split
  · exact reads_error hpos
  · exact reads_ok ⟨⟨hname, hitems.bounded, hitems.nodup, ‹_›⟩, rfl⟩ hrest

/-! ### Handles -/

theorem reads_symbol (h : ts.AreOf x) : Reads x IsIdent ts.symbol := by
  refine (skips_punct h .assign).bind fun rest hrest => ?_
  refine (reads_ident hrest).bind fun name rest hname hrest => ?_
  exact (skips_punct hrest .semicolon).bind fun rest hrest => reads_ok hname hrest

theorem reads_constructor (h : ts.AreOf x) :
    Reads x (fun c => IsIdent c.name ∧ Param.AreWritable [] c.params ∧ IsIdent c.symbol)
      ts.constructor := by
  refine (reads_ident h).bind fun name rest hname hrest => ?_
  refine (skips_punct hrest .roundOpen).bind fun rest hrest => ?_
  refine (reads_paramList hrest).bind fun params rest hparams hrest => ?_
  exact (reads_symbol hrest).bind fun symbol rest hsymbol hrest =>
    reads_ok ⟨hname, hparams, hsymbol⟩ hrest

theorem reads_selfParam {method : String} (h : ts.AreOf x) :
    Reads x (fun _ => True) (ts.selfParam method) := by
  refine (checks_head h).reads fun _ _ => ?_
  split
  · exact reads_ok trivial h.2
  · exact reads_ok trivial h.2.2
  · exact reads_failAt h.2 _
  · exact reads_failAt h _

theorem reads_method (h : ts.AreOf x) :
    Reads x (fun m => IsIdent m.name ∧ Param.AreWritable [] m.params ∧ m.ret.IsWritable ∧
      m.ret.IsScoped [] ∧ IsIdent m.symbol) ts.method := by
  refine (reads_ident h).bind fun name rest hname hrest => ?_
  refine (skips_punct hrest .roundOpen).bind fun rest hrest => ?_
  refine (reads_selfParam hrest).bind fun mutable rest _ hrest => ?_
  refine (reads_moreParams hrest).bind fun params rest hparams hrest => ?_
  refine (reads_returnType hrest).bind fun ret rest hret hrest => ?_
  exact (reads_symbol hrest).bind fun symbol rest hsymbol hrest =>
    reads_ok ⟨hname, hparams, hret.1, hret.2, hsymbol⟩ hrest

/-- What is known of a handle while its items are read. -/
structure IsHandle (name : String) (pos : Position) (d : Handle) : Prop where
  name : d.name = name
  pos : d.pos = pos
  constructors : ∀ c ∈ d.constructors, IsIdent c.name ∧ Param.AreWritable [] c.params ∧
    IsIdent c.symbol
  destructor : ∀ symbol ∈ d.destructor, IsIdent symbol
  methods : ∀ m ∈ d.methods, IsIdent m.name ∧ Param.AreWritable [] m.params ∧
    m.ret.IsWritable ∧ m.ret.IsScoped [] ∧ IsIdent m.symbol

theorem reads_handleItem {d : Handle} (hd : IsHandle name pos d) (h : ts.AreOf x) :
    Reads x (IsHandle name pos) (ts.handleItem d) := by
  unfold handleItem
  split
  · refine (reads_constructor h.2).bind fun c rest hc hrest => reads_ok ?_ hrest
    exact ⟨hd.name, hd.pos, forall_mem_append_singleton hd.constructors hc, hd.destructor,
      hd.methods⟩
  · split
    · exact reads_error h.1.has
    · refine (reads_symbol h.2).bind fun symbol rest hsymbol hrest => reads_ok ?_ hrest
      refine ⟨hd.name, hd.pos, hd.constructors, ?_, hd.methods⟩
      rintro _ ⟨⟩
      exact hsymbol
  · refine (reads_method h.2).bind fun m rest hm hrest => reads_ok ?_ hrest
    exact ⟨hd.name, hd.pos, hd.constructors, hd.destructor,
      forall_mem_append_singleton hd.methods hm⟩
  · exact reads_unexpected h

theorem reads_handle {attrs : List Attribute} (hattrs : ∀ a ∈ attrs, a.IsOf x)
    (hpos : x.Has pos) (h : ts.AreOf x) :
    Reads x (fun d => d.IsWritable ∧ d.pos = pos) (ts.handle attrs pos) := by
  refine (reads_ident h).bind fun name rest hname hrest => ?_
  refine (checks_refuse hattrs).reads fun _ _ => ?_
  refine (skips_punct hrest .curlyOpen).bind fun rest hrest => ?_
  have hblock : Reads x (IsHandle name pos) (block handleItems .curlyClose { name, pos } rest) :=
    reads_block (fun _ _ hs hts => reads_handleItem hs hts) ⟨rfl, rfl, nofun, nofun, nofun⟩ hrest
  refine hblock.bind fun d rest hd hrest => ?_
  dsimp only
  split
  · exact reads_error hpos
  · rename_i hdestructor
    split
    · exact reads_error hpos
    · obtain ⟨symbol, hsymbol⟩ := Option.ne_none_iff_exists'.1 hdestructor
      refine reads_ok ⟨⟨?_, hd.constructors, ‹_›, ⟨symbol, hsymbol, ?_⟩, hd.methods⟩, hd.pos⟩ hrest
      · rw [hd.name]
        exact hname
      · exact hd.destructor symbol hsymbol

/-! ### Statements -/

theorem reads_moduleParts {seen : List String} (hseen : ∀ part ∈ seen, IsIdent part)
    (h : ts.AreOf x) : Reads x (fun parts => ∀ part ∈ parts, IsIdent part) (ts.moduleParts seen) := by
  fun_induction moduleParts seen ts with
  | case1 seen _ part _ rest ih =>
    exact ih (forall_mem_append_singleton hseen (h.2.1.ident _ rfl)) h.2.2
  | case2 => exact reads_unexpected h.2
  | case3 => exact reads_error h
  | case4 => exact reads_ok hseen h

theorem reads_moduleName (h : ts.AreOf x) :
    Reads x (fun parts => ∀ part ∈ parts, IsIdent part) ts.moduleName := by
  refine (reads_ident h).bind fun part rest hpart hrest => ?_
  refine (reads_moduleParts (fun p hp => List.mem_singleton.1 hp ▸ hpart) hrest).bind
    fun parts rest hparts hrest => ?_
  exact (skips_punct hrest .semicolon).bind fun rest hrest => reads_ok hparts hrest

/-- Sound declarations at their places in a passage. -/
def AreSoundIn (x : Passage) (ds : Declarations) : Prop := ds.IsSound ∧ ds.StandIn x

variable {ds : Declarations} {attrs : List Attribute}

theorem reads_function {isAsync : Bool} (hattrs : ∀ a ∈ attrs, a.IsOf x) (hds : AreSoundIn x ds)
    (hpos : x.Has pos) (hshows : x.Shows (if isAsync then Keyword.async else .fn).spelling pos)
    (h : ts.AreOf x) : Reads x (AreSoundIn x) (ts.function ds attrs isAsync pos) := by
  refine (reads_signature h).bind fun f rest hf hrest => ?_
  refine (Signature.checks_addAttributes hattrs hf.1).reads fun g hg => ?_
  split
  · exact reads_error hpos
  · rename_i hnew
    obtain ⟨hsound, hstand⟩ := hds
    have hshows' : x.Shows g.keyword.spelling g.pos := by
      rw [Signature.keyword, hg.2.1, hg.2.2, hf.2.1, hf.2.2]
      exact hshows
    have hnodup : ((ds.functions ++ [g]).map (·.name)).Nodup := by
      rw [List.map_append]
      exact nodup_append_singleton hsound.functions_nodup hnew
    exact reads_ok ⟨{ hsound with
        functions := forall_mem_append_singleton hsound.functions hg.1
        functions_nodup := hnodup },
      { hstand with functions := forall_mem_append_singleton hstand.functions hshows' }⟩ hrest

theorem reads_declaration? (hattrs : ∀ a ∈ attrs, a.IsOf x) (hds : AreSoundIn x ds)
    (h : ts.AreOf x) :
    Reads x (fun found => ∀ ds ∈ found, AreSoundIn x ds) (ts.declaration? ds attrs) := by
  have hsome : ∀ {ds : Declarations}, AreSoundIn x ds → ∀ es ∈ some ds, AreSoundIn x es := by
    rintro ds hds _ ⟨⟩
    exact hds
  obtain ⟨hsound, hstand⟩ := hds
  unfold declaration?
  split
  · refine (reads_function hattrs ⟨hsound, hstand⟩ h.1.has (h.1.keyword _ rfl) h.2).bind ?_
    exact fun es rest hes hrest => reads_ok (hsome hes) hrest
  · refine (reads_function hattrs ⟨hsound, hstand⟩ h.1.has (h.1.keyword _ rfl) h.2.2).bind ?_
    exact fun es rest hes hrest => reads_ok (hsome hes) hrest
  · refine (reads_struct hattrs h.1.has h.2).bind fun r rest hr hrest => reads_ok (hsome ?_) hrest
    exact ⟨{ hsound with records := forall_mem_append_singleton hsound.records hr.1 },
      { hstand with records :=
          forall_mem_append_singleton hstand.records (hr.2 ▸ h.1.keyword _ rfl) }⟩
  · refine (reads_enum hattrs h.1.has h.2).bind fun e rest he hrest => reads_ok (hsome ?_) hrest
    exact ⟨{ hsound with enums := forall_mem_append_singleton hsound.enums he.1 },
      { hstand with enums :=
          forall_mem_append_singleton hstand.enums (he.2 ▸ h.1.keyword _ rfl) }⟩
  · refine (reads_handle hattrs h.1.has h.2).bind fun d rest hd hrest => reads_ok (hsome ?_) hrest
    exact ⟨{ hsound with handles := forall_mem_append_singleton hsound.handles hd.1 },
      { hstand with handles :=
          forall_mem_append_singleton hstand.handles (hd.2 ▸ h.1.keyword _ rfl) }⟩
  · exact reads_error h.2
  · exact reads_error h
  · exact reads_ok nofun h

theorem reads_statement? (hds : AreSoundIn x ds) (h : ts.AreOf x) :
    Reads x (fun found => ∀ ds ∈ found, AreSoundIn x ds) (ts.statement? ds) := by
  unfold statement?
  split
  · split
    · exact reads_error h.1.has
    · refine (reads_moduleName h.2).bind fun parts rest hparts hrest => reads_ok ?_ hrest
      rintro _ ⟨⟩
      exact ⟨{ hds.1 with modulePath := hparts }, { hds.2 with }⟩
  · refine reads_ok ?_ h.2
    rintro _ ⟨⟩
    exact hds
  · refine (reads_attributes (List.forall_mem_nil _) h).bind fun attrs rest hattrs hrest => ?_
    refine (reads_declaration? hattrs hds hrest).bind fun found rest hfound hrest => ?_
    split
    · exact reads_error (hattrs _ List.mem_cons_self).has
    · exact reads_ok hfound hrest

theorem reads_oneStatement (hds : AreSoundIn x ds) (h : ts.AreOf x) :
    Reads x (AreSoundIn x) (ts.oneStatement ds) := by
  have hstatement := reads_statement? hds h
  unfold oneStatement
  split
  · exact hstatement.of_error ‹_›
  · exact reads_failAt h _
  · have hfound := hstatement.of_ok ‹_›
    exact reads_ok (hfound.1 _ rfl) hfound.2

theorem checks_statements (hds : AreSoundIn x ds) (h : ts.AreOf x) :
    Checks x (AreSoundIn x) (ts.statements ds) := by
  fun_induction statements ds ts with
  | case1 => exact checks_ok hds
  | case2 ds ts _ fault hs => exact (reads_oneStatement hds h).of_error hs
  | case3 ds ts _ es rest hs ih =>
    have hone := (reads_oneStatement hds h).of_ok hs
    exact ih hone.1 hone.2

end Tokens

namespace Declarations

/-- A text is read as sound declarations at their places in it, or has a fault in it. -/
theorem isSound_empty : IsSound {} := ⟨nofun, nofun, List.nodup_nil, nofun, nofun, nofun⟩

theorem checks_ofText (text : String) (p : Position) :
    Tokens.Checks ⟨p, text.toList⟩ (Tokens.AreSoundIn ⟨p, text.toList⟩)
      ((Tokens.ofText text p).statements {}) :=
  Tokens.checks_statements
    ⟨isSound_empty, ⟨nofun, nofun, nofun, nofun⟩⟩
    (Tokens.areOf_ofText text p)

theorem areSoundIn_of_parse {text file : String} {p : Position} {ds : Declarations}
    (h : parse text file p = .ok ds) : Tokens.AreSoundIn ⟨p, text.toList⟩ ds := by
  unfold parse at h
  split at h <;> cases h
  exact (checks_ofText text p).of_ok ‹_›

theorem has_of_parse {text file : String} {p : Position} {e : SyntaxError}
    (h : parse text file p = .error e) : (⟨p, text.toList⟩ : Passage).Has e.fault.pos := by
  unfold parse at h
  split at h <;> cases h
  exact (checks_ofText text p).of_error ‹_›

/-- Whatever is read has passed all checks. -/
theorem isSound_of_parse {text file : String} {p : Position} {ds : Declarations}
    (h : parse text file p = .ok ds) : ds.IsSound :=
  (areSoundIn_of_parse h).1

theorem isSound_of_parse_generic : ∃ ds : Declarations,
    parse "fn id<T>(xs: slice<T>, n: S[4]) -> T;" "host.cpp" .start = .ok ds ∧ ds.IsSound := by
  have h : parse "fn id<T>(xs: slice<T>, n: S[4]) -> T;" "host.cpp" .start = .ok { functions :=
      [{ name := "id",
         params := [⟨"xs", .slice false (.generic "T")⟩, ⟨"n", .array (.record "S") 4⟩],
         ret := .generic "T", generics := [⟨"T", []⟩], pos := .start }] } := by
    rw [parse, Tokens.statements_step (by cbv), Tokens.statements]
    rfl
  exact ⟨_, h, isSound_of_parse h⟩

end Declarations
end Bindery
