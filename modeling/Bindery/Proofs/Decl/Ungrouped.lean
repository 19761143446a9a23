import Bindery.Decl.Parser
import Bindery.Proofs.Ty.Derivation

/-!
# Tokens outside of attributes

A square bracket opens the length of an array or a group of attributes, and only in the first case
a number comes next. No rule but the one for attributes passes a bracket of the second kind.
-/
namespace Bindery
open Lexeme

namespace Lexeme

/-- Tokens among which each opening square bracket has a number after it. -/
def AreUngrouped : List Lexeme → Prop
  | [] => True
  | .punct .squareOpen :: ls => (∃ digits, ls.head? = some (.number digits)) ∧ AreUngrouped ls
  | _ :: ls => AreUngrouped ls

variable {l : Lexeme} {ls ms front back : List Lexeme}

theorem areUngrouped_cons (hl : l ≠ .punct .squareOpen) :
    AreUngrouped (l :: ls) ↔ AreUngrouped ls := by
  rw [AreUngrouped]
  exact hl

theorem AreUngrouped.tail (h : AreUngrouped (l :: ls)) : AreUngrouped ls := by
  by_cases hl : l = .punct .squareOpen
  · subst hl
    exact h.2
  · exact (areUngrouped_cons hl).1 h

theorem AreUngrouped.append (h : AreUngrouped ls) (hm : AreUngrouped ms) :
    AreUngrouped (ls ++ ms) := by
  induction ls with
  | nil => exact hm
  | cons l ls ih =>
    by_cases hl : l = .punct .squareOpen
    · subst hl
      obtain ⟨⟨digits, hdigits⟩, hls⟩ := h
      refine ⟨⟨digits, ?_⟩, ih hls⟩
      change (ls ++ ms).head? = _
      rw [List.head?_append, hdigits]
      rfl
    · exact (areUngrouped_cons hl).2 (ih h.tail)

/-- A bracket before which such tokens stand and that no number follows is not one of them. -/
theorem AreUngrouped.split (h : AreUngrouped ls) (hl : ∀ digits, l ≠ .number digits)
    (heq : ls ++ ms = front ++ .punct .squareOpen :: l :: back) :
    ∃ front', front = ls ++ front' ∧ ms = front' ++ .punct .squareOpen :: l :: back := by
  induction ls generalizing front with
  | nil => exact ⟨front, rfl, heq⟩
  | cons k ls ih =>
    cases front with
    | nil =>
      obtain ⟨rfl, htail⟩ := List.cons.inj heq
      obtain ⟨⟨digits, hdigits⟩, -⟩ := h
      have hhead : (ls ++ ms).head? = some (.number digits) := by
        rw [List.head?_append, hdigits]
        rfl
      change ls ++ ms = l :: back at htail
      rw [htail] at hhead
      exact absurd (Option.some.inj hhead) (hl digits)
    | cons k' front =>
      obtain ⟨rfl, htail⟩ := List.cons.inj heq
      obtain ⟨front', rfl, hms⟩ := ih h.tail htail
      exact ⟨front', rfl, hms⟩

end Lexeme

/-! ### Rules that pass no group of attributes -/

namespace Tokens
variable {α β : Type} {ts rest : Tokens} {scope : List String}

/-- Between two places of a stream no group of attributes begins. -/
def Plainly (ts rest : Tokens) : Prop := ∃ ls, Begins ls ts rest ∧ AreUngrouped ls

theorem Plainly.refl (ts : Tokens) : Plainly ts ts := ⟨[], rfl, trivial⟩

theorem Plainly.trans {mid : Tokens} (h : Plainly ts mid) (h' : Plainly mid rest) :
    Plainly ts rest := by
  obtain ⟨ls, hls, hplain⟩ := h
  obtain ⟨ms, hms, hplain'⟩ := h'
  exact ⟨ls ++ ms, begins_append.2 ⟨mid, hls, hms⟩, hplain.append hplain'⟩

theorem Plainly.next {l : Lexeme} (pos : Position) (hl : l ≠ .punct .squareOpen)
    (h : Plainly ts rest) : Plainly (next ⟨l, pos⟩ ts) rest := by
  obtain ⟨ls, hls, hplain⟩ := h
  exact ⟨l :: ls, ⟨pos, ts, rfl, hls⟩, (areUngrouped_cons hl).2 hplain⟩

/-- A rule that takes no group of attributes if it succeeds. -/
def ReadsPlainly (ts : Tokens) (result : Except Fault (α × Tokens)) : Prop :=
  ∀ a rest, result = .ok (a, rest) → Plainly ts rest

theorem readsPlainly_ok (a : α) (h : Plainly ts rest) : ReadsPlainly ts (.ok (a, rest)) := by
  rintro _ _ ⟨⟩
  exact h

theorem readsPlainly_error (fault : Fault) :
    ReadsPlainly ts (.error fault : Except Fault (α × Tokens)) :=
  nofun

theorem readsPlainly_failAt (us : Tokens) (cause : Token → Cause) :
    ReadsPlainly ts (us.failAt cause : Except Fault (α × Tokens)) :=
  fun _ _ h => absurd h failAt_ne_ok

theorem readsPlainly_unexpected (us : Tokens) :
    ReadsPlainly ts (us.unexpected : Except Fault (α × Tokens)) :=
  readsPlainly_failAt us _

theorem ReadsPlainly.of_plainly {mid : Tokens} {x : Except Fault (α × Tokens)} (h : Plainly ts mid)
    (hx : ReadsPlainly mid x) : ReadsPlainly ts x :=
  fun a rest hr => h.trans (hx a rest hr)

theorem ReadsPlainly.bind {x : Except Fault (α × Tokens)} {f : α × Tokens → Except Fault (β × Tokens)}
    (hx : ReadsPlainly ts x) (hf : ∀ a mid, ReadsPlainly mid (f (a, mid))) :
    ReadsPlainly ts (x >>= f) := by
  intro b rest h
  obtain ⟨⟨a, mid⟩, ha, h⟩ := bind_eq_ok.1 h
  exact (hx a mid ha).trans (hf a mid b rest h)

/-- A check takes no token. -/
theorem readsPlainly_check {x : Except Fault α} {f : α → Except Fault (β × Tokens)}
    (hf : ∀ a, ReadsPlainly ts (f a)) : ReadsPlainly ts (x >>= f) := by
  intro b rest h
  obtain ⟨a, -, h⟩ := bind_eq_ok.1 h
  exact hf a b rest h

theorem plainly_punct {p : Punct} (hp : p ≠ .squareOpen) (h : ts.punct p = .ok rest) :
    Plainly ts rest :=
  ⟨[.punct p], begins_of_punct h, (areUngrouped_cons (by simpa using hp)).2 trivial⟩

theorem readsPlainly_punct {p : Punct} {f : Tokens → Except Fault (β × Tokens)} (hp : p ≠ .squareOpen)
    (hf : ∀ mid, ReadsPlainly mid (f mid)) : ReadsPlainly ts (ts.punct p >>= f) := by
  intro b rest h
  obtain ⟨mid, hmid, h⟩ := bind_eq_ok.1 h
  exact (plainly_punct hp hmid).trans (hf mid b rest h)

theorem readsPlainly_punct? {p : Punct} (hp : p ≠ .squareOpen) : ReadsPlainly ts (ts.punct? p) := by
  intro found rest h
  unfold punct? at h
  split at h
  · split at h
    · cases h
      subst_vars
      exact (Plainly.refl _).next _ (by simpa using hp)
    · cases h
      exact Plainly.refl _
  · cases h
  · cases h
    exact Plainly.refl _

theorem readsPlainly_ident : ReadsPlainly ts ts.ident := by
  intro name rest h
  unfold ident at h
  split at h
  · cases h
    exact (Plainly.refl _).next _ nofun
  · exact absurd h unexpected_ne_ok

theorem readsPlainly_separated {item : Rule (List α) α} {closing : Punct} (hc : closing ≠ .squareOpen)
    (hitem : ∀ seen ts, ReadsPlainly ts (item.run seen ts)) (seen : List α) (ts : Tokens) :
    ReadsPlainly ts (separated item closing seen ts) := by
  intro items rest h
  fun_induction separated item closing seen ts with
  | case1 | case2 | case4 => cases h
  | case3 seen ts a after hi _ hclose =>
    cases h
    exact (hitem _ _ _ _ hi).trans (readsPlainly_punct? hc _ _ hclose)
  | case5 seen ts a after hi _ hclose _ hk ih =>
    have hafter := (hitem _ _ _ _ hi).trans (readsPlainly_punct? hc _ _ hclose)
    exact (hafter.trans (plainly_punct (by decide) hk)).trans (ih h)

theorem readsPlainly_block {item : Rule α α} {closing : Punct} (hc : closing ≠ .squareOpen)
    (hitem : ∀ s ts, ReadsPlainly ts (item.run s ts)) (s : α) (ts : Tokens) :
    ReadsPlainly ts (block item closing s ts) := by
  intro items rest h
  fun_induction block item closing s ts with
  | case1 | case3 => cases h
  | case2 s ts _ hclose =>
    cases h
    exact readsPlainly_punct? hc _ _ hclose
  | case4 s ts _ hclose _ _ hi ih =>
    exact ((readsPlainly_punct? hc _ _ hclose).trans (hitem _ _ _ _ hi)).trans (ih h)

/-! ### Types and names -/

theorem areUngrouped_lengths (ls : List Literal) : AreUngrouped (lengthLexemes ls) := by
  induction ls with
  | nil => trivial
  | cons l ls ih => exact ⟨⟨l.text, rfl⟩, ih⟩

theorem areUngrouped_parts (parts : List String) : AreUngrouped (partLexemes parts) := by
  induction parts with
  | nil => trivial
  | cons part parts ih => exact ih

theorem areUngrouped_base (b : BaseTree) : AreUngrouped b.lexemes := by
  induction b with
  | scalar s => trivial
  | text mutable => trivial
  | path first parts => exact areUngrouped_parts parts
  | enclosed e inner ls ih =>
    have hclose : AreUngrouped [.punct .greater] := trivial
    exact ih.append ((areUngrouped_lengths ls).append hclose)

theorem areUngrouped_type (d : TypeTree) : AreUngrouped d.lexemes :=
  (areUngrouped_base d.base).append (areUngrouped_lengths d.lengths)

/-- A rule that finds no type leaves all tokens. -/
theorem typeWithin_none {outer : List Enclosure}
    (h : typeWithin scope outer ts = .ok (none, rest)) : outer = [] ∧ rest = ts := by
  fun_induction typeWithin scope outer ts with
  | case1 | case3 | case4 =>
    obtain ⟨_, -, h⟩ := bind_eq_ok.1 h
    cases h
  | case2 =>
    obtain ⟨_, -, h⟩ := bind_eq_ok.1 h
    obtain ⟨_, -, h⟩ := bind_eq_ok.1 h
    cases h
  | case5 | case8 => exact ⟨(noType_eq_ok h).1, (noType_eq_ok h).2.2⟩
  | case6 =>
    rename_i ih
    cases (ih h).1
  | case7 => exact absurd h unexpected_ne_ok

theorem readsPlainly_type? : ReadsPlainly ts (ts.type? scope) := by
  intro found rest h
  cases found with
  | none =>
    obtain rfl := (typeWithin_none h).2
    exact Plainly.refl _
  | some t =>
    obtain ⟨d, hd⟩ := exists_of_typeWithin h
    obtain ⟨ls, hls, hlexemes⟩ := hd.begins
    rw [openings, List.nil_append] at hlexemes
    exact ⟨ls, hls, hlexemes ▸ areUngrouped_type d⟩

theorem readsPlainly_path : ReadsPlainly ts ts.path := by
  refine readsPlainly_ident.bind fun name mid full rest h => ?_
  obtain ⟨parts, hparts, -⟩ := exists_of_pathFrom h
  exact ⟨_, hparts, areUngrouped_parts parts⟩

/-! ### Parameters and return types -/

theorem readsPlainly_param? : ReadsPlainly ts (ts.param? scope) := by
  refine readsPlainly_check fun _ => ?_
  split
  · rename_i name pos pos' rest
    have hfront : Plainly (.next ⟨.ident name, pos⟩ (.next ⟨.punct .colon, pos'⟩ rest)) rest :=
      ((Plainly.refl _).next _ (by nofun)).next _ (by nofun)
    refine .of_plainly hfront (readsPlainly_type?.bind fun found mid => ?_)
    cases found with
    | some t => exact readsPlainly_ok _ (.refl _)
    | none => exact readsPlainly_failAt _ _
  · exact readsPlainly_error _
  · exact readsPlainly_ok _ (.refl _)

theorem readsPlainly_newParam (seen : List Param) : ReadsPlainly ts (ts.newParam scope seen) := by
  unfold newParam
  split
  · exact readsPlainly_error _
  · exact readsPlainly_failAt _ _
  · rename_i hp
    split
    · exact readsPlainly_failAt _ _
    · exact readsPlainly_ok _ (readsPlainly_param? _ _ hp)

theorem readsPlainly_params (ts : Tokens) :
    ReadsPlainly ts (separated (params scope) .roundClose [] ts) :=
  readsPlainly_separated (by decide) (fun seen _ => readsPlainly_newParam seen) _ _

theorem readsPlainly_paramList : ReadsPlainly ts (ts.paramList scope) := by
  refine (readsPlainly_punct? (by decide)).bind fun closed mid => ?_
  cases closed with
  | true => exact readsPlainly_ok _ (.refl _)
  | false => exact readsPlainly_params mid

theorem readsPlainly_moreParams : ReadsPlainly ts (ts.moreParams scope) := by
  refine (readsPlainly_punct? (by decide)).bind fun closed mid => ?_
  cases closed with
  | true => exact readsPlainly_ok _ (.refl _)
  | false => exact readsPlainly_punct (by decide) fun mid => readsPlainly_params mid

theorem readsPlainly_returnType : ReadsPlainly ts (ts.returnType scope) := by
  refine (readsPlainly_punct? (by decide)).bind fun found mid => ?_
  cases found with
  | false => exact readsPlainly_ok _ (.refl _)
  | true =>
    refine readsPlainly_type?.bind fun t mid => ?_
    cases t with
    | some t => exact readsPlainly_ok _ (.refl _)
    | none => exact readsPlainly_failAt _ _

/-! ### Functions -/

theorem readsPlainly_moreBounds (seen : List String) (ts : Tokens) :
    ReadsPlainly ts (ts.moreBounds seen) := by
  intro all rest h
  fun_induction moreBounds seen ts with
  | case1 | case3 => cases h
  | case2 seen ts _ hp =>
    cases h
    exact readsPlainly_punct? (by decide) _ _ hp
  | case4 seen ts _ hp _ _ hb ih =>
    exact ((readsPlainly_punct? (by decide) _ _ hp).trans (readsPlainly_path _ _ hb)).trans (ih h)

theorem readsPlainly_bounds : ReadsPlainly ts ts.bounds := by
  refine (readsPlainly_punct? (by decide)).bind fun found mid => ?_
  cases found with
  | false => exact readsPlainly_ok _ (.refl _)
  | true => exact readsPlainly_path.bind fun bound mid => readsPlainly_moreBounds _ mid

theorem readsPlainly_generic : ReadsPlainly ts ts.generic := by
  unfold generic
  split
  · refine .of_plainly ((Plainly.refl _).next _ (by nofun)) ?_
    exact readsPlainly_bounds.bind fun bounds mid => readsPlainly_ok _ (.refl _)
  · exact readsPlainly_failAt _ _

theorem readsPlainly_genericList : ReadsPlainly ts ts.genericList := by
  refine (readsPlainly_punct? (by decide)).bind fun found mid => ?_
  cases found with
  | false => exact readsPlainly_ok _ (.refl _)
  | true => exact readsPlainly_separated (by decide) (fun _ _ => readsPlainly_generic) _ _

/-! ### Structs and enumerations -/

theorem readsPlainly_newField (r : Record) : ReadsPlainly ts (ts.newField r) := by
  unfold newField
  split
  · exact readsPlainly_error _
  · exact readsPlainly_failAt _ _
  · rename_i hp
    split
    · exact readsPlainly_error _
    · rename_i hs
      split
      · exact readsPlainly_failAt _ _
      · exact readsPlainly_ok _ ((readsPlainly_param? _ _ hp).trans (plainly_punct (by decide) hs))

theorem readsPlainly_intKind : ReadsPlainly ts ts.intKind := by
  refine (readsPlainly_punct? (by decide)).bind fun found mid => ?_
  cases found with
  | false => exact readsPlainly_ok _ (.refl _)
  | true =>
    dsimp only
    split
    · exact readsPlainly_ok _ ((Plainly.refl _).next _ (by nofun))
    · exact readsPlainly_failAt _ _

theorem readsPlainly_enumItem (enum : String) (kind : IntKind) (seen : List (String × Int))
    (implicit : Int) : ReadsPlainly ts (enumItem enum kind seen implicit ts) := by
  unfold enumItem
  split
  · split
    · exact readsPlainly_error _
    · split
      · refine readsPlainly_check fun value => ?_
        split
        · exact readsPlainly_ok _ ((((Plainly.refl _).next _ (by nofun)).next _ (by nofun)).next _ (by nofun))
        · exact readsPlainly_error _
      · exact readsPlainly_unexpected _
      · exact readsPlainly_error _
      · split
        · exact readsPlainly_ok _ ((Plainly.refl _).next _ (by nofun))
        · exact readsPlainly_error _
  · exact readsPlainly_unexpected _

theorem readsPlainly_enumItems (enum : String) (kind : IntKind) (seen : List (String × Int))
    (implicit : Int) (ts : Tokens) : ReadsPlainly ts (enumItems enum kind seen implicit ts) := by
  intro items rest h
  fun_induction enumItems enum kind seen implicit ts with
  | case1 | case3 | case4 | case6 => cases h
  | case2 _ _ ts _ hc =>
    cases h
    exact readsPlainly_punct? (by decide) _ _ hc
  | case5 _ _ ts _ hc _ _ hi _ hl =>
    cases h
    have hitem := (readsPlainly_punct? (by decide) _ _ hc).trans (readsPlainly_enumItem _ _ _ _ _ _ hi)
    exact hitem.trans (readsPlainly_punct? (by decide) _ _ hl)
  | case7 _ _ ts _ hc _ _ hi _ hl _ hk ih =>
    have hitem := (readsPlainly_punct? (by decide) _ _ hc).trans (readsPlainly_enumItem _ _ _ _ _ _ hi)
    have hcomma := (readsPlainly_punct? (by decide) _ _ hl).trans (plainly_punct (by decide) hk)
    exact (hitem.trans hcomma).trans (ih h)

theorem readsPlainly_enum (attrs : List Attribute) (pos : Position) :
    ReadsPlainly ts (ts.enum attrs pos) := by
  refine readsPlainly_ident.bind fun name mid => ?_
  refine readsPlainly_check fun _ => ?_
  refine readsPlainly_intKind.bind fun kind mid => ?_
  refine readsPlainly_punct (by decide) fun mid => ?_
  refine (readsPlainly_enumItems name kind [] 0 mid).bind fun items mid => ?_
  dsimp only
  split
  · exact readsPlainly_error _
  · exact readsPlainly_ok _ (.refl _)

/-! ### Handles and the module name -/

theorem readsPlainly_symbol : ReadsPlainly ts ts.symbol := by
  refine readsPlainly_punct (by decide) fun mid => ?_
  refine readsPlainly_ident.bind fun name mid => ?_
  exact readsPlainly_punct (by decide) fun mid => readsPlainly_ok _ (.refl _)

theorem readsPlainly_constructor : ReadsPlainly ts ts.constructor := by
  refine readsPlainly_ident.bind fun name mid => ?_
  refine readsPlainly_punct (by decide) fun mid => ?_
  refine readsPlainly_paramList.bind fun params mid => ?_
  exact readsPlainly_symbol.bind fun symbol mid => readsPlainly_ok _ (.refl _)

theorem readsPlainly_selfParam (method : String) : ReadsPlainly ts (ts.selfParam method) := by
  refine readsPlainly_check fun _ => ?_
  split
  · exact readsPlainly_ok _ ((Plainly.refl _).next _ (by nofun))
  · exact readsPlainly_ok _ (((Plainly.refl _).next _ (by nofun)).next _ (by nofun))
  · exact readsPlainly_failAt _ _
  · exact readsPlainly_failAt _ _

theorem readsPlainly_method : ReadsPlainly ts ts.method := by
  refine readsPlainly_ident.bind fun name mid => ?_
  refine readsPlainly_punct (by decide) fun mid => ?_
  refine (readsPlainly_selfParam name).bind fun mutable mid => ?_
  refine readsPlainly_moreParams.bind fun params mid => ?_
  refine readsPlainly_returnType.bind fun ret mid => ?_
  exact readsPlainly_symbol.bind fun symbol mid => readsPlainly_ok _ (.refl _)

theorem readsPlainly_handleItem (d : Handle) : ReadsPlainly ts (ts.handleItem d) := by
  unfold handleItem
  split
  · refine .of_plainly ((Plainly.refl _).next _ (by nofun)) ?_
    exact readsPlainly_constructor.bind fun c mid => readsPlainly_ok _ (.refl _)
  · split
    · exact readsPlainly_error _
    · refine .of_plainly ((Plainly.refl _).next _ (by nofun)) ?_
      exact readsPlainly_symbol.bind fun symbol mid => readsPlainly_ok _ (.refl _)
  · refine .of_plainly ((Plainly.refl _).next _ (by nofun)) ?_
    exact readsPlainly_method.bind fun m mid => readsPlainly_ok _ (.refl _)
  · exact readsPlainly_unexpected _

theorem readsPlainly_handle (attrs : List Attribute) (pos : Position) :
    ReadsPlainly ts (ts.handle attrs pos) := by
  refine readsPlainly_ident.bind fun name mid => ?_
  refine readsPlainly_check fun _ => ?_
  refine readsPlainly_punct (by decide) fun mid => ?_
  refine (readsPlainly_block (by decide) (fun d _ => readsPlainly_handleItem d) _ mid).bind
    fun d mid => ?_
  dsimp only
  split
  · exact readsPlainly_error _
  · split
    · exact readsPlainly_error _
    · exact readsPlainly_ok _ (.refl _)

theorem readsPlainly_moduleParts (seen : List String) (ts : Tokens) :
    ReadsPlainly ts (ts.moduleParts seen) := by
  intro parts rest h
  fun_induction moduleParts seen ts with
  | case1 _ _ _ _ _ ih => exact ((ih h).next _ (by rintro ⟨⟩)).next _ (by rintro ⟨⟩)
  | case2 => exact absurd h unexpected_ne_ok
  | case3 => cases h
  | case4 => cases h; exact .refl _

theorem readsPlainly_moduleName : ReadsPlainly ts ts.moduleName := by
  refine readsPlainly_ident.bind fun part mid => ?_
  refine (readsPlainly_moduleParts [part] mid).bind fun parts mid => ?_
  exact readsPlainly_punct (by decide) fun mid => readsPlainly_ok _ (.refl _)

end Tokens
end Bindery
