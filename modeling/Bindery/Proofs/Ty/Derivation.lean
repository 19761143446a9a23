import Bindery.Proofs.Ty.Grammar
import Bindery.Proofs.Ty.Fits
import Bindery.Proofs.Ty.Reading

/-!
# Types are read by their grammar

The reader of types accepts a text just if the grammar derives its tokens with lengths that fit an
array, and it gives the type of that derivation. It descends to the innermost base type and derives
the types around it on the way out: the wrappers that are still open are those whose first tokens
have been read, so the induction is on them.
-/
namespace Bindery
open Lexeme

/-! ### From a derivation to its type -/

namespace Tokens
variable {ts rest : Tokens} {scope : List String} {outer : List Enclosure} {t u : Ty}

theorem arrayLength_text {l : Literal} (hl : l.IsLength) (p : Position) :
    arrayLength l.text p = .ok l.value.toNat := by
  obtain ⟨hproper, hlow, hhigh⟩ := hl
  have hvalue : numberValue l.text p = .ok l.value := by
    rw [Literal.numberValue_text hproper, if_pos (by omega)]
  simp only [arrayLength, hvalue, bind, Except.bind]
  rw [if_pos (by omega)]

theorem suffixes_of_lengths {ls : List Literal} (hls : ∀ l ∈ ls, l.IsLength)
    (h : Begins (lengthLexemes ls) ts rest) : suffixes t ts = suffixes (t.arrays ls) rest := by
  induction ls generalizing t ts with
  | nil =>
    obtain rfl : ts = rest := h
    rfl
  | cons l ls ih =>
    rw [List.forall_mem_cons] at hls
    obtain ⟨_, _, rfl, _, _, rfl, _, tail, rfl, h⟩ := h
    rw [suffixes, arrayLength_text hls.1]
    exact ih hls.2 h

theorem close_of_lengths {ls : List Literal} (hls : ∀ l ∈ ls, l.IsLength)
    (h : Begins (lengthLexemes ls) ts rest) :
    close outer t ts = close outer (t.arrays ls) rest := by
  cases outer with
  | nil => exact suffixes_of_lengths hls h
  | cons e outer => rw [close, suffixes_of_lengths hls h, close]

theorem pathFrom_of_parts {parts : List String} {start : String}
    (h : Begins (partLexemes parts) ts rest) (hr : rest.Avoids [.doubleColon]) :
    ts.pathFrom start = .ok (pathName start parts, rest) := by
  induction parts generalizing ts start with
  | nil =>
    obtain rfl : ts = rest := h
    obtain ⟨pos, rfl⟩ | ⟨⟨l, pos⟩, tail, rfl, hl⟩ := hr.cases List.mem_cons_self
    · rfl
    · unfold pathFrom
      split
      all_goals simp_all [pathName]
  | cons part parts ih =>
    obtain ⟨_, _, rfl, _, tail, rfl, h⟩ := h
    rw [pathFrom, ih h]
    rfl

/-- A base type is read up to the lengths that may follow it. -/
theorem typeWithin_of_base {b : BaseTree} (hb : b.IsSized) (h : Begins b.lexemes ts rest)
    (hr : rest.Avoids [.doubleColon]) :
    typeWithin scope outer ts = (do
      let (u, us) ← close outer (b.type scope) rest
      .ok (some u, us)) := by
  induction b generalizing outer ts rest with
  | scalar s =>
    obtain ⟨pos, tail, rfl, rfl⟩ := h
    rfl
  | text mutable =>
    obtain ⟨pos, tail, rfl, rfl⟩ := h
    cases mutable <;> rfl
  | path first parts =>
    obtain ⟨pos, tail, rfl, h⟩ := h
    rw [typeWithin, pathFrom_of_parts h hr]
    rfl
  | enclosed e inner ls ih =>
    have hk : Enclosure.ofKeyword? e.keyword = some e := Enclosure.ofKeyword?_eq_some.2 rfl
    obtain ⟨start, htype, h⟩ := typeWithin_enclosed hk h
    obtain ⟨mid, hinner, h⟩ := begins_append.1 h
    obtain ⟨after, hlengths, hafter⟩ := begins_append.1 h
    have havoids : mid.Avoids [.doubleColon] := by
      cases ls with
      | nil =>
        obtain rfl : mid = after := hlengths
        exact hafter.avoids_of_not_mem (by decide)
      | cons l ls => exact hlengths.avoids_of_not_mem (by decide)
    rw [htype, ih hb.1 hinner havoids, close_of_lengths hb.2 hlengths, close_enclosed hafter]
    rfl

/-- Where a type is derived, it is read. -/
theorem wholeType_of_begins {d : TypeTree} (hd : d.IsSized) {pos : Position}
    (h : Begins d.lexemes ts (.done pos)) : ts.wholeType scope = .ok (d.type scope) := by
  obtain ⟨mid, hbase, hlengths⟩ := begins_append.1 h
  have havoids : mid.Avoids [.doubleColon] := by
    cases hls : d.lengths with
    | nil =>
      rw [hls] at hlengths
      obtain rfl : mid = .done pos := hlengths
      exact avoids_done
    | cons l ls =>
      rw [hls] at hlengths
      exact hlengths.avoids_of_not_mem (by decide)
  rw [wholeType, type?, typeWithin_of_base hd.1 hbase havoids, close_of_lengths hd.2 hlengths]
  rfl

/-! ### From a type to its derivation -/

theorem begins_of_punct {p : Punct} (h : ts.punct p = .ok rest) : Begins [.punct p] ts rest := by
  unfold punct at h
  split at h
  · split at h
    · cases h
      subst_vars
      exact ⟨_, _, rfl, rfl⟩
    · exact absurd h unexpected_ne_ok
  · exact absurd h unexpected_ne_ok

theorem exists_of_arrayLength {digits : String} {p : Position} {n : ℕ}
    (h : arrayLength digits p = .ok n) :
    ∃ l : Literal, l.IsLength ∧ l.text = digits ∧ l.value.toNat = n := by
  obtain ⟨v, hv, h⟩ := bind_eq_ok.1 h
  split at h
  · cases h
    obtain ⟨l, hl, htext, rfl⟩ := Literal.exists_of_numberValue hv (by omega)
    exact ⟨l, ⟨hl, by omega, by omega⟩, htext, rfl⟩
  · cases h

theorem exists_of_suffixes (h : suffixes t ts = .ok (u, rest)) :
    ∃ ls : List Literal, (∀ l ∈ ls, l.IsLength) ∧ Begins (lengthLexemes ls) ts rest ∧
      t.arrays ls = u := by
  fun_induction suffixes t ts with
  | case1 => cases h
  | case2 t _ digits p n hn tail _ ih =>
    obtain ⟨l, hl, rfl, rfl⟩ := exists_of_arrayLength hn
    obtain ⟨ls, hls, htail, htype⟩ := ih h
    exact ⟨l :: ls, List.forall_mem_cons.2 ⟨hl, hls⟩, ⟨_, _, rfl, _, _, rfl, _, _, rfl, htail⟩,
      htype⟩
  | case3 | case4 => exact absurd h unexpected_ne_ok
  | case5 => cases h
  | case6 =>
    cases h
    exact ⟨[], List.forall_mem_nil _, rfl, rfl⟩

theorem exists_of_pathFrom {start name : String} (h : ts.pathFrom start = .ok (name, rest)) :
    ∃ parts, Begins (partLexemes parts) ts rest ∧ pathName start parts = name := by
  fun_induction pathFrom start ts with
  | case1 start _ part _ tail ih =>
    obtain ⟨parts, htail, hname⟩ := ih h
    exact ⟨part :: parts, ⟨_, _, rfl, _, _, rfl, htail⟩, hname⟩
  | case2 => exact absurd h unexpected_ne_ok
  | case3 => cases h
  | case4 =>
    cases h
    exact ⟨[], rfl, rfl⟩

/-- The tokens that open wrappers, of which the innermost comes first. -/
def openings : List Enclosure → List Lexeme
  | [] => []
  | e :: outer => openings outer ++ [.keyword e.keyword, .punct .less]

/-- A derivation whose tokens up to some place are given, and whose other tokens are next. -/
structure Completes (scope : List String) (front : List Lexeme) (ts rest : Tokens) (t : Ty)
    (d : TypeTree) : Prop where
  isSized : d.IsSized
  type : d.type scope = t
  begins : ∃ ls, Begins ls ts rest ∧ d.lexemes = front ++ ls

theorem Completes.of_begins {front ls : List Lexeme} {d : TypeTree} {mid : Tokens}
    (h : Completes scope (front ++ ls) mid rest t d) (hls : Begins ls ts mid) :
    Completes scope front ts rest t d := by
  obtain ⟨more, hmore, hlexemes⟩ := h.begins
  exact ⟨h.isSized, h.type, ls ++ more, begins_append.2 ⟨mid, hls, hmore⟩,
    by rw [hlexemes, List.append_assoc]⟩

/-- Each wrapper is closed around a type that is derived already. -/
theorem completes_of_close {b : BaseTree} (hb : b.IsSized)
    (h : close outer (b.type scope) ts = .ok (t, rest)) :
    ∃ d, Completes scope (openings outer ++ b.lexemes) ts rest t d := by
  induction outer generalizing b ts with
  | nil =>
    obtain ⟨ls, hls, hlengths, htype⟩ := exists_of_suffixes h
    exact ⟨⟨b, ls⟩, ⟨hb, hls⟩, htype, lengthLexemes ls, hlengths, rfl⟩
  | cons e outer ih =>
    obtain ⟨⟨u, mid⟩, hsuffixes, h⟩ := bind_eq_ok.1 h
    obtain ⟨after, hclose, h⟩ := bind_eq_ok.1 h
    obtain ⟨ls, hls, hlengths, rfl⟩ := exists_of_suffixes hsuffixes
    obtain ⟨d, hd⟩ := @ih after (.enclosed e b ls) ⟨hb, hls⟩ h
    have hfront : openings outer ++ (BaseTree.enclosed e b ls).lexemes =
        openings (e :: outer) ++ b.lexemes ++ (lengthLexemes ls ++ [.punct .greater]) := by
      simp [openings, BaseTree.lexemes]
    rw [hfront] at hd
    exact ⟨d, hd.of_begins (begins_append.2 ⟨mid, hlengths, begins_of_punct hclose⟩)⟩

theorem exists_of_typeWithin (h : typeWithin scope outer ts = .ok (some t, rest)) :
    ∃ d, Completes scope (openings outer) ts rest t d := by
  have hbase : ∀ {outer : List Enclosure} {b : BaseTree} {ts mid : Tokens}, b.IsSized →
      Begins b.lexemes ts mid →
      (close outer (b.type scope) mid >>= fun r => .ok (some r.1, r.2)) = .ok (some t, rest) →
      ∃ d, Completes scope (openings outer) ts rest t d := by
    intro outer b ts mid hb hbegins h
    obtain ⟨⟨u, after⟩, hclose, ⟨⟩⟩ := bind_eq_ok.1 h
    obtain ⟨d, hd⟩ := completes_of_close hb hclose
    exact ⟨d, hd.of_begins hbegins⟩
  fun_induction typeWithin scope outer ts with
  | case1 outer s _ tail => exact @hbase outer (.scalar s) _ tail trivial ⟨_, _, rfl, rfl⟩ h
  | case2 outer name _ tail =>
    obtain ⟨⟨full, mid⟩, hpath, h⟩ := bind_eq_ok.1 h
    obtain ⟨parts, hparts, rfl⟩ := exists_of_pathFrom hpath
    exact @hbase outer (.path name parts) _ mid trivial ⟨_, _, rfl, hparts⟩ h
  | case3 outer _ tail => exact @hbase outer (.text false) _ tail trivial ⟨_, _, rfl, rfl⟩ h
  | case4 outer _ tail => exact @hbase outer (.text true) _ tail trivial ⟨_, _, rfl, rfl⟩ h
  | case5 | case8 => cases (noType_eq_ok h).2.1
  | case6 =>
    rename_i hk _ _ ih
    obtain ⟨d, hd⟩ := ih h
    obtain rfl := Enclosure.ofKeyword?_eq_some.1 hk
    exact ⟨d, hd.of_begins ⟨_, _, rfl, _, _, rfl, rfl⟩⟩
  | case7 => exact absurd h unexpected_ne_ok

/-- What is read as a type is derived. -/
theorem exists_of_wholeType (h : ts.wholeType scope = .ok t) :
    ∃ d : TypeTree, d.IsSized ∧ d.type scope = t ∧ ∃ pos, Begins d.lexemes ts (.done pos) := by
  obtain ⟨⟨found, mid⟩, htype, h⟩ := bind_eq_ok.1 h
  cases found with
  | none => exact absurd h unexpected_ne_ok
  | some u =>
    obtain ⟨⟨⟩, hend, ⟨⟩⟩ := bind_eq_ok.1 h
    unfold endOfText at hend
    split at hend
    · obtain ⟨d, hd⟩ := exists_of_typeWithin htype
      obtain ⟨ls, hls, hlexemes⟩ := hd.begins
      rw [openings, List.nil_append] at hlexemes
      exact ⟨d, hd.isSized, hd.type, _, hlexemes ▸ hls⟩
    · exact absurd hend unexpected_ne_ok

/-- A stream has the tokens of one list only. -/
theorem begins_unique {ls ls' : List Lexeme} {pos pos' : Position}
    (h : Begins ls ts (.done pos)) (h' : Begins ls' ts (.done pos')) : ls = ls' := by
  induction ls generalizing ls' ts with
  | nil =>
    obtain rfl : ts = .done pos := h
    cases ls' with
    | nil => rfl
    | cons l' ls' =>
      obtain ⟨_, _, hdone, -⟩ := h'
      cases hdone
  | cons l ls ih =>
    obtain ⟨_, tail, rfl, h⟩ := h
    cases ls' with
    | nil => cases h'
    | cons l' ls' =>
      obtain ⟨_, _, ⟨⟩, h'⟩ := h'
      rw [ih h h']

end Tokens

namespace Ty
variable {text : String} {scope : List String} {t u : Ty}

theorem parse_eq_ok_iff : Ty.parse text scope = .ok t ↔
    ∃ d : TypeTree, d.IsSized ∧ d.Derives text ∧ d.type scope = t := by
  constructor
  · intro h
    obtain ⟨d, hd, htype, hbegins⟩ := Tokens.exists_of_wholeType h
    exact ⟨d, hd, hbegins, htype⟩
  · rintro ⟨d, hd, ⟨pos, hbegins⟩, rfl⟩
    exact Tokens.wholeType_of_begins hd hbegins

theorem parse_render_of_fits (h : t.Fits scope) : Ty.parse t.render scope = .ok t := by
  rw [parse_rendered h.1, inScope_of_isScoped h.2]

theorem eq_of_render_eq (ht : t.Fits scope) (hu : u.Fits scope) (h : t.render = u.render) :
    t = u := by
  have hparse := parse_render_of_fits ht
  rw [h, parse_render_of_fits hu] at hparse
  exact (Except.ok.inj hparse).symm

/-- A text, which ends at its first null character, is read as a type just if the grammar derives
it, and the type is that of its only derivation. A type of the language is read back from what is
printed for it, so no two of them are printed alike. -/
theorem parse_grammar (scope : List String) :
    (∀ text t, Ty.parse text scope = .ok t ↔
      ∃ d : TypeTree, d.IsSized ∧ d.Derives text ∧ d.type scope = t) ∧
    (∀ text (d d' : TypeTree), d.IsSized → d'.IsSized → d.Derives text → d'.Derives text →
      d = d') ∧
    (∀ t : Ty, t.Fits scope → Ty.parse t.render scope = .ok t) ∧
    ∀ t u : Ty, t.Fits scope → u.Fits scope → t.render = u.render → t = u := by
  refine ⟨fun _ _ => parse_eq_ok_iff, ?_, fun _ => parse_render_of_fits,
    fun _ _ => eq_of_render_eq⟩
  rintro text d d' hd hd' ⟨_, h⟩ ⟨_, h'⟩
  exact TypeTree.unique hd hd' (Tokens.begins_unique h h')

/-- An array of arrays: the last length in the text is that of the outer one. -/
theorem parse_grammar_arrays :
    let t : Ty := .wrapped .ref (.array (.array (.generic "T") 2) 3)
    t.Fits ["T"] ∧ Ty.parse "ref<T[2][3]>" ["T"] = .ok t ∧
      ∃! d : TypeTree, d.IsSized ∧ d.Derives "ref<T[2][3]>" := by
  intro t
  obtain ⟨hgrammar, hunique, hprinted, -⟩ := parse_grammar ["T"]
  have ht : t.Fits ["T"] := ⟨by decide, by decide⟩
  have hparse : Ty.parse "ref<T[2][3]>" ["T"] = .ok t := hprinted t ht
  obtain ⟨d, hd, hderives, -⟩ := (hgrammar _ _).1 hparse
  exact ⟨ht, hparse, d, ⟨hd, hderives⟩, fun d' h => hunique _ d' d h.1 hd h.2 hderives⟩

end Ty
end Bindery
