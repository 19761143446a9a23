import Bindery.Proofs.Promote.Places
import Bindery.Proofs.Zig.Token

/-!
# Promotion and declarations

Promotion looks at the characters around an equals sign. Seen by tokens, a place is either within a
literal or a comment, or it is an assignment of a struct in code. Only those that a declaration
makes, `const` with a name, are meant; promotion is confined to them just if no other text has
the shape of a place.
-/
namespace Bindery.Zig
open Text

/-- Blanks, line ends and comments, which may stand between any two tokens. -/
def Token.isGap : Token → Bool
  | space _ | comment _ => true
  | _ => false

/-- The blanks within a line. -/
def Token.isBlank : Token → Bool
  | space c => Promote.isSpace c
  | _ => false

/-- The tokens of code, other than literals and comments. -/
def Token.isCode : Token → Bool
  | space _ | word _ | mark _ => true
  | _ => false

/-- Whether a declaration may begin after some tokens, the last one first. -/
def beginsDeclaration (before : List Token) : Bool :=
  match before.dropWhile Token.isGap with
  | [] => true
  | .mark c :: _ => c = ';' || c = ',' || c = '\x7b' || c = '\x7d'
  | .word name :: _ => name = "pub".toList
  | _ => false

/-- Whether some tokens, the last one first, end in `const` where a declaration may begin. -/
def endsInConst (before : List Token) : Bool :=
  match before.dropWhile Token.isGap with
  | .word name :: more => name = "const".toList && beginsDeclaration more
  | _ => false

/-- Whether some tokens, the last one first, declare a name. A name may also be written in quotes. -/
def declaresName (before : List Token) : Bool :=
  match before.dropWhile Token.isGap with
  | .word _ :: more => endsInConst more
  | .quoted '"' _ :: .mark '@' :: more => endsInConst more
  | _ => false

/-- Whether the keyword `struct` comes next in the same line. -/
def isBeforeStruct (after : List Token) : Bool :=
  (after.dropWhile Token.isBlank).head? = some (.word "struct".toList)

/-- The equals sign after a piece of a text belongs to the declaration of a name. -/
def IsDeclared (code front : List Char) : Prop :=
  ∃ before after, tokens code = before ++ .mark '=' :: after ∧ spell before = front ∧
    declaresName before.reverse = true

variable {c : Char} {cs back blanks : List Char} {t : Token} {ts us : List Token}

theorem tokens_space (h : Promote.isSpace c = true) (cs : List Char) :
    tokens (c :: cs) = .space c :: tokens cs := by
  rw [Promote.isSpace, Bool.or_eq_true, decide_eq_true_eq, decide_eq_true_eq] at h
  rcases h with rfl | rfl <;> rw [tokens_cons] <;> rfl

theorem tokens_blanks (h : ∀ c ∈ blanks, Promote.isSpace c = true) (cs : List Char) :
    tokens (blanks ++ cs) = blanks.map .space ++ tokens cs := by
  induction blanks with
  | nil => rfl
  | cons c blanks ih =>
    obtain ⟨hc, hblanks⟩ := List.forall_mem_cons.1 h
    rw [List.cons_append, tokens_space hc, ih hblanks]
    rfl

theorem tokens_struct (hwhole : ∀ c ∈ back.head?, isNameChar c = false) :
    tokens ("struct".toList ++ back) = .word "struct".toList :: tokens back := by
  have hname : ∀ c ∈ "truct".toList, isNameChar c = true := fun c hc =>
    List.all_eq_true.1 (rfl : "truct".toList.all isNameChar = true) c hc
  have hsplit : ("truct".toList ++ back).takeWhile isNameChar = "truct".toList ∧
      ("truct".toList ++ back).dropWhile isNameChar = back := by
    rw [List.takeWhile_append_of_pos hname, List.dropWhile_append_of_pos hname]
    cases back with
    | nil => simp
    | cons d back => simp [hwhole d rfl]
  have hlexeme : lexeme 's' ("truct".toList ++ back) = (.word "struct".toList, back) := by
    change ((.word ('s' :: ("truct".toList ++ back).takeWhile isNameChar),
      ("truct".toList ++ back).dropWhile isNameChar) : Token × List Char) = _
    rw [hsplit.1, hsplit.2]
    rfl
  have htokens := tokens_cons 's' ("truct".toList ++ back)
  rw [hlexeme] at htokens
  exact htokens

/-- The keyword comes next among the tokens if it does among the characters. -/
theorem isBeforeStruct_of_place (hblank : ∀ c ∈ blanks, Promote.isSpace c = true)
    (hwhole : ∀ c ∈ back.head?, isNameChar c = false) :
    isBeforeStruct (tokens (blanks ++ ("struct".toList ++ back))) = true := by
  have hall : ∀ t ∈ blanks.map Token.space, t.isBlank = true := by
    intro t ht
    obtain ⟨c, hc, rfl⟩ := List.mem_map.1 ht
    exact hblank c hc
  rw [isBeforeStruct, tokens_blanks hblank, List.dropWhile_append_of_pos hall, tokens_struct hwhole]
  exact decide_eq_true rfl

theorem isSpace_spell (h : ∀ t ∈ ts, t.isBlank = true) : ∀ c ∈ spell ts, Promote.isSpace c = true := by
  intro c hc
  obtain ⟨t, ht, hc⟩ := List.mem_flatMap.1 hc
  have hblank := h t ht
  cases t with
  | space d => exact List.mem_singleton.1 hc ▸ hblank
  | _ => cases hblank

/-- The keyword comes next among the characters if it does among the tokens. -/
theorem exists_struct (h : tokens cs = ts ++ us) (hstruct : isBeforeStruct us = true) :
    ∃ blanks back, spell us = blanks ++ ("struct".toList ++ back) ∧
      (∀ c ∈ blanks, Promote.isSpace c = true) ∧ ∀ c ∈ back.head?, isNameChar c = false := by
  have hsplit := List.takeWhile_append_dropWhile (p := Token.isBlank) (l := us)
  obtain ⟨more, hmore⟩ := List.head?_eq_some_iff.1 (of_decide_eq_true hstruct)
  rw [hmore] at hsplit
  have hblank : ∀ t ∈ us.takeWhile Token.isBlank, t.isBlank = true :=
    fun t => List.mem_takeWhile_imp
  refine ⟨spell (us.takeWhile Token.isBlank), spell more, ?_, isSpace_spell hblank, ?_⟩
  · conv_lhs => rw [← hsplit]
    rw [spell_append, spell_cons]
    rfl
  · rw [← hsplit, ← List.append_assoc] at h
    cases isLexed_of_tokens h with
    | word _ _ hrest => exact hrest

/-! ### Places and tokens -/

theorem Token.IsLexed.spell_ne_nil {rest : List Char} (h : t.IsLexed rest) : t.spell ≠ [] := by
  cases h with
  | space | mark | quoted => exact List.cons_ne_nil _ _
  | word hne => exact hne
  | comment htext | line htext =>
    rintro hnil
    rw [Token.spell] at hnil
    rw [hnil] at htext
    cases htext

/-- Of the tokens that an equals sign follows only another one ends in one. -/
theorem Token.IsLexed.eq_mark {rest : List Char} (h : t.IsLexed ('=' :: rest))
    (hlast : t.spell.getLast? = some '=') : t = .mark '=' := by
  cases h with
  | space hc =>
    obtain rfl := Option.some.inj hlast
    cases hc
  | word _ hname =>
    exact absurd (hname _ (List.mem_of_getLast? hlast)) (by decide)
  | mark =>
    obtain rfl := Option.some.inj hlast
    rfl
  | @quoted quote text _ hquote hrest =>
    rcases hrest with hrest | hclosed
    · exact absurd (hrest _ rfl) (by decide)
    · rw [Token.spell, List.getLast?_cons, hclosed] at hlast
      rcases hquote with rfl | rfl <;> cases hlast
  | comment _ hrest | line _ hrest => exact absurd (hrest _ rfl) (by decide)

theorem getLast?_spell_concat {rest : List Char} (h : t.IsLexed rest) (ts : List Token) :
    (spell (ts ++ [t])).getLast? = t.spell.getLast? := by
  rw [spell_append, spell_cons, spell_nil, List.append_nil,
    List.getLast?_append_of_ne_nil _ h.spell_ne_nil]

/-- An assignment of a struct in code is a place. -/
theorem exists_isPlace_of_tokens (h : tokens cs = ts ++ .mark '=' :: us)
    (halone : ts.getLast? ≠ some (.mark '=')) (hstruct : isBeforeStruct us = true) :
    ∃ blanks back, Promote.IsPlace none cs (spell ts) blanks back := by
  have hus : tokens cs = (ts ++ [.mark '=']) ++ us := by rw [h, List.append_assoc]; rfl
  obtain ⟨blanks, back, hspell, hblank, hwhole⟩ := exists_struct hus hstruct
  refine ⟨blanks, back, ?_, ?_, hblank, hwhole⟩
  · rw [← spell_tokens cs, h, spell_append, spell_cons, hspell]
    rfl
  · rcases List.eq_nil_or_concat ts with rfl | ⟨ts, t, rfl⟩
    · simp
    · rw [List.concat_eq_append] at h halone ⊢
      rw [List.append_assoc, List.singleton_append] at h
      have hlexed := isLexed_of_tokens h
      rw [getLast?_spell_concat hlexed, Option.or_none]
      intro hlast
      exact halone (by rw [List.getLast?_concat, hlexed.eq_mark hlast])

section
variable {p q rest : List Char}

theorem Token.IsLexed.head_ne (h : t.IsLexed rest) (hcode : t.isCode = false) :
    t.spell.head? ≠ some '=' := by
  cases h with
  | space | word | mark => cases hcode
  | quoted hquote => rcases hquote with rfl | rfl <;> simp [Token.spell]
  | comment htext | line htext => simp [Token.spell, htext]

/-- What stands after a literal or a comment does not matter for an equals sign in it. -/
theorem Token.IsLexed.isSome_afterStruct? (h : t.IsLexed rest) (hcode : t.isCode = false)
    (ht : t.spell = p ++ '=' :: q) :
    (Promote.afterStruct? (q ++ rest)).isSome = (Promote.afterStruct? q).isSome := by
  have hline : (∀ c ∈ rest.head?, c = '\n') →
      (Promote.afterStruct? (q ++ rest)).isSome = (Promote.afterStruct? q).isSome := by
    intro hrest
    cases rest with
    | nil => rw [List.append_nil]
    | cons c rest =>
      obtain rfl := hrest c rfl
      rw [Promote.afterStruct?_append_cons rfl rfl, Option.isSome_map]
  cases h with
  | space | word | mark => cases hcode
  | comment _ hrest | line _ hrest => exact hline hrest
  | @quoted quote text _ hquote hrest =>
    refine hrest.elim hline fun hclosed => ?_
    have hlast := congrArg List.getLast? ht
    rw [Token.spell, List.getLast?_cons, hclosed, List.getLast?_append, List.getLast?_cons] at hlast
    have hstop : Promote.isSpace quote = false ∧ isNameChar quote = false ∧ quote ≠ '=' := by
      rcases hquote with rfl | rfl <;> exact ⟨rfl, rfl, by decide⟩
    rcases List.eq_nil_or_concat q with rfl | ⟨q, c, rfl⟩
    · exact absurd (Option.some.inj hlast) hstop.2.2
    · rw [List.concat_eq_append, List.getLast?_concat] at hlast
      obtain rfl : quote = c := Option.some.inj hlast
      rw [List.concat_eq_append, List.append_assoc, List.singleton_append,
        Promote.afterStruct?_append_cons hstop.1 hstop.2.1,
        Promote.afterStruct?_append_cons hstop.1 hstop.2.1, Option.isSome_map, Option.isSome_map]

/-- A place within a literal or a comment is a place of the text, and all of it lies within. -/
theorem exists_isPlace_literal (h : tokens cs = ts ++ t :: us) (hcode : t.isCode = false)
    (ht : t.spell = p ++ '=' :: q) :
    (∃ blanks back, Promote.IsPlace none cs (spell ts ++ p) blanks back) ↔
      ∃ blanks back, Promote.IsPlace none t.spell p blanks back := by
  have hlexed := isLexed_of_tokens h
  have hcs : cs = (spell ts ++ p) ++ '=' :: (q ++ spell us) := by
    rw [← spell_tokens cs, h, spell_append, spell_cons, ht]
    simp
  have hp : p ≠ [] := by
    rintro rfl
    exact hlexed.head_ne hcode (by rw [ht]; rfl)
  rw [ht]
  conv_lhs => rw [hcs]
  rw [Promote.exists_isPlace_iff, Promote.exists_isPlace_iff, List.getLast?_append_of_ne_nil _ hp,
    hlexed.isSome_afterStruct? hcode ht]

end

/-- Every place lies within a literal or a comment, or is an assignment of a struct in code. -/
theorem tokens_of_isPlace {front : List Char} (h : Promote.IsPlace none cs front blanks back) :
    (∃ t ∈ tokens cs, t.isCode = false ∧ ¬ Promote.IsSettled none t.spell) ∨
      ∃ ts us, tokens cs = ts ++ .mark '=' :: us ∧ spell ts = front ∧
        ts.getLast? ≠ some (.mark '=') ∧ isBeforeStruct us = true := by
  have hspell : spell (tokens cs) = front ++ '=' :: (blanks ++ ("struct".toList ++ back)) := by
    rw [spell_tokens, ← h.code_eq]
  obtain ⟨ts, t, us, p, q, htokens, rfl, ht, hrest⟩ := exists_token hspell
  have hlexed := isLexed_of_tokens htokens
  cases hcode : t.isCode with
  | false =>
    obtain ⟨bs, cs, hplace⟩ := (exists_isPlace_literal htokens hcode ht).1 ⟨_, _, h⟩
    exact .inl ⟨t, htokens ▸ by simp, hcode, fun hsettled => hsettled _ _ _ hplace⟩
  | true =>
    have hmem : '=' ∈ t.spell := ht ▸ by simp
    have hmark : t = .mark '=' := by
      cases hlexed with
      | space hc =>
        obtain rfl := List.mem_singleton.1 hmem
        cases hc
      | word _ hname => exact absurd (hname _ hmem) (by decide)
      | mark => rw [List.mem_singleton.1 hmem]
      | quoted | comment | line => cases hcode
    subst hmark
    have hpq : p = [] ∧ q = [] := by
      have := congrArg List.length ht
      simp only [Token.spell, List.length_append, List.length_cons, List.length_nil] at this
      exact ⟨List.eq_nil_of_length_eq_zero (by omega), List.eq_nil_of_length_eq_zero (by omega)⟩
    obtain ⟨rfl, rfl⟩ := hpq
    refine .inr ⟨ts, us, htokens, (List.append_nil _).symm, ?_, ?_⟩
    · intro hlast
      obtain ⟨ts, rfl⟩ := List.getLast?_eq_some_iff.1 hlast
      exact h.alone (by simp [Token.spell])
    · have hus : tokens cs = (ts ++ [.mark '=']) ++ us := by rw [htokens, List.append_assoc]; rfl
      rw [← tokens_spell hus, ← List.nil_append (spell us), ← hrest]
      exact isBeforeStruct_of_place h.blank h.whole

/-- Tokens in front are known from their text. -/
theorem eq_of_spell_eq {before after : List Token} (hts : tokens cs = ts ++ us)
    (hbefore : tokens cs = before ++ after) (hspell : spell ts = spell before) : ts = before := by
  have hempty : ∀ {front mid back : List Token}, tokens cs = front ++ mid ++ back →
      spell (front ++ mid) = spell front → mid = [] := by
    intro front mid back htokens hspell
    cases mid with
    | nil => rfl
    | cons t mid =>
      rw [List.append_assoc, List.cons_append] at htokens
      rw [spell_append, spell_cons, List.append_right_eq_self, List.append_eq_nil_iff] at hspell
      exact absurd hspell.1 (isLexed_of_tokens htokens).spell_ne_nil
  rcases List.append_eq_append_iff.1 (hts.symm.trans hbefore) with ⟨more, rfl, -⟩ | ⟨more, rfl, -⟩
  · rw [hempty hbefore hspell.symm, List.append_nil]
  · rw [hempty hts hspell, List.append_nil]

/-- A literal or a comment is not cut by the tokens in front of another one. -/
theorem spell_ne_of_literal {before after : List Token} {p q : List Char}
    (h : tokens cs = ts ++ t :: us) (hcode : t.isCode = false) (ht : t.spell = p ++ '=' :: q)
    (hbefore : tokens cs = before ++ .mark '=' :: after) : spell before ≠ spell ts ++ p := by
  intro hspell
  have hlength := congrArg List.length hspell
  have htlength := congrArg List.length ht
  rw [List.length_append] at hlength
  rw [List.length_append, List.length_cons] at htlength
  rcases List.append_eq_append_iff.1 (h.symm.trans hbefore) with
    ⟨more, rfl, hmore⟩ | ⟨more, rfl, hmore⟩
  · cases more with
    | nil =>
      obtain rfl : t = .mark '=' := (List.cons.inj hmore).1
      cases hcode
    | cons u more =>
      obtain rfl : t = u := (List.cons.inj hmore).1
      rw [spell_append, spell_cons, List.length_append, List.length_append] at hlength
      omega
  · cases more with
    | nil =>
      obtain rfl : .mark '=' = t := (List.cons.inj hmore).1
      cases hcode
    | cons u more =>
      obtain rfl : .mark '=' = u := (List.cons.inj hmore).1
      rw [spell_append, spell_cons, List.length_append, List.length_append] at hlength
      simp only [Token.spell, List.length_singleton] at hlength
      omega

end Bindery.Zig

namespace Bindery.Promote
open Zig

/-- Promotion changes a text at its places only. These are all declarations of names just if no literal
and no comment holds one, and if in code an equals sign that follows no other one and stands before
the keyword belongs to such a declaration. -/
theorem promotes_declarations_iff (code : String) :
    (∃ lead places, IsDivided none code.toList (promote code).toList lead places) ∧
      ((∀ front blanks back, IsPlace none code.toList front blanks back →
          IsDeclared code.toList front) ↔
        (∀ t ∈ tokens code.toList, t.isCode = false → IsSettled none t.spell) ∧
        ∀ before after, tokens code.toList = before ++ .mark '=' :: after →
          before.getLast? ≠ some (.mark '=') → isBeforeStruct after = true →
          declaresName before.reverse = true) := by
  refine ⟨?_, fun hdeclared => ⟨fun t ht hcode p blanks back hplace => ?_,
    fun before after hbefore halone hstruct => ?_⟩,
    fun ⟨hsettled, hassigned⟩ front blanks back hplace => ?_⟩
  · rw [promote, String.toList_ofList]
    exact exists_isDivided _ _
  · obtain ⟨ts, us, htokens⟩ := List.append_of_mem ht
    obtain ⟨bs, more, hcode'⟩ := (exists_isPlace_literal htokens hcode hplace.code_eq).2 ⟨_, _, hplace⟩
    obtain ⟨before, after, hbefore, hspell, -⟩ := hdeclared _ _ _ hcode'
    exact spell_ne_of_literal htokens hcode hplace.code_eq hbefore hspell
  · obtain ⟨blanks, back, hplace⟩ := exists_isPlace_of_tokens hbefore halone hstruct
    obtain ⟨ts, us, hts, hspell, hname⟩ := hdeclared _ _ _ hplace
    rwa [← eq_of_spell_eq hts hbefore hspell]
  · rcases tokens_of_isPlace hplace with ⟨t, ht, hcode, hnot⟩ | ⟨ts, us, hts, hspell, halone, hstruct⟩
    · exact absurd (hsettled t ht hcode) hnot
    · exact ⟨ts, us, hts, hspell, hassigned ts us hts halone hstruct⟩

/-- The initializer of a field is no declaration, but the struct in it is promoted. -/
theorem promote_initializer :
    let code := "const t = .\x7b .T = struct \x7b x: i32 \x7d \x7d;"
    promote code = "const t = .\x7b .T = extern struct \x7b x: i32 \x7d \x7d;" ∧
      ¬ ∀ front blanks back, IsPlace none code.toList front blanks back →
        IsDeclared code.toList front := by
  intro code
  refine ⟨by decide +kernel, fun hdeclared => ?_⟩
  have hplace : IsPlace none code.toList "const t = .\x7b .T ".toList [' ']
      (' ' :: "\x7b x: i32 \x7d \x7d;".toList) :=
    ⟨by decide +kernel, by decide +kernel, List.forall_mem_singleton.2 rfl,
      fun c hc => Option.some.inj hc ▸ rfl⟩
  obtain ⟨before, after, htokens, hspell, hname⟩ := hdeclared _ _ _ hplace
  have hfront : spell ((tokens code.toList).take 12) = spell before := by
    rw [hspell]
    decide +kernel
  rw [← eq_of_spell_eq (List.take_append_drop _ _).symm htokens hfront] at hname
  exact absurd hname (by decide +kernel)

end Bindery.Promote
