import Bindery.Staging.Promote
import Mathlib

/-!
# Where structs are promoted

A struct is promoted at each place where an equals sign that has none beside it comes before the
keyword, with nothing but blanks between them. Promotion puts other blanks and `extern` there, keeps
all else, and leaves no such place behind, so a second one changes nothing.
-/
namespace Bindery.Promote
open Text

/-- A place in a text that follows the character `before`: an equals sign with none beside it, and
the whole word `struct` behind some blanks. -/
structure IsPlace (before : Option Char) (code front blanks back : List Char) : Prop where
  code_eq : code = front ++ '=' :: (blanks ++ ("struct".toList ++ back))
  alone : front.getLast?.or before ≠ some '='
  blank : ∀ c ∈ blanks, isSpace c = true
  whole : ∀ c ∈ back.head?, isNameChar c = false

/-- No struct is left to promote. -/
def IsSettled (before : Option Char) (code : List Char) : Prop :=
  ∀ front blanks back, ¬ IsPlace before code front blanks back

/-- A struct that is assigned after some blanks, with the text up to the next one. -/
structure Assigned where
  blanks : List Char
  rest : List Char

def Assigned.text (a : Assigned) : List Char := '=' :: (a.blanks ++ ("struct".toList ++ a.rest))

def Assigned.extern (a : Assigned) : Assigned := { a with blanks := " extern ".toList }

/-- A text after the character `before` is divided by its places, and promoted at each of them. -/
structure IsDivided (before : Option Char) (code promoted lead : List Char)
    (places : List Assigned) : Prop where
  text_eq : code = lead ++ places.flatMap Assigned.text
  promoted_eq : promoted = lead ++ (places.map Assigned.extern).flatMap Assigned.text
  isPlace_iff : ∀ front blanks back, IsPlace before code front blanks back ↔ ∃ done a todo,
    places = done ++ a :: todo ∧ front = lead ++ done.flatMap Assigned.text ∧
      blanks = a.blanks ∧ back = a.rest ++ todo.flatMap Assigned.text

variable {before : Option Char} {c : Char} {cs ds front blanks back rest : List Char}

/-! ### What follows an equals sign -/

theorem afterStruct?_eq_some_iff : afterStruct? cs = some rest ↔
    cs = cs.takeWhile isSpace ++ ("struct".toList ++ rest) ∧
      ∀ c ∈ rest.head?, isNameChar c = false := by
  have hsplit := List.takeWhile_append_dropWhile (p := isSpace) (l := cs)
  generalize hword : cs.dropWhile isSpace = word at hsplit
  have hcut : afterStruct? cs = some rest ↔
      "struct".toList <+: word ∧ (∀ c ∈ (word.drop 6).head?, isNameChar c = false) ∧
        word.drop 6 = rest := by
    have hany : ((!(word.drop 6).head?.any isNameChar) = true) ↔
        ∀ c ∈ (word.drop 6).head?, isNameChar c = false := by
      rw [Bool.not_eq_true', Option.any_eq_false]
      rfl
    simp only [afterStruct?, hword, List.isPrefixOf_iff_prefix, hany, ite_eq_iff, Option.some.injEq,
      reduceCtorEq, and_false, or_false, and_assoc]
  rw [hcut]
  constructor
  · rintro ⟨⟨tail, rfl⟩, hwhole, rfl⟩
    exact ⟨hsplit.symm, hwhole⟩
  · rintro ⟨heq, hwhole⟩
    obtain rfl : word = "struct".toList ++ rest := List.append_cancel_left (hsplit.trans heq)
    exact ⟨List.prefix_append _ _, hwhole, rfl⟩

theorem takeWhile_blanks (h : ∀ c ∈ blanks, isSpace c = true) (back : List Char) :
    (blanks ++ ("struct".toList ++ back)).takeWhile isSpace = blanks := by
  rw [List.takeWhile_append_of_pos h]
  exact List.append_nil _

/-- The word is found behind blanks just if a text is made of these and the word. -/
theorem afterStruct?_blanks (h : ∀ c ∈ blanks, isSpace c = true)
    (hwhole : ∀ c ∈ back.head?, isNameChar c = false) :
    afterStruct? (blanks ++ ("struct".toList ++ back)) = some back :=
  afterStruct?_eq_some_iff.2 ⟨by rw [takeWhile_blanks h], hwhole⟩

theorem isNameChar_of_mem_struct (h : c ∈ "struct".toList) : isNameChar c = true := by
  have hall : "struct".toList.all isNameChar = true := rfl
  exact List.all_eq_true.1 hall c h

/-- A character that is neither a blank nor part of a name ends what is looked at. -/
theorem afterStruct?_append_cons (hspace : isSpace c = false) (hname : isNameChar c = false)
    (cs ds : List Char) : afterStruct? (cs ++ c :: ds) = (afterStruct? cs).map (· ++ c :: ds) := by
  have htake : (cs ++ c :: ds).takeWhile isSpace = cs.takeWhile isSpace := by
    rw [List.takeWhile_append]
    split
    · rename_i hall
      rw [List.takeWhile_cons_of_neg (by simp [hspace]), List.append_nil]
      exact ((List.takeWhile_prefix isSpace).eq_of_length hall).symm
    · rfl
  have hsplit := List.takeWhile_append_dropWhile (p := isSpace) (l := cs)
  ext rest
  simp only [Option.map_eq_some_iff, afterStruct?_eq_some_iff, htake]
  constructor
  · rintro ⟨heq, hwhole⟩
    generalize cs.takeWhile isSpace = blanks at heq hsplit
    generalize cs.dropWhile isSpace = word at hsplit
    subst hsplit
    rw [List.append_assoc] at heq
    rcases List.append_eq_append_iff.1 (List.append_cancel_left heq) with
      ⟨more, hstruct, htail⟩ | ⟨tail, rfl, rfl⟩
    · cases more with
      | nil =>
        rw [List.append_nil] at hstruct
        exact ⟨[], ⟨by rw [← hstruct, List.append_nil], by simp⟩, htail⟩
      | cons d more =>
        obtain ⟨rfl, -⟩ := List.cons.inj htail
        have hmem : c ∈ "struct".toList := hstruct ▸ by simp
        exact absurd (isNameChar_of_mem_struct hmem) (by simp [hname])
    · refine ⟨tail, ⟨rfl, fun d hd => hwhole d ?_⟩, rfl⟩
      cases tail with
      | nil => cases hd
      | cons => exact hd
  · rintro ⟨tail, ⟨heq, hwhole⟩, rfl⟩
    refine ⟨?_, ?_⟩
    · conv_lhs => rw [heq]
      simp
    · cases tail with
      | nil => simpa using hname
      | cons d tail => simpa using hwhole

/-! ### Places -/

theorem isPlace_cons : IsPlace before (c :: cs) front blanks back ↔
    (front = [] ∧ c = '=' ∧ before ≠ some '=' ∧ afterStruct? cs = some back ∧
      blanks = cs.takeWhile isSpace) ∨
    ∃ more, front = c :: more ∧ IsPlace (some c) cs more blanks back := by
  constructor
  · rintro ⟨heq, halone, hblank, hwhole⟩
    cases front with
    | nil =>
      obtain ⟨rfl, rfl⟩ := List.cons.inj heq
      exact .inl ⟨rfl, rfl, by simpa using halone, afterStruct?_blanks hblank hwhole,
        (takeWhile_blanks hblank back).symm⟩
    | cons d more =>
      obtain ⟨rfl, rfl⟩ := List.cons.inj heq
      refine .inr ⟨more, rfl, rfl, ?_, hblank, hwhole⟩
      cases hlast : more.getLast? <;> simp_all [List.getLast?_cons]
  · rintro (⟨rfl, rfl, halone, hafter, rfl⟩ | ⟨more, rfl, rfl, halone, hblank, hwhole⟩)
    · obtain ⟨heq, hwhole⟩ := afterStruct?_eq_some_iff.1 hafter
      refine ⟨by rw [List.nil_append, ← heq], by simpa using halone, ?_, hwhole⟩
      exact fun c hc => List.mem_takeWhile_imp hc
    · refine ⟨rfl, ?_, hblank, hwhole⟩
      cases hlast : more.getLast? <;> simp_all [List.getLast?_cons]

/-- An equals sign is that of a place if it stands alone and the word is found behind it. -/
theorem exists_isPlace_iff :
    (∃ blanks back, IsPlace before (front ++ '=' :: cs) front blanks back) ↔
      front.getLast?.or before ≠ some '=' ∧ (afterStruct? cs).isSome := by
  constructor
  · rintro ⟨blanks, back, heq, halone, hblank, hwhole⟩
    obtain rfl := (List.cons.inj (List.append_cancel_left heq)).2
    exact ⟨halone, by rw [afterStruct?_blanks hblank hwhole]; rfl⟩
  · rintro ⟨halone, hsome⟩
    obtain ⟨back, hback⟩ := Option.isSome_iff_exists.1 hsome
    obtain ⟨hcs, hwhole⟩ := afterStruct?_eq_some_iff.1 hback
    exact ⟨_, back, by rw [← hcs], halone, fun c hc => List.mem_takeWhile_imp hc, hwhole⟩

theorem isSettled_nil : IsSettled before [] := by
  intro front blanks back h
  have := h.code_eq
  simp at this

/-- No place begins in a text without equals signs. -/
theorem isPlace_append (hne : cs ≠ []) (hcs : '=' ∉ cs) : IsPlace before (cs ++ ds) front blanks back ↔
    ∃ more, front = cs ++ more ∧ IsPlace cs.getLast? ds more blanks back := by
  induction cs generalizing before front with
  | nil => exact absurd rfl hne
  | cons c cs ih =>
    obtain ⟨hc, hcs⟩ := not_or.1 (List.mem_cons.not.1 hcs)
    rw [List.cons_append, isPlace_cons]
    have hfirst : ¬ (front = [] ∧ c = '=' ∧ before ≠ some '=' ∧
        afterStruct? (cs ++ ds) = some back ∧ blanks = (cs ++ ds).takeWhile isSpace) :=
      fun h => hc h.2.1.symm
    rw [or_iff_right hfirst]
    cases cs with
    | nil => simp
    | cons d cs =>
      simp only [ih (List.cons_ne_nil _ _) hcs]
      constructor
      · rintro ⟨_, rfl, more, rfl, hplace⟩
        exact ⟨more, rfl, hplace⟩
      · rintro ⟨more, rfl, hplace⟩
        exact ⟨_, rfl, more, rfl, hplace⟩

/-- Places are found one after the other. -/
theorem isPlace_assigned {a : Assigned} (halone : before ≠ some '=')
    (hblank : ∀ c ∈ a.blanks, isSpace c = true) (hwhole : ∀ c ∈ a.rest.head?, isNameChar c = false) :
    IsPlace before a.text front blanks back ↔
      (front = [] ∧ blanks = a.blanks ∧ back = a.rest) ∨
      ∃ more, front = '=' :: (a.blanks ++ ("struct".toList ++ more)) ∧
        IsPlace (some 't') a.rest more blanks back := by
  have hskip : '=' ∉ a.blanks ++ "struct".toList := by
    rw [List.mem_append, not_or]
    exact ⟨fun h => absurd (hblank _ h) (by decide), by simp⟩
  have hlast : (a.blanks ++ "struct".toList).getLast? = some 't' := by simp
  rw [Assigned.text, isPlace_cons, afterStruct?_blanks hblank hwhole, takeWhile_blanks hblank,
    ← List.append_assoc]
  simp only [isPlace_append (List.append_ne_nil_of_right_ne_nil _ (by simp)) hskip, hlast]
  constructor
  · rintro (⟨rfl, -, -, hback, rfl⟩ | ⟨_, rfl, more, rfl, hplace⟩)
    · exact .inl ⟨rfl, rfl, (Option.some.inj hback).symm⟩
    · exact .inr ⟨more, by rw [List.append_assoc], hplace⟩
  · rintro (⟨rfl, rfl, rfl⟩ | ⟨more, rfl, hplace⟩)
    · exact .inl ⟨rfl, trivial, halone, rfl, rfl⟩
    · exact .inr ⟨_, rfl, more, by rw [List.append_assoc], hplace⟩

/-! ### What promotion does -/

/-- A character is kept where no place begins. -/
theorem promoteAfter_cons (h : c = '=' → before ≠ some '=' → afterStruct? cs = none) :
    promoteAfter before (c :: cs) = c :: promoteAfter (some c) cs := by
  rw [promoteAfter]
  split
  · rename_i heq
    split
    · rename_i hfound
      rw [h heq.1 heq.2] at hfound
      cases hfound
    · rfl
  · rfl

theorem promoteAfter_append (hcs : '=' ∉ cs) :
    promoteAfter before (cs ++ ds) = cs ++ promoteAfter (cs.getLast?.or before) ds := by
  induction cs generalizing before with
  | nil => rfl
  | cons c cs ih =>
    obtain ⟨hc, hcs⟩ := not_or.1 (List.mem_cons.not.1 hcs)
    rw [List.cons_append, promoteAfter_cons fun h => absurd h.symm hc, ih hcs]
    cases hlast : cs.getLast? <;> simp [List.getLast?_cons, hlast]

/-- Promotion changes nothing before the first equals sign. -/
theorem isSome_afterStruct?_promoteAfter :
    (afterStruct? (promoteAfter before cs)).isSome = (afterStruct? cs).isSome := by
  have hsplit := List.takeWhile_append_dropWhile (p := (· ≠ '=')) (l := cs)
  have hfree : '=' ∉ cs.takeWhile (· ≠ '=') := fun h => by simpa using List.mem_takeWhile_imp h
  rw [← hsplit, promoteAfter_append hfree]
  cases hrest : cs.dropWhile (· ≠ '=') with
  | nil => rw [promoteAfter]
  | cons c rest =>
    obtain rfl : c = '=' := by
      have := List.head?_dropWhile_not (· ≠ '=') cs
      rw [hrest] at this
      simpa using this
    have hequals : ∀ b, ∃ more, promoteAfter b ('=' :: rest) = '=' :: more := by
      intro b
      rw [promoteAfter]
      split
      · split <;> exact ⟨_, rfl⟩
      · exact ⟨_, rfl⟩
    obtain ⟨more, hmore⟩ := hequals ((cs.takeWhile (· ≠ '=')).getLast?.or before)
    rw [hmore, afterStruct?_append_cons (by decide) (by decide),
      afterStruct?_append_cons (by decide) (by decide), Option.isSome_map, Option.isSome_map]

/-- Promotion leaves no place behind. -/
theorem isSettled_promoteAfter (before : Option Char) (cs : List Char) :
    IsSettled before (promoteAfter before cs) := by
  fun_induction promoteAfter before cs with
  | case1 => exact isSettled_nil
  | case2 before c cs heq rest hafter ih =>
    intro front blanks back hplace
    rw [List.cons_append, isPlace_cons] at hplace
    rcases hplace with ⟨-, -, -, hfound, -⟩ | ⟨more, -, hplace⟩
    · have hnone : ∀ ds, afterStruct? (" extern struct".toList ++ ds) = none := fun _ => rfl
      rw [hnone] at hfound
      cases hfound
    · obtain ⟨_, -, hlater⟩ := (isPlace_append (by simp) (by simp)).1 hplace
      exact ih _ _ _ hlater
  | case3 before c cs heq hafter ih =>
    intro front blanks back hplace
    rcases isPlace_cons.1 hplace with ⟨-, -, -, hfound, -⟩ | ⟨_, -, hlater⟩
    · have hsome := @isSome_afterStruct?_promoteAfter (some c) cs
      rw [hfound, hafter] at hsome
      cases hsome
    · exact ih _ _ _ hlater
  | case4 before c cs heq ih =>
    intro front blanks back hplace
    rcases isPlace_cons.1 hplace with ⟨-, hc, halone, -⟩ | ⟨_, -, hlater⟩
    · exact heq ⟨hc, halone⟩
    · exact ih _ _ _ hlater

theorem IsSettled.tail (h : IsSettled before (c :: cs)) : IsSettled (some c) cs :=
  fun front blanks back hplace => h (c :: front) blanks back (isPlace_cons.2 (.inr ⟨_, rfl, hplace⟩))

theorem promoteAfter_eq_self (h : IsSettled before cs) : promoteAfter before cs = cs := by
  induction cs generalizing before with
  | nil => rw [promoteAfter]
  | cons c cs ih =>
    rw [promoteAfter_cons, ih h.tail]
    intro hc halone
    rw [← Option.not_isSome_iff_eq_none, Option.isSome_iff_exists]
    rintro ⟨rest, hafter⟩
    exact h [] _ rest (isPlace_cons.2 (.inl ⟨rfl, hc, halone, hafter, rfl⟩))

theorem Assigned.text_extern (a : Assigned) :
    a.extern.text = '=' :: (" extern struct".toList ++ a.rest) := by
  have hwords : " extern struct".toList = " extern ".toList ++ "struct".toList := by simp
  rw [hwords, List.append_assoc]
  rfl

theorem IsDivided.cons {places : List Assigned} {promoted lead : List Char}
    (h : IsDivided (some c) cs promoted lead places)
    (hnone : c = '=' → before ≠ some '=' → afterStruct? cs = none) :
    IsDivided before (c :: cs) (c :: promoted) (c :: lead) places where
  text_eq := by rw [h.text_eq, List.cons_append]
  promoted_eq := by rw [h.promoted_eq, List.cons_append]
  isPlace_iff front blanks back := by
    have hfirst : ¬ (front = [] ∧ c = '=' ∧ before ≠ some '=' ∧ afterStruct? cs = some back ∧
        blanks = cs.takeWhile isSpace) := by
      rintro ⟨-, hc, halone, hfound, -⟩
      rw [hnone hc halone] at hfound
      cases hfound
    rw [isPlace_cons, or_iff_right hfirst]
    simp only [h.isPlace_iff]
    constructor
    · rintro ⟨_, rfl, done, a, todo, hplaces, rfl, hrest⟩
      exact ⟨done, a, todo, hplaces, rfl, hrest⟩
    · rintro ⟨done, a, todo, hplaces, rfl, hrest⟩
      exact ⟨_, rfl, done, a, todo, hplaces, rfl, hrest⟩

theorem IsDivided.assigned {places : List Assigned} {promoted lead : List Char}
    (h : IsDivided (some 't') rest promoted lead places) (halone : before ≠ some '=')
    (hafter : afterStruct? cs = some rest) :
    IsDivided before ('=' :: cs) ('=' :: (" extern struct".toList ++ promoted)) []
      (⟨cs.takeWhile isSpace, lead⟩ :: places) := by
  obtain ⟨hcs, hwhole⟩ := afterStruct?_eq_some_iff.1 hafter
  have hblank : ∀ c ∈ cs.takeWhile isSpace, isSpace c = true := fun c => List.mem_takeWhile_imp
  generalize cs.takeWhile isSpace = bs at hcs hblank
  subst hcs
  refine ⟨?_, ?_, ?_⟩
  · simp [Assigned.text, h.text_eq]
  · rw [h.promoted_eq, List.map_cons, List.flatMap_cons, Assigned.text_extern]
    simp only [List.nil_append, List.cons_append, List.append_assoc]
  · intro front blanks back
    have hplace : IsPlace before (Assigned.text ⟨bs, rest⟩) front blanks back ↔ _ :=
      isPlace_assigned halone hblank hwhole
    simp only [h.isPlace_iff] at hplace
    refine hplace.trans ?_
    constructor
    · rintro (⟨rfl, rfl, rfl⟩ | ⟨_, rfl, done, a, todo, rfl, rfl, rfl, rfl⟩)
      · exact ⟨[], _, places, rfl, rfl, rfl, h.text_eq⟩
      · exact ⟨_ :: done, a, todo, rfl, by simp [Assigned.text], rfl, rfl⟩
    · rintro ⟨done, a, todo, hplaces, rfl, rfl, rfl⟩
      cases done with
      | nil =>
        obtain ⟨rfl, rfl⟩ := List.cons.inj hplaces
        exact .inl ⟨rfl, rfl, h.text_eq.symm⟩
      | cons b done =>
        obtain ⟨rfl, rfl⟩ := List.cons.inj hplaces
        exact .inr ⟨_, by simp [Assigned.text], done, a, todo, rfl, rfl, rfl, rfl⟩

/-- Every text is divided by its places. -/
theorem exists_isDivided (before : Option Char) (cs : List Char) :
    ∃ lead places, IsDivided before cs (promoteAfter before cs) lead places := by
  fun_induction promoteAfter before cs with
  | case1 =>
    exact ⟨[], [], rfl, rfl, fun front blanks back =>
      iff_of_false (isSettled_nil front blanks back) (by simp)⟩
  | case2 before c cs heq rest hafter ih =>
    obtain ⟨lead, places, hdivided⟩ := ih
    obtain ⟨rfl, halone⟩ := heq
    exact ⟨_, _, hdivided.assigned halone hafter⟩
  | case3 before c cs heq hafter ih =>
    obtain ⟨lead, places, hdivided⟩ := ih
    exact ⟨_, _, hdivided.cons fun _ _ => hafter⟩
  | case4 before c cs heq ih =>
    obtain ⟨lead, places, hdivided⟩ := ih
    exact ⟨_, _, hdivided.cons fun hc halone => absurd ⟨hc, halone⟩ heq⟩

/-- A promoted text has no place left at which a struct is assigned without a layout, so that it
stays as it is when it is promoted again. It is the text itself but for its places, at each of which
the blanks between the equals sign and the keyword are replaced by `extern` with a blank on each
side. -/
theorem promote_places (code : String) :
    IsSettled none (promote code).toList ∧ promote (promote code) = promote code ∧
      ∃ lead places, IsDivided none code.toList (promote code).toList lead places := by
  have htext : (promote code).toList = promoteAfter none code.toList := String.toList_ofList
  have hsettled : IsSettled none (promote code).toList := htext ▸ isSettled_promoteAfter _ _
  refine ⟨hsettled, ?_, htext ▸ exists_isDivided _ _⟩
  rw [promote, promoteAfter_eq_self hsettled, String.ofList_toList]

end Bindery.Promote
