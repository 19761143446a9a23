import Bindery.Proofs.Ty.Spelling

/-!
# Types are read as they are printed

The reader of types gives back every type whose tokens it finds, with the leaves that are named in
scope as generic parameters. Wrappers are remembered on the way in and closed on the way out, so
the induction on the type carries all wrappers that are still open.
-/
namespace Bindery
open Text

theorem magnitude_toString {n : Nat} (h : n < 9223372036854775808) :
    magnitude 10 isDigit (toString n).toList = .ok n := by
  have hall : ∀ c ∈ (toString n).toList, isDigit c = true := fun _ => isDigit_of_mem_toString
  have htake : ((toString n).toList ++ []).takeWhile isDigit = (toString n).toList :=
    takeWhile_append_of_all hall rfl
  have hdrop : ((toString n).toList ++ []).dropWhile isDigit = [] :=
    dropWhile_append_of_all hall rfl
  rw [List.append_nil] at htake hdrop
  rw [magnitude, htake, hdrop, ofDigits_toString, if_neg (by omega), if_neg (by simp)]

theorem unsigned_toString {n : Nat} (h : n < 9223372036854775808) :
    unsigned (toString n).toList = .ok n := by
  have hall : ∀ c ∈ (toString n).toList, isDigit c = true := fun _ => isDigit_of_mem_toString
  rw [← magnitude_toString h]
  unfold unsigned
  split
  · rename_i c cs hcs
    rw [hcs] at hall
    exact absurd (hall 'x' (by simp)) (by decide)
  · rfl

/-- A number in decimal is read back if its magnitude fits a signed 64-bit word. -/
theorem integer_toString {n : Int} (h : n.natAbs < 9223372036854775808) :
    integer (toString n).toList = .ok n := by
  cases n with
  | ofNat n =>
    rw [Int.ofNat_eq_natCast, Int.natAbs_natCast] at h
    have hu := unsigned_toString h
    rw [toList_toString_ofNat]
    unfold integer
    split
    · rename_i cs hcs
      have hall : ∀ c ∈ (toString n).toList, isDigit c = true := fun _ => isDigit_of_mem_toString
      rw [hcs] at hall
      exact absurd (hall '-' List.mem_cons_self) (by decide)
    · rw [hu]
      rfl
  | negSucc n =>
    rw [Int.natAbs_negSucc] at h
    have hu := unsigned_toString h
    rw [toList_toString_negSucc, integer, hu]
    rfl

theorem numberValue_toString {n : Int} (h : n.natAbs < 9223372036854775808) (p : Position) :
    numberValue (toString n) p = .ok n := by
  rw [numberValue, integer_toString h]

namespace Tokens
variable {ts rest : Tokens} {ls : List Lexeme} {scope : List String} {t : Ty}

theorem arrayLength_toString {n : Nat} (h : 0 < n) (hn : n < 4294967296) (p : Position) :
    arrayLength (toString n) p = .ok n := by
  have hs : toString n = toString (n : Int) := rfl
  have hv : numberValue (toString (n : Int)) p = .ok (n : Int) := by
    apply numberValue_toString
    rw [Int.natAbs_natCast]
    omega
  have hi : 0 < (n : Int) ∧ (n : Int) < 4294967296 := by omega
  simp only [arrayLength, hs, hv, bind, Except.bind]
  rw [if_pos hi, Int.toNat_natCast]

/-- The parts of a path after the first are joined to it. -/
theorem pathFrom_of_begins {ps : List (List Char)} {start : String}
    (h : Begins (Name.tailLexemes ps) ts rest) (hr : rest.Avoids [.doubleColon]) :
    ts.pathFrom start =
      .ok (start ++ String.ofList (ps.flatMap fun q => ':' :: ':' :: q), rest) := by
  induction ps generalizing ts start with
  | nil =>
    obtain rfl : ts = rest := h
    have hs : start ++ String.ofList ([].flatMap fun q : List Char => ':' :: ':' :: q) = start := by
      rw [List.flatMap_nil, String.ofList_nil, String.append_empty]
    rw [hs]
    rcases hr.cases List.mem_cons_self with ⟨pos, rfl⟩ | ⟨⟨l, pos⟩, tail, rfl, hl⟩
    · rfl
    · unfold pathFrom
      split
      all_goals simp_all
  | cons p ps ih =>
    obtain ⟨pos, tail, rfl, pos', tail', rfl, h⟩ := h
    rw [pathFrom, ih h, List.flatMap_cons]
    congr 2
    apply String.toList_inj.1
    simp

/-- A path is read from its first identifier on. -/
theorem exists_pathFrom {name : String} (h : Begins (Name.lexemes name) ts rest)
    (hr : rest.Avoids [.doubleColon]) :
    ∃ first pos tail, ts = next ⟨.ident first, pos⟩ tail ∧ tail.pathFrom first = .ok (name, rest) := by
  obtain ⟨p, ps, hp, hjoin⟩ := Name.parts_join name.toList
  rw [Name.lexemes_eq hp] at h
  obtain ⟨pos, tail, rfl, h⟩ := h
  have hname : String.ofList p ++ String.ofList (ps.flatMap fun q => ':' :: ':' :: q) = name := by
    rw [← String.ofList_append, hjoin, String.ofList_toList]
  refine ⟨_, pos, tail, rfl, ?_⟩
  rw [pathFrom_of_begins h hr, hname]

theorem path_of_begins {name : String} (h : Begins (Name.lexemes name) ts rest)
    (hr : rest.Avoids [.doubleColon]) : ts.path = .ok (name, rest) := by
  obtain ⟨first, pos, tail, rfl, hfrom⟩ := exists_pathFrom h hr
  exact hfrom

/-- An opened wrapper is remembered until the type in it is read. -/
theorem typeWithin_enclosed {outer : List Enclosure} {k : Keyword} {e : Enclosure}
    (hk : Enclosure.ofKeyword? k = some e)
    (h : Begins (.keyword k :: .punct .less :: ls) ts rest) :
    ∃ inner, typeWithin scope outer ts = typeWithin scope (e :: outer) inner ∧
      Begins ls inner rest := by
  obtain ⟨pos, tail, rfl, pos', inner, rfl, h⟩ := h
  refine ⟨inner, ?_, h⟩
  cases k
  case slice | sliceMut | ref | refMut | optional =>
    cases hk
    rw [typeWithin]
    · rfl
    · nofun
    · nofun
  all_goals cases hk

theorem suffixes_of_avoids (h : ts.Avoids [.squareOpen]) : suffixes t ts = .ok (t, ts) := by
  rcases h.cases List.mem_cons_self with ⟨pos, rfl⟩ | ⟨⟨l, pos⟩, tail, rfl, hl⟩
  · rfl
  · unfold suffixes
    split
    all_goals simp_all

theorem suffixes_of_begins {n : Nat} (h : 0 < n) (hn : n < 4294967296)
    (hb : Begins [.punct .squareOpen, .number (toString n), .punct .squareClose] ts rest) :
    suffixes t ts = suffixes (.array t n) rest := by
  obtain ⟨pos, tail, rfl, pos', tail', rfl, pos'', tail'', rfl, rfl⟩ := hb
  rw [suffixes, arrayLength_toString h hn]

theorem close_array {outer : List Enclosure} {n : Nat} (h : 0 < n) (hn : n < 4294967296)
    (hb : Begins [.punct .squareOpen, .number (toString n), .punct .squareClose] ts rest) :
    close outer t ts = close outer (.array t n) rest := by
  cases outer with
  | nil => exact suffixes_of_begins h hn hb
  | cons e outer => rw [close, suffixes_of_begins h hn hb, close]

theorem close_enclosed {outer : List Enclosure} {e : Enclosure}
    (h : Begins [.punct .greater] ts rest) :
    close (e :: outer) t ts = close outer (e.around t) rest := by
  obtain ⟨mid, hp, rfl⟩ := punct_of_begins h
  rw [close, suffixes_of_avoids (h.avoids (by decide))]
  change (do let ts ← ts.punct .greater; close outer (e.around t) ts) = _
  rw [hp]
  rfl

/-- A type is read up to what may close its wrappers or add suffixes to it. -/
theorem typeWithin_of_begins {outer : List Enclosure} (ht : t.IsWritable)
    (h : Begins t.lexemes ts rest) (hr : rest.Avoids [.doubleColon]) :
    typeWithin scope outer ts = (do
      let (u, us) ← close outer (t.inScope scope) rest
      .ok (some u, us)) := by
  induction t generalizing outer ts rest with
  | scalar s =>
    obtain ⟨pos, tail, rfl, rfl⟩ := h
    rfl
  | text mutable =>
    obtain ⟨pos, tail, rfl, rfl⟩ := h
    cases mutable <;> rfl
  | record name | generic name =>
    obtain ⟨first, pos, tail, rfl, hfrom⟩ := exists_pathFrom h hr
    rw [typeWithin, hfrom]
    rfl
  | array elem length ih =>
    obtain ⟨mid, helem, hmid⟩ := begins_append.1 h
    rw [ih ht.1 helem (hmid.avoids (by decide)), close_array ht.2.1 ht.2.2 hmid]
    rfl
  | slice mutable elem ih =>
    have hk : Enclosure.ofKeyword? (if mutable then .sliceMut else .slice) =
        some (.slice mutable) := by
      cases mutable <;> rfl
    obtain ⟨inner, htype, hinner⟩ := typeWithin_enclosed hk h
    obtain ⟨mid, helem, hmid⟩ := begins_append.1 hinner
    rw [htype, ih ht helem (hmid.avoids (by decide)), close_enclosed hmid]
    rfl
  | wrapped kind elem ih =>
    have hk : Enclosure.ofKeyword? kind.keyword = some (.wrap kind) := by
      cases kind <;> rfl
    obtain ⟨inner, htype, hinner⟩ := typeWithin_enclosed hk h
    obtain ⟨mid, helem, hmid⟩ := begins_append.1 hinner
    rw [htype, ih ht helem (hmid.avoids (by decide)), close_enclosed hmid]
    rfl

/-- The marks that continue a type. -/
def typeMarks : List Punct := [.doubleColon, .squareOpen]

theorem type?_of_begins (ht : t.IsWritable) (h : Begins t.lexemes ts rest)
    (hr : rest.Avoids typeMarks) : ts.type? scope = .ok (some (t.inScope scope), rest) := by
  have hsuffix : suffixes (t.inScope scope) rest = .ok (t.inScope scope, rest) :=
    suffixes_of_avoids (hr.mono (by decide))
  rw [type?, typeWithin_of_begins ht h (hr.mono (by decide)), close, hsuffix]
  rfl

end Tokens

/-- A type is read back from its printed form, where the names in scope are parameters again. -/
theorem Ty.parse_rendered {t : Ty} (ht : t.IsWritable) (scope : List String) :
    Ty.parse t.render scope = .ok (t.inScope scope) := by
  obtain ⟨pos, h⟩ := Tokens.ofText_text (fun l hl => isPrintable_lexemes ht hl) .start
  rw [text_lexemes] at h
  rw [Ty.parse, Tokens.wholeType, Tokens.type?_of_begins ht h Tokens.avoids_done]
  rfl

end Bindery
