import Bindery.Proofs.Decl.Records
import Bindery.Proofs.Syntax.Literal

/-!
# Values of enumerators

An enumerator has the value of its literal or else the value after its predecessor's, beginning with
zero. The reader gives all enumerators these values if they are within the bounds of the integer
kind, and otherwise has a fault at the first one that is not.
-/
namespace Bindery
open Lexeme

/-- Whether an enumerator may have a value. -/
def IntKind.Holds (kind : IntKind) (v : ℤ) : Prop := kind.range.1 ≤ v ∧ v ≤ kind.range.2

instance (kind : IntKind) (v : ℤ) : Decidable (kind.Holds v) :=
  inferInstanceAs (Decidable (_ ∧ _))

/-- An enumerator as it is written. -/
structure Enumerator where
  name : String
  literal : Option Literal := none

namespace Enumerator

/-- The value of an enumerator, where `implicit` is the one that it gets by itself. -/
def value (implicit : ℤ) (e : Enumerator) : ℤ := e.literal.elim implicit (·.value)

/-- Enumerators with their values. -/
def valued : ℤ → List Enumerator → List (Enumerator × ℤ)
  | _, [] => []
  | implicit, e :: es => (e, e.value implicit) :: valued (e.value implicit + 1) es

def items (implicit : ℤ) (es : List Enumerator) : List (String × ℤ) :=
  (valued implicit es).map fun p => (p.1.name, p.2)

/-- The first enumerator whose value is not within the bounds of a kind. -/
def firstUnfit (kind : IntKind) (implicit : ℤ) (es : List Enumerator) : Option (Enumerator × ℤ) :=
  (valued implicit es).find? fun p => ¬ kind.Holds p.2

/-- The fault of an enumerator with a value outside of the bounds. -/
def fault (kind : IntKind) (e : Enumerator) (v : ℤ) : Cause :=
  match e.literal with
  | some l =>
    if v.natAbs < 9223372036854775808 then .valueOutside l.text e.name kind.name
    else .badNumber l.text .outOfRange
  | none => .implicitOutside e.name kind.name

/-- What comes of enumerators: all of them with their values, or the first fault. -/
def outcome (kind : IntKind) (implicit : ℤ) (es : List Enumerator) :
    Except Cause (List (String × ℤ)) :=
  match firstUnfit kind implicit es with
  | none => .ok (items implicit es)
  | some (e, v) => .error (e.fault kind v)

/-- The literal of an enumerator, if it has one, can be read: not that of the least word, as its
magnitude is not a word. -/
structure IsReadable (kind : IntKind) (e : Enumerator) : Prop where
  isProper : ∀ l ∈ e.literal, l.IsProper
  ne_least : kind = .i64 → ∀ l ∈ e.literal, l.value ≠ -9223372036854775808

def lexemes (e : Enumerator) : List Lexeme :=
  .ident e.name :: e.literal.elim [] fun l => [.punct .assign, .number l.text]

/-- The tokens of enumerators up to the closing bracket, with or without a last comma. -/
def listLexemes (es : List Enumerator) (comma : Bool) : List Lexeme :=
  commas (es.map lexemes) ++ ((if comma then [.punct .comma] else []) ++ [.punct .curlyClose])

section
variable {kind : IntKind} {implicit v : ℤ} {e : Enumerator} {es : List Enumerator}

theorem items_ne_nil (h : es ≠ []) : items implicit es ≠ [] := by
  obtain ⟨e, es, rfl⟩ := List.exists_cons_of_ne_nil h
  exact List.cons_ne_nil _ _

theorem outcome_nil : outcome kind implicit [] = .ok [] := rfl

/-- The outcome is that of the first enumerator and then that of the others. -/
theorem outcome_cons : outcome kind implicit (e :: es) =
    if kind.Holds (e.value implicit) then
      (outcome kind (e.value implicit + 1) es).map ((e.name, e.value implicit) :: ·)
    else .error (e.fault kind (e.value implicit)) := by
  unfold outcome firstUnfit items
  rw [valued, List.find?_cons]
  by_cases h : kind.Holds (e.value implicit)
  · simp only [h, not_true_eq_false, decide_false, if_true]
    cases (valued (e.value implicit + 1) es).find? fun p => ¬ kind.Holds p.2 <;> rfl
  · simp only [h, not_false_eq_true, decide_true, if_false]

theorem range_bounds (kind : IntKind) : -9223372036854775808 ≤ kind.range.1 ∧ kind.range.1 ≤ 0 ∧
    kind.range.2 < 9223372036854775808 := by
  cases kind <;> decide

/-- Only a signed word of full width holds the least word. -/
theorem natAbs_lt_of_holds (h : kind.Holds v) (hleast : kind = .i64 → v ≠ -9223372036854775808) :
    v.natAbs < 9223372036854775808 := by
  obtain ⟨hlow, hhigh⟩ := h
  cases kind <;> simp only [IntKind.range, reduceCtorEq, false_implies, true_implies] at *
  all_goals omega

theorem isLexical_fault : (e.fault kind v).isLexical = false := by
  unfold fault
  split
  · split <;> rfl
  · rfl

/-- An enumerator without a literal can only be too large, as values grow by themselves. -/
theorem lt_of_firstUnfit (himplicit : kind.range.1 ≤ implicit)
    (h : firstUnfit kind implicit es = some (e, v)) (hliteral : e.literal = none) :
    kind.range.2 < v := by
  induction es generalizing implicit with
  | nil => cases h
  | cons d es ih =>
    rw [firstUnfit, valued, List.find?_cons] at h
    by_cases hd : kind.Holds (d.value implicit)
    · simp only [hd, not_true_eq_false, decide_false] at h
      have hlow := hd.1
      exact ih (by omega) h
    · simp only [hd, not_false_eq_true, decide_true] at h
      cases h
      rw [value, hliteral] at hd ⊢
      unfold IntKind.Holds at hd
      simp only [Option.elim_none] at hd ⊢
      omega

end
end Enumerator

/-! ### Reading enumerators -/

namespace Tokens
variable {ts rest : Tokens} {enum name : String} {kind : IntKind} {seen : List (String × ℤ)}
  {implicit : ℤ} {pos at_ : Position} {e : Enumerator} {es : List Enumerator}

theorem enumItem_implicit (hnew : name ∉ seen.map (·.1)) (hr : rest.Avoids [.assign]) :
    enumItem enum kind seen implicit (next ⟨.ident name, pos⟩ rest) =
      if kind.Holds implicit then .ok ((name, implicit), rest)
      else .error ⟨pos, .implicitOutside name kind.name⟩ := by
  change (if name ∈ seen.map (·.1) then _ else _) = _
  rw [if_neg hnew]
  obtain ⟨_, rfl⟩ | ⟨⟨l, _⟩, tail, rfl, hl⟩ := hr.cases List.mem_cons_self
  · rfl
  · cases l with
    | punct p => cases p <;> first | rfl | exact absurd rfl hl
    | _ => rfl

theorem enumItem_explicit {digits : String} {p : Position} (hnew : name ∉ seen.map (·.1)) :
    enumItem enum kind seen implicit (next ⟨.ident name, pos⟩
        (next ⟨.punct .assign, p⟩ (next ⟨.number digits, at_⟩ rest))) =
      (do
        let v ← numberValue digits at_
        if kind.Holds v then .ok ((name, v), rest)
        else .error ⟨at_, .valueOutside digits name kind.name⟩) := by
  change (if name ∈ seen.map (·.1) then _ else _) = _
  rw [if_neg hnew]
  rfl

/-- An enumerator is read with its value if that fits, and has a fault if it does not. -/
theorem enumItem_of_enumerator (he : e.IsReadable kind) (hnew : e.name ∉ seen.map (·.1))
    (h : Begins e.lexemes ts rest) (hr : rest.Avoids [.assign]) :
    ∃ pos, enumItem enum kind seen implicit ts =
      if kind.Holds (e.value implicit) then .ok ((e.name, e.value implicit), rest)
      else .error ⟨pos, e.fault kind (e.value implicit)⟩ := by
  obtain ⟨name, literal⟩ := e
  obtain ⟨pos, tail, rfl, h⟩ := h
  cases literal with
  | none =>
    obtain rfl : tail = rest := h
    exact ⟨pos, enumItem_implicit hnew hr⟩
  | some l =>
    obtain ⟨_, _, rfl, p, _, rfl, rfl⟩ := h
    refine ⟨p, ?_⟩
    change _ = if kind.Holds l.value then _ else Except.error (Fault.mk p
      (if l.value.natAbs < 9223372036854775808 then .valueOutside l.text name kind.name
        else .badNumber l.text .outOfRange))
    rw [enumItem_explicit hnew, Literal.numberValue_text (he.isProper l rfl)]
    by_cases hsmall : l.value.natAbs < 9223372036854775808
    · rw [if_pos hsmall, if_pos hsmall]
      rfl
    · have hv : ¬ kind.Holds l.value := fun hv =>
        hsmall (Enumerator.natAbs_lt_of_holds hv fun hkind => he.ne_least hkind l rfl)
      rw [if_neg hsmall, if_neg hv, if_neg hsmall]
      rfl

theorem enumItems_close (hc : ts.punct? .curlyClose = .ok (true, rest)) :
    enumItems enum kind seen implicit ts = .ok (seen, rest) := by
  rw [enumItems]
  split
  all_goals simp_all

theorem enumItems_failed {fault : Fault} (hts : ts.punct? .curlyClose = .ok (false, ts))
    (hi : enumItem enum kind seen implicit ts = .error fault) :
    enumItems enum kind seen implicit ts = .error fault := by
  rw [enumItems]
  split
  · simp_all
  · simp_all
  · rename_i h
    rw [hts] at h
    cases h
    split
    all_goals simp_all

/-- What comes of enumerators, as the reader gives it: their values after those that have been seen,
before further tokens, or their first fault at some place. -/
def IsOutcome (seen : List (String × ℤ)) (rest : Tokens)
    (result : Except Fault (List (String × ℤ) × Tokens)) :
    Except Cause (List (String × ℤ)) → Prop
  | .ok items => result = .ok (seen ++ items, rest)
  | .error cause => ∃ pos, result = .error ⟨pos, cause⟩

theorem IsOutcome.cons {item : String × ℤ} {result : Except Fault (List (String × ℤ) × Tokens)}
    {o : Except Cause (List (String × ℤ))} (h : IsOutcome (seen ++ [item]) rest result o) :
    IsOutcome seen rest result (o.map (item :: ·)) := by
  cases o with
  | ok items =>
    have h : result = .ok (seen ++ [item] ++ items, rest) := h
    rw [List.append_assoc, List.singleton_append] at h
    exact h
  | error cause => exact h

theorem not_close_of_listLexemes {comma : Bool}
    (h : Begins (Enumerator.listLexemes (e :: es) comma) ts rest) :
    ts.punct? .curlyClose = .ok (false, ts) := by
  have havoids : ts.Avoids [.curlyClose] := h.avoids_commas nofun
  exact punct?_of_avoids havoids List.mem_cons_self

/-- After the last enumerator and perhaps a comma, the closing bracket ends the list. -/
theorem enumItems_end {comma : Bool} (h : Begins (Enumerator.listLexemes [e] comma) ts rest) :
    ∃ after, Begins e.lexemes ts after ∧ after.Avoids [.assign] ∧
      ∀ item, enumItem enum kind seen implicit ts = .ok (item, after) →
        enumItems enum kind seen implicit ts = .ok (seen ++ [item], rest) := by
  have hts := not_close_of_listLexemes h
  obtain ⟨after, hitem, hafter⟩ := begins_append.1 h
  cases comma with
  | false =>
    obtain ⟨_, hclose, rfl⟩ := punct?_of_begins hafter
    exact ⟨after, hitem, hafter.avoids_of_not_mem (by decide), fun _ hi =>
      enumItems_last hts hi hclose⟩
  | true =>
    have hno : after.Avoids [.curlyClose] := hafter.avoids_of_not_mem (by decide)
    refine ⟨after, hitem, hafter.avoids_of_not_mem (by decide), fun item hi => ?_⟩
    obtain ⟨mid, hcomma, hmid⟩ := punct_of_begins hafter
    obtain ⟨_, hclose, rfl⟩ := punct?_of_begins hmid
    rw [enumItems_more hts hi (punct?_of_avoids hno List.mem_cons_self) hcomma,
      enumItems_close hclose]

/-- Between two enumerators there is a comma, and the second has the next value in view. -/
theorem enumItems_between {d : Enumerator} {comma : Bool}
    (h : Begins (Enumerator.listLexemes (e :: d :: es) comma) ts rest) :
    ∃ after mid, Begins e.lexemes ts after ∧ after.Avoids [.assign] ∧
      Begins (Enumerator.listLexemes (d :: es) comma) mid rest ∧
      ∀ item, enumItem enum kind seen implicit ts = .ok (item, after) →
        enumItems enum kind seen implicit ts =
          enumItems enum kind (seen ++ [item]) (item.2 + 1) mid := by
  have hts := not_close_of_listLexemes h
  rw [Enumerator.listLexemes, List.map_cons, List.map_cons, commas, List.append_assoc,
    List.cons_append, ← List.map_cons] at h
  obtain ⟨after, hitem, hafter⟩ := begins_append.1 h
  have hno : after.Avoids [.curlyClose] := hafter.avoids_of_not_mem (by decide)
  obtain ⟨mid, hcomma, hmid⟩ := punct_of_begins hafter
  exact ⟨after, mid, hitem, hafter.avoids_of_not_mem (by decide), hmid, fun _ hi =>
    enumItems_more hts hi (punct?_of_avoids hno List.mem_cons_self) hcomma⟩

/-- The enumerators up to the closing bracket are read one by one, each with the value after its
predecessor's in view. -/
theorem isOutcome_enumItems {comma : Bool} (hne : es ≠ []) (hes : ∀ e ∈ es, e.IsReadable kind)
    (hnames : (seen.map (·.1) ++ es.map (·.name)).Nodup)
    (h : Begins (Enumerator.listLexemes es comma) ts rest) :
    IsOutcome seen rest (enumItems enum kind seen implicit ts)
      (Enumerator.outcome kind implicit es) := by
  induction es generalizing seen implicit ts with
  | nil => exact absurd rfl hne
  | cons e es ih =>
    rw [List.forall_mem_cons] at hes
    have hnew : e.name ∉ seen.map (·.1) := fun hmem =>
      (List.nodup_append.1 hnames).2.2 _ hmem _ List.mem_cons_self rfl
    -- What is left once the enumerator is read, and how reading goes on there if it fits.
    obtain ⟨after, hitem, hassign, hrest⟩ : ∃ after, Begins e.lexemes ts after ∧
        after.Avoids [.assign] ∧ ∀ v,
          enumItem enum kind seen implicit ts = .ok ((e.name, v), after) →
          IsOutcome (seen ++ [(e.name, v)]) rest (enumItems enum kind seen implicit ts)
            (Enumerator.outcome kind (v + 1) es) := by
      cases es with
      | nil =>
        obtain ⟨after, hitem, hassign, hend⟩ := enumItems_end h
        refine ⟨after, hitem, hassign, fun v hi => ?_⟩
        rw [hend _ hi, Enumerator.outcome_nil]
        exact congrArg (fun items => Except.ok (items, rest)) (List.append_nil _).symm
      | cons d es =>
        obtain ⟨after, mid, hitem, hassign, hmid, hmore⟩ := enumItems_between h
        refine ⟨after, hitem, hassign, fun v hi => ?_⟩
        rw [hmore _ hi]
        refine ih (List.cons_ne_nil _ _) hes.2 ?_ hmid
        rwa [List.map_append, List.map_singleton, List.append_assoc, List.singleton_append]
    obtain ⟨pos, hrun⟩ := enumItem_of_enumerator hes.1 hnew hitem hassign
    rw [Enumerator.outcome_cons]
    by_cases hv : kind.Holds (e.value implicit)
    · rw [if_pos hv] at hrun ⊢
      exact (hrest _ hrun).cons
    · rw [if_neg hv] at hrun ⊢
      exact ⟨pos, enumItems_failed (not_close_of_listLexemes h) hrun⟩

end Tokens
end Bindery
