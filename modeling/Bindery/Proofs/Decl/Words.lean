import Bindery.Proofs.Decl.Enumerators
import Bindery.Proofs.Decl.RoundTrip

/-!
# Enumerators in machine words

The values of enumerators can be computed in signed 64-bit words: no step takes a negative or a
successor that is not a word, as magnitudes are checked before their sign is applied, and instead of
a value after the greatest word it is remembered that there is none.
-/
namespace Bindery
open Lexeme

namespace Word

/-- The negative of a word, unless it overflows. -/
def neg? (w : Int64) : Option Int64 := if w = Int64.minValue then none else some (-w)

/-- The word after a word, unless it overflows. -/
def succ? (w : Int64) : Option Int64 := if w = Int64.maxValue then none else some (w + 1)

/-- The word of a literal: first that of the magnitude, then its negative if there is a sign. -/
def ofLiteral (l : Literal) : Option (Except NumberFault Int64) :=
  if l.magnitude < 9223372036854775808 then
    if l.isNegative then (neg? (Int64.ofNat l.magnitude)).map .ok
    else some (.ok (Int64.ofNat l.magnitude))
  else some (.error .outOfRange)

theorem neg?_eq {w : Int64} (h : 0 ≤ w.toInt) : ∃ v, neg? w = some v ∧ v.toInt = -w.toInt := by
  have hne : w ≠ Int64.minValue := by
    rintro rfl
    rw [Int64.toInt_minValue] at h
    omega
  have hlt := w.toInt_lt
  refine ⟨-w, if_neg hne, ?_⟩
  rw [Int64.toInt_neg, Int.bmod_eq_of_le (by omega) (by omega)]

theorem succ?_eq {w : Int64} (h : w ≠ Int64.maxValue) :
    ∃ v, succ? w = some v ∧ v.toInt = w.toInt + 1 := by
  have hne : w.toInt ≠ 2 ^ 63 - 1 := by
    rw [← Int64.toInt_maxValue]
    exact fun heq => h (Int64.toInt_inj.1 heq)
  have hlow := w.le_toInt
  have hhigh := w.toInt_lt
  refine ⟨w + 1, if_neg h, ?_⟩
  rw [Int64.toInt_add, Int64.toInt_one, Int.bmod_eq_of_le (by omega) (by omega)]

/-- A literal is computed as a word without overflow. -/
theorem ofLiteral_eq (l : Literal) : ∃ r, ofLiteral l = some r ∧
    r.map Int64.toInt =
      if l.value.natAbs < 9223372036854775808 then .ok l.value else .error .outOfRange := by
  rw [Literal.natAbs_value]
  unfold ofLiteral Literal.value
  by_cases h : l.magnitude < 9223372036854775808
  · have hword : (Int64.ofNat l.magnitude).toInt = l.magnitude := Int64.toInt_ofNat_of_lt h
    rw [if_pos h, if_pos h]
    cases l.isNegative with
    | true =>
      obtain ⟨v, hv, hneg⟩ := @neg?_eq (Int64.ofNat l.magnitude) (by omega)
      refine ⟨.ok v, by rw [if_pos rfl, hv]; rfl, ?_⟩
      rw [hword] at hneg
      exact congrArg Except.ok hneg
    | false => exact ⟨_, rfl, congrArg Except.ok hword⟩
  · rw [if_neg h, if_neg h]
    exact ⟨_, rfl, rfl⟩

end Word

/-- The value that an enumerator gets by itself, or the greatest word if there is none. -/
structure Counter where
  next : Int64 := 0
  isExhausted : Bool := false

namespace Counter

/-- The value of a counter. There is none in a word if it is exhausted. -/
def value (c : Counter) : ℤ := if c.isExhausted then 9223372036854775808 else c.next.toInt

def after (w : Int64) : Option Counter :=
  if w = Int64.maxValue then some ⟨w, true⟩ else (Word.succ? w).map (⟨·, false⟩)

/-- The word of an enumerator, or its fault. -/
def word (kind : IntKind) (c : Counter) (e : Enumerator) : Option (Except Cause Int64) :=
  match e.literal with
  | some l => do
    match ← Word.ofLiteral l with
    | .error why => some (.error (.badNumber l.text why))
    | .ok w =>
      if kind.Holds w.toInt then some (.ok w)
      else some (.error (.valueOutside l.text e.name kind.name))
  | none =>
    if c.isExhausted ∨ ¬ kind.Holds c.next.toInt then
      some (.error (.implicitOutside e.name kind.name))
    else some (.ok c.next)

/-- Enumerators with their words. There is no result at all if a step overflows. -/
def run (kind : IntKind) : Counter → List Enumerator →
    Option (Except Cause (List (String × Int64)))
  | _, [] => some (.ok [])
  | c, e :: es => do
    match ← c.word kind e with
    | .error cause => some (.error cause)
    | .ok w =>
      let r ← run kind (← after w) es
      some (r.map ((e.name, w) :: ·))

variable {kind : IntKind} {c : Counter} {e : Enumerator} {es : List Enumerator}

theorem after_eq (w : Int64) : ∃ c, after w = some c ∧ c.value = w.toInt + 1 := by
  unfold after
  by_cases h : w = Int64.maxValue
  · rw [if_pos h]
    refine ⟨_, rfl, ?_⟩
    rw [h, Int64.toInt_maxValue]
    rfl
  · obtain ⟨v, hv, hvalue⟩ := Word.succ?_eq h
    rw [if_neg h, hv]
    exact ⟨_, rfl, hvalue⟩

theorem holds_value : kind.Holds c.value ↔ ¬ (c.isExhausted ∨ ¬ kind.Holds c.next.toInt) := by
  unfold value
  cases c.isExhausted with
  | true =>
    refine iff_of_false (fun h => ?_) (by simp)
    have hbounds := Enumerator.range_bounds kind
    have hhigh : 9223372036854775808 ≤ kind.range.2 := h.2
    omega
  | false => simp

theorem word_implicit {name : String} : ∃ r, c.word kind ⟨name, none⟩ = some r ∧
    r.map Int64.toInt =
      if kind.Holds c.value then .ok c.value else .error (.implicitOutside name kind.name) := by
  by_cases h : c.isExhausted ∨ ¬ kind.Holds c.next.toInt
  · refine ⟨.error (.implicitOutside name kind.name), if_pos h, ?_⟩
    rw [if_neg fun hvalue => holds_value.1 hvalue h]
    rfl
  · refine ⟨.ok c.next, if_neg h, ?_⟩
    rw [if_pos (holds_value.2 h)]
    rw [not_or, Bool.not_eq_true] at h
    rw [value, h.1]
    rfl

theorem word_of_error {name : String} {l : Literal} {why : NumberFault}
    (h : Word.ofLiteral l = some (.error why)) :
    c.word kind ⟨name, some l⟩ = some (.error (.badNumber l.text why)) := by
  change (Word.ofLiteral l >>= _) = _
  rw [h]
  rfl

theorem word_of_ok {name : String} {l : Literal} {w : Int64}
    (h : Word.ofLiteral l = some (.ok w)) : c.word kind ⟨name, some l⟩ =
      if kind.Holds w.toInt then some (.ok w)
      else some (.error (.valueOutside l.text name kind.name)) := by
  change (Word.ofLiteral l >>= _) = _
  rw [h]
  rfl

/-- The word of a literal, or its fault, as the bounds have it. -/
theorem word_literal {name : String} {l : Literal}
    (hl : Enumerator.IsReadable kind ⟨name, some l⟩) :
    ∃ r, c.word kind ⟨name, some l⟩ = some r ∧ r.map Int64.toInt =
      if kind.Holds l.value then .ok l.value
      else .error (Enumerator.fault kind ⟨name, some l⟩ l.value) := by
  obtain ⟨r, hr, hvalue⟩ := Word.ofLiteral_eq l
  have hfault : Enumerator.fault kind ⟨name, some l⟩ l.value =
      if l.value.natAbs < 9223372036854775808 then .valueOutside l.text name kind.name
      else .badNumber l.text .outOfRange := rfl
  by_cases hsmall : l.value.natAbs < 9223372036854775808
  · rw [if_pos hsmall] at hvalue hfault
    cases r with
    | error why => cases hvalue
    | ok w =>
      have hw : w.toInt = l.value := Except.ok.inj hvalue
      rw [word_of_ok hr, hw, hfault]
      by_cases h : kind.Holds l.value
      · rw [if_pos h, if_pos h]
        exact ⟨_, rfl, congrArg Except.ok hw⟩
      · rw [if_neg h, if_neg h]
        exact ⟨_, rfl, rfl⟩
  · have h : ¬ kind.Holds l.value := fun h =>
      hsmall (Enumerator.natAbs_lt_of_holds h fun hkind => hl.ne_least hkind l rfl)
    rw [if_neg hsmall] at hvalue hfault
    cases r with
    | ok w => cases hvalue
    | error why =>
      cases hvalue
      rw [word_of_error hr, if_neg h, hfault]
      exact ⟨_, rfl, rfl⟩

/-- An enumerator has the word of its value, or the fault of one that does not fit. -/
theorem word_eq (he : e.IsReadable kind) : ∃ r, c.word kind e = some r ∧
    r.map Int64.toInt =
      if kind.Holds (e.value c.value) then .ok (e.value c.value)
      else .error (e.fault kind (e.value c.value)) := by
  obtain ⟨name, _ | l⟩ := e
  · exact word_implicit
  · exact word_literal he

theorem run_of_error {cause : Cause} (h : c.word kind e = some (.error cause)) :
    run kind c (e :: es) = some (.error cause) := by
  rw [run, h]
  rfl

theorem run_of_ok {w : Int64} {d : Counter} {r : Except Cause (List (String × Int64))}
    (hw : c.word kind e = some (.ok w)) (hd : after w = some d) (hr : run kind d es = some r) :
    run kind c (e :: es) = some (r.map ((e.name, w) :: ·)) := by
  rw [run, hw]
  change (after w >>= fun d => run kind d es >>= _) = _
  rw [hd]
  change (run kind d es >>= _) = _
  rw [hr]
  rfl

/-- The words of enumerators are their values, and no step overflows. -/
theorem run_eq (hes : ∀ e ∈ es, e.IsReadable kind) : ∃ r, run kind c es = some r ∧
    r.map (·.map fun i => (i.1, i.2.toInt)) = Enumerator.outcome kind c.value es := by
  induction es generalizing c with
  | nil => exact ⟨_, rfl, rfl⟩
  | cons e es ih =>
    rw [List.forall_mem_cons] at hes
    obtain ⟨r, hr, hvalue⟩ := @word_eq kind c e hes.1
    rw [Enumerator.outcome_cons]
    by_cases h : kind.Holds (e.value c.value)
    · rw [if_pos h] at hvalue ⊢
      cases r with
      | error cause => cases hvalue
      | ok w =>
        have hw : w.toInt = e.value c.value := Except.ok.inj hvalue
        obtain ⟨d, hd, hnext⟩ := after_eq w
        obtain ⟨r, hrun, hitems⟩ := @ih d hes.2
        rw [← hw, ← hnext, ← hitems]
        refine ⟨_, run_of_ok hr hd hrun, ?_⟩
        cases r <;> rfl
    · rw [if_neg h] at hvalue ⊢
      cases r with
      | ok w => cases hvalue
      | error cause => exact ⟨_, run_of_error hr, congrArg Except.error (Except.error.inj hvalue)⟩

end Counter

/-! ### Enumerations -/

namespace Enumerator

def kindLexemes : Option IntKind → List Lexeme
  | none => []
  | some kind => [.punct .colon, .scalar (.int kind)]

/-- The tokens of an enumeration after its keyword. -/
def enumLexemes (name : String) (kind : Option IntKind) (es : List Enumerator) (comma : Bool) :
    List Lexeme :=
  .ident name :: (kindLexemes kind ++ .punct .curlyOpen :: listLexemes es comma)

end Enumerator

namespace Tokens
variable {ts rest : Tokens} {name : String} {kind : Option IntKind} {es : List Enumerator}
  {comma : Bool} {pos : Position}

theorem intKind_of_begins {ls : List Lexeme}
    (h : Begins (Enumerator.kindLexemes kind ++ .punct .curlyOpen :: ls) ts rest) :
    ∃ mid, ts.intKind = .ok (kind.getD .i32, mid) ∧ Begins (.punct .curlyOpen :: ls) mid rest := by
  cases kind with
  | none =>
    have hno : ts.Avoids [.colon] := h.avoids_of_not_mem (by decide)
    refine ⟨ts, ?_, h⟩
    rw [intKind, punct?_of_avoids hno List.mem_cons_self]
    rfl
  | some kind =>
    obtain ⟨mid, hcolon, _, tail, rfl, h⟩ := punct?_of_begins h
    refine ⟨tail, ?_, h⟩
    rw [intKind, hcolon]
    rfl

/-- A fault of a declaration without attributes is that of the whole text. -/
theorem statements_plain_error {ds : Declarations} {k : Keyword} {fault : Fault}
    (hk : k ≠ .moduleName) (hd : (next ⟨.keyword k, pos⟩ ts).declaration? ds [] = .error fault) :
    statements ds (next ⟨.keyword k, pos⟩ ts) = .error fault := by
  have hattrs : (next ⟨.keyword k, pos⟩ ts).attributes [] = .ok ([], next ⟨.keyword k, pos⟩ ts) :=
    attributes_of_avoids ⟨_, rfl, nofun⟩
  refine statements_error nofun ?_
  rw [oneStatement, statement?]
  · simp only [hattrs, hd, bind, Except.bind]
  · rintro _ _ ⟨⟩
    exact hk rfl
  · rintro _ _ ⟨⟩

section
variable (hne : es ≠ []) (hes : ∀ e ∈ es, e.IsReadable (kind.getD .i32))
  (hnames : (es.map (·.name)).Nodup)
  (h : Begins (Enumerator.enumLexemes name kind es comma) ts rest)
include hne hes hnames h

/-- An enumeration has the outcome of its enumerators. -/
theorem enum_of_enumerators : ∃ result,
    IsOutcome [] rest result (Enumerator.outcome (kind.getD .i32) 0 es) ∧
    ts.enum [] pos = (do
      let (items, ts) ← result
      if items = [] then .error ⟨pos, .emptyEnum name⟩
      else .ok ({ name, kind := kind.getD .i32, items, pos }, ts)) := by
  obtain ⟨_, afterName, rfl, h⟩ := h
  obtain ⟨afterKind, hkind, h⟩ := intKind_of_begins h
  obtain ⟨inner, hopen, hinner⟩ := punct_of_begins h
  refine ⟨enumItems name (kind.getD .i32) [] 0 inner,
    isOutcome_enumItems hne hes hnames hinner, ?_⟩
  simp only [enum, ident, Attribute.refuse, hkind, hopen, bind, Except.bind]

theorem enum_of_holds (hall : ∀ p ∈ Enumerator.valued 0 es, (kind.getD .i32).Holds p.2) :
    ts.enum [] pos = .ok
      ({ name, kind := kind.getD .i32, items := Enumerator.items 0 es, pos }, rest) := by
  obtain ⟨result, houtcome, hrun⟩ := enum_of_enumerators hne hes hnames h
  have hnone : Enumerator.firstUnfit (kind.getD .i32) 0 es = none := by
    rw [Enumerator.firstUnfit, List.find?_eq_none]
    intro p hp
    simpa using hall p hp
  rw [Enumerator.outcome, hnone] at houtcome
  obtain rfl : result = .ok (Enumerator.items 0 es, rest) := houtcome
  rw [hrun]
  exact if_neg (Enumerator.items_ne_nil hne)

theorem enum_of_firstUnfit {e : Enumerator} {v : ℤ}
    (hunfit : Enumerator.firstUnfit (kind.getD .i32) 0 es = some (e, v)) :
    ∃ at_, ts.enum [] pos = .error ⟨at_, e.fault (kind.getD .i32) v⟩ := by
  obtain ⟨result, houtcome, hrun⟩ := enum_of_enumerators hne hes hnames h
  rw [Enumerator.outcome, hunfit] at houtcome
  obtain ⟨at_, rfl⟩ := houtcome
  exact ⟨at_, hrun⟩

/-- An enumeration among the declarations is read with the exact values of its enumerators if all
of them are within the bounds of its kind. Otherwise there is a fault, which is at the first that is
not; one that gets its value by itself is above the bounds then. Words that never overflow give the
same. -/
theorem enum_values_exact (ds : Declarations) (pos : Position) :
    ((∀ p ∈ Enumerator.valued 0 es, (kind.getD .i32).Holds p.2) →
      statements ds (next ⟨.keyword .enum, pos⟩ ts) =
        statements { ds with enums := ds.enums ++
          [{ name, kind := kind.getD .i32, items := Enumerator.items 0 es, pos }] } rest) ∧
    (∀ e v, Enumerator.firstUnfit (kind.getD .i32) 0 es = some (e, v) →
      (∃ at_, statements ds (next ⟨.keyword .enum, pos⟩ ts) =
        .error ⟨at_, e.fault (kind.getD .i32) v⟩) ∧
      (e.fault (kind.getD .i32) v).isLexical = false ∧
      (e.literal = none → (kind.getD .i32).range.2 < v)) ∧
    ∃ r, Counter.run (kind.getD .i32) {} es = some r ∧
      r.map (·.map fun i => (i.1, i.2.toInt)) = Enumerator.outcome (kind.getD .i32) 0 es := by
  refine ⟨fun hall => ?_,
    fun e v hunfit => ⟨?_, Enumerator.isLexical_fault, fun hliteral => ?_⟩, ?_⟩
  · apply statements_plain (by decide) ⟨pos, ts, rfl, h⟩
    simp only [declaration?, enum_of_holds hne hes hnames h hall, bind, Except.bind]
  · obtain ⟨at_, hfault⟩ : ∃ at_, ts.enum [] pos = .error ⟨at_, e.fault (kind.getD .i32) v⟩ :=
      enum_of_firstUnfit hne hes hnames h hunfit
    refine ⟨at_, statements_plain_error (by decide) ?_⟩
    simp only [declaration?, hfault, bind, Except.bind]
  · exact Enumerator.lt_of_firstUnfit (Enumerator.range_bounds _).2.1 hunfit hliteral
  · exact @Counter.run_eq (kind.getD .i32) {} es hes

end

/-- A stream of some tokens, all at one place. -/
def ofLexemes (ls : List Lexeme) : Tokens :=
  ls.foldr (fun l ts => next ⟨l, .start⟩ ts) (.done .start)

theorem begins_ofLexemes (ls : List Lexeme) : Begins ls (ofLexemes ls) (.done .start) := by
  induction ls with
  | nil => rfl
  | cons l ls ih => exact ⟨.start, ofLexemes ls, rfl, ih⟩

/-- Values up to the greatest word, by decimal and hexadecimal literals and by themselves. -/
theorem enum_values_exact_words :
    let es : List Enumerator := [⟨"A", none⟩,
      ⟨"B", some ⟨true, false, "9223372036854775807".toList⟩⟩, ⟨"C", none⟩,
      ⟨"D", some ⟨false, true, "7fffFFFFffffffff".toList⟩⟩]
    let ls := Enumerator.enumLexemes "E" (some .i64) es true
    let more := Enumerator.enumLexemes "E" (some .i64) (es ++ [⟨"F", none⟩]) false
    statements {} (next ⟨.keyword .enum, .start⟩ (ofLexemes ls)) =
      .ok { enums := [⟨"E", .i64, [("A", 0), ("B", -9223372036854775807),
        ("C", -9223372036854775806), ("D", 9223372036854775807)], .start⟩] } ∧
    ∃ at_, statements {} (next ⟨.keyword .enum, .start⟩ (ofLexemes more)) =
      .error ⟨at_, .implicitOutside "F" "i64"⟩ := by
  intro es ls more
  have hproper : ∀ e ∈ es ++ [⟨"F", none⟩], ∀ l ∈ e.literal, l.IsProper := by decide
  have hleast : ∀ e ∈ es ++ [⟨"F", none⟩], ∀ l ∈ e.literal,
      l.value ≠ -9223372036854775808 := by decide
  have hread : ∀ e ∈ es ++ [⟨"F", none⟩], e.IsReadable ((some IntKind.i64).getD .i32) :=
    fun e he => ⟨hproper e he, fun _ => hleast e he⟩
  constructor
  · obtain ⟨hheld, -⟩ := enum_values_exact (List.cons_ne_nil _ _)
      (fun e he => hread e (List.mem_append_left _ he)) (by decide) (begins_ofLexemes ls) {}
      .start
    rw [hheld (by decide), statements]
    rfl
  · obtain ⟨-, hunfit, -⟩ := enum_values_exact (List.cons_ne_nil _ _) hread (by decide)
      (begins_ofLexemes more) {} .start
    exact (hunfit ⟨"F", none⟩ 9223372036854775808 rfl).1

/-- The least word is within the bounds of signed words, but its literal is refused. -/
theorem enum_least_refused :
    let l : Literal := ⟨true, false, "9223372036854775808".toList⟩
    l.IsProper ∧ IntKind.i64.Holds l.value ∧ l.text = "-9223372036854775808" ∧
      Declarations.parse "enum E : i64 \x7b A = -9223372036854775808 \x7d" "host.hpp" .start =
        .error ⟨"host.hpp", ⟨1, 20⟩, .badNumber l.text .outOfRange⟩ := by
  intro l
  let body := next ⟨.ident "A", ⟨1, 16⟩⟩ (next ⟨.punct .assign, ⟨1, 18⟩⟩
    (next ⟨.number "-9223372036854775808", ⟨1, 20⟩⟩
      (next ⟨.punct .curlyClose, ⟨1, 41⟩⟩ (done ⟨1, 42⟩))))
  have htokens : ofText "enum E : i64 \x7b A = -9223372036854775808 \x7d" .start =
      next ⟨.keyword .enum, ⟨1, 1⟩⟩ (next ⟨.ident "E", ⟨1, 6⟩⟩ (next ⟨.punct .colon, ⟨1, 8⟩⟩
        (next ⟨.scalar (.int .i64), ⟨1, 10⟩⟩ (next ⟨.punct .curlyOpen, ⟨1, 14⟩⟩ body)))) := by
    cbv
  have hitems : enumItems "E" .i64 [] 0 body = .error ⟨⟨1, 20⟩, .badNumber l.text .outOfRange⟩ :=
    enumItems_failed rfl rfl
  refine ⟨by decide, by decide, rfl, ?_⟩
  rw [Declarations.parse, htokens, statements_plain_error (by decide)]
  simp only [declaration?, enum, ident, Attribute.refuse, intKind, punct?, punct, hitems, bind,
    Except.bind, if_true]

end Tokens
end Bindery
