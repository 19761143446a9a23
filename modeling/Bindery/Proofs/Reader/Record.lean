import Bindery.Proofs.Decl.Enumerators
import Bindery.Proofs.Decl.Unplaced
import Bindery.Proofs.Reader.Attribute

/-!
# Structs and enumerations are read to their end

Fields run as the rules on streams do. Enumerators are read another way: the reader looks at the
mark behind an enumerator before it takes the enumerator itself, counts implicit values in words,
and takes the closing bracket with what it has looked at.
-/
namespace Bindery.Tokens

/-- The position of a keyword, if it comes first. -/
def keyword? (k : Keyword) : Tokens → Except Fault (Option Position × Tokens)
  | next t rest =>
    if t.lexeme = .keyword k then .ok (some t.pos, rest) else .ok (none, next t rest)
  | broken fault => .error fault
  | ts => .ok (none, ts)

theorem eq_of_param?_none {scope : List String} {ts rest : Tokens}
    (h : ts.param? scope = .ok (none, rest)) : rest = ts := by
  obtain ⟨_, _, h⟩ := bind_eq_ok.1 h
  split at h
  · obtain ⟨_, _, h⟩ := bind_eq_ok.1 h
    split at h
    · cases h
    · exact absurd h failAt_ne_ok
  · cases h
  · cases h
    rfl

theorem newField_of_head {ts : Tokens} {t : Token} {r : Record} (hhead : ts.head = .ok t) :
    ts.newField r = (do
      match ← ts.param? [] with
      | (none, _) => .error ⟨t.pos, .expectedField⟩
      | (some field, rest) =>
        let rest ← rest.punct .semicolon
        if field.name ∈ r.fields.map (·.name) then
          .error ⟨t.pos, .duplicateField field.name r.name⟩
        else .ok ({ r with fields := r.fields ++ [field] }, rest)) := by
  unfold newField
  simp only [failAt_of_head hhead]
  match ts.param? [] with
  | .error _ | .ok (none, _) => rfl
  | .ok (some field, rest) =>
    simp only [bind, Except.bind]
    cases rest.punct .semicolon <;> rfl

section
variable {ts : Tokens} {t : Token} {p : Punct}

theorem avoids_of_head (hhead : ts.head = .ok t) (ht : t.lexeme ≠ .punct p) : ts.Avoids [p] :=
  ⟨t, hhead, by simpa using ht⟩

theorem punct_of_head (hhead : ts.head = .ok t) (ht : t.lexeme ≠ .punct p) :
    ts.punct p = ts.unexpected := by
  refine punct_of_ne fun pos rest hts => ?_
  rw [hts] at hhead
  cases hhead
  exact ht rfl

end

/-- The integer kind of an enumeration, if a colon announces one. -/
def intKind? (ts : Tokens) : Except Fault (Option IntKind × Tokens) := do
  match ← ts.punct? .colon with
  | (false, ts) => .ok (none, ts)
  | (true, ts) =>
    match ts with
    | next ⟨.scalar (.int kind), _⟩ rest => .ok (some kind, rest)
    | ts => ts.failAt fun _ => .expectedIntKind

theorem intKind_eq (ts : Tokens) :
    ts.intKind = ts.intKind? >>= fun r => .ok (r.1.getD .i32, r.2) := by
  rw [intKind, intKind?, bind_assoc]
  refine congrArg _ (funext fun r => ?_)
  rcases r with ⟨_ | _, _ | _ | ⟨⟨l, _⟩, _⟩⟩ <;> try rfl
  cases l with
  | scalar s => cases s <;> rfl
  | _ => rfl

/-- The value that an enumerator states, behind the assignment mark. -/
def ownValue (kind : IntKind) (name : String) : Tokens → Except Fault (Int × Tokens)
  | next ⟨.number digits, p⟩ rest => do
    let v ← numberValue digits p
    if kind.Holds v then .ok (v, rest) else .error ⟨p, .valueOutside digits name kind.name⟩
  | ts => ts.unexpected

theorem enumItem_assign {enum name : String} {kind : IntKind} {seen : List (String × Int)}
    {implicit : Int} {p q : Position} (hnew : name ∉ seen.map (·.1)) (ts : Tokens) :
    enumItem enum kind seen implicit (next ⟨.ident name, p⟩ (next ⟨.punct .assign, q⟩ ts)) =
      ts.ownValue kind name >>= fun r => .ok ((name, r.1), r.2) := by
  have hother (ts : Tokens) : (ts.unexpected : Except Fault ((String × Int) × Tokens)) =
      ts.unexpected >>= fun r : Int × Tokens => .ok ((name, r.1), r.2) :=
    (unexpected_bind _ _).symm
  match ts with
  | next ⟨.number digits, r⟩ rest =>
    rw [enumItem_explicit hnew, ownValue, bind_assoc]
    refine congrArg _ (funext fun v => ?_)
    split <;> rfl
  | done _ | broken _ | next ⟨.ident _, _⟩ _ | next ⟨.quoted _, _⟩ _ | next ⟨.scalar _, _⟩ _
  | next ⟨.keyword _, _⟩ _ | next ⟨.punct _, _⟩ _ | next ⟨.eof, _⟩ _ =>
    exact (if_neg hnew).trans (hother _)

theorem enumItem_of_ne {enum : String} {kind : IntKind} {seen : List (String × Int)} {implicit : Int}
    {ts : Tokens} (h : ∀ name p rest, ts = next ⟨.ident name, p⟩ rest → False) :
    enumItem enum kind seen implicit ts = ts.unexpected := by
  unfold enumItem
  split
  · exact (h _ _ _ rfl).elim
  · rfl

def struct? (ds : Declarations) (attrs : List Attribute) (ts : Tokens) :
    Except Fault (Option Declarations × Tokens) := do
  match ← ts.keyword? .struct with
  | (none, ts) => .ok (none, ts)
  | (some pos, ts) =>
    let (r, ts) ← ts.struct attrs pos
    .ok (some { ds with records := ds.records ++ [r] }, ts)

def enum? (ds : Declarations) (attrs : List Attribute) (ts : Tokens) :
    Except Fault (Option Declarations × Tokens) := do
  match ← ts.keyword? .enum with
  | (none, ts) => .ok (none, ts)
  | (some pos, ts) =>
    let (e, ts) ← ts.enum attrs pos
    .ok (some { ds with enums := ds.enums ++ [e] }, ts)

end Bindery.Tokens

namespace Bindery.Reader
variable {s : ReadState} {ts rest : Tokens}

/-! ### Structs -/

theorem tries_keyword (k : Keyword) (h : s.At 0 ts) : Tries (keyword k) s (ts.keyword? k) := by
  unfold keyword
  match ts, h with
  | .done _, h => exact runs_peek h rfl fun s h => runs_pure h nofun
  | .broken _, h => exact runs_peek_fault h rfl
  | .next t rest, h =>
    refine runs_peek h rfl fun s h => ?_
    by_cases ht : t.lexeme = .keyword k
    · simp only [Tokens.keyword?, if_pos ht]
      exact runs_flush h fun s h => runs_pure h fun _ => rfl
    · simp only [Tokens.keyword?, if_neg ht]
      exact runs_pure h nofun

theorem reads_newField (r : Record) (h : s.At 0 ts) : Reads (newField r) s (ts.newField r) := by
  cases hhead : ts.head with
  | error fault =>
    rw [Tokens.newField, Tokens.param?_of_head hhead]
    exact runs_peek_fault h hhead
  | ok first =>
    rw [Tokens.newField_of_head hhead]
    refine runs_peek h hhead fun s h => runs_putBack h fun s h => ?_
    refine (reads_check h (tries_param h)).bind fun found rest s hparam h => ?_
    cases found with
    | none =>
      rw [Tokens.eq_of_param?_none hparam] at h
      have hfault : (ts.failAt fun _ => .expectedField : Except Fault (Record × Tokens)) =
          .error ⟨first.pos, .expectedField⟩ := Tokens.failAt_of_head hhead
      rw [← hfault]
      exact reads_failHere h
    | some field =>
      refine runs_punct h fun rest s _ h => ?_
      split
      · exact runs_throwAt
      · exact runs_pure h rfl

theorem tries_struct (ds : Declarations) (attrs : List Attribute) (h : s.At 0 ts) :
    Tries (struct ds attrs) s (ts.struct? ds attrs) := by
  refine (tries_keyword .struct h).bind fun found rest k s _ hk h => ?_
  match found, hk with
  | none, _ => exact runs_pure h nofun
  | some p, hk =>
    obtain rfl := hk rfl
    change Tries _ s (rest.struct attrs p >>= _)
    rw [Tokens.struct, bind_assoc]
    refine (reads_path h).bind fun name rest s _ h => ?_
    rw [bind_assoc]
    refine runs_lift fun r => ?_
    rw [bind_assoc]
    refine (reads_punct? h).bind fun found rest s _ h => ?_
    cases found with
    | true => exact runs_pure h fun _ => rfl
    | false =>
      by_cases hname : ':' ∈ name.toList
      · simp only [if_pos hname]
        exact runs_throwAt
      · simp only [if_neg hname]
        rw [bind_assoc]
        refine runs_punct h fun rest s _ h => ?_
        rw [bind_assoc]
        refine (reads_block (fun r ts s h => reads_newField r h) _ h).bind fun r rest s _ h => ?_
        by_cases hfields : r.fields = []
        · simp only [if_pos hfields]
          exact runs_throwAt
        · simp only [if_neg hfields]
          exact runs_pure h fun _ => rfl

/-! ### Enumerations -/

theorem tries_intKind (h : s.At 0 ts) : Tries intKind s ts.intKind? := by
  unfold intKind
  cases hhead : ts.head with
  | error fault =>
    obtain rfl := Tokens.eq_broken hhead
    exact runs_peek_fault h rfl
  | ok t =>
    refine runs_peek h hhead fun s h => ?_
    by_cases ht : t.lexeme = .punct .colon
    · obtain ⟨l, p⟩ := t
      obtain rfl : l = .punct .colon := ht
      obtain ⟨rest, rfl⟩ := Tokens.exists_next hhead (by rintro ⟨⟩)
      match rest, h with
      | .done _, h => exact runs_peek h rfl fun s h => runs_throwAt
      | .broken _, h => exact runs_peek_fault h rfl
      | .next ⟨l, q⟩ rest, h =>
        refine runs_peek h rfl fun s h => ?_
        cases l with
        | scalar kind =>
          cases kind with
          | int kind => exact runs_flush h fun s h => runs_pure h fun _ => rfl
          | _ => exact runs_throwAt
        | _ => exact runs_throwAt
    · have hnone : ts.punct? .colon = .ok (false, ts) :=
        Tokens.punct?_of_avoids (Tokens.avoids_of_head hhead ht) List.mem_cons_self
      simp only [Tokens.intKind?, hnone, if_neg ht]
      exact runs_pure h nofun

/-- The implicit value of an enumerator, a word that is used up with the greatest one, stands for a
value without bounds. -/
def StandsFor (implicit : Int) (isUsedUp : Bool) (v : Int) : Prop :=
  if isUsedUp then v = 9223372036854775808 else implicit = v

section
variable {enum name : String} {kind : IntKind} {seen : List (String × Int)} {implicit v : Int}
  {isUsedUp : Bool} {p : Position} {β : Type} {final : β → Nat → Prop} {f : Int × Token → Reader β}
  {g : (String × Int) × Tokens → Except Fault (β × Tokens)}

theorem StandsFor.holds_iff (h : StandsFor implicit isUsedUp v) (kind : IntKind) :
    kind.Holds v ↔ ¬ (isUsedUp ∨ implicit < kind.range.1 ∨ implicit > kind.range.2) := by
  have hrange := Enumerator.range_bounds kind
  unfold IntKind.Holds
  cases isUsedUp with
  | true =>
    obtain rfl : v = 9223372036854775808 := h
    simp only [true_or, not_true_eq_false, iff_false]
    omega
  | false =>
    obtain rfl : implicit = v := h
    simp only [Bool.false_eq_true, false_or]
    omega

theorem reads_ownValue (h : s.At 0 ts) : Reads (ownValue kind name) s (ts.ownValue kind name) := by
  unfold ownValue
  match ts, h with
  | .next ⟨.number digits, q⟩ rest, h =>
    refine runs_take h rfl rfl fun s h => runs_lift fun v => ?_
    have hout : (v < kind.range.1 ∨ v > kind.range.2) ↔ ¬ kind.Holds v := by
      unfold IntKind.Holds
      omega
    by_cases hv : kind.Holds v
    · simp only [hout, if_neg (not_not_intro hv), if_pos hv]
      exact runs_pure h rfl
    · simp only [hout, if_pos hv, if_neg hv]
      exact runs_throwAt
  | .broken _, h => exact runs_take_unexpected h nofun
  | .done _, h => exact runs_take_unexpected h fun t ht => by cases ht; rfl
  | .next ⟨.ident _, _⟩ _, h | .next ⟨.quoted _, _⟩ _, h | .next ⟨.scalar _, _⟩ _, h
  | .next ⟨.keyword _, _⟩ _, h | .next ⟨.punct _, _⟩ _, h | .next ⟨.eof, _⟩ _, h =>
    exact runs_take_unexpected h fun t ht => by cases ht; rfl

theorem StandsFor.eq (h : StandsFor implicit isUsedUp v) (hunused : ¬ isUsedUp) : implicit = v := by
  rwa [StandsFor, if_neg hunused] at h

/-- The value of an enumerator and the token behind it, which is not taken. -/
theorem runs_enumValue (hv : StandsFor implicit isUsedUp v) (hnew : name ∉ seen.map (·.1))
    (h : s.At 1 (.next ⟨.ident name, p⟩ rest))
    (hf : ∀ value after t k us s,
      Tokens.enumItem enum kind seen v (.next ⟨.ident name, p⟩ rest) = .ok ((name, value), after) →
      after.head = .ok t → s.At k us → us.skip k = after.tail →
      Runs final (f (value, t)) s (g ((name, value), after)))
    (hg : ∀ item fault, g (item, .broken fault) = .error fault) :
    Runs final (enumValue kind name p implicit isUsedUp >>= f) s
      (Tokens.enumItem enum kind seen v (.next ⟨.ident name, p⟩ rest) >>= g) := by
  unfold enumValue
  rw [bind_assoc]
  cases hhead : rest.head with
  | error fault =>
    obtain rfl := Tokens.eq_broken hhead
    have hitem : Tokens.enumItem enum kind seen v (.next ⟨.ident name, p⟩ (.broken fault)) =
        .error fault := if_neg hnew
    rw [hitem]
    exact runs_peek_fault h hhead
  | ok t =>
    refine runs_peek h hhead fun s h => ?_
    by_cases ht : t.lexeme = .punct .assign
    · simp only [if_pos ht, bind_assoc]
      obtain ⟨l, q⟩ := t
      obtain rfl : l = .punct .assign := ht
      obtain ⟨rest, rfl⟩ := Tokens.exists_next hhead (by rintro ⟨⟩)
      refine runs_flush h fun s h => ?_
      rw [Tokens.enumItem_assign hnew, bind_assoc]
      refine (reads_ownValue h).bind fun value after s hvalue h => ?_
      have hitem : Tokens.enumItem enum kind seen v (.next ⟨.ident name, p⟩
          (.next ⟨.punct .assign, q⟩ rest)) = .ok ((name, value), after) := by
        rw [Tokens.enumItem_assign hnew, show rest.ownValue kind name = _ from hvalue]
        rfl
      cases hafter : after.head with
      | error fault =>
        obtain rfl := Tokens.eq_broken hafter
        change Runs final _ s (g ((name, value), .broken fault))
        rw [hg]
        exact runs_peek_fault h hafter
      | ok t =>
        exact runs_peek h hafter fun s h => hf value after t 1 after s hitem hafter h rfl
    · have hitem := @Tokens.enumItem_implicit rest enum name kind seen v p hnew
        (Tokens.avoids_of_head hhead ht)
      simp only [if_neg ht]
      by_cases hfit : kind.Holds v
      · have hitem := hitem.trans (if_pos hfit)
        have hin := (hv.holds_iff kind).1 hfit
        obtain rfl : implicit = v := hv.eq fun hused => hin (.inl hused)
        rw [if_neg hin]
        refine Runs.of_ok rfl rfl ?_
        rw [hitem]
        exact hf implicit rest t 2 _ s hitem hhead h rfl
      · rw [hitem, if_neg hfit, if_pos (not_not.1 (mt (hv.holds_iff kind).2 hfit))]
        exact runs_throwAt

end

theorem StandsFor.next (value : Int) :
    if value = 9223372036854775807 then StandsFor value true (value + 1)
    else StandsFor (value + 1) false (value + 1) := by
  split
  · rename_i h
    rw [h]
    rfl
  · rfl

/-- Behind an enumerator stands the closing bracket, or a comma with what follows it. -/
theorem reads_afterItem {all : List (String × Int)} {more : Reader (List (String × Int))}
    {g : Tokens → Except Fault (List (String × Int) × Tokens)} {after us : Tokens} {t : Token}
    {s : ReadState} {k : Nat} (hafter : after.head = .ok t) (h : s.At k us)
    (hskip : us.skip k = after.tail)
    (hmore : ∀ q tail s, after = .next ⟨.punct .comma, q⟩ tail → s.At 0 tail →
      Reads (more >>= fun items => flush >>= fun _ => pure items) s (g tail)) :
    Reads ((if t.lexeme = .punct .curlyClose then pure all
        else if t.lexeme = .punct .comma then flush >>= fun _ => more
        else unexpected t) >>= fun items => flush >>= fun _ => pure items) s
      (after.punct? .curlyClose >>= fun x =>
        match x with
        | (true, ts) => .ok (all, ts)
        | (false, ts) => ts.punct .comma >>= g) := by
  by_cases hend : t.lexeme = .punct .curlyClose
  · obtain ⟨l, q⟩ := t
    obtain rfl : l = .punct .curlyClose := hend
    obtain ⟨tail, rfl⟩ := Tokens.exists_next hafter (by rintro ⟨⟩)
    refine Runs.of_ok rfl rfl (runs_flush h fun s h => ?_)
    rw [hskip] at h
    exact runs_pure h rfl
  · have hopen : after.punct? .curlyClose = .ok (false, after) :=
      Tokens.punct?_of_avoids (Tokens.avoids_of_head hafter hend) List.mem_cons_self
    simp only [if_neg hend, hopen]
    by_cases hcomma : t.lexeme = .punct .comma
    · obtain ⟨l, q⟩ := t
      obtain rfl : l = .punct .comma := hcomma
      obtain ⟨tail, rfl⟩ := Tokens.exists_next hafter (by rintro ⟨⟩)
      simp only [if_true, bind_assoc]
      refine runs_flush h fun s h => ?_
      rw [hskip] at h
      exact hmore q tail s rfl h
    · have hfault : (after.punct .comma : Except Fault Tokens) =
          .error ⟨t.pos, .unexpected t.lexeme.describe⟩ :=
        (Tokens.punct_of_head hafter hcomma).trans (Tokens.failAt_of_head hafter)
      rw [if_neg hcomma]
      change Reads _ s (after.punct .comma >>= _)
      rw [hfault]
      exact Reads.stop runs_throwAt

/-- The closing bracket is looked at with the last enumerator, and then both are taken. -/
theorem reads_enumItems (enum : String) (kind : IntKind) (seen : List (String × Int))
    {implicit v : Int} {isUsedUp : Bool} (hv : StandsFor implicit isUsedUp v) {ts : Tokens}
    {s : ReadState} (h : s.At 0 ts) :
    Reads (enumItems enum kind seen implicit isUsedUp >>= fun items => flush >>= fun _ => pure items)
      s (Tokens.enumItems enum kind seen v ts) := by
  rw [enumItems, bind_assoc, Tokens.enumItems_eq]
  cases hhead : ts.head with
  | error fault =>
    obtain rfl := Tokens.eq_broken hhead
    exact runs_peek_fault h hhead
  | ok t =>
    refine runs_peek h hhead fun s h => ?_
    by_cases hclose : t.lexeme = .punct .curlyClose
    · obtain ⟨l, p⟩ := t
      obtain rfl : l = .punct .curlyClose := hclose
      obtain ⟨rest, rfl⟩ := Tokens.exists_next hhead (by rintro ⟨⟩)
      exact Runs.of_ok rfl rfl (runs_flush h fun s h => runs_pure h rfl)
    · have hopen : ts.punct? .curlyClose = .ok (false, ts) :=
        Tokens.punct?_of_avoids (Tokens.avoids_of_head hhead hclose) List.mem_cons_self
      simp only [if_neg hclose, hopen]
      obtain ⟨l, p⟩ := t
      cases l with
      | ident name =>
        obtain ⟨rest, hts⟩ := Tokens.exists_next hhead (by rintro ⟨⟩)
        rw [hts] at h ⊢
        change Reads _ s (Tokens.enumItem enum kind seen v _ >>= _)
        by_cases hnew : name ∈ seen.map (·.1)
        · simp only [if_pos hnew]
          rw [show Tokens.enumItem enum kind seen v (.next ⟨.ident name, p⟩ rest) = _ from
            if_pos hnew]
          exact Reads.stop runs_throwAt
        · simp only [if_neg hnew, bind_assoc]
          refine runs_enumValue hv hnew h (fun value after t k us s hitem hafter h hskip => ?_)
            fun _ _ => rfl
          refine reads_afterItem hafter h hskip fun q tail s (htail : after = _) h => ?_
          have hnext := StandsFor.next value
          split at hnext
          · rename_i hvalue
            rw [if_pos hvalue]
            exact reads_enumItems enum kind _ hnext h
          · rename_i hvalue
            rw [if_neg hvalue]
            exact reads_enumItems enum kind _ hnext h
      | _ =>
        change Reads _ s (Tokens.enumItem enum kind seen v ts >>= _)
        have hno : ∀ name q rest, ts = .next ⟨.ident name, q⟩ rest → False := by
          intro name q rest hts
          rw [hts] at hhead
          cases hhead
        rw [Tokens.enumItem_of_ne hno, Tokens.unexpected, Tokens.failAt_of_head hhead]
        exact Reads.stop runs_throwAt
termination_by ts.length
decreasing_by
  all_goals
    have hlength := Tokens.enumItem_length hitem
    simp only [hts, htail, Tokens.length_next] at hlength ⊢
    omega

theorem flush_bind {β : Type} (m : Reader (List (String × Int)))
    (f : List (String × Int) → Reader β) : (m >>= fun items => flush >>= fun _ => f items) =
      (m >>= fun items => flush >>= fun _ => pure items) >>= f := by
  simp only [bind_assoc, pure_bind]

theorem tries_enum (ds : Declarations) (attrs : List Attribute) (h : s.At 0 ts) :
    Tries (enum ds attrs) s (ts.enum? ds attrs) := by
  refine (tries_keyword .enum h).bind fun found rest k s _ hk h => ?_
  match found, hk with
  | none, _ => exact runs_pure h nofun
  | some p, hk =>
    obtain rfl := hk rfl
    change Tries _ s (rest.enum attrs p >>= _)
    rw [Tokens.enum, bind_assoc]
    refine (reads_ident h).bind fun name rest s _ h => ?_
    rw [bind_assoc]
    refine runs_lift fun _ => ?_
    rw [bind_assoc, Tokens.intKind_eq, bind_assoc]
    refine (reads_check h (tries_intKind h)).bind fun found rest s _ h => ?_
    change Tries _ s ((rest.punct .curlyOpen >>= _) >>= _)
    rw [bind_assoc]
    refine runs_punct h fun rest s _ h => ?_
    rw [bind_assoc, flush_bind]
    have hzero : StandsFor 0 false 0 := rfl
    refine (reads_enumItems name _ [] hzero h).bind fun items rest s _ h => ?_
    by_cases hitems : items = []
    · simp only [if_pos hitems]
      exact runs_throwAt
    · simp only [if_neg hitems]
      exact runs_pure h fun _ => rfl

end Bindery.Reader
