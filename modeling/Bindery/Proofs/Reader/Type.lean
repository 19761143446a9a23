import Bindery.Proofs.Reader.Buffer
import Bindery.Reader.Type

/-!
# Types are read to their end

The reader descends into a type as the rule on streams does. Within a type each opening of a wrapper
takes tokens, so the descent ends.
-/
namespace Bindery

namespace Tokens
variable {scope : List String} {outer : List Enclosure}

/-! ### Paths and suffixes, token by token -/

theorem unexpected_bind {α β : Type} (ts : Tokens) (f : α → Except Fault β) :
    ts.unexpected >>= f = ts.unexpected := by
  unfold unexpected failAt
  cases ts.head <;> rfl

theorem ident_of_ne {ts : Tokens} (h : ∀ name pos rest, ts = next ⟨.ident name, pos⟩ rest → False) :
    ts.ident = ts.unexpected := by
  unfold ident
  split
  · exact (h _ _ _ rfl).elim
  · rfl

theorem punct_of_ne {ts : Tokens} {p : Punct}
    (h : ∀ pos rest, ts = next ⟨.punct p, pos⟩ rest → False) : ts.punct p = ts.unexpected := by
  unfold punct
  split
  · rename_i q pos rest
    refine if_neg fun hq => h pos rest ?_
    rw [hq]
  · rfl

/-- A mark that does not come first. -/
theorem punct?_of_ne {ts : Tokens} {p : Punct} (hbroken : ∀ fault, ts = broken fault → False)
    (h : ∀ pos rest, ts = next ⟨.punct p, pos⟩ rest → False) : ts.punct? p = .ok (false, ts) := by
  unfold punct?
  split
  · rename_i q pos rest
    refine if_neg fun hq => h pos rest ?_
    rw [hq]
  · exact (hbroken _ rfl).elim
  · rfl

theorem pathFrom_eq (name : String) (ts : Tokens) : ts.pathFrom name = (do
    match ← ts.punct? .doubleColon with
    | (false, ts) => .ok (name, ts)
    | (true, ts) =>
      let (part, ts) ← ts.ident
      ts.pathFrom (name ++ "::" ++ part)) := by
  fun_cases pathFrom name ts with
  | case1 => rfl
  | case2 _ ts hno =>
    change _ = ts.ident >>= fun r => r.2.pathFrom (name ++ "::" ++ r.1)
    rw [ident_of_ne hno, unexpected_bind]
  | case3 => rfl
  | case4 ts _ hno hbroken =>
    rw [punct?_of_ne hbroken hno]
    rfl

/-- The type with an array suffix whose opening bracket is read. -/
def arrayOf (t : Ty) : Tokens → Except Fault (Ty × Tokens)
  | next ⟨.number digits, p⟩ ts => do
    let n ← arrayLength digits p
    let ts ← ts.punct .squareClose
    .ok (.array t n, ts)
  | ts => ts.unexpected

theorem arrayOf_of_ne {t : Ty} {ts : Tokens}
    (h : ∀ digits p rest, ts = next ⟨.number digits, p⟩ rest → False) :
    arrayOf t ts = ts.unexpected := by
  unfold arrayOf
  split
  · exact (h _ _ _ rfl).elim
  · rfl

/-- The type with an array suffix, if one comes first. -/
def suffix? (t : Ty) (ts : Tokens) : Except Fault (Option Ty × Tokens) := do
  let r ← ts.punct? .squareOpen
  if r.1 then
    let (t, ts) ← arrayOf t r.2
    .ok (some t, ts)
  else .ok (none, r.2)

theorem suffix?_length {t u : Ty} {ts rest : Tokens} (h : suffix? t ts = .ok (some u, rest)) :
    rest.length < ts.length := by
  obtain ⟨⟨found, inner⟩, hopen, h⟩ := bind_eq_ok.1 h
  have hinner := punct?_length hopen
  cases found with
  | false => cases h
  | true =>
    obtain ⟨⟨u, rest⟩, harray, ⟨⟩⟩ := bind_eq_ok.1 h
    dsimp only at harray
    unfold arrayOf at harray
    split at harray
    · obtain ⟨n, -, harray⟩ := bind_eq_ok.1 harray
      obtain ⟨rest, hclose, ⟨⟩⟩ := bind_eq_ok.1 harray
      have := punct_length hclose
      simp only [length_next] at hinner
      omega
    · exact absurd harray unexpected_ne_ok

theorem suffixes_eq (t : Ty) (ts : Tokens) : suffixes t ts = (do
    match ← suffix? t ts with
    | (some t, ts) => suffixes t ts
    | (none, ts) => .ok (t, ts)) := by
  fun_cases suffixes t ts with
  | case1 _ digits p ts fault hn =>
    simp only [suffix?, arrayOf, punct?, bind, Except.bind, if_true, hn]
  | case2 _ digits p n hn rest _ =>
    simp only [suffix?, arrayOf, punct?, bind, Except.bind, if_true, hn]
    rfl
  | case3 _ digits p n hn ts hno =>
    have harray : arrayOf t (next ⟨.number digits, p⟩ ts) = ts.unexpected := by
      rw [arrayOf, hn]
      change ts.punct .squareClose >>= _ = _
      rw [punct_of_ne hno, unexpected_bind]
    change _ = (arrayOf t (next ⟨.number digits, p⟩ ts) >>= _) >>= _
    rw [harray, unexpected_bind, unexpected_bind]
  | case4 _ ts hno =>
    change _ = (arrayOf t ts >>= _) >>= _
    rw [arrayOf_of_ne hno, unexpected_bind, unexpected_bind]
  | case5 => rfl
  | case6 ts _ hno hbroken =>
    rw [suffix?, punct?_of_ne hbroken hno]
    rfl

/-! ### Types within types -/

/-- Closes the wrappers around a type with its suffixes, the innermost first. -/
def unwrap : List Enclosure → Ty → Tokens → Except Fault (Ty × Tokens)
  | [], t, ts => .ok (t, ts)
  | e :: outer, t, ts => do
    let ts ← ts.punct .greater
    close outer (e.around t) ts

theorem close_eq (outer : List Enclosure) (t : Ty) (ts : Tokens) :
    close outer t ts = suffixes t ts >>= fun r => unwrap outer r.1 r.2 := by
  cases outer with
  | nil =>
    rw [close]
    cases suffixes t ts <;> rfl
  | cons e outer => rfl

/-- What follows a type within wrappers, or what its absence means there. -/
def within (outer : List Enclosure) (ts : Tokens) : Option Ty × Tokens → Except Fault (Option Ty × Tokens)
  | (none, _) => noType outer ts
  | (some t, rest) => do
    let (t, rest) ← unwrap outer t rest
    .ok (some t, rest)

theorem close_within (outer : List Enclosure) (t : Ty) (ts us : Tokens) :
    (close outer t ts >>= fun r => .ok (some r.1, r.2)) =
      (close [] t ts >>= fun r => .ok (some r.1, r.2)) >>= within outer us := by
  rw [close_eq outer, close_eq []]
  cases suffixes t ts <;> rfl

theorem within_cons (e : Enclosure) (outer : List Enclosure) (ts us : Tokens)
    (r : Option Ty × Tokens) :
    within (e :: outer) ts r = within [e] ts r >>= within outer us := by
  obtain ⟨found, rest⟩ := r
  cases found with
  | none =>
    change noType (e :: outer) ts = noType [e] ts >>= within outer us
    unfold noType
    cases ts.head <;> rfl
  | some t =>
    have hwithin : ∀ outer, within (e :: outer) ts (some t, rest) = (rest.punct .greater >>= fun ts =>
        close outer (e.around t) ts >>= fun r => .ok (some r.1, r.2)) := by
      intro outer
      change (rest.punct .greater >>= _) >>= _ = _
      rw [bind_assoc]
    rw [hwithin, hwithin, bind_assoc]
    exact congrArg _ (funext fun r => close_within outer _ _ _)

theorem noType_within (outer : List Enclosure) (ts : Tokens) :
    noType outer ts = noType [] ts >>= within outer ts := by
  unfold noType
  cases hhead : ts.head with
  | error fault => rfl
  | ok t =>
    cases outer <;> simp [bind, Except.bind, within, noType, hhead]

section
variable {k : Keyword} {e : Enclosure} (hk : Enclosure.ofKeyword? k = some e)
  (outer : List Enclosure) (p : Position) (ts : Tokens)
include hk

theorem typeWithin_keyword : typeWithin scope outer (next ⟨.keyword k, p⟩ ts) = (match ts with
    | next ⟨.punct .less, _⟩ inner => typeWithin scope (e :: outer) inner
    | ts => ts.unexpected) := by
  rw [typeWithin.eq_def]
  cases k <;> cases hk <;> rfl

theorem typeWithin_wrapper : typeWithin scope outer (next ⟨.keyword k, p⟩ ts) =
    ts.punct .less >>= typeWithin scope (e :: outer) := by
  rw [typeWithin_keyword hk]
  split
  · rfl
  · rename_i hno
    rw [punct_of_ne hno, unexpected_bind]

end

theorem typeWithin_other {k : Keyword} (hk : Enclosure.ofKeyword? k = none) (hstr : k ≠ .str)
    (hmut : k ≠ .strMut) (outer : List Enclosure) (p : Position) (ts : Tokens) :
    typeWithin scope outer (next ⟨.keyword k, p⟩ ts) = noType outer (next ⟨.keyword k, p⟩ ts) := by
  cases k <;> first | contradiction | cases hk
  all_goals rfl

/-- A type within wrappers is a type, and then the wrappers are closed. -/
theorem typeWithin_eq (outer : List Enclosure) (ts : Tokens) :
    typeWithin scope outer ts = typeWithin scope [] ts >>= within outer ts := by
  match ts with
  | done _ => exact noType_within outer _
  | broken _ => exact noType_within outer _
  | next ⟨.scalar s, _⟩ rest => exact close_within outer _ _ _
  | next ⟨.ident name, p⟩ rest =>
    have hpath : ∀ outer, typeWithin scope outer (next ⟨.ident name, p⟩ rest) =
        (pathFrom name rest >>= fun r => close outer (named scope r.1) r.2 >>= fun r =>
          .ok (some r.1, r.2)) := fun _ => rfl
    rw [hpath, hpath, bind_assoc]
    exact congrArg _ (funext fun r => close_within outer _ _ _)
  | next ⟨.keyword k, p⟩ rest =>
    cases hk : Enclosure.ofKeyword? k with
    | none =>
      by_cases hstr : k = .str
      · subst k
        exact close_within outer _ _ _
      · by_cases hmut : k = .strMut
        · subst k
          exact close_within outer _ _ _
        · rw [typeWithin_other hk hstr hmut, typeWithin_other hk hstr hmut]
          exact noType_within outer _
    | some e =>
      rw [typeWithin_wrapper hk, typeWithin_wrapper hk]
      cases hless : rest.punct .less with
      | error fault => rfl
      | ok inner =>
        have hshort := punct_length hless
        change typeWithin scope (e :: outer) inner = typeWithin scope [e] inner >>= _
        rw [typeWithin_eq (e :: outer) inner, typeWithin_eq [e] inner, bind_assoc]
        exact congrArg _ (funext fun r => within_cons e outer _ _ r)
  | next ⟨.number _, _⟩ _ | next ⟨.quoted _, _⟩ _ | next ⟨.punct _, _⟩ _ | next ⟨.eof, _⟩ _ =>
    exact noType_within outer _
termination_by ts.length
decreasing_by all_goals simp only [length_next]; omega

/-- Where no type begins, nothing is taken, and within a wrapper one has to begin. -/
theorem eq_of_typeWithin_none {ts rest : Tokens}
    (h : typeWithin scope outer ts = .ok (none, rest)) : outer = [] ∧ rest = ts := by
  fun_induction typeWithin scope outer ts with
  | case1 | case3 | case4 =>
    obtain ⟨_, _, h⟩ := bind_eq_ok.1 h
    cases h
  | case2 =>
    obtain ⟨_, _, h⟩ := bind_eq_ok.1 h
    obtain ⟨_, _, h⟩ := bind_eq_ok.1 h
    cases h
  | case5 | case8 => exact ⟨(noType_eq_ok h).1, (noType_eq_ok h).2.2⟩
  | case6 _ _ _ _ _ _ _ _ _ ih => exact absurd (ih h).1 (List.cons_ne_nil _ _)
  | case7 => exact absurd h unexpected_ne_ok

/-- A type between angle brackets. -/
def enclosed (scope : List String) (ts : Tokens) : Except Fault (Ty × Tokens) := do
  let ts ← ts.punct .less
  match ← ts.type? scope with
  | (some t, ts) =>
    let ts ← ts.punct .greater
    .ok (t, ts)
  | (none, ts) => ts.failAt fun _ => .expectedType

/-- A type without suffixes, if one begins here. -/
def base? (scope : List String) : Tokens → Except Fault (Option Ty × Tokens)
  | next ⟨.scalar s, _⟩ rest => .ok (some (.scalar s), rest)
  | next ⟨.ident name, _⟩ rest => do
    let (name, rest) ← rest.pathFrom name
    .ok (some (named scope name), rest)
  | next ⟨.keyword .str, _⟩ rest => .ok (some (.text false), rest)
  | next ⟨.keyword .strMut, _⟩ rest => .ok (some (.text true), rest)
  | next ⟨.keyword k, p⟩ rest =>
    match Enclosure.ofKeyword? k with
    | none => .ok (none, next ⟨.keyword k, p⟩ rest)
    | some e => do
      let (t, rest) ← rest.enclosed scope
      .ok (some (e.around t), rest)
  | broken fault => .error fault
  | ts => .ok (none, ts)

theorem type?_eq (ts : Tokens) : ts.type? scope = (do
    match ← ts.base? scope with
    | (some t, ts) =>
      let (t, ts) ← suffixes t ts
      .ok (some t, ts)
    | (none, ts) => .ok (none, ts)) := by
  unfold type?
  match ts with
  | done _ => rfl
  | broken _ => rfl
  | next ⟨.scalar s, _⟩ rest => rfl
  | next ⟨.ident name, p⟩ rest =>
    change (pathFrom name rest >>= _) = (pathFrom name rest >>= _) >>= _
    rw [bind_assoc]
    rfl
  | next ⟨.keyword k, p⟩ rest =>
    cases hk : Enclosure.ofKeyword? k with
    | none =>
      cases k <;> first | rfl | cases hk
    | some e =>
      have hbase : (next ⟨.keyword k, p⟩ rest).base? scope = (rest.enclosed scope >>= fun r =>
          .ok (some (e.around r.1), r.2)) := by
        cases k <;> cases hk <;> rfl
      rw [typeWithin_wrapper hk, hbase, enclosed, bind_assoc, bind_assoc]
      refine congrArg _ (funext fun inner => ?_)
      rw [typeWithin_eq, type?]
      cases hinner : typeWithin scope [] inner with
      | error fault => rfl
      | ok r =>
        obtain ⟨found, after⟩ := r
        cases found with
        | none =>
          obtain ⟨-, rfl⟩ := eq_of_typeWithin_none hinner
          change noType [e] after = after.failAt _ >>= _
          unfold noType failAt
          cases after.head <;> rfl
        | some t =>
          change (after.punct .greater >>= fun ts => close [] (e.around t) ts) >>= _ =
            (after.punct .greater >>= _) >>= _
          rw [bind_assoc, bind_assoc]
          rfl
  | next ⟨.number _, _⟩ _ | next ⟨.quoted _, _⟩ _ | next ⟨.punct _, _⟩ _ | next ⟨.eof, _⟩ _ => rfl

end Tokens

namespace Reader
variable {s : ReadState} {ts rest : Tokens}

theorem reads_pathFrom (name : String) {ts : Tokens} {s : ReadState} (h : s.At 0 ts) :
    Reads (pathFrom name) s (ts.pathFrom name) := by
  rw [pathFrom, Tokens.pathFrom_eq]
  refine (reads_punct? h).bind fun found rest s hmark h => ?_
  cases found with
  | false => exact runs_pure h rfl
  | true =>
    refine (reads_ident h).bind fun part rest' s hident h => ?_
    exact reads_pathFrom _ h
termination_by ts.length
decreasing_by
  have := Tokens.punct?_length hmark
  have := Tokens.ident_length hident
  omega

theorem reads_path (h : s.At 0 ts) : Reads path s ts.path :=
  (reads_ident h).bind fun name _ _ _ h => reads_pathFrom name h

theorem tries_suffix (t : Ty) (h : s.At 0 ts) : Tries (suffix t) s (Tokens.suffix? t ts) := by
  refine tries_mark (g := fun ts => Tokens.arrayOf t ts >>= fun r => .ok (some r.1, r.2)) h
    fun rest s _ h => ?_
  unfold Tokens.arrayOf
  split
  · rename_i digits p ts _
    refine runs_take h rfl rfl fun s h => ?_
    dsimp only
    cases Tokens.arrayLength digits p with
    | error fault => exact runs_throw
    | ok n =>
      change Tries _ s ((ts.punct .squareClose >>= fun ts => .ok (Ty.array t n, ts)) >>= _)
      rw [bind_assoc]
      exact runs_punct h fun rest s _ h => runs_pure h fun _ => rfl
  · rename_i hno
    rw [Tokens.unexpected_bind]
    refine runs_take_unexpected h fun t ht => ?_
    match rest, ht with
    | .done _, rfl => rfl
    | .next ⟨l, p⟩ ts, rfl =>
      cases l with
      | number digits => exact (hno digits p ts rfl).elim
      | _ => rfl

theorem reads_suffixes (t : Ty) {ts : Tokens} {s : ReadState} (h : s.At 0 ts) :
    Reads (suffixes t) s (Tokens.suffixes t ts) := by
  rw [suffixes, Tokens.suffixes_eq]
  refine (reads_check h (tries_suffix t h)).bind fun found rest s hsuffix h => ?_
  cases found with
  | none => exact runs_pure h rfl
  | some u => exact reads_suffixes u h
termination_by ts.length
decreasing_by exact Tokens.suffix?_length hsuffix

section
variable {scope : List String}

theorem reads_enclosed (h : s.At 0 ts)
    (hinner : ∀ inner s, inner.length < ts.length → s.At 0 inner →
      Tries (type scope) s (inner.type? scope)) :
    Reads (enclosed scope) s (ts.enclosed scope) := by
  rw [enclosed]
  refine runs_punct h fun inner s hless h => ?_
  rw [← check_bind]
  refine (reads_check h (hinner inner s (Tokens.punct_length hless) h)).bind
    fun found rest s _ h => ?_
  cases found with
  | none => exact reads_failHere h
  | some t => exact runs_punct h fun rest s _ h => runs_pure h rfl

theorem tries_base (h : s.At 0 ts)
    (hinner : ∀ inner s, inner.length < ts.length → s.At 0 inner →
      Tries (type scope) s (inner.type? scope)) :
    Tries (base scope) s (ts.base? scope) := by
  rw [base]
  match ts, h with
  | .done _, h => exact runs_peek h rfl fun s h => runs_pure h nofun
  | .broken _, h => exact runs_peek_fault h rfl
  | .next ⟨.scalar _, _⟩ rest, h =>
    exact runs_peek h rfl fun s h => runs_flush h fun s h => runs_pure h fun _ => rfl
  | .next ⟨.ident name, p⟩ rest, h =>
    refine runs_peek h rfl fun s h => runs_putBack h fun s h => ?_
    exact (reads_path h).bind fun name rest s _ h => runs_pure h fun _ => rfl
  | .next ⟨.keyword k, p⟩ rest, h =>
    refine runs_peek h rfl fun s h => ?_
    cases k with
    | str | strMut => exact runs_flush h fun s h => runs_pure h fun _ => rfl
    | slice | sliceMut | ref | refMut | optional =>
      refine runs_flush h fun s h => ?_
      exact (reads_enclosed h fun inner s hshort => hinner inner s (Nat.lt_succ_of_lt hshort)).bind
        fun t rest s _ h => runs_pure h fun _ => rfl
    | _ => exact runs_pure h nofun
  | .next ⟨.number _, _⟩ _, h | .next ⟨.quoted _, _⟩ _, h | .next ⟨.punct _, _⟩ _, h
  | .next ⟨.eof, _⟩ _, h =>
    exact runs_peek h rfl fun s h => runs_pure h nofun

end

theorem tries_type {scope : List String} {ts : Tokens} {s : ReadState} (h : s.At 0 ts) :
    Tries (type scope) s (ts.type? scope) := by
  have hbase : Tries (base scope) s (ts.base? scope) :=
    tries_base h fun inner s hshort h => tries_type h
  rw [type, Tokens.type?_eq]
  refine hbase.bind fun found rest k s _ hk h => ?_
  cases found with
  | none => exact runs_pure h nofun
  | some t =>
    obtain rfl := hk rfl
    exact (reads_suffixes t h).bind fun u rest s _ h => runs_pure h fun _ => rfl
termination_by ts.length

theorem ends_wholeType (scope : List String) (h : s.At 0 ts) :
    Ends (wholeType scope) s (ts.wholeType scope) := by
  refine (reads_check h (tries_type h)).bind_ends fun found rest s _ h => ?_
  cases found with
  | none =>
    have hfault : Runs (fun _ _ => True) (peek >>= fun t => unexpected t : Reader Ty) s
      rest.unexpected := reads_unexpected h
    have hends := hfault.ends
    rwa [map_unexpected] at hends
  | some t =>
    have hlast : Runs (fun _ _ => True) (take Lexeme.eof.is? >>= fun _ => pure t) s
        (rest.endOfText.map fun _ => (t, rest)) := by
      match rest, h with
      | .done pos, h => exact runs_take h rfl rfl fun s h => runs_pure h trivial
      | .broken fault, h =>
        refine runs_take_unexpected h fun t ht => ?_
        cases ht
      | .next u rest, h =>
        rw [Tokens.endOfText, map_unexpected]
        · refine runs_take_unexpected h fun t ht => ?_
          cases ht
          exact if_neg h.endsOnce.1
        · rintro _ ⟨⟩
    have hends := hlast.ends
    dsimp only
    cases hx : rest.endOfText <;> rw [hx] at hends <;> exact hends

/-- The type that a text denotes is found, or its fault. -/
theorem parseType_eq (scope : List String) (text : String) :
    parseType scope text = some ((Ty.parse text scope).mapError .fault) :=
  (ends_wholeType scope (at_ofText text .start)).outcome

end Reader
end Bindery
