import Bindery.Proofs.Annotation.Cursor
import Bindery.Proofs.Reader.Function
import Bindery.Proofs.Reader.Record

/-!
# Texts are read to their end

A statement is read by the first rule that does not decline. A rule that declines leaves the tokens
as they were, and one that does not takes at least one, so the statements of a text come to an end.
-/
namespace Bindery.Tokens

/-- A constructor, the destructor or a method of a handle, if one begins here. -/
def handleItem? (d : Handle) : Tokens → Except Fault (Option Handle × Tokens)
  | next ⟨.keyword .ctor, _⟩ rest => do
    let (c, rest) ← rest.constructor
    .ok (some { d with constructors := d.constructors ++ [c] }, rest)
  | next ⟨.keyword .dtor, pos⟩ rest =>
    if d.destructor ≠ none then .error ⟨pos, .secondDestructor d.name⟩
    else do
      let (symbol, rest) ← rest.symbol
      .ok (some { d with destructor := some symbol }, rest)
  | next ⟨.keyword .fn, _⟩ rest => do
    let (m, rest) ← rest.method
    .ok (some { d with methods := d.methods ++ [m] }, rest)
  | broken fault => .error fault
  | ts => .ok (none, ts)

theorem handleItem_eq (d : Handle) (ts : Tokens) : ts.handleItem d = (do
    match ← ts.handleItem? d with
    | (some d, ts) => .ok (d, ts)
    | (none, ts) => ts.unexpected) := by
  match ts with
  | done _ | broken _ => rfl
  | next ⟨.keyword k, p⟩ rest =>
    cases k with
    | ctor =>
      change (rest.constructor >>= _) = (rest.constructor >>= _) >>= _
      rw [bind_assoc]
      rfl
    | dtor =>
      rw [handleItem, handleItem?]
      split
      · rfl
      · rw [bind_assoc]
        rfl
    | fn =>
      change (rest.method >>= _) = (rest.method >>= _) >>= _
      rw [bind_assoc]
      rfl
    | _ => rfl
  | next ⟨.ident _, _⟩ _ | next ⟨.number _, _⟩ _ | next ⟨.quoted _, _⟩ _ | next ⟨.scalar _, _⟩ _
  | next ⟨.punct _, _⟩ _ | next ⟨.eof, _⟩ _ => rfl

section
variable (ds : Declarations) (attrs : List Attribute)

def handle? (ts : Tokens) : Except Fault (Option Declarations × Tokens) := do
  match ← ts.keyword? .handle with
  | (none, ts) => .ok (none, ts)
  | (some pos, ts) =>
    let (d, ts) ← ts.handle attrs pos
    .ok (some { ds with handles := ds.handles ++ [d] }, ts)

/-- The first rule of a list that does not decline. -/
def firstOf {α : Type} : List (Tokens → Except Fault (Option α × Tokens)) → Tokens →
    Except Fault (Option α × Tokens)
  | [], ts => .ok (none, ts)
  | rule :: rules, ts => do
    match ← rule ts with
    | (some a, ts) => .ok (some a, ts)
    | (none, ts) => firstOf rules ts

theorem firstOf_decline {α : Type} {rule : Tokens → Except Fault (Option α × Tokens)}
    {rules : List (Tokens → Except Fault (Option α × Tokens))} {ts : Tokens}
    (h : rule ts = .ok (none, ts)) : firstOf (rule :: rules) ts = firstOf rules ts := by
  rw [firstOf, h]
  rfl

theorem moduleParts_eq (seen : List String) (ts : Tokens) : ts.moduleParts seen = (do
    match ← ts.punct? .dot with
    | (false, ts) => .ok (seen, ts)
    | (true, ts) =>
      let (part, ts) ← ts.ident
      ts.moduleParts (seen ++ [part])) := by
  fun_cases moduleParts seen ts with
  | case1 => rfl
  | case2 _ ts hno =>
    change _ = ts.ident >>= fun r => r.2.moduleParts (seen ++ [r.1])
    rw [ident_of_ne hno, unexpected_bind]
  | case3 => rfl
  | case4 ts _ hno hbroken =>
    rw [punct?_of_ne hbroken hno]
    rfl

def moduleName? (ds : Declarations) (ts : Tokens) : Except Fault (Option Declarations × Tokens) := do
  match ← ts.keyword? .moduleName with
  | (none, ts) => .ok (none, ts)
  | (some pos, ts) =>
    if ds.modulePath ≠ [] then .error ⟨pos, .secondModule⟩
    else
      let (parts, ts) ← ts.moduleName
      .ok (some { ds with modulePath := parts }, ts)

def semicolon? (ds : Declarations) (ts : Tokens) : Except Fault (Option Declarations × Tokens) := do
  let (found, ts) ← ts.punct? .semicolon
  if found then .ok (some ds, ts) else .ok (none, ts)

section
variable {α : Type} {ts rest : Tokens}

theorem separated_ne_nil {item : Rule (List α) α} {closing : Punct} {seen items : List α}
    (h : separated item closing seen ts = .ok (items, rest)) : items ≠ [] := by
  fun_induction separated item closing seen ts with
  | case1 | case2 | case4 => cases h
  | case3 =>
    cases h
    exact List.concat_ne_nil _ _
  | case5 _ _ _ _ _ _ _ _ _ ih => exact ih h

theorem eq_of_punct?_false {p : Punct} (h : ts.punct? p = .ok (false, rest)) : rest = ts := by
  unfold punct? at h
  split at h
  · split at h <;> cases h
    rfl
  · cases h
  · cases h
    rfl

/-- Where no group of attributes begins, nothing is taken. -/
theorem eq_of_attributes_nil {seen : List Attribute} (h : ts.attributes seen = .ok ([], rest)) :
    seen = [] ∧ rest = ts := by
  fun_induction attributes seen ts with
  | case1 | case3 => cases h
  | case2 _ _ _ hopen =>
    cases h
    exact ⟨rfl, eq_of_punct?_false hopen⟩
  | case4 _ _ _ _ _ _ hgroup ih => exact absurd (ih h).1 (separated_ne_nil hgroup)

/-- A group of attributes holds at least one. -/
theorem attributes?_ne_nil {seen all : List Attribute}
    (h : ts.attributes? seen = .ok (some all, rest)) : all ≠ [] := by
  obtain ⟨⟨found, inner⟩, -, h⟩ := bind_eq_ok.1 h
  cases found with
  | false => cases h
  | true =>
    obtain ⟨⟨seen', after⟩, hgroup, h⟩ := bind_eq_ok.1 h
    obtain ⟨⟨all', last⟩, hmore, h⟩ := bind_eq_ok.1 h
    cases h
    rintro rfl
    exact separated_ne_nil hgroup (eq_of_attributes_nil hmore).1

theorem eq_of_declaration?_none {ds : Declarations} {attrs : List Attribute}
    (h : ts.declaration? ds attrs = .ok (none, rest)) : rest = ts := by
  unfold declaration? at h
  split at h
  case h_8 => cases h; rfl
  case h_6 | h_7 => cases h
  all_goals
    obtain ⟨_, _, h⟩ := bind_eq_ok.1 h
    cases h

theorem eq_of_attributed?_none {ds : Declarations} (h : ts.attributed? ds = .ok (none, rest)) :
    rest = ts := by
  obtain ⟨⟨attrs, inner⟩, hattrs, h⟩ := bind_eq_ok.1 h
  obtain ⟨⟨found, after⟩, hfound, h⟩ := bind_eq_ok.1 h
  match attrs, found, h with
  | [], none, h =>
    cases h
    rw [eq_of_declaration?_none hfound, (eq_of_attributes_nil hattrs).2]
  | [], some _, h | _ :: _, none, h | _ :: _, some _, h => cases h

end

theorem declaration?_eq (ts : Tokens) : ts.declaration? ds attrs =
    firstOf [function? ds attrs, struct? ds attrs, enum? ds attrs, handle? ds attrs] ts := by
  match ts with
  | done _ | broken _ => rfl
  | next ⟨.keyword k, p⟩ rest =>
    cases k with
    | fn =>
      change (rest.function ds attrs false p >>= _) = (rest.function ds attrs false p >>= _) >>= _
      rw [bind_assoc]
      rfl
    | async =>
      match rest with
      | done _ | broken _ => rfl
      | next ⟨l, q⟩ rest =>
        by_cases hl : l = .keyword .fn
        · subst l
          change (rest.function ds attrs true p >>= _) = (rest.function ds attrs true p >>= _) >>= _
          rw [bind_assoc]
          rfl
        · rw [firstOf_decline (by rw [function?, functionMark?_async hl]; rfl)]
          simp [declaration?, hl]
          rfl
    | struct =>
      change (rest.struct attrs p >>= _) = (rest.struct attrs p >>= _) >>= _
      rw [bind_assoc]
      rfl
    | enum =>
      change (rest.enum attrs p >>= _) = (rest.enum attrs p >>= _) >>= _
      rw [bind_assoc]
      rfl
    | handle =>
      change (rest.handle attrs p >>= _) = (rest.handle attrs p >>= _) >>= _
      rw [bind_assoc]
      rfl
    | _ => rfl
  | next ⟨.ident _, _⟩ _ | next ⟨.number _, _⟩ _ | next ⟨.quoted _, _⟩ _ | next ⟨.scalar _, _⟩ _
  | next ⟨.punct _, _⟩ _ | next ⟨.eof, _⟩ _ => rfl

/-- Only what is not a module name or a lone semicolon has attributes. -/
theorem attributed?_eq_firstOf {ds : Declarations} {ts : Tokens}
    (hmodule : ts.moduleName? ds = .ok (none, ts)) (hsemicolon : ts.semicolon? ds = .ok (none, ts)) :
    ts.attributed? ds = firstOf [moduleName? ds, attributed? ds, semicolon? ds] ts := by
  rw [firstOf_decline hmodule, firstOf]
  match h : ts.attributed? ds with
  | .error _ | .ok (some _, _) => rfl
  | .ok (none, rest) =>
    obtain rfl := eq_of_attributed?_none h
    change _ = firstOf [semicolon? ds] rest
    rw [firstOf_decline hsemicolon]
    rfl

theorem statement?_eq (ds : Declarations) (ts : Tokens) : ts.statement? ds =
    firstOf [moduleName? ds, attributed? ds, semicolon? ds] ts := by
  match ts with
  | done _ => exact attributed?_eq_firstOf rfl rfl
  | broken fault =>
    change (broken fault).attributed? ds = _
    rw [attributed?, attributes_eq]
    rfl
  | next ⟨.keyword k, p⟩ rest =>
    cases k with
    | moduleName =>
      rw [firstOf, moduleName?]
      change (if _ then _ else _) = (if _ then _ else _) >>= _
      split
      · rfl
      · rw [bind_assoc]
        rfl
    | _ => exact attributed?_eq_firstOf rfl rfl
  | next ⟨.punct mark, p⟩ rest =>
    cases mark with
    | semicolon =>
      have hattrs : (next ⟨.punct .semicolon, p⟩ rest).attributed? ds =
          .ok (none, next ⟨.punct .semicolon, p⟩ rest) := by
        rw [attributed?, attributes_eq]
        rfl
      rw [firstOf_decline rfl, firstOf_decline hattrs]
      rfl
    | _ => exact attributed?_eq_firstOf rfl rfl
  | next ⟨.ident _, _⟩ _ | next ⟨.number _, _⟩ _ | next ⟨.quoted _, _⟩ _ | next ⟨.scalar _, _⟩ _
  | next ⟨.eof, _⟩ _ => exact attributed?_eq_firstOf rfl rfl

/-- The end of the text, if it comes next. -/
def endOfText? : Tokens → Except Fault (Option Unit × Tokens)
  | done pos => .ok (some (), done pos)
  | broken fault => .error fault
  | ts => .ok (none, ts)

theorem eq_of_statement?_none {ds : Declarations} {ts rest : Tokens}
    (h : ts.statement? ds = .ok (none, rest)) : rest = ts := by
  unfold statement? at h
  split at h
  · split at h
    · cases h
    · obtain ⟨_, _, h⟩ := bind_eq_ok.1 h
      cases h
  · cases h
  · exact eq_of_attributed?_none h

theorem statements_eq (ds : Declarations) (ts : Tokens) : ts.statements ds = (do
    match ← ts.statement? ds with
    | (some ds, ts) => ts.statements ds
    | (none, ts) =>
      match ← ts.endOfText? with
      | (some (), _) => .ok ds
      | (none, ts) => ts.failAt fun _ => .expectedDeclaration) := by
  by_cases hdone : ∃ pos, ts = done pos
  · obtain ⟨pos, rfl⟩ := hdone
    have hnone : (done pos).statement? ds = .ok (none, done pos) := by
      change (done pos).attributed? ds = _
      rw [attributed?, attributes_eq]
      rfl
    rw [statements, hnone]
    rfl
  · replace hdone : ∀ pos, ts ≠ done pos := fun pos hts => hdone ⟨pos, hts⟩
    rcases h : ts.statement? ds with fault | ⟨_ | found, rest⟩
    · exact statements_error hdone (by rw [oneStatement, h])
    · obtain rfl := eq_of_statement?_none h
      have hone : rest.oneStatement ds = rest.failAt fun _ => .expectedDeclaration := by
        rw [oneStatement, h]
      cases rest with
      | done pos => exact absurd rfl (hdone pos)
      | broken | next => exact statements_error hdone hone
    · exact statements_step (by rw [oneStatement, h])

end
end Bindery.Tokens

namespace Bindery.Reader
variable {s : ReadState} {ts rest : Tokens}

/-! ### Handles -/

theorem reads_symbol (h : s.At 0 ts) : Reads symbol s ts.symbol := by
  refine runs_punct h fun rest s _ h => ?_
  refine (reads_ident h).bind fun name rest s _ h => ?_
  exact runs_punct h fun rest s _ h => runs_pure h rfl

theorem reads_constructor (h : s.At 0 ts) : Reads constructor s ts.constructor := by
  refine (reads_ident h).bind fun name rest s _ h => ?_
  refine runs_punct h fun rest s _ h => ?_
  refine (reads_params h).bind fun params rest s _ h => ?_
  exact (reads_symbol h).bind fun symbol rest s _ h => runs_pure h rfl

theorem reads_selfParam (method : String) (h : s.At 0 ts) :
    Reads (selfParam method) s (ts.selfParam method) := by
  unfold selfParam
  match ts, h with
  | .done _, h => exact runs_peek h rfl fun s h => runs_throwAt
  | .broken _, h => exact runs_peek_fault h rfl
  | .next ⟨.keyword k, _⟩ rest, h =>
    refine runs_peek h rfl fun s h => ?_
    cases k with
    | self => exact Runs.of_ok rfl rfl (runs_flush h fun s h => runs_pure h rfl)
    | mutable =>
      match rest, h with
      | .done _, h => exact runs_peek h rfl fun s h => runs_throwAt
      | .broken _, h => exact runs_peek_fault h rfl
      | .next ⟨.keyword k, _⟩ rest, h =>
        refine runs_peek h rfl fun s h => ?_
        cases k with
        | self => exact runs_flush h fun s h => runs_pure h rfl
        | _ => exact runs_throwAt
      | .next ⟨.ident _, _⟩ _, h | .next ⟨.number _, _⟩ _, h | .next ⟨.quoted _, _⟩ _, h
      | .next ⟨.scalar _, _⟩ _, h | .next ⟨.punct _, _⟩ _, h | .next ⟨.eof, _⟩ _, h =>
        exact runs_peek h rfl fun s h => runs_throwAt
    | _ => exact runs_throwAt
  | .next ⟨.ident _, _⟩ _, h | .next ⟨.number _, _⟩ _, h | .next ⟨.quoted _, _⟩ _, h
  | .next ⟨.scalar _, _⟩ _, h | .next ⟨.punct _, _⟩ _, h | .next ⟨.eof, _⟩ _, h =>
    exact runs_peek h rfl fun s h => runs_throwAt

theorem reads_method (h : s.At 0 ts) : Reads method s ts.method := by
  refine (reads_ident h).bind fun name rest s _ h => ?_
  refine runs_punct h fun rest s _ h => ?_
  refine (reads_selfParam name h).bind fun mutable rest s _ h => ?_
  refine (reads_moreParams h).bind fun params rest s _ h => ?_
  refine (reads_returnType h).bind fun ret rest s _ h => ?_
  exact (reads_symbol h).bind fun symbol rest s _ h => runs_pure h rfl

theorem tries_handleItem (d : Handle) (h : s.At 0 ts) :
    Tries (handleItem d) s (ts.handleItem? d) := by
  unfold handleItem
  match ts, h with
  | .done _, h => exact runs_peek h rfl fun s h => runs_pure h nofun
  | .broken _, h => exact runs_peek_fault h rfl
  | .next ⟨.keyword k, p⟩ rest, h =>
    refine runs_peek h rfl fun s h => ?_
    cases k with
    | ctor =>
      refine runs_flush h fun s h => ?_
      exact (reads_constructor h).bind fun c rest s _ h => runs_pure h fun _ => rfl
    | dtor =>
      refine runs_flush h fun s h => ?_
      rw [Tokens.handleItem?]
      split
      · exact runs_throwAt
      · exact (reads_symbol h).bind fun symbol rest s _ h => runs_pure h fun _ => rfl
    | fn =>
      refine runs_flush h fun s h => ?_
      exact (reads_method h).bind fun m rest s _ h => runs_pure h fun _ => rfl
    | _ => exact runs_pure h nofun
  | .next ⟨.ident _, _⟩ _, h | .next ⟨.number _, _⟩ _, h | .next ⟨.quoted _, _⟩ _, h
  | .next ⟨.scalar _, _⟩ _, h | .next ⟨.punct _, _⟩ _, h | .next ⟨.eof, _⟩ _, h =>
    exact runs_peek h rfl fun s h => runs_pure h nofun

theorem reads_handleItem (d : Handle) (h : s.At 0 ts) :
    Reads (oneHandleItem d) s (ts.handleItem d) := by
  rw [Tokens.handleItem_eq]
  refine (reads_check h (tries_handleItem d h)).bind fun found rest s _ h => ?_
  cases found with
  | some d => exact runs_pure h rfl
  | none => exact reads_unexpected h

theorem tries_handle (ds : Declarations) (attrs : List Attribute) (h : s.At 0 ts) :
    Tries (handle ds attrs) s (ts.handle? ds attrs) := by
  refine (tries_keyword .handle h).bind fun found rest k s _ hk h => ?_
  match found, hk with
  | none, _ => exact runs_pure h nofun
  | some p, hk =>
    obtain rfl := hk rfl
    change Tries _ s (rest.handle attrs p >>= _)
    rw [Tokens.handle, bind_assoc]
    refine (reads_ident h).bind fun name rest s _ h => ?_
    rw [bind_assoc]
    refine runs_lift fun _ => ?_
    rw [bind_assoc]
    refine runs_punct h fun rest s _ h => ?_
    rw [bind_assoc]
    refine (reads_block (fun d ts s h => reads_handleItem d h) _ h).bind fun d rest s _ h => ?_
    by_cases hdtor : d.destructor = none
    · simp only [if_pos hdtor]
      exact runs_throwAt
    · by_cases hctor : d.constructors = []
      · simp only [if_neg hdtor, if_pos hctor]
        exact runs_throwAt
      · simp only [if_neg hdtor, if_neg hctor]
        exact runs_pure h fun _ => rfl

/-! ### Statements -/

theorem reads_moduleParts (seen : List String) {ts : Tokens} {s : ReadState} (h : s.At 0 ts) :
    Reads (moduleParts seen) s (ts.moduleParts seen) := by
  rw [moduleParts, Tokens.moduleParts_eq]
  refine (reads_punct? h).bind fun found rest s hdot h => ?_
  cases found with
  | false => exact runs_pure h rfl
  | true =>
    refine (reads_ident h).bind fun part rest' s hident h => ?_
    exact reads_moduleParts _ h
termination_by ts.length
decreasing_by
  have := Tokens.punct?_length hdot
  have := Tokens.ident_length hident
  omega

theorem tries_moduleName (ds : Declarations) (h : s.At 0 ts) :
    Tries (moduleName ds) s (ts.moduleName? ds) := by
  refine (tries_keyword .moduleName h).bind fun found rest k s _ hk h => ?_
  match found, hk with
  | none, _ => exact runs_pure h nofun
  | some p, hk =>
    obtain rfl := hk rfl
    by_cases hmodule : ds.modulePath ≠ []
    · simp only [if_pos hmodule]
      exact runs_throwAt
    · simp only [if_neg hmodule]
      change Tries _ s (rest.moduleName >>= _)
      rw [Tokens.moduleName, bind_assoc]
      refine (reads_ident h).bind fun part rest s _ h => ?_
      rw [bind_assoc]
      refine (reads_moduleParts [part] h).bind fun parts rest s _ h => ?_
      rw [bind_assoc]
      exact runs_punct h fun rest s _ h => runs_pure h fun _ => rfl

/-- The first rule that does not decline, where each reader runs as the rule in its place. -/
theorem reads_firstOf {α : Type} {readers : List (Reader (Option α))}
    {rules : List (Tokens → Except Fault (Option α × Tokens))}
    (hrules : List.Forall₂ (fun reader rule => ∀ ts s, s.At 0 ts → Tries reader s (rule ts))
      readers rules) {ts : Tokens} {s : ReadState} (h : s.At 0 ts) :
    Reads (firstOf readers) s (Tokens.firstOf rules ts) := by
  induction hrules generalizing ts s with
  | nil => exact runs_pure h rfl
  | cons hrule _ ih =>
    refine (reads_check h (hrule ts s h)).bind fun found rest s _ h => ?_
    cases found with
    | some a => exact runs_pure h rfl
    | none => exact ih h

theorem tries_attributed (ds : Declarations) (h : s.At 0 ts) :
    Tries (attributed ds) s (ts.attributed? ds) := by
  rw [Tokens.attributed?, Tokens.attributes_eq_getD, bind_assoc]
  refine (reads_check h (tries_attributes [] h)).bind fun found rest s hfound h => ?_
  change Tries _ s (rest.declaration? ds (found.getD []) >>= _)
  rw [Tokens.declaration?_eq]
  have hrules := reads_firstOf (.cons (fun ts s h => tries_function ds (found.getD []) h)
    (.cons (fun ts s h => tries_struct ds (found.getD []) h)
    (.cons (fun ts s h => tries_enum ds (found.getD []) h)
    (.cons (fun ts s h => tries_handle ds (found.getD []) h) .nil)))) h
  refine hrules.bind fun declared rest s _ h => ?_
  cases declared with
  | some ds => exact runs_pure h fun _ => rfl
  | none =>
    match found, hfound with
    | none, _ => exact runs_pure h nofun
    | some [], hfound => exact absurd rfl (Tokens.attributes?_ne_nil hfound)
    | some (a :: _), _ => exact runs_throwAt

theorem tries_semicolon (ds : Declarations) (h : s.At 0 ts) :
    Tries (semicolon ds) s (ts.semicolon? ds) := by
  have hone := (tries_one .semicolon h)
  have hsemicolon : ts.semicolon? ds = (ts.punct? .semicolon >>= fun r =>
      if r.1 then .ok (some (), r.2) else .ok (none, r.2)) >>= fun r =>
        .ok (r.1.map fun _ => ds, r.2) := by
    rw [bind_assoc]
    refine congrArg _ (funext fun r => ?_)
    obtain ⟨found, rest⟩ := r
    cases found <;> rfl
  rw [hsemicolon]
  refine hone.bind fun found rest k s _ hk h => ?_
  cases found with
  | some _ =>
    obtain rfl := hk rfl
    exact runs_pure h fun _ => rfl
  | none => exact runs_pure h nofun

theorem reads_statement (ds : Declarations) (h : s.At 0 ts) :
    Reads (statement ds) s (ts.statement? ds) := by
  rw [Tokens.statement?_eq]
  exact reads_firstOf (.cons (fun ts s h => tries_moduleName ds h)
    (.cons (fun ts s h => tries_attributed ds h)
    (.cons (fun ts s h => tries_semicolon ds h) .nil))) h

theorem tries_endOfText (h : s.At 0 ts) : Tries endOfText s ts.endOfText? := by
  unfold endOfText
  match ts, h with
  | .done _, h => exact runs_peek h rfl fun s h => runs_flush h fun s h => runs_pure h fun _ => rfl
  | .broken _, h => exact runs_peek_fault h rfl
  | .next t rest, h =>
    have ht : t.lexeme ≠ .eof := h.endsOnce.1
    refine runs_peek h rfl fun s h => ?_
    simp only [if_neg ht]
    exact runs_pure h nofun

theorem ends_statements (ds : Declarations) {ts : Tokens} {s : ReadState} (h : s.At 0 ts) :
    Ends (statements ds) s (ts.statements ds) := by
  rw [statements, Tokens.statements_eq]
  refine (reads_check h (reads_statement ds h).tries).bind_ends fun found rest s hfound h => ?_
  cases found with
  | some ds => exact ends_statements ds h
  | none =>
    refine (reads_check h (tries_endOfText h)).bind_ends fun found rest s _ h => ?_
    cases found with
    | some _ => exact ⟨s, rfl, rfl⟩
    | none =>
      have hfault : Reads (failHere .expectedDeclaration) s
          (rest.failAt fun _ => .expectedDeclaration : Except Fault (Declarations × Tokens)) :=
        reads_failHere h
      have hends := hfault.ends
      rwa [map_failAt] at hends
termination_by ts.length
decreasing_by exact Tokens.statement?_length hfound

/-! ### Whole texts -/

/-- The declarations that a text spells are found, or its fault. -/
theorem parse_eq (text : String) (p : Position) :
    parse text p = some (((Tokens.ofText text p).statements {}).mapError .fault) :=
  (ends_statements {} (at_ofText text p)).outcome

/-- A scan from a place before a null byte has a fault, or it takes a token and stays before the
null byte. Only the end of the text takes no byte. -/
theorem token_ends (p : Position) (front more : List Char) :
    (∃ fault, Scan.token.run ⟨p, front ++ '\x00' :: more⟩ = throw (.fault fault)) ∨
    ∃ t piece c, Scan.token.run ⟨p, front ++ '\x00' :: more⟩ = pure (t, c) ∧
      Cursor.Passes ⟨p, front ++ '\x00' :: more⟩ piece c ∧ '\x00' ∉ piece ∧
      (t.lexeme = .eof ∨ piece ≠ []) := by
  obtain ⟨tail, htail⟩ := exists_terminated front more
  have hnull := not_mem_terminated front
  rw [htail]
  rcases @Scan.token_run tail _ p hnull with
    ⟨fault, -, hrun⟩ | ⟨t, piece, rest, hsplit, hpiece, -, -, hrun⟩
  · exact .inl ⟨fault, hrun⟩
  · rw [← hsplit] at hnull hrun ⊢
    refine .inr ⟨t, piece, _, hrun, ⟨List.append_assoc _ _ _, rfl⟩, ?_, hpiece⟩
    exact fun hmem => hnull (List.mem_append_left _ hmem)

/-- Every text is read to its end, from every position and in every scope: what it spells is found,
or a fault of the text. No step leaves the text or the buffer, as a reader that takes such a step
has neither outcome. Each token that is taken is one of the text before the next null byte. -/
theorem reading_ends (text : String) :
    (∀ (file : String) (p : Position), ∃ r : Except Fault Declarations,
      parse text p = some (r.mapError .fault) ∧
      Declarations.parse text file p = r.mapError (SyntaxError.mk file)) ∧
    (∀ scope : List String, parseType scope text = some ((Ty.parse text scope).mapError .fault)) ∧
    ∀ (p : Position) (front more : List Char),
      (∃ fault, Scan.token.run ⟨p, front ++ '\x00' :: more⟩ = throw (.fault fault)) ∨
      ∃ t piece c, Scan.token.run ⟨p, front ++ '\x00' :: more⟩ = pure (t, c) ∧
        Cursor.Passes ⟨p, front ++ '\x00' :: more⟩ piece c ∧ '\x00' ∉ piece ∧
        (t.lexeme = .eof ∨ piece ≠ []) := by
  refine ⟨fun file p => ⟨_, parse_eq text p, ?_⟩, fun scope => parseType_eq scope text, token_ends⟩
  unfold Declarations.parse
  cases (Tokens.ofText text p).statements {} <;> rfl

-- Single steps do leave the text or the buffer where no rule has taken care of it.
example : Scan.next.run ⟨.start, ['\x00']⟩ = throw (.misuse .movedOnNull) := rfl

example : flush.run { cursor := .ofText "" .start, looked := 1 } = throw (.misuse .beyondBuffer) :=
  rfl

end Bindery.Reader
