import Bindery.Proofs.Reader.Decl

/-!
# Looking ahead

A rule looks at tokens before it takes them, and puts back or forgets what it has looked at in vain.
No token may get lost or be read again by this. So a rule that declines must not have taken any,
and a token may be taken only where none is looked at.

What a reader has left is a stream of tokens, whether these are in its buffer or not. The steps
that only look leave the stream as it is. Of a rule it is then enough to see that it does not
decline any more once it has taken a token.
-/
namespace Bindery

/-- The token that a scan from a cursor comes to after `n` others. -/
def Scan.upcoming : Nat → Cursor → ExceptT Stop Option Token
  | 0, c => do
    let (t, _) ← token.run c
    return t
  | n + 1, c => do
    let (_, later) ← token.run c
    upcoming n later

namespace ReadState
variable {s s' : ReadState} {t : Token}

/-- The tokens that a reader has not taken, by their number: those in its buffer, and behind them
those that its text goes on with. -/
def unread (s : ReadState) (n : Nat) : ExceptT Stop Option Token :=
  match s.buffer[n]? with
  | some t => return t
  | none => Scan.upcoming (n - s.buffer.length) s.cursor

/-- A reader that differs from another one only by how much of its text is in its buffer. -/
structure Extends (s' s : ReadState) : Prop where
  unread : s'.unread = s.unread
  looked : s'.looked = s.looked
  isStrict : s'.isStrict = s.isStrict

theorem unread_scan {c : Cursor} (h : Scan.token.run s.cursor = pure (t, c)) :
    unread { s with cursor := c, buffer := s.buffer ++ [t] } = s.unread := by
  funext n
  unfold unread
  rcases Nat.lt_trichotomy n s.buffer.length with hn | rfl | hn
  · simp [List.getElem?_append_left hn, List.getElem?_eq_getElem hn]
  · simp [Scan.upcoming, h]
  · obtain ⟨k, rfl⟩ := Nat.exists_eq_add_of_lt hn
    have hk : s.buffer.length + k + 1 - s.buffer.length = k + 1 := by omega
    have hk' : s.buffer.length + (k + 1) - (s.buffer.length + 1) = k := by omega
    simp [Nat.add_assoc, Scan.upcoming, h, hk']

theorem unread_cons {buffer : List Token} {looked n : Nat} (h : s.buffer = t :: buffer) :
    unread { s with buffer, looked } n = s.unread (n + 1) := by
  unfold unread
  simp [h]

end ReadState

namespace Reader
variable {α β : Type} {s s' : ReadState} {t : Token}

/-! ### Outcomes -/

theorem exists_of_bind {m : Reader α} {f : α → Reader β} {b : β}
    (h : (m >>= f).run s = pure (b, s')) :
    ∃ a s₁, m.run s = pure (a, s₁) ∧ (f a).run s₁ = pure (b, s') := by
  rw [StateT.run_bind] at h
  match hm : m.run s, h with
  | some (.ok (a, s₁)), h => exact ⟨a, s₁, rfl, h⟩

/-- What holds of a reader and its outcome wherever it has one. -/
def Ensures (m : Reader α) (P : ReadState → α → ReadState → Prop) : Prop :=
  ∀ s a s', m.run s = pure (a, s') → P s a s'

theorem scan_ensures : Ensures scan fun s t s' =>
    ∃ c, Scan.token.run s.cursor = pure (t, c) ∧ s' = { s with cursor := c } := by
  intro s t s' h
  have hscan : scan.run s =
      Scan.token.run s.cursor >>= fun r => pure (r.1, { s with cursor := r.2 }) := by
    unfold scan
    simp
  rw [hscan] at h
  match hrun : Scan.token.run s.cursor, h with
  | some (.ok (u, c)), h =>
    cases h
    exact ⟨c, rfl, rfl⟩

theorem fill_extends {s s' : ReadState} {u : Unit} (h : fill.run s = pure (u, s')) : s'.Extends s := by
  rw [fill] at h
  obtain ⟨_, _, hget, h⟩ := exists_of_bind h
  cases hget
  split at h
  · obtain ⟨t, s₁, hscan, h⟩ := exists_of_bind h
    obtain ⟨c, hrun, rfl⟩ := scan_ensures _ _ _ hscan
    obtain ⟨_, s₂, hmodify, h⟩ := exists_of_bind h
    cases hmodify
    have hfill := fill_extends h
    exact ⟨hfill.unread.trans (ReadState.unread_scan hrun), hfill.looked, hfill.isStrict⟩
  · cases h
    exact ⟨rfl, rfl, rfl⟩
termination_by s.looked + 1 - s.buffer.length
decreasing_by
  simp only [List.length_append, List.length_singleton]
  omega

theorem peek_ensures : Ensures peek fun s t s' => s'.unread = s.unread ∧
    s'.buffer[s.looked]? = some t ∧ s'.looked = s.looked + 1 ∧ s'.isStrict = s.isStrict := by
  intro s t s' h
  obtain ⟨_, s₁, hfill, h⟩ := exists_of_bind h
  have hs₁ := fill_extends hfill
  obtain ⟨_, _, hget, h⟩ := exists_of_bind h
  cases hget
  split at h
  · cases h
  · rename_i u hu
    cases h
    exact ⟨hs₁.unread, hs₁.looked ▸ hu, congrArg Nat.succ hs₁.looked, hs₁.isStrict⟩

theorem pop_ensures : Ensures pop fun s t s' =>
    s.unread 0 = pure t ∧ ∀ n, s'.unread n = s.unread (n + 1) := by
  intro s t s' h
  obtain ⟨_, _, hget, h⟩ := exists_of_bind h
  cases hget
  split at h
  · cases h
  · split at h
    · rename_i hbuffer
      obtain ⟨c, hrun, rfl⟩ := scan_ensures _ _ _ h
      unfold ReadState.unread
      simp [hbuffer, Scan.upcoming, hrun]
    · rename_i u buffer hbuffer
      cases h
      refine ⟨?_, fun n => ReadState.unread_cons hbuffer⟩
      unfold ReadState.unread
      simp [hbuffer]

/-! ### Readers that take nothing -/

/-- A reader that takes no token. -/
def Looks (m : Reader α) : Prop := Ensures m fun s _ s' => s'.unread = s.unread

/-- A rule that has taken no token if it declines. -/
def Spares (m : Reader (Option α)) : Prop :=
  Ensures m fun s a s' => a = none → s'.unread = s.unread

/-- A rule that does not decline. -/
def Finds (m : Reader (Option α)) : Prop := Ensures m fun _ a _ => a ≠ none

theorem looks_peek : Looks peek := fun s t s' h => (peek_ensures s t s' h).1

theorem Looks.bind_spares {m : Reader α} {f : α → Reader (Option β)} (hm : Looks m)
    (hf : ∀ a, Spares (f a)) : Spares (m >>= f) := by
  intro s b s' h hb
  obtain ⟨a, s₁, hrun, h⟩ := exists_of_bind h
  exact (hf a s₁ b s' h hb).trans (hm s a s₁ hrun)

theorem finds_some (a : α) : Finds (pure (some a)) := by
  rintro s _ _ ⟨⟩
  exact Option.some_ne_none a

theorem finds_throw {stop : Stop} : Finds (throw stop : Reader (Option α)) := nofun

theorem Finds.bind {m : Reader α} {f : α → Reader (Option β)} (hf : ∀ a, Finds (f a)) :
    Finds (m >>= f) := by
  intro s b s' h
  obtain ⟨a, s₁, -, h⟩ := exists_of_bind h
  exact hf a s₁ b s' h

theorem Finds.spares {m : Reader (Option α)} (hm : Finds m) : Spares m :=
  fun s a s' h hnone => absurd hnone (hm s a s' h)

theorem spares_none : Spares (pure none : Reader (Option α)) := by
  rintro s _ _ ⟨⟩ -
  rfl

/-- A rule that goes on, where another one has not declined, with one that does not decline. -/
theorem Spares.bind {m : Reader (Option α)} {f : Option α → Reader (Option β)} (hm : Spares m)
    (hnone : Spares (f none)) (hsome : ∀ a, Finds (f (some a))) : Spares (m >>= f) := by
  intro s b s' h hb
  obtain ⟨a, s₁, hrun, h⟩ := exists_of_bind h
  cases a with
  | none => exact (hnone s₁ b s' h hb).trans (hm s none s₁ hrun rfl)
  | some a => exact absurd hb (hsome a s₁ b s' h)

/-- A rule that declines after its first look, unless a certain token comes first. -/
theorem spares_ite {l : Lexeme} {m : Token → Reader (Option α)} (hm : ∀ t, Finds (m t)) :
    Spares (peek >>= fun t => if t.lexeme = l then m t else pure none) := by
  apply looks_peek.bind_spares
  intro t
  split
  · exact (hm t).spares
  · exact spares_none

/-- A rule that has declined has looked at no more tokens than before. -/
theorem check_ensures {m : Reader (Option α)} (hm : Spares m) : Ensures (check m) fun s a s' =>
    a = none → s'.unread = s.unread ∧ s'.looked = s.looked := by
  intro s a s' h ha
  obtain ⟨saved, _, hlooked, h⟩ := exists_of_bind h
  cases hlooked
  obtain ⟨found, s₁, hrun, h⟩ := exists_of_bind h
  cases found with
  | some b => cases h; cases ha
  | none =>
    cases h
    exact ⟨hm s none s₁ hrun rfl, rfl⟩

theorem Spares.check {m : Reader (Option α)} (hm : Spares m) : Spares (check m) :=
  fun s a s' h ha => (check_ensures hm s a s' h ha).1

theorem spares_firstOf {rules : List (Reader (Option α))} (hrules : ∀ rule ∈ rules, Spares rule) :
    Spares (firstOf rules) := by
  induction rules with
  | nil => exact spares_none
  | cons rule rules ih =>
    have hrule : Spares rule := hrules rule List.mem_cons_self
    have hrest : Spares (firstOf rules) := ih fun r hr => hrules r (List.mem_cons_of_mem rule hr)
    exact hrule.check.bind hrest finds_some

/-! ### Types -/

theorem spares_one (p : Punct) : Spares (one p) :=
  spares_ite fun _ => Finds.bind fun _ => finds_some ()

theorem spares_suffix (t : Ty) : Spares (suffix t) := by
  apply spares_ite
  intro _
  apply Finds.bind
  intro _
  apply Finds.bind
  rintro ⟨digits, p⟩
  dsimp only
  split
  · exact finds_throw
  · exact Finds.bind fun _ => finds_some _

theorem spares_base (scope : List String) : Spares (base scope) := by
  rw [base]
  apply looks_peek.bind_spares
  intro t
  split
  · exact (Finds.bind fun _ => finds_some _).spares
  · exact (Finds.bind fun _ => finds_some _).spares
  · exact (Finds.bind fun _ => finds_some _).spares
  · split
    · exact (Finds.bind fun _ => Finds.bind fun _ => finds_some _).spares
    · exact spares_none
  · exact (Finds.bind fun _ => Finds.bind fun _ => finds_some _).spares
  · exact spares_none

theorem spares_type (scope : List String) : Spares (type scope) := by
  rw [type]
  exact (spares_base scope).bind spares_none fun _ => Finds.bind fun _ => finds_some _

/-! ### Declarations -/

theorem spares_param (scope : List String) : Spares (param scope) := by
  apply looks_peek.bind_spares
  intro t
  split
  · apply spares_ite
    intro _
    apply Finds.bind
    intro _
    apply Finds.bind
    rintro (_ | type)
    · exact Finds.bind fun _ => finds_throw
    · exact finds_some _
  · exact spares_none

theorem spares_keyedArg : Spares keyedArg := by
  apply looks_peek.bind_spares
  intro t
  split
  · apply spares_ite
    intro _
    refine Finds.bind fun _ => Finds.bind fun value => ?_
    split
    · exact Finds.bind fun _ => finds_some _
    · apply Finds.bind
      intro _
      apply Finds.bind
      rintro (_ | type)
      · exact finds_throw
      · exact finds_some _
  · exact spares_none

theorem spares_attributes (seen : List Attribute) : Spares (attributes seen) := by
  rw [attributes]
  apply spares_ite
  intro _
  refine Finds.bind fun _ => Finds.bind fun attrs => ?_
  refine Finds.bind fun saved => Finds.bind fun found => ?_
  apply Finds.bind
  rintro (_ | all)
  · exact finds_some attrs
  · exact finds_some all

section
variable (ds : Declarations) (attrs : List Attribute)

theorem spares_functionMark : Spares functionMark := by
  apply looks_peek.bind_spares
  intro t
  split
  · exact spares_ite fun _ => Finds.bind fun _ => finds_some _
  · split
    · exact (Finds.bind fun _ => finds_some _).spares
    · exact spares_none

theorem spares_function : Spares (function ds attrs) := by
  refine spares_functionMark.bind spares_none fun mark => ?_
  refine Finds.bind fun f => Finds.bind fun f => ?_
  split
  · exact finds_throw
  · exact finds_some _

theorem spares_keyword (k : Keyword) : Spares (keyword k) :=
  spares_ite fun _ => Finds.bind fun _ => finds_some _

theorem spares_struct : Spares (struct ds attrs) := by
  refine (spares_keyword .struct).bind spares_none fun pos => ?_
  refine Finds.bind fun name => Finds.bind fun r => Finds.bind fun isForward => ?_
  split
  · exact finds_some _
  · split
    · exact finds_throw
    · refine Finds.bind fun _ => Finds.bind fun r => ?_
      split
      · exact finds_throw
      · exact finds_some _

theorem spares_intKind : Spares intKind := by
  apply spares_ite
  intro _
  apply Finds.bind
  intro kind
  split
  · exact Finds.bind fun _ => finds_some _
  · exact finds_throw

theorem spares_enum : Spares (enum ds attrs) := by
  refine (spares_keyword .enum).bind spares_none fun pos => ?_
  refine Finds.bind fun name => Finds.bind fun _ => Finds.bind fun kind => ?_
  refine Finds.bind fun _ => Finds.bind fun items => Finds.bind fun _ => ?_
  split
  · exact finds_throw
  · exact finds_some _

theorem spares_handleItem (d : Handle) : Spares (handleItem d) := by
  apply looks_peek.bind_spares
  intro t
  split
  · exact (Finds.bind fun _ => Finds.bind fun _ => finds_some _).spares
  · refine (Finds.bind fun _ => ?_).spares
    split
    · exact finds_throw
    · exact Finds.bind fun _ => finds_some _
  · exact (Finds.bind fun _ => Finds.bind fun _ => finds_some _).spares
  · exact spares_none

theorem spares_handle : Spares (handle ds attrs) := by
  refine (spares_keyword .handle).bind spares_none fun pos => ?_
  refine Finds.bind fun name => Finds.bind fun _ => Finds.bind fun _ => Finds.bind fun d => ?_
  split
  · exact finds_throw
  · split
    · exact finds_throw
    · exact finds_some _

theorem spares_declaration : Spares (firstOf
    [function ds attrs, struct ds attrs, enum ds attrs, handle ds attrs]) := by
  apply spares_firstOf
  simp only [List.forall_mem_cons]
  exact ⟨spares_function ds attrs, spares_struct ds attrs, spares_enum ds attrs,
    spares_handle ds attrs, nofun⟩

theorem spares_moduleName : Spares (moduleName ds) := by
  refine (spares_keyword .moduleName).bind spares_none fun pos => ?_
  dsimp only
  split
  · exact finds_throw
  · exact Finds.bind fun first => Finds.bind fun parts => Finds.bind fun _ => finds_some _

theorem spares_semicolon : Spares (semicolon ds) :=
  (spares_one .semicolon).bind spares_none fun _ => finds_some ds

theorem spares_endOfText : Spares endOfText :=
  spares_ite fun _ => Finds.bind fun _ => finds_some ()

/-- Where no declaration follows attributes the rule fails, as it could not give them back. -/
theorem spares_attributed : Spares (attributed ds) := by
  intro s declared s' h hnone
  obtain ⟨found, s₁, hfound, h⟩ := exists_of_bind h
  obtain ⟨declared', s₂, hdeclared, h⟩ := exists_of_bind h
  cases declared' with
  | some ds' => cases h; cases hnone
  | none =>
    match found, hfound, h with
    | none, hfound, h =>
      cases h
      have hfirst : s₁.unread = s.unread := (spares_attributes []).check s none s₁ hfound rfl
      exact (spares_declaration ds [] s₁ none s' hdeclared rfl).trans hfirst
    | some [], _, h | some (_ :: _), _, h => cases h

theorem spares_statement : Spares (statement ds) := by
  apply spares_firstOf
  simp only [List.forall_mem_cons]
  exact ⟨spares_moduleName ds, spares_attributed ds, spares_semicolon ds, nofun⟩

end

/-! ### All rules -/

/-- The rules that may decline where the reader tries them. -/
inductive Checked : {α : Type} → Reader (Option α) → Prop
  | one (p : Punct) : Checked (one p)
  | type (scope : List String) : Checked (type scope)
  | suffix (t : Ty) : Checked (suffix t)
  | param (scope : List String) : Checked (param scope)
  | keyedArg : Checked keyedArg
  | attributes (seen : List Attribute) : Checked (attributes seen)
  | function (ds : Declarations) (attrs : List Attribute) : Checked (function ds attrs)
  | struct (ds : Declarations) (attrs : List Attribute) : Checked (struct ds attrs)
  | intKind : Checked intKind
  | enum (ds : Declarations) (attrs : List Attribute) : Checked (enum ds attrs)
  | handleItem (d : Handle) : Checked (handleItem d)
  | handle (ds : Declarations) (attrs : List Attribute) : Checked (handle ds attrs)
  | moduleName (ds : Declarations) : Checked (moduleName ds)
  | attributed (ds : Declarations) : Checked (attributed ds)
  | semicolon (ds : Declarations) : Checked (semicolon ds)
  | statement (ds : Declarations) : Checked (statement ds)
  | endOfText : Checked endOfText

theorem Checked.spares {rule : Reader (Option α)} (h : Checked rule) : Spares rule := by
  cases h with
  | one p => exact spares_one p
  | type scope => exact spares_type scope
  | suffix t => exact spares_suffix t
  | param scope => exact spares_param scope
  | keyedArg => exact spares_keyedArg
  | attributes seen => exact spares_attributes seen
  | function ds attrs => exact spares_function ds attrs
  | struct ds attrs => exact spares_struct ds attrs
  | intKind => exact spares_intKind
  | enum ds attrs => exact spares_enum ds attrs
  | handleItem d => exact spares_handleItem d
  | handle ds attrs => exact spares_handle ds attrs
  | moduleName ds => exact spares_moduleName ds
  | attributed ds => exact spares_attributed ds
  | semicolon ds => exact spares_semicolon ds
  | statement ds => exact spares_statement ds
  | endOfText => exact spares_endOfText

theorem Checked.exists_tries {rule : Reader (Option α)} (h : Checked rule) {ts : Tokens}
    (hs : s.At 0 ts) : ∃ x, Tries rule s x := by
  cases h with
  | one p => exact ⟨_, tries_one p hs⟩
  | type scope => exact ⟨_, tries_type hs⟩
  | suffix t => exact ⟨_, tries_suffix t hs⟩
  | param scope => exact ⟨_, tries_param hs⟩
  | keyedArg => exact ⟨_, tries_keyedArg hs⟩
  | attributes seen => exact ⟨_, tries_attributes seen hs⟩
  | function ds attrs => exact ⟨_, tries_function ds attrs hs⟩
  | struct ds attrs => exact ⟨_, tries_struct ds attrs hs⟩
  | intKind => exact ⟨_, tries_intKind hs⟩
  | enum ds attrs => exact ⟨_, tries_enum ds attrs hs⟩
  | handleItem d => exact ⟨_, tries_handleItem d hs⟩
  | handle ds attrs => exact ⟨_, tries_handle ds attrs hs⟩
  | moduleName ds => exact ⟨_, tries_moduleName ds hs⟩
  | attributed ds => exact ⟨_, tries_attributed ds hs⟩
  | semicolon ds => exact ⟨_, tries_semicolon ds hs⟩
  | statement ds => exact ⟨_, (reads_statement ds hs).tries⟩
  | endOfText => exact ⟨_, tries_endOfText hs⟩

/-- A strict reader at the start of a text. -/
theorem strict_at_ofText (text : String) (p : Position) :
    ReadState.At { cursor := .ofText text p, isStrict := true } 0 (Tokens.ofText text p) :=
  ⟨(at_ofText text p).endsOnce, (at_ofText text p).areAt, rfl, Nat.le_refl _⟩

/-! ### A name that is put back -/

section
variable {scope : List String} {name : String} {p : Position} {s₁ : ReadState}

theorem run_bind_of_throw {m : Reader α} {f : α → Reader β} {stop : Stop}
    (hrun : m.run s = throw stop) : (m >>= f).run s = throw stop := by
  rw [StateT.run_bind, hrun]
  rfl

theorem pop_strict (hstrict : s.isStrict) (hlooked : s.looked ≠ 0) :
    pop.run s = throw (.misuse .takenWhileLooking) := by
  simp [pop, hstrict, hlooked]

theorem ident_first (hfirst : s.buffer[0]? = some ⟨.ident name, p⟩) (hlooked : s.looked = 0) :
    ∃ s', ident.run s = pure (name, s') ∧ ∀ n, s'.unread n = s.unread (n + 1) := by
  obtain ⟨t, buffer, hbuffer⟩ : ∃ t buffer, s.buffer = t :: buffer :=
    List.exists_cons_of_ne_nil fun hnil => by simp [hnil] at hfirst
  obtain rfl : t = ⟨.ident name, p⟩ := by simpa [hbuffer] using hfirst
  have hpop : pop.run s = pure (⟨.ident name, p⟩, { s with buffer, looked := s.looked - 1 }) := by
    simp [pop, hbuffer, hlooked]
  refine ⟨_, ?_, (pop_ensures s _ _ hpop).2⟩
  rw [ident, take, bind_assoc, run_bind_of_ok hpop]
  rfl

/-- A type that begins with a name is read from there on, with the name put back. -/
theorem type_ident (hpeek : peek.run s = pure (⟨.ident name, p⟩, s₁)) :
    (type scope).run s = (do
      let path ← path
      return some (← suffixes (Tokens.named scope path))).run { s₁ with looked := s.looked } := by
  have hs₁ := peek_ensures s _ s₁ hpeek
  have hback : putBack.run s₁ = pure ((), { s₁ with looked := s.looked }) := by
    simp [putBack, hs₁.2.2.1]
  rw [type, base, bind_assoc, run_bind_of_ok hpeek]
  dsimp only
  rw [bind_assoc, run_bind_of_ok hback, bind_assoc]
  rfl

theorem type_ident_strict (hpeek : peek.run s = pure (⟨.ident name, p⟩, s₁)) (hstrict : s.isStrict)
    (hlooked : s.looked ≠ 0) : (type scope).run s = throw (.misuse .takenWhileLooking) := by
  have hs₁ : s₁.isStrict = s.isStrict := (peek_ensures s _ s₁ hpeek).2.2.2
  rw [type_ident hpeek, path, ident, take]
  simp only [bind_assoc]
  exact run_bind_of_throw (pop_strict (hs₁.trans hstrict) hlooked)

theorem type_ident_back (hpeek : peek.run s = pure (⟨.ident name, p⟩, s₁))
    (hlooked : s.looked = 0) : ∃ s₂ s₃, (type scope).run s = (do
        let path ← path
        return some (← suffixes (Tokens.named scope path))).run s₂ ∧
      s₂.looked = 0 ∧ ident.run s₂ = pure (name, s₃) ∧ ∀ n, s₃.unread n = s.unread (n + 1) := by
  obtain ⟨hunread, hfirst, -, -⟩ := peek_ensures s _ s₁ hpeek
  rw [hlooked] at hfirst
  obtain ⟨s₃, hident, hrest⟩ := @ident_first { s₁ with looked := s.looked } name p hfirst hlooked
  refine ⟨_, s₃, type_ident hpeek, hlooked, hident, fun n => ?_⟩
  rw [hrest, ← hunread]
  rfl

end

/-- A reader looks ahead without harm. A rule that declines leaves the tokens that are not taken as
they were, and where the reader tried it also the number of those that it looks at. Every rule that
begins where no token is looked at ends, strict or not, and stops for a fault of the text only. A
token is taken only where none is looked at: a strict reader, which stops where this is not so,
stays strict and comes on every text to the outcome of the reader itself. What is taken is the
earliest of the tokens that are left, and the name that a type puts back is the one that its path
begins with. -/
theorem lookahead_disciplined :
    (∀ {α : Type} {rule : Reader (Option α)}, Checked rule →
      (∀ s s', rule.run s = pure (none, s') → s'.unread = s.unread) ∧
      (∀ s s', (check rule).run s = pure (none, s') →
        s'.unread = s.unread ∧ s'.looked = s.looked) ∧
      ∀ (s : ReadState) (ts : Tokens), s.At 0 ts → ∃ r, Ends rule s r) ∧
    (∀ (text : String) (p : Position), ∃ r : Except Fault Declarations,
      parse text p = some (r.mapError .fault) ∧
      Ends (statements {}) { cursor := .ofText text p, isStrict := true } r) ∧
    (∀ (scope : List String) (text : String), ∃ r : Except Fault Ty,
      parseType scope text = some (r.mapError .fault) ∧
      Ends (wholeType scope) { cursor := .ofText text .start, isStrict := true } r) ∧
    (∀ s : ReadState, s.isStrict → s.looked ≠ 0 →
      pop.run s = throw (.misuse .takenWhileLooking)) ∧
    (∀ s t s', pop.run s = pure (t, s') →
      s.unread 0 = pure t ∧ ∀ n, s'.unread n = s.unread (n + 1)) ∧
    ∀ scope s name p s₁, peek.run s = pure (⟨.ident name, p⟩, s₁) →
      (s.isStrict → s.looked ≠ 0 →
        (type scope).run s = throw (.misuse .takenWhileLooking)) ∧
      (s.looked = 0 → ∃ s₂ s₃, (type scope).run s = (do
          let path ← path
          return some (← suffixes (Tokens.named scope path))).run s₂ ∧
        s₂.looked = 0 ∧ ident.run s₂ = pure (name, s₃) ∧
        ∀ n, s₃.unread n = s.unread (n + 1)) := by
  refine ⟨fun {α rule} hrule => ⟨?_, ?_, ?_⟩, fun text p => ?_, fun scope text => ?_, ?_, ?_, ?_⟩
  · intro s s' h
    exact hrule.spares s none s' h rfl
  · intro s s' h
    exact check_ensures hrule.spares s none s' h rfl
  · intro s ts hs
    obtain ⟨x, hx⟩ := hrule.exists_tries hs
    exact ⟨_, hx.ends⟩
  · exact ⟨_, parse_eq text p, ends_statements {} (strict_at_ofText text p)⟩
  · exact ⟨_, parseType_eq scope text, ends_wholeType scope (strict_at_ofText text .start)⟩
  · intro s hstrict hlooked
    exact pop_strict hstrict hlooked
  · intro s t s' h
    exact pop_ensures s t s' h
  · intro scope s name p s₁ hpeek
    exact ⟨type_ident_strict hpeek, type_ident_back hpeek⟩

/-- A strict reader before a name. A rule for a mark declines and leaves the name, which cannot be
taken while it is looked at; and a type puts it back for its path. -/
theorem lookahead_disciplined_name : ∃ s s₁ s₂ s₃ : ReadState, s.isStrict ∧ s.looked = 0 ∧
    (one .semicolon).run s = pure (none, s₁) ∧ s₁.unread = s.unread ∧
    pop.run s₁ = throw (.misuse .takenWhileLooking) ∧
    pop.run s = pure (⟨.ident "T", .start⟩, s₃) ∧ s.unread 0 = pure ⟨.ident "T", .start⟩ ∧
    peek.run s = pure (⟨.ident "T", .start⟩, s₁) ∧ s₂.looked = 0 ∧
    ∃ s₄, ident.run s₂ = pure ("T", s₄) ∧ s₄.unread 0 = s.unread 1 := by
  let s : ReadState :=
    { cursor := .ofText "" .start, buffer := [⟨.ident "T", .start⟩], isStrict := true }
  have hpeek : peek.run s = pure (⟨.ident "T", .start⟩, { s with looked := 1 }) := by
    rw [peek, fill]
    rfl
  have hone : (one .semicolon).run s = pure (none, { s with looked := 1 }) := by
    rw [one, run_bind_of_ok hpeek]
    rfl
  have hpop : pop.run s = pure (⟨.ident "T", .start⟩, { s with buffer := [] }) := rfl
  obtain ⟨hrules, -, -, hstrict, htaken, hback⟩ := lookahead_disciplined
  obtain ⟨s₂, s₄, -, hlooked, hident, hrest⟩ := (hback [] s "T" .start _ hpeek).2 rfl
  exact ⟨s, _, s₂, _, rfl, rfl, hone, (hrules (.one .semicolon)).1 s _ hone,
    hstrict _ rfl Nat.one_ne_zero, hpop, (htaken s _ _ hpop).1, hpeek, hlooked, s₄, hident, hrest 0⟩

end Reader
end Bindery
