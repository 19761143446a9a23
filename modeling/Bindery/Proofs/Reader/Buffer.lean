import Bindery.Proofs.Reader.Token
import Bindery.Proofs.Syntax.Placement
import Bindery.Reader.Buffer

/-!
# A buffered reader reads a stream of tokens

The tokens in the buffer are the first ones of the text that are not taken yet, and a reader has
looked at some of these and at no others. Each step of a reader keeps this and does to the stream
what it does to the buffer; so a rule that takes or declines its tokens runs as the rule on streams
does, and comes to an end with it.
-/
namespace Bindery

/-- The tokens from a place in a text on. -/
def Cursor.Yields (c : Cursor) (ts : Tokens) : Prop :=
  ∃ more p cs, '\x00' ∉ cs ∧ c = .before more p cs ∧ ts = Lexer.scan p cs

/-- A text goes up to its first null byte, whatever stands behind that. -/
theorem exists_terminated (cs tail : List Char) :
    ∃ more, cs ++ '\x00' :: tail = Text.terminated cs ++ '\x00' :: more := by
  induction cs with
  | nil => exact ⟨tail, rfl⟩
  | cons c cs ih =>
    by_cases hc : c = '\x00'
    · exact ⟨cs ++ '\x00' :: tail, by simp [Text.terminated, hc]⟩
    · obtain ⟨more, hmore⟩ := ih
      exact ⟨more, by simp [Text.terminated, hc] at hmore ⊢; exact hmore⟩

theorem not_mem_terminated (cs : List Char) : '\x00' ∉ Text.terminated cs := fun h => by
  simpa using List.mem_takeWhile_imp h

theorem Cursor.yields_ofText (text : String) (p : Position) :
    (ofText text p).Yields (Tokens.ofText text p) := by
  obtain ⟨more, hmore⟩ := exists_terminated text.toList []
  refine ⟨more, p, _, not_mem_terminated _, ?_, rfl⟩
  rw [ofText, hmore]
  rfl

namespace Tokens

/-- The tokens behind the first ones. At its end a stream stays as it is. -/
def skip : Nat → Tokens → Tokens
  | 0, ts => ts
  | k + 1, ts => ts.tail.skip k

/-- A stream in which no token but the last says that the text ends. -/
def EndsOnce : Tokens → Prop
  | next t ts => t.lexeme ≠ .eof ∧ ts.EndsOnce
  | _ => True

theorem EndsOnce.tail {ts : Tokens} (h : ts.EndsOnce) : ts.tail.EndsOnce := by
  cases ts with
  | next t ts => exact h.2
  | _ => exact h

theorem EndsOnce.skip {ts : Tokens} (h : ts.EndsOnce) (k : Nat) : (ts.skip k).EndsOnce := by
  induction k generalizing ts with
  | zero => exact h
  | succ k ih => exact ih h.tail

theorem eq_broken {ts : Tokens} {fault : Fault} (hhead : ts.head = .error fault) :
    ts = broken fault := by
  match ts, hhead with
  | broken _, rfl => rfl

theorem exists_next {ts : Tokens} {t : Token} (hhead : ts.head = .ok t) (ht : t.lexeme ≠ .eof) :
    ∃ rest, ts = next t rest := by
  match ts, hhead with
  | next _ rest, rfl => exact ⟨rest, rfl⟩
  | done _, rfl => exact absurd rfl ht

/-- The first tokens of a stream, with a cursor at the place behind them. -/
def AreAt (c : Cursor) : List Token → Tokens → Prop
  | [], ts => c.Yields ts
  | t :: buffer, ts => ts.head = .ok t ∧ AreAt c buffer ts.tail

namespace AreAt
variable {c c' : Cursor} {buffer : List Token} {ts : Tokens} {t : Token} {k : Nat}

theorem yields (h : AreAt c buffer ts) : c.Yields (ts.skip buffer.length) := by
  induction buffer generalizing ts with
  | nil => exact h
  | cons u buffer ih => exact ih h.2

theorem concat (h : AreAt c buffer ts) (hhead : (ts.skip buffer.length).head = .ok t)
    (hc : c'.Yields (ts.skip buffer.length).tail) : AreAt c' (buffer ++ [t]) ts := by
  induction buffer generalizing ts with
  | nil => exact ⟨hhead, hc⟩
  | cons u buffer ih => exact ⟨h.1, ih h.2 hhead hc⟩

theorem getElem? (h : AreAt c buffer ts) (hk : k < buffer.length) :
    ∃ t, buffer[k]? = some t ∧ (ts.skip k).head = .ok t := by
  induction buffer generalizing ts k with
  | nil => cases hk
  | cons u buffer ih =>
    cases k with
    | zero => exact ⟨u, rfl, h.1⟩
    | succ k => exact ih h.2 (Nat.lt_of_succ_lt_succ hk)

theorem drop (h : AreAt c buffer ts) (hk : k ≤ buffer.length) :
    AreAt c (buffer.drop k) (ts.skip k) := by
  induction buffer generalizing ts k with
  | nil =>
    obtain rfl := Nat.le_zero.1 hk
    exact h
  | cons u buffer ih =>
    cases k with
    | zero => exact h
    | succ k => exact ih h.2 (Nat.le_of_succ_le_succ hk)

end AreAt
end Tokens

/-- A reader that has looked at the first `k` tokens of a stream. -/
structure ReadState.At (s : ReadState) (k : Nat) (ts : Tokens) : Prop where
  endsOnce : ts.EndsOnce
  areAt : Tokens.AreAt s.cursor s.buffer ts
  looked : s.looked = k
  isBuffered : k ≤ s.buffer.length

/-! ### Texts -/

section
variable {p : Position} {c : Char} {cs spelling rest : List Char} {l : Lexeme}

theorem ofWord_ne_eof (s : String) : Lexeme.ofWord s ≠ .eof := by
  unfold Lexeme.ofWord
  split
  · nofun
  · split <;> nofun

theorem number_ne_eof (h : Lexer.number p c cs = .ok (l, spelling, rest)) : l ≠ .eof := by
  unfold Lexer.number at h
  split at h <;> cases h
  nofun

theorem lexeme_ne_eof (h : Lexer.lexeme p c cs = .ok (l, spelling, rest)) : l ≠ .eof := by
  unfold Lexer.lexeme at h
  split at h
  · cases h; nofun
  · cases h; nofun
  · cases h; nofun
  · cases h; nofun
  · unfold Lexer.quotedText at h
    split at h <;> cases h
    nofun
  · split at h
    · exact number_ne_eof h
    · cases h
  · split at h
    · exact number_ne_eof h
    · split at h
      · unfold Lexer.word at h
        split at h <;> cases h
        exact ofWord_ne_eof _
      · cases h

theorem endsOnce_scan (p : Position) (cs : List Char) : (Lexer.scan p cs).EndsOnce := by
  fun_induction Lexer.scan p cs with
  | case1 | case4 | case6 => trivial
  | case2 _ _ _ _ ih => exact ih
  | case3 _ _ _ _ _ _ ih => exact ih
  | case5 _ _ _ _ _ _ _ _ hl ih => exact ⟨lexeme_ne_eof hl, ih⟩

end

/-- A reader at the start of a text. -/
theorem at_ofText (text : String) (p : Position) :
    ReadState.At { cursor := .ofText text p } 0 (Tokens.ofText text p) :=
  ⟨endsOnce_scan p _, Cursor.yields_ofText text p, rfl, Nat.le_refl _⟩

namespace Reader
variable {α β : Type} {s : ReadState} {k : Nat} {ts rest : Tokens} {t : Token} {fault : Fault}

/-! ### Steps -/

/-- A run of the reader, as a rule on streams goes. If the rule succeeds, the reader stands before
the tokens that are left, with as many looked at as its value admits, and is as strict as before. -/
def Runs (final : α → Nat → Prop) (m : Reader α) (s : ReadState) :
    Except Fault (α × Tokens) → Prop
  | .error fault => m.run s = throw (.fault fault)
  | .ok (a, rest) =>
    ∃ s' k, m.run s = pure (a, s') ∧ final a k ∧ s'.At k rest ∧ s'.isStrict = s.isStrict

/-- A run after which nothing is looked at. -/
abbrev Reads (m : Reader α) (s : ReadState) (r : Except Fault (α × Tokens)) : Prop :=
  Runs (fun _ k => k = 0) m s r

/-- A run after which nothing is looked at, unless the rule declines. -/
abbrev Tries (m : Reader (Option α)) (s : ReadState) (r : Except Fault (Option α × Tokens)) : Prop :=
  Runs (fun a k => a.isSome → k = 0) m s r

theorem scan_run (hc : s.cursor.Yields ts) :
    (∃ fault, ts.head = .error fault ∧ scan.run s = throw (.fault fault)) ∨
    ∃ t c, ts.head = .ok t ∧ c.Yields ts.tail ∧ scan.run s = pure (t, { s with cursor := c }) := by
  obtain ⟨more, p, cs, hcs, hcursor, rfl⟩ := hc
  rcases @Scan.token_run more cs p hcs with
    ⟨fault, hscan, hrun⟩ | ⟨t, piece, rest, rfl, -, hhead, htail, hrun⟩
  · refine .inl ⟨fault, by rw [hscan]; rfl, ?_⟩
    unfold scan
    simp [hcursor, hrun]
  · refine .inr ⟨t, _, hhead, ⟨more, _, rest, fun hrest => hcs (by simp [hrest]), rfl, htail⟩, ?_⟩
    unfold scan
    simp [hcursor, hrun]

theorem fill_run (h : s.At k ts) :
    (∃ fault, (ts.skip k).head = .error fault ∧ fill.run s = throw (.fault fault)) ∨
    ∃ s', fill.run s = pure ((), s') ∧ s'.At k ts ∧ s'.isStrict = s.isStrict ∧
      k < s'.buffer.length := by
  have hfull : ∀ {s : ReadState}, s.At k ts → k < s.buffer.length → fill.run s = pure ((), s) := by
    intro s h hk
    rw [fill]
    simp [h.looked, Nat.not_le.2 hk]
  rcases Nat.lt_or_eq_of_le h.isBuffered with hk | hk
  · exact .inr ⟨s, hfull h hk, h, rfl, hk⟩
  · have hyields := h.areAt.yields
    rw [← hk] at hyields
    have hstep : fill.run s = (scan.run s >>= fun r =>
        fill.run { r.2 with buffer := r.2.buffer ++ [r.1] }) := by
      conv_lhs => rw [fill]
      simp [h.looked, hk]
    rcases scan_run hyields with ⟨fault, hhead, hrun⟩ | ⟨t, c, hhead, hc, hrun⟩
    · refine .inl ⟨fault, hhead, ?_⟩
      rw [hstep, hrun]
      rfl
    · have hat : ReadState.At { s with cursor := c, buffer := s.buffer ++ [t] } k ts :=
        ⟨h.endsOnce, h.areAt.concat (hk ▸ hhead) (hk ▸ hc), h.looked, by simp [hk]⟩
      refine .inr ⟨_, ?_, hat, rfl, by simp [hk]⟩
      rw [hstep, hrun, pure_bind]
      exact hfull hat (by simp [hk])

/-- The next token of the stream is looked at. -/
theorem peek_run (h : s.At k ts) :
    (∃ fault, (ts.skip k).head = .error fault ∧ peek.run s = throw (.fault fault)) ∨
    ∃ t s', (ts.skip k).head = .ok t ∧ peek.run s = pure (t, s') ∧ s'.At (k + 1) ts ∧
      s'.isStrict = s.isStrict := by
  rcases fill_run h with ⟨fault, hhead, hrun⟩ | ⟨s', hrun, h', hstrict, hk⟩
  · refine .inl ⟨fault, hhead, ?_⟩
    rw [peek, StateT.run_bind, hrun]
    rfl
  · obtain ⟨t, ht, hhead⟩ := h'.areAt.getElem? hk
    refine .inr ⟨t, { s' with looked := s'.looked + 1 }, hhead, ?_,
      ⟨h'.endsOnce, h'.areAt, ?_, hk⟩, hstrict⟩
    · rw [peek, StateT.run_bind, hrun]
      simp [h'.looked, ht]
    · rw [h'.looked]

theorem flush_run (h : s.At k ts) :
    ∃ s', flush.run s = pure ((), s') ∧ s'.At 0 (ts.skip k) ∧ s'.isStrict = s.isStrict := by
  refine ⟨{ s with buffer := s.buffer.drop s.looked, looked := 0 }, ?_,
    ⟨h.endsOnce.skip k, ?_, rfl, Nat.zero_le _⟩, rfl⟩
  · have hk := h.isBuffered
    simp [flush, h.looked, Nat.not_lt.2 hk]
  · rw [h.looked]
    exact h.areAt.drop h.isBuffered

theorem putBack_run (h : s.At (k + 1) ts) :
    ∃ s', putBack.run s = pure ((), s') ∧ s'.At k ts ∧ s'.isStrict = s.isStrict := by
  refine ⟨{ s with looked := k }, ?_,
    ⟨h.endsOnce, h.areAt, rfl, Nat.le_of_succ_le h.isBuffered⟩, rfl⟩
  simp [putBack, h.looked]

theorem pop_run (h : s.At 0 ts) :
    (∃ fault, ts.head = .error fault ∧ pop.run s = throw (.fault fault)) ∨
    ∃ t s', ts.head = .ok t ∧ pop.run s = pure (t, s') ∧ s'.At 0 ts.tail ∧
      s'.isStrict = s.isStrict := by
  have hat := h.areAt
  cases hbuffer : s.buffer with
  | nil =>
    rw [hbuffer] at hat
    have hpop : pop.run s = scan.run s := by simp [pop, hbuffer, h.looked]
    rw [hpop]
    rcases scan_run hat with hfault | ⟨t, c, hhead, hc, hrun⟩
    · exact .inl hfault
    · refine .inr ⟨t, _, hhead, hrun, ⟨h.endsOnce.tail, ?_, h.looked, Nat.zero_le _⟩, rfl⟩
      rw [hbuffer]
      exact hc
  | cons t buffer =>
    rw [hbuffer] at hat
    refine .inr ⟨t, { s with buffer, looked := s.looked - 1 }, hat.1, ?_,
      ⟨h.endsOnce.tail, hat.2, ?_, Nat.zero_le _⟩, rfl⟩
    · simp [pop, hbuffer, h.looked]
    · rw [h.looked]

/-! ### Sequences of steps -/

variable {final : β → Nat → Prop} {m : Reader α} {f : α → Reader β}
  {x : Except Fault (α × Tokens)} {r : Except Fault (β × Tokens)}

theorem runs_pure {b : β} (h : s.At k rest) (hk : final b k) : Runs final (pure b) s (.ok (b, rest)) :=
  ⟨s, k, rfl, hk, h, rfl⟩

theorem runs_throwAt {p : Position} {cause : Cause} :
    Runs final (throwAt p cause) s (.error ⟨p, cause⟩) := rfl

theorem runs_throw {fault : Fault} : Runs final (throw (.fault fault)) s (.error fault) := rfl

theorem Runs.of_error (hrun : m.run s = throw (.fault fault)) :
    Runs final (m >>= f) s (.error fault) := by
  change (m >>= f).run s = _
  rw [StateT.run_bind, hrun]
  rfl

theorem run_bind_of_ok {a : α} {s' : ReadState} (hrun : m.run s = pure (a, s')) :
    (m >>= f).run s = (f a).run s' := by
  rw [StateT.run_bind, hrun, pure_bind]

theorem Runs.of_ok {a : α} {s' : ReadState} (hrun : m.run s = pure (a, s'))
    (hstrict : s'.isStrict = s.isStrict) (hf : Runs final (f a) s' r) :
    Runs final (m >>= f) s r := by
  have hbind : (m >>= f).run s = (f a).run s' := run_bind_of_ok hrun
  cases r with
  | error fault => exact hbind.trans hf
  | ok b =>
    obtain ⟨s'', k, hrun', hk, hat, hstrict'⟩ := hf
    exact ⟨s'', k, hbind.trans hrun', hk, hat, hstrict'.trans hstrict⟩

theorem Runs.bind {final' : α → Nat → Prop} {g : α × Tokens → Except Fault (β × Tokens)}
    (hm : Runs final' m s x)
    (hf : ∀ a rest k s', x = .ok (a, rest) → final' a k → s'.At k rest →
      Runs final (f a) s' (g (a, rest))) :
    Runs final (m >>= f) s (x >>= g) := by
  match x, hm, hf with
  | .error _, hm, _ => exact Runs.of_error hm
  | .ok (a, rest), ⟨s', k, hrun, hk, hat, hstrict⟩, hf =>
    exact Runs.of_ok hrun hstrict (hf a rest k s' rfl hk hat)

/-- A rule after which nothing is looked at, and then what depends on its value. -/
theorem Reads.bind {g : α × Tokens → Except Fault (β × Tokens)} (hm : Reads m s x)
    (hf : ∀ a rest s', x = .ok (a, rest) → s'.At 0 rest → Runs final (f a) s' (g (a, rest))) :
    Runs final (m >>= f) s (x >>= g) := by
  refine Runs.bind hm fun a rest k s' hx hk hat => ?_
  subst hk
  exact hf a rest s' hx hat

theorem Reads.then {a : α} (hm : Reads m s (.ok (a, rest)))
    (hf : ∀ s', s'.At 0 rest → Runs final (f a) s' r) : Runs final (m >>= f) s r := by
  obtain ⟨s', _, hrun, rfl, hat, hstrict⟩ := hm
  exact Runs.of_ok hrun hstrict (hf s' hat)

theorem Reads.stop (hm : Reads m s (.error fault)) : Runs final (m >>= f) s (.error fault) :=
  Runs.of_error hm

section
variable {f : Token → Reader β}

theorem runs_peek (h : s.At k ts) (hhead : (ts.skip k).head = .ok t)
    (hf : ∀ s', s'.At (k + 1) ts → Runs final (f t) s' r) : Runs final (peek >>= f) s r := by
  rcases peek_run h with ⟨fault, hfault, -⟩ | ⟨t', s', ht, hrun, hat, hstrict⟩
  · rw [hhead] at hfault
    cases hfault
  · rw [hhead] at ht
    cases ht
    exact Runs.of_ok hrun hstrict (hf s' hat)

theorem runs_peek_fault (h : s.At k ts) (hhead : (ts.skip k).head = .error fault) :
    Runs final (peek >>= f) s (.error fault) := by
  rcases peek_run h with ⟨fault', hfault, hrun⟩ | ⟨t', s', ht, -, -⟩
  · rw [hhead] at hfault
    cases hfault
    exact Runs.of_error hrun
  · rw [hhead] at ht
    cases ht

end

section
variable {f : Unit → Reader β}

theorem runs_flush (h : s.At k ts) (hf : ∀ s', s'.At 0 (ts.skip k) → Runs final (f ()) s' r) :
    Runs final (flush >>= f) s r := by
  obtain ⟨s', hrun, hat, hstrict⟩ := flush_run h
  exact Runs.of_ok hrun hstrict (hf s' hat)

theorem runs_putBack (h : s.At (k + 1) ts) (hf : ∀ s', s'.At k ts → Runs final (f ()) s' r) :
    Runs final (putBack >>= f) s r := by
  obtain ⟨s', hrun, hat, hstrict⟩ := putBack_run h
  exact Runs.of_ok hrun hstrict (hf s' hat)

end

/-- The value that a reader comes to, or its fault, whatever is left to read. A reader that comes to
a value is as strict as before. -/
def Ends (m : Reader α) (s : ReadState) : Except Fault α → Prop
  | .error fault => m.run s = throw (.fault fault)
  | .ok a => ∃ s', m.run s = pure (a, s') ∧ s'.isStrict = s.isStrict

theorem Runs.ends {final : α → Nat → Prop} (hm : Runs final m s x) : Ends m s (x.map (·.1)) := by
  match x, hm with
  | .error _, hm => exact hm
  | .ok _, ⟨s', _, hrun, _, _, hstrict⟩ => exact ⟨s', hrun, hstrict⟩

/-- A reader that ends stops for a fault only, and never for a step of its own. -/
theorem Ends.outcome {a : Except Fault α} (h : Ends m s a) :
    (m.run s).run.map (·.map (·.1)) = some (a.mapError .fault) := by
  cases a with
  | error fault =>
    rw [show m.run s = throw (.fault fault) from h]
    rfl
  | ok a =>
    obtain ⟨s', hrun, -⟩ := h
    rw [hrun]
    rfl

theorem Ends.of_ok {a : α} {s' : ReadState} {b : Except Fault β} (hrun : m.run s = pure (a, s'))
    (hstrict : s'.isStrict = s.isStrict) (hf : Ends (f a) s' b) : Ends (m >>= f) s b := by
  have hbind : (m >>= f).run s = (f a).run s' := run_bind_of_ok hrun
  cases b with
  | error fault => exact hbind.trans hf
  | ok b =>
    obtain ⟨s'', hrun', hstrict'⟩ := hf
    exact ⟨s'', hbind.trans hrun', hstrict'.trans hstrict⟩

theorem Reads.bind_ends {g : α × Tokens → Except Fault β} (hm : Reads m s x)
    (hf : ∀ a rest s', x = .ok (a, rest) → s'.At 0 rest → Ends (f a) s' (g (a, rest))) :
    Ends (m >>= f) s (x >>= g) := by
  match x, hm, hf with
  | .error _, hm, _ => exact show Reads (m >>= f) s (.error _) from Runs.of_error hm
  | .ok (a, rest), ⟨s', _, hrun, rfl, hat, hstrict⟩, hf =>
    exact Ends.of_ok hrun hstrict (hf a rest s' rfl hat)

/-! ### Single tokens -/

section
variable {kind : Lexeme → Option α} {f : α × Position → Reader β}

theorem runs_take {a : α} (h : s.At 0 ts) (hhead : ts.head = .ok t) (ha : kind t.lexeme = some a)
    (hf : ∀ s', s'.At 0 ts.tail → Runs final (f (a, t.pos)) s' r) :
    Runs final (take kind >>= f) s r := by
  have htake : Reads (take kind) s (.ok ((a, t.pos), ts.tail)) := by
    rcases pop_run h with ⟨fault, hfault, -⟩ | ⟨t', s', ht, hrun, hat, hstrict⟩
    · rw [hhead] at hfault
      cases hfault
    · rw [hhead] at ht
      cases ht
      refine Runs.of_ok hrun hstrict ?_
      rw [ha]
      exact runs_pure hat rfl
  exact htake.then hf

theorem reads_take_unexpected (h : s.At 0 ts) (hno : ∀ t, ts.head = .ok t → kind t.lexeme = none) :
    Reads (take kind) s ts.unexpected := by
  unfold Tokens.unexpected Tokens.failAt
  rcases pop_run h with ⟨fault, hfault, hrun⟩ | ⟨t, s', ht, hrun, -, hstrict⟩
  · rw [hfault]
    exact Runs.of_error hrun
  · rw [ht]
    refine Runs.of_ok hrun hstrict ?_
    rw [hno t ht]
    exact runs_throwAt

theorem runs_take_unexpected (h : s.At 0 ts) (hno : ∀ t, ts.head = .ok t → kind t.lexeme = none) :
    Runs final (take kind >>= f) s ts.unexpected := by
  have htake := reads_take_unexpected h hno
  unfold Tokens.unexpected Tokens.failAt at htake ⊢
  cases hhead : ts.head with
  | error fault =>
    rw [hhead] at htake
    exact Reads.stop htake
  | ok t =>
    rw [hhead] at htake
    exact Reads.stop htake

end

theorem reads_ident (h : s.At 0 ts) : Reads ident s ts.ident := by
  unfold ident Tokens.ident
  split
  · exact runs_take h rfl rfl fun s' h' => runs_pure h' rfl
  · rename_i hno
    refine runs_take_unexpected h fun t ht => ?_
    match ts, ht with
    | .done _, rfl => rfl
    | .next ⟨l, pos⟩ rest, rfl =>
      cases l with
      | ident name => exact absurd rfl (hno name pos rest)
      | _ => rfl

theorem map_failAt (g : α → β) (cause : Token → Cause) :
    (ts.failAt cause : Except Fault α).map g = ts.failAt cause := by
  unfold Tokens.failAt
  cases ts.head <;> rfl

theorem map_unexpected (g : α → β) : (ts.unexpected : Except Fault α).map g = ts.unexpected :=
  map_failAt g _

theorem reads_punct {p : Punct} (h : s.At 0 ts) :
    Reads (punct p) s ((ts.punct p).map fun rest => ((), rest)) := by
  unfold punct Tokens.punct
  split
  · rename_i q pos rest
    split
    · subst q
      exact runs_take h rfl (if_pos rfl) fun s' h' => runs_pure h' rfl
    · rename_i hq
      rw [map_unexpected]
      refine runs_take_unexpected h fun t ht => ?_
      cases ht
      exact if_neg fun heq => hq (Lexeme.punct.inj heq)
  · rename_i hno
    rw [map_unexpected]
    refine runs_take_unexpected h fun t ht => if_neg fun heq => ?_
    match ts, ht with
    | .done _, rfl => cases heq
    | .next ⟨l, pos⟩ rest, rfl =>
      obtain rfl : l = .punct p := heq
      exact hno p pos rest rfl

theorem runs_punct {f : Unit → Reader β} {p : Punct} {g : Tokens → Except Fault (β × Tokens)}
    (h : s.At 0 ts)
    (hf : ∀ rest s', ts.punct p = .ok rest → s'.At 0 rest → Runs final (f ()) s' (g rest)) :
    Runs final (punct p >>= f) s (ts.punct p >>= g) := by
  have hpunct := reads_punct (p := p) h
  cases hx : ts.punct p with
  | error fault =>
    rw [hx] at hpunct
    exact Reads.stop hpunct
  | ok rest =>
    rw [hx] at hpunct
    exact Reads.then hpunct fun s' h' => hf rest s' hx h'

theorem reads_failHere {cause : Cause} (h : s.At 0 ts) :
    Runs final (failHere cause) s (ts.failAt fun _ => cause) := by
  unfold failHere Tokens.failAt
  cases hhead : ts.head with
  | error fault => exact runs_peek_fault h hhead
  | ok t => exact runs_peek h hhead fun s' _ => runs_throwAt

theorem reads_unexpected (h : s.At 0 ts) :
    Runs final (peek >>= fun t => unexpected t) s ts.unexpected := by
  unfold Tokens.unexpected Tokens.failAt
  cases hhead : ts.head with
  | error fault => exact runs_peek_fault h hhead
  | ok t => exact runs_peek h hhead fun s' _ => runs_throwAt

/-! ### Rules that may decline -/

theorem check_bind (m : Reader (Option α)) (f : Option α → Reader β) : check m >>= f =
    looked >>= fun saved => m >>= fun a => settle saved a >>= f := by
  simp [check]

theorem Reads.tries {m : Reader (Option α)} {x : Except Fault (Option α × Tokens)}
    (hm : Reads m s x) : Tries m s x := by
  match x, hm with
  | .error _, hm => exact hm
  | .ok _, ⟨s', k, hrun, hk, hat⟩ => exact ⟨s', k, hrun, fun _ => hk, hat⟩

theorem Tries.settle {a : Option α} (hat : s.At k rest) (hk : a.isSome → k = 0) :
    Reads (settle 0 a) s (.ok (a, rest)) := by
  cases a with
  | some a =>
    obtain rfl := hk rfl
    exact runs_pure hat rfl
  | none =>
    refine ⟨{ s with looked := 0 }, 0, ?_, rfl,
      ⟨hat.endsOnce, hat.areAt, rfl, Nat.zero_le _⟩, rfl⟩
    simp [Reader.settle]

/-- What a rule that declines has looked at is forgotten. -/
theorem reads_check {m : Reader (Option α)} {x : Except Fault (Option α × Tokens)} (h : s.At 0 ts)
    (hm : Tries m s x) : Reads (check m) s x := by
  have hlooked : looked.run s = pure (0, s) := by simp [looked, h.looked]
  refine Runs.of_ok hlooked rfl ?_
  match x, hm with
  | .error _, hm => exact Runs.of_error hm
  | .ok (a, rest), ⟨s', k, hrun, hk, hat, hstrict⟩ =>
    exact Runs.of_ok hrun hstrict (Tries.settle hat hk)

/-- A rule that begins with a mark and declines if it does not come first. -/
theorem tries_mark {p : Punct} {m : Reader (Option β)}
    {g : Tokens → Except Fault (Option β × Tokens)} (h : s.At 0 ts)
    (hm : ∀ rest s', ts.punct? p = .ok (true, rest) → s'.At 0 rest → Tries m s' (g rest)) :
    Tries (do if (← peek).lexeme = .punct p then flush; m else return none) s
      (ts.punct? p >>= fun r => if r.1 then g r.2 else .ok (none, r.2)) := by
  unfold Tokens.punct? at hm ⊢
  split
  · rename_i q pos rest
    refine runs_peek h rfl fun s' h' => ?_
    by_cases hq : q = p
    · subst q
      simp only [if_pos]
      exact runs_flush h' fun s' h' => hm rest s' (if_pos rfl) h'
    · have hne : Lexeme.punct q ≠ .punct p := fun heq => hq (Lexeme.punct.inj heq)
      simp only [if_neg hq, if_neg hne]
      exact runs_pure h' nofun
  · exact runs_peek_fault h rfl
  · rename_i hno hbroken
    have hne : ∀ t, ts.head = .ok t → t.lexeme ≠ .punct p := by
      rintro t ht heq
      match ts, ht with
      | .done _, rfl => cases heq
      | .next ⟨l, pos⟩ rest, rfl =>
        obtain rfl : l = .punct p := heq
        exact hno p pos rest rfl
    match ts, hne, hbroken with
    | .broken fault, _, hbroken => exact absurd rfl (hbroken fault)
    | .done pos, _, _ => exact runs_peek h rfl fun s' h' => runs_pure h' nofun
    | .next t rest, hne, _ =>
      refine runs_peek h rfl fun s' h' => ?_
      simp only [if_neg (hne t rfl)]
      exact runs_pure h' nofun

theorem tries_one (p : Punct) (h : s.At 0 ts) : Tries (one p) s (ts.punct? p >>= fun r =>
    if r.1 then .ok (some (), r.2) else .ok (none, r.2)) :=
  tries_mark h fun _ _ _ h' => runs_pure h' fun _ => rfl

theorem reads_punct? {p : Punct} (h : s.At 0 ts) : Reads (punct? p) s (ts.punct? p) := by
  have hcheck := reads_check h (tries_one p h)
  unfold punct?
  match hx : ts.punct? p with
  | .error fault =>
    rw [hx] at hcheck
    exact Reads.stop hcheck
  | .ok (found, rest) =>
    rw [hx] at hcheck
    cases found <;> exact Reads.then hcheck fun s' h' => runs_pure h' rfl

/-! ### Sequences -/

theorem reads_separated {item : List α → Reader α} {rule : Tokens.Rule (List α) α}
    {closing : Punct} (hitem : ∀ seen ts s, s.At 0 ts → Reads (item seen) s (rule.run seen ts))
    (seen : List α) {ts : Tokens} {s : ReadState} (h : s.At 0 ts) :
    Reads (separated item closing seen) s (Tokens.separated rule closing seen ts) := by
  rw [separated, Tokens.separated_eq]
  refine (hitem seen ts s h).bind fun a rest s hx h => ?_
  refine (reads_punct? h).bind fun found rest' s hc h => ?_
  cases found with
  | true => exact runs_pure h rfl
  | false =>
    refine runs_punct h fun rest'' s hk h => ?_
    exact reads_separated hitem (seen ++ [a]) h
termination_by ts.length
decreasing_by
  have := rule.shorter hx
  have := Tokens.punct?_length hc
  have := Tokens.punct_length hk
  omega

theorem reads_block {σ : Type} {item : σ → Reader σ} {rule : Tokens.Rule σ σ} {closing : Punct}
    (hitem : ∀ a ts s, s.At 0 ts → Reads (item a) s (rule.run a ts)) (a : σ) {ts : Tokens}
    {s : ReadState} (h : s.At 0 ts) :
    Reads (block item closing a) s (Tokens.block rule closing a ts) := by
  rw [block, Tokens.block_eq]
  refine (reads_punct? h).bind fun found rest s hc h => ?_
  cases found with
  | true => exact runs_pure h rfl
  | false =>
    refine (hitem a rest s h).bind fun a' rest' s hx h => ?_
    exact reads_block hitem a' h
termination_by ts.length
decreasing_by
  have := rule.shorter hx
  have := Tokens.punct?_length hc
  omega

end Reader
end Bindery
