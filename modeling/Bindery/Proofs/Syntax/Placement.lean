import Bindery.Syntax.Sequence

/-!
# Readers do not look at positions

A reader of tokens takes positions only to hand them on. It commutes with the removal of all
positions: what it reads from tokens without positions is what it reads from the tokens, without
the positions, and it fails for the same cause.
-/
namespace Bindery

/-- A fault without its position. -/
def Fault.unplaced (fault : Fault) : Fault := { fault with pos := .start }

def Token.unplaced (t : Token) : Token := { t with pos := .start }

/-- An outcome without positions, where `e` takes those of a result away. -/
def unplacedBy {α β : Type} (e : α → β) : Except Fault α → Except Fault β
  | .ok a => .ok (e a)
  | .error fault => .error fault.unplaced

section
variable {α β γ δ : Type} {e : α → β} {e' : γ → δ}

@[simp] theorem unplacedBy_ok (a : α) : unplacedBy e (.ok a) = .ok (e a) := rfl

@[simp] theorem unplacedBy_error (fault : Fault) :
    unplacedBy e (.error fault) = .error fault.unplaced := rfl

/-- Steps that ignore positions make a sequence that does. -/
theorem bind_unplaced {x : Except Fault α} {x' : Except Fault β} {f : α → Except Fault γ}
    {g : β → Except Fault δ} (hx : x' = unplacedBy e x)
    (h : ∀ a, g (e a) = unplacedBy e' (f a)) : (x' >>= g) = unplacedBy e' (x >>= f) := by
  subst hx
  cases x with
  | ok a => exact h a
  | error fault => rfl

/-- What follows a step does not bring back the positions that the step lost. -/
theorem unplacedBy_bind {x y : Except Fault α} {f : α → Except Fault γ}
    (h : unplacedBy id x = unplacedBy id y) :
    unplacedBy id (x >>= f) = unplacedBy id (y >>= f) := by
  cases x with
  | ok a =>
    cases y with
    | ok b => cases h; rfl
    | error fault => cases h
  | error fault =>
    cases y with
    | ok b => cases h
    | error fault' =>
      have hfault : fault.unplaced = fault'.unplaced := Except.error.inj h
      exact congrArg Except.error hfault

end

namespace Tokens

def unplaced : Tokens → Tokens
  | done _ => done .start
  | broken fault => broken fault.unplaced
  | next t rest => next t.unplaced rest.unplaced

@[simp] theorem unplaced_done (p : Position) : (done p).unplaced = done .start := rfl

@[simp] theorem unplaced_broken (fault : Fault) :
    (broken fault).unplaced = broken fault.unplaced := rfl

@[simp] theorem unplaced_next (l : Lexeme) (p : Position) (ts : Tokens) :
    (next ⟨l, p⟩ ts).unplaced = next ⟨l, .start⟩ ts.unplaced := rfl

/-- The tokens before the end of the stream or the fault in it. -/
def toList : Tokens → List Token
  | next t rest => t :: rest.toList
  | _ => []

/-- What a rule reads, without positions: the result by `e` and the tokens that are left. -/
def unplacedRead {α β : Type} (e : α → β) : Except Fault (α × Tokens) → Except Fault (β × Tokens) :=
  unplacedBy (Prod.map e unplaced)

section
variable {α β : Type} {e : α → β} {ts : Tokens}

@[simp] theorem unplacedRead_ok (a : α) (ts : Tokens) :
    unplacedRead e (.ok (a, ts)) = .ok (e a, ts.unplaced) := rfl

@[simp] theorem unplacedRead_error (fault : Fault) :
    unplacedRead e (.error fault) = .error fault.unplaced := rfl

/-- Two rules in a row, each of which ignores positions. -/
theorem bind_unplacedRead {γ δ : Type} {e' : γ → δ} {x : Except Fault (α × Tokens)}
    {x' : Except Fault (β × Tokens)} {f : α × Tokens → Except Fault γ}
    {g : β × Tokens → Except Fault δ} (hx : x' = unplacedRead e x)
    (h : ∀ a ts, g (e a, ts.unplaced) = unplacedBy e' (f (a, ts))) :
    (x' >>= g) = unplacedBy e' (x >>= f) :=
  bind_unplaced hx fun (a, ts) => h a ts

theorem head_unplaced : ts.unplaced.head = unplacedBy Token.unplaced ts.head := by
  cases ts <;> rfl

/-- A cause may name the token at which a rule fails, but not its position. -/
theorem failAt_unplaced {cause : Token → Cause} (h : ∀ t, cause t.unplaced = cause t) :
    (ts.unplaced.failAt cause : Except Fault β) = unplacedBy e (ts.failAt cause) := by
  refine bind_unplaced head_unplaced fun t => ?_
  change Except.error _ = Except.error _
  rw [h]
  rfl

theorem punct_unplaced (p : Punct) : ts.unplaced.punct p = unplacedBy unplaced (ts.punct p) := by
  rcases ts with pos | fault | ⟨⟨l, pos⟩, rest⟩
  · rfl
  · rfl
  · cases l with
    | punct q =>
      simp only [unplaced_next, punct]
      split <;> rfl
    | _ => rfl

theorem punct?_unplaced (p : Punct) : ts.unplaced.punct? p = unplacedRead id (ts.punct? p) := by
  rcases ts with pos | fault | ⟨⟨l, pos⟩, rest⟩
  · rfl
  · rfl
  · cases l with
    | punct q =>
      simp only [unplaced_next, punct?]
      split <;> rfl
    | _ => rfl

theorem ident_unplaced : ts.unplaced.ident = unplacedRead id ts.ident := by
  rcases ts with pos | fault | ⟨⟨l, pos⟩, rest⟩
  · rfl
  · rfl
  · cases l <;> rfl

end

/-! ### Sequences of items -/

section
variable {σ α β : Type} {ts : Tokens}

/-- The first item of a separated sequence, and the sequence from there on. -/
theorem separated_eq (item : Rule (List α) α) (closing : Punct) (seen : List α) (ts : Tokens) :
    separated item closing seen ts = (do
      let (a, ts) ← item.run seen ts
      match ← ts.punct? closing with
      | (true, rest) => .ok (seen ++ [a], rest)
      | (false, ts) =>
        let rest ← ts.punct .comma
        separated item closing (seen ++ [a]) rest) := by
  rw [separated]
  split
  · rename_i hi
    rw [hi]
    rfl
  · rename_i hi
    rw [hi]
    split
    all_goals
      rename_i hc
      simp only [bind, Except.bind, hc]
    split <;> rename_i hk <;> simp only [hk]

/-- A block that ends here, or its first item and the block from there on. -/
theorem block_eq (item : Rule σ σ) (closing : Punct) (s : σ) (ts : Tokens) :
    block item closing s ts = (do
      match ← ts.punct? closing with
      | (true, rest) => .ok (s, rest)
      | (false, ts) =>
        let (s, rest) ← item.run s ts
        block item closing s rest) := by
  rw [block]
  split
  all_goals
    rename_i hc
    simp only [bind, Except.bind, hc]
  split <;> rename_i hi <;> simp only [hi]

variable {e : α → β} {item : Rule (List α) α} {item' : Rule (List β) β}

theorem separated_unplaced (closing : Punct)
    (hitem : ∀ seen ts, item'.run (seen.map e) ts.unplaced = unplacedRead e (item.run seen ts))
    (seen : List α) : separated item' closing (seen.map e) ts.unplaced =
      unplacedRead (List.map e) (separated item closing seen ts) := by
  fun_induction separated item closing seen ts with
  | case1 seen ts fault hi =>
    rw [separated_eq, hitem, hi]
    rfl
  | case2 seen ts a rest hi fault hc =>
    rw [separated_eq, hitem, hi]
    simp only [unplacedRead_ok, bind, Except.bind, punct?_unplaced, hc, unplacedRead_error]
  | case3 seen ts a rest hi after hc =>
    rw [separated_eq, hitem, hi]
    simp only [unplacedRead_ok, bind, Except.bind, punct?_unplaced, hc, id_eq, List.map_append,
      List.map_cons, List.map_nil]
  | case4 seen ts a rest hi after hc fault hk =>
    rw [separated_eq, hitem, hi]
    simp only [unplacedRead_ok, bind, Except.bind, punct?_unplaced, hc, id_eq, punct_unplaced, hk,
      unplacedBy_error, unplacedRead_error]
  | case5 seen ts a rest hi after hc atItem hk ih =>
    rw [separated_eq, hitem, hi]
    simp only [unplacedRead_ok, bind, Except.bind, punct?_unplaced, hc, id_eq, punct_unplaced, hk,
      unplacedBy_ok]
    simpa only [List.map_append, List.map_cons, List.map_nil] using ih

/-- The same for items that tell no positions. -/
theorem separated_unplaced_id {item : Rule (List α) α} (closing : Punct)
    (hitem : ∀ seen ts, item.run seen ts.unplaced = unplacedRead id (item.run seen ts))
    (seen : List α) : separated item closing seen ts.unplaced =
      unplacedRead id (separated item closing seen ts) := by
  have hitem' (seen : List α) (ts : Tokens) :
      item.run (seen.map id) ts.unplaced = unplacedRead id (item.run seen ts) := by
    rw [List.map_id]
    exact hitem seen ts
  simpa only [List.map_id, List.map_id_fun] using separated_unplaced closing hitem' seen

theorem block_unplaced {σ' : Type} {e : σ → σ'} {item : Rule σ σ} {item' : Rule σ' σ'}
    (closing : Punct)
    (hitem : ∀ s ts, item'.run (e s) ts.unplaced = unplacedRead e (item.run s ts)) (s : σ) :
    block item' closing (e s) ts.unplaced = unplacedRead e (block item closing s ts) := by
  fun_induction block item closing s ts with
  | case1 s ts fault hc =>
    rw [block_eq, punct?_unplaced, hc]
    rfl
  | case2 s ts rest hc =>
    rw [block_eq, punct?_unplaced, hc]
    rfl
  | case3 s ts atItem hc fault hi =>
    rw [block_eq, punct?_unplaced, hc]
    simp only [unplacedRead_ok, bind, Except.bind, id_eq, hitem, hi, unplacedRead_error]
  | case4 s ts atItem hc s' rest hi ih =>
    rw [block_eq, punct?_unplaced, hc]
    simp only [unplacedRead_ok, bind, Except.bind, id_eq, hitem, hi]
    exact ih

end

end Tokens
end Bindery
