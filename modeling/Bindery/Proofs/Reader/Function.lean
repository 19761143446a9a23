import Bindery.Proofs.Decl.Unplaced
import Bindery.Proofs.Reader.Attribute

/-!
# Functions are read to their end

A function begins with one keyword or with two. All that follows them runs as the rules on streams
do, and so does what the attributes before the function tell of it.
-/
namespace Bindery.Tokens

/-- The keywords of a function, if they come first. -/
def functionMark? : Tokens → Except Fault (Option (Position × Bool) × Tokens)
  | next ⟨.keyword .fn, pos⟩ rest => .ok (some (pos, false), rest)
  | next ⟨.keyword .async, pos⟩ (next ⟨.keyword .fn, _⟩ rest) => .ok (some (pos, true), rest)
  | next ⟨.keyword .async, _⟩ (broken fault) => .error fault
  | broken fault => .error fault
  | ts => .ok (none, ts)

theorem functionMark?_async {p : Position} {t : Token} {rest : Tokens}
    (h : t.lexeme ≠ .keyword .fn) : (next ⟨.keyword .async, p⟩ (next t rest)).functionMark? =
      .ok (none, next ⟨.keyword .async, p⟩ (next t rest)) := by
  obtain ⟨l, q⟩ := t
  simp [functionMark?, h]

def function? (ds : Declarations) (attrs : List Attribute) (ts : Tokens) :
    Except Fault (Option Declarations × Tokens) := do
  match ← ts.functionMark? with
  | (none, ts) => .ok (none, ts)
  | (some (pos, isAsync), ts) =>
    let (ds, ts) ← ts.function ds attrs isAsync pos
    .ok (some ds, ts)

end Bindery.Tokens

namespace Bindery.Reader
variable {s : ReadState} {ts rest : Tokens}

theorem reads_moreBounds (seen : List String) {ts : Tokens} {s : ReadState} (h : s.At 0 ts) :
    Reads (moreBounds seen) s (ts.moreBounds seen) := by
  rw [moreBounds, Tokens.moreBounds_eq]
  refine (reads_punct? h).bind fun found rest s hplus h => ?_
  cases found with
  | false => exact runs_pure h rfl
  | true =>
    refine (reads_path h).bind fun bound rest' s hpath h => ?_
    exact reads_moreBounds _ h
termination_by ts.length
decreasing_by
  have := Tokens.punct?_length hplus
  have := Tokens.path_length hpath
  omega

theorem reads_generic (h : s.At 0 ts) : Reads generic s ts.generic := by
  unfold generic
  match ts, h with
  | .next ⟨.ident name, p⟩ rest, h =>
    refine runs_peek h rfl fun s h => runs_flush h fun s h => ?_
    change Reads _ s (rest.bounds >>= _)
    rw [Tokens.bounds, bind_assoc]
    refine (reads_punct? h).bind fun found rest s _ h => ?_
    cases found with
    | false => exact runs_pure h rfl
    | true =>
      change Reads _ s ((rest.path >>= _) >>= _)
      rw [bind_assoc]
      refine (reads_path h).bind fun bound rest s _ h => ?_
      exact (reads_moreBounds [bound] h).bind fun bounds rest s _ h => runs_pure h rfl
  | .broken _, h => exact runs_peek_fault h rfl
  | .done _, h | .next ⟨.number _, _⟩ _, h | .next ⟨.quoted _, _⟩ _, h
  | .next ⟨.scalar _, _⟩ _, h | .next ⟨.keyword _, _⟩ _, h | .next ⟨.punct _, _⟩ _, h
  | .next ⟨.eof, _⟩ _, h => exact runs_peek h rfl fun s h => runs_throwAt

theorem reads_generics (h : s.At 0 ts) : Reads generics s ts.genericList := by
  refine (reads_punct? h).bind fun found rest s _ h => ?_
  cases found with
  | false => exact runs_pure h rfl
  | true => exact reads_separated (fun _ _ _ h => reads_generic h) [] h

theorem reads_signature (isAsync : Bool) (p : Position) (h : s.At 0 ts) :
    Reads (signature isAsync p) s (ts.signature isAsync p) := by
  refine (reads_ident h).bind fun name rest s _ h => ?_
  refine (reads_generics h).bind fun generics rest s _ h => ?_
  refine runs_punct h fun rest s _ h => ?_
  refine (reads_params h).bind fun params rest s _ h => ?_
  refine (reads_returnType h).bind fun ret rest s _ h => ?_
  exact runs_punct h fun rest s _ h => runs_pure h rfl

theorem tries_functionMark (h : s.At 0 ts) : Tries functionMark s ts.functionMark? := by
  unfold functionMark
  match ts, h with
  | .done _, h => exact runs_peek h rfl fun s h => runs_pure h nofun
  | .broken _, h => exact runs_peek_fault h rfl
  | .next ⟨.keyword k, p⟩ rest, h =>
    refine runs_peek h rfl fun s h => ?_
    cases k with
    | fn => exact runs_flush h fun s h => runs_pure h fun _ => rfl
    | async =>
      match rest, h with
      | .done _, h => exact runs_peek h rfl fun s h => runs_pure h nofun
      | .broken _, h => exact runs_peek_fault h rfl
      | .next ⟨l, q⟩ rest, h =>
        refine runs_peek h rfl fun s h => ?_
        by_cases hl : l = .keyword .fn
        · subst l
          exact runs_flush h fun s h => runs_pure h fun _ => rfl
        · rw [Tokens.functionMark?_async hl]
          simp only [if_neg hl]
          exact runs_pure h nofun
    | _ => exact runs_pure h nofun
  | .next ⟨.ident _, _⟩ _, h | .next ⟨.number _, _⟩ _, h | .next ⟨.quoted _, _⟩ _, h
  | .next ⟨.scalar _, _⟩ _, h | .next ⟨.punct _, _⟩ _, h | .next ⟨.eof, _⟩ _, h =>
    exact runs_peek h rfl fun s h => runs_pure h nofun

theorem tries_function (ds : Declarations) (attrs : List Attribute) (h : s.At 0 ts) :
    Tries (function ds attrs) s (ts.function? ds attrs) := by
  refine (tries_functionMark h).bind fun found rest k s _ hk h => ?_
  match found, hk with
  | none, _ => exact runs_pure h nofun
  | some (p, isAsync), hk =>
    obtain rfl := hk rfl
    change Tries _ s ((rest.signature isAsync p >>= _) >>= _)
    rw [bind_assoc]
    refine (reads_signature isAsync p h).bind fun f rest s _ h => ?_
    change Tries _ s ((f.addAttributes attrs >>= _) >>= _)
    rw [bind_assoc, addAttributes_eq]
    refine runs_lift fun f => ?_
    by_cases hname : f.name ∈ ds.functions.map (·.name)
    · simp only [if_pos hname]
      exact runs_throwAt
    · simp only [if_neg hname]
      exact runs_pure h fun _ => rfl

end Bindery.Reader
