import Bindery.Proofs.Syntax.Passage

/-!
# What rules read from the tokens of a passage

A rule that reads from tokens of a passage gives a result with a property and leaves tokens of the
passage, or it gives a fault in the passage. Such facts are put together along the steps of a rule.
-/
namespace Bindery
open Lexeme

/-- A result with the property `P`, or a fault with the property `E`. -/
def Gives {ε α : Type} (E : ε → Prop) (P : α → Prop) : Except ε α → Prop
  | .ok a => P a
  | .error e => E e

namespace Gives
variable {ε α β : Type} {E : ε → Prop} {P : α → Prop} {Q : β → Prop} {x : Except ε α}

theorem bind {f : α → Except ε β} (hx : Gives E P x) (hf : ∀ a, P a → Gives E Q (f a)) :
    Gives E Q (x >>= f) := by
  cases x with
  | ok a => exact hf a hx
  | error e => exact hx

theorem mono {P' : α → Prop} (hx : Gives E P x) (h : ∀ a, P a → P' a) : Gives E P' x := by
  cases x with
  | ok a => exact h a hx
  | error e => exact hx

theorem of_ok {a : α} (hx : Gives E P x) (h : x = .ok a) : P a := by
  rw [h] at hx
  exact hx

theorem of_error {e : ε} (hx : Gives E P x) (h : x = .error e) : E e := by
  rw [h] at hx
  exact hx

theorem of_forall (hok : ∀ a, x = .ok a → P a) (herror : ∀ e, x = .error e → E e) :
    Gives E P x := by
  cases x with
  | ok a => exact hok a rfl
  | error e => exact herror e rfl

end Gives

namespace Tokens
variable {x : Passage} {α β σ : Type} {P : α → Prop} {ts rest : Tokens}

/-- A fault in a passage, or a result with a property. -/
def Checks (x : Passage) (P : α → Prop) (result : Except Fault α) : Prop :=
  Gives (fun f => x.Has f.pos) P result

/-- A fault in a passage, or a result with a property before further tokens of the passage. -/
def Reads (x : Passage) (P : α → Prop) (result : Except Fault (α × Tokens)) : Prop :=
  Checks x (fun r => P r.1 ∧ r.2.AreOf x) result

/-- As `Reads`, for a rule that has no result but the tokens it leaves. -/
def Skips (x : Passage) (result : Except Fault Tokens) : Prop := Checks x (AreOf x) result

theorem checks_ok {a : α} (ha : P a) : Checks x P (.ok a) := ha

theorem checks_error {f : Fault} (h : x.Has f.pos) : Checks x P (.error f) := h

theorem reads_ok {a : α} (ha : P a) (h : rest.AreOf x) : Reads x P (.ok (a, rest)) := ⟨ha, h⟩

theorem reads_error {f : Fault} (h : x.Has f.pos) : Reads x P (.error f) := h

theorem Checks.bind {result : Except Fault α} {f : α → Except Fault β} {Q : β → Prop}
    (h : Checks x P result) (hf : ∀ a, P a → Checks x Q (f a)) : Checks x Q (result >>= f) :=
  Gives.bind h hf

theorem Checks.reads {result : Except Fault α} {f : α → Except Fault (β × Tokens)} {Q : β → Prop}
    (h : Checks x P result) (hf : ∀ a, P a → Reads x Q (f a)) : Reads x Q (result >>= f) :=
  Gives.bind h hf

theorem Reads.bind {result : Except Fault (α × Tokens)}
    {f : α × Tokens → Except Fault (β × Tokens)} {Q : β → Prop} (h : Reads x P result)
    (hf : ∀ a rest, P a → rest.AreOf x → Reads x Q (f (a, rest))) : Reads x Q (result >>= f) :=
  Gives.bind h fun r hr => hf r.1 r.2 hr.1 hr.2

theorem Skips.bind {result : Except Fault Tokens} {f : Tokens → Except Fault (β × Tokens)}
    {Q : β → Prop} (h : Skips x result) (hf : ∀ rest, rest.AreOf x → Reads x Q (f rest)) :
    Reads x Q (result >>= f) :=
  Gives.bind h hf

theorem Reads.mono {result : Except Fault (α × Tokens)} {Q : α → Prop} (h : Reads x P result)
    (hPQ : ∀ a, P a → Q a) : Reads x Q result :=
  Gives.mono h fun r hr => ⟨hPQ r.1 hr.1, hr.2⟩

section
variable (h : ts.AreOf x)
include h

theorem checks_head : Checks x (Token.IsOf x) ts.head := by
  cases ts with
  | done pos => exact ⟨h, nofun, nofun, nofun⟩
  | broken fault => exact h
  | next t rest => exact h.1

theorem checks_failAt (cause : Token → Cause) : Checks x P (ts.failAt cause) :=
  (checks_head h).bind fun _ ht => checks_error ht.has

theorem checks_unexpected : Checks x P ts.unexpected := checks_failAt h _

theorem reads_failAt (cause : Token → Cause) : Reads x P (ts.failAt cause) := checks_failAt h cause

theorem reads_unexpected : Reads x P ts.unexpected := checks_failAt h _

theorem skips_punct (p : Punct) : Skips x (ts.punct p) := by
  unfold punct
  split
  · split
    · exact h.2
    · exact checks_unexpected h
  · exact checks_unexpected h

theorem reads_punct? (p : Punct) : Reads x (fun _ => True) (ts.punct? p) := by
  unfold punct?
  split
  · split
    · exact reads_ok trivial h.2
    · exact reads_ok trivial h
  · exact reads_error h
  · exact reads_ok trivial h

theorem reads_ident : Reads x IsIdent ts.ident := by
  unfold ident
  split
  · exact reads_ok (h.1.ident _ rfl) h.2
  · exact reads_unexpected h

end

/-- Items keep a property of all that is read so far. -/
theorem reads_separated {item : Rule (List α) α} {closing : Punct} {seen : List α}
    {Q : List α → Prop} (hitem : ∀ seen ts, Q seen → ts.AreOf x →
      Reads x (fun a => Q (seen ++ [a])) (item.run seen ts))
    (hseen : Q seen) (h : ts.AreOf x) : Reads x Q (separated item closing seen ts) := by
  fun_induction separated item closing seen ts with
  | case1 seen ts fault hi => exact (hitem seen ts hseen h).of_error hi
  | case2 seen ts a after hi fault hc =>
    exact (reads_punct? ((hitem seen ts hseen h).of_ok hi).2 closing).of_error hc
  | case3 seen ts a after hi rest hc =>
    have ha := (hitem seen ts hseen h).of_ok hi
    exact reads_ok ha.1 ((reads_punct? ha.2 closing).of_ok hc).2
  | case4 seen ts a after hi atComma hc fault hk =>
    have ha := (hitem seen ts hseen h).of_ok hi
    exact (skips_punct ((reads_punct? ha.2 closing).of_ok hc).2 .comma).of_error hk
  | case5 seen ts a after hi atComma hc rest hk ih =>
    have ha := (hitem seen ts hseen h).of_ok hi
    exact ih ha.1 ((skips_punct ((reads_punct? ha.2 closing).of_ok hc).2 .comma).of_ok hk)

theorem reads_block {item : Rule σ σ} {closing : Punct} {s : σ} {Q : σ → Prop}
    (hitem : ∀ s ts, Q s → ts.AreOf x → Reads x Q (item.run s ts)) (hs : Q s)
    (h : ts.AreOf x) : Reads x Q (block item closing s ts) := by
  fun_induction block item closing s ts with
  | case1 s ts fault hc => exact (reads_punct? h closing).of_error hc
  | case2 s ts rest hc => exact reads_ok hs ((reads_punct? h closing).of_ok hc).2
  | case3 s ts atItem hc fault hi =>
    exact (hitem s atItem hs ((reads_punct? h closing).of_ok hc).2).of_error hi
  | case4 s ts atItem hc s' rest hi ih =>
    have hs' := (hitem s atItem hs ((reads_punct? h closing).of_ok hc).2).of_ok hi
    exact ih hs'.1 hs'.2

end Tokens
end Bindery
