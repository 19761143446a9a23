import Bindery.Proofs.Decl.Placement
import Bindery.Proofs.Reader.Type
import Bindery.Reader.Decl

/-!
# Parameters and attributes are read to their end

Parameters, return types and attributes run as the rules on streams do, and so do the readers of
their own that a binding starts.
-/
namespace Bindery.Tokens
variable {ts : Tokens}

theorem failAt_of_head {α : Type} {cause : Token → Cause} {t : Token} (hhead : ts.head = .ok t) :
    (ts.failAt cause : Except Fault α) = .error ⟨t.pos, cause t⟩ := by
  unfold failAt
  rw [hhead]
  rfl

theorem param?_of_head {scope : List String} {fault : Fault} (hhead : ts.head = .error fault) :
    ts.param? scope = .error fault := by
  unfold param?
  rw [hhead]
  rfl

theorem argValue_of_ne {key : Option String} {p : Position} {cause : Token → Cause}
    (hno : ∀ t, ts.head = .ok t → t.lexeme.quoted? = none) :
    ts.argValue key p cause =
      match ts.type? [] with
      | .error fault => .error fault
      | .ok (none, _) => ts.failAt cause
      | .ok (some t, rest) => .ok (⟨key, t.render, false, p⟩, rest) := by
  match ts, hno with
  | done _, _ | broken _, _ => rfl
  | next ⟨l, _⟩ _, hno =>
    cases l with
    | quoted value => cases hno _ rfl
    | _ => rfl

/-- An argument with a key, if the tokens begin with one. -/
def keyedArg? : Tokens → Except Fault (Option AttributeArg × Tokens)
  | next ⟨.ident key, pos⟩ (next ⟨.punct .assign, _⟩ value) => do
    let (arg, rest) ← value.argValue (some key) pos fun _ => .expectedValue key
    .ok (some arg, rest)
  | next ⟨.ident _, _⟩ (broken fault) => .error fault
  | broken fault => .error fault
  | ts => .ok (none, ts)

/-- An argument without a key. -/
def plainArg (ts : Tokens) : Except Fault (AttributeArg × Tokens) := do
  let first ← ts.head
  ts.argValue none first.pos fun t => .unexpected t.lexeme.describe

theorem attributeArg_eq (ts : Tokens) : ts.attributeArg = (do
    match ← ts.keyedArg? with
    | (some arg, ts) => .ok (arg, ts)
    | (none, ts) => ts.plainArg) := by
  match ts with
  | done _ | broken _ => rfl
  | next ⟨.ident key, p⟩ (done _) | next ⟨.ident key, p⟩ (broken _) => rfl
  | next ⟨.ident key, p⟩ (next ⟨l, q⟩ rest) =>
    cases l with
    | punct mark =>
      cases mark with
      | assign =>
        change rest.argValue _ _ _ = (rest.argValue _ _ _ >>= _) >>= _
        cases rest.argValue (some key) p fun _ => .expectedValue key <;> rfl
      | _ => rfl
    | _ => rfl
  | next ⟨.number _, _⟩ _ | next ⟨.quoted _, _⟩ _ | next ⟨.scalar _, _⟩ _
  | next ⟨.keyword _, _⟩ _ | next ⟨.punct _, _⟩ _ | next ⟨.eof, _⟩ _ => rfl

/-- One or more groups of attributes, if one begins here. -/
def attributes? (seen : List Attribute) (ts : Tokens) :
    Except Fault (Option (List Attribute) × Tokens) := do
  let (found, ts) ← ts.punct? .squareOpen
  if found then
    let (seen, ts) ← separated attributeGroup .squareClose seen ts
    let (all, ts) ← ts.attributes seen
    .ok (some all, ts)
  else .ok (none, ts)

theorem attributes_eq_getD (seen : List Attribute) (ts : Tokens) :
    ts.attributes seen = (ts.attributes? seen >>= fun r => .ok (r.1.getD seen, r.2)) := by
  rw [attributes_eq, attributes?]
  match ts.punct? .squareOpen with
  | .error _ | .ok (false, _) => rfl
  | .ok (true, inner) =>
    match hs : separated attributeGroup .squareClose seen inner with
    | .error _ => simp [bind, Except.bind, hs]
    | .ok (seen, rest) =>
      simp only [bind, Except.bind, hs]
      cases rest.attributes seen <;> rfl

end Bindery.Tokens

namespace Bindery.Reader
variable {s : ReadState} {ts rest : Tokens}

section
variable {scope : List String}

/-! ### Parameters -/

theorem tries_param (h : s.At 0 ts) : Tries (param scope) s (ts.param? scope) := by
  unfold param
  match ts, h with
  | .done _, h => exact runs_peek h rfl fun s h => runs_pure h nofun
  | .broken _, h => exact runs_peek_fault h rfl
  | .next ⟨.ident name, p⟩ (.done _), h =>
    exact runs_peek h rfl fun s h => runs_peek h rfl fun s h => runs_pure h nofun
  | .next ⟨.ident name, p⟩ (.broken fault), h =>
    exact runs_peek h rfl fun s h => runs_peek_fault h rfl
  | .next ⟨.ident name, p⟩ (.next ⟨l, q⟩ rest), h =>
    refine runs_peek h rfl fun s h => runs_peek h rfl fun s h => ?_
    by_cases hl : l = .punct .colon
    · subst l
      refine runs_flush h fun s h => ?_
      refine (reads_check h (tries_type h)).bind fun found rest s _ h => ?_
      cases found with
      | some t => exact runs_pure h fun _ => rfl
      | none => exact reads_failHere h
    · have hnone : (Tokens.next ⟨.ident name, p⟩ (.next ⟨l, q⟩ rest)).param? scope =
          .ok (none, .next ⟨.ident name, p⟩ (.next ⟨l, q⟩ rest)) := by
        simp [Tokens.param?, Tokens.head, bind, Except.bind, hl]
      rw [hnone]
      simp only [if_neg hl]
      exact runs_pure h nofun
  | .next ⟨.number _, _⟩ _, h | .next ⟨.quoted _, _⟩ _, h | .next ⟨.scalar _, _⟩ _, h
  | .next ⟨.keyword _, _⟩ _, h | .next ⟨.punct _, _⟩ _, h | .next ⟨.eof, _⟩ _, h =>
    exact runs_peek h rfl fun s h => runs_pure h nofun

theorem reads_newParam (seen : List Param) (h : s.At 0 ts) :
    Reads (newParam scope seen) s (ts.newParam scope seen) := by
  unfold newParam Tokens.newParam
  cases hhead : ts.head with
  | error fault =>
    rw [Tokens.param?_of_head hhead]
    exact runs_peek_fault h hhead
  | ok t =>
    refine runs_peek h hhead fun s h => runs_putBack h fun s h => ?_
    have hparam : Reads (check (param scope)) s (ts.param? scope) := reads_check h (tries_param h)
    match ts.param? scope, hparam with
    | .error _, hparam => exact Reads.stop hparam
    | .ok (none, rest), hparam =>
      refine Reads.then hparam fun s h => ?_
      simp only [Tokens.failAt_of_head hhead]
      exact runs_throwAt
    | .ok (some p, rest), hparam =>
      refine Reads.then hparam fun s h => ?_
      simp only [Tokens.failAt_of_head hhead]
      split
      · exact runs_throwAt
      · exact runs_pure h rfl

theorem reads_params (h : s.At 0 ts) : Reads (params scope false) s (ts.paramList scope) := by
  refine (reads_punct? h).bind fun found rest s _ h => ?_
  cases found with
  | true => exact runs_pure h rfl
  | false => exact reads_separated (fun seen ts s h => reads_newParam seen h) [] h

theorem reads_moreParams (h : s.At 0 ts) : Reads (params scope true) s (ts.moreParams scope) := by
  refine (reads_punct? h).bind fun found rest s _ h => ?_
  cases found with
  | true => exact runs_pure h rfl
  | false =>
    refine runs_punct h fun rest s _ h => ?_
    exact reads_separated (fun seen ts s h => reads_newParam seen h) [] h

theorem reads_returnType (h : s.At 0 ts) : Reads (returnType scope) s (ts.returnType scope) := by
  unfold returnType Tokens.returnType
  refine (reads_punct? h).bind fun found rest s _ h => ?_
  cases found with
  | false => exact runs_pure h rfl
  | true =>
    refine (reads_check h (tries_type h)).bind fun found rest s _ h => ?_
    cases found with
    | some t => exact runs_pure h rfl
    | none => exact reads_failHere h

end

/-! ### Attributes -/

/-- A type as the value of an argument. -/
theorem runs_argType {α : Type} {final : α → Nat → Prop} {f : AttributeArg → α}
    {key : Option String} {p : Position} {cause : Token → Cause} {t : Token} (h : s.At 0 ts)
    (hhead : ts.head = .ok t) (hquoted : t.lexeme.quoted? = none) (hfinal : ∀ a, final (f a) 0) :
    Runs final (do
        match ← check (type []) with
        | some ty => return f ⟨key, ty.render, false, p⟩
        | none => throwAt t.pos (cause t)) s
      (ts.argValue key p cause >>= fun r => .ok (f r.1, r.2)) := by
  rw [Tokens.argValue_of_ne fun u hu => by rw [hhead] at hu; cases hu; exact hquoted]
  have htype : Reads (check (type [])) s (ts.type? []) := reads_check h (tries_type h)
  match ts.type? [], htype with
  | .error _, htype => exact Reads.stop htype
  | .ok (none, rest), htype =>
    refine Reads.then htype fun s h => ?_
    rw [Tokens.failAt_of_head hhead]
    exact runs_throwAt
  | .ok (some ty, rest), htype => exact Reads.then htype fun s h => runs_pure h (hfinal _)

theorem tries_keyedArg (h : s.At 0 ts) : Tries keyedArg s ts.keyedArg? := by
  unfold keyedArg
  match ts, h with
  | .done _, h => exact runs_peek h rfl fun s h => runs_pure h nofun
  | .broken _, h => exact runs_peek_fault h rfl
  | .next ⟨.ident _, _⟩ (.done _), h =>
    exact runs_peek h rfl fun s h => runs_peek h rfl fun s h => runs_pure h nofun
  | .next ⟨.ident _, _⟩ (.broken _), h =>
    exact runs_peek h rfl fun s h => runs_peek_fault h rfl
  | .next ⟨.ident key, p⟩ (.next ⟨l, q⟩ rest), h =>
    refine runs_peek h rfl fun s h => runs_peek h rfl fun s h => ?_
    by_cases hl : l = .punct .assign
    · subst l
      refine runs_flush h fun s h => ?_
      change Tries _ s (rest.argValue _ _ _ >>= _)
      cases hhead : rest.head with
      | error fault =>
        obtain rfl := Tokens.eq_broken hhead
        exact runs_peek_fault h rfl
      | ok value =>
        refine runs_peek h hhead fun s h => ?_
        obtain ⟨m, r⟩ := value
        cases m with
        | quoted text =>
          obtain ⟨rest, rfl⟩ := Tokens.exists_next hhead nofun
          exact runs_flush h fun s h => runs_pure h fun _ => rfl
        | _ => exact runs_putBack h fun s h => runs_argType h hhead rfl fun _ _ => rfl
    · have hnone : (Tokens.next ⟨.ident key, p⟩ (.next ⟨l, q⟩ rest)).keyedArg? =
          .ok (none, .next ⟨.ident key, p⟩ (.next ⟨l, q⟩ rest)) := by
        simp [Tokens.keyedArg?, hl]
      rw [hnone]
      simp only [if_neg hl]
      exact runs_pure h nofun
  | .next ⟨.number _, _⟩ _, h | .next ⟨.quoted _, _⟩ _, h | .next ⟨.scalar _, _⟩ _, h
  | .next ⟨.keyword _, _⟩ _, h | .next ⟨.punct _, _⟩ _, h | .next ⟨.eof, _⟩ _, h =>
    exact runs_peek h rfl fun s h => runs_pure h nofun

theorem reads_plainArg (h : s.At 0 ts) : Reads plainArg s ts.plainArg := by
  unfold plainArg Tokens.plainArg
  cases hhead : ts.head with
  | error fault => exact runs_peek_fault h hhead
  | ok first =>
    refine runs_peek h hhead fun s h => runs_putBack h fun s h => ?_
    obtain ⟨l, p⟩ := first
    cases l with
    | quoted text =>
      obtain ⟨rest, rfl⟩ := Tokens.exists_next hhead nofun
      exact runs_take h rfl rfl fun s h => runs_pure h rfl
    | _ =>
      change Reads _ s (ts.argValue none p fun t => .unexpected t.lexeme.describe)
      rw [← bind_pure (ts.argValue _ _ _)]
      exact runs_argType (f := id) h hhead rfl fun _ => rfl

theorem reads_attributeArg (h : s.At 0 ts) : Reads attributeArg s ts.attributeArg := by
  rw [Tokens.attributeArg_eq]
  refine (reads_check h (tries_keyedArg h)).bind fun found rest s _ h => ?_
  cases found with
  | some arg => exact runs_pure h rfl
  | none => exact reads_plainArg h

theorem reads_argList (h : s.At 0 ts) : Reads argList s ts.argList := by
  refine (reads_punct? h).bind fun found rest s _ h => ?_
  cases found with
  | false => exact runs_pure h rfl
  | true =>
    refine (reads_punct? h).bind fun found rest s _ h => ?_
    cases found with
    | true => exact runs_pure h rfl
    | false => exact reads_separated (fun _ _ _ h => reads_attributeArg h) [] h

theorem reads_oneAttribute (h : s.At 0 ts) : Reads oneAttribute s ts.oneAttribute := by
  match ts, h with
  | .next ⟨.ident name, p⟩ rest, h =>
    refine runs_take h rfl rfl fun s h => ?_
    exact (reads_argList h).bind fun args rest s _ h => runs_pure h rfl
  | .broken _, h => exact runs_take_unexpected h nofun
  | .done _, h => exact runs_take_unexpected h fun t ht => by cases ht; rfl
  | .next ⟨.number _, _⟩ _, h | .next ⟨.quoted _, _⟩ _, h | .next ⟨.scalar _, _⟩ _, h
  | .next ⟨.keyword _, _⟩ _, h | .next ⟨.punct _, _⟩ _, h | .next ⟨.eof, _⟩ _, h =>
    exact runs_take_unexpected h fun t ht => by cases ht; rfl

theorem tries_attributes (seen : List Attribute) {ts : Tokens} {s : ReadState} (h : s.At 0 ts) :
    Tries (attributes seen) s (ts.attributes? seen) := by
  rw [attributes]
  refine tries_mark (g := fun ts => Tokens.separated Tokens.attributeGroup .squareClose seen ts >>=
    fun r => r.2.attributes r.1 >>= fun r => .ok (some r.1, r.2)) h fun inner s hmark h => ?_
  refine (reads_separated (fun _ _ _ h => reads_oneAttribute h) seen h).bind
    fun attrs rest s hgroup h => ?_
  have hmore : Tries (attributes attrs) s (rest.attributes? attrs) := tries_attributes attrs h
  change Tries _ s (rest.attributes attrs >>= _)
  rw [← check_bind, Tokens.attributes_eq_getD, bind_assoc]
  refine (reads_check h hmore).bind fun found rest s _ h => ?_
  cases found with
  | some all => exact runs_pure h fun _ => rfl
  | none => exact runs_pure h fun _ => rfl
termination_by ts.length
decreasing_by
  have := Tokens.punct?_length hmark
  have := Tokens.separated_length hgroup
  omega

/-! ### What attributes tell -/

section
variable {α β : Type}

theorem lift_bind (x : Except Fault α) (f : α → Except Fault β) :
    lift (x >>= f) = lift x >>= fun a => lift (f a) := by
  cases x <;> rfl

/-- A step that reads nothing. -/
theorem runs_lift {final : β → Nat → Prop} {f : α → Reader β} {x : Except Fault α}
    {g : α → Except Fault (β × Tokens)} (hf : ∀ a, Runs final (f a) s (g a)) :
    Runs final (lift x >>= f) s (x >>= g) := by
  cases x with
  | error fault => exact runs_throw
  | ok a => exact hf a

end

theorem lowReturn_eq (scope : List String) (b : Binding) (arg : AttributeArg) :
    lowReturn scope b arg = lift (b.set scope arg "c_ret") := by
  unfold lowReturn Binding.set
  rw [parseType_eq]
  cases Ty.parse arg.value scope <;> rfl

theorem binding_eq (scope : List String) (b : Binding) (used : List String)
    (args : List AttributeArg) :
    binding scope b used args = lift (Binding.ofArgs scope b used args) := by
  induction args generalizing b used with
  | nil => rfl
  | cons arg args ih =>
    obtain ⟨key, value, isQuoted, p⟩ := arg
    cases key with
    | none => rfl
    | some key =>
      rw [binding, Binding.ofArgs]
      by_cases hused : key ∈ used
      · simp only [if_pos hused]
        rfl
      · simp only [if_neg hused, lift_bind]
        by_cases hlow : key = "c_ret"
        · subst key
          simp only [lowReturn_eq, ih, if_true]
        · simp only [if_neg hlow, ih]

theorem addAttribute_eq (f : Signature) (a : Attribute) :
    addAttribute f a = lift (f.addAttribute a) := by
  unfold addAttribute
  split
  · rename_i h
    obtain ⟨hname, hnone⟩ := h
    rw [binding_eq]
    unfold Signature.addAttribute
    rw [hname, hnone]
    simp only [lift_bind]
    rfl
  · rfl

theorem addAttributes_eq (f : Signature) (attrs : List Attribute) :
    addAttributes f attrs = lift (f.addAttributes attrs) := by
  induction attrs generalizing f with
  | nil => rfl
  | cons a attrs ih =>
    rw [addAttributes, Signature.addAttributes, addAttribute_eq, lift_bind]
    simp only [ih]

end Bindery.Reader
