import Bindery.Annotation.Scan
import Bindery.Proofs.Annotation.Cursor
import Bindery.Proofs.Decl.Sound
import Bindery.Proofs.Text.Lines

/-!
# Where annotations are found

The annotations that a scan finds are written in the host one after the other. Each is on the line
of its macro name, and its declarations are read from a stretch of the host with the positions that
its characters have there.
-/
namespace Bindery
open Text Cursor

namespace Annotation

/-- A macro name and the bracket that opens an annotation. -/
def Opens (m : Macro) (cs : List Char) : Prop :=
  ∃ b c, AreBlank b ∧ AreBlank c ∧ cs = m.name.toList ++ b ++ '(' :: c

variable (src : Source) (front : List Char)

/-- The beginning of an annotation after `front`, from its macro name up to its declarations, which
are the rest of a raw literal, and what the annotation is apart from them. -/
inductive Heads : Annotation → List Char → List Char → List Char → Prop
  | inline {opening delimiter above decls code : List Char} {below : Nat}
      (hopens : Opens .inline opening)
      (hsplit : Fragment.split (above ++ decls) = (code, some (decls, below))) :
      Heads { host := src.host, line := front.count '\n' + 1, code := String.ofList code }
        (opening ++ (rawOpening delimiter ++ above)) delimiter decls
  | included {opening path value b c delimiter decls : List Char} {file : Path}
      (hopens : Opens .included opening) (hpath : quotedFrom '"' path = (value, path.length))
      (hfile : src.include? (String.ofList value) = some file)
      (hb : AreBlank b) (hc : AreBlank c) :
      Heads { host := src.host, line := front.count '\n' + 1, file := some file }
        (opening ++ ('"' :: path ++ (b ++ (',' :: c ++ rawOpening delimiter)))) delimiter decls

/-- How an annotation after `front` is written. -/
inductive IsWritten : List Char → Annotation → Prop
  | inline {opening delimiter body code b : List Char} {below : Option (List Char × Nat)}
      (hopens : Opens .inline opening) (hsplit : Fragment.split body = (code, below))
      (hbelow : ∀ decls ∈ below, decls.1 = []) (hb : AreBlank b) :
      IsWritten (opening ++ (rawOpening delimiter ++ (body ++ rawClosing delimiter)) ++ (b ++ [')']))
        { host := src.host, line := front.count '\n' + 1, code := String.ofList code }
  | included {opening path value b : List Char} {file : Path}
      (hopens : Opens .included opening) (hpath : quotedFrom '"' path = (value, path.length))
      (hfile : src.include? (String.ofList value) = some file) (hb : AreBlank b) :
      IsWritten (opening ++ '"' :: path ++ (b ++ [')']))
        { host := src.host, line := front.count '\n' + 1, file := some file }
  | declared {a : Annotation} {head delimiter decls b : List Char} {ds : Declarations}
      (hhead : Heads src front a head delimiter decls)
      (hparse : parse src decls (Position.start.after (front ++ head)) = .ok ds) (hb : AreBlank b) :
      IsWritten (head ++ (decls ++ rawClosing delimiter) ++ (b ++ [')'])) { a with decls := ds }

/-- The annotations that are written in a text after `front`, in their order. -/
inductive AreIn : List Char → List Char → List Annotation → Prop
  | nil {front cs : List Char} : AreIn front cs []
  | skip {front gap cs : List Char} {as : List Annotation} (h : AreIn (front ++ gap) cs as) :
      AreIn front (gap ++ cs) as
  | found {front written cs : List Char} {a : Annotation} {as : List Annotation}
      (ha : IsWritten src front written a) (h : AreIn (front ++ written) cs as) :
      AreIn front (written ++ cs) (a :: as)

/-- An annotation begins with declarations that cannot be read. -/
def IsRefused (cs : List Char) (e : SyntaxError) : Prop :=
  ∃ a head delimiter decls rest, Heads src front a head delimiter decls ∧
    cs = head ++ (decls ++ rawClosing delimiter) ++ rest ∧
    parse src decls (Position.start.after (front ++ head)) = .error (.declaration e)

/-! ### Arguments -/

/-- What a reader of arguments gives: a failure of a text with refused declarations, or the next
cursor, with an annotation if one is written between. -/
def GivesFound (c : Cursor) (result : Except Failure (Option Annotation × Cursor)) : Prop :=
  Gives (fun f => ∀ e, f = .declaration e → IsRefused src front c.rest e)
    (fun r => ∃ cs, c.Passes cs r.2 ∧ ∀ a ∈ r.1, IsWritten src front cs a) result

variable {src front} {c c₁ : Cursor} {opening delimiter cs : List Char}

theorem gives_fault {α : Type} {E : Failure → Prop} {P : α → Prop} {pos : Position}
    {cause : HostCause} (hE : ∀ file pos cause, E (.host file pos cause)) :
    Gives E P (fault src pos cause) :=
  hE _ _ _

theorem gives_closing {E : Failure → Prop} {m : Macro}
    (hE : ∀ file pos cause, E (.host file pos cause)) :
    Gives E (fun c' => ∃ b, AreBlank b ∧ c.Passes (b ++ [')']) c') (closing src m c) := by
  unfold closing
  split
  · rename_i hpeek
    obtain ⟨b, hb, hpass⟩ := c.passes_skipBlanks
    exact ⟨b, hb, hpass.trans (passes_peek hpeek)⟩
  · exact gives_fault hE

theorem line_of_pos (h : c.pos = Position.start.after front) : c.pos.line = front.count '\n' + 1 := by
  rw [h, Position.line_after]
  exact Int.add_comm _ _

/-- Declarations below a rule are read where they stand. -/
theorem gives_ofFragment {body : List Char} {p : Position} (hopens : Opens .inline opening)
    (hc : c.pos = Position.start.after front)
    (hp : p = Position.start.after (front ++ opening ++ rawOpening delimiter)) :
    Gives
      (fun f => ∀ e, f = .declaration e →
        ∀ rest, IsRefused src front
          (opening ++ (rawOpening delimiter ++ (body ++ rawClosing delimiter)) ++ rest) e)
      (fun a => ∀ b, AreBlank b → IsWritten src front
        (opening ++ (rawOpening delimiter ++ (body ++ rawClosing delimiter)) ++ (b ++ [')'])) a)
      (ofFragment src c.pos body p.line) := by
  unfold ofFragment
  rw [line_of_pos hc]
  split
  · rename_i code hsplit
    exact fun b hb => .inline hopens hsplit nofun hb
  · rename_i code decls below hsplit
    split
    · rename_i hnil
      refine fun b hb => .inline hopens hsplit ?_ hb
      rintro _ ⟨⟩
      exact hnil
    · rename_i hne
      obtain ⟨above, rfl, hbelow⟩ := Fragment.split_eq_some hsplit hne
      have hpos : (⟨p.line + below, 1⟩ : Position) =
          Position.start.after (front ++ (opening ++ (rawOpening delimiter ++ (above ++ ['\n'])))) := by
        simp only [← List.append_assoc]
        rw [Position.after_append _ _ ['\n'], Position.after_append _ _ above, ← hp,
          ← Position.after_append, Position.after_line, ← hbelow]
        simp [Int.add_assoc]
      have hhead : Heads src front _ _ delimiter _ := .inline hopens hsplit
      rw [hpos]
      cases hparse : parse src decls _ with
      | ok ds =>
        intro b hb
        have := IsWritten.declared hhead hparse hb
        simpa using this
      | error f =>
        rintro e rfl rest
        exact ⟨_, _, _, _, rest, hhead, by simp, hparse⟩

/-- A fault of the host refuses no declarations. -/
theorem isRefused_of_host (file : String) (pos : Position) (cause : HostCause) (e : SyntaxError)
    (h : Failure.host file pos cause = .declaration e) : IsRefused src front cs e := by
  cases h

theorem givesFound_host {file : String} {pos : Position} {cause : HostCause} :
    GivesFound src front c (.error (.host file pos cause)) :=
  isRefused_of_host file pos cause

theorem givesFound_none (hpass : c.Passes cs c₁) : GivesFound src front c (.ok (none, c₁)) :=
  ⟨cs, hpass, nofun⟩

theorem givesFound_inlineArgs (hopens : Opens .inline opening) (hpass : c.Passes opening c₁)
    (hc : c.pos = Position.start.after front) :
    GivesFound src front c (inlineArgs src c.pos c₁) := by
  unfold inlineArgs
  split
  · exact givesFound_none hpass
  · rename_i hat
    split
    · exact givesFound_host
    · rename_i raw hraw
      obtain ⟨d, opened, hopened, hpos, hbody⟩ := passes_rawText (by simpa using hat) hraw
      have hall := (hpass.trans hopened).trans hbody
      have hfragment : Gives _ _ (ofFragment src c.pos raw.body raw.pos.line) :=
        gives_ofFragment hopens hc
          (hpos.symm.trans (((hpass.trans hopened).after hc).trans (by rw [List.append_assoc])))
      have happend : opening ++ rawOpening d ++ (raw.body ++ rawClosing d) =
          opening ++ (rawOpening d ++ (raw.body ++ rawClosing d)) := List.append_assoc ..
      rw [happend] at hall
      refine Gives.bind (P := fun a => ∀ b, AreBlank b → IsWritten src front
        (opening ++ (rawOpening d ++ (raw.body ++ rawClosing d)) ++ (b ++ [')'])) a) ?_ ?_
      · refine Gives.of_forall (fun a ha => hfragment.of_ok ha) fun f hf e he => ?_
        rw [hall.rest]
        exact hfragment.of_error hf e he _
      · intro a ha
        refine Gives.bind (gives_closing isRefused_of_host) fun c' hc' => ?_
        obtain ⟨b, hb, hclose⟩ := hc'
        refine ⟨_, hall.trans hclose, ?_⟩
        rintro _ ⟨⟩
        exact ha b hb

/-- Declarations of an included file are read where they stand. -/
theorem gives_includedDecls {path value b : List Char} {file : Path}
    (hopens : Opens .included opening) (hpath : quotedFrom '"' path = (value, path.length))
    (hfile : src.include? (String.ofList value) = some file) (hb : AreBlank b)
    (hpass : c.Passes (opening ++ '"' :: path ++ b) c₁)
    (hc : c.pos = Position.start.after front) :
    Gives (fun f => ∀ e, f = .declaration e → IsRefused src front c.rest e)
      (fun r => r = ({}, c₁) ∨ ∃ head d decls, Heads src front
          { host := src.host, line := front.count '\n' + 1, file := some file } head d decls ∧
        parse src decls (Position.start.after (front ++ head)) = .ok r.1 ∧
        c.Passes (head ++ (decls ++ rawClosing d)) r.2) (includedDecls src c₁) := by
  simp only [includedDecls]
  split
  · exact .inl rfl
  · rename_i hcomma
    obtain ⟨b', hb', hblank⟩ := (c₁.advance 1).passes_skipBlanks
    split
    · exact gives_fault isRefused_of_host
    · rename_i hat
      split
      · exact gives_fault isRefused_of_host
      · rename_i raw hraw
        obtain ⟨d, opened, hopened, hpos, hbody⟩ := passes_rawText (by simpa using hat) hraw
        have hhead : Heads src front _ _ d raw.body := .included hopens hpath hfile hb hb'
        have hbefore : c.Passes
            (opening ++ ('"' :: path ++ (b ++ (',' :: b' ++ rawOpening d)))) opened := by
          have := hpass.trans ((passes_peek (not_not.1 hcomma)).trans (hblank.trans hopened))
          simpa using this
        rw [← hpos, hbefore.after hc]
        cases hparse : parse src raw.body _ with
        | ok ds => exact .inr ⟨_, _, _, hhead, hparse, hbefore.trans hbody⟩
        | error f =>
          rintro e rfl
          exact ⟨_, _, _, _, _, hhead, (hbefore.trans hbody).rest, hparse⟩

theorem givesFound_includedArgs (hopens : Opens .included opening) (hpass : c.Passes opening c₁)
    (hc : c.pos = Position.start.after front) :
    GivesFound src front c (includedArgs src c.pos c₁) := by
  simp only [includedArgs]
  split
  · exact givesFound_none hpass
  · rename_i hquote
    split
    · exact givesFound_host
    · rename_i file hfile
      obtain ⟨path, hpath, hvalue⟩ := passes_quoted (not_not.1 hquote)
      obtain ⟨b, hb, hblank⟩ := (c₁.quoted '"').2.passes_skipBlanks
      have hall := (hpass.trans hpath).trans hblank
      refine Gives.bind (gives_includedDecls hopens hvalue hfile hb hall hc) fun r hr => ?_
      refine Gives.bind (gives_closing isRefused_of_host) fun c' hc' => ?_
      obtain ⟨b', hb', hclose⟩ := hc'
      rw [line_of_pos hc]
      rcases hr with rfl | ⟨head, d, decls, hhead, hparse, hdecls⟩
      · refine ⟨_, hall.trans hclose, ?_⟩
        rintro _ ⟨⟩
        have hblanks : AreBlank (b ++ b') := fun x hx =>
          (List.mem_append.1 hx).elim (hb x) (hb' x)
        have : IsWritten src front _ _ := .included hopens hvalue hfile hblanks
        simpa using this
      · refine ⟨_, hdecls.trans hclose, ?_⟩
        rintro _ ⟨⟩
        exact .declared hhead hparse hb'

theorem givesFound_args {m : Macro} (hpass : c.Passes m.name.toList c₁)
    (hc : c.pos = Position.start.after front) : GivesFound src front c (args src m c.pos c₁) := by
  obtain ⟨b, hb, hblank⟩ := c₁.passes_skipBlanks
  simp only [args]
  split
  · exact givesFound_none (hpass.trans hblank)
  · rename_i hopen
    obtain ⟨b', hb', hblank'⟩ := (c₁.skipBlanks.advance 1).passes_skipBlanks
    have hall := (hpass.trans hblank).trans ((passes_peek (not_not.1 hopen)).trans hblank')
    have hopens : Opens m (m.name.toList ++ b ++ ('(' :: b')) := ⟨b, b', hb, hb', rfl⟩
    cases m with
    | inline => exact givesFound_inlineArgs hopens hall hc
    | included => exact givesFound_includedArgs hopens hall hc

/-! ### The scan -/

theorem eq_name_of_ofName? {s : String} {m : Macro} (h : Macro.ofName? s = some m) : s = m.name := by
  unfold Macro.ofName? at h
  split at h
  · cases h; assumption
  · split at h
    · cases h; assumption
    · cases h

theorem givesFound_step (hc : c.pos = Position.start.after front) :
    GivesFound src front c (step src c) := by
  simp only [step]
  split
  · exact givesFound_none (passes_skipWhile _)
  · split
    · obtain ⟨cs, hpass⟩ := c.passes_skipBlockComment
      exact givesFound_none hpass
    · split
      · rename_i hat
        have hencoding := c.passes_advance (encodingLength c)
        split
        · rename_i raw hraw
          obtain ⟨d, opened, hopened, -, hbody⟩ := passes_rawText hat hraw
          exact givesFound_none (hencoding.trans (hopened.trans hbody))
        · exact givesFound_none (hencoding.trans (passes_advance 2))
      · split
        · exact givesFound_none .refl
        · rename_i x hx
          split
          · obtain ⟨cs, hpass, -⟩ := passes_quoted hx
            exact givesFound_none hpass
          · split
            · exact givesFound_none (passes_advance 1)
            · have hword := c.passes_skipWhile isNameChar
              split
              · exact givesFound_none hword
              · rename_i m hm
                have hname := congrArg String.toList (eq_name_of_ofName? hm)
                rw [String.toList_ofList] at hname
                exact givesFound_args (hname ▸ hword) hc

/-- What a scan finds is written in the host, and refused declarations are at the end of it. -/
theorem areIn_scan (hc : c.pos = Position.start.after front) :
    AreIn src front c.rest (scan src c).1 ∧
      ∀ e, (scan src c).2 = some (.declaration e) →
        ∃ gap cs, c.rest = gap ++ cs ∧ IsRefused src (front ++ gap) cs e := by
  fun_induction scan src c generalizing front with
  | case1 => exact ⟨.nil, nofun⟩
  | case2 c hne f hstep =>
    refine ⟨.nil, ?_⟩
    rintro e ⟨⟩
    have hgives : GivesFound src front c (step src c) := givesFound_step hc
    have hrefused := hgives.of_error hstep e rfl
    exact ⟨[], c.rest, rfl, by rwa [List.append_nil]⟩
  | case3 c hne found c' hstep ih =>
    have hgives : GivesFound src front c (step src c) := givesFound_step hc
    obtain ⟨cs, hpass, hfound⟩ := hgives.of_ok hstep
    obtain ⟨hin, hrefused⟩ := ih (hpass.after hc)
    rw [hpass.rest]
    refine ⟨?_, fun e he => ?_⟩
    · cases found with
      | none => exact .skip hin
      | some a => exact .found (hfound a rfl) hin
    · obtain ⟨gap, rest, hrest, he⟩ := hrefused e he
      refine ⟨cs ++ gap, rest, by rw [hrest, List.append_assoc], ?_⟩
      rwa [List.append_assoc] at he

end Annotation
end Bindery
