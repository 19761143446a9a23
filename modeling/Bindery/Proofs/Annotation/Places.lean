import Bindery.Proofs.Annotation.Found
import Bindery.Proofs.World.Act
import Bindery.Sources

/-!
# The places that a scan reports

For a host that is short enough for 32-bit numbers, the line of an annotation is the line of its
macro name, the position of a declaration is the line and the column of its keyword in the host,
and a refused declaration text is reported at the line and the column of a character of it or of
what follows its last one.
-/
namespace Bindery
open Text

/-- A word stands in a text at a line and a column. -/
def Text.ShowsAt (text : List Char) (at_ : Nat × Nat) (word : String) : Prop :=
  ∃ before rest, text = before ++ (word.toList ++ rest) ∧ at_ = place before

/-- Declarations with the lines and the columns of their keywords in a text. -/
structure Declarations.StandAt (text : List Char) (ds : Declarations) : Prop where
  functions : ∀ f ∈ ds.functions, ShowsAt text f.pos.words f.keyword.spelling
  records : ∀ r ∈ ds.records, ShowsAt text r.pos.words Keyword.struct.spelling
  enums : ∀ e ∈ ds.enums, ShowsAt text e.pos.words Keyword.enum.spelling
  handles : ∀ d ∈ ds.handles, ShowsAt text d.pos.words Keyword.handle.spelling

namespace Passage
variable {text : List Char} {x : Passage} {q : Position} {word : String}

theorem Shows.showsAt (h : x.Shows word q) (hx : x.IsWithin ⟨.start, text⟩)
    (hlen : text.length < 2147483648) : ShowsAt text q.words word := by
  obtain ⟨before, rest, htext, hq⟩ := h.mono hx
  dsimp only at htext hq
  refine ⟨before, rest, htext, ?_⟩
  rw [hq, Position.words_after]
  rw [htext, List.length_append] at hlen
  omega

end Passage

namespace Declarations
variable {text : List Char} {x : Passage} {ds : Declarations}

theorem StandIn.standAt (h : ds.StandIn x) (hx : x.IsWithin ⟨.start, text⟩)
    (hlen : text.length < 2147483648) : ds.StandAt text where
  functions f hf := (h.functions f hf).showsAt hx hlen
  records r hr := (h.records r hr).showsAt hx hlen
  enums e he := (h.enums e he).showsAt hx hlen
  handles d hd := (h.handles d hd).showsAt hx hlen

theorem standAt_empty : Declarations.StandAt text {} := ⟨nofun, nofun, nofun, nofun⟩

end Declarations

namespace Annotation
variable {src : Source} {front cs written text head delimiter decls rest : List Char}
  {a : Annotation} {as : List Annotation} {p : Position} {ds : Declarations} {e : SyntaxError}

theorem areSoundIn_of_parse (h : parse src decls p = .ok ds) :
    Tokens.AreSoundIn ⟨p, decls⟩ ds := by
  unfold parse at h
  cases hparse : Declarations.parse (String.ofList decls) src.host.text p with
  | error e =>
    rw [hparse] at h
    cases h
  | ok ds' =>
    rw [hparse] at h
    cases h
    have := Declarations.areSoundIn_of_parse hparse
    rwa [String.toList_ofList] at this

/-- Declarations below a rule are read from the line after it. -/
theorem ofFragment_declared {at_ : Position} {body code : List Char} {line : Int} {n : Nat}
    (h : Fragment.split body = (code, some (decls, n))) (hne : decls ≠ []) :
    ofFragment src at_ body line = (parse src decls ⟨line + n, 1⟩).map fun ds =>
      { host := src.host, line := at_.line, code := String.ofList code, decls := ds } := by
  unfold ofFragment
  rw [h]
  dsimp only
  rw [if_neg hne]
  cases parse src decls ⟨line + n, 1⟩ <;> rfl

theorem has_of_parse (h : parse src decls p = .error (.declaration e)) :
    (⟨p, decls⟩ : Passage).Has e.fault.pos := by
  unfold parse at h
  cases hparse : Declarations.parse (String.ofList decls) src.host.text p with
  | error e' =>
    rw [hparse] at h
    cases h
    have := Declarations.has_of_parse hparse
    rwa [String.toList_ofList] at this
  | ok ds' =>
    rw [hparse] at h
    cases h

theorem Heads.kind_prefix (h : Heads src front a head delimiter decls) :
    a.kind.name.toList <+: head ∧ a.line = (place front).1 := by
  cases h with
  | inline hopens _ =>
    obtain ⟨b, c, -, -, rfl⟩ := hopens
    exact ⟨⟨_, by simp only [kind, List.append_assoc]; rfl⟩, rfl⟩
  | included hopens _ _ _ _ =>
    obtain ⟨b, c, -, -, rfl⟩ := hopens
    exact ⟨⟨_, by simp only [kind, List.append_assoc]; rfl⟩, rfl⟩

/-- An annotation begins with its macro name, which tells its line. -/
theorem IsWritten.kind_prefix (h : IsWritten src front written a) :
    a.kind.name.toList <+: written ∧ a.line = (place front).1 := by
  cases h with
  | inline hopens _ _ _ =>
    obtain ⟨b, c, -, -, rfl⟩ := hopens
    exact ⟨⟨_, by simp only [kind, List.append_assoc]; rfl⟩, rfl⟩
  | included hopens _ _ _ =>
    obtain ⟨b, c, -, -, rfl⟩ := hopens
    exact ⟨⟨_, by simp only [kind, List.append_assoc]; rfl⟩, rfl⟩
  | declared hhead _ _ =>
    obtain ⟨hname, hline⟩ := hhead.kind_prefix
    exact ⟨hname.trans ((List.prefix_append _ _).trans (List.prefix_append _ _)), hline⟩

theorem IsWritten.standAt (h : IsWritten src front written a) (htext : text = front ++ (written ++ rest))
    (hlen : text.length < 2147483648) : a.decls.StandAt text := by
  cases h with
  | inline | included => exact Declarations.standAt_empty
  | declared hhead hparse hb =>
    refine (areSoundIn_of_parse hparse).2.standAt ?_ hlen
    exact ⟨front ++ _, _, by rw [htext]; simp only [List.append_assoc]; rfl, rfl⟩

/-- The declarations of an annotation have passed the checks of the reader. -/
theorem IsWritten.isSound (h : IsWritten src front written a) : a.decls.IsSound := by
  cases h with
  | inline | included => exact Declarations.isSound_empty
  | declared _ hparse _ => exact (areSoundIn_of_parse hparse).1

theorem AreIn.exists_written (h : AreIn src front cs as) (ha : a ∈ as) :
    ∃ before written rest, front ++ cs = before ++ (written ++ rest) ∧
      IsWritten src before written a := by
  induction h with
  | nil => cases ha
  | skip h ih =>
    obtain ⟨before, written, rest, heq, hw⟩ := ih ha
    exact ⟨before, written, rest, by rw [← heq, List.append_assoc], hw⟩
  | found hw h ih =>
    rcases List.mem_cons.1 ha with rfl | ha
    · exact ⟨_, _, _, rfl, hw⟩
    · obtain ⟨before, written, rest, heq, hw⟩ := ih ha
      exact ⟨before, written, rest, by rw [← heq, List.append_assoc], hw⟩

/-- What a whole text is scanned to: its annotations, or the failure that ends the scan. -/
def result (src : Source) (text : List Char) : Except Failure (List Annotation) :=
  match scan src ⟨.start, text⟩ with
  | (found, none) => .ok found
  | (_, some failure) => .error failure

theorem areIn_of_result (h : result src text = .ok as) : AreIn src [] text as := by
  obtain ⟨hin, -⟩ := @areIn_scan src [] ⟨.start, text⟩ rfl
  unfold result at h
  split at h
  · rename_i hscan
    cases h
    rwa [hscan] at hin
  · cases h

theorem isRefused_of_result (h : result src text = .error (.declaration e)) :
    ∃ gap rest, text = gap ++ rest ∧ IsRefused src gap rest e := by
  obtain ⟨-, hrefused⟩ := @areIn_scan src [] ⟨.start, text⟩ rfl
  unfold result at h
  split at h
  · cases h
  · rename_i hscan
    cases h
    rw [hscan] at hrefused
    exact hrefused e rfl

end Annotation

namespace Sources
open Annotation Act
variable {w : World} {root host : Path} {text : String}

theorem runOn_forM_debug {α : Type} (note : α → String) (as : List α) (w : World) :
    ∃ v, (as.forM fun a => debug (note a)).runOn w = (.ok ⟨⟩, v) := by
  induction as generalizing w with
  | nil => exact ⟨w, rfl⟩
  | cons a as ih =>
    obtain ⟨v, hv⟩ := ih { w with log := w.log ++ w.logger.record ⟨.debug, note a⟩ }
    exact ⟨v, (runOn_bind_of_ok (runOn_debug _)).trans hv⟩

/-- Apart from the log, annotations of a text are found by the scan. -/
theorem result_ofText :
    ((ofText root host text).runOn w).1 = result (w.source root host) text.toList := by
  unfold ofText result
  rw [runOn_get_bind]
  generalize Annotation.scan (w.source root host) ⟨.start, text.toList⟩ = r
  obtain ⟨found, failed⟩ := r
  obtain ⟨v, hv⟩ := runOn_forM_debug
    (fun a : Annotation => "Found " ++ a.kind.name ++ " at " ++ host.text ++ ":" ++ toString a.line)
    found w
  rw [runOn_bind_of_ok hv]
  cases failed with
  | none => rw [runOn_pure]
  | some failure => rw [runOn_throw]

/-- The positions that are reported for a host point into it. -/
theorem places_ofText (hlen : text.length < 2147483648) :
    (∀ as, ((ofText root host text).runOn w).1 = .ok as →
      AreIn (w.source root host) [] text.toList as ∧
      ∀ a ∈ as, (∃ front written rest, text.toList = front ++ (written ++ rest) ∧
          IsWritten (w.source root host) front written a ∧ a.kind.name.toList <+: written ∧
          a.line = (place front).1) ∧
        a.decls.StandAt text.toList) ∧
    ∀ e, ((ofText root host text).runOn w).1 = .error (.declaration e) →
      ∃ front a head delimiter decls rest,
        text.toList = front ++ (head ++ (decls ++ rawClosing delimiter) ++ rest) ∧
        Heads (w.source root host) front a head delimiter decls ∧
        ∃ before after, decls = before ++ after ∧
          e.fault.pos = ⟨(place (front ++ head ++ before)).1, (place (front ++ head ++ before)).2⟩ := by
  rw [result_ofText]
  refine ⟨fun as has => ?_, fun e he => ?_⟩
  · have hin := areIn_of_result has
    refine ⟨hin, fun a ha => ?_⟩
    obtain ⟨front, written, rest, htext, hw⟩ := hin.exists_written ha
    obtain ⟨hname, hline⟩ := hw.kind_prefix
    exact ⟨⟨front, written, rest, htext, hw, hname, hline⟩, hw.standAt htext hlen⟩
  · obtain ⟨gap, cs, htext, a, head, d, decls, rest, hhead, rfl, hparse⟩ := isRefused_of_result he
    obtain ⟨before, after, hdecls, hpos⟩ := has_of_parse hparse
    refine ⟨gap, a, head, d, decls, rest, htext, hhead, before, after, hdecls, ?_⟩
    rw [hpos, ← Position.after_append, Position.start_after]

/-- A function below a rule, and a text that no declaration begins with. -/
theorem places_ofText_function :
    (∃ as, ((ofText ⟨"."⟩ ⟨"host.cpp"⟩ "ZIGBIND(R\"(\n---\n fn f();)\")").runOn {}).1 = .ok as ∧
      as ≠ [] ∧ ∀ a ∈ as, a.decls.functions ≠ [] ∧
        a.decls.StandAt "ZIGBIND(R\"(\n---\n fn f();)\")".toList) ∧
    ∃ e, ((ofText ⟨"."⟩ ⟨"host.cpp"⟩ "ZIGBIND(R\"(\n---\n ?)\")").runOn {}).1 =
        .error (.declaration e) ∧
      ∃ front, e.fault.pos = ⟨(place front).1, (place front).2⟩ := by
  generalize hsrc : World.source {} ⟨"."⟩ ⟨"host.cpp"⟩ = src
  constructor
  · have hparse : parse src " fn f();".toList ⟨3, 1⟩ = .ok
        { functions := [{ name := "f", params := [], ret := .scalar .void, pos := ⟨3, 2⟩ }] } := by
      rw [parse, Declarations.parse, Tokens.statements_step (by cbv), Tokens.statements]
      rfl
    have hsplit : Fragment.split "\n---\n fn f();".toList =
        ("\n".toList, some (" fn f();".toList, 2)) := by decide
    have hstep : step src ⟨.start, "ZIGBIND(R\"(\n---\n fn f();)\")".toList⟩ =
        (ofFragment src .start "\n---\n fn f();".toList 1).bind fun a =>
          .ok (some a, ⟨⟨3, 12⟩, []⟩) := rfl
    rw [ofFragment_declared hsplit (by decide)] at hstep
    change _ = ((parse src " fn f();".toList ⟨3, 1⟩).map _).bind _ at hstep
    rw [hparse] at hstep
    have hscan := scan_of_ok (by decide) hstep
    rw [@scan_of_nil src ⟨⟨3, 12⟩, []⟩ rfl] at hscan
    have hok : ((ofText ⟨"."⟩ ⟨"host.cpp"⟩ "ZIGBIND(R\"(\n---\n fn f();)\")").runOn {}).1 = .ok
        [{ host := src.host, line := 1, code := "\n", decls :=
          { functions := [{ name := "f", params := [], ret := .scalar .void, pos := ⟨3, 2⟩ }] } }] := by
      rw [result_ofText, hsrc, result, hscan]
      rfl
    refine ⟨_, hok, List.cons_ne_nil _ _, fun a ha => ⟨?_, ?_⟩⟩
    · rw [List.mem_singleton.1 ha]
      exact List.cons_ne_nil _ _
    · exact (((places_ofText (by decide)).1 _ hok).2 a ha).2
  · have htokens : Tokens.ofText " ?" ⟨3, 1⟩ =
        .broken ⟨⟨3, 2⟩, .lexical (.unknownChar '?')⟩ := by cbv
    have hparse : parse src " ?".toList ⟨3, 1⟩ =
        .error (.declaration ⟨src.host.text, ⟨⟨3, 2⟩, .lexical (.unknownChar '?')⟩⟩) := by
      rw [parse, Declarations.parse, String.ofList_toList, htokens,
        Tokens.statements_error (by rintro _ ⟨⟩) (by cbv)]
      rfl
    have hsplit : Fragment.split "\n---\n ?".toList =
        ("\n".toList, some (" ?".toList, 2)) := by decide
    have hstep : step src ⟨.start, "ZIGBIND(R\"(\n---\n ?)\")".toList⟩ =
        (ofFragment src .start "\n---\n ?".toList 1).bind fun a =>
          .ok (some a, ⟨⟨3, 6⟩, []⟩) := rfl
    rw [ofFragment_declared hsplit (by decide)] at hstep
    change _ = ((parse src " ?".toList ⟨3, 1⟩).map _).bind _ at hstep
    rw [hparse] at hstep
    have herror : ((ofText ⟨"."⟩ ⟨"host.cpp"⟩ "ZIGBIND(R\"(\n---\n ?)\")").runOn {}).1 =
        .error (.declaration ⟨src.host.text, ⟨⟨3, 2⟩, .lexical (.unknownChar '?')⟩⟩) := by
      rw [result_ofText, hsrc, result, scan_of_error (by decide) hstep]
    obtain ⟨front, _, head, _, _, _, _, _, before, _, _, hpos⟩ :=
      (places_ofText (by decide)).2 _ herror
    exact ⟨_, herror, _, hpos⟩
end Sources
end Bindery
