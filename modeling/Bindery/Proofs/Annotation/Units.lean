import Bindery.Proofs.Annotation.Places
import Bindery.Proofs.Annotation.Unit

/-!
# Annotations among tokens

In a host of tokens that a scan cannot mistake for others, annotations are found just where their
tokens stand: a macro name, a bracket, a raw literal or the path of a file, maybe with a raw literal
after it, and the closing bracket, with nothing but blanks between them. A scan fails just if one of
them is begun and then not written out, names no file or declares what cannot be read.
-/
namespace Bindery
open Text Host

namespace Annotation
variable {src : Source} {front : List Char} {ts us written : List Host.Token} {a : Annotation}
  {as : List Annotation}

theorem sites_append (h : ∀ t ∈ ts, t.isWord = false) :
    sites front (ts ++ us) = sites (front ++ spell ts) us := by
  induction ts generalizing front with
  | nil => rw [List.nil_append, spell_nil, List.append_nil]
  | cons t ts ih =>
    obtain ⟨ht, hts⟩ := List.forall_mem_cons.1 h
    have hsite : isSite (t :: (ts ++ us)) = false := by
      refine isSite_eq_false fun m hm => ?_
      rw [hm] at ht
      cases ht
    rw [List.cons_append, sites, hsite, ih hts, spell_cons, List.append_assoc]
    rfl

theorem isWord_of_blanks (h : AreBlanks ts) : ∀ t ∈ ts, t.isWord = false := by
  intro t ht
  have hblank := h t ht
  cases t with
  | blank => rfl
  | _ => cases hblank

theorem isWord_of_closing (h : IsClosing ts) : ∀ t ∈ ts, t.isWord = false := by
  obtain ⟨b, hb, rfl⟩ := h
  refine List.forall_mem_append.2 ⟨isWord_of_blanks hb, ?_⟩
  exact List.forall_mem_singleton.2 rfl

theorem isWord_of_comma (h : IsComma ts) : ∀ t ∈ ts, t.isWord = false := by
  obtain ⟨b, d, hb, hd, rfl⟩ := h
  refine List.forall_mem_append.2 ⟨isWord_of_blanks hb, ?_⟩
  exact List.forall_mem_cons.2 ⟨rfl, isWord_of_blanks hd⟩

/-- Only the first token of a unit is a word. -/
theorem IsUnit.exists_cons (h : IsUnit src front written a) :
    ∃ t tail, written = t :: tail ∧ ∀ u ∈ tail, u.isWord = false := by
  have hall : ∀ {m : Macro} {opening last : List Host.Token}, IsOpening m opening →
      (∀ t ∈ last, t.isWord = false) →
      ∃ t tail, opening ++ last = t :: tail ∧ ∀ u ∈ tail, u.isWord = false := by
    rintro m _ last ⟨b, d, hb, hd, rfl⟩ hlast
    refine ⟨_, _, rfl, ?_⟩
    refine List.forall_mem_append.2 ⟨List.forall_mem_append.2 ⟨isWord_of_blanks hb, ?_⟩, hlast⟩
    exact List.forall_mem_cons.2 ⟨rfl, isWord_of_blanks hd⟩
  cases h with
  | inline hopening hclosing _ =>
    exact hall hopening (List.forall_mem_cons.2 ⟨rfl, isWord_of_closing hclosing⟩)
  | included hopening hclosing _ =>
    exact hall hopening (List.forall_mem_cons.2 ⟨rfl, isWord_of_closing hclosing⟩)
  | declared hopening hcomma hclosing _ _ =>
    refine hall hopening (List.forall_mem_cons.2 ⟨rfl, ?_⟩)
    refine List.forall_mem_append.2 ⟨isWord_of_comma hcomma, ?_⟩
    exact List.forall_mem_cons.2 ⟨rfl, isWord_of_closing hclosing⟩

/-- A unit stands at a place, which is where its tokens begin. -/
def IsUnitAt (src : Source) (site : List Char × List Host.Token) (a : Annotation) : Prop :=
  ∃ written rest, site.2 = written ++ rest ∧ IsUnit src site.1 written a

/-- A unit that stands where a scan is gives the step of the scan. -/
theorem IsUnitAt.exists_step {a : Annotation} (h : IsUnitAt src (front, ts) a)
    (hlexed : AreLexed ts) : ∃ c, step src ⟨ends front, spell ts⟩ = .ok (some a, c) := by
  obtain ⟨written, rest, heq, hunit⟩ := h
  dsimp only at heq
  rw [heq] at hlexed ⊢
  exact ⟨_, step_of_isUnit hlexed hunit⟩

/-- A scan finds what stands at the places where annotations begin, and nothing else. -/
theorem scan_eq_ok_iff (hlexed : AreLexed ts) (hclear : ∀ t ∈ ts, t.IsClear) :
    scan src ⟨ends front, spell ts⟩ = (as, none) ↔
      List.Forall₂ (IsUnitAt src) (sites front ts) as := by
  induction hn : ts.length using Nat.strong_induction_on generalizing ts front as with
  | h n ih =>
    subst hn
    cases ts with
    | nil =>
      rw [scan_of_nil rfl, sites, List.forall₂_nil_left_iff]
      simp [eq_comm]
    | cons t us =>
      have hne : spell (t :: us) ≠ [] := by simp [Host.Token.spell_ne_nil hlexed.1]
      cases hsite : isSite (t :: us) with
      | false =>
        have hpassed := isPassed_of_isSite hlexed (hclear t List.mem_cons_self) hsite
        rw [spell_cons, hpassed, ← ends_append, sites, hsite]
        exact ih _ (Nat.lt_succ_self _) hlexed.2.2
          (fun u hu => hclear u (List.mem_cons_of_mem _ hu)) rfl
      | true =>
        have hsites : sites front (t :: us) = (front, t :: us) :: sites (front ++ t.spell) us := by
          rw [sites, hsite]
          rfl
        cases hstep : step src ⟨ends front, spell (t :: us)⟩ with
        | error f =>
          rw [scan_of_error hne hstep, hsites]
          constructor
          · intro h
            cases h
          · intro h
            obtain ⟨b, bs, hb, -, -⟩ := List.forall₂_cons_left_iff.1 h
            obtain ⟨c, hc⟩ := hb.exists_step hlexed
            cases hstep.symm.trans hc
        | ok r =>
          obtain ⟨written, rest, a, heq, hunit, rfl⟩ := isFound_of_step hlexed hsite hstep
          obtain ⟨u, tail, rfl, htail⟩ := hunit.exists_cons
          obtain ⟨rfl, rfl⟩ := List.cons.inj heq
          have hrest : ∀ {bs}, scan src ⟨ends (front ++ spell (t :: tail)), spell rest⟩ =
              (bs, none) ↔ List.Forall₂ (IsUnitAt src) (sites (front ++ t.spell) (tail ++ rest))
                bs := by
            intro bs
            rw [sites_append htail, List.append_assoc]
            refine ih rest.length ?_ (@AreLexed.right (t :: tail) rest hlexed) ?_ rfl
            · change rest.length < (tail ++ rest).length + 1
              rw [List.length_append]
              omega
            · exact fun u hu => hclear u (List.mem_cons_of_mem _ (List.mem_append_right _ hu))
          rw [scan_of_ok hne hstep, hsites]
          generalize scan src ⟨ends (front ++ spell (t :: tail)), spell rest⟩ = found at hrest
          obtain ⟨bs, failed⟩ := found
          constructor
          · rintro ⟨⟩
            exact .cons ⟨_, rest, heq, hunit⟩ (hrest.1 rfl)
          · intro h
            obtain ⟨b, bs', hb, hbs, rfl⟩ := List.forall₂_cons_left_iff.1 h
            obtain ⟨c, hc⟩ := hb.exists_step hlexed
            cases hstep.symm.trans hc
            cases hrest.2 hbs
            rfl

end Annotation

namespace Sources
open Annotation Act
variable {w : World} {root host : Path} {text : String} {ts : List Host.Token}

/-- In a host of tokens that a scan cannot mistake for others, the annotations are those that are
written there, one at each place where one begins and none anywhere else. -/
theorem units_ofText (htext : text.toList = spell ts) (hlexed : AreLexed ts)
    (hclear : ∀ t ∈ ts, t.IsClear) (as : List Annotation) :
    ((ofText root host text).runOn w).1 = .ok as ↔
      List.Forall₂ (IsUnitAt (w.source root host)) (sites [] ts) as := by
  rw [result_ofText, htext, ← scan_eq_ok_iff hlexed hclear]
  change result _ _ = _ ↔ Annotation.scan (w.source root host) ⟨Position.start, spell ts⟩ = _
  unfold result
  split
  · rename_i hscan
    rw [hscan]
    simp
  · rename_i hscan
    rw [hscan]
    simp

theorem avoids_nil {q : Char → Bool} : Avoids q [] := by
  rintro _ ⟨⟩

theorem avoids_cons {q : Char → Bool} {c : Char} {cs : List Char} (h : q c = false) :
    Avoids q (c :: cs) := by
  rintro _ ⟨⟩
  exact h

/-- The tokens of an annotation with a fragment. -/
def fragment (body : List Char) : List Host.Token :=
  [.word Macro.inline.name.toList, .mark '(', .raw .plain [] body [], .mark ')']

theorem isOpening_inline : IsOpening .inline [.word Macro.inline.name.toList, .mark '('] :=
  ⟨[], [], fun _ h => absurd h List.not_mem_nil, fun _ h => absurd h List.not_mem_nil, rfl⟩

theorem isClosing_bracket : IsClosing [.mark ')'] :=
  ⟨[], fun _ h => absurd h List.not_mem_nil, rfl⟩

theorem areLexed_fragment {body : List Char} (h : ¬ [')', '"'] <:+: body) :
    AreLexed (fragment body) := by
  refine ⟨⟨List.cons_ne_nil _ _, avoids_cons rfl, List.all_eq_true.1 (by rfl)⟩,
    ⟨avoids_cons rfl, fun _ => avoids_cons rfl, fun _ _ => avoids_cons rfl⟩, rfl,
    ⟨fun h => by simp at h, fun h => by simp at h⟩,
    ⟨Nat.zero_le _, fun _ h => absurd h List.not_mem_nil, h, avoids_nil,
      fun _ h => absurd h List.not_mem_nil⟩,
    avoids_cons rfl, rfl, ⟨fun _ => avoids_nil, fun _ => avoids_nil⟩, trivial⟩

theorem isClear_fragment (body : List Char) : ∀ t ∈ fragment body, t.IsClear := by
  refine List.forall_mem_cons.2 ⟨.inl (List.all_eq_true.1 (by rfl)), ?_⟩
  refine List.forall_mem_cons.2 ⟨trivial, List.forall_mem_cons.2 ⟨.nil, ?_⟩⟩
  exact List.forall_mem_singleton.2 trivial

/-- A fragment without declarations is a unit. -/
theorem isUnitAt_fragment {src : Source} {front body : List Char}
    (h : Fragment.split body = (body, none)) : IsUnitAt src (front, fragment body)
      { host := src.host, line := (ends front).line, code := String.ofList body } := by
  refine ⟨fragment body, [], (List.append_nil _).symm, .inline isOpening_inline isClosing_bracket ?_⟩
  rw [ofFragment, h]

/-- The fragment after a literal and a comment is found, and the one in the comment is not. -/
theorem units_ofText_comment : ∃ a : Annotation,
    ((ofText ⟨"."⟩ ⟨"host.cpp"⟩ "'\"'/*ZIGBIND(R*/ZIGBIND(R\"(b)\")").runOn {}).1 = .ok [a] ∧
      a.code = "b" := by
  let front : List Host.Token := [.quoted .plain '\'' ['"'] [], .blockComment "ZIGBIND(R".toList]
  have hlexed : AreLexed (front ++ fragment ['b']) := by
    refine ⟨⟨.inr rfl, .cons (by decide) .nil, avoids_nil, fun _ h => absurd h List.not_mem_nil⟩,
      avoids_cons rfl, ?_, trivial, areLexed_fragment (by decide)⟩
    change ¬ ['*', '/'] <:+: ['Z', 'I', 'G', 'B', 'I', 'N', 'D', '(', 'R']
    decide
  have hclear : ∀ t ∈ front ++ fragment ['b'], t.IsClear :=
    List.forall_mem_cons.2 ⟨.nil, List.forall_mem_cons.2 ⟨trivial, isClear_fragment _⟩⟩
  have hsites : sites [] (front ++ fragment ['b']) = [(spell front, fragment ['b'])] := by
    rfl
  have hunits : List.Forall₂ (IsUnitAt (({} : World).source ⟨"."⟩ ⟨"host.cpp"⟩))
      (sites [] (front ++ fragment ['b'])) [{
        host := ⟨"host.cpp"⟩, line := (ends (spell front)).line, code := String.ofList ['b'] }] := by
    rw [hsites]
    exact .cons (isUnitAt_fragment rfl) .nil
  exact ⟨_, (units_ofText rfl hlexed hclear _).2 hunits, rfl⟩

/-- A digit separator is taken for a quote that opens a literal, and the rest of its line is
lost. -/
theorem units_ofText_separator :
    let ts : List Host.Token := .number "10'000".toList :: .mark ';' :: fragment ['b']
    "10'000;ZIGBIND(R\"(b)\")".toList = spell ts ∧ AreLexed ts ∧
      (∃ a, List.Forall₂ (IsUnitAt (({} : World).source ⟨"."⟩ ⟨"host.cpp"⟩)) (sites [] ts) [a]) ∧
      ((ofText ⟨"."⟩ ⟨"host.cpp"⟩ "10'000;ZIGBIND(R\"(b)\")").runOn {}).1 = .ok [] := by
  intro ts
  have hnumber : IsNumeral ['0', '\'', '0', '0', '0'] :=
    .cons (.inl rfl) (.separator rfl (.cons (.inl rfl) (.cons (.inl rfl) .nil)))
  have hlexed : AreLexed ts := by
    refine ⟨⟨'1', _, rfl, hnumber, .inl rfl⟩,
      ⟨avoids_cons rfl, fun _ => avoids_cons rfl, fun cs h => ?_⟩, rfl,
      ⟨fun h => ?_, fun h => ?_⟩, areLexed_fragment (by decide)⟩
    · simp [Host.Token.spell] at h
    · simp at h
    · simp at h
  have hsites : sites [] ts = [("10'000;".toList, fragment ['b'])] := by
    rfl
  have hunit := @isUnitAt_fragment (({} : World).source ⟨"."⟩ ⟨"host.cpp"⟩) "10'000;".toList ['b']
    rfl
  refine ⟨by rfl, hlexed, ⟨_, by rw [hsites]; exact .cons hunit .nil⟩, ?_⟩
  · rw [result_ofText]
    generalize World.source {} ⟨"."⟩ ⟨"host.cpp"⟩ = src
    have hdigits : step src ⟨.start, "10'000;ZIGBIND(R\"(b)\")".toList⟩ =
        .ok (none, ⟨⟨1, 3⟩, "'000;ZIGBIND(R\"(b)\")".toList⟩) := rfl
    have hquote : step src ⟨⟨1, 3⟩, "'000;ZIGBIND(R\"(b)\")".toList⟩ =
        .ok (none, ⟨⟨1, 23⟩, []⟩) := rfl
    rw [result, scan_of_ok (by decide) hdigits, scan_of_ok (by decide) hquote, scan_of_nil rfl]
    rfl

end Sources
end Bindery
