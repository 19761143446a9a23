import Bindery.Syntax.Sequence

/-!
# What a stream of tokens begins with

A grammar rule looks at the tokens in front and leaves the others. Its behaviour on a stream that
begins with given tokens does not depend on where these stand in the text.
-/
namespace Bindery
namespace Lexeme

/-- Items with commas between them. -/
def commas : List (List Lexeme) → List Lexeme
  | [] => []
  | [x] => x
  | x :: y :: xs => x ++ punct .comma :: commas (y :: xs)

theorem commas_cons (x : List Lexeme) (xs : List (List Lexeme)) :
    ∃ ls, commas (x :: xs) = x ++ ls := by
  cases xs with
  | nil => exact ⟨[], (List.append_nil x).symm⟩
  | cons y xs => exact ⟨_, rfl⟩

end Lexeme

namespace Tokens
open Lexeme

/-- A stream that consists of the given tokens, wherever they stand, and then of `rest`. -/
def Begins : List Lexeme → Tokens → Tokens → Prop
  | [], ts, rest => ts = rest
  | l :: ls, ts, rest => ∃ pos tail, ts = next ⟨l, pos⟩ tail ∧ Begins ls tail rest

/-- A stream whose first token can be read and is none of the given marks. -/
def Avoids (marks : List Punct) (ts : Tokens) : Prop :=
  ∃ t, ts.head = .ok t ∧ ∀ m ∈ marks, t.lexeme ≠ .punct m

section
variable {l : Lexeme} {ls ms : List Lexeme} {ts mid rest : Tokens} {p : Punct} {marks : List Punct}

theorem begins_append : Begins (ls ++ ms) ts rest ↔ ∃ mid, Begins ls ts mid ∧ Begins ms mid rest := by
  induction ls generalizing ts with
  | nil => simp [Begins]
  | cons l ls ih =>
    constructor
    · rintro ⟨pos, tail, rfl, h⟩
      obtain ⟨mid, hl, hm⟩ := ih.1 h
      exact ⟨mid, ⟨pos, tail, rfl, hl⟩, hm⟩
    · rintro ⟨mid, ⟨pos, tail, rfl, hl⟩, hm⟩
      exact ⟨pos, tail, rfl, ih.2 ⟨mid, hl, hm⟩⟩

theorem Begins.avoids (h : Begins (l :: ls) ts rest) (hl : ∀ m ∈ marks, l ≠ .punct m) :
    ts.Avoids marks := by
  obtain ⟨pos, tail, rfl, -⟩ := h
  exact ⟨⟨l, pos⟩, rfl, hl⟩

theorem Begins.avoids_of_not_mem (h : Begins (.punct p :: ls) ts rest) (hp : p ∉ marks) :
    ts.Avoids marks := by
  apply h.avoids
  intro m hm heq
  cases heq
  exact hp hm

theorem Begins.avoids_of_forall (h : Begins ls ts rest)
    (hls : ∀ l ∈ ls, ∀ m ∈ marks, l ≠ .punct m) (hr : rest.Avoids marks) : ts.Avoids marks := by
  cases ls with
  | nil =>
    obtain rfl : ts = rest := h
    exact hr
  | cons l ls => exact h.avoids (hls l List.mem_cons_self)

theorem Begins.tail_avoids {t : Token} {tail : Tokens} (h : Begins ls (next t tail) rest)
    (hne : ls ≠ []) (hls : ∀ l ∈ ls, ∀ m ∈ marks, l ≠ .punct m) (hr : rest.Avoids marks) :
    tail.Avoids marks := by
  obtain ⟨l, ls, rfl⟩ := List.exists_cons_of_ne_nil hne
  obtain ⟨pos, tail, heq, h⟩ := h
  cases heq
  exact h.avoids_of_forall (fun l hl => hls l (List.mem_cons_of_mem _ hl)) hr

theorem avoids_done {pos : Position} : (done pos).Avoids marks :=
  ⟨⟨.eof, pos⟩, rfl, fun _ _ h => Lexeme.noConfusion h⟩

theorem Avoids.mono {more : List Punct} (h : ts.Avoids more) (hm : ∀ m ∈ marks, m ∈ more) :
    ts.Avoids marks := by
  obtain ⟨t, ht, hne⟩ := h
  exact ⟨t, ht, fun m hmem => hne m (hm m hmem)⟩

/-- A stream in front of which a mark can be refused. -/
theorem Avoids.cases (h : ts.Avoids marks) (hp : p ∈ marks) :
    (∃ pos, ts = done pos) ∨ ∃ t tail, ts = next t tail ∧ t.lexeme ≠ .punct p := by
  obtain ⟨t, ht, hne⟩ := h
  cases ts with
  | done pos => exact .inl ⟨pos, rfl⟩
  | broken fault => cases ht
  | next t' tail =>
    cases ht
    exact .inr ⟨t, tail, rfl, hne p hp⟩

theorem punct_of_begins (h : Begins (.punct p :: ls) ts rest) :
    ∃ mid, ts.punct p = .ok mid ∧ Begins ls mid rest := by
  obtain ⟨pos, tail, rfl, h⟩ := h
  exact ⟨tail, by simp [punct], h⟩

theorem punct?_of_begins (h : Begins (.punct p :: ls) ts rest) :
    ∃ mid, ts.punct? p = .ok (true, mid) ∧ Begins ls mid rest := by
  obtain ⟨pos, tail, rfl, h⟩ := h
  exact ⟨tail, by simp [punct?], h⟩

theorem punct?_of_avoids (h : ts.Avoids marks) (hp : p ∈ marks) :
    ts.punct? p = .ok (false, ts) := by
  rcases h.cases hp with ⟨pos, rfl⟩ | ⟨⟨l, pos⟩, tail, rfl, hne⟩
  · rfl
  · cases l with
    | punct q =>
      have hq : q ≠ p := fun hq => hne (by rw [hq])
      simp [punct?, hq]
    | _ => rfl

end

section
variable {α β γ σ : Type} {closing : Punct} {ts rest : Tokens} {ls : List Lexeme}

theorem separated_last {item : Rule (List α) α} {seen : List α} {a : α} {after : Tokens}
    (hi : item.run seen ts = .ok (a, after)) (hc : after.punct? closing = .ok (true, rest)) :
    separated item closing seen ts = .ok (seen ++ [a], rest) := by
  rw [separated]
  split
  · simp_all
  · rename_i h
    rw [hi] at h
    cases h
    split
    all_goals simp_all

theorem separated_more {item : Rule (List α) α} {seen : List α} {a : α} {after atComma : Tokens}
    (hi : item.run seen ts = .ok (a, after)) (hc : after.punct? closing = .ok (false, atComma))
    (hk : atComma.punct .comma = .ok rest) :
    separated item closing seen ts = separated item closing (seen ++ [a]) rest := by
  rw [separated]
  split
  · simp_all
  · rename_i h
    rw [hi] at h
    cases h
    split
    · simp_all
    · simp_all
    · rename_i h
      rw [hc] at h
      cases h
      split
      all_goals simp_all

theorem block_close {item : Rule σ σ} {s : σ} (hc : ts.punct? closing = .ok (true, rest)) :
    block item closing s ts = .ok (s, rest) := by
  rw [block]
  split
  all_goals simp_all

theorem block_step {item : Rule σ σ} {s s' : σ} (hc : ts.punct? closing = .ok (false, ts))
    (hi : item.run s ts = .ok (s', rest)) :
    block item closing s ts = block item closing s' rest := by
  rw [block]
  split
  · simp_all
  · simp_all
  · rename_i h
    rw [hc] at h
    cases h
    split
    all_goals simp_all

/-- Items separated by commas are read one by one, up to what is not told apart in what they show.
An item is read after those before it, in front of a comma or the closing mark. -/
theorem separated_of_begins {item : Rule (List α) α} (spell : β → List Lexeme) (shows : α → γ)
    (form : β → γ) {bs : List β} {seen : List α} (hne : bs ≠ []) (hc : closing ≠ .comma)
    (hitem : ∀ front b back items ts rest, bs = front ++ b :: back →
      items.map shows = front.map form → Begins (spell b) ts rest →
      (∀ marks, .comma ∉ marks → closing ∉ marks → rest.Avoids marks) →
      ∃ a, shows a = form b ∧ item.run (seen ++ items) ts = .ok (a, rest))
    (h : Begins (commas (bs.map spell) ++ .punct closing :: ls) ts rest) :
    ∃ items mid, items.map shows = bs.map form ∧
      separated item closing seen ts = .ok (seen ++ items, mid) ∧ Begins ls mid rest := by
  induction bs generalizing seen ts with
  | nil => exact absurd rfl hne
  | cons b bs ih =>
    cases bs with
    | nil =>
      rw [List.map_singleton, commas, begins_append] at h
      obtain ⟨after, hb, hafter⟩ := h
      obtain ⟨a, ha, hrun⟩ := hitem [] b [] [] ts after rfl rfl hb
        fun _ _ hm => hafter.avoids_of_not_mem hm
      obtain ⟨mid, hclose, hmid⟩ := punct?_of_begins hafter
      rw [List.append_nil] at hrun
      refine ⟨[a], mid, ?_, separated_last hrun hclose, hmid⟩
      rw [List.map_singleton, List.map_singleton, ha]
    | cons b' bs =>
      rw [List.map_cons, List.map_cons, commas, List.append_assoc, List.cons_append,
        begins_append, ← List.map_cons] at h
      obtain ⟨after, hb, hafter⟩ := h
      obtain ⟨a, ha, hrun⟩ := hitem [] b _ [] ts after rfl rfl hb
        fun _ hm _ => hafter.avoids_of_not_mem hm
      have havoids : after.Avoids [closing] :=
        hafter.avoids_of_not_mem fun hm => hc (List.mem_singleton.1 hm).symm
      have hno := punct?_of_avoids havoids List.mem_cons_self
      obtain ⟨next, hcomma, hnext⟩ := punct_of_begins hafter
      rw [List.append_nil] at hrun
      have hmore : ∀ front c back items ts rest, b' :: bs = front ++ c :: back →
          items.map shows = front.map form → Begins (spell c) ts rest →
          (∀ marks, .comma ∉ marks → closing ∉ marks → rest.Avoids marks) →
          ∃ d, shows d = form c ∧ item.run (seen ++ [a] ++ items) ts = .ok (d, rest) := by
        intro front c back items ts rest hsplit hshow hc hafter
        have hfront : (a :: items).map shows = (b :: front).map form := by
          rw [List.map_cons, List.map_cons, ha, hshow]
        obtain ⟨d, hd, hrun⟩ := hitem (b :: front) c back (a :: items) ts rest
          (by rw [hsplit, List.cons_append]) hfront hc hafter
        exact ⟨d, hd, by rwa [List.append_assoc, List.singleton_append]⟩
      obtain ⟨items, mid, hitems, hsep, hmid⟩ := ih (List.cons_ne_nil _ _) hmore hnext
      refine ⟨a :: items, mid, by rw [List.map_cons, ha, hitems, ← List.map_cons], ?_, hmid⟩
      rw [separated_more hrun hno hcomma, hsep, List.append_assoc, List.singleton_append]

/-- A list whose first item does not begin with a mark does not begin with a mark. -/
theorem Begins.avoids_commas {marks : List Punct} {l : Lexeme} {x : List Lexeme}
    {xs : List (List Lexeme)} (h : Begins (commas ((l :: x) :: xs) ++ ls) ts rest)
    (hl : ∀ m, l ≠ .punct m) : ts.Avoids marks := by
  obtain ⟨ys, hys⟩ := commas_cons (l :: x) xs
  rw [hys, List.cons_append, List.cons_append] at h
  exact h.avoids fun m _ => hl m

end
end Tokens
end Bindery
