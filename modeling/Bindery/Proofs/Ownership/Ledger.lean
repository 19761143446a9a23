import Mathlib
import Bindery.Ownership

/-!
# Every resource is released once

A ledger follows the handles through a run of steps: it lists what has been given to them, and what
they have handed out and not been given again. A resource that was ever given is then owned by one
slot, or handed out, or released once, whatever the steps and however many the slots.
-/
namespace Bindery

namespace HandleStep
variable {α : Type}

/-- The resource that a step gives to a handle. -/
def given : HandleStep α → Option α
  | construct _ resource | reset _ resource => resource
  | _ => none

/-- The slot whose handle a step gives something else, while the handle stays. -/
def target : HandleStep α → Option String
  | moveAssign slot _ | reset slot _ => some slot
  | _ => none

end HandleStep

namespace Handles
variable {α : Type} {slot : String} {content : Option α} {s : String × Option α}
  {l : List (String × Option α)}

/-- The resources that the handles in the slots own. -/
def owners (h : Handles α) : List α := h.slots.filterMap (·.2)

/-- No two slots have one name. -/
def IsDistinct (h : Handles α) : Prop := (h.slots.map (·.1)).Nodup

/-! ### Lists of slots -/

theorem mem_map_putSlot {name : String} :
    name ∈ (putSlot slot content l).map (·.1) ↔ name = slot ∨ name ∈ l.map (·.1) := by
  induction l with
  | nil => simp [putSlot]
  | cons s l ih =>
    by_cases hs : s.1 = slot
    · simp [putSlot, hs]
    · rw [putSlot, if_neg hs, List.map_cons, List.mem_cons, ih, List.map_cons, List.mem_cons]
      tauto

theorem nodup_putSlot (hl : (l.map (·.1)).Nodup) :
    ((putSlot slot content l).map (·.1)).Nodup := by
  induction l with
  | nil => exact List.nodup_singleton _
  | cons s l ih =>
    obtain ⟨hs, hl⟩ := List.nodup_cons.1 hl
    by_cases heq : s.1 = slot
    · rw [putSlot, if_pos heq, List.map_cons, ← heq]
      exact List.nodup_cons.2 ⟨hs, hl⟩
    · rw [putSlot, if_neg heq, List.map_cons]
      apply List.nodup_cons.2
      refine ⟨fun hmem => ?_, ih hl⟩
      rcases mem_map_putSlot.1 hmem with h | h
      · exact heq h
      · exact hs h

theorem lookup_cons_self (hs : s.1 = slot) : (s :: l).lookup slot = some s.2 := by
  obtain ⟨name, content⟩ := s
  obtain rfl := hs
  rw [List.lookup_cons_self]

theorem lookup_cons_of_ne (hs : s.1 ≠ slot) : (s :: l).lookup slot = l.lookup slot := by
  obtain ⟨name, content⟩ := s
  have hne : (slot == name) = false := by simpa using Ne.symm hs
  rw [List.lookup_cons, hne]

theorem lookup_filter_ne : (l.filter (·.1 ≠ slot)).lookup slot = none := by
  rw [List.lookup_eq_none_iff]
  intro s hs
  have hne := (List.mem_filter.1 hs).2
  rw [decide_eq_true_eq] at hne
  simpa using Ne.symm hne

theorem lookup_putSlot_of_ne {other : String} (hne : other ≠ slot) :
    (putSlot slot content l).lookup other = l.lookup other := by
  induction l with
  | nil => exact lookup_cons_of_ne (Ne.symm hne)
  | cons s l ih =>
    by_cases hs : s.1 = slot
    · have hs' : s.1 ≠ other := by rw [hs]; exact Ne.symm hne
      rw [putSlot, if_pos hs, lookup_cons_of_ne hs', lookup_cons_of_ne (Ne.symm hne)]
    · rw [putSlot, if_neg hs]
      by_cases hother : s.1 = other
      · rw [lookup_cons_self hother, lookup_cons_self hother]
      · rw [lookup_cons_of_ne hother, lookup_cons_of_ne hother, ih]

section
variable [DecidableEq α]

theorem count_filterMap_cons (p : α) :
    ((s :: l).filterMap (·.2)).count p = s.2.toList.count p + (l.filterMap (·.2)).count p := by
  obtain ⟨name, content⟩ := s
  cases content with
  | none => simp
  | some q => simp [List.count_cons, Nat.add_comm]

/-- The content of a slot takes the place of the one before. -/
theorem count_putSlot (p : α) :
    ((putSlot slot content l).filterMap (·.2)).count p + (l.lookup slot).join.toList.count p =
      (l.filterMap (·.2)).count p + content.toList.count p := by
  induction l with
  | nil => simp [putSlot, count_filterMap_cons]
  | cons s l ih =>
    by_cases hs : s.1 = slot
    · rw [putSlot, if_pos hs, lookup_cons_self hs, Option.join_some, count_filterMap_cons,
        count_filterMap_cons]
      dsimp only
      omega
    · rw [putSlot, if_neg hs, lookup_cons_of_ne hs, count_filterMap_cons, count_filterMap_cons]
      omega

/-- A slot that is removed takes its content along. -/
theorem count_filter_ne (hl : (l.map (·.1)).Nodup) (p : α) :
    ((l.filter (·.1 ≠ slot)).filterMap (·.2)).count p + (l.lookup slot).join.toList.count p =
      (l.filterMap (·.2)).count p := by
  induction l with
  | nil => simp
  | cons s l ih =>
    obtain ⟨hs, hl⟩ := List.nodup_cons.1 hl
    by_cases heq : s.1 = slot
    · have hrest : l.filter (·.1 ≠ slot) = l := by
        apply List.filter_eq_self.2
        intro t ht
        have hne : t.1 ≠ slot := by
          intro ht'
          apply hs
          change s.1 ∈ l.map (·.1)
          rw [heq, ← ht']
          exact List.mem_map_of_mem ht
        simpa using hne
      rw [List.filter_cons_of_neg (by simpa using heq), hrest, lookup_cons_self heq,
        count_filterMap_cons, Option.join_some]
      omega
    · have hrest := ih hl
      rw [List.filter_cons_of_pos (by simpa using heq), lookup_cons_of_ne heq,
        count_filterMap_cons, count_filterMap_cons]
      omega

end

/-! ### What each operation does to a resource -/

section
variable {h : Handles α}

theorem IsDistinct.put (hd : h.IsDistinct) : (h.put slot content).IsDistinct := nodup_putSlot hd

theorem IsDistinct.destroy (hd : h.IsDistinct) : (h.destroy slot).IsDistinct :=
  hd.sublist (List.filter_sublist.map _)

theorem IsDistinct.reset (hd : h.IsDistinct) : (h.reset slot content).IsDistinct := by
  rw [Handles.reset]
  cases h.get? slot with
  | none => exact hd
  | some old => exact hd.put

theorem IsDistinct.take (hd : h.IsDistinct) : (h.take slot).2.IsDistinct := by
  rw [Handles.take]
  cases h.get? slot with
  | none => exact hd
  | some old => exact hd.put

theorem IsDistinct.step (hd : h.IsDistinct) (s : HandleStep α) : (h.step s).2.IsDistinct := by
  cases s with
  | construct slot resource => exact hd.destroy.put
  | moveConstruct slot source => exact hd.destroy.take.put
  | moveAssign slot source =>
    rw [Handles.step]
    split_ifs
    · exact hd
    · exact hd.take.reset
  | release slot => exact hd.take
  | reset slot resource => exact hd.reset
  | destroy slot => exact hd.destroy

theorem get?_destroy : (h.destroy slot).get? slot = none := lookup_filter_ne

theorem get?_put_of_ne {other : String} (hne : other ≠ slot) :
    (h.put slot content).get? other = h.get? other := lookup_putSlot_of_ne hne

theorem get?_take_of_ne {other : String} (hne : other ≠ slot) :
    (h.take slot).2.get? other = h.get? other := by
  rw [take]
  cases h.get? slot with
  | none => rfl
  | some old => exact get?_put_of_ne hne

variable [DecidableEq α]

/-- How often a resource is owned or has been released. -/
def kept (h : Handles α) (p : α) : Nat := h.owners.count p + h.released.count p

theorem kept_put (p : α) :
    (h.put slot content).kept p + (h.owned slot).toList.count p =
      h.kept p + content.toList.count p := by
  have hcount := @count_putSlot _ slot content h.slots _ p
  change ((putSlot slot content h.slots).filterMap (·.2)).count p + h.released.count p +
    (h.slots.lookup slot).join.toList.count p =
      (h.slots.filterMap (·.2)).count p + h.released.count p + content.toList.count p
  omega

theorem kept_free (p : α) : (h.free content).kept p = h.kept p + content.toList.count p := by
  change h.owners.count p + (h.released ++ content.toList).count p = _
  rw [List.count_append, kept, Nat.add_assoc]

/-- Destroying a handle releases what it owns, and loses nothing. -/
theorem kept_destroy (hd : h.IsDistinct) (p : α) : (h.destroy slot).kept p = h.kept p := by
  have hcount := @count_filter_ne _ slot h.slots _ hd p
  change ((h.slots.filter (·.1 ≠ slot)).filterMap (·.2)).count p +
    (h.released ++ (h.slots.lookup slot).join.toList).count p =
      (h.slots.filterMap (·.2)).count p + h.released.count p
  rw [List.count_append]
  omega

theorem kept_construct (hd : h.IsDistinct) (p : α) :
    (h.construct slot content).kept p = h.kept p + content.toList.count p := by
  have hput := @kept_put _ slot content (h.destroy slot) _ p
  rw [owned, get?_destroy, kept_destroy hd] at hput
  exact hput

/-- A handle that is there takes over what it is given, and releases what it had. -/
theorem kept_reset (hslot : h.get? slot ≠ none) (p : α) :
    (h.reset slot content).kept p = h.kept p + content.toList.count p := by
  have hput := @kept_put _ slot content h _ p
  rw [reset]
  cases hget : h.get? slot with
  | none => exact absurd hget hslot
  | some old =>
    rw [owned, hget, Option.join_some] at hput
    dsimp only
    rw [kept_free, hput]

theorem kept_take (p : α) :
    (h.take slot).2.kept p + (h.take slot).1.toList.count p = h.kept p := by
  have hput := @kept_put _ slot none h _ p
  rw [take]
  cases hget : h.get? slot with
  | none => simp
  | some old =>
    rw [owned, hget, Option.join_some] at hput
    simpa using hput

/-- What is owned or released after a step, or handed out by it, was so before or is given. -/
theorem kept_step (hd : h.IsDistinct) {s : HandleStep α}
    (htarget : ∀ slot ∈ s.target, h.get? slot ≠ none) (p : α) :
    (h.step s).2.kept p + (h.step s).1.toList.count p = h.kept p + s.given.toList.count p := by
  cases s with
  | construct slot resource => exact kept_construct hd p
  | moveConstruct slot source =>
    have htake := @kept_take _ source (h.destroy slot) _ p
    have hput := @kept_put _ slot ((h.destroy slot).take source).1
      ((h.destroy slot).take source).2 _ p
    -- The new handle stands in an empty slot, also where it is moved from itself.
    have hempty : ((h.destroy slot).take source).2.get? slot = none := by
      by_cases heq : slot = source
      · rw [← heq, take, get?_destroy]
        exact get?_destroy
      · rw [get?_take_of_ne heq, get?_destroy]
    rw [owned, hempty] at hput
    rw [kept_destroy hd] at htake
    change (((h.destroy slot).take source).2.put slot ((h.destroy slot).take source).1).kept p = _
    exact hput.trans htake
  | moveAssign slot source =>
    by_cases heq : slot = source
    · rw [step, if_pos heq]
      rfl
    · rw [step, if_neg heq]
      have hslot : (h.take source).2.get? slot ≠ none := by
        rw [get?_take_of_ne heq]
        exact htarget slot rfl
      change ((h.take source).2.reset slot (h.take source).1).kept p = _
      rw [kept_reset hslot]
      exact kept_take p
  | release slot => exact kept_take p
  | reset slot resource => exact kept_reset (htarget slot rfl) p
  | destroy slot => exact kept_destroy hd p

end
end Handles

/-! ### Runs -/

/-- The handles with all that was ever given to them, and with what they have handed out and not
been given again. -/
structure Ledger (α : Type) where
  handles : Handles α := {}
  given : List α := []
  handedOut : List α := []

namespace Ledger
variable {α : Type} [DecidableEq α] {l : Ledger α} {s : HandleStep α} {steps : List (HandleStep α)}

/-- A handle that is given something else is there, and what is given is neither owned nor
released. -/
structure Admits (l : Ledger α) (s : HandleStep α) : Prop where
  isThere : ∀ slot ∈ s.target, l.handles.get? slot ≠ none
  isFree : ∀ p ∈ s.given, p ∉ l.handles.owners ∧ p ∉ l.handles.released

def step (l : Ledger α) (s : HandleStep α) : Ledger α where
  handles := (l.handles.step s).2
  given := l.given ++ s.given.toList
  handedOut := l.handedOut.diff s.given.toList ++ (l.handles.step s).1.toList

def run (l : Ledger α) (steps : List (HandleStep α)) : Ledger α := steps.foldl step l

/-- Each step of a run is admitted when it is taken. -/
def AdmitsAll (l : Ledger α) : List (HandleStep α) → Prop
  | [] => True
  | s :: steps => l.Admits s ∧ (l.step s).AdmitsAll steps

instance (l : Ledger α) (s : HandleStep α) : Decidable (l.Admits s) :=
  decidable_of_iff ((∀ slot ∈ s.target, l.handles.get? slot ≠ none) ∧
    ∀ p ∈ s.given, p ∉ l.handles.owners ∧ p ∉ l.handles.released)
    ⟨fun h => ⟨h.1, h.2⟩, fun h => ⟨h.isThere, h.isFree⟩⟩

instance decidableAdmitsAll (l : Ledger α) :
    (steps : List (HandleStep α)) → Decidable (l.AdmitsAll steps)
  | [] => .isTrue trivial
  | s :: steps =>
    have := decidableAdmitsAll (l.step s) steps
    inferInstanceAs (Decidable (_ ∧ _))

/-- What was ever given is in one place, once: it is owned, released or handed out. -/
structure IsBalanced (l : Ledger α) : Prop where
  isDistinct : l.handles.IsDistinct
  count_eq : ∀ p, l.handles.kept p + l.handedOut.count p = if p ∈ l.given then 1 else 0

theorem isBalanced_empty : IsBalanced (α := α) {} := ⟨List.nodup_nil, fun _ => rfl⟩

theorem Admits.kept_eq_zero (h : l.Admits s) {p : α} (hp : s.given = some p) :
    l.handles.kept p = 0 := by
  obtain ⟨howned, hreleased⟩ := h.isFree p hp
  rw [Handles.kept, List.count_eq_zero.2 howned, List.count_eq_zero.2 hreleased]

theorem IsBalanced.step (hl : l.IsBalanced) (h : l.Admits s) : (l.step s).IsBalanced := by
  refine ⟨hl.isDistinct.step s, fun p => ?_⟩
  have hkept := Handles.kept_step hl.isDistinct h.isThere p
  have hcount := hl.count_eq p
  change (l.handles.step s).2.kept p +
    (l.handedOut.diff s.given.toList ++ (l.handles.step s).1.toList).count p =
      if p ∈ l.given ++ s.given.toList then 1 else 0
  rw [List.count_append, List.count_diff]
  by_cases hp : s.given = some p
  · -- What is given was at most handed out before.
    have hzero := h.kept_eq_zero hp
    have hle : l.handedOut.count p ≤ 1 := by
      split_ifs at hcount <;> omega
    rw [hp, Option.toList_some, List.count_singleton_self] at hkept ⊢
    rw [if_pos (List.mem_append_right _ (List.mem_singleton.2 rfl))]
    omega
  · have hnone : s.given.toList.count p = 0 := by
      rw [List.count_eq_zero]
      intro hmem
      exact hp (Option.mem_toList.1 hmem)
    have hiff : p ∈ l.given ++ s.given.toList ↔ p ∈ l.given := by
      rw [List.mem_append, or_iff_left (List.count_eq_zero.1 hnone)]
    rw [hnone] at hkept ⊢
    simp only [hiff]
    omega

theorem IsBalanced.run (hl : l.IsBalanced) (h : l.AdmitsAll steps) :
    (l.run steps).IsBalanced := by
  induction steps generalizing l with
  | nil => exact hl
  | cons s steps ih => exact ih (hl.step h.1) h.2

theorem AdmitsAll.take (h : l.AdmitsAll steps) (n : ℕ) : l.AdmitsAll (steps.take n) := by
  induction steps generalizing l n with
  | nil => rw [List.take_nil]; exact trivial
  | cons s steps ih =>
    cases n with
    | zero => exact trivial
    | succ n => exact ⟨h.1, ih h.2 n⟩

/-- At every point of a run each resource that was ever given is owned by one slot, handed out or
released, and released no more than once. Where no slot is left, all has been released that was not
handed out. -/
theorem released_once (h : AdmitsAll {} steps) (n : ℕ) :
    let l := run {} (steps.take n)
    (∀ p ∈ l.given,
      l.handles.owners.count p + l.handedOut.count p + l.handles.released.count p = 1) ∧
    (l.handles.slots = [] →
      ∀ p ∈ l.given, p ∉ l.handedOut → l.handles.released.count p = 1) := by
  intro l
  have hl : l.IsBalanced := isBalanced_empty.run (h.take n)
  have hcount : ∀ p ∈ l.given,
      l.handles.owners.count p + l.handedOut.count p + l.handles.released.count p = 1 := by
    intro p hp
    have hp' := hl.count_eq p
    rw [if_pos hp, Handles.kept] at hp'
    omega
  refine ⟨hcount, fun hslots p hp hout => ?_⟩
  have hone := hcount p hp
  have hnone : l.handles.owners = [] := by rw [Handles.owners, hslots, List.filterMap_nil]
  rw [hnone, List.count_nil, List.count_eq_zero.2 hout] at hone
  omega

/-- A run with moves onto occupied slots and onto the slot itself, with a resource that is handed
out and given again, and with empty handles. -/
def exampleSteps : List (HandleStep Nat) :=
  [.construct "a" (some 1), .construct "b" (some 2), .construct "c" none, .moveAssign "a" "a",
    .moveAssign "a" "b", .moveAssign "b" "c", .release "a", .construct "d" (some 2),
    .moveConstruct "a" "d", .reset "a" (some 3), .reset "c" none, .release "a", .destroy "a",
    .destroy "b", .destroy "c", .destroy "d"]

theorem released_once_moves :
    AdmitsAll {} exampleSteps ∧ (run {} exampleSteps).handles.slots = [] ∧
      (run {} exampleSteps).handedOut = [3] ∧
      (run {} exampleSteps).handles.released.count 1 = 1 := by
  have hadmits : AdmitsAll {} exampleSteps := by decide
  have hslots : (run {} exampleSteps).handles.slots = [] := by decide
  have hout : (run {} exampleSteps).handedOut = [3] := by decide
  refine ⟨hadmits, hslots, hout, ?_⟩
  exact (released_once hadmits 16).2 hslots 1 (by decide) (by decide)

end Ledger
end Bindery
