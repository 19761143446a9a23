import Mathlib
import Bindery.Path

/-!
# Paths in order

Sorting keeps the paths of a list, and so does taking each path once. Where paths with the same
components are equal, the order in which they are found makes no difference after sorting.
-/
namespace Bindery.Path
variable {p q r : Path} {ps qs : List Path}

theorem mem_of_mem_eraseDupsBy {α : Type} {r : α → α → Bool} {a : α} {l : List α}
    (h : a ∈ l.eraseDupsBy r) : a ∈ l := by
  induction hn : l.length using Nat.strong_induction_on generalizing l with
  | _ n ih =>
    cases l with
    | nil => exact h
    | cons b l =>
      rw [List.eraseDupsBy_cons] at h
      rcases List.mem_cons.1 h with rfl | h
      · exact List.mem_cons_self
      · have hlen : (l.filter fun c => decide (r c b = false)).length < n := by
          have := List.length_filter_le (fun c => decide (r c b = false)) l
          rw [List.length_cons] at hn
          omega
        exact List.mem_cons_of_mem _ (List.mem_of_mem_filter (ih _ hlen h rfl))

theorem mem_sort : p ∈ sort ps ↔ p ∈ ps := List.mem_mergeSort

/-! ### Sorting -/

/-- Paths in order: relative ones before absolute ones. -/
theorem lt_iff : p.lt q = true ↔
    (p.isAbsolute = false ∧ q.isAbsolute = true) ∨
      (p.isAbsolute = q.isAbsolute ∧ p.components < q.components) := by
  rw [lt]
  by_cases h : p.isAbsolute = q.isAbsolute
  · rw [if_pos h, decide_eq_true_iff]
    constructor
    · exact fun hlt => .inr ⟨h, hlt⟩
    · rintro (⟨hp, hq⟩ | ⟨_, hlt⟩)
      · rw [hp, hq] at h
        cases h
      · exact hlt
  · rw [if_neg h]
    constructor
    · intro hq
      rw [hq, Bool.not_eq_true] at h
      exact .inl ⟨h, hq⟩
    · rintro (⟨_, hq⟩ | ⟨heq, _⟩)
      · exact hq
      · exact absurd heq h

theorem not_lt_iff : (!p.lt q) = true ↔
    (p.isAbsolute = true ∧ q.isAbsolute = false) ∨
      (p.isAbsolute = q.isAbsolute ∧ q.components ≤ p.components) := by
  rw [Bool.not_eq_true', ← Bool.not_eq_true, lt_iff, not_or, not_and, not_and, not_lt]
  cases p.isAbsolute <;> cases q.isAbsolute <;> simp

theorem not_lt_trans (p q r : Path) (hpq : (!q.lt p) = true) (hqr : (!r.lt q) = true) :
    (!r.lt p) = true := by
  rw [not_lt_iff] at *
  rcases hpq with ⟨hq, hp⟩ | ⟨hpq, hle⟩
  · rcases hqr with ⟨_, hq'⟩ | ⟨hqr, _⟩
    · rw [hq] at hq'
      cases hq'
    · exact .inl ⟨hqr.trans hq, hp⟩
  · rcases hqr with ⟨hr, hq⟩ | ⟨hqr, hle'⟩
    · exact .inl ⟨hr, hpq ▸ hq⟩
    · exact .inr ⟨hqr.trans hpq, hle.trans hle'⟩

theorem not_lt_total (p q : Path) : ((!q.lt p) || !p.lt q) = true := by
  rw [Bool.or_eq_true, not_lt_iff, not_lt_iff]
  rcases le_total p.components q.components with h | h
  · cases p.isAbsolute <;> cases q.isAbsolute <;> simp [h]
  · cases p.isAbsolute <;> cases q.isAbsolute <;> simp [h]

theorem components_eq_of_not_lt (hpq : (!q.lt p) = true) (hqp : (!p.lt q) = true) :
    p.components = q.components := by
  rw [not_lt_iff] at hpq hqp
  rcases hpq with ⟨hq, hp⟩ | ⟨_, hle⟩
  · rcases hqp with ⟨hp', _⟩ | ⟨heq, _⟩
    · rw [hp] at hp'
      cases hp'
    · rw [hp, hq] at heq
      cases heq
  · rcases hqp with ⟨hp, hq⟩ | ⟨_, hle'⟩
    · exact le_antisymm hle (by simp_all)
    · exact le_antisymm hle hle'

theorem pairwise_sort (ps : List Path) : (sort ps).Pairwise fun p q => (!q.lt p) = true :=
  @List.pairwise_mergeSort Path (fun p q => !q.lt p) not_lt_trans not_lt_total ps

/-- Paths that their components tell apart. -/
def AreDistinct (ps : List Path) : Prop :=
  ∀ p ∈ ps, ∀ q ∈ ps, p.components = q.components → p = q

/-- The order in which paths are found makes no difference. -/
theorem sort_eq_of_perm (h : ps.Perm qs) (hps : AreDistinct ps) : sort ps = sort qs := by
  have hperm : (sort ps).Perm (sort qs) :=
    (List.mergeSort_perm ps _).trans (h.trans (List.mergeSort_perm qs _).symm)
  refine List.Perm.eq_of_pairwise (fun a b ha hb hab hba => ?_) (pairwise_sort ps)
    (pairwise_sort qs) hperm
  exact hps a (mem_sort.1 ha) b (h.mem_iff.2 (mem_sort.1 hb)) (components_eq_of_not_lt hab hba)

/-! ### Taking each path once -/

theorem mem_distinct (hps : AreDistinct ps) : p ∈ distinct ps ↔ p ∈ ps := by
  refine ⟨mem_of_mem_eraseDupsBy, ?_⟩
  rw [distinct]
  induction hn : ps.length using Nat.strong_induction_on generalizing ps with
  | _ n ih =>
    cases ps with
    | nil => exact id
    | cons b l =>
      intro h
      rw [List.eraseDupsBy_cons]
      by_cases hpb : p = b
      · rw [hpb]
        exact List.mem_cons_self
      · have hl := (List.mem_cons.1 h).resolve_left hpb
        have hne : p.same b = false := by
          rw [same, decide_eq_false_iff_not]
          exact fun heq => hpb (hps p h b List.mem_cons_self heq)
        refine List.mem_cons_of_mem _ (ih _ ?_ (fun x hx y hy => ?_) rfl ?_)
        · have := List.length_filter_le (fun c => decide (same c b = false)) l
          rw [List.length_cons] at hn
          omega
        · exact hps x (List.mem_cons_of_mem _ (List.mem_of_mem_filter hx)) y
            (List.mem_cons_of_mem _ (List.mem_of_mem_filter hy))
        · exact List.mem_filter.2 ⟨hl, decide_eq_true hne⟩

/-- Paths that are told apart by their components are told apart by their spelling. -/
theorem distinct_eq_eraseDups (hps : AreDistinct ps) : distinct ps = ps.eraseDups := by
  rw [distinct]
  induction hn : ps.length using Nat.strong_induction_on generalizing ps with
  | _ n ih =>
    cases ps with
    | nil => rfl
    | cons b l =>
      have hfilter : l.filter (fun c => decide (same c b = false)) = l.filter fun c => !c == b := by
        refine List.filter_congr fun c hc => ?_
        have hsame : c.same b = (c == b) := by
          rw [Bool.eq_iff_iff, same, decide_eq_true_iff, beq_iff_eq]
          exact ⟨hps c (List.mem_cons_of_mem _ hc) b List.mem_cons_self, congrArg components⟩
        rw [hsame]
        cases c == b <;> rfl
      rw [List.eraseDupsBy_cons, List.eraseDups_cons, ← hfilter]
      refine congrArg (b :: ·) (ih _ ?_ (fun x hx y hy => ?_) rfl)
      · have := List.length_filter_le (fun c => decide (same c b = false)) l
        rw [List.length_cons] at hn
        omega
      · exact hps x (List.mem_cons_of_mem _ (List.mem_of_mem_filter hx)) y
          (List.mem_cons_of_mem _ (List.mem_of_mem_filter hy))

theorem nodup_distinct (ps : List Path) : (distinct ps).Nodup := by
  rw [distinct]
  induction hn : ps.length using Nat.strong_induction_on generalizing ps with
  | _ n ih =>
    cases ps with
    | nil => exact List.nodup_nil
    | cons b l =>
      rw [List.eraseDupsBy_cons]
      refine List.nodup_cons.2 ⟨fun h => ?_, ih _ ?_ _ rfl⟩
      · have hb := (List.mem_filter.1 (mem_of_mem_eraseDupsBy h)).2
        simp [same] at hb
      · have := List.length_filter_le (fun c => decide (same c b = false)) l
        rw [List.length_cons] at hn
        omega

theorem AreDistinct.perm (hps : AreDistinct ps) (h : ps.Perm qs) : AreDistinct qs :=
  fun p hp q hq => hps p (h.mem_iff.2 hp) q (h.mem_iff.2 hq)

theorem sort_distinct_eq_of_perm (h : ps.Perm qs) (hps : AreDistinct ps) :
    sort (distinct ps) = sort (distinct qs) := by
  refine sort_eq_of_perm ?_ fun p hp q hq => ?_
  · refine (List.perm_ext_iff_of_nodup (nodup_distinct ps) (nodup_distinct qs)).2 fun p => ?_
    rw [mem_distinct hps, mem_distinct (hps.perm h), h.mem_iff]
  · exact hps p (mem_of_mem_eraseDupsBy hp) q (mem_of_mem_eraseDupsBy hq)

end Bindery.Path
