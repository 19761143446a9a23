import Bindery.Staging.Merge
import Bindery.Proofs.Annotation.Fragment
import Mathlib

/-!
# What a merge keeps

A merge visits the lines of its fragments in order and keeps or removes each. Only a constant on one
line that is met outside of all braces can be removed, and it is removed just if it has been kept
before; so nothing is lost, and a text that has been merged stays as it is when it is merged again.
-/
namespace Bindery.Merge
open Text

/-- A line as the merge comes to it, with the depth of braces there. -/
structure Visit where
  line : List Char
  depth : Int
  isKept : Bool

/-- Whether a constant on one line is met outside of all braces. -/
def Visit.isTop (v : Visit) : Bool := decide (v.depth = 0) && isConstant (trim v.line)

def kept (run : List Visit) : List (List Char) := (run.filter (·.isKept)).map (·.line)

/-- How many more braces some lines open than they close. -/
def depth (lines : List (List Char)) : Int := (lines.map (balance false)).sum

/-- The constants outside of all braces that are kept. -/
def constants (run : List Visit) : List (List Char) :=
  (run.filter fun v => v.isKept && v.isTop).map fun v => trim v.line

/-- The lines that are kept of each fragment, with an empty line after them. -/
def mergedLines (runs : List (List Visit)) : List (List Char) :=
  runs.flatMap fun run => kept run ++ [[]]

/-- The visits of the lines of some fragments: a line is removed only if it repeats a constant that
has been kept, and every constant outside of all braces is kept once. -/
structure IsAccount (fragments : List String) (runs : List (List Visit)) : Prop where
  lines_eq : runs.map (·.map Visit.line) = fragments.map fun f => lines f.toList
  depth_eq : ∀ run ∈ runs, ∀ front v back, run = front ++ v :: back → v.depth = depth (kept front)
  repeats : ∀ front v back, runs.flatten = front ++ v :: back → v.isKept = false →
    v.isTop = true ∧
      ∃ u ∈ front, u.isKept = true ∧ u.isTop = true ∧ trim u.line = trim v.line
  once : ∀ v ∈ runs.flatten, v.isTop = true →
    (runs.flatten.countP fun u => u.isKept && u.isTop && decide (trim u.line = trim v.line)) = 1

variable {seen seen' : List (List Char)} {d : Int} {run front back : List Visit}
  {runs : List (List Visit)} {v : Visit} {line : List Char} {fragments : List String}

/-! ### Lines and what is kept of them -/

@[simp] theorem kept_nil : kept [] = [] := rfl

@[simp] theorem kept_removed : kept (⟨line, d, false⟩ :: run) = kept run := rfl

@[simp] theorem kept_kept : kept (⟨line, d, true⟩ :: run) = line :: kept run := rfl

@[simp] theorem depth_nil : depth [] = 0 := rfl

@[simp] theorem depth_cons (line : List Char) (ls : List (List Char)) :
    depth (line :: ls) = balance false line + depth ls := List.sum_cons

theorem constants_append (run more : List Visit) :
    constants (run ++ more) = constants run ++ constants more := by
  simp [constants]

theorem constants_cons (v : Visit) (run : List Visit) : constants (v :: run) =
    (if v.isKept && v.isTop then [trim v.line] else []) ++ constants run := by
  rw [constants, List.filter_cons]
  split <;> rfl

theorem mem_constants {stmt : List Char} : stmt ∈ constants run ↔
    ∃ u ∈ run, u.isKept = true ∧ u.isTop = true ∧ trim u.line = stmt := by
  simp [constants, and_assoc]

theorem newline_notMem_lines {cs : List Char} (h : line ∈ lines cs) : '\n' ∉ line := by
  simp only [lines] at h
  split at h
  · exact not_mem_of_mem_splitOn (List.mem_of_mem_dropLast h)
  · exact not_mem_of_mem_splitOn h

/-- Lines are read back from a text in which a line feed ends each of them. -/
theorem lines_renderLines {ls : List (List Char)} (h : ∀ line ∈ ls, '\n' ∉ line) :
    lines (renderLines ls) = ls := by
  have hsplit : splitOn '\n' (renderLines ls) = ls ++ [[]] := by
    have := Fragment.splitOn_wholeLines h []
    rwa [List.append_nil] at this
  simp [lines, hsplit]

theorem renderLines_cons (line : List Char) (ls : List (List Char)) :
    renderLines (line :: ls) = line ++ '\n' :: renderLines ls := by simp [renderLines]

theorem renderLines_append (ls more : List (List Char)) :
    renderLines (ls ++ more) = renderLines ls ++ renderLines more := List.flatMap_append

/-! ### A walk through one fragment -/

/-- The visits of the lines of a fragment from some depth on, with the constants seen before and
after them. -/
inductive Walk : List (List Char) → Int → List Visit → List (List Char) → Prop
  | nil {seen : List (List Char)} {d : Int} : Walk seen d [] seen
  | repeated {seen seen' : List (List Char)} {line : List Char} {run : List Visit}
      (hconst : isConstant (trim line) = true) (hseen : trim line ∈ seen)
      (h : Walk seen 0 run seen') : Walk seen 0 (⟨line, 0, false⟩ :: run) seen'
  | first {seen seen' : List (List Char)} {line : List Char} {run : List Visit}
      (hconst : isConstant (trim line) = true) (hnew : trim line ∉ seen)
      (h : Walk (trim line :: seen) (0 + balance false line) run seen') :
      Walk seen 0 (⟨line, 0, true⟩ :: run) seen'
  | other {seen seen' : List (List Char)} {d : Int} {line : List Char} {run : List Visit}
      (hother : ¬ (d = 0 ∧ isConstant (trim line) = true))
      (h : Walk seen (d + balance false line) run seen') : Walk seen d (⟨line, d, true⟩ :: run) seen'

theorem exists_walk (seen : List (List Char)) (d : Int) (ls : List (List Char)) :
    ∃ run, Walk seen d run (keep seen d ls).constants ∧ run.map (·.line) = ls ∧
      kept run = (keep seen d ls).lines := by
  induction ls generalizing seen d with
  | nil => exact ⟨[], .nil, rfl, rfl⟩
  | cons line ls ih =>
    by_cases htop : d = 0 ∧ isConstant (trim line) = true
    · obtain ⟨rfl, hconst⟩ := htop
      by_cases hseen : trim line ∈ seen
      · obtain ⟨run, hwalk, hlines, hkept⟩ := ih seen 0
        have hkeep : keep seen 0 (line :: ls) = keep seen 0 ls := by
          rw [keep, if_pos ⟨⟨rfl, hconst⟩, hseen⟩]
        rw [hkeep]
        exact ⟨⟨line, 0, false⟩ :: run, .repeated hconst hseen hwalk, by simp [hlines], hkept⟩
      · obtain ⟨run, hwalk, hlines, hkept⟩ := ih (trim line :: seen) (0 + balance false line)
        rw [keep, if_neg fun h => hseen h.2, if_pos ⟨rfl, hconst⟩]
        exact ⟨⟨line, 0, true⟩ :: run, .first hconst hseen hwalk, by simp [hlines], by simp [hkept]⟩
    · obtain ⟨run, hwalk, hlines, hkept⟩ := ih seen (d + balance false line)
      rw [keep, if_neg fun h => htop h.1, if_neg htop]
      exact ⟨⟨line, d, true⟩ :: run, .other htop hwalk, by simp [hlines], by simp [hkept]⟩

namespace Walk

/-- A line is met at the depth of what has been kept above it. -/
theorem depth_eq (h : Walk seen d run seen') (hrun : run = front ++ v :: back) :
    v.depth = d + depth (kept front) := by
  induction h generalizing front with
  | nil => simp at hrun
  | repeated _ _ _ ih | first _ _ _ ih | other _ _ ih =>
    cases front with
    | nil =>
      obtain ⟨rfl, -⟩ := List.cons.inj hrun
      exact (add_zero _).symm
    | cons u front =>
      obtain ⟨rfl, htail⟩ := List.cons.inj hrun
      simp [ih htail, add_assoc]

theorem seen_eq (h : Walk seen d run seen') : seen' = (constants run).reverse ++ seen := by
  induction h with
  | nil => rfl
  | repeated _ _ _ ih => simp [ih, constants_cons]
  | first hconst _ _ ih => simp [ih, constants_cons, Visit.isTop, hconst]
  | other hother _ ih =>
    have htop : ∀ line d, ¬ (d = 0 ∧ isConstant (trim line) = true) →
        (Visit.mk line d true).isTop = false := by
      simp [Visit.isTop]
    simp [ih, constants_cons, htop _ _ hother]

theorem nodup (h : Walk seen d run seen') (hnodup : seen.Nodup) : seen'.Nodup := by
  induction h with
  | nil => exact hnodup
  | repeated _ _ _ ih | other _ _ ih => exact ih hnodup
  | first _ hnew _ ih => exact ih (List.nodup_cons.2 ⟨hnew, hnodup⟩)

/-- The lines that are removed are the constants outside of all braces that have been seen. -/
theorem removed_iff (h : Walk seen d run seen') (hrun : run = front ++ v :: back) :
    v.isKept = false ↔ v.isTop = true ∧ trim v.line ∈ constants front ++ seen := by
  induction h generalizing front with
  | nil => simp at hrun
  | repeated hconst hseen h ih =>
    cases front with
    | nil =>
      obtain ⟨rfl, -⟩ := List.cons.inj hrun
      simp [Visit.isTop, constants, hconst, hseen]
    | cons u front =>
      obtain ⟨rfl, htail⟩ := List.cons.inj hrun
      simpa [constants_cons] using ih htail
  | first hconst hnew h ih =>
    cases front with
    | nil =>
      obtain ⟨rfl, -⟩ := List.cons.inj hrun
      simp [constants, hnew]
    | cons u front =>
      obtain ⟨rfl, htail⟩ := List.cons.inj hrun
      rw [ih htail]
      simp only [constants_cons, Visit.isTop, hconst, decide_true, Bool.and_self, if_true,
        List.mem_append, List.mem_cons, List.not_mem_nil, or_false]
      tauto
  | @other _ _ d line _ hother h ih =>
    have htop : (Visit.mk line d true).isTop = false := by simpa [Visit.isTop] using hother
    cases front with
    | nil =>
      obtain ⟨rfl, -⟩ := List.cons.inj hrun
      simp [htop]
    | cons u front =>
      obtain ⟨rfl, htail⟩ := List.cons.inj hrun
      simpa [constants_cons, htop] using ih htail

/-- What has been kept is kept again, as far as the constants seen before are the same. -/
theorem keep_kept (h : Walk seen d run seen') (rest : List (List Char)) :
    keep seen d (kept run ++ rest) =
      ⟨(keep seen' (d + depth (kept run)) rest).constants,
        kept run ++ (keep seen' (d + depth (kept run)) rest).lines⟩ := by
  induction h with
  | nil => simp
  | repeated _ _ _ ih => exact ih
  | first hconst hnew _ ih =>
    rw [Merge.kept_kept, List.cons_append, keep, if_neg fun h => hnew h.2, if_pos ⟨rfl, hconst⟩, ih]
    simp
  | other hother _ ih =>
    rw [Merge.kept_kept, List.cons_append, keep, if_neg fun h => hother h.1, if_neg hother, ih]
    simp [add_assoc]

end Walk

/-! ### Walks through all fragments -/

/-- Walks through fragments one after the other, each from outside of all braces. -/
inductive Walks : List (List Char) → List (List Visit) → List (List Char) → Prop
  | nil {seen : List (List Char)} : Walks seen [] seen
  | cons {seen mid seen' : List (List Char)} {run : List Visit} {runs : List (List Visit)}
      (h : Walk seen 0 run mid) (hs : Walks mid runs seen') : Walks seen (run :: runs) seen'

theorem exists_walks (seen : List (List Char)) (fs : List (List Char)) :
    ∃ runs seen', Walks seen runs seen' ∧ runs.map (·.map Visit.line) = fs.map lines ∧
      runs.map kept = keepAll seen fs := by
  induction fs generalizing seen with
  | nil => exact ⟨[], seen, .nil, rfl, rfl⟩
  | cons f fs ih =>
    obtain ⟨run, hwalk, hlines, hkept⟩ := exists_walk seen 0 (lines f)
    obtain ⟨runs, seen', hwalks, hmap, hkeep⟩ := ih (keep seen 0 (lines f)).constants
    exact ⟨run :: runs, seen', .cons hwalk hwalks, by rw [List.map_cons, hlines, hmap]; rfl,
      by rw [List.map_cons, hkept, hkeep]; rfl⟩

namespace Walks

theorem exists_walk (h : Walks seen runs seen') (hrun : run ∈ runs) :
    ∃ before after, Walk before 0 run after := by
  induction h with
  | nil => exact absurd hrun List.not_mem_nil
  | cons hwalk _ ih =>
    rcases List.mem_cons.1 hrun with rfl | hrun
    · exact ⟨_, _, hwalk⟩
    · exact ih hrun

theorem seen_eq (h : Walks seen runs seen') :
    seen' = (constants runs.flatten).reverse ++ seen := by
  induction h with
  | nil => rfl
  | cons hwalk _ ih =>
    rw [ih, hwalk.seen_eq, List.flatten_cons, constants_append, List.reverse_append,
      List.append_assoc]

theorem nodup (h : Walks seen runs seen') (hnodup : seen.Nodup) : seen'.Nodup := by
  induction h with
  | nil => exact hnodup
  | cons hwalk _ ih => exact ih (hwalk.nodup hnodup)

theorem removed_iff (h : Walks seen runs seen') (hruns : runs.flatten = front ++ v :: back) :
    v.isKept = false ↔ v.isTop = true ∧ trim v.line ∈ constants front ++ seen := by
  induction h generalizing front with
  | nil => simp at hruns
  | @cons seen mid seen' run runs hwalk hs ih =>
    rw [List.flatten_cons] at hruns
    rcases List.append_eq_append_iff.1 hruns with ⟨more, rfl, hmore⟩ | ⟨more, rfl, hmore⟩
    · rw [ih hmore, hwalk.seen_eq, constants_append]
      simp only [List.mem_append, List.mem_reverse]
      tauto
    · cases more with
      | nil =>
        rw [@ih [] hmore.symm, hwalk.seen_eq, List.append_nil]
        simp [constants]
      | cons u more =>
        obtain ⟨rfl, -⟩ := List.cons.inj hmore
        exact hwalk.removed_iff rfl

/-- A constant that has been met outside of all braces has been kept. -/
theorem mem_constants_of_isTop (h : Walks [] runs seen') (hruns : runs.flatten = front ++ back)
    (hv : v ∈ front) (htop : v.isTop = true) : trim v.line ∈ constants front := by
  obtain ⟨above, below, rfl⟩ := List.append_of_mem hv
  rw [List.append_assoc, List.cons_append] at hruns
  rw [constants_append, constants_cons]
  cases hkept : v.isKept with
  | true => simp [htop]
  | false =>
    have hseen := ((h.removed_iff hruns).1 hkept).2
    rw [List.append_nil] at hseen
    exact List.mem_append_left _ hseen

/-- A constant outside of all braces is kept if it has not been met there before. -/
theorem isKept_iff (h : Walks [] runs seen') (hruns : runs.flatten = front ++ v :: back)
    (htop : v.isTop = true) :
    v.isKept = true ↔ ∀ u ∈ front, u.isTop = true → trim u.line ≠ trim v.line := by
  rw [← Bool.not_eq_false, h.removed_iff hruns, List.append_nil]
  constructor
  · intro hkept u hu hutop htext
    exact hkept ⟨htop, htext ▸ h.mem_constants_of_isTop hruns hu hutop⟩
  · rintro hnew ⟨-, hseen⟩
    obtain ⟨u, hu, -, hutop, htext⟩ := mem_constants.1 hseen
    exact hnew u hu hutop htext

/-- Each constant outside of all braces is kept once. -/
theorem count_constants (h : Walks [] runs seen') (hv : v ∈ runs.flatten) (htop : v.isTop = true) :
    (constants runs.flatten).count (trim v.line) = 1 := by
  have hnodup : (constants runs.flatten).Nodup := by
    have := h.nodup List.nodup_nil
    rwa [h.seen_eq, List.append_nil, List.nodup_reverse] at this
  have hmem := h.mem_constants_of_isTop (List.append_nil _).symm hv htop
  exact List.count_eq_one_of_mem hnodup hmem

theorem isAccount (h : Walks [] runs seen')
    (hlines : runs.map (·.map Visit.line) = fragments.map fun f => lines f.toList) :
    IsAccount fragments runs where
  lines_eq := hlines
  depth_eq run hrun front v back hsplit := by
    obtain ⟨_, _, hwalk⟩ := h.exists_walk hrun
    rw [hwalk.depth_eq hsplit, zero_add]
  repeats front v back hsplit hkept := by
    obtain ⟨htop, hseen⟩ := (h.removed_iff hsplit).1 hkept
    rw [List.append_nil] at hseen
    exact ⟨htop, mem_constants.1 hseen⟩
  once v hv htop := by
    rw [← h.count_constants hv htop, constants, List.count, List.countP_map, List.countP_filter]
    refine List.countP_congr fun u _ => ?_
    simp [and_comm]

/-- The merged lines are all kept when they are visited as one fragment. -/
theorem keep_mergedLines (h : Walks seen runs seen') (hends : ∀ run ∈ runs, depth (kept run) = 0) :
    (keep seen 0 (mergedLines runs)).lines = mergedLines runs := by
  induction h with
  | nil => rfl
  | @cons seen mid seen' run runs hwalk _ ih =>
    obtain ⟨hrun, hruns⟩ := List.forall_mem_cons.1 hends
    have hempty : keep mid 0 ([] :: mergedLines runs) =
        ⟨(keep mid 0 (mergedLines runs)).constants, [] :: (keep mid 0 (mergedLines runs)).lines⟩ := by
      simp [keep, isConstant, trim, balance]
    rw [mergedLines, List.flatMap_cons, ← mergedLines, List.append_assoc, hwalk.keep_kept, hrun,
      add_zero, List.singleton_append, hempty, ih hruns]

end Walks

/-! ### The merged text -/

/-- The visits of a merge, and the text that is made of what they keep. -/
theorem exists_runs (fragments : List String) :
    ∃ runs seen', Walks [] runs seen' ∧
      runs.map (·.map Visit.line) = (fragments.map fun f => lines f.toList) ∧
      (merge fragments).toList = renderLines (mergedLines runs) := by
  obtain ⟨runs, seen', hwalks, hlines, hkept⟩ := exists_walks [] (fragments.map String.toList)
  refine ⟨runs, seen', hwalks, by rw [hlines, List.map_map]; rfl, ?_⟩
  rw [merge, String.toList_ofList, ← hkept, mergedLines, renderLines, List.flatMap_assoc,
    List.flatMap_map]
  refine List.flatMap_congr fun run _ => ?_
  rw [← renderLines, renderLines_append]
  rfl

theorem newline_notMem_mergedLines
    (h : runs.map (·.map Visit.line) = fragments.map fun f => lines f.toList) :
    ∀ line ∈ mergedLines runs, '\n' ∉ line := by
  intro line hline
  obtain ⟨run, hrun, hline⟩ := List.mem_flatMap.1 hline
  rcases List.mem_append.1 hline with hline | hline
  · obtain ⟨v, hv, rfl⟩ := List.mem_map.1 hline
    have hmem : run.map Visit.line ∈ runs.map (·.map Visit.line) := List.mem_map_of_mem hrun
    rw [h] at hmem
    obtain ⟨f, -, hf⟩ := List.mem_map.1 hmem
    have hvline : v.line ∈ lines f.toList :=
      hf ▸ List.mem_map_of_mem (List.mem_of_mem_filter hv)
    exact newline_notMem_lines hvline
  · simp_all

/-- The text of a merge is that of the lines it keeps, each with its line feed, and an empty line
after those of each fragment. A removed line repeats a constant that is kept above it, where both
are met outside of all braces, and of such constants each is kept once. Therefore a merge of the
merged text only adds a line feed, if the lines kept of each fragment close all braces they open. -/
theorem merge_account (fragments : List String) :
    ∃ runs, IsAccount fragments runs ∧
      (merge fragments).toList = renderLines (mergedLines runs) ∧
      lines (merge fragments).toList = mergedLines runs ∧
      ((∀ run ∈ runs, depth (kept run) = 0) →
        merge [merge fragments] = merge fragments ++ "\n") := by
  obtain ⟨runs, seen', hwalks, hlines, htext⟩ := exists_runs fragments
  have hread : lines (merge fragments).toList = mergedLines runs := by
    rw [htext, lines_renderLines (newline_notMem_mergedLines hlines)]
  refine ⟨runs, hwalks.isAccount hlines, htext, hread, fun hends => ?_⟩
  have hagain : keepAll [] [(merge fragments).toList] = [mergedLines runs] := by
    rw [keepAll, hread, hwalks.keep_mergedLines hends]
    rfl
  apply String.toList_injective
  rw [merge, List.map_singleton, hagain, String.toList_ofList, String.toList_append, htext]
  simp

end Bindery.Merge
