import Bindery.Proofs.Merge.Visits
import Bindery.Proofs.Zig.Nesting

/-!
# Merging leaves blocks alone

The depth that a merge keeps of a fragment is the nesting of its blocks, as long as no character in
quotes and no string of several lines misleads the count, and the braces of a constant are not
hidden. Then no line within a block is removed, and of equal constants outside of all blocks the
first one stays.
-/
namespace Bindery.Merge
open Text Zig

/-- Whether a statement without blanks around it declares a constant and ends on its line. -/
def isDeclaration (stmt : List Char) : Bool :=
  let stmt := if "pub ".toList.isPrefixOf stmt then trim (stmt.drop 4) else stmt
  "const ".toList.isPrefixOf stmt && stmt.getLast? = some ';' && '=' ∈ stmt

/-- A constant that opens and closes its blocks on one line. -/
def IsConstantLine (line : List Char) : Prop :=
  isDeclaration (trim line) = true ∧ nesting (tokens line) = 0

/-- A token whose braces are counted as they should be. -/
def IsCounted : Zig.Token → Prop
  | .quoted quote text =>
    quote = '\'' → '"' ∉ text ∧ ¬ ['/', '/'] <:+: text ∧ weights text = 0
  | .line text => balance false text = 0
  | _ => True

instance (t : Zig.Token) : Decidable (IsCounted t) :=
  match t with
  | .quoted _ _ => inferInstanceAs (Decidable (_ → _ ∧ _ ∧ _))
  | .line _ => inferInstanceAs (Decidable (_ = _))
  | .space _ | .word _ | .mark _ | .comment _ => inferInstanceAs (Decidable True)

/-- A fragment whose braces are counted as they should be: those in the literals and comments of a
constant cancel each other. -/
structure IsClear (fragment : List Char) : Prop where
  counted : ∀ t ∈ tokens fragment, IsCounted t
  declared : ∀ line ∈ lines fragment, isDeclaration (trim line) = true → hidden (tokens line) = 0

variable {c : Char} {cs ds line rest : List Char}

/-! ### Counting a line -/

theorem balance_cons (hquote : c ≠ '"') (hcomment : ¬ (c = '/' ∧ cs.head? = some '/')) :
    balance false (c :: cs) = weight c + balance false cs := by
  by_cases hescape : c = '\\'
  · subst hescape
    cases cs <;> simp [balance, weight]
  · have hslash : ∀ ds, c = '/' → cs = '/' :: ds → False := by
      rintro ds rfl rfl
      exact hcomment ⟨rfl, rfl⟩
    rw [balance.eq_6 false c cs hescape hslash hquote, if_neg Bool.false_ne_true, weight]
    split_ifs <;> omega

theorem balance_comment (cs : List Char) : balance false ('/' :: '/' :: cs) = 0 := by
  simp [balance]

theorem balance_inside (hquote : c ≠ '"') (hescape : c ≠ '\\') :
    balance true (c :: cs) = balance true cs := by
  by_cases hslash : ∃ ds, c = '/' ∧ cs = '/' :: ds
  · obtain ⟨ds, rfl, rfl⟩ := hslash
    rw [balance.eq_4, if_pos rfl]
  · rw [balance.eq_6 true c cs hescape (fun ds h h' => hslash ⟨ds, h, h'⟩) hquote, if_pos rfl]

/-- The count goes on after a string, and so it does from behind a backslash in it. -/
theorem balance_string (hcs : '\n' ∉ cs) :
    balance true cs = balance false (literal '"' false cs).2 ∧
      balance true ('\\' :: cs) = balance false (literal '"' true cs).2 := by
  induction cs with
  | nil => simp [balance, literal]
  | cons c cs ih =>
    obtain ⟨hc, hcs⟩ := not_or.1 (List.mem_cons.not.1 hcs)
    obtain ⟨hplain, hescaped⟩ := ih hcs
    have hrest : ∀ isEscaped, (literal '"' isEscaped (c :: cs)).2 =
        if c = '"' ∧ isEscaped = false then cs
        else (literal '"' (!isEscaped && c = '\\') cs).2 := by
      intro isEscaped
      rw [literal, if_neg (Ne.symm hc)]
      split_ifs <;> rfl
    rw [hrest, hrest]
    constructor
    · by_cases hquote : c = '"'
      · subst hquote
        exact balance.eq_5 true cs
      · rw [if_neg (fun h => hquote h.1)]
        by_cases hescape : c = '\\'
        · subst hescape
          exact hescaped
        · rw [balance_inside hquote hescape, hplain]
          simp [hescape]
    · rw [if_neg (by simp), balance.eq_2, if_pos rfl, hplain]
      rfl

/-- Characters without quotes and comments count as what they show. -/
theorem balance_append (hquote : '"' ∉ cs) (hcomment : ¬ ['/', '/'] <:+: cs)
    (hlast : cs.getLast? = some '/' → rest.head? ≠ some '/') :
    balance false (cs ++ rest) = weights cs + balance false rest := by
  induction cs with
  | nil => simp
  | cons c cs ih =>
    obtain ⟨hc, hquote⟩ := not_or.1 (List.mem_cons.not.1 hquote)
    have hnext : ¬ (c = '/' ∧ (cs ++ rest).head? = some '/') := by
      rintro ⟨rfl, hhead⟩
      cases cs with
      | nil => exact hlast rfl hhead
      | cons d cs =>
        obtain rfl : d = '/' := Option.some.inj hhead
        exact hcomment ⟨[], cs, rfl⟩
    rw [List.cons_append, balance_cons (Ne.symm hc) hnext, weights_cons, ih hquote, add_assoc]
    · exact fun h => hcomment (h.trans (List.suffix_cons c cs).isInfix)
    · intro h
      exact hlast (by rw [List.getLast?_cons, h]; rfl)

theorem balance_word {name : List Char} (h : ∀ d ∈ name, isNameChar d = true) :
    balance false (name ++ rest) = balance false rest := by
  have hslash : '/' ∉ name := fun hmem => absurd (h _ hmem) (by decide)
  rw [balance_append (fun hmem => absurd (h _ hmem) (by decide)),
    weights_eq_zero fun d hd => weight_eq_zero rfl rfl (h d hd), zero_add]
  · exact fun hslashes => hslash (hslashes.subset List.mem_cons_self)
  · exact fun hlast => absurd (List.mem_of_getLast? hlast) hslash

/-- A token counts as what it opens. -/
theorem balance_lexeme (hcs : '\n' ∉ cs) (hcounted : IsCounted (lexeme c cs).1) :
    balance false (c :: cs) = (lexeme c cs).1.opens + balance false (lexeme c cs).2 := by
  have hall : ∀ d ∈ cs, decide (d ≠ '\n') = true := fun d hd =>
    decide_eq_true fun h => hcs (h ▸ hd)
  have hend : cs.dropWhile (· ≠ '\n') = [] := List.dropWhile_eq_nil_iff.2 hall
  have htake : cs.takeWhile (· ≠ '\n') = cs := List.takeWhile_eq_self_iff.2 hall
  simp only [lexeme, hend, htake] at hcounted ⊢
  split_ifs at hcounted ⊢ with hquote hcomment hline hname hblank
  · refine Eq.trans ?_ (zero_add _).symm
    rcases hquote with rfl | rfl
    · exact (balance.eq_5 false cs).trans (balance_string hcs).1
    · obtain ⟨hplain, hslashes, hweights⟩ := hcounted rfl
      rw [balance_cons (by decide) (by simp)]
      conv_lhs => rw [← literal_append '\'' false cs]
      rw [balance_append hplain hslashes, hweights]
      · simp [weight]
      · intro hlast
        rcases literal_end '\'' false cs with hrest | hclosed
        · exact fun hhead => absurd (hrest _ hhead) (by decide)
        · rw [hclosed] at hlast
          cases hlast
  · obtain ⟨rfl, hhead⟩ := hcomment
    obtain ⟨ds, rfl⟩ := List.head?_eq_some_iff.1 hhead
    exact balance_comment ds
  · exact hcounted
  · have hall : ∀ d ∈ c :: cs.takeWhile isNameChar, isNameChar d = true :=
      List.forall_mem_cons.2 ⟨hname, fun d hd => List.mem_takeWhile_imp hd⟩
    have hword := @balance_word (cs.dropWhile isNameChar) _ hall
    rw [List.cons_append, List.takeWhile_append_dropWhile] at hword
    exact hword.trans (zero_add _).symm
  · rw [balance_cons (fun h => hquote (.inl h)) hcomment, weight_eq_zero rfl rfl hblank]
    rfl
  · exact balance_cons (fun h => hquote (.inl h)) hcomment

/-- The braces of a line are counted by its tokens. -/
theorem balance_eq_nesting (hcs : '\n' ∉ cs) (hcounted : ∀ t ∈ tokens cs, IsCounted t) :
    balance false cs = nesting (tokens cs) := by
  fun_induction tokens cs with
  | case1 => rfl
  | case2 c cs ih =>
    obtain ⟨ht, hcounted⟩ := List.forall_mem_cons.1 hcounted
    obtain ⟨-, hcs⟩ := not_or.1 (List.mem_cons.not.1 hcs)
    rw [nesting_cons, ← ih (notMem_lexeme hcs) hcounted, balance_lexeme hcs ht]

/-! ### Constants -/

theorem weights_trim (cs : List Char) : weights (trim cs) = weights cs := by
  have hdrop : ∀ ds, weights (ds.dropWhile isBlank) = weights ds := by
    intro ds
    have hblank : weights (ds.takeWhile isBlank) = 0 := weights_eq_zero fun d hd =>
      weight_eq_zero rfl rfl (List.mem_takeWhile_imp hd)
    conv_rhs => rw [← List.takeWhile_append_dropWhile (p := isBlank) (l := ds)]
    rw [weights_append, hblank, zero_add]
  have hreverse : ∀ ds, weights ds.reverse = weights ds := fun ds => by simp [weights]
  rw [trim, hreverse, hdrop, hreverse, hdrop]

theorem isConstant_iff (stmt : List Char) :
    isConstant stmt = true ↔ isDeclaration stmt = true ∧ weights stmt = 0 := by
  have hcount : ∀ ds : List Char, ds.count '\x7b' = ds.count '\x7d' ↔ weights ds = 0 := by
    intro ds
    rw [weights_eq_count]
    omega
  rw [isConstant, isDeclaration]
  split
  · rename_i hpub
    obtain ⟨tail, rfl⟩ := List.isPrefixOf_iff_prefix.1 hpub
    have hweights : weights ("pub ".toList ++ tail) = weights (trim tail) := by
      rw [weights_append, weights_trim]
      exact zero_add _
    have hdrop : ("pub ".toList ++ tail).drop 4 = tail := rfl
    simp only [hdrop, hweights, Bool.and_eq_true, decide_eq_true_eq, hcount]
  · simp only [Bool.and_eq_true, decide_eq_true_eq, hcount]

/-- A line whose hidden braces cancel is a constant just if its blocks are closed. -/
theorem isConstant_trim_iff (hhidden : isDeclaration (trim line) = true → hidden (tokens line) = 0) :
    isConstant (trim line) = true ↔ IsConstantLine line := by
  rw [isConstant_iff, weights_trim, weights_eq_nesting_add, IsConstantLine]
  refine and_congr_right fun hdecl => ?_
  rw [hhidden hdecl, add_zero]

/-! ### Lines of a fragment -/

/-- A fragment consists of the lines above one of its lines, the line, and what follows it. -/
theorem exists_line {front back : List (List Char)} (h : lines cs = front ++ line :: back) :
    ∃ more, cs = renderLines front ++ (line ++ more) ∧
      (more = [] ∨ ∃ rest, more = '\n' :: rest) := by
  have hsplit : ∃ tail, splitOn '\n' cs = lines cs ++ tail := by
    simp only [lines]
    split
    · rename_i hlast
      exact ⟨[[]], (List.dropLast_append_getLast? _ hlast).symm⟩
    · exact ⟨[], (List.append_nil _).symm⟩
  obtain ⟨tail, hsplit⟩ := hsplit
  have hcs := Fragment.unlines_splitOn cs
  rw [hsplit, h, List.append_assoc, Fragment.unlines_append (by simp)] at hcs
  cases hrest : back ++ tail with
  | nil =>
    rw [List.cons_append, hrest] at hcs
    exact ⟨[], by rw [List.append_nil]; exact hcs.symm, .inl rfl⟩
  | cons next rest =>
    rw [List.cons_append, hrest, Fragment.unlines_cons (List.cons_ne_nil _ _)] at hcs
    exact ⟨_, hcs.symm, .inr ⟨_, rfl⟩⟩

theorem tokens_renderLines {ls : List (List Char)} (h : ∀ l ∈ ls, '\n' ∉ l) (cs : List Char) :
    tokens (renderLines ls ++ cs) = tokens (renderLines ls) ++ tokens cs := by
  induction ls with
  | nil => simp [renderLines]
  | cons l ls ih =>
    obtain ⟨hl, hls⟩ := List.forall_mem_cons.1 h
    rw [renderLines_cons, List.append_assoc, List.cons_append, tokens_line hl, tokens_line hl, ih hls,
      List.append_assoc, List.cons_append]

theorem nesting_renderLines {ls : List (List Char)} (h : ∀ l ∈ ls, '\n' ∉ l) :
    nesting (tokens (renderLines ls)) = (ls.map fun l => nesting (tokens l)).sum := by
  induction ls with
  | nil => simp [renderLines]
  | cons l ls ih =>
    obtain ⟨hl, hls⟩ := List.forall_mem_cons.1 h
    rw [renderLines_cons, tokens_line hl, nesting_append, nesting_cons, ih hls, List.map_cons,
      List.sum_cons]
    exact congrArg _ (zero_add _)

/-- The tokens of a line are tokens of its fragment. -/
theorem tokens_subset (h : line ∈ lines cs) : tokens line ⊆ tokens cs := by
  obtain ⟨front, back, hsplit⟩ := List.append_of_mem h
  obtain ⟨more, rfl, hmore⟩ := exists_line hsplit
  have hfront : ∀ l ∈ front, '\n' ∉ l := fun l hl =>
    newline_notMem_lines (hsplit ▸ List.mem_append_left _ hl)
  rw [tokens_renderLines hfront]
  refine fun t ht => List.mem_append_right _ ?_
  rcases hmore with rfl | ⟨rest, rfl⟩
  · rwa [List.append_nil]
  · rw [tokens_line (newline_notMem_lines h)]
    exact List.mem_append_left _ ht

theorem nesting_nonneg {front back : List (List Char)} (hbalanced : IsBalanced (tokens cs))
    (h : lines cs = front ++ line :: back) : 0 ≤ nesting (tokens (renderLines front)) := by
  obtain ⟨more, rfl, -⟩ := exists_line h
  rw [tokens_renderLines fun l hl => newline_notMem_lines (h ▸ List.mem_append_left _ hl)]
    at hbalanced
  exact hbalanced.nesting_nonneg

/-! ### Visits of clear fragments -/

variable {runs : List (List Visit)} {front back : List Visit} {v : Visit} {fragments : List String}

/-- The depth of what is kept is the nesting of all lines, as those that are removed open nothing. -/
theorem depth_kept (h : ∀ u ∈ front, '\n' ∉ u.line ∧ balance false u.line = nesting (tokens u.line) ∧
    (u.isKept = false → nesting (tokens u.line) = 0)) :
    depth (kept front) = nesting (tokens (renderLines (front.map Visit.line))) := by
  rw [nesting_renderLines (by simpa using fun u hu => (h u hu).1)]
  induction front with
  | nil => rfl
  | cons u front ih =>
    obtain ⟨⟨-, hbalance, hremoved⟩, hfront⟩ := List.forall_mem_cons.1 h
    obtain ⟨line, d, isKept⟩ := u
    rw [List.map_cons, List.map_cons, List.sum_cons, ← ih hfront]
    cases isKept with
    | true => rw [kept_kept, depth_cons, hbalance]
    | false => rw [kept_removed, hremoved rfl, zero_add]

theorem exists_fragment
    (hlines : runs.map (·.map Visit.line) = fragments.map fun f => lines f.toList)
    (hrun : front ∈ runs) : ∃ f ∈ fragments, front.map Visit.line = lines f.toList := by
  have hmem : front.map Visit.line ∈ runs.map (·.map Visit.line) := List.mem_map_of_mem hrun
  rw [hlines] at hmem
  obtain ⟨f, hf, heq⟩ := List.mem_map.1 hmem
  exact ⟨f, hf, heq.symm⟩

section
variable {seen : List (List Char)} {run : List Visit} (hwalks : Walks [] runs seen)
  (hlines : runs.map (·.map Visit.line) = fragments.map fun f => lines f.toList)
  (hclear : ∀ f ∈ fragments, IsClear f.toList)
include hlines hclear

theorem isTop_iff (hv : v ∈ runs.flatten) : v.isTop = true ↔ v.depth = 0 ∧ IsConstantLine v.line := by
  obtain ⟨run, hrun, hv⟩ := List.mem_flatten.1 hv
  obtain ⟨f, hf, hmap⟩ := exists_fragment hlines hrun
  have hline : v.line ∈ lines f.toList := hmap ▸ List.mem_map_of_mem hv
  rw [Visit.isTop, Bool.and_eq_true, decide_eq_true_eq,
    isConstant_trim_iff ((hclear f hf).declared _ hline)]

include hwalks

/-- A line is met at the nesting of all that stands above it in its fragment. -/
theorem depth_eq_nesting (hrun : run ∈ runs) (hsplit : run = front ++ v :: back) :
    v.depth = nesting (tokens (renderLines (front.map Visit.line))) := by
  obtain ⟨f, hf, hmap⟩ := exists_fragment hlines hrun
  rw [(hwalks.isAccount hlines).depth_eq run hrun front v back hsplit]
  refine depth_kept fun u hu => ?_
  have hmem : u ∈ run := hsplit ▸ List.mem_append_left _ hu
  have hline : u.line ∈ lines f.toList := hmap ▸ List.mem_map_of_mem hmem
  have hnewline := newline_notMem_lines hline
  refine ⟨hnewline, balance_eq_nesting hnewline fun t ht =>
    (hclear f hf).counted t (tokens_subset hline ht), fun hkept => ?_⟩
  have hflat : u ∈ runs.flatten := List.mem_flatten_of_mem hrun hmem
  obtain ⟨before, after, hbefore⟩ := List.append_of_mem hflat
  have htop := ((hwalks.removed_iff hbefore).1 hkept).1
  exact ((isTop_iff hlines hclear hflat).1 htop).2.2

variable (hbalanced : ∀ f ∈ fragments, IsBalanced (tokens f.toList))
include hbalanced

theorem depth_nonneg (hv : v ∈ runs.flatten) : 0 ≤ v.depth := by
  obtain ⟨run, hrun, hv⟩ := List.mem_flatten.1 hv
  obtain ⟨front, back, hsplit⟩ := List.append_of_mem hv
  obtain ⟨f, hf, hmap⟩ := exists_fragment hlines hrun
  rw [depth_eq_nesting hwalks hlines hclear hrun hsplit]
  rw [hsplit, List.map_append, List.map_cons] at hmap
  exact nesting_nonneg (hbalanced f hf) hmap.symm

/-- In balanced fragments the constants that may be removed are those outside of all blocks. -/
theorem isTop_iff_outside (hv : v ∈ runs.flatten) :
    v.isTop = true ↔ IsConstantLine v.line ∧ v.depth ≤ 0 := by
  have hnonneg := depth_nonneg hwalks hlines hclear hbalanced hv
  rw [isTop_iff hlines hclear hv, and_comm, ← hnonneg.ge_iff_eq']

end

/-- No line that begins within a block is removed, and of the constants with the same text that stand
outside of all blocks just the first is kept. -/
theorem merge_spares_blocks {fragments : List String}
    (hbalanced : ∀ f ∈ fragments, IsBalanced (tokens f.toList))
    (hclear : ∀ f ∈ fragments, IsClear f.toList) :
    ∃ runs : List (List Visit),
      runs.map (·.map Visit.line) = (fragments.map fun f => lines f.toList) ∧
      lines (merge fragments).toList = mergedLines runs ∧
      (∀ run ∈ runs, ∀ front v back, run = front ++ v :: back →
        v.depth = nesting (tokens (renderLines (front.map Visit.line)))) ∧
      (∀ v ∈ runs.flatten, 0 < v.depth → v.isKept = true) ∧
      ∀ front v back, runs.flatten = front ++ v :: back → IsConstantLine v.line → v.depth ≤ 0 →
        (v.isKept = true ↔
          ∀ u ∈ front, IsConstantLine u.line → u.depth ≤ 0 → trim u.line ≠ trim v.line) := by
  obtain ⟨runs, seen, hwalks, hlines, htext⟩ := exists_runs fragments
  have htop : ∀ v ∈ runs.flatten, (v.isTop = true ↔ IsConstantLine v.line ∧ v.depth ≤ 0) :=
    fun v hv => isTop_iff_outside hwalks hlines hclear hbalanced hv
  refine ⟨runs, hlines, ?_, fun run hrun front v back => depth_eq_nesting hwalks hlines hclear hrun,
    fun v hv hinside => ?_, fun front v back hsplit hconst houtside => ?_⟩
  · rw [htext, lines_renderLines (newline_notMem_mergedLines hlines)]
  · rw [← Bool.not_eq_false]
    intro hremoved
    obtain ⟨front, back, hsplit⟩ := List.append_of_mem hv
    have hremovable := ((hwalks.removed_iff hsplit).1 hremoved).1
    exact absurd ((htop v hv).1 hremovable).2 (not_le.2 hinside)
  · have hmem : ∀ u ∈ front ++ v :: back, u ∈ runs.flatten := fun u hu => hsplit ▸ hu
    rw [hwalks.isKept_iff hsplit ((htop v (hmem v (by simp))).2 ⟨hconst, houtside⟩)]
    refine forall₂_congr fun u hu => ?_
    rw [htop u (hmem u (List.mem_append_left _ hu)), and_imp]

/-- Braces in strings, in comments and in an escape of a character do no harm. -/
theorem merge_spares_blocks_literals :
    let fragments := [
      "const s = \"\x7b\x7d\";\nfn a() void \x7b\nf('\\u\x7b41\x7d', \"\x7d\"); // \x7b\n\x7d\n",
      "const s = \"\x7b\x7d\";\nfn b() void \x7b\n_ =\n\\\\\"\x7d\"\n;\n\x7d\n"]
    (∀ f ∈ fragments, IsBalanced (tokens f.toList)) ∧ (∀ f ∈ fragments, IsClear f.toList) ∧
      ∃ runs, lines (merge fragments).toList = mergedLines runs ∧
        ∀ v ∈ runs.flatten, 0 < v.depth → v.isKept = true := by
  intro fragments
  have hbalanced : ∀ f ∈ fragments, IsBalanced (tokens f.toList) := by decide +kernel
  have hcounted : ∀ f ∈ fragments, ∀ t ∈ tokens f.toList, IsCounted t := by decide +kernel
  have hdeclared : ∀ f ∈ fragments, ∀ line ∈ lines f.toList, isDeclaration (trim line) = true →
      hidden (tokens line) = 0 := by decide +kernel
  have hclear : ∀ f ∈ fragments, IsClear f.toList := fun f hf => ⟨hcounted f hf, hdeclared f hf⟩
  obtain ⟨runs, -, hmerged, -, hwithin, -⟩ := merge_spares_blocks hbalanced hclear
  exact ⟨hbalanced, hclear, runs, hmerged, hwithin⟩

/-- A brace in a string of several lines closes the function for the merge, so that a constant in the
body of a second one is removed. -/
theorem merge_enters_block :
    let above : List String := ["fn b() u8 \x7b", "_ =", "\\\\\x7d", ";"]
    let below : List String := ["return x;", "\x7d"]
    let text : List String → String := fun ls => String.ofList (renderLines (ls.map String.toList))
    let first := text ("fn a() u8 \x7b" :: above.tail ++ "const x = 1;" :: below)
    let second := text (above ++ "const x = 1;" :: below)
    IsBalanced (tokens first.toList) ∧ IsBalanced (tokens second.toList) ∧
      0 < nesting (tokens (text above).toList) ∧
      merge [first, second] = first ++ "\n" ++ text (above ++ below) ++ "\n" := by
  decide +kernel

end Bindery.Merge
