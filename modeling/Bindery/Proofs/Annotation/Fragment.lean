import Bindery.Proofs.Annotation.Places
import Bindery.Proofs.Annotation.Sites

/-!
# Fragments come out as they are written

A fragment is cut out of its host byte by byte: its raw literal ends at the first closing mark of its
own delimiter, its code ends where the first rule begins, and its declarations are all that stands
below the line of that rule. Nothing else in the body has a meaning to the scan, which goes on right
after the closing bracket.
-/
namespace Bindery
open Text Host

namespace Fragment

/-- Lines, each with the line feed that ends it. -/
def wholeLines (lines : List (List Char)) : List Char := lines.flatMap (· ++ ['\n'])

/-- Lines before the first rule. -/
def AreAbove (lines : List (List Char)) : Prop := ∀ line ∈ lines, '\n' ∉ line ∧ isRule line = false

instance (lines : List (List Char)) : Decidable (AreAbove lines) :=
  inferInstanceAs (Decidable (∀ line ∈ lines, _ ∧ _))

/-- A line that divides a body. -/
def IsRuleLine (line : List Char) : Prop := '\n' ∉ line ∧ isRule line = true

instance (line : List Char) : Decidable (IsRuleLine line) := inferInstanceAs (Decidable (_ ∧ _))

/-- A body, its code and, if there are any, its declarations after all that stands before them. The
code is what stands before the first rule. -/
inductive Divides : List Char → List Char → Option (List Char × List Char) → Prop
  | unruled {lines : List (List Char)} {last : List Char} (habove : AreAbove (lines ++ [last])) :
      Divides (wholeLines lines ++ last) (wholeLines lines ++ last) none
  | last {lines : List (List Char)} {rule : List Char} (habove : AreAbove lines)
      (hrule : IsRuleLine rule) : Divides (wholeLines lines ++ rule) (wholeLines lines) none
  | ruled {lines : List (List Char)} {rule decls : List Char} (habove : AreAbove lines)
      (hrule : IsRuleLine rule) :
      Divides (wholeLines lines ++ rule ++ '\n' :: decls) (wholeLines lines)
        (some (wholeLines lines ++ rule ++ ['\n'], decls))

variable {lines more : List (List Char)} {body code last rule decls : List Char}
  {below : Option (List Char × List Char)}

theorem wholeLines_cons (line : List Char) (lines : List (List Char)) :
    wholeLines (line :: lines) = line ++ '\n' :: wholeLines lines := by
  simp [wholeLines]

/-- Whole lines are told apart from what follows them. -/
theorem splitOn_wholeLines (h : ∀ line ∈ lines, '\n' ∉ line) (cs : List Char) :
    splitOn '\n' (wholeLines lines ++ cs) = lines ++ splitOn '\n' cs := by
  induction lines with
  | nil => rfl
  | cons line lines ih =>
    rw [List.forall_mem_cons] at h
    rw [wholeLines_cons, List.append_assoc, List.cons_append, splitOn_append_cons,
      splitOn_of_not_mem h.1, ih h.2]
    rfl

theorem takeWhile_above (h : AreAbove lines) :
    (lines ++ more).takeWhile (!isRule ·) = lines ++ more.takeWhile (!isRule ·) :=
  List.takeWhile_append_of_pos fun line hline => by rw [(h line hline).2]; rfl

theorem dropWhile_above (h : AreAbove lines) :
    (lines ++ more).dropWhile (!isRule ·) = more.dropWhile (!isRule ·) :=
  List.dropWhile_append_of_pos fun line hline => by rw [(h line hline).2]; rfl

theorem count_wholeLines (h : AreAbove lines) : (wholeLines lines).count '\n' = lines.length :=
  count_flatMap_line fun line hline => (h line hline).1

/-- The last line of a text, which no line feed ends, stands after its whole lines. -/
theorem unlines_concat (lines : List (List Char)) (last : List Char) :
    unlines (lines ++ [last]) = wholeLines lines ++ last :=
  unlines_append (List.cons_ne_nil _ _)

/-- Every body can be divided. -/
theorem exists_divides (body : List Char) : ∃ code below, Divides body code below := by
  have hparts := List.takeWhile_append_dropWhile (p := (!isRule ·)) (l := splitOn '\n' body)
  have hlines : ∀ line ∈ splitOn '\n' body, '\n' ∉ line := fun _ => not_mem_of_mem_splitOn
  have habove : AreAbove ((splitOn '\n' body).takeWhile (!isRule ·)) := fun line hline =>
    ⟨hlines line ((List.takeWhile_sublist _).mem hline), by simpa using List.mem_takeWhile_imp hline⟩
  rw [← unlines_splitOn body]
  generalize (splitOn '\n' body).takeWhile (!isRule ·) = lines at hparts habove
  cases hrest : (splitOn '\n' body).dropWhile (!isRule ·) with
  | nil =>
    rw [hrest, List.append_nil] at hparts
    obtain ⟨front, last, hlast⟩ := (List.eq_nil_or_concat lines).resolve_left
      (hparts ▸ splitOn_ne_nil '\n' body)
    rw [List.concat_eq_append] at hlast
    rw [← hparts, hlast, unlines_concat]
    exact ⟨_, none, .unruled (hlast ▸ habove)⟩
  | cons rule more =>
    rw [hrest] at hparts
    have hrule : IsRuleLine rule := by
      refine ⟨hlines rule (hparts ▸ by simp), ?_⟩
      have hhead := List.head?_dropWhile_not (!isRule ·) (splitOn '\n' body)
      rw [hrest] at hhead
      simpa using hhead
    rw [← hparts, unlines_append (List.cons_ne_nil _ _)]
    cases more with
    | nil => exact ⟨_, none, .last habove hrule⟩
    | cons line more =>
      rw [unlines_cons (List.cons_ne_nil _ _), ← List.append_assoc]
      exact ⟨_, _, .ruled habove hrule⟩

theorem split_unruled (h : AreAbove (lines ++ [last])) :
    split (wholeLines lines ++ last) = (wholeLines lines ++ last, none) := by
  obtain ⟨hlines, hlast⟩ := List.forall_mem_append.1 h
  have hall := splitOn_wholeLines (fun line hline => (hlines line hline).1) last
  rw [splitOn_of_not_mem (hlast last List.mem_cons_self).1] at hall
  have hdrop : (lines ++ [last]).dropWhile (!isRule ·) = [] := by
    rw [← List.append_nil (lines ++ [last]), dropWhile_above h]
    rfl
  unfold split
  dsimp only
  rw [hall, hdrop]

/-- The part below the first rule is given back as it is written. -/
theorem split_ruled {tail : List Char} (h : AreAbove lines) (hrule : isRule rule = true)
    (htail : splitOn '\n' tail = rule :: more) :
    split (wholeLines lines ++ tail) =
      (wholeLines lines, some (unlines more, (wholeLines lines).count '\n' + 1)) := by
  have hall := splitOn_wholeLines (fun line hline => (h line hline).1) tail
  rw [htail] at hall
  unfold split
  dsimp only
  rw [hall, takeWhile_above h, dropWhile_above h, List.takeWhile_cons_of_neg (by simp [hrule]),
    List.dropWhile_cons_of_neg (by simp [hrule]), List.append_nil, count_wholeLines h]
  rfl

end Fragment

namespace Annotation

/-- The declarations of a body that begins at a position, read where they stand in it. -/
def declared (src : Source) (p : Position) :
    Option (List Char × List Char) → Except Failure Declarations
  | none => .ok {}
  | some (above, decls) => parse src decls (p.after above)

variable {src : Source} {p at_ : Position} {body code : List Char}
  {below : Option (List Char × List Char)}

theorem parse_nil (src : Source) (p : Position) : parse src [] p = .ok {} := by
  have htokens : Tokens.ofText (String.ofList []) p = .done p := by
    rw [Tokens.ofText, String.toList_ofList]
    exact Lexer.scan.eq_1 p
  rw [parse, Declarations.parse, htokens, Tokens.statements]
  rfl

/-- A fragment has the code and the declarations into which its body is divided. -/
theorem ofFragment_of_divides (h : Fragment.Divides body code below) :
    ofFragment src at_ body p.line = (declared src p below).map fun ds =>
      { host := src.host, line := at_.line, code := String.ofList code, decls := ds } := by
  unfold ofFragment
  cases h with
  | unruled habove => rw [Fragment.split_unruled habove]; rfl
  | last habove hrule =>
    rw [Fragment.split_ruled habove hrule.2 (splitOn_of_not_mem hrule.1)]
    rfl
  | @ruled lines rule decls habove hrule =>
    have htail : splitOn '\n' (rule ++ '\n' :: decls) = rule :: splitOn '\n' decls := by
      rw [splitOn_append_cons, splitOn_of_not_mem hrule.1]
      rfl
    have hplace : p.after (Fragment.wholeLines lines ++ rule ++ ['\n']) =
        ⟨p.line + ((Fragment.wholeLines lines).count '\n' + 1 : ℕ), 1⟩ := by
      rw [Position.after_line, List.count_append, List.count_eq_zero.2 hrule.1, Nat.add_zero,
        Int.add_assoc]
      rfl
    rw [List.append_assoc, Fragment.split_ruled habove hrule.2 htail, Fragment.unlines_splitOn,
      declared, hplace]
    dsimp only
    split
    · rename_i hnil
      rw [hnil, parse_nil]
      rfl
    · rfl

/-! ### The scan around a fragment -/

/-- A scan comes to a place, where it is outside of comments, literals and words, with some
annotations found before. -/
inductive Reaches (src : Source) : Cursor → List Annotation → Cursor → Prop
  | refl {c : Cursor} : Reaches src c [] c
  | step {c c₁ c₂ : Cursor} {found : Option Annotation} {as : List Annotation}
      (hne : c.rest ≠ []) (hstep : step src c = .ok (found, c₁)) (h : Reaches src c₁ as c₂) :
      Reaches src c (found.toList ++ as) c₂

theorem scan_of_reaches {c c' : Cursor} {as : List Annotation} (h : Reaches src c as c') :
    scan src c = (as ++ (scan src c').1, (scan src c').2) := by
  induction h with
  | refl => rfl
  | step hne hstep _ ih => rw [scan_of_ok hne hstep, ih, List.append_assoc]

/-- An annotation with a fragment, as it is written without blanks. -/
def fragmentText (delimiter body : List Char) : List Char :=
  Macro.inline.name.toList ++ '(' :: (rawOpening delimiter ++ (body ++ (rawClosing delimiter ++ [')'])))

/-- What stands before the body of a fragment. -/
def fragmentOpening (delimiter : List Char) : List Char :=
  Macro.inline.name.toList ++ '(' :: rawOpening delimiter

/-- The annotation of a fragment that stands after `front`. -/
def ofCode (src : Source) (front code : List Char) (ds : Declarations) : Annotation where
  host := src.host
  line := front.count '\n' + 1
  code := String.ofList code
  decls := ds

section
variable {delimiter rest : List Char} (hlength : delimiter.length ≤ 16)
  (hdelimiter : ∀ c ∈ delimiter, c ∉ [' ', '\\', '(', ')', '\t', '\n'])
  (hbody : ¬ rawClosing delimiter <:+: body)
include hlength hdelimiter hbody

/-- The fragment is taken as a whole, whatever its body holds. -/
theorem step_fragment : step src ⟨p, fragmentText delimiter body ++ rest⟩ =
    (ofFragment src p body (p.after (fragmentOpening delimiter)).line).map fun a =>
      (some a, ⟨p.after (fragmentText delimiter body), rest⟩) := by
  have hdelimiter' : ∀ c ∈ delimiter, c ≠ '(' ∧ Cursor.isBadDelimiter c = false := by
    intro c hc
    have hbad := hdelimiter c hc
    simp only [List.mem_cons, not_or] at hbad
    simp [Cursor.isBadDelimiter, hbad]
  -- the literal, with all that stands after it
  generalize hliteral : rawOpening delimiter ++ (body ++ (rawClosing delimiter ++ ')' :: rest)) =
    literal
  have htext : fragmentText delimiter body ++ rest =
      Macro.inline.name.toList ++ ([] ++ '(' :: ([] ++ literal)) := by
    simp [fragmentText, ← hliteral]
  have hnone : AreBlank [] := fun _ h => absurd h List.not_mem_nil
  have hinside : Avoids isBlank literal := by
    rw [← hliteral]
    rintro _ ⟨⟩
    rfl
  have hname : Avoids isNameChar ([] ++ '(' :: ([] ++ literal)) := by
    rintro _ ⟨⟩
    rfl
  have hat : ∀ q, (⟨q, literal⟩ : Cursor).atRawText = true := by
    intro q
    simp [← hliteral, Cursor.atRawText, Cursor.startsWith, rawOpening]
  have hclosing : ∀ q, closing src .inline ⟨q, ')' :: rest⟩ = .ok ⟨q.after [')'], rest⟩ := by
    intro q
    have hbracket : Avoids isBlank (')' :: rest) := by
      rintro _ ⟨⟩
      rfl
    rw [closing, ← List.nil_append (')' :: rest), skipBlanks_append hnone hbracket]
    rfl
  have hopened : ((p.after Macro.inline.name.toList).after ([] ++ ['('])).after
      (rawOpening delimiter) = p.after (fragmentOpening delimiter) := by
    rw [← Position.after_append, ← Position.after_append]
    simp [fragmentOpening]
  have hclosed : (((p.after Macro.inline.name.toList).after ([] ++ ['('])).after
      (rawOpening delimiter ++ (body ++ rawClosing delimiter))).after [')'] =
        p.after (fragmentText delimiter body) := by
    rw [← Position.after_append, ← Position.after_append, ← Position.after_append]
    simp [fragmentText]
  rw [htext, step_macroName hname, args_bracket hnone hnone hinside]
  dsimp only
  rw [inlineArgs, hat, ← hliteral, Cursor.rawText?_append hlength hdelimiter' hbody]
  dsimp only
  rw [hclosing, hopened, hclosed, if_neg (by decide)]
  cases ofFragment src p body (p.after (fragmentOpening delimiter)).line <;> rfl

/-- A fragment that a scan comes to at top level gives one annotation, whose code is the body up to
the first line that is a rule, or all of it, and whose declarations are read from just what stands
below that line, unless they cannot be read. The scan goes on after the closing bracket. -/
theorem fragment_exact {front : List Char} {as : List Annotation}
    (hreach : Reaches src ⟨.start, front ++ (fragmentText delimiter body ++ rest)⟩ as
      ⟨Position.start.after front, fragmentText delimiter body ++ rest⟩) :
    let begin := Position.start.after (front ++ fragmentOpening delimiter)
    let after := scan src ⟨Position.start.after (front ++ fragmentText delimiter body), rest⟩
    (∃ code below, Fragment.Divides body code below) ∧
    ∀ code below, Fragment.Divides body code below →
      scan src ⟨.start, front ++ (fragmentText delimiter body ++ rest)⟩ =
        match declared src begin below with
        | .ok ds => (as ++ ofCode src front code ds :: after.1, after.2)
        | .error f => (as, some f) := by
  intro begin after
  refine ⟨Fragment.exists_divides body, fun code below hdivides => ?_⟩
  have hne : fragmentText delimiter body ++ rest ≠ [] := by simp [fragmentText, Macro.name]
  have hline : (Position.start.after front).line = front.count '\n' + 1 := by
    rw [Position.line_after]
    exact Int.add_comm _ _
  have hstep := @step_fragment src (Position.start.after front) body delimiter rest hlength
    hdelimiter hbody
  rw [ofFragment_of_divides hdivides, hline, ← Position.after_append, ← Position.after_append] at hstep
  rw [scan_of_reaches hreach]
  change step src _ = ((declared src begin below).map (ofCode src front code)).map _ at hstep
  cases hread : declared src begin below with
  | error f =>
    rw [hread] at hstep
    rw [scan_of_error hne hstep, List.append_nil]
  | ok ds =>
    rw [hread] at hstep
    rw [scan_of_ok hne hstep]
    rfl

end

/-- A body with a closing mark of the plain literal in it, behind an apostrophe in a comment. -/
theorem fragment_exact_delimiter :
    let src : Source := ⟨⟨"host.cpp"⟩, fun _ => none⟩
    let f : Signature := { name := "f", params := [], ret := .scalar .void, pos := ⟨3, 2⟩ }
    scan src ⟨.start, "/*'*/ZIGBIND(R\"z(a)\"\n --- \r\n fn f();)z\");".toList⟩ =
      ([ofCode src "/*'*/".toList "a)\"\n".toList { functions := [f] }], none) := by
  intro src f
  let body := "a)\"\n --- \r\n fn f();".toList
  have hcomment : step src ⟨.start, "/*'*/".toList ++ (fragmentText ['z'] body ++ [';'])⟩ =
      .ok (none, ⟨Position.start.after "/*'*/".toList, fragmentText ['z'] body ++ [';']⟩) := rfl
  have hreach : Reaches src ⟨.start, "/*'*/".toList ++ (fragmentText ['z'] body ++ [';'])⟩ []
      ⟨Position.start.after "/*'*/".toList, fragmentText ['z'] body ++ [';']⟩ :=
    .step (by decide) hcomment .refl
  have hbody : ¬ rawClosing ['z'] <:+: body := by decide
  have hdivides : Fragment.Divides body "a)\"\n".toList
      (some ("a)\"\n --- \r\n".toList, " fn f();".toList)) :=
    @Fragment.Divides.ruled ["a)\"".toList] " --- \r".toList _ (by decide) (by decide)
  have hparse : parse src " fn f();".toList ⟨3, 1⟩ = .ok { functions := [f] } := by
    rw [parse, Declarations.parse, Tokens.statements_step (by cbv), Tokens.statements]
    rfl
  have hdelimiter : ∀ c ∈ ['z'], c ∉ [' ', '\\', '(', ')', '\t', '\n'] := by simp
  obtain ⟨-, hscan⟩ := fragment_exact (by decide) hdelimiter hbody hreach
  have hfound := hscan _ _ hdivides
  have hdeclared : declared src (Position.start.after ("/*'*/".toList ++ fragmentOpening ['z']))
      (some ("a)\"\n --- \r\n".toList, " fn f();".toList)) = .ok { functions := [f] } := hparse
  have hmark : step src ⟨⟨3, 13⟩, [';']⟩ = .ok (none, ⟨⟨3, 14⟩, []⟩) := rfl
  have hafter : scan src ⟨⟨3, 13⟩, [';']⟩ = ([], none) := by
    rw [scan_of_ok (by decide) hmark, scan_of_nil rfl]
    rfl
  have hend : Position.start.after ("/*'*/".toList ++ fragmentText ['z'] body) = ⟨3, 13⟩ := rfl
  rw [hdeclared, hend, hafter] at hfound
  exact hfound

end Annotation
end Bindery
