import Bindery.Proofs.Zig.Token

/-!
# Nesting of braces

Of the braces of a text only those count that are tokens of their own. Those in literals and
comments are hidden: what a line opens is what its characters show less what is hidden.
-/
namespace Bindery.Zig
open Text

/-- What a character would open if it were a token. -/
def weight (c : Char) : Int := if c = '\x7b' then 1 else if c = '\x7d' then -1 else 0

/-- How many more opening than closing braces there are among some characters. -/
def weights (cs : List Char) : Int := (cs.map weight).sum

def Token.opens : Token → Int
  | mark c => weight c
  | _ => 0

/-- What the braces in a literal or a comment would open. -/
def Token.hides : Token → Int
  | quoted _ text | comment text | line text => weights text
  | _ => 0

/-- How many more blocks are opened than closed by some tokens. -/
def nesting (ts : List Token) : Int := (ts.map Token.opens).sum

def hidden (ts : List Token) : Int := (ts.map Token.hides).sum

/-- Every closing brace closes a block, and every block is closed. -/
def IsBalanced (ts : List Token) : Prop := (∀ us ∈ ts.inits, 0 ≤ nesting us) ∧ nesting ts = 0

instance (ts : List Token) : Decidable (IsBalanced ts) := inferInstanceAs (Decidable (_ ∧ _))

variable {c : Char} {cs ds : List Char} {ts us : List Token}

@[simp] theorem weights_nil : weights [] = 0 := rfl

@[simp] theorem weights_cons (c : Char) (cs : List Char) : weights (c :: cs) = weight c + weights cs :=
  List.sum_cons

@[simp] theorem weights_append (cs ds : List Char) : weights (cs ++ ds) = weights cs + weights ds := by
  simp [weights]

@[simp] theorem nesting_nil : nesting [] = 0 := rfl

@[simp] theorem nesting_cons (t : Token) (ts : List Token) : nesting (t :: ts) = t.opens + nesting ts :=
  List.sum_cons

@[simp] theorem nesting_append (ts us : List Token) : nesting (ts ++ us) = nesting ts + nesting us := by
  simp [nesting]

theorem weights_eq_count (cs : List Char) : weights cs = cs.count '\x7b' - cs.count '\x7d' := by
  induction cs with
  | nil => rfl
  | cons c cs ih =>
    rw [weights_cons, ih, weight, List.count_cons, List.count_cons]
    split_ifs <;> simp_all <;> omega

/-- A character of a class without braces opens nothing. -/
theorem weight_eq_zero {p : Char → Bool} (hopen : p '\x7b' = false) (hclose : p '\x7d' = false)
    (h : p c = true) : weight c = 0 := by
  have hne : ∀ d, p d = false → c ≠ d := by
    rintro d hd rfl
    rw [h] at hd
    cases hd
  rw [weight, if_neg (hne _ hopen), if_neg (hne _ hclose)]

theorem weights_eq_zero (h : ∀ c ∈ cs, weight c = 0) : weights cs = 0 := by
  induction cs with
  | nil => rfl
  | cons c cs ih =>
    obtain ⟨hc, hcs⟩ := List.forall_mem_cons.1 h
    rw [weights_cons, hc, ih hcs, add_zero]

theorem weights_spell_lexeme (c : Char) (cs : List Char) :
    weights (lexeme c cs).1.spell = (lexeme c cs).1.opens + (lexeme c cs).1.hides := by
  simp only [lexeme]
  split
  · rename_i hquote
    rcases hquote with rfl | rfl <;> simp [Token.spell, Token.opens, Token.hides, weight]
  · split_ifs with hcomment hline hname hblank
    · simp [Token.spell, Token.opens, Token.hides]
    · simp [Token.spell, Token.opens, Token.hides]
    · have hword : ∀ d ∈ c :: cs.takeWhile isNameChar, weight d = 0 := by
        intro d hd
        rcases List.mem_cons.1 hd with rfl | hd
        · exact weight_eq_zero rfl rfl hname
        · exact weight_eq_zero rfl rfl (List.mem_takeWhile_imp hd)
      simpa [Token.spell, Token.opens, Token.hides] using weights_eq_zero hword
    · simp [Token.spell, Token.opens, Token.hides, weight_eq_zero rfl rfl hblank]
    · simp [Token.spell, Token.opens, Token.hides]

/-- The braces of a text are those of its tokens and the hidden ones. -/
theorem weights_eq_nesting_add (cs : List Char) :
    weights cs = nesting (tokens cs) + hidden (tokens cs) := by
  fun_induction tokens cs with
  | case1 => rfl
  | case2 c cs ih =>
    have hlexeme := weights_spell_lexeme c cs
    rw [← lexeme_append, weights_append, hlexeme, ih, nesting_cons, hidden, hidden, List.map_cons,
      List.sum_cons]
    omega

theorem IsBalanced.nesting_nonneg (h : IsBalanced (ts ++ us)) : 0 ≤ nesting ts :=
  h.1 ts ((List.mem_inits _ _).2 (List.prefix_append _ _))

end Bindery.Zig
