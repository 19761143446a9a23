/-!
# Positions in a text

A text is a string of bytes, one character for each byte. A position counts its lines and, within
a line, its bytes from one; a line feed ends a line.
-/
namespace Bindery

structure Position where
  line : Int
  column : Int
  deriving DecidableEq

namespace Position

def start : Position := ⟨1, 1⟩

def step (p : Position) (c : Char) : Position :=
  if c = '\n' then ⟨p.line + 1, 1⟩ else ⟨p.line, p.column + 1⟩

/-- The position just after a piece of text that begins at `p`. -/
def after (p : Position) (cs : List Char) : Position := cs.foldl step p

@[simp] theorem after_nil (p : Position) : p.after [] = p := rfl

@[simp] theorem after_cons (p : Position) (c : Char) (cs : List Char) :
    p.after (c :: cs) = (p.step c).after cs := rfl

theorem after_append (p : Position) (cs ds : List Char) :
    p.after (cs ++ ds) = (p.after cs).after ds := by
  simp [after]

/-- The line and the column as 32-bit words. -/
def words (p : Position) : Nat × Nat :=
  ((p.line % 4294967296).toNat, (p.column % 4294967296).toNat)

end Position
end Bindery
