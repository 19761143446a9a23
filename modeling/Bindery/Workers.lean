import Bindery.Text.Numeral
import Bindery.World.Basic

/-!
# Worker threads

The number of worker threads is taken from a setting if that begins with a positive number, and
else is that of the hardware. A pool has at least one thread.
-/
namespace Bindery.Workers
open Text

/-- One more than the greatest word. -/
def wordLimit : Nat := 18446744073709551616

/-- The word that a text begins with after spaces. A minus sign negates it within its word. -/
def word? (s : String) : Option Nat :=
  match numeral? (s.toList.dropWhile isSpace) with
  | none => none
  | some n =>
    if n.magnitude < wordLimit then
      some (if n.isNegative then (wordLimit - n.magnitude) % wordLimit else n.magnitude)
    else none

/-- The size that a setting asks for, if it is a valid one. -/
def ofSetting? (s : String) : Option Nat := (word? s).filter (0 < ·)

def settingName : String := "ZIGBIND_WORKER_THREADS"

/-- The size of a pool by default, given the number of threads of the hardware. -/
def defaultSize (hardware : Nat) : Option String → Act Nat
  | none => return max 1 hardware
  | some s =>
    match ofSetting? s with
    | some n => return n
    | none => do
      Act.warn ("ignoring invalid " ++ settingName ++ " value '" ++ s ++ "'")
      return max 1 hardware

/-- Starts a pool for a wanted number of threads: its size. -/
def start (wanted : Nat) : Act Nat := do
  let size := max wanted 1
  Act.debug ("worker pool started with " ++ toString size ++ " threads")
  return size

end Bindery.Workers
