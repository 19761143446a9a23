import Bindery.Text.Numeral
import Bindery.World.Basic

/-!
# The build cache

The cache of an output directory is a file of one line. It tells the key of the last build, the
time it was made and its artifact. A file that tells nothing of the kind counts as no entry.
-/
namespace Bindery

structure CacheEntry where
  key : String
  artifact : Path
  time : Int := 0
  deriving DecidableEq

namespace CacheEntry
open Text

def render (e : CacheEntry) : String :=
  e.key ++ " " ++ toString e.time ++ " " ++ e.artifact.text ++ "\n"

/-- Whether a time fits into a word of 64 bits. -/
def isTime (n : Int) : Bool :=
  decide (-9223372036854775808 ≤ n ∧ n < 9223372036854775808)

/-- The entry that the first line of a text tells. The artifact is the rest of the line and may
contain spaces. -/
def parse? (content : String) : Option CacheEntry :=
  let line := (content.toList.takeWhile (· ≠ '\n')).dropWhile isSpace
  let key := line.takeWhile (!isSpace ·)
  match numeral? ((line.dropWhile (!isSpace ·)).dropWhile isSpace) with
  | none => none
  | some time =>
    let artifact := time.rest.dropWhile isSpace
    if isTime time.value ∧ artifact ≠ [] then
      some ⟨String.ofList key, ⟨String.ofList artifact⟩, time.value⟩
    else none

end CacheEntry

namespace Cache

def fileName : String := ".zigbind_cache"

def file (out : Path) : Path := out / fileName

def load (out : Path) : Act (Option CacheEntry) := do
  match (← get).read? (file out) with
  | none => return none
  | some content =>
    match CacheEntry.parse? content with
    | some entry => return some entry
    | none =>
      Act.warn ("Ignoring malformed cache file " ++ (file out).text)
      return none

def store (out : Path) (e : CacheEntry) : Act Unit :=
  Act.write (file out) e.render (.cannotWrite (file out))

/-- The entry for a key, provided that its artifact still exists. -/
def lookup (out : Path) (key : String) : Act (Option CacheEntry) := do
  match ← load out with
  | none => return none
  | some entry =>
    if entry.key ≠ key then return none
    else if (← get).exists? entry.artifact then return some entry
    else
      Act.debug ("Cached artifact " ++ entry.artifact.text ++ " is gone")
      return none

end Cache
end Bindery
