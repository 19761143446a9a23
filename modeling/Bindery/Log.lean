/-!
# The log

A logger drops the notes below its level and writes each other note on a line of its own, after its
name and the level of the note. The time of a record is left to the sink.
-/
namespace Bindery

inductive Level
  | trace | debug | info | warn | error | critical | off
  deriving DecidableEq

namespace Level

def rank : Level → Nat
  | trace => 0 | debug => 1 | info => 2 | warn => 3 | error => 4 | critical => 5 | off => 6

def name : Level → String
  | trace => "trace" | debug => "debug" | info => "info" | warn => "warn"
  | error => "error" | critical => "critical" | off => "unknown"

/-- The escape sequence that opens the colour of a level on a terminal. -/
def colour : Level → String
  | trace => "\x1b[37m" | debug => "\x1b[36m" | info => "\x1b[32m" | warn => "\x1b[33m"
  | error => "\x1b[31m" | critical => "\x1b[1;31m" | off => "\x1b[0m"

def all : List Level := [trace, debug, info, warn, error, critical, off]

def ofName? (s : String) : Option Level :=
  if s = "off" then some off else all.find? (·.name = s)

end Level

structure Note where
  level : Level
  text : String
  deriving DecidableEq

structure Logger where
  name : String := "zigbind"
  level : Level := .info
  colored : Bool := false

namespace Logger

/-- The record of a note, empty when the note is dropped. -/
def record (l : Logger) (n : Note) : String :=
  if n.level.rank < l.level.rank then ""
  else
    let level := if l.colored then n.level.colour ++ n.level.name ++ "\x1b[0m" else n.level.name
    "[" ++ l.name ++ "] [" ++ level ++ "] " ++ n.text ++ "\n"

theorem record_of_lt {l : Logger} {n : Note} (h : n.level.rank < l.level.rank) :
    l.record n = "" := by
  simp [record, h]

end Logger
end Bindery
