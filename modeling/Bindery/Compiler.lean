import Bindery.World.Basic

/-!
# The foreign compiler

A compiler is given arguments and a directory. It may do anything to the world, and ends with an
exit code and what it has to say.
-/
namespace Bindery

structure CompilerResult where
  exitCode : Int
  diagnostic : String
  deriving DecidableEq

structure Compiler where
  name : String
  run : CompilerCall → StateM World CompilerResult

/-- Runs a compiler and records the call. -/
def Act.compile (c : Compiler) (call : CompilerCall) : Act CompilerResult := do
  modify fun w => { w with calls := w.calls ++ [call] }
  liftM (c.run call)

end Bindery
