/-!
# Targets

A target triple of the host is mapped to a target of the foreign compiler by a fixed table, and a
build profile to an optimisation mode.
-/
namespace Bindery.Target

/-- The known triples with the foreign compiler's names for them. -/
def table : List (String × String) :=
  [("x86_64-unknown-linux-gnu", "x86_64-linux-gnu"),
   ("x86_64-unknown-linux-musl", "x86_64-linux-musl"),
   ("aarch64-unknown-linux-gnu", "aarch64-linux-gnu"),
   ("aarch64-unknown-linux-musl", "aarch64-linux-musl"),
   ("arm-unknown-linux-gnueabihf", "arm-linux-gnueabihf"),
   ("i686-unknown-linux-gnu", "x86-linux-gnu"),
   ("x86_64-apple-darwin", "x86_64-macos"),
   ("aarch64-apple-darwin", "aarch64-macos"),
   ("x86_64-pc-windows-msvc", "x86_64-windows-msvc"),
   ("x86_64-pc-windows-gnu", "x86_64-windows-gnu"),
   ("i686-pc-windows-msvc", "x86-windows-msvc"),
   ("aarch64-pc-windows-msvc", "aarch64-windows-msvc"),
   ("wasm32-unknown-unknown", "wasm32-freestanding"),
   ("wasm64-unknown-unknown", "wasm64-freestanding"),
   ("wasm32-unknown-emscripten", "wasm32-emscripten"),
   ("wasm32-wasi", "wasm32-wasi"),
   ("wasm32-wasip1", "wasm32-wasi")]

def known : List String := table.map (·.1)

/-- The foreign name of a triple, if the triple is known. -/
def ofTriple? (triple : String) : Option String :=
  if triple = "" ∨ triple = "native" then some "native" else table.lookup triple

def isWasm (target : String) : Bool :=
  target.startsWith "wasm32-" || target.startsWith "wasm64-"

def isWasm64 (target : String) : Bool := target.startsWith "wasm64-"

def isFreestandingWasm (target : String) : Bool :=
  isWasm target && target.endsWith "-freestanding"

def isBrowser (target : String) : Bool :=
  isFreestandingWasm target || target = "wasm32-emscripten"

def isMsvc (target : String) : Bool := target.endsWith "-windows-msvc"

/-- Whether code for the target is position-independent and linked with the C library. -/
def isHosted (target : String) : Bool := !isFreestandingWasm target

def optimization (profile : String) : String :=
  if profile = "Debug" then "Debug"
  else if profile = "RelWithDebInfo" then "ReleaseSafe"
  else if profile = "MinSizeRel" then "ReleaseSmall"
  else "ReleaseFast"

end Bindery.Target
