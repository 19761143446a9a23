import Bindery.Header.Call

/-!
# Handle classes

A handle becomes a class that owns a foreign object: constructors that fail on a null object,
methods that pass the object first, and a destructor run by the owner.
-/
namespace Bindery

structure HandleConstructor where
  name : String
  params : String
  arity : Nat
  symbol : String
  call : Call
  deriving DecidableEq

structure HandleMethod where
  name : String
  mutable : Bool
  params : String
  result : String
  body : Body
  deriving DecidableEq

structure HandleClass where
  name : String
  destructor : String
  constructors : List HandleConstructor
  methods : List HandleMethod
  deriving DecidableEq

namespace HandleConstructor

def rawCall (c : HandleConstructor) : String :=
  "ffi::" ++ c.symbol ++ "(" ++ Text.join ", " c.call.args ++ ")"

def new (reg : Registry) (c : Constructor) (lps : List LoweredParam) :
    Except LoweringFault HandleConstructor := do
  let params ← Spelling.params c.params
  .ok ⟨c.name, params, c.params.length, c.symbol, Call.ofParams reg lps⟩

/-- The constructor named `new` is that of the class, any other a static function. -/
def render (owner : String) (c : HandleConstructor) : String :=
  if c.name = "new" then
    let object :=
      if c.call.prelude = [] then c.rawCall
      else "[&]() \x7b " ++ Text.join " " c.call.prelude ++ " return " ++ c.rawCall ++ "; \x7d()"
    "  " ++ (if c.arity = 1 then "explicit " else "") ++ owner ++ "(" ++ c.params ++ ")\n" ++
      "    : " ++ owner ++ "(from_raw_t\x7b\x7d, " ++ object ++ ")\n" ++
      "  \x7b\n  \x7d\n\n"
  else
    "  static " ++ owner ++ " " ++ c.name ++ "(" ++ c.params ++ ")\n  \x7b\n" ++
      String.join (c.call.prelude.map fun line => "    " ++ line ++ "\n") ++
      "    return " ++ owner ++ "(from_raw_t\x7b\x7d, " ++ c.rawCall ++ ");\n  \x7d\n\n"

end HandleConstructor

namespace HandleMethod

def new (reg : Registry) (m : Method) (lps : List LoweredParam) (ret : Lowered) :
    Except LoweringFault HandleMethod := do
  let result ← Spelling.result m.ret
  let params ← Spelling.params m.params
  let body := Body.new reg m.symbol lps ret
  let self : Call := ⟨[], ["handle_.get()"]⟩
  .ok ⟨m.name, m.mutable, params, result, { body with call := self.append body.call }⟩

def render (m : HandleMethod) : String :=
  "  " ++ m.result ++ " " ++ m.name ++ "(" ++ m.params ++ ")" ++
    (if m.mutable then "" else " const") ++ "\n  \x7b\n" ++ m.body.render "    " ++ "  \x7d\n\n"

end HandleMethod

def HandleClass.render (c : HandleClass) : String :=
  "class " ++ c.name ++ "\n\x7b\n" ++
    "  struct from_raw_t \x7b\x7d;\n" ++
    "  ::zigbind::UniqueHandle<&ffi::" ++ c.destructor ++ "> handle_;\n\n" ++
    "  " ++ c.name ++ "(from_raw_t, void* raw)\n" ++
    "    : handle_(raw)\n" ++
    "  \x7b\n" ++
    "    if (!handle_)\n" ++
    "      throw ::zigbind::AllocationError(\"" ++ c.name ++ "\");\n" ++
    "  \x7d\n" ++
    "\npublic:\n" ++
    String.join (c.constructors.map (·.render c.name)) ++
    "  " ++ c.name ++ "(" ++ c.name ++ "&&) noexcept = default;\n" ++
    "  " ++ c.name ++ "& operator=(" ++ c.name ++ "&&) noexcept = default;\n\n" ++
    String.join (c.methods.map (·.render)) ++
    "  void* native_handle() const noexcept \x7b return handle_.get(); \x7d\n" ++
    "\x7d;\n\n"

end Bindery
