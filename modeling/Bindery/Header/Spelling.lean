import Bindery.Lowering.Basic
import Bindery.Text.Basic

/-!
# Host spelling of types

How slots are spelled in foreign declarations, and types in the signatures of wrappers and in
struct fields.
-/
namespace Bindery.Spelling

def scalar : Scalar → String
  | .int .i8 => "std::int8_t" | .int .i16 => "std::int16_t"
  | .int .i32 => "std::int32_t" | .int .i64 => "std::int64_t"
  | .int .u8 => "std::uint8_t" | .int .u16 => "std::uint16_t"
  | .int .u32 => "std::uint32_t" | .int .u64 => "std::uint64_t"
  | .int .isize => "std::ptrdiff_t" | .int .usize => "std::size_t"
  | .f32 => "float" | .f64 => "double" | .bool => "bool" | .void => "void"

def pointee : Pointee → String
  | .scalar s => scalar s
  | .char => "char"
  | .named name => name
  | .opaqueObject => "void"

def slot (s : Slot) : String :=
  match s.shape with
  | .scalar s => scalar s
  | .pointer target mutable _ => (if mutable then "" else "const ") ++ pointee target ++ "*"
  | .record name => name
  | .void => "void"

/-- A value type: a scalar, a record or an array of them. -/
def value : Ty → Except LoweringFault String
  | .scalar s => .ok (scalar s)
  | .record name => .ok name
  | .array elem length => do
    let e ← value elem
    .ok ("std::array<" ++ e ++ ", " ++ toString length ++ ">")
  | t => .error (.notAValue t)

def constant (mutable : Bool) : String := if mutable then "" else "const "

def span (mutable : Bool) (elem : Ty) : Except LoweringFault String := do
  let e ← value elem
  .ok ("std::span<" ++ constant mutable ++ e ++ ">")

def view (mutable : Bool) : String := if mutable then "std::span<char>" else "std::string_view"

def reference (mutable : Bool) (mark : String) (t : Ty) : Except LoweringFault String := do
  let v ← value t
  .ok (constant mutable ++ v ++ mark)

def optional (payload : String) : String := "std::optional<" ++ payload ++ ">"

/-- The type of a wrapper's parameter. -/
def param : Ty → Except LoweringFault String
  | .scalar s => value (.scalar s)
  | .record name => value (.record name)
  | .array elem length => reference false "&" (.array elem length)
  | .slice mutable elem => span mutable elem
  | .text mutable => .ok (view mutable)
  | .wrapped .ref inner => reference false "&" inner
  | .wrapped .refMut inner => reference true "&" inner
  | .wrapped .optional (.wrapped .ref inner) => reference false "*" inner
  | .wrapped .optional (.wrapped .refMut inner) => reference true "*" inner
  | .wrapped .optional (.slice mutable elem) => optional <$> span mutable elem
  | .wrapped .optional (.text mutable) => .ok (optional (view mutable))
  | .wrapped .optional inner => optional <$> value inner
  | .generic name => .error (.noHostType (.generic name))

/-- The return type of a wrapper. -/
def result : Ty → Except LoweringFault String
  | .scalar s => value (.scalar s)
  | .record name => value (.record name)
  | .wrapped .ref inner => reference false "&" inner
  | .wrapped .refMut inner => reference true "&" inner
  | .wrapped .optional (.wrapped .ref inner) => reference false "*" inner
  | .wrapped .optional (.wrapped .refMut inner) => reference true "*" inner
  | t => .error (.noHostReturn t)

/-- The parameter list of a wrapper. -/
def params (ps : List Param) : Except LoweringFault String := do
  let items ← ps.mapM fun p => do
    let t ← param p.type
    pure (t ++ " " ++ p.name)
  .ok (Text.join ", " items)

end Bindery.Spelling
