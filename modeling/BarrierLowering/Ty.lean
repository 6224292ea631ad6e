/-!
# Types of values

## Main definitions

* `Ty` — the types an instruction can have.
* `Ty.text` — how a listing writes them.
-/

namespace BarrierLowering

/-- The type of a value. -/
inductive Ty
  | void
  | bool
  | i8
  | i16
  | i32
  | i64
  | f16
  | f32
  | f64
  /-- A pointer to a value of the given type. -/
  | ptr (target : Ty)
  /-- An array of a fixed number of elements. -/
  | array (element : Ty) (length : Nat)
  /-- A record type, known by name only. -/
  | struct (name : String)
  deriving DecidableEq

/-- The written form of a type. -/
def Ty.text : Ty → String
  | .void => "void"
  | .bool => "i1"
  | .i8 => "i8"
  | .i16 => "i16"
  | .i32 => "i32"
  | .i64 => "i64"
  | .f16 => "half"
  | .f32 => "float"
  | .f64 => "double"
  | .ptr target => target.text ++ "*"
  | .array element length => "[" ++ toString length ++ " x " ++ element.text ++ "]"
  | .struct name => "%" ++ name

end BarrierLowering
