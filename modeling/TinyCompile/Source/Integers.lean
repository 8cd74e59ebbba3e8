import TinyCompile.Logic.Extends
import TinyCompile.Parser.Token
import TinyCompile.Source.Ast

set_option autoImplicit false

/-!
# Source: integers in C

What C says about the operators of the language, in unbounded integers.  There is a result
only where C has exactly one: the values are values of their types, no conversion changes a
value, and no operation leaves the type of its result.
-/

namespace TinyCompile.Source

open TinyCompile.Logic

/-! ## Types -/

/-- The values of a type. -/
def DataType.contains (type : DataType) (z : Int) : Bool :=
  match type with
  | .void => false
  | .bool => decide (0 ≤ z ∧ z ≤ 1)
  | type =>
      if typeIsSigned type then
        decide (-2 ^ (8 * typeSize type - 1) ≤ z ∧ z < 2 ^ (8 * typeSize type - 1))
      else decide (0 ≤ z ∧ z < 2 ^ (8 * typeSize type))

/-- The integer promotions. -/
def promote (type : DataType) : DataType := if typeSize type < 4 then .int else type

/-- The usual arithmetic conversions: the type two operands are converted to. -/
def commonType (left right : DataType) : DataType :=
  let left := promote left
  let right := promote right
  if typeSize left < typeSize right then right
  else if typeSize right < typeSize left then left
  else if typeIsUnsigned left then left
  else right

/-- The value of an expression and its type. -/
structure Value where
  type : DataType
  value : Int
  deriving DecidableEq, Repr

/-- A decimal literal.  With a zero in front C takes it for an octal one. -/
def literalValue (text : StringView) : Option Value :=
  let n := digitsValue text
  if Parser.isNumeral text && (text.head? != some 48 || text.length == 1) then
    if n < 2 ^ 31 then some ⟨.int, n⟩ else if n < 2 ^ 63 then some ⟨.long, n⟩ else none
  else none

/-! ## Limits -/

/-- The values that are allowed for, by the type of an expression or of a variable.  A
variable is local or a parameter; `unseen` says which variables the operands of `>` may
mention. -/
structure Limits where
  expression : DataType → Int → Bool
  stored : DataType → Bool → Int → Bool
  unseen : DataType → Bool → Bool

/-- C allows for all values of a type. -/
def cLimits : Limits where
  expression type z := type.contains z
  stored type _ z := type.contains z
  unseen _ _ := true

/-- Whatever is allowed for under the one limits is allowed for under the others. -/
structure Limits.Within (L L' : Limits) : Prop where
  expression : ∀ {type z}, L.expression type z = true → L'.expression type z = true
  stored : ∀ {type isLocal z}, L.stored type isLocal z = true → L'.stored type isLocal z = true
  unseen : ∀ {type isLocal}, L.unseen type isLocal = true → L'.unseen type isLocal = true

/-! ## Operators -/

namespace Limits

/-- A value of a type, if it is allowed for. -/
def value (L : Limits) (type : DataType) (z : Int) : Option Value :=
  if L.expression type z then some ⟨type, z⟩ else none

/-- An operation in the common type of its operands. -/
def converted (L : Limits) (a b : Value) (z : Option Int) : Option Value :=
  let type := commonType a.type b.type
  if type.contains a.value && type.contains b.value then z.bind (L.value type) else none

/-- A comparison in the common type of the operands. -/
def compared (L : Limits) (a b : Value) (r : Bool) : Option Value :=
  let type := commonType a.type b.type
  if type.contains a.value && type.contains b.value then L.value .int (cond r 1 0) else none

/-- A shift, by an amount that C allows for. -/
def shifted (L : Limits) (a b : Value) (z : Int) : Option Value :=
  if 0 ≤ a.value ∧ 0 ≤ b.value ∧ b.value < 8 * typeSize (promote a.type) then
    L.value (promote a.type) z
  else none

/-- A unary operator. -/
def unary (L : Limits) (op : UnaryOp) (a : Value) : Option Value :=
  match op with
  | .negate => L.value (promote a.type) (-a.value)
  | .bitNot => L.value (promote a.type) (-a.value - 1)
  | .not => L.value .int (cond (a.value == 0) 1 0)

/-- A binary operator. -/
def binary (L : Limits) (op : BinaryOp) (a b : Value) : Option Value :=
  match op with
  | .add => L.converted a b (some (a.value + b.value))
  | .sub => L.converted a b (some (a.value - b.value))
  | .mul => L.converted a b (some (a.value * b.value))
  | .div => L.converted a b (if b.value = 0 then none else some (a.value.tdiv b.value))
  | .bitAnd => L.converted a b (some (Int.land a.value b.value))
  | .bitOr => L.converted a b (some (Int.lor a.value b.value))
  | .bitXor => L.converted a b (some (Int.xor a.value b.value))
  | .equal => L.compared a b (a.value == b.value)
  | .notEqual => L.compared a b (a.value != b.value)
  | .less => L.compared a b (a.value < b.value)
  | .lessEqual => L.compared a b (a.value ≤ b.value)
  | .greater => L.compared a b (b.value < a.value)
  | .greaterEqual => L.compared a b (b.value ≤ a.value)
  | .lshift => L.shifted a b (a.value * 2 ^ b.value.toNat)
  | .rshift => L.shifted a b (a.value / 2 ^ b.value.toNat)

/-! ## Results -/

section

variable {L L' : Limits} {a b c : Value} {type : DataType} {z : Int}

theorem value_eq_some (h : L.value type z = some c) :
    L.expression type z = true ∧ c = ⟨type, z⟩ := by
  obtain ⟨hallowed, hc⟩ := Option.ite_none_right_eq_some.mp h
  exact ⟨hallowed, (Option.some.inj hc).symm⟩

theorem converted_eq_some {result : Option Int} (h : L.converted a b result = some c) :
    result = some c.value ∧ L.expression c.type c.value = true := by
  obtain ⟨-, hc⟩ := Option.ite_none_right_eq_some.mp h
  obtain ⟨z, hz, hvalue⟩ := Option.bind_eq_some_iff.mp hc
  obtain ⟨hallowed, rfl⟩ := value_eq_some hvalue
  exact ⟨hz, hallowed⟩

theorem compared_eq_some {r : Bool} (h : L.compared a b r = some c) : c.value = cond r 1 0 := by
  obtain ⟨-, hc⟩ := Option.ite_none_right_eq_some.mp h
  obtain ⟨-, rfl⟩ := value_eq_some hc
  rfl

theorem shifted_eq_some (h : L.shifted a b z = some c) :
    0 ≤ a.value ∧ 0 ≤ b.value ∧ b.value < 64 ∧ c.value = z ∧
      L.expression c.type c.value = true := by
  obtain ⟨⟨ha, hb, hlt⟩, hc⟩ := Option.ite_none_right_eq_some.mp h
  obtain ⟨hallowed, rfl⟩ := value_eq_some hc
  have hsize := typeSize_le (promote a.type)
  exact ⟨ha, hb, by omega, rfl, hallowed⟩

/-! ## Wider limits -/

variable (hwithin : L.Within L')

include hwithin

theorem Within.value : Extends (L.value type z) (L'.value type z) :=
  .guard hwithin.expression (.refl _)

theorem Within.converted (result : Option Int) :
    Extends (L.converted a b result) (L'.converted a b result) :=
  .guard id (.bind (.refl _) fun _ => Within.value hwithin)

theorem Within.compared (r : Bool) : Extends (L.compared a b r) (L'.compared a b r) :=
  .guard id (Within.value hwithin)

theorem Within.shifted (z : Int) : Extends (L.shifted a b z) (L'.shifted a b z) :=
  .guard id (Within.value hwithin)

/-- Wider limits change no result. -/
theorem Within.unary (op : UnaryOp) : Extends (L.unary op a) (L'.unary op a) := by
  cases op with
  | negate | bitNot | not => exact Within.value hwithin

theorem Within.binary (op : BinaryOp) : Extends (L.binary op a b) (L'.binary op a b) := by
  cases op with
  | add | sub | mul | div | bitAnd | bitOr | bitXor => exact Within.converted hwithin _
  | equal | notEqual | less | lessEqual | greater | greaterEqual =>
    exact Within.compared hwithin _
  | lshift | rshift => exact Within.shifted hwithin _

end

end Limits

end TinyCompile.Source
