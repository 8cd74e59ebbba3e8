import Mathlib

set_option autoImplicit false

/-!
# Source: data types, string views and integer literals

`incs/types.def`, the type helpers of `incs/ast.h`, and `incs/string_view.h`.
-/

namespace TinyCompile.Source

/-- `MAX_PARAMS_PER_FUNCTION`. -/
def maxParamsPerFunction : Nat := 32

/-! ## String views -/

/-- The bytes a `StringView` points at. -/
abbrev StringView : Type := List UInt8

/-- `sv_eq`. -/
def svEq (a b : StringView) : Bool := a == b

@[simp] theorem svEq_iff (a b : StringView) : svEq a b = true ↔ a = b := by
  simp [svEq]

/-- A string view as `%.*s` prints it. -/
def svText (sv : StringView) : String :=
  String.ofList (sv.map fun b => Char.ofNat b.toNat)

/-- The bytes of an ASCII string. -/
def svOf (s : String) : StringView := s.toList.map fun c => UInt8.ofNat c.toNat

/-- `isspace` in the C locale. -/
def isSpace (b : UInt8) : Bool := b == 32 || (9 ≤ b && b ≤ 13)

/-- `isdigit`. -/
def isDigit (b : UInt8) : Bool := 48 ≤ b && b ≤ 57

/-- The value of a run of decimal digits. -/
def digitsValue (bs : List UInt8) : Nat :=
  bs.foldl (fun n b => 10 * n + (b.toNat - 48)) 0

/-- `strtoll` clamps to the range of `int64_t`. -/
def saturate (v : Int) : BitVec 64 :=
  BitVec.ofInt 64 (max (-2 ^ 63) (min v (2 ^ 63 - 1)))

/-- `atoll`: leading blanks, an optional sign, digits; what follows is ignored. -/
def atoll (bs : List UInt8) : BitVec 64 :=
  match bs.dropWhile isSpace with
  | 45 :: rest => saturate (-(digitsValue (rest.takeWhile isDigit) : Int))
  | 43 :: rest => saturate (digitsValue (rest.takeWhile isDigit))
  | rest => saturate (digitsValue (rest.takeWhile isDigit))

/-- `sv_to_int64`: the copy ends in a zero byte, at which `atoll` stops. -/
def svToInt64 (sv : StringView) : BitVec 64 := atoll sv

example : svToInt64 (svOf "120") = 120 := by decide
example : svToInt64 (svOf "99999999999999999999") = 9223372036854775807 := by decide

/-! ## Data types -/

/-- `DataType`, in the order of `types.def`. -/
inductive DataType where
  | void
  | int | long
  | int64 | int32 | int16 | int8
  | uint64 | uint32 | uint16 | uint8
  | char | bool
  deriving DecidableEq, Repr, Inhabited

/-- One row of `type_info_table`. -/
structure TypeInfo where
  name : String
  size : Nat
  isSigned : Bool

/-- `type_info_table`. -/
def typeInfoTable : DataType → TypeInfo
  | .void => ⟨"void", 0, false⟩
  | .int => ⟨"int", 4, true⟩
  | .long => ⟨"long", 8, true⟩
  | .int64 => ⟨"int64", 8, true⟩
  | .int32 => ⟨"int32", 4, true⟩
  | .int16 => ⟨"int16", 2, true⟩
  | .int8 => ⟨"int8", 1, true⟩
  | .uint64 => ⟨"uint64", 8, false⟩
  | .uint32 => ⟨"uint32", 4, false⟩
  | .uint16 => ⟨"uint16", 2, false⟩
  | .uint8 => ⟨"uint8", 1, false⟩
  | .char => ⟨"char", 1, true⟩
  | .bool => ⟨"bool", 1, false⟩

/-- `type_size`. -/
def typeSize (type : DataType) : Nat := (typeInfoTable type).size

/-- `type_is_signed`. -/
def typeIsSigned (type : DataType) : Bool := (typeInfoTable type).isSigned

/-- `type_name`. -/
def typeName (type : DataType) : String := (typeInfoTable type).name

/-- `type_is_integer`: everything but `void`. -/
def typeIsInteger (type : DataType) : Bool := type != .void

/-- `type_is_unsigned`. -/
def typeIsUnsigned (type : DataType) : Bool := !typeIsSigned type && type != .void

theorem typeSize_le (type : DataType) : typeSize type ≤ 8 := by
  cases type <;> decide

end TinyCompile.Source
