import TinyCompile.Ir.Instr
import TinyCompile.Machine.Word

set_option autoImplicit false

/-!
# Ir: what the operations compute

The meaning of the opcodes on 64-bit values, and of the sized accesses to a stack slot.
-/

namespace TinyCompile.Ir

open TinyCompile.Machine TinyCompile.Source

/-- The value of an operation; `none` where a division traps and for the opcodes that
are not operations. -/
def evalOp (a b : Word) : IROpcode → Option Word
  | .add => some (a + b)
  | .sub => some (a - b)
  | .mul => some (a * b)
  | .div => quotient a b
  | .eq => some (truth (decide (a.toInt = b.toInt)))
  | .neq => some (truth (decide (a.toInt ≠ b.toInt)))
  | .lt => some (truth (decide (a.toInt < b.toInt)))
  | .le => some (truth (decide (a.toInt ≤ b.toInt)))
  | .gt => some (truth (decide (b.toInt < a.toInt)))
  | .ge => some (truth (decide (b.toInt ≤ a.toInt)))
  | .lshift => some (a <<< (b.toNat % 64))
  | .rshift => some (a.sshiftRight (b.toNat % 64))
  | .urshift => some (a >>> (b.toNat % 64))
  | .band => some (a &&& b)
  | .bor => some (a ||| b)
  | .bxor => some (a ^^^ b)
  | .bnot => some (~~~a)
  | .neg => some (-a)
  | .not => some (truth (decide (a = 0)))
  | .mov => some a
  | _ => none

/-- The number of bytes a store of a type of `size` bytes writes. -/
def storedBytes (size : Nat) : Nat := if size = 1 ∨ size = 4 then size else 8

/-- A slot after a store. -/
def storeSlot (size : Nat) (old v : Word) : Word := replaceLow (storedBytes size) old v

/-- The value a load reads from a slot. -/
def loadSlot (size : Nat) (slot : Word) : Word := signExtendLow (storedBytes size) slot

theorem storedBytes_pos (size : Nat) : 0 < storedBytes size := by
  unfold storedBytes
  split <;> omega

theorem storedBytes_le (size : Nat) : storedBytes size ≤ 8 := by
  unfold storedBytes
  split <;> omega

/-- A load of the size of the store before it. -/
theorem loadSlot_storeSlot (size : Nat) (old v : Word) :
    loadSlot size (storeSlot size old v) = signExtendLow (storedBytes size) v := by
  unfold loadSlot storeSlot signExtendLow
  rw [replaceLow_setWidth _ _ (storedBytes_le size)]

end TinyCompile.Ir
