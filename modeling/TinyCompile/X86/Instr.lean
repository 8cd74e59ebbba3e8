import TinyCompile.Machine.Memory

set_option autoImplicit false

/-!
# X86: the instructions of the modelled x86-64 subset

The subset is closed under what a simple integer code generator needs: moves
between registers and memory, two-operand arithmetic, shifts by `cl`, signed
division, condition bytes, pushes and pops, relative jumps, indirect calls and
returns.  Operand size is 64 bits unless a constructor says otherwise.
-/

namespace TinyCompile.X86

open TinyCompile.Machine

/-- The general purpose registers, in the order of their numbers. -/
inductive Reg where
  | rax | rcx | rdx | rbx | rsp | rbp | rsi | rdi
  | r8 | r9 | r10 | r11 | r12 | r13 | r14 | r15
  deriving DecidableEq, Repr, Inhabited

namespace Reg

/-- The hardware number of a register. -/
def code : Reg → Byte
  | rax => 0 | rcx => 1 | rdx => 2 | rbx => 3 | rsp => 4 | rbp => 5 | rsi => 6 | rdi => 7
  | r8 => 8 | r9 => 9 | r10 => 10 | r11 => 11 | r12 => 12 | r13 => 13 | r14 => 14 | r15 => 15

/-- The register named by an extension bit of the REX prefix and three bits of
the opcode or of the ModRM byte. -/
def ofBits (ext : Bool) (low : BitVec 3) : Reg :=
  match ext, low with
  | false, 0 => rax | false, 1 => rcx | false, 2 => rdx | false, 3 => rbx
  | false, 4 => rsp | false, 5 => rbp | false, 6 => rsi | false, 7 => rdi
  | true, 0 => r8 | true, 1 => r9 | true, 2 => r10 | true, 3 => r11
  | true, 4 => r12 | true, 5 => r13 | true, 6 => r14 | true, 7 => r15

/-- The bit a REX prefix carries for a register. -/
def ext (r : Reg) : Bool := decide (8 ≤ r.code.toNat)

/-- The three bits a register contributes to a ModRM byte. -/
def low (r : Reg) : BitVec 3 := r.code.setWidth 3

@[simp] theorem ofBits_ext_low (r : Reg) : ofBits r.ext r.low = r := by
  cases r <;> rfl

end Reg

/-- A register or a memory operand `[base + disp]`. -/
inductive Operand where
  | reg (r : Reg)
  | mem (base : Reg) (disp : Word)
  deriving DecidableEq, Repr

/-- The operand sizes a plain store comes in. -/
inductive Size where
  | byte | dword | qword
  deriving DecidableEq, Repr

/-- Two-operand arithmetic. -/
inductive AluOp where
  | add | or | and | sub | xor | cmp
  deriving DecidableEq, Repr

/-- The one-operand group behind opcode `F7`. -/
inductive UnaryOp where
  | not | neg | idiv
  deriving DecidableEq, Repr

/-- Shifts by `cl`. -/
inductive ShiftOp where
  | shl | shr | sar
  deriving DecidableEq, Repr

/-- Branch and set conditions. -/
inductive Cond where
  | e | ne | l | ge | le | g
  deriving DecidableEq, Repr

/-- Decoded instructions. -/
inductive Instr where
  | mov (size : Size) (dst : Operand) (src : Reg)
  | load (dst : Reg) (src : Operand)
  | movImm (dst : Reg) (imm : Word)
  | movzx8 (dst : Reg) (src : Operand)
  | movsx8 (dst : Reg) (src : Operand)
  | movsxd (dst : Reg) (src : Operand)
  | lea (dst base : Reg) (disp : Word)
  | alu (op : AluOp) (dst : Operand) (src : Reg)
  | aluImm (op : AluOp) (dst : Operand) (imm : Word)
  | test (dst : Operand) (src : Reg)
  | imul (dst : Reg) (src : Operand)
  | unary (op : UnaryOp) (dst : Operand)
  | shift (op : ShiftOp) (dst : Operand)
  | cqo
  | setcc (c : Cond) (dst : Operand)
  | push (r : Reg)
  | pop (r : Reg)
  | jmp (rel : BitVec 32)
  | jcc (c : Cond) (rel : BitVec 32)
  | call (target : Operand)
  | ret
  deriving DecidableEq, Repr

end TinyCompile.X86
