import TinyCompile.X86.Decode

set_option autoImplicit false

/-!
# Jit: byte emission

`srcs/jit/emit.c` and the enumerations of `incs/jit.h` it writes with.  An
emitter gets the addresses of a write pointer, which is null in the sizing pass,
and of a byte count; both are part of an `Out` here, with the memory the pointer
points into.
-/

namespace TinyCompile.Jit

open TinyCompile.Machine TinyCompile.X86

/-- A pointer; the null pointer is 0. -/
abbrev Ptr : Type := Word

/-! ## `incs/jit.h` -/

/-- `X86Prefix`. -/
def REX : Byte := 0x40
@[inherit_doc REX] def REX_B : Byte := 0x41
@[inherit_doc REX] def REX_W : Byte := 0x48

/-- `X86Opcode`. -/
def ALU_ADD : Byte := 0x01
@[inherit_doc ALU_ADD] def ALU_OR : Byte := 0x09
@[inherit_doc ALU_ADD] def ALU_AND : Byte := 0x21
@[inherit_doc ALU_ADD] def ALU_SUB : Byte := 0x29
@[inherit_doc ALU_ADD] def ALU_XOR : Byte := 0x31
@[inherit_doc ALU_ADD] def ALU_CMP : Byte := 0x39
@[inherit_doc ALU_ADD] def ALU_IMM : Byte := 0x81
@[inherit_doc ALU_ADD] def ALU_IMM8 : Byte := 0x83
@[inherit_doc ALU_ADD] def ALU_TEST : Byte := 0x85
@[inherit_doc ALU_ADD] def MOV_RM_R : Byte := 0x89
@[inherit_doc ALU_ADD] def MOV_RM_R8 : Byte := 0x88
@[inherit_doc ALU_ADD] def MOV_R_RM : Byte := 0x8B
@[inherit_doc ALU_ADD] def MOV_IMM_R : Byte := 0xB8
@[inherit_doc ALU_ADD] def OP_PUSH : Byte := 0x50
@[inherit_doc ALU_ADD] def OP_POP : Byte := 0x58
@[inherit_doc ALU_ADD] def OP_RET : Byte := 0xC3
@[inherit_doc ALU_ADD] def OP_CALL_IND : Byte := 0xFF
@[inherit_doc ALU_ADD] def OP_JMP_REL32 : Byte := 0xE9
@[inherit_doc ALU_ADD] def OP_PREFIX_0F : Byte := 0x0F
@[inherit_doc ALU_ADD] def OP_MOVSXD : Byte := 0x63
@[inherit_doc ALU_ADD] def OP_MOVSX_8 : Byte := 0xBE
@[inherit_doc ALU_ADD] def OP_MOVZX : Byte := 0xB6
@[inherit_doc ALU_ADD] def OP_LEA : Byte := 0x8D
@[inherit_doc ALU_ADD] def OP_SHIFT_CL : Byte := 0xD3
@[inherit_doc ALU_ADD] def OP_CQO : Byte := 0x99
@[inherit_doc ALU_ADD] def OP_IDIV : Byte := 0xF7
@[inherit_doc ALU_ADD] def OP_GRP3 : Byte := 0xF7
@[inherit_doc ALU_ADD] def OP_IMUL_1 : Byte := 0x0F
@[inherit_doc ALU_ADD] def OP_IMUL_2 : Byte := 0xAF

/-- `X86ModMode`. -/
def MOD_MEM_DISP8 : Byte := 0x40
@[inherit_doc MOD_MEM_DISP8] def MOD_MEM_DISP32 : Byte := 0x80
@[inherit_doc MOD_MEM_DISP8] def MOD_REG : Byte := 0xC0

/-- `X86Extension`. -/
def EXT_ADD : Byte := 0
@[inherit_doc EXT_ADD] def EXT_CALL : Byte := 2
@[inherit_doc EXT_ADD] def EXT_NOT : Byte := 2
@[inherit_doc EXT_ADD] def EXT_NEG : Byte := 3
@[inherit_doc EXT_ADD] def EXT_SHL : Byte := 4
@[inherit_doc EXT_ADD] def EXT_SHR : Byte := 5
@[inherit_doc EXT_ADD] def EXT_SUB : Byte := 5
@[inherit_doc EXT_ADD] def EXT_IDIV : Byte := 7
@[inherit_doc EXT_ADD] def EXT_CMP : Byte := 7
@[inherit_doc EXT_ADD] def EXT_SAR : Byte := 7

/-- `X86Condition`. -/
def conditionCode : Cond → Byte
  | .e => 0x4
  | .ne => 0x5
  | .l => 0xC
  | .ge => 0xD
  | .le => 0xE
  | .g => 0xF

/-! ## Writing bytes -/

/-- The write pointer, the byte count and the memory. -/
structure Out where
  curr : Ptr
  size : Nat
  mem : Mem

/-- An emitter. -/
abbrev Emitter := Out → Out

/-- `emit_u8`. -/
def emitU8 (byte : Byte) : Emitter := fun o =>
  if o.curr ≠ 0 then ⟨o.curr + 1, o.size + 1, Function.update o.mem o.curr byte⟩
  else { o with size := o.size + 1 }

/-- `emit_u32`. -/
def emitU32 (val : BitVec 32) : Emitter := fun o =>
  o |> emitU8 ((val &&& 0xFF#32).setWidth 8)
    |> emitU8 (((val >>> 8) &&& 0xFF#32).setWidth 8)
    |> emitU8 (((val >>> 16) &&& 0xFF#32).setWidth 8)
    |> emitU8 (((val >>> 24) &&& 0xFF#32).setWidth 8)

/-- `emit_u64`. -/
def emitU64 (val : Word) : Emitter := fun o =>
  o |> emitU32 ((val &&& 0xFFFFFFFF#64).setWidth 32)
    |> emitU32 (((val >>> 32) &&& 0xFFFFFFFF#64).setWidth 32)

/-! ## Instructions -/

/-- `get_rex`. -/
def getRex (dst src : Reg) : Byte :=
  let rex := REX_W
  let rex := if 8 ≤ src.code then rex ||| 0x04 else rex
  if 8 ≤ dst.code then rex ||| 0x01 else rex

/-- The bits `(reg & 7)` of a register number. -/
def low3 (reg : Reg) : Byte := reg.code &&& 7

/-- `emit_store_local`. -/
def emitStoreLocal (src : Reg) (disp : BitVec 32) : Emitter := fun o =>
  o |> emitU8 (getRex .rax src)
    |> emitU8 MOV_RM_R
    |> emitU8 (MOD_MEM_DISP32 ||| (low3 src <<< 3) ||| Reg.rbp.code)
    |> emitU32 disp

/-- `emit_load_param`. -/
def emitLoadParam (dst : Reg) (disp : BitVec 32) : Emitter := fun o =>
  o |> emitU8 (getRex .rax dst)
    |> emitU8 MOV_R_RM
    |> emitU8 (MOD_MEM_DISP32 ||| (low3 dst <<< 3) ||| Reg.rbp.code)
    |> emitU32 disp

/-- `emit_mov_imm`. -/
def emitMovImm (dst : Reg) (imm : Word) : Emitter := fun o =>
  o |> emitU8 (getRex dst .rax)
    |> emitU8 (MOV_IMM_R + low3 dst)
    |> emitU64 imm

/-- `emit_alu`. -/
def emitAlu (op : Byte) (dst src : Reg) : Emitter := fun o =>
  o |> emitU8 (getRex dst src)
    |> emitU8 op
    |> emitU8 (MOD_REG ||| (low3 src <<< 3) ||| low3 dst)

/-- `emit_imul_r64`. -/
def emitImulR64 (dst src : Reg) : Emitter := fun o =>
  o |> emitU8 (getRex src dst)
    |> emitU8 OP_IMUL_1
    |> emitU8 OP_IMUL_2
    |> emitU8 (MOD_REG ||| (low3 dst <<< 3) ||| low3 src)

/-- `emit_mov_reg_reg`. -/
def emitMovRegReg (dst src : Reg) : Emitter := emitAlu MOV_RM_R dst src

/-- `emit_cmp`. -/
def emitCmp (dst src : Reg) : Emitter := emitAlu ALU_CMP dst src

/-- `emit_test`. -/
def emitTest (dst src : Reg) : Emitter := emitAlu ALU_TEST dst src

/-- `emit_setcc`; a byte operand 4 to 7 needs a prefix. -/
def emitSetcc (cc : Cond) (dst : Reg) : Emitter := fun o =>
  (if 8 ≤ dst.code ∨ (4 ≤ dst.code ∧ dst.code ≤ 7) then
      emitU8 (if 8 ≤ dst.code then 0x40 ||| 0x01 else 0x40) o
    else o)
    |> emitU8 OP_PREFIX_0F
    |> emitU8 (0x90 ||| conditionCode cc)
    |> emitU8 (MOD_REG ||| (0 <<< 3) ||| low3 dst)

/-- `emit_movzx`. -/
def emitMovzx (dst src : Reg) : Emitter := fun o =>
  let rex := REX_W
  let rex := if 8 ≤ dst.code then rex ||| 0x04 else rex
  let rex := if 8 ≤ src.code then rex ||| 0x01 else rex
  o |> emitU8 rex
    |> emitU8 OP_PREFIX_0F
    |> emitU8 OP_MOVZX
    |> emitU8 (MOD_REG ||| (low3 dst <<< 3) ||| low3 src)

/-- `emit_push`. -/
def emitPush (reg : Reg) : Emitter := fun o =>
  (if 8 ≤ reg.code then emitU8 REX_B o else o) |> emitU8 (OP_PUSH + low3 reg)

/-- `emit_pop`. -/
def emitPop (reg : Reg) : Emitter := fun o =>
  (if 8 ≤ reg.code then emitU8 REX_B o else o) |> emitU8 (OP_POP + low3 reg)

/-- `emit_load_signext`. -/
def emitLoadSignext (dst base : Reg) (disp : BitVec 32) (size : Nat) : Emitter := fun o =>
  let rex := REX_W ||| (if 8 ≤ dst.code then 4 else 0) ||| (if 8 ≤ base.code then 1 else 0)
  if size = 1 ∨ size = 4 then
    (if size = 1 then o |> emitU8 rex |> emitU8 OP_PREFIX_0F |> emitU8 OP_MOVSX_8
      else o |> emitU8 rex |> emitU8 OP_MOVSXD)
      |> emitU8 (MOD_MEM_DISP32 ||| (low3 dst <<< 3) ||| low3 base)
      |> emitU32 disp
  else emitLoadParam dst disp o

/-- `emit_store_sized`. -/
def emitStoreSized (src base : Reg) (disp : BitVec 32) (size : Nat) : Emitter := fun o =>
  let ext := (if 8 ≤ src.code then 4 else 0) ||| (if 8 ≤ base.code then 1 else 0)
  if size = 1 then
    o |> emitU8 (REX ||| ext)
      |> emitU8 MOV_RM_R8
      |> emitU8 (MOD_MEM_DISP32 ||| (low3 src <<< 3) ||| low3 base)
      |> emitU32 disp
  else if size = 4 then
    (if ext ≠ 0 then emitU8 (0x40 ||| ext) o else o)
      |> emitU8 MOV_RM_R
      |> emitU8 (MOD_MEM_DISP32 ||| (low3 src <<< 3) ||| low3 base)
      |> emitU32 disp
  else emitStoreLocal src disp o

end TinyCompile.Jit
