import TinyCompile.Jit.Context

set_option autoImplicit false

/-!
# Jit: the encoders

`srcs/jit/encoders.c`, and the dispatch over `ir_ops.def`.  Each encoder gets the
write pointer, null in the sizing pass, and returns the number of bytes.
-/

namespace TinyCompile.Jit

open TinyCompile.Machine TinyCompile.X86 TinyCompile.Source TinyCompile.Ir

/-- The displacement from behind the four bytes at `loc` to `target`. -/
def relTo (loc target : Ptr) : BitVec 32 := (target - (loc + 4)).setWidth 32

/-- `patch_jump_offset`. -/
def patchJumpOffset (loc target : Ptr) (mem : Mem) : Mem :=
  writeBytes mem loc (leBytes 4 (relTo loc target).toNat)

/-- `get_local_offset`; the arithmetic is that of `int32_t`. -/
def getLocalOffset (idx : Nat) : BitVec 32 :=
  -(BitVec.ofNat 32 (calleeSavedSize + wordSize) +
    BitVec.ofNat 32 (idx + 1) * BitVec.ofNat 32 wordSize)

/-- `emit_jump`. -/
def emitJump (buf : Ptr) (labelId : Nat) (opcode : Byte) : JitM Nat := do
  let s ← get
  let start : Out := ⟨buf, 0, s.mem⟩
  let o :=
    if opcode = OP_JMP_REL32 then emitU8 OP_JMP_REL32 start
    else start |> emitU8 OP_PREFIX_0F |> emitU8 opcode
  if buf = 0 then return o.size + 4
  if labelId < maxLabels && s.ctx.labelDefined labelId then
    let target := s.ctx.labelOffset labelId
    let o := emitU32 (relTo o.curr target) o
    set { s with mem := o.mem }
    return o.size
  else
    let p : Patch := ⟨labelId, o.curr⟩
    let o := emitU32 0 o
    set ({ ctx := { s.ctx with patches := p :: s.ctx.patches }, mem := o.mem } : JITState)
    return o.size

/-- `emit_jz_jnz` on the location of its operand. -/
def emitJzJnz (src : Location) : Emitter := fun o =>
  match src with
  | .reg reg => emitTest reg reg o
  | _ =>
      o |> loadLocationToReg .rax src
        |> emitU8 REX_W
        |> emitU8 ALU_IMM8
        |> emitU8 (MOD_REG ||| (EXT_CMP <<< 3) ||| Reg.rax.code)
        |> emitU8 0x00

/-- `encode_mov`. -/
def encodeMov (buf : Ptr) (inst : IRInstruction) : JitM Nat := do
  let dest ← getLocation inst.dest
  let src ← getLocation inst.src1
  match dest, src with
  | .reg r, .reg r' =>
      if r = r' then return 0
      else
        emitFrom buf fun o => o |> loadLocationToReg .rax src |> storeRegToLocation dest .rax
  | _, _ =>
      emitFrom buf fun o => o |> loadLocationToReg .rax src |> storeRegToLocation dest .rax

/-- The condition `encode_cmp` selects. -/
def cmpCondition : IROpcode → Cond
  | .eq => .e
  | .neq => .ne
  | .lt => .l
  | .le => .le
  | .gt => .g
  | .ge => .ge
  | _ => .e

/-- `encode_cmp`. -/
def encodeCmp (buf : Ptr) (inst : IRInstruction) : JitM Nat :=
  emitComparisonOp buf inst (cmpCondition inst.opcode)

/-- `encode_jmp`. -/
def encodeJmp (buf : Ptr) (inst : IRInstruction) : JitM Nat :=
  emitJump buf inst.labelId OP_JMP_REL32

/-- `encode_branch`. -/
def encodeBranch (buf : Ptr) (inst : IRInstruction) : JitM Nat := do
  let src ← getLocation inst.src1
  let s ← get
  let o := emitJzJnz src ⟨buf, 0, s.mem⟩
  set { s with mem := o.mem }
  let opcode := 0x80#8 ||| (if inst.opcode = .jz then conditionCode .e else conditionCode .ne)
  let jmpSize ← emitJump o.curr inst.labelId opcode
  return o.size + jmpSize

/-- The loop of `encode_label`: patch and unlink what waits for the label. -/
def resolvePatches (id : Nat) (target : Ptr) : List Patch → Mem → List Patch × Mem
  | [], mem => ([], mem)
  | p :: rest, mem =>
      if p.labelId = id then resolvePatches id target rest (patchJumpOffset p.loc target mem)
      else
        let (kept, mem) := resolvePatches id target rest mem
        (p :: kept, mem)

/-- `encode_label`. -/
def encodeLabel (buf : Ptr) (inst : IRInstruction) : JitM Nat := do
  let id := inst.labelId
  if id ≥ maxLabels then return 0
  if buf ≠ 0 then
    let s ← get
    let (patches, mem) := resolvePatches id buf s.ctx.patches s.mem
    set ({
      ctx := { s.ctx with
        labelDefined := Function.update s.ctx.labelDefined id true
        labelOffset := Function.update s.ctx.labelOffset id buf
        patches := patches }
      mem := mem } : JITState)
  return 0

/-- `encode_const`. -/
def encodeConst (buf : Ptr) (inst : IRInstruction) : JitM Nat := do
  let dest ← getLocation inst.dest
  emitFrom buf fun o => o |> emitMovImm .rax inst.imm |> storeRegToLocation dest .rax

/-- `encode_add`. -/
def encodeAdd (buf : Ptr) (inst : IRInstruction) : JitM Nat :=
  emitStandardBinaryOp buf inst ALU_ADD

/-- `encode_sub`. -/
def encodeSub (buf : Ptr) (inst : IRInstruction) : JitM Nat :=
  emitStandardBinaryOp buf inst ALU_SUB

/-- `encode_mul`. -/
def encodeMul (buf : Ptr) (inst : IRInstruction) : JitM Nat := do
  let dest ← getLocation inst.dest
  let src1 ← getLocation inst.src1
  let src2 ← getLocation inst.src2
  emitFrom buf fun o =>
    let (load, rightReg) := loadBinaryOperands .rax .rcx src1 src2
    o |> load
      |> emitImulR64 .rax rightReg
      |> storeRegToLocation dest .rax

/-- `encode_div`. -/
def encodeDiv (buf : Ptr) (inst : IRInstruction) : JitM Nat := do
  let dest ← getLocation inst.dest
  let src1 ← getLocation inst.src1
  let src2 ← getLocation inst.src2
  emitFrom buf fun o =>
    let o := o |> loadLocationToReg .rax src1 |> emitU8 REX_W |> emitU8 OP_CQO
    let (o, divisor) :=
      match src2 with
      | .reg reg => (o, reg)
      | _ => (loadLocationToReg .rcx src2 o, .rcx)
    let rex := if 8 ≤ divisor.code then REX_W ||| 0x01 else REX_W
    o |> emitU8 rex
      |> emitU8 OP_IDIV
      |> emitU8 (MOD_REG ||| (EXT_IDIV <<< 3) ||| low3 divisor)
      |> storeRegToLocation dest .rax

/-- `encode_neg`. -/
def encodeNeg (buf : Ptr) (inst : IRInstruction) : JitM Nat := do
  let dest ← getLocation inst.dest
  let src ← getLocation inst.src1
  emitFrom buf fun o =>
    o |> loadLocationToReg .rax src
      |> emitU8 REX_W
      |> emitU8 OP_IDIV
      |> emitU8 (MOD_REG ||| (EXT_NEG <<< 3) ||| Reg.rax.code)
      |> storeRegToLocation dest .rax

/-- `encode_and`. -/
def encodeAnd (buf : Ptr) (inst : IRInstruction) : JitM Nat :=
  emitStandardBinaryOp buf inst ALU_AND

/-- `encode_or`. -/
def encodeOr (buf : Ptr) (inst : IRInstruction) : JitM Nat :=
  emitStandardBinaryOp buf inst ALU_OR

/-- `encode_xor`. -/
def encodeXor (buf : Ptr) (inst : IRInstruction) : JitM Nat :=
  emitStandardBinaryOp buf inst ALU_XOR

/-- `encode_not_bitwise`. -/
def encodeNotBitwise (buf : Ptr) (inst : IRInstruction) : JitM Nat := do
  let dest ← getLocation inst.dest
  let src ← getLocation inst.src1
  emitFrom buf fun o =>
    o |> loadLocationToReg .rax src
      |> emitU8 REX_W
      |> emitU8 OP_GRP3
      |> emitU8 (MOD_REG ||| (EXT_NOT <<< 3) ||| Reg.rax.code)
      |> storeRegToLocation dest .rax

/-- `encode_not`. -/
def encodeNot (buf : Ptr) (inst : IRInstruction) : JitM Nat := do
  let dest ← getLocation inst.dest
  let src ← getLocation inst.src1
  emitFrom buf fun o =>
    o |> loadLocationToReg .rax src
      |> emitU8 REX_W
      |> emitU8 ALU_IMM8
      |> emitU8 (MOD_REG ||| (EXT_CMP <<< 3) ||| Reg.rax.code)
      |> emitU8 0x00
      |> emitSetcc .e .rax
      |> emitMovzx .rax .rax
      |> storeRegToLocation dest .rax

/-- `encode_arg`; `arg_vregs` has `MAX_PARAMS_PER_FUNCTION` elements. -/
def encodeArg (inst : IRInstruction) : JitM Nat := do
  let s ← get
  if s.ctx.pendingCall.length ≥ maxParamsPerFunction then failure
  set { s with ctx := { s.ctx with pendingCall := s.ctx.pendingCall ++ [inst.src1] } }
  return 0

/-- The first loop of `encode_call`: push the stack arguments, the last one first. -/
def pushStackArgs : List Nat → Out → JitM Out
  | [], o => return o
  | vreg :: rest, o => do
      let loc ← getLocation vreg
      pushStackArgs rest (o |> loadLocationToReg .rax loc |> emitPush .rax)

/-- The second loop of `encode_call`: push the register arguments, the last one
first. -/
def pushRegArgs : List Nat → Out → JitM Out
  | [], o => return o
  | vreg :: rest, o => do
      let loc ← getLocation vreg
      match loc with
      | .reg reg => pushRegArgs rest (emitPush reg o)
      | _ => pushRegArgs rest (o |> loadLocationToReg .rax loc |> emitPush .rax)

/-- The third loop of `encode_call`: pop into the registers of the convention. -/
def popRegArgs : List Reg → Emitter
  | [], o => o
  | reg :: rest, o => popRegArgs rest (emitPop reg o)

/-- `op rsp, imm32` as `encode_call` and `encode_prologue` write it. -/
def emitRspImm (extension : Byte) (imm : BitVec 32) : Emitter := fun o =>
  o |> emitU8 REX_W
    |> emitU8 ALU_IMM
    |> emitU8 (MOD_REG ||| (extension <<< 3) ||| Reg.rsp.code)
    |> emitU32 imm

/-- Record a call site while there is room. -/
def recordCallSite (buf patchLocation : Ptr) (name : StringView) : JitM Unit := do
  if buf ≠ 0 then
    let s ← get
    if s.ctx.callSites.length < s.ctx.callSiteCapacity then
      let site : CallSite := ⟨patchLocation, name⟩
      set { s with ctx := { s.ctx with callSites := s.ctx.callSites ++ [site] } }

/-- The placeholder of a call target. -/
def callPlaceholder : Word := 0xDEADBEEFDEADBEEF

/-- `encode_call`. -/
def encodeCall (buf : Ptr) (inst : IRInstruction) : JitM Nat := do
  let dest ← getLocation inst.dest
  let s ← get
  let pc := s.ctx.pendingCall
  let stackArgs := if pc.length > sysVMaxRegArgs then pc.length - sysVMaxRegArgs else 0
  let regArgs := if pc.length > sysVMaxRegArgs then sysVMaxRegArgs else pc.length
  let needsAlignment := stackArgs % 2 != 0
  let o : Out := ⟨buf, 0, s.mem⟩
  let o := if needsAlignment then emitRspImm EXT_SUB (BitVec.ofNat 32 (stackAlignment / 2)) o else o
  let o ← pushStackArgs (pc.drop 6).reverse o
  let o ← pushRegArgs (pc.take regArgs).reverse o
  let o := popRegArgs (argRegisters.take regArgs) o
  let o := o |> emitU8 REX_W |> emitU8 (MOV_IMM_R + Reg.rax.code)
  recordCallSite buf o.curr inst.funcName
  let o := o |> emitU64 callPlaceholder
    |> emitU8 OP_CALL_IND
    |> emitU8 (MOD_REG ||| (EXT_CALL <<< 3) ||| Reg.rax.code)
  let cleanup := stackArgs * (stackAlignment / 2) +
    (if needsAlignment then stackAlignment / 2 else 0)
  let o :=
    if stackArgs > 0 || needsAlignment then emitRspImm EXT_ADD (BitVec.ofNat 32 cleanup) o else o
  let o := storeRegToLocation dest .rax o
  modify fun s => { ctx := { s.ctx with pendingCall := [] }, mem := o.mem }
  return o.size

/-- `encode_ret`. -/
def encodeRet (buf : Ptr) (inst : IRInstruction) : JitM Nat := do
  let src ← getLocation inst.src1
  emitFrom buf fun o =>
    o |> loadLocationToReg .rax src
      |> emitU8 REX_W
      |> emitU8 OP_LEA
      |> emitU8 (MOD_MEM_DISP8 ||| (Reg.rsp.code <<< 3) ||| Reg.rbp.code)
      |> emitU8 (-(BitVec.ofNat 8 calleeSavedSize))
      |> emitPop .r15
      |> emitPop .r14
      |> emitPop .r13
      |> emitPop .r12
      |> emitPop .rbx
      |> emitPop .rbp
      |> emitU8 OP_RET

/-- `encode_store`. -/
def encodeStore (buf : Ptr) (inst : IRInstruction) : JitM Nat := do
  let src ← getLocation inst.src1
  let offset := getLocalOffset inst.dest
  let dataSize := typeSize inst.type
  emitFrom buf fun o =>
    match src with
    | .reg reg => emitStoreSized reg .rbp offset dataSize o
    | _ => o |> loadLocationToReg .rax src |> emitStoreSized .rax .rbp offset dataSize

/-- `encode_load`. -/
def encodeLoad (buf : Ptr) (inst : IRInstruction) : JitM Nat := do
  let dest ← getLocation inst.dest
  let offset := getLocalOffset inst.src1
  let dataSize := typeSize inst.type
  emitFrom buf fun o =>
    match dest with
    | .reg reg => emitLoadSignext reg .rbp offset dataSize o
    | _ => o |> emitLoadSignext .rax .rbp offset dataSize |> storeRegToLocation dest .rax

/-- `encode_lshift`. -/
def encodeLshift (buf : Ptr) (inst : IRInstruction) : JitM Nat := emitShiftOp buf inst EXT_SHL

/-- `encode_rshift`. -/
def encodeRshift (buf : Ptr) (inst : IRInstruction) : JitM Nat := emitShiftOp buf inst EXT_SAR

/-- `encode_urshift`. -/
def encodeUrshift (buf : Ptr) (inst : IRInstruction) : JitM Nat := emitShiftOp buf inst EXT_SHR

/-- `encode_inst`: the table that `ir_ops.def` expands to. -/
def encodeInst (buf : Ptr) (inst : IRInstruction) : JitM Nat :=
  match inst.opcode with
  | .add => encodeAdd buf inst
  | .sub => encodeSub buf inst
  | .mul => encodeMul buf inst
  | .div => encodeDiv buf inst
  | .eq => encodeCmp buf inst
  | .neq => encodeCmp buf inst
  | .lt => encodeCmp buf inst
  | .le => encodeCmp buf inst
  | .gt => encodeCmp buf inst
  | .ge => encodeCmp buf inst
  | .lshift => encodeLshift buf inst
  | .rshift => encodeRshift buf inst
  | .urshift => encodeUrshift buf inst
  | .band => encodeAnd buf inst
  | .bor => encodeOr buf inst
  | .bxor => encodeXor buf inst
  | .bnot => encodeNotBitwise buf inst
  | .neg => encodeNeg buf inst
  | .not => encodeNot buf inst
  | .mov => encodeMov buf inst
  | .load => encodeLoad buf inst
  | .store => encodeStore buf inst
  | .const => encodeConst buf inst
  | .arg => encodeArg inst
  | .label => encodeLabel buf inst
  | .jmp => encodeJmp buf inst
  | .jz => encodeBranch buf inst
  | .jnz => encodeBranch buf inst
  | .call => encodeCall buf inst
  | .ret => encodeRet buf inst

end TinyCompile.Jit
