import TinyCompile.Ir.Instr
import TinyCompile.Jit.Emit

set_option autoImplicit false

/-!
# Jit: locations and the context

The structures of `incs/jit.h`, `get_location` of `srcs/jit/jit.c` and the
location helpers of `srcs/jit/helpers.c`.

The JIT runs on the context and on memory.  It stops where the source accesses
an array behind its end.
-/

namespace TinyCompile.Jit

open TinyCompile.Machine TinyCompile.X86 TinyCompile.Source TinyCompile.Ir

/-! ## `incs/defines.h` -/

/-- `MAX_LABELS`. -/
def maxLabels : Nat := 512

/-- `MAX_CALL_SITES`. -/
def maxCallSites : Nat := 1024

/-- `MAX_FUNCTION_COUNT`. -/
def maxFunctionCount : Nat := 256

/-- `SYS_V_MAX_REG_ARGS`. -/
def sysVMaxRegArgs : Nat := 6

/-- `WORD_SIZE`. -/
def wordSize : Nat := 8

/-- `STACK_ALIGNMENT`. -/
def stackAlignment : Nat := 16

/-- `CALLEE_SAVED_COUNT`. -/
def calleeSavedCount : Nat := 5

/-- `CALLEE_SAVED_SIZE`. -/
def calleeSavedSize : Nat := calleeSavedCount * 8

/-! ## Structures -/

/-- `Location`; `LOC_NONE` is 0. -/
inductive Location where
  | none
  | reg (reg : Reg)
  | stack (offset : BitVec 32)
  | const (imm : Word)
  deriving DecidableEq, Repr

/-- `Patch`; the link is the list. -/
structure Patch where
  labelId : Nat
  loc : Ptr
  deriving DecidableEq, Repr

/-- `CompiledFunction`. -/
structure CompiledFunction where
  name : StringView
  codeAddr : Ptr
  codeSize : Nat
  deriving DecidableEq, Repr

/-- `CallSite`. -/
structure CallSite where
  patchLocation : Ptr
  targetName : StringView
  deriving DecidableEq, Repr

/-- `JITContext`, less the arenas.  The counts of the registry, of the call sites
and of the pending arguments are the lengths of the lists. -/
structure JITContext where
  registry : List CompiledFunction
  callSites : List CallSite
  callSiteCapacity : Nat
  pendingCall : List Nat
  labelOffset : Nat → Ptr
  labelDefined : Nat → Bool
  patches : List Patch
  vregMap : Nat → Location
  physRegs : Reg → Bool
  stackBase : Nat

/-- `jit_ctx_init`; what it does not set is zero or set before it is used. -/
def jitCtxInit : JITContext where
  registry := []
  callSites := []
  callSiteCapacity := maxCallSites
  pendingCall := []
  labelOffset := fun _ => 0
  labelDefined := fun _ => false
  patches := []
  vregMap := fun _ => .none
  physRegs := fun _ => false
  stackBase := 0

/-- The context and the memory the JIT writes. -/
structure JITState where
  ctx : JITContext
  mem : Mem

/-- The JIT's computations; `none` is an access behind the end of an array. -/
abbrev JitM := StateT JITState Option

/-! ## The register allocator -/

/-- `arg_registers`: the six of the calling convention come first. -/
def argRegisters : List Reg := [.rdi, .rsi, .rdx, .rcx, .r8, .r9, .r12, .r13, .r14, .r15]

/-- The registers in the order of their numbers. -/
def allRegisters : List Reg :=
  [.rax, .rcx, .rdx, .rbx, .rsp, .rbp, .rsi, .rdi,
    .r8, .r9, .r10, .r11, .r12, .r13, .r14, .r15]

/-- `is_allocatable_register`. -/
def isAllocatableRegister (reg : Reg) : Bool :=
  reg == .rbx || (Reg.r12.code ≤ reg.code && reg.code ≤ Reg.r15.code)

/-- The stack slot of a spilled register; the arithmetic is that of `int32_t`. -/
def spillOffset (stackBase vreg : Nat) : BitVec 32 :=
  -(BitVec.ofNat 32 (calleeSavedSize + stackAlignment / 2) +
    (BitVec.ofNat 32 (stackBase + vreg) + 1) * BitVec.ofNat 32 (stackAlignment / 2))

/-- `get_location` on the fields it uses: the location and the new fields. -/
def allocate (stackBase : Nat) (vregMap : Nat → Location) (physRegs : Reg → Bool)
    (vreg : Nat) : Location × (Nat → Location) × (Reg → Bool) :=
  if vregMap vreg ≠ .none then (vregMap vreg, vregMap, physRegs)
  else
    match allRegisters.find? fun i => isAllocatableRegister i && !physRegs i with
    | some i =>
        (.reg i, Function.update vregMap vreg (.reg i), Function.update physRegs i true)
    | none =>
        (.stack (spillOffset stackBase vreg),
          Function.update vregMap vreg (.stack (spillOffset stackBase vreg)), physRegs)

/-- `get_location`; `vreg_map` has `MAX_VREGS_PER_FUNCTION` elements. -/
def getLocation (vreg : Nat) : JitM Location := do
  if vreg ≥ maxVregsPerFunction then failure
  let s ← get
  let (loc, vregMap, physRegs) := allocate s.ctx.stackBase s.ctx.vregMap s.ctx.physRegs vreg
  set { s with ctx := { s.ctx with vregMap := vregMap, physRegs := physRegs } }
  return loc

/-! ## `srcs/jit/helpers.c` -/

/-- `load_location_to_reg`. -/
def loadLocationToReg (dst : Reg) (loc : Location) : Emitter :=
  match loc with
  | .reg reg => if reg ≠ dst then emitMovRegReg dst reg else id
  | .stack offset => emitLoadParam dst offset
  | .const imm => emitMovImm dst imm
  | .none => id

/-- `store_reg_to_location`. -/
def storeRegToLocation (loc : Location) (src : Reg) : Emitter :=
  match loc with
  | .reg reg => if reg ≠ src then emitMovRegReg reg src else id
  | .stack offset => emitStoreLocal src offset
  | .const _ => id
  | .none => id

/-- `load_binary_operands`: the emitter and `*out_right_reg`. -/
def loadBinaryOperands (dst tmp : Reg) (left right : Location) : Emitter × Reg :=
  match right with
  | .reg reg => (loadLocationToReg dst left, reg)
  | _ => (fun o => o |> loadLocationToReg dst left |> loadLocationToReg tmp right, tmp)

/-- Run an emitter from the start of the encoder's buffer and return the count. -/
def emitFrom (buf : Ptr) (e : Emitter) : JitM Nat := do
  let s ← get
  let o := e ⟨buf, 0, s.mem⟩
  set { s with mem := o.mem }
  return o.size

/-- `emit_standard_binary_op`. -/
def emitStandardBinaryOp (buf : Ptr) (inst : IRInstruction) (opcode : Byte) : JitM Nat := do
  let dest ← getLocation inst.dest
  let src1 ← getLocation inst.src1
  let src2 ← getLocation inst.src2
  emitFrom buf fun o =>
    let (load, rightReg) := loadBinaryOperands .rax .rdx src1 src2
    o |> load
      |> emitAlu opcode .rax rightReg
      |> storeRegToLocation dest .rax

/-- `emit_comparison_op`. -/
def emitComparisonOp (buf : Ptr) (inst : IRInstruction) (condition : Cond) : JitM Nat := do
  let dest ← getLocation inst.dest
  let src1 ← getLocation inst.src1
  let src2 ← getLocation inst.src2
  emitFrom buf fun o =>
    let (load, rightReg) := loadBinaryOperands .rax .rcx src1 src2
    o |> load
      |> emitCmp .rax rightReg
      |> emitSetcc condition .rax
      |> emitMovzx .rax .rax
      |> storeRegToLocation dest .rax

/-- `emit_shift_op`. -/
def emitShiftOp (buf : Ptr) (inst : IRInstruction) (extension : Byte) : JitM Nat := do
  let dest ← getLocation inst.dest
  let src1 ← getLocation inst.src1
  let src2 ← getLocation inst.src2
  emitFrom buf fun o =>
    o |> loadLocationToReg .rax src1
      |> loadLocationToReg .rcx src2
      |> emitU8 REX_W
      |> emitU8 OP_SHIFT_CL
      |> emitU8 (MOD_REG ||| (extension <<< 3) ||| Reg.rax.code)
      |> storeRegToLocation dest .rax

end TinyCompile.Jit
