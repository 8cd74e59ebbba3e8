import TinyCompile.Jit.Encoders

set_option autoImplicit false

/-!
# Jit: compiling and linking

The main logic of `srcs/jit/jit.c`.  The buffer that `arena_alloc_aligned` returns
for a function is a parameter.
-/

namespace TinyCompile.Jit

open TinyCompile.Machine TinyCompile.X86 TinyCompile.Source TinyCompile.Ir

/-! ## The prologue -/

/-- The parameter loop of `encode_prologue`, from parameter `i` on. -/
def storeParams : Nat → Nat → Out → JitM Out
  | 0, _, o => return o
  | n + 1, i, o => do
      let loc ← getLocation (i + 1)
      if i < 6 then
        let srcReg := argRegisters.getD i .rax
        match loc with
        | .reg reg =>
            storeParams n (i + 1) (if reg ≠ srcReg then emitMovRegReg reg srcReg o else o)
        | .stack offset => storeParams n (i + 1) (emitStoreLocal srcReg offset o)
        | _ => storeParams n (i + 1) o
      else
        let srcOffset := BitVec.ofNat 32 (2 * wordSize + (i - 6) * wordSize)
        match loc with
        | .reg reg => storeParams n (i + 1) (emitLoadParam reg srcOffset o)
        | .stack offset =>
            storeParams n (i + 1)
              (o |> emitLoadParam .rax srcOffset |> emitStoreLocal .rax offset)
        | _ => storeParams n (i + 1) (o |> emitLoadParam .rax srcOffset |> emitStoreLocal .rax 0)

/-- `encode_prologue`. -/
def encodePrologue (buf : Ptr) (stackSize paramCount : Nat) : JitM Nat := do
  let s ← get
  let o : Out := ⟨buf, 0, s.mem⟩
  let o := o |> emitPush .rbp
    |> emitMovRegReg .rbp .rsp
    |> emitPush .rbx
    |> emitPush .r12
    |> emitPush .r13
    |> emitPush .r14
    |> emitPush .r15
  let o := if stackSize > 0 then emitRspImm EXT_SUB (BitVec.ofNat 32 stackSize) o else o
  let o ← storeParams paramCount 0 o
  modify fun s => { s with mem := o.mem }
  return o.size

/-- `reset_state`. -/
def resetState : JitM Unit :=
  modify fun s => { s with ctx := { s.ctx with
    pendingCall := []
    patches := []
    labelOffset := fun _ => 0
    labelDefined := fun _ => false
    vregMap := fun _ => .none
    physRegs := fun _ => false } }

/-- `calculate_aligned_stack_size`. -/
def calculateAlignedStackSize (f : IRFunction) : Nat :=
  let rawLocalsSize := (f.stackCount + f.vregCount) * wordSize
  let bytesPushed := wordSize * 2 + calleeSavedCount * wordSize
  let totalUsage := bytesPushed + rawLocalsSize
  let remainder := totalUsage % stackAlignment
  let padding := if remainder = 0 then 0 else stackAlignment - remainder
  rawLocalsSize + padding

/-! ## Compiling a function -/

/-- `JITResult`. -/
structure JITResult where
  code : Ptr
  size : Nat
  deriving DecidableEq, Repr

/-- How `jit_compile_function` ends: it returns, or it aborts the process. -/
inductive Outcome where
  | returned (result : JITResult)
  | aborted
  deriving DecidableEq, Repr

/-- The inner loop of the first pass: the predicted size and the count. -/
def sizeInsts : List IRInstruction → Nat × Nat → JitM (Nat × Nat)
  | [], acc => return acc
  | inst :: rest, (predictedSize, instructionCount) => do
      let size ← encodeInst 0 inst
      sizeInsts rest (predictedSize + size, instructionCount + 1)

/-- The first pass over the chunks. -/
def sizeChunks : List IRChunk → Nat × Nat → JitM (Nat × Nat)
  | [], acc => return acc
  | chunk :: rest, acc => do
      let acc ← sizeInsts chunk.instructions acc
      sizeChunks rest acc

/-- The inner loop of the second pass: the write pointer, `none` where the process
aborts for an overrun. -/
def writeInsts (code : Ptr) (predictedSize : Nat) :
    List IRInstruction → Ptr → JitM (Option Ptr)
  | [], writePtr => return some writePtr
  | inst :: rest, writePtr => do
      let instSize ← encodeInst writePtr inst
      let writePtr := writePtr + BitVec.ofNat 64 instSize
      let written := (writePtr - code).toNat
      if written > predictedSize then return none
      writeInsts code predictedSize rest writePtr

/-- The second pass over the chunks. -/
def writeChunks (code : Ptr) (predictedSize : Nat) : List IRChunk → Ptr → JitM (Option Ptr)
  | [], writePtr => return some writePtr
  | chunk :: rest, writePtr => do
      let some writePtr ← writeInsts code predictedSize chunk.instructions writePtr
        | return none
      writeChunks code predictedSize rest writePtr

/-- `jit_compile_function` for a function with the given name and number of
parameters; `code` is what the executable arena returns. -/
def jitCompileFunction (irFunc : IRFunction) (funcName : StringView) (paramCount : Nat)
    (code : Ptr) : JitM Outcome := do
  resetState
  if irFunc.labelCount ≥ maxLabels then return .returned ⟨0, 0⟩
  modify fun s => { s with ctx := { s.ctx with stackBase := irFunc.stackCount } }
  let stackBytes := calculateAlignedStackSize irFunc
  -- pass 1
  let prologue ← encodePrologue 0 stackBytes paramCount
  let (predictedSize, instructionCount) ← sizeChunks irFunc.chunks (prologue, 0)
  if instructionCount ≠ irFunc.totalCount then return .aborted
  -- pass 2
  resetState
  let prologueSize ← encodePrologue code stackBytes paramCount
  let some writePtr ←
      writeChunks code predictedSize irFunc.chunks (code + BitVec.ofNat 64 prologueSize)
    | return .aborted
  let actualSize := (writePtr - code).toNat
  if actualSize ≠ predictedSize then return .aborted
  let s ← get
  if s.ctx.registry.length ≥ maxFunctionCount then return .returned ⟨0, 0⟩
  let fn : CompiledFunction := ⟨funcName, code, actualSize⟩
  set { s with ctx := { s.ctx with registry := s.ctx.registry ++ [fn] } }
  return .returned ⟨code, actualSize⟩

/-! ## Linking -/

/-- The name search of `jit_link_all`; null when there is no such function. -/
def findTarget (registry : List CompiledFunction) (name : StringView) : Ptr :=
  match registry.find? fun fn => svEq name fn.name with
  | some fn => fn.codeAddr
  | none => 0

/-- The loop of `jit_link_all`. -/
def linkSites (registry : List CompiledFunction) :
    List CallSite → Bool × Mem × ErrorContext → Bool × Mem × ErrorContext
  | [], acc => acc
  | site :: rest, (success, mem, errors) =>
      let targetAddr := findTarget registry site.targetName
      if targetAddr = 0 then
        linkSites registry rest (false, mem,
          errorAdd errors .codegen .error none 0 0
            ("undefined reference to function '" ++ svText site.targetName ++ "'"))
      else
        linkSites registry rest
          (success, writeBytes mem site.patchLocation (leBytes 8 targetAddr.toNat), errors)

/-- `jit_link_all`: whether it succeeds, the memory and the errors. -/
def jitLinkAll (s : JITState) (errors : ErrorContext) : Bool × Mem × ErrorContext :=
  linkSites s.ctx.registry s.ctx.callSites (true, s.mem, errors)

end TinyCompile.Jit
