import TinyCompile.Source.Ast
import TinyCompile.Source.Errors

set_option autoImplicit false

/-!
# Ir: instructions and functions

`incs/ir.h`, `incs/ir_ops.def`, and `emit` and `ir_alloc_vreg`.
-/

namespace TinyCompile.Ir

open TinyCompile.Source

/-- `IR_CHUNK_SIZE`. -/
def irChunkSize : Nat := 64

/-- `MAX_VREGS_PER_FUNCTION`. -/
def maxVregsPerFunction : Nat := 65536

/-- `MAX_IR_INSTRUCTIONS_PER_FUNCTION`. -/
def maxIrInstructionsPerFunction : Nat := 65536

/-- `IROpcode`, in the order of `ir_ops.def`. -/
inductive IROpcode where
  | add | sub | mul | div
  | eq | neq | lt | le | gt | ge
  | lshift | rshift | urshift
  | band | bor | bxor | bnot
  | neg | not | mov
  | load | store
  | const | arg
  | label | jmp | jz | jnz
  | call | ret
  deriving DecidableEq, Repr

/-- `IRInstruction`.  A member an initializer leaves out is zero. -/
structure IRInstruction where
  opcode : IROpcode
  type : DataType := .void
  dest : Nat := 0
  src1 : Nat := 0
  src2 : Nat := 0
  imm : BitVec 64 := 0
  funcName : StringView := []
  labelId : Nat := 0
  deriving DecidableEq, Repr

/-! ## Chunks -/

/-- `IRChunk`; the link is the list of chunks, `count` is the length. -/
structure IRChunk where
  instructions : List IRInstruction
  /-- A chunk is an array of `IR_CHUNK_SIZE` instructions. -/
  count_le : instructions.length ≤ irChunkSize

/-- `chunk->count`. -/
def IRChunk.count (c : IRChunk) : Nat := c.instructions.length

/-- A fresh chunk holding one instruction. -/
def IRChunk.single (inst : IRInstruction) : IRChunk := ⟨[inst], by simp [irChunkSize]⟩

/-- Store an instruction in the next free place of a chunk. -/
def IRChunk.push (c : IRChunk) (inst : IRInstruction) (h : c.count < irChunkSize) : IRChunk :=
  ⟨c.instructions ++ [inst], by
    simp only [List.length_append, List.length_singleton]
    exact h⟩

/-- Store an instruction in the tail chunk, behind which a new one is linked when
it is full. -/
def pushTail (inst : IRInstruction) : List IRChunk → List IRChunk
  | [] => [IRChunk.single inst]
  | [c] =>
      if h : c.count < irChunkSize then [c.push inst h] else [c, IRChunk.single inst]
  | c :: c' :: cs => c :: pushTail inst (c' :: cs)

/-- The instructions in a list of chunks. -/
def chunkInstructions (cs : List IRChunk) : List IRInstruction := cs.flatMap (·.instructions)

@[simp] theorem chunkInstructions_pushTail (inst : IRInstruction) (cs : List IRChunk) :
    chunkInstructions (pushTail inst cs) = chunkInstructions cs ++ [inst] := by
  induction cs with
  | nil => rfl
  | cons c cs ih =>
    cases cs with
    | nil =>
      simp only [pushTail]
      split <;> simp [chunkInstructions, IRChunk.push, IRChunk.single]
    | cons c' cs =>
      simp only [chunkInstructions, pushTail, List.flatMap_cons, List.append_assoc] at ih ⊢
      rw [ih]

/-! ## Functions -/

/-- `IRFunction`.  `errors` is the content of the shared error context. -/
structure IRFunction where
  chunks : List IRChunk
  totalCount : Nat
  vregCount : Nat
  stackCount : Nat
  labelCount : Nat
  name : StringView
  errors : ErrorContext
  filename : Option String

/-- A function record in arena memory that was never used before, which is zero. -/
def IRFunction.zeroed : IRFunction := ⟨[], 0, 0, 0, 0, [], .init, none⟩

/-- The instructions of a function, in order. -/
def IRFunction.instructions (f : IRFunction) : List IRInstruction := chunkInstructions f.chunks

/-- `error_add` in the code generator. -/
def IRFunction.error (f : IRFunction) (line column : Nat) (message : String) : IRFunction :=
  { f with errors := errorAdd f.errors .codegen .error f.filename line column message }

/-- `emit`: past the limit an instruction is dropped without a report. -/
def emit (f : IRFunction) (inst : IRInstruction) : IRFunction :=
  if f.totalCount ≥ maxIrInstructionsPerFunction then f
  else { f with chunks := pushTail inst f.chunks, totalCount := f.totalCount + 1 }

/-- The text of the virtual register limit. -/
def vregLimitMessage (name : StringView) : String :=
  "function '" ++ svText name ++ "' exceeds virtual register limit (" ++
    toString maxVregsPerFunction ++ ")"

/-- `ir_alloc_vreg`. -/
def irAllocVreg (f : IRFunction) : Option Nat × IRFunction :=
  if f.vregCount ≥ maxVregsPerFunction then (none, f.error 0 0 (vregLimitMessage f.name))
  else (some f.vregCount, { f with vregCount := f.vregCount + 1 })

end TinyCompile.Ir
