import TinyCompile.Jit.Items

set_option autoImplicit false

/-!
# Jit: the plan of an instruction

`touched` lists the virtual registers an encoder asks the allocator for, in order;
`itemsOf` is the code for given locations.  Both passes follow the same plan.
-/

namespace TinyCompile.Jit

open TinyCompile.Machine TinyCompile.X86 TinyCompile.Source TinyCompile.Ir

/-! ## Straight-line code -/

/-- The code of `load_location_to_reg`. -/
def loadCode (dst : Reg) : Location → List Encoded
  | .reg reg => if reg ≠ dst then [movRegReg dst reg] else []
  | .stack offset => [loadParam dst offset]
  | .const imm => [movImm dst imm]
  | .none => []

/-- The code of `store_reg_to_location`. -/
def storeCode (src : Reg) : Location → List Encoded
  | .reg reg => if reg ≠ src then [movRegReg reg src] else []
  | .stack offset => [storeLocal src offset]
  | .const _ => []
  | .none => []

/-- The right operand of a binary operation: the code that loads it and its
register. -/
def rightCode (tmp : Reg) : Location → List Encoded × Reg
  | .reg reg => ([], reg)
  | l => (loadCode tmp l, tmp)

/-- A binary operation on `rax`. -/
def binaryCode (tmp : Reg) (op : Reg → List Encoded) (dest left right : Location) :
    List Encoded :=
  loadCode .rax left ++ (rightCode tmp right).1 ++ op (rightCode tmp right).2 ++
    storeCode .rax dest

/-- A unary operation on `rax`. -/
def unaryCode (op : List Encoded) (dest src : Location) : List Encoded :=
  loadCode .rax src ++ op ++ storeCode .rax dest

/-- The comparison with its 0 or 1. -/
def compareOps (c : Cond) (right : Reg) : List Encoded :=
  [aluRegReg .cmp .rax right, setcc c .rax, movzxRegReg .rax .rax]

/-- A shift loads its count into `rcx` whatever its location. -/
def shiftCode (op : ShiftOp) (dest left right : Location) : List Encoded :=
  loadCode .rax left ++ loadCode .rcx right ++ [shiftRax op] ++ storeCode .rax dest

/-- A division sign-extends the dividend before it loads the divisor. -/
def divCode (dest left right : Location) : List Encoded :=
  loadCode .rax left ++ [cqo] ++ (rightCode .rcx right).1 ++ [idiv (rightCode .rcx right).2] ++
    storeCode .rax dest

/-- A move between two locations; nothing within one register. -/
def movCode (dest src : Location) : List Encoded :=
  match dest, src with
  | .reg r, .reg r' => if r = r' then [] else unaryCode [] dest src
  | _, _ => unaryCode [] dest src

/-- A store into a local. -/
def storeLocalCode (src : Location) (offset : BitVec 32) (dataSize : Nat) : List Encoded :=
  match src with
  | .reg reg => [storeSized reg offset dataSize]
  | l => loadCode .rax l ++ [storeSized .rax offset dataSize]

/-- A load from a local. -/
def loadLocalCode (dest : Location) (offset : BitVec 32) (dataSize : Nat) : List Encoded :=
  match dest with
  | .reg reg => [loadSignext reg offset dataSize]
  | l => loadSignext .rax offset dataSize :: storeCode .rax l

/-- The test before a conditional jump. -/
def testCode : Location → List Encoded
  | .reg reg => [testRegReg reg reg]
  | l => loadCode .rax l ++ [cmpRaxZero]

/-- A return: the value, the saved registers, `ret`. -/
def epilogueCode : List Encoded :=
  [leaRspSaved, pop .r15, pop .r14, pop .r13, pop .r12, pop .rbx, pop .rbp, ret]

/-- The code of the opcodes that need no address. -/
def straightCode (loc : Nat → Location) (inst : IRInstruction) : List Encoded :=
  let dest := loc inst.dest
  let left := loc inst.src1
  let right := loc inst.src2
  match inst.opcode with
  | .add => binaryCode .rdx (fun r => [aluRegReg .add .rax r]) dest left right
  | .sub => binaryCode .rdx (fun r => [aluRegReg .sub .rax r]) dest left right
  | .band => binaryCode .rdx (fun r => [aluRegReg .and .rax r]) dest left right
  | .bor => binaryCode .rdx (fun r => [aluRegReg .or .rax r]) dest left right
  | .bxor => binaryCode .rdx (fun r => [aluRegReg .xor .rax r]) dest left right
  | .mul => binaryCode .rcx (fun r => [imulRegReg .rax r]) dest left right
  | .div => divCode dest left right
  | .eq | .neq | .lt | .le | .gt | .ge =>
      binaryCode .rcx (compareOps (cmpCondition inst.opcode)) dest left right
  | .lshift => shiftCode .shl dest left right
  | .rshift => shiftCode .sar dest left right
  | .urshift => shiftCode .shr dest left right
  | .bnot => unaryCode [notRax] dest left
  | .neg => unaryCode [negRax] dest left
  | .not => unaryCode [cmpRaxZero, setcc .e .rax, movzxRegReg .rax .rax] dest left
  | .mov => movCode dest left
  | .load => loadLocalCode dest (getLocalOffset inst.src1) (typeSize inst.type)
  | .store => storeLocalCode left (getLocalOffset inst.dest) (typeSize inst.type)
  | .const => movImm .rax inst.imm :: storeCode .rax dest
  | .ret => loadCode .rax left ++ epilogueCode
  | .arg | .label | .jmp | .jz | .jnz | .call => []

/-! ## Calls -/

/-- The arguments of a call in registers, and those on the stack. -/
def stackArgCount (pending : List Nat) : Nat := pending.length - sysVMaxRegArgs

/-- The push of an argument that goes onto the stack. -/
def pushStackArg (l : Location) : List Encoded := loadCode .rax l ++ [push .rax]

/-- The push of an argument on its way to a register. -/
def pushRegArg : Location → List Encoded
  | .reg reg => [push reg]
  | l => loadCode .rax l ++ [push .rax]

/-- The alignment pad of a call. -/
def padCode (pending : List Nat) : List Encoded :=
  if stackArgCount pending % 2 ≠ 0 then [subRsp 8] else []

/-- The bytes a call takes off the stack again. -/
def cleanupSize (pending : List Nat) : Nat :=
  8 * (stackArgCount pending + stackArgCount pending % 2)

/-- What a call executes before `mov rax, imm64`. -/
def argumentCode (loc : Nat → Location) (pending : List Nat) : List Encoded :=
  padCode pending ++ (pending.drop 6).reverse.flatMap (fun v => pushStackArg (loc v)) ++
    (pending.take 6).reverse.flatMap (fun v => pushRegArg (loc v)) ++
    (argRegisters.take (pending.take 6).length).map pop

/-- What a call executes after the callee returns. -/
def cleanupCode (pending : List Nat) (dest : Location) : List Encoded :=
  (if stackArgCount pending > 0 then [addRsp (BitVec.ofNat 32 (cleanupSize pending))] else []) ++
    storeCode .rax dest

/-! ## The plan -/

/-- The code of an instruction. -/
def itemsOf (loc : Nat → Location) (pending : List Nat) (inst : IRInstruction) : List Item :=
  match inst.opcode with
  | .arg => []
  | .label => [.label inst.labelId]
  | .jmp => [.jump none inst.labelId]
  | .jz => (testCode (loc inst.src1)).map .code ++ [.jump (some .e) inst.labelId]
  | .jnz => (testCode (loc inst.src1)).map .code ++ [.jump (some .ne) inst.labelId]
  | .call =>
      (argumentCode loc pending).map .code ++ .callSite inst.funcName ::
        (callRax :: cleanupCode pending (loc inst.dest)).map .code
  | _ => (straightCode loc inst).map .code

/-- The virtual registers the encoder asks for. -/
def touched (pending : List Nat) (inst : IRInstruction) : List Nat :=
  match inst.opcode with
  | .arg | .label | .jmp => []
  | .jz | .jnz | .ret | .store => [inst.src1]
  | .load | .const => [inst.dest]
  | .bnot | .neg | .not | .mov => [inst.dest, inst.src1]
  | .call => inst.dest :: ((pending.drop 6).reverse ++ (pending.take 6).reverse)
  | _ => [inst.dest, inst.src1, inst.src2]

/-- The pending arguments after an instruction. -/
def pendingAfter (pending : List Nat) (inst : IRInstruction) : List Nat :=
  match inst.opcode with
  | .arg => pending ++ [inst.src1]
  | .call => []
  | _ => pending

end TinyCompile.Jit
