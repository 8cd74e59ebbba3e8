import TinyCompile.Ir.SymbolTable

set_option autoImplicit false

/-!
# Ir: code generation

`srcs/ir/ir_gen.c`.  The generator runs on the function being built and the
symbol table.  It stops where the source would: at `exit(1)`, at a null pointer
it dereferences, and at a write behind the array of argument registers.

The `history` is not in the source.  It records every place where a `gen_*`
function gives up, and which symbol each variable occurrence was resolved to.

`last_reg` is left out: `ir_gen` passes it down and never reads it.
-/

namespace TinyCompile.Ir

open TinyCompile.Source

/-- How the process can end inside the generator. -/
inductive Stop where
  | symbolTableOverflow
  | nullDereference
  | argumentOverflow
  deriving DecidableEq, Repr

/-- Why a `gen_*` function gives up without generating code. -/
inductive Drop where
  | missingNode
  | undefinedVariable (info : NodeInfo) (name : StringView)
  | undefinedTarget (info : NodeInfo) (name : StringView)
  | statementInExpression (info : NodeInfo)
  | vregLimit
  | returnWithoutExpression
  deriving DecidableEq, Repr

/-- What the history records. -/
inductive Event where
  | drop (reason : Drop)
  /-- The declaration node at address `node` got the stack slot `index`. -/
  | declared (node : Nat) (type : DataType) (index : Nat)
  /-- The occurrence at address `node` was resolved to `binding`. -/
  | resolved (node : Nat) (binding : SymbolTable.Binding)
  deriving DecidableEq, Repr

/-- The state of the generator. -/
structure GenState where
  f : IRFunction
  symbolTable : SymbolTable
  history : List Event

/-- The generator's computations. -/
abbrev GenM := StateT GenState (Except Stop)

/-! ## Helpers of the model -/

/-- Record an event. -/
def record (e : Event) : GenM Unit :=
  modify fun s => { s with history := s.history ++ [e] }

/-- `return (0)`, with the reason. -/
def giveUp (reason : Drop) : GenM Nat := do
  record (.drop reason)
  return 0

/-- `emit` on the function being built. -/
def emitInst (inst : IRInstruction) : GenM Unit :=
  modify fun s => { s with f := emit s.f inst }

/-- `error_add` on the function's error context. -/
def reportError (info : NodeInfo) (message : String) : GenM Unit :=
  modify fun s => { s with f := s.f.error info.line info.column message }

/-- `ir_alloc_vreg` on the function being built. -/
def allocVreg : GenM (Option Nat) := do
  let s ← get
  let (reg, f) := irAllocVreg s.f
  set { s with f := f }
  return reg

/-- `f->label_count++`. -/
def newLabel : GenM Nat := do
  let s ← get
  set { s with f := { s.f with labelCount := s.f.labelCount + 1 } }
  return s.f.labelCount

/-- `f->stack_count++`. -/
def newStackSlot : GenM Nat := do
  let s ← get
  set { s with f := { s.f with stackCount := s.f.stackCount + 1 } }
  return s.f.stackCount

/-- `symbol_table_lookup` in the current table. -/
def lookupSymbol (name : StringView) : GenM (Option Nat) :=
  return symbolTableLookup (← get).symbolTable name

/-- `symbol_table_add` in the current table. -/
def addSymbol (name : StringView) (vreg : Nat) : GenM Unit := do
  let s ← get
  match symbolTableAdd s.symbolTable name vreg with
  | some st => set { s with symbolTable := st }
  | none => throw .symbolTableOverflow

/-- `node->value_type`. -/
def valueTypeOf (node : ASTNode) : GenM DataType :=
  match node.valueType? with
  | some type => return type
  | none => throw .nullDereference

/-! ## Expressions -/

/-- `gen_number`. -/
def genNumber (info : NodeInfo) (value : StringView) : GenM Nat := do
  let some reg ← allocVreg | giveUp .vregLimit
  emitInst { opcode := .const, type := info.valueType, dest := reg, imm := svToInt64 value }
  return reg

/-- `gen_identifier`. -/
def genIdentifier (info : NodeInfo) (name : StringView) : GenM Nat := do
  let some sym ← lookupSymbol name
    | do
      reportError info ("undefined variable '" ++ svText name ++ "'")
      giveUp (.undefinedVariable info name)
  let binding := (← get).symbolTable.bindingAt sym
  record (.resolved info.addr binding)
  if binding.isStack then
    let some tempReg ← allocVreg | giveUp .vregLimit
    emitInst { opcode := .load, type := info.valueType, dest := tempReg, src1 := binding.index }
    return tempReg
  else
    return binding.index

/-- The second loop of `gen_call`: the `IR_ARG` instructions. -/
def emitArgs : List (ASTNode × Nat) → Nat → GenM Unit
  | [], _ => return ()
  | (arg, reg) :: rest, i => do
      let type ← valueTypeOf arg
      emitInst { opcode := .arg, type := type, src1 := reg, imm := BitVec.ofNat 64 i }
      emitArgs rest (i + 1)

/-- `gen_call`; `genArgs` is its first loop, `none` where an argument has no
register. -/
def genCall (info : NodeInfo) (functionName : StringView) (args : List ASTNode)
    (genArgs : GenM (Option (List Nat))) : GenM Nat := do
  let some argVregs ← genArgs | return 0
  emitArgs (args.zip argVregs) 0
  let some resultReg ← allocVreg | giveUp .vregLimit
  emitInst
    { opcode := .call, type := info.valueType, dest := resultReg, funcName := functionName }
  return resultReg

/-- The opcode of a unary operator. -/
def unaryOpcode : UnaryOp → IROpcode
  | .negate => .neg
  | .not => .not
  | .bitNot => .bnot

/-- `gen_unary`. -/
def genUnary (op : UnaryOp) (info : NodeInfo) (genOperand : GenM Nat) : GenM Nat := do
  let operand ← genOperand
  if operand = 0 then return 0
  let some dest ← allocVreg | giveUp .vregLimit
  emitInst { opcode := unaryOpcode op, type := info.valueType, dest := dest, src1 := operand }
  return dest

/-- The opcode of a binary operator; a right shift asks for the type of its left
operand. -/
def binaryOpcode (op : BinaryOp) (leftType : DataType) : IROpcode :=
  match op with
  | .add => .add
  | .sub => .sub
  | .mul => .mul
  | .div => .div
  | .equal => .eq
  | .notEqual => .neq
  | .less => .lt
  | .lessEqual => .le
  | .greater => .gt
  | .greaterEqual => .ge
  | .lshift => .lshift
  | .rshift => if typeIsUnsigned leftType then .urshift else .rshift
  | .bitAnd => .band
  | .bitOr => .bor
  | .bitXor => .bxor

/-- `gen_binary_op`. -/
def genBinaryOp (op : BinaryOp) (info : NodeInfo) (leftNode : ASTNode)
    (genLeft genRight : GenM Nat) : GenM Nat := do
  let left ← genLeft
  if left = 0 then return 0
  let right ← genRight
  if right = 0 then return 0
  let some dest ← allocVreg | giveUp .vregLimit
  let leftType ← valueTypeOf leftNode
  emitInst
    { opcode := binaryOpcode op leftType, type := info.valueType, dest := dest,
      src1 := left, src2 := right }
  return dest

/-- What `gen_expression` does with a statement node. -/
def genMisplaced (info : NodeInfo) : GenM Nat := do
  reportError info "statement node in expression context"
  giveUp (.statementInExpression info)

mutual

/-- `gen_expression`. -/
def genExpression : ASTNode → GenM Nat
  | .null => giveUp .missingNode
  | .number info value => genNumber info value
  | .identifier info name => genIdentifier info name
  | .call info functionName args => genCall info functionName args (genArgs args 0)
  | .unary op info operand => genUnary op info (genExpression operand)
  | .binary op info left right =>
      genBinaryOp op info left (genExpression left) (genExpression right)
  | .varDecl info _ _ _ => genMisplaced info
  | .assignment info _ _ => genMisplaced info
  | .returnStmt info _ => genMisplaced info
  | .ifStmt info _ _ _ => genMisplaced info
  | .whileStmt info _ _ => genMisplaced info
  | .block info _ => genMisplaced info
  | .function info _ _ _ _ _ => genMisplaced info
  | .translationUnit info _ => genMisplaced info

/-- The first loop of `gen_call`, from argument `i` on.  `arg_vregs` has
`MAX_PARAMS_PER_FUNCTION` elements. -/
def genArgs : List ASTNode → Nat → GenM (Option (List Nat))
  | [], _ => return some []
  | arg :: rest, i => do
      let reg ← genExpression arg
      if i ≥ maxParamsPerFunction then throw .argumentOverflow
      if reg = 0 then return none
      let some regs ← genArgs rest (i + 1) | return none
      return some (reg :: regs)

end

/-! ## Statements -/

/-- `gen_if`. -/
def genIf (condition elseBranch : ASTNode) (genThen genElse : GenM Unit) : GenM Unit := do
  let condReg ← genExpression condition
  let condType ← valueTypeOf condition
  if elseBranch.isNull then
    let labelEnd ← newLabel
    if condReg = 0 then return ()
    emitInst { opcode := .jz, type := condType, src1 := condReg, labelId := labelEnd }
    genThen
    emitInst { opcode := .label, labelId := labelEnd }
  else
    let labelElse ← newLabel
    let labelEnd ← newLabel
    if condReg = 0 then return ()
    emitInst { opcode := .jz, type := condType, src1 := condReg, labelId := labelElse }
    genThen
    emitInst { opcode := .jmp, labelId := labelEnd }
    emitInst { opcode := .label, labelId := labelElse }
    genElse
    emitInst { opcode := .label, labelId := labelEnd }

/-- `gen_while`. -/
def genWhile (condition : ASTNode) (genBody : GenM Unit) : GenM Unit := do
  let labelStart ← newLabel
  let labelEnd ← newLabel
  let condType ← valueTypeOf condition
  emitInst { opcode := .label, labelId := labelStart }
  let condReg ← genExpression condition
  if condReg = 0 then return ()
  emitInst { opcode := .jz, type := condType, src1 := condReg, labelId := labelEnd }
  genBody
  emitInst { opcode := .jmp, labelId := labelStart }
  emitInst { opcode := .label, labelId := labelEnd }

/-- The initial value of a declared variable: its initializer, or zero. -/
def genInitializer (varType : DataType) (initializer : ASTNode) : GenM Nat := do
  if initializer.isNull then
    let some initReg ← allocVreg | giveUp .vregLimit
    emitInst { opcode := .const, type := varType, dest := initReg, imm := 0 }
    return initReg
  else
    genExpression initializer

/-- `gen_var_decl`. -/
def genVarDecl (info : NodeInfo) (varName : StringView) (varType : DataType)
    (initializer : ASTNode) : GenM Unit := do
  let stackIdx ← newStackSlot
  addSymbol varName stackIdx
  if let some sym ← lookupSymbol varName then
    modify fun s => { s with symbolTable := setIsStack s.symbolTable sym }
  record (.declared info.addr varType stackIdx)
  let initReg ← genInitializer varType initializer
  if initReg = 0 then return ()
  emitInst { opcode := .store, type := varType, dest := stackIdx, src1 := initReg }

/-- `gen_assignment`. -/
def genAssignment (info : NodeInfo) (varName : StringView) (value : ASTNode) : GenM Unit := do
  let some sym ← lookupSymbol varName
    | do
      reportError info ("assignment to undefined variable '" ++ svText varName ++ "'")
      record (.drop (.undefinedTarget info varName))
  record (.resolved info.addr ((← get).symbolTable.bindingAt sym))
  let valReg ← genExpression value
  if valReg = 0 then return ()
  let binding := (← get).symbolTable.bindingAt sym
  emitInst
    { opcode := if binding.isStack then .store else .mov, type := info.valueType,
      dest := binding.index, src1 := valReg }

/-- The register `gen_return` returns; `gen_expression` of a null pointer is zero. -/
def genReturned (expression : ASTNode) : GenM Nat :=
  if expression.isNull then giveUp .returnWithoutExpression else genExpression expression

/-- `gen_return`. -/
def genReturn (info : NodeInfo) (expression : ASTNode) : GenM Unit := do
  let retReg ← genReturned expression
  if retReg = 0 then return ()
  emitInst { opcode := .ret, type := info.valueType, src1 := retReg }

/-- `gen_block`. -/
def genBlock (genStatements : GenM Unit) : GenM Unit := do
  let watermark := (← get).symbolTable.changes.length
  genStatements
  modify fun s => { s with symbolTable := symbolTableRestore s.symbolTable watermark }

mutual

/-- `gen_statement`. -/
def genStatement : ASTNode → GenM Unit
  | .null => return ()
  | .varDecl info varName varType initializer => genVarDecl info varName varType initializer
  | .assignment info varName value => genAssignment info varName value
  | .returnStmt info expression => genReturn info expression
  | .block _ statements => genBlock (genStatements statements)
  | .ifStmt _ condition thenBranch elseBranch =>
      genIf condition elseBranch (genStatement thenBranch) (genStatement elseBranch)
  | .whileStmt _ condition body => genWhile condition (genStatement body)
  | node => discard (genExpression node)

/-- The loops over the statements of a block. -/
def genStatements : List ASTNode → GenM Unit
  | [] => return ()
  | stmt :: rest => do
      genStatement stmt
      genStatements rest

end

/-! ## Functions -/

/-- The parameter loop of `ir_gen`; false where a register is missing. -/
def genParams : List Parameter → GenM Bool
  | [] => return true
  | param :: rest => do
      let some vreg ← allocVreg | do
        record (.drop .vregLimit)
        return false
      addSymbol param.name vreg
      genParams rest

/-- What `ir_gen` does with its root; false for `return (NULL)`. -/
def genRoot : ASTNode → GenM Bool
  | .function _ _ _ params body _ => do
      if ← genParams params then
        if let .block _ statements := body then genStatements statements
        return true
      else
        return false
  | .block _ statements => do
      genStatements statements
      return true
  | root => do
      let resultReg ← genExpression root
      if resultReg = 0 then return false
      let type ← valueTypeOf root
      emitInst { opcode := .ret, type := type, src1 := resultReg }
      return true

/-- The text of the instruction limit. -/
def instructionLimitMessage (name : StringView) : String :=
  "function '" ++ svText name ++ "' exceeds IR instruction limit (" ++
    toString maxIrInstructionsPerFunction ++ ")"

/-- The function record as `ir_gen` sets it up; `fresh` is what the arena returns,
whose `stack_count` is not set. -/
def initFunction (fresh : IRFunction) (root : ASTNode) (errors : ErrorContext)
    (filename : Option String) : IRFunction :=
  { fresh with
    vregCount := 1, labelCount := 0, totalCount := 0, chunks := []
    errors := errors, filename := filename
    name := match root with
      | .function _ name _ _ _ _ => name
      | _ => fresh.name }

/-- The state in which `ir_gen` starts on a root. -/
def initState (fresh : IRFunction) (root : ASTNode) (errors : ErrorContext)
    (filename : Option String) : GenState :=
  ⟨initFunction fresh root errors filename, .init, []⟩

/-- `ir_gen`: whether a function is returned (`NULL` otherwise), and the final
state with that function and the error context. -/
def irGen (fresh : IRFunction) (root : ASTNode) (errors : ErrorContext)
    (filename : Option String) : Except Stop (Bool × GenState) :=
  let init := initState fresh root errors filename
  if root.isNull then .ok (false, init)
  else do
    let (generated, s) ← (genRoot root).run init
    if generated && decide (s.f.totalCount ≥ maxIrInstructionsPerFunction) then
      return (false, { s with f := s.f.error 0 0 (instructionLimitMessage s.f.name) })
    else
      return (generated, s)

end TinyCompile.Ir
