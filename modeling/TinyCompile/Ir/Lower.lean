import TinyCompile.Ir.Gen

set_option autoImplicit false

/-!
# Ir: lowering as a function

What the generator emits, as a function of the tree, of what the names stand for
and of the counters.  Scopes are lists of bindings, innermost first; there is no
symbol table, no undo log, no chunk and no instruction limit here.
`Ir.GenLower` proves that the generator computes this.
-/

namespace TinyCompile.Ir

open TinyCompile.Source

/-! ## Scopes and results -/

/-- What a name in scope stands for. -/
structure Entry where
  decl : Decl
  type : DataType
  binding : SymbolTable.Binding
  deriving DecidableEq, Repr

/-- The names in scope, innermost first. -/
abbrev Env := List (StringView × Entry)

/-- The counters of an `IRFunction`. -/
structure Counters where
  vreg : Nat
  stack : Nat
  label : Nat
  deriving DecidableEq, Repr

/-- What an expression is lowered to. -/
structure ExprOut where
  code : List IRInstruction
  /-- The register of the value, zero where the generator gave up. -/
  reg : Nat
  /-- The next free register. -/
  next : Nat
  history : List Event

/-- What the arguments of a call are lowered to. -/
structure ArgsOut where
  code : List IRInstruction
  regs : Option (List Nat)
  next : Nat
  history : List Event

/-- What a statement is lowered to. -/
structure StmtOut where
  code : List IRInstruction
  /-- The names in scope behind the statement. -/
  env : Env
  counters : Counters
  history : List Event

/-- The annotated type of a node. -/
def typeOf (node : ASTNode) : DataType := (node.valueType?).getD .void

/-! ## Expressions -/

/-- Finish an expression with one instruction into a fresh register. -/
def finish (code : List IRInstruction) (next : Nat) (history : List Event)
    (inst : Nat → IRInstruction) : ExprOut :=
  if next ≥ maxVregsPerFunction then ⟨code, 0, next, history ++ [.drop .vregLimit]⟩
  else ⟨code ++ [inst next], next, next + 1, history⟩

/-- The `IR_ARG` instructions of a call, from argument `i` on. -/
def argInsts : List (ASTNode × Nat) → Nat → List IRInstruction
  | [], _ => []
  | (arg, reg) :: rest, i =>
      { opcode := .arg, type := typeOf arg, src1 := reg, imm := BitVec.ofNat 64 i } ::
        argInsts rest (i + 1)

mutual

/-- Lower an expression. -/
def lowerExpr (env : Env) : ASTNode → Nat → ExprOut
  | .null, next => ⟨[], 0, next, [.drop .missingNode]⟩
  | .number info value, next =>
      finish [] next [] fun reg =>
        { opcode := .const, type := info.valueType, dest := reg, imm := svToInt64 value }
  | .identifier info name, next =>
      match env.lookup name with
      | none => ⟨[], 0, next, [.drop (.undefinedVariable info name)]⟩
      | some e =>
          if e.binding.isStack then
            finish [] next [.resolved info.addr e.binding] fun reg =>
              { opcode := .load, type := info.valueType, dest := reg, src1 := e.binding.index }
          else ⟨[], e.binding.index, next, [.resolved info.addr e.binding]⟩
  | .call info functionName args, next =>
      let a := lowerArgs env args next
      match a.regs with
      | none => ⟨a.code, 0, a.next, a.history⟩
      | some regs =>
          finish (a.code ++ argInsts (args.zip regs) 0) a.next a.history fun reg =>
            { opcode := .call, type := info.valueType, dest := reg, funcName := functionName }
  | .unary op info operand, next =>
      let o := lowerExpr env operand next
      if o.reg = 0 then o
      else finish o.code o.next o.history fun reg =>
        { opcode := unaryOpcode op, type := info.valueType, dest := reg, src1 := o.reg }
  | .binary op info left right, next =>
      let l := lowerExpr env left next
      if l.reg = 0 then l
      else
        let r := lowerExpr env right l.next
        if r.reg = 0 then ⟨l.code ++ r.code, 0, r.next, l.history ++ r.history⟩
        else finish (l.code ++ r.code) r.next (l.history ++ r.history) fun reg =>
          { opcode := binaryOpcode op (typeOf left), type := info.valueType, dest := reg,
            src1 := l.reg, src2 := r.reg }
  | .varDecl info _ _ _, next
  | .assignment info _ _, next
  | .returnStmt info _, next
  | .ifStmt info _ _ _, next
  | .whileStmt info _ _, next
  | .block info _, next
  | .function info _ _ _ _ _, next
  | .translationUnit info _, next => ⟨[], 0, next, [.drop (.statementInExpression info)]⟩

/-- Lower the arguments of a call, left to right. -/
def lowerArgs (env : Env) : List ASTNode → Nat → ArgsOut
  | [], next => ⟨[], some [], next, []⟩
  | arg :: rest, next =>
      let o := lowerExpr env arg next
      if o.reg = 0 then ⟨o.code, none, o.next, o.history⟩
      else
        let a := lowerArgs env rest o.next
        ⟨o.code ++ a.code, a.regs.map (o.reg :: ·), a.next, o.history ++ a.history⟩

end

/-! ## Statements -/

/-- An instruction that only names a label. -/
def labelInst (opcode : IROpcode) (label : Nat) : IRInstruction :=
  { opcode := opcode, labelId := label }

/-- The branch of a condition in register `reg`. -/
def jzInst (condition : ASTNode) (reg label : Nat) : IRInstruction :=
  { opcode := .jz, type := typeOf condition, src1 := reg, labelId := label }

/-- The initial value of a declared variable. -/
def lowerInit (env : Env) (varType : DataType) (initializer : ASTNode) (next : Nat) : ExprOut :=
  if initializer.isNull then
    finish [] next [] fun reg => { opcode := .const, type := varType, dest := reg, imm := 0 }
  else lowerExpr env initializer next

/-- The value of a return. -/
def lowerReturned (env : Env) (expression : ASTNode) (next : Nat) : ExprOut :=
  if expression.isNull then ⟨[], 0, next, [.drop .returnWithoutExpression]⟩
  else lowerExpr env expression next

/-- An expression in statement position. -/
def exprStmt (env : Env) (o : ExprOut) (c : Counters) : StmtOut :=
  ⟨o.code, env, { c with vreg := o.next }, o.history⟩

mutual

/-- Lower a statement. -/
def lowerStmt (env : Env) : ASTNode → Counters → StmtOut
  | .null, c => ⟨[], env, c, []⟩
  | .varDecl info varName varType initializer, c =>
      let env' := (varName, ⟨.var info.addr, varType, ⟨c.stack, true⟩⟩) :: env
      let o := lowerInit env' varType initializer c.vreg
      ⟨o.code ++
          if o.reg = 0 then []
          else [{ opcode := .store, type := varType, dest := c.stack, src1 := o.reg }],
        env', { c with vreg := o.next, stack := c.stack + 1 },
        .declared info.addr varType c.stack :: o.history⟩
  | .assignment info varName value, c =>
      match env.lookup varName with
      | none => ⟨[], env, c, [.drop (.undefinedTarget info varName)]⟩
      | some e =>
          let o := lowerExpr env value c.vreg
          ⟨o.code ++
              if o.reg = 0 then []
              else
                [{ opcode := if e.binding.isStack then .store else .mov,
                   type := info.valueType, dest := e.binding.index, src1 := o.reg }],
            env, { c with vreg := o.next }, .resolved info.addr e.binding :: o.history⟩
  | .returnStmt info expression, c =>
      let o := lowerReturned env expression c.vreg
      ⟨o.code ++
          if o.reg = 0 then []
          else [{ opcode := .ret, type := info.valueType, src1 := o.reg }],
        env, { c with vreg := o.next }, o.history⟩
  | .block _ statements, c => { lowerStmts env statements c with env := env }
  | .ifStmt _ condition thenBranch elseBranch, c =>
      let o := lowerExpr env condition c.vreg
      if elseBranch.isNull then
        let c₁ : Counters := { c with vreg := o.next, label := c.label + 1 }
        if o.reg = 0 then ⟨o.code, env, c₁, o.history⟩
        else
          let t := lowerStmt env thenBranch c₁
          ⟨o.code ++ [jzInst condition o.reg c.label] ++ t.code ++ [labelInst .label c.label],
            t.env, t.counters, o.history ++ t.history⟩
      else
        let c₁ : Counters := { c with vreg := o.next, label := c.label + 2 }
        if o.reg = 0 then ⟨o.code, env, c₁, o.history⟩
        else
          let t := lowerStmt env thenBranch c₁
          let e := lowerStmt t.env elseBranch t.counters
          ⟨o.code ++ [jzInst condition o.reg c.label] ++ t.code ++
              [labelInst .jmp (c.label + 1), labelInst .label c.label] ++ e.code ++
              [labelInst .label (c.label + 1)],
            e.env, e.counters, o.history ++ t.history ++ e.history⟩
  | .whileStmt _ condition body, c =>
      let o := lowerExpr env condition c.vreg
      let c₁ : Counters := { c with vreg := o.next, label := c.label + 2 }
      if o.reg = 0 then ⟨labelInst .label c.label :: o.code, env, c₁, o.history⟩
      else
        let b := lowerStmt env body c₁
        ⟨[labelInst .label c.label] ++ o.code ++ [jzInst condition o.reg (c.label + 1)] ++
            b.code ++ [labelInst .jmp c.label, labelInst .label (c.label + 1)],
          b.env, b.counters, o.history ++ b.history⟩
  | node, c => exprStmt env (lowerExpr env node c.vreg) c

/-- Lower the statements of a block in order. -/
def lowerStmts (env : Env) : List ASTNode → Counters → StmtOut
  | [], c => ⟨[], env, c, []⟩
  | stmt :: rest, c =>
      let s := lowerStmt env stmt c
      let r := lowerStmts s.env rest s.counters
      ⟨s.code ++ r.code, r.env, r.counters, s.history ++ r.history⟩

end

/-! ## Functions -/

/-- The scope of the parameters, the first of which has number `i`. -/
def paramEnv : Env → List Parameter → Nat → Env
  | env, [], _ => env
  | env, param :: rest, i =>
      paramEnv ((param.name, ⟨.param i, param.type, ⟨i + 1, false⟩⟩) :: env) rest (i + 1)

/-- Lower what `ir_gen` is called on; `stack` is where the stack counter starts.
Only the body of a function is lowered, and an expression is returned. -/
def lowerRoot (stack : Nat) : ASTNode → StmtOut
  | .function _ _ _ params (.block _ statements) _ =>
      lowerStmts (paramEnv [] params 0) statements ⟨1 + params.length, stack, 0⟩
  | .function _ _ _ params _ _ =>
      ⟨[], paramEnv [] params 0, ⟨1 + params.length, stack, 0⟩, []⟩
  | .block _ statements => lowerStmts [] statements ⟨1, stack, 0⟩
  | node =>
      let o := lowerExpr [] node 1
      ⟨o.code ++
          if o.reg = 0 then [] else [{ opcode := .ret, type := typeOf node, src1 := o.reg }],
        [], ⟨o.next, stack, 0⟩, o.history⟩

end TinyCompile.Ir
