import TinyCompile.Semantic.Global
import TinyCompile.Semantic.Scope

set_option autoImplicit false

/-!
# Semantic: analysis

The rest of `srcs/semantic/semantic.c`.  The analyzer writes types into the nodes; here
it returns the annotated tree beside the result of the source.

The `history` is not in the source.  It records which declaration each variable
occurrence was resolved to.
-/

namespace TinyCompile.Semantic

open TinyCompile.Source

/-- `SemanticAnalyzer`, the arena aside; `visible_count` is the length of the list. -/
structure SemanticAnalyzer where
  current : List Scope
  errors : ErrorContext
  filename : String
  global : GlobalScope
  currentReturnType : DataType
  visibleFuncs : List StringView
  history : List (Nat × Decl)

/-- How the process can end inside the analyzer. -/
inductive Stop where
  | nullPointer
  /-- The division of the least 64-bit number by -1. -/
  | divisionOverflow
  /-- The root of a tree is not a translation unit. -/
  | wrongNode
  deriving DecidableEq, Repr

/-- The analyzer's computations. -/
abbrev SemM := StateT SemanticAnalyzer (Except Stop)

/-- `error_semantic` in the analyzer. -/
def errorSemantic (line column : Nat) (message : String) : SemM Unit :=
  modify fun sa =>
    { sa with errors := errorAdd sa.errors .semantic .error (some sa.filename) line column message }

/-- A warning of the analyzer. -/
def warnSemantic (line column : Nat) (message : String) : SemM Unit :=
  modify fun sa =>
    { sa with
      errors := errorAdd sa.errors .semantic .warning (some sa.filename) line column message }

/-! ## Scopes -/

/-- `semantic_scope_enter`. -/
def semanticScopeEnter : SemM Unit :=
  modify fun sa => { sa with current := .empty :: sa.current }

/-- `semantic_scope_exit`. -/
def semanticScopeExit : SemM Unit :=
  modify fun sa => { sa with current := sa.current.tail }

/-- `semantic_scope_declare`. -/
def semanticScopeDeclare (var : VarInfo) : SemM Bool := do
  let sa ← get
  match sa.current with
  | [] => return false
  | scope :: parents =>
      match scope.declare var with
      | .stored scope =>
          set { sa with current := scope :: parents }
          return true
      | .redeclared line =>
          errorSemantic var.line 0 ("redeclaration of variable '" ++ svText var.name ++
            "' (first declared at line " ++ toString line ++ ")")
          return false
      | .full =>
          errorSemantic var.line 0
            ("too many variables in scope (max " ++ toString scopeHashSize ++ ")")
          return false

/-- Record what an occurrence was resolved to. -/
def recordResolved (node : Nat) (var : VarInfo) : SemM Unit :=
  modify fun sa => { sa with history := sa.history ++ [(node, var.decl)] }

/-! ## Constants -/

/-- The operators that `evaluate_const_expression` knows, on 64-bit numbers.  What C leaves
undefined is done as the machine does it: sums wrap around, shifts take the low six bits of
their count, and a quotient that does not fit traps. -/
def constBinary (op : BinaryOp) (left right : BitVec 64) : Except Stop (Option (BitVec 64)) :=
  match op with
  | .add => return some (left + right)
  | .sub => return some (left - right)
  | .mul => return some (left * right)
  | .div =>
      if right = 0 then return none
      else if left = BitVec.intMin 64 ∧ right = -1 then throw .divisionOverflow
      else return some (left.sdiv right)
  | .lshift => return some (left <<< (right.toNat % 64))
  | .rshift => return some (left.sshiftRight (right.toNat % 64))
  | .bitAnd => return some (left &&& right)
  | .bitOr => return some (left ||| right)
  | .bitXor => return some (left ^^^ right)
  | .equal | .notEqual | .less | .lessEqual | .greater | .greaterEqual => return none

/-- The binary operators that have a case in `evaluate_const_expression`. -/
def isConstBinary : BinaryOp → Bool
  | .equal | .notEqual | .less | .lessEqual | .greater | .greaterEqual => false
  | _ => true

/-- `evaluate_const_expression`; `none` for `false`. -/
def evaluateConstExpression : ASTNode → Except Stop (Option (BitVec 64))
  | .number _ value => return some (svToInt64 value)
  | .unary .negate _ operand => return (← evaluateConstExpression operand).map (- ·)
  | .unary .bitNot _ operand => return (← evaluateConstExpression operand).map (~~~ ·)
  | .binary op _ left right => do
      if !isConstBinary op then return none
      let some l ← evaluateConstExpression left | return none
      let some r ← evaluateConstExpression right | return none
      constBinary op l r
  | _ => return none

/-! ## Types -/

/-- The range test on a constant, by the size of the destination. -/
def fitsSize (size : Nat) (value : BitVec 64) : Bool :=
  match size with
  | 1 => -128 ≤ value.toInt && value.toInt ≤ 127
  | 2 => -32768 ≤ value.toInt && value.toInt ≤ 32767
  | 4 => -2147483648 ≤ value.toInt && value.toInt ≤ 2147483647
  | _ => false

/-- The members of `node` that the analyzer reads through the pointer. -/
def infoOf (node : ASTNode) : SemM NodeInfo :=
  match node.info? with
  | some info => return info
  | none => throw .nullPointer

/-- `check_type_compatibility`. -/
def checkTypeCompatibility (dest src : DataType) (node : ASTNode) : SemM Bool := do
  if dest = src then return true
  if src = .void ∨ dest = .void then
    let info ← infoOf node
    errorSemantic info.line info.column "invalid use of void expression"
    return false
  if typeIsInteger dest && typeIsInteger src then
    if typeSize dest < typeSize src then
      let safeConversion :=
        match ← evaluateConstExpression node with
        | some value => fitsSize (typeSize dest) value
        | none => false
      if !safeConversion then
        let info ← infoOf node
        warnSemantic info.line info.column ("implicit conversion from '" ++ typeName src ++
          "' to '" ++ typeName dest ++ "' may lose precision")
    return true
  let info ← infoOf node
  errorSemantic info.line info.column ("incompatible types: cannot assign '" ++ typeName src ++
    "' to '" ++ typeName dest ++ "'")
  return false

/-- `node->value_type`. -/
def valueTypeOf (node : ASTNode) : SemM DataType := return (← infoOf node).valueType

/-- The type of a number. -/
def numberType (value : BitVec 64) : DataType :=
  if -2147483648 ≤ value.toInt ∧ value.toInt ≤ 2147483647 then .int else .int64

/-- The larger of two types, the left one if they are equally large. -/
def largerType (left right : DataType) : DataType :=
  if typeSize left ≥ typeSize right then left else right

/-- The type of a bitwise operation: the type of its left operand, at least `int`. -/
def bitwiseType (left : DataType) : DataType :=
  if typeSize left < typeSize .int then .int else left

/-! ## Expressions -/

/-- How `analyze_expression` treats a binary operator. -/
inductive BinaryCase where
  | arithmetic | comparison | bitwise
  /-- No case mentions the operator. -/
  | default

/-- The cases of the switch in `analyze_expression`; `AST_GREATER` has none. -/
def binaryCase : BinaryOp → BinaryCase
  | .add | .sub | .mul | .div => .arithmetic
  | .equal | .greaterEqual | .lessEqual | .less | .notEqual => .comparison
  | .bitAnd | .bitOr | .bitXor | .lshift | .rshift => .bitwise
  | .greater => .default

/-- `node->value_type = type`. -/
def annotate (info : NodeInfo) (type : DataType) : NodeInfo := { info with valueType := type }

/-- The case `AST_IDENTIFIER` of `analyze_expression`. -/
def analyzeIdentifier (info : NodeInfo) (name : StringView) : SemM (ASTNode × Bool) := do
  match semanticScopeLookup (← get).current name with
  | none =>
      errorSemantic info.line info.column
        ("use of undeclared identifier '" ++ svText name ++ "'")
      return (.identifier info name, false)
  | some var =>
      recordResolved info.addr var
      return (.identifier (annotate info var.type) name, true)

/-- The case `AST_CALL` of `analyze_expression`; `analyzeArgs` is its last loop. -/
def analyzeCall (info : NodeInfo) (functionName : StringView) (args : List ASTNode)
    (analyzeArgs : List Parameter → SemM (List ASTNode × Bool)) : SemM (ASTNode × Bool) := do
  let sa ← get
  let node := ASTNode.call info functionName args
  if !(sa.visibleFuncs.any fun f => svEq f functionName) then
    errorSemantic info.line info.column ("implicit declaration of function '" ++
      svText functionName ++ "' is invalid in tinyCompile")
    return (node, false)
  match semanticGlobalLookupFunction sa.global functionName with
  | none =>
      errorSemantic info.line info.column
        ("call to undefined function '" ++ svText functionName ++ "'")
      return (node, false)
  | some func =>
      if args.length ≠ func.params.length then
        errorSemantic info.line info.column ("function '" ++ svText functionName ++
          "' expects " ++ toString func.params.length ++ " arguments, got " ++
          toString args.length)
        return (node, false)
      let (args, allOk) ← analyzeArgs func.params
      return (.call (annotate info func.returnType) functionName args, allOk)

/-- The cases of the binary operators of `analyze_expression`. -/
def analyzeBinary (op : BinaryOp) (info : NodeInfo) (left right : ASTNode)
    (analyzeLeft analyzeRight : SemM (ASTNode × Bool)) : SemM (ASTNode × Bool) := do
  match binaryCase op with
  | .arithmetic =>
      let (left, leftOk) ← analyzeLeft
      let (right, rightOk) ← analyzeRight
      if !leftOk || !rightOk then return (.binary op info left right, false)
      let leftType ← valueTypeOf left
      let rightType ← valueTypeOf right
      return (.binary op (annotate info (largerType leftType rightType)) left right, true)
  | .comparison =>
      let (left, leftOk) ← analyzeLeft
      let (right, rightOk) ← analyzeRight
      return (.binary op (annotate info .int64) left right, leftOk && rightOk)
  | .bitwise =>
      let (left, leftOk) ← analyzeLeft
      let (right, rightOk) ← analyzeRight
      if !leftOk || !rightOk then return (.binary op info left right, false)
      let leftType ← valueTypeOf left
      return (.binary op (annotate info (bitwiseType leftType)) left right, true)
  | .default => return (.binary op info left right, true)

/-- The cases of the unary operators of `analyze_expression`. -/
def analyzeUnary (op : UnaryOp) (info : NodeInfo) (analyzeOperand : SemM (ASTNode × Bool)) :
    SemM (ASTNode × Bool) := do
  let (operand, ok) ← analyzeOperand
  match op with
  | .not => return (.unary op (annotate info .int64) operand, ok)
  | .negate | .bitNot =>
      if ok then
        return (.unary op (annotate info (← valueTypeOf operand)) operand, true)
      else return (.unary op info operand, false)

mutual

/-- `analyze_expression`. -/
def analyzeExpression : ASTNode → SemM (ASTNode × Bool)
  | .null => return (.null, true)
  | .number info value =>
      return (.number (annotate info (numberType (svToInt64 value))) value, true)
  | .identifier info name => analyzeIdentifier info name
  | .call info functionName args => analyzeCall info functionName args (analyzeArgs args)
  | .binary op info left right =>
      analyzeBinary op info left right (analyzeExpression left) (analyzeExpression right)
  | .unary op info operand => analyzeUnary op info (analyzeExpression operand)
  | node => return (node, true)

/-- The loop over the arguments of a call and the parameters of the function. -/
def analyzeArgs : List ASTNode → List Parameter → SemM (List ASTNode × Bool)
  | arg :: rest, param :: params => do
      let (arg, ok) ← analyzeExpression arg
      let compatible ← checkTypeCompatibility param.type (← valueTypeOf arg) arg
      let (rest, allOk) ← analyzeArgs rest params
      return (arg :: rest, ok && compatible && allOk)
  | args, _ => return (args, true)

end

/-! ## Statements -/

/-- Analyze a value and check it against the type of where it goes. -/
def analyzeValue (dest : DataType) (value : ASTNode) : SemM (ASTNode × Bool) := do
  let (value, ok) ← analyzeExpression value
  if ok then return (value, ← checkTypeCompatibility dest (← valueTypeOf value) value)
  else return (value, false)

/-- The initializer of a declaration, if there is one. -/
def analyzeInitializer (varType : DataType) (initializer : ASTNode) : SemM (ASTNode × Bool) :=
  if initializer.isNull then return (initializer, true) else analyzeValue varType initializer

/-- The case `AST_VAR_DECL` of `analyze_statement`. -/
def analyzeVarDecl (info : NodeInfo) (varName : StringView) (varType : DataType)
    (initializer : ASTNode) : SemM (ASTNode × Bool) := do
  let (initializer, initOk) ← analyzeInitializer varType initializer
  let declOk ← semanticScopeDeclare ⟨varName, varType, false, info.line, .var info.addr⟩
  return (.varDecl info varName varType initializer, initOk && declOk)

/-- The case `AST_ASSIGNMENT` of `analyze_statement`. -/
def analyzeAssignment (info : NodeInfo) (varName : StringView) (value : ASTNode) :
    SemM (ASTNode × Bool) := do
  match semanticScopeLookup (← get).current varName with
  | none =>
      errorSemantic info.line info.column
        ("assignment to undeclared variable '" ++ svText varName ++ "'")
      return (.assignment info varName value, false)
  | some var =>
      recordResolved info.addr var
      let (value, ok) ← analyzeValue var.type value
      return (.assignment (annotate info var.type) varName value, ok)

/-- The case `AST_RETURN` of `analyze_statement`. -/
def analyzeReturn (info : NodeInfo) (expression : ASTNode) : SemM (ASTNode × Bool) := do
  let returnType := (← get).currentReturnType
  if !expression.isNull then
    if returnType = .void then
      errorSemantic info.line info.column "void function should not return a value"
      return (.returnStmt info expression, false)
    let (expression, ok) ← analyzeValue returnType expression
    return (.returnStmt (annotate info returnType) expression, ok)
  else
    if returnType ≠ .void then
      errorSemantic info.line info.column "non-void function must return a value"
      return (.returnStmt info expression, false)
    return (.returnStmt info expression, true)

/-- The `else` branch of an `if`, if there is one. -/
def analyzeElseBranch (elseBranch : ASTNode) (analyzeElse : SemM (ASTNode × Bool)) :
    SemM (ASTNode × Bool) :=
  if elseBranch.isNull then return (elseBranch, true) else analyzeElse

/-- The case `AST_IF` of `analyze_statement`. -/
def analyzeIf (info : NodeInfo) (condition elseBranch : ASTNode)
    (analyzeThen analyzeElse : SemM (ASTNode × Bool)) : SemM (ASTNode × Bool) := do
  let (condition, condOk) ← analyzeExpression condition
  let (thenBranch, thenOk) ← analyzeThen
  let (elseBranch, elseOk) ← analyzeElseBranch elseBranch analyzeElse
  return (.ifStmt info condition thenBranch elseBranch, condOk && thenOk && elseOk)

/-- The case `AST_WHILE` of `analyze_statement`. -/
def analyzeWhile (info : NodeInfo) (condition : ASTNode)
    (analyzeBody : SemM (ASTNode × Bool)) : SemM (ASTNode × Bool) := do
  let (condition, condOk) ← analyzeExpression condition
  let (body, bodyOk) ← analyzeBody
  return (.whileStmt info condition body, condOk && bodyOk)

/-- The case `AST_BLOCK` of `analyze_statement`. -/
def analyzeBlock (info : NodeInfo) (analyzeStatements : SemM (List ASTNode × Bool)) :
    SemM (ASTNode × Bool) := do
  semanticScopeEnter
  let (statements, allOk) ← analyzeStatements
  semanticScopeExit
  return (.block info statements, allOk)

mutual

/-- `analyze_statement`. -/
def analyzeStatement : ASTNode → SemM (ASTNode × Bool)
  | .null => return (.null, true)
  | .varDecl info varName varType initializer => analyzeVarDecl info varName varType initializer
  | .assignment info varName value => analyzeAssignment info varName value
  | .returnStmt info expression => analyzeReturn info expression
  | .ifStmt info condition thenBranch elseBranch =>
      analyzeIf info condition elseBranch (analyzeStatement thenBranch)
        (analyzeStatement elseBranch)
  | .whileStmt info condition body => analyzeWhile info condition (analyzeStatement body)
  | .block info statements => analyzeBlock info (analyzeStatements statements)
  | node => analyzeExpression node

/-- The loops over the statements of a block. -/
def analyzeStatements : List ASTNode → SemM (List ASTNode × Bool)
  | [] => return ([], true)
  | stmt :: rest => do
      let (stmt, ok) ← analyzeStatement stmt
      let (rest, allOk) ← analyzeStatements rest
      return (stmt :: rest, ok && allOk)

end

/-! ## Functions and files -/

/-- The parameter loop of `analyze_node`, from parameter `i` on. -/
def declareParams (line : Nat) : List Parameter → Nat → SemM Bool
  | [], _ => return true
  | param :: params, i => do
      let ok ← semanticScopeDeclare ⟨param.name, param.type, false, line, .param i⟩
      let paramsOk ← declareParams line params (i + 1)
      return ok && paramsOk

/-- What `analyze_node` does with the body of a function. -/
def analyzeBody : ASTNode → SemM (ASTNode × Bool)
  | .block info statements => do
      let (statements, bodyOk) ← analyzeStatements statements
      return (.block info statements, bodyOk)
  | body => return (body, true)

/-- `analyze_node`. -/
def analyzeNode : ASTNode → SemM (ASTNode × Bool)
  | .function info name returnType params body isPrototype => do
      if isPrototype then
        return (.function info name returnType params body isPrototype, true)
      modify fun sa => { sa with currentReturnType := returnType }
      semanticScopeEnter
      let paramsOk ← declareParams info.line params 0
      let (body, bodyOk) ← analyzeBody body
      semanticScopeExit
      return (.function info name returnType params body isPrototype, paramsOk && bodyOk)
  | .null => throw .nullPointer
  | node => return (node, false)

/-- The first loop of `semantic_analyze`; false for its `return (false)`. -/
def collectVisible : List ASTNode → SemM Bool
  | [] => return true
  | .function info name _ _ _ _ :: nodes => do
      let sa ← get
      if sa.visibleFuncs.any fun f => svEq f name then collectVisible nodes
      else if sa.visibleFuncs.length ≥ maxFunctionCount then
        errorSemantic info.line 0 "too many functions"
        return false
      else
        set { sa with visibleFuncs := sa.visibleFuncs ++ [name] }
        collectVisible nodes
  | .null :: _ => throw .nullPointer
  | _ :: nodes => collectVisible nodes

/-- The second loop of `semantic_analyze`. -/
def analyzeNodes : List ASTNode → SemM (List ASTNode × Bool)
  | [] => return ([], true)
  | node :: nodes => do
      let (node, ok) ← analyzeNode node
      let (nodes, allOk) ← analyzeNodes nodes
      return (node :: nodes, ok && allOk)

/-- `semantic_analyze` on the declarations of a unit. -/
def semanticAnalyze (declarations : List ASTNode) : SemM (List ASTNode × Bool) := do
  if ← collectVisible declarations then analyzeNodes declarations
  else return (declarations, false)

/-- The analyzer as `semantic_analyze` sets it up. -/
def SemanticAnalyzer.init (filename : String) (errors : ErrorContext) (global : GlobalScope) :
    SemanticAnalyzer :=
  ⟨[], errors, filename, global, .int64, [], []⟩

end TinyCompile.Semantic
