import TinyCompile.Logic.Returns
import TinyCompile.Semantic.Analyze

set_option autoImplicit false

/-!
# Semantic: runs of the analyzer that accept

A run of the analyzer that accepts a tree, taken apart: which runs it is made of, and what
it makes of their trees.
-/

namespace TinyCompile.Semantic

open TinyCompile.Source TinyCompile.Logic

/-! ## Expressions -/

/-- The type of a binary operation on operands of two types; `none` for the operator that
the analyzer has no case for. -/
def resultType (op : BinaryOp) (left right : DataType) : Option DataType :=
  match binaryCase op with
  | .arithmetic => some (largerType left right)
  | .comparison => some .int64
  | .bitwise => some (bitwiseType left)
  | .default => none

section

variable {sa sa' : SemanticAnalyzer} {node : ASTNode}

@[simp] theorem returns_infoOf {info : NodeInfo} :
    Returns (infoOf node) sa info sa' ↔ node.info? = some info ∧ sa = sa' := by
  unfold infoOf
  cases node.info? with
  | none => exact ⟨nofun, nofun⟩
  | some info' => simp

@[simp] theorem returns_valueTypeOf {type : DataType} :
    Returns (valueTypeOf node) sa type sa' ↔ node.valueType? = some type ∧ sa = sa' := by
  unfold valueTypeOf ASTNode.valueType?
  simp only [returns_bind, returns_infoOf, returns_pure, Option.map_eq_some_iff]
  grind

/-- The type of a binary operation on two trees with types. -/
def binaryType (op : BinaryOp) (left right : ASTNode) : Option DataType :=
  match binaryCase op with
  | .arithmetic => do return largerType (← left.valueType?) (← right.valueType?)
  | .comparison => some .int64
  | .bitwise => left.valueType?.map bitwiseType
  | .default => none

theorem binaryType_eq {op : BinaryOp} {left right : ASTNode} {leftType rightType : DataType}
    (hleft : left.valueType? = some leftType) (hright : right.valueType? = some rightType) :
    binaryType op left right = resultType op leftType rightType := by
  unfold binaryType resultType
  rw [hleft, hright]
  rfl

theorem returns_analyzeBinary {op : BinaryOp} {info : NodeInfo} {left right : ASTNode}
    {analyzeLeft analyzeRight : SemM (ASTNode × Bool)} (hcase : binaryCase op ≠ .default) :
    Returns (analyzeBinary op info left right analyzeLeft analyzeRight) sa (node, true) sa' ↔
      ∃ left' right' sa₁ type, Returns analyzeLeft sa (left', true) sa₁ ∧
        Returns analyzeRight sa₁ (right', true) sa' ∧ binaryType op left' right' = some type ∧
        node = .binary op (annotate info type) left' right' := by
  unfold analyzeBinary binaryType
  cases hop : binaryCase op with
  | arithmetic =>
    simp [Prod.exists, Bool.exists_bool, Option.bind_eq_some_iff]
    grind
  | comparison =>
    simp [Prod.exists, Bool.exists_bool]
    grind
  | bitwise =>
    simp [Prod.exists, Bool.exists_bool]
    grind
  | default => exact absurd hop hcase

/-- The type of a unary operation on a tree with types. -/
def unaryType (op : UnaryOp) (operand : ASTNode) : Option DataType :=
  match op with
  | .not => some .int64
  | .negate | .bitNot => operand.valueType?

/-- What `check_type_compatibility` lets pass. -/
theorem returns_checkTypeCompatibility {dest src : DataType} {node : ASTNode} :
    Returns (checkTypeCompatibility dest src node) sa true sa' ↔
      (dest = src ∧ sa' = sa) ∨ (dest ≠ src ∧ src ≠ .void ∧ dest ≠ .void ∧
        if typeSize dest < typeSize src then
          ∃ value, evaluateConstExpression node = .ok value ∧
            if value.any (fitsSize (typeSize dest)) = true then sa' = sa
            else ∃ info, node.info? = some info ∧ sa' = { sa with
              errors := errorAdd sa.errors .semantic .warning (some sa.filename) info.line
                info.column ("implicit conversion from '" ++ typeName src ++ "' to '" ++
                  typeName dest ++ "' may lose precision") }
        else sa' = sa) := by
  unfold checkTypeCompatibility
  by_cases hsame : dest = src
  · simp [hsame]
    grind
  by_cases hvoid : src = .void ∨ dest = .void
  · simp [hsame, hvoid]
    grind
  obtain ⟨hsrc, hdest⟩ := not_or.mp hvoid
  by_cases hsize : typeSize dest < typeSize src
  · simp [hsame, hsrc, hdest, hsize, typeIsInteger]
    refine exists_congr fun value => and_congr_right fun _ => ?_
    cases value with
    | none =>
      simp [warnSemantic]
      grind
    | some v =>
      by_cases hfits : fitsSize (typeSize dest) v = true
      · simp [hfits]
        grind
      · simp [hfits, warnSemantic]
        grind
  · simp [hsame, hsrc, hdest, hsize, typeIsInteger]
    grind

theorem returns_analyzeUnary {op : UnaryOp} {info : NodeInfo}
    {analyzeOperand : SemM (ASTNode × Bool)} :
    Returns (analyzeUnary op info analyzeOperand) sa (node, true) sa' ↔
      ∃ operand' type, Returns analyzeOperand sa (operand', true) sa' ∧
        unaryType op operand' = some type ∧ node = .unary op (annotate info type) operand' := by
  unfold analyzeUnary unaryType
  cases op <;>
  · simp [Prod.exists, Bool.exists_bool]
    grind

theorem returns_analyzeIdentifier {info : NodeInfo} {name : StringView} :
    Returns (analyzeIdentifier info name) sa (node, true) sa' ↔
      ∃ var, semanticScopeLookup sa.current name = some var ∧
        node = .identifier (annotate info var.type) name ∧
        sa' = { sa with history := sa.history ++ [(info.addr, var.decl)] } := by
  unfold analyzeIdentifier recordResolved
  simp only [returns_bind, returns_get]
  cases hvar : semanticScopeLookup sa.current name with
  | none => simp [hvar]
  | some var => 
    simp [hvar]
    grind

theorem returns_analyzeCall {info : NodeInfo} {functionName : StringView} {args : List ASTNode}
    {analyze : List Parameter → SemM (List ASTNode × Bool)} :
    Returns (analyzeCall info functionName args analyze) sa (node, true) sa' ↔
      ∃ func args', (sa.visibleFuncs.any fun f => svEq f functionName) = true ∧
        semanticGlobalLookupFunction sa.global functionName = some func ∧
        args.length = func.params.length ∧ Returns (analyze func.params) sa (args', true) sa' ∧
        node = .call (annotate info func.returnType) functionName args' := by
  unfold analyzeCall
  simp only [returns_bind, returns_get]
  cases hvisible : sa.visibleFuncs.any fun f => svEq f functionName with
  | false => simp [hvisible]
  | true =>
    cases hfunc : semanticGlobalLookupFunction sa.global functionName with
    | none => simp [hvisible, hfunc]
    | some func =>
      by_cases hlength : args.length = func.params.length
      · simp [hvisible, hfunc, hlength]
        grind
      · simp [hvisible, hfunc, hlength]

theorem returns_analyzeArgs_cons {arg : ASTNode} {args out : List ASTNode} {param : Parameter}
    {params : List Parameter} :
    Returns (analyzeArgs (arg :: args) (param :: params)) sa (out, true) sa' ↔
      ∃ arg' args' type sa₁ sa₂, Returns (analyzeExpression arg) sa (arg', true) sa₁ ∧
        arg'.valueType? = some type ∧
        Returns (checkTypeCompatibility param.type type arg') sa₁ true sa₂ ∧
        Returns (analyzeArgs args params) sa₂ (args', true) sa' ∧ out = arg' :: args' := by
  rw [analyzeArgs]
  simp [Prod.exists, Bool.exists_bool]
  grind

end

/-! ## Statements -/

section

variable {sa sa' : SemanticAnalyzer} {node : ASTNode} {info : NodeInfo}

theorem returns_analyzeValue {dest : DataType} {value : ASTNode} :
    Returns (analyzeValue dest value) sa (node, true) sa' ↔
      ∃ type sa₁, Returns (analyzeExpression value) sa (node, true) sa₁ ∧
        node.valueType? = some type ∧
          Returns (checkTypeCompatibility dest type node) sa₁ true sa' := by
  unfold analyzeValue
  simp [Prod.exists, Bool.exists_bool]
  grind

theorem returns_analyzeVarDecl {varName : StringView} {varType : DataType}
    {initializer : ASTNode} :
    Returns (analyzeVarDecl info varName varType initializer) sa (node, true) sa' ↔
      ∃ initializer' sa₁, Returns (analyzeInitializer varType initializer) sa (initializer', true)
          sa₁ ∧
        Returns (semanticScopeDeclare ⟨varName, varType, false, info.line, .var info.addr⟩) sa₁ true
          sa' ∧ node = .varDecl info varName varType initializer' := by
  unfold analyzeVarDecl
  simp [Prod.exists, Bool.exists_bool]
  grind

theorem returns_analyzeAssignment {varName : StringView} {value : ASTNode} :
    Returns (analyzeAssignment info varName value) sa (node, true) sa' ↔
      ∃ var value', semanticScopeLookup sa.current varName = some var ∧
        Returns (analyzeValue var.type value)
          { sa with history := sa.history ++ [(info.addr, var.decl)] } (value', true) sa' ∧
        node = .assignment (annotate info var.type) varName value' := by
  unfold analyzeAssignment recordResolved
  simp only [returns_bind, returns_get]
  cases hvar : semanticScopeLookup sa.current varName with
  | none => simp [hvar]
  | some var =>
    simp [hvar, Prod.exists]
    grind

theorem returns_analyzeReturn {expression : ASTNode} :
    Returns (analyzeReturn info expression) sa (node, true) sa' ↔
      if expression.isNull = true then
        sa.currentReturnType = .void ∧ node = .returnStmt info expression ∧ sa' = sa
      else sa.currentReturnType ≠ .void ∧ ∃ expression',
        Returns (analyzeValue sa.currentReturnType expression) sa (expression', true) sa' ∧
          node = .returnStmt (annotate info sa.currentReturnType) expression' := by
  unfold analyzeReturn
  simp only [returns_bind, returns_get]
  cases hnull : expression.isNull <;> by_cases hvoid : sa.currentReturnType = .void <;>
  · simp [hvoid, Prod.exists]
    try grind

theorem returns_analyzeIf {condition elseBranch : ASTNode}
    {analyzeThen analyzeElse : SemM (ASTNode × Bool)} :
    Returns (analyzeIf info condition elseBranch analyzeThen analyzeElse) sa (node, true) sa' ↔
      ∃ condition' thenBranch' elseBranch' sa₁ sa₂,
        Returns (analyzeExpression condition) sa (condition', true) sa₁ ∧
        Returns analyzeThen sa₁ (thenBranch', true) sa₂ ∧
        Returns (analyzeElseBranch elseBranch analyzeElse) sa₂ (elseBranch', true) sa' ∧
        node = .ifStmt info condition' thenBranch' elseBranch' := by
  unfold analyzeIf
  simp [Prod.exists, Bool.exists_bool]
  grind

theorem returns_analyzeWhile {condition : ASTNode} {analyzeBody : SemM (ASTNode × Bool)} :
    Returns (analyzeWhile info condition analyzeBody) sa (node, true) sa' ↔
      ∃ condition' body' sa₁, Returns (analyzeExpression condition) sa (condition', true) sa₁ ∧
        Returns analyzeBody sa₁ (body', true) sa' ∧ node = .whileStmt info condition' body' := by
  unfold analyzeWhile
  simp [Prod.exists, Bool.exists_bool]
  grind

theorem returns_analyzeBlock {analyze : SemM (List ASTNode × Bool)} :
    Returns (analyzeBlock info analyze) sa (node, true) sa' ↔
      ∃ statements' sa₁, Returns analyze { sa with current := .empty :: sa.current }
          (statements', true) sa₁ ∧
        node = .block info statements' ∧ sa' = { sa₁ with current := sa₁.current.tail } := by
  unfold analyzeBlock semanticScopeEnter semanticScopeExit
  simp [Prod.exists, Bool.exists_bool]
  grind

theorem returns_analyzeStatements_cons {stmt : ASTNode} {rest out : List ASTNode} :
    Returns (analyzeStatements (stmt :: rest)) sa (out, true) sa' ↔
      ∃ stmt' rest' sa₁, Returns (analyzeStatement stmt) sa (stmt', true) sa₁ ∧
        Returns (analyzeStatements rest) sa₁ (rest', true) sa' ∧ out = stmt' :: rest' := by
  rw [analyzeStatements]
  simp [Prod.exists, Bool.exists_bool]
  grind

theorem returns_semanticScopeDeclare {var : VarInfo} :
    Returns (semanticScopeDeclare var) sa true sa' ↔
      ∃ scope parents scope', sa.current = scope :: parents ∧ scope.declare var = .stored scope' ∧
        sa' = { sa with current := scope' :: parents } := by
  unfold semanticScopeDeclare
  simp only [returns_bind, returns_get]
  cases hcurrent : sa.current with
  | nil => simp [hcurrent]
  | cons scope parents =>
    cases hdeclare : scope.declare var with
    | stored scope' =>
      simp [hcurrent, hdeclare]
      grind
    | _ => simp [hcurrent, hdeclare]

end

/-! ## Functions and units -/

section

variable {sa sa' : SemanticAnalyzer} {node : ASTNode}

theorem returns_analyzeNode {info : NodeInfo} {name : StringView} {returnType : DataType}
    {params : List Parameter} {body : ASTNode} :
    Returns (analyzeNode (.function info name returnType params body false)) sa (node, true) sa' ↔
      ∃ body' sa₁ sa₂, Returns (declareParams info.line params 0)
          { sa with currentReturnType := returnType, current := .empty :: sa.current } true sa₁ ∧
        Returns (analyzeBody body) sa₁ (body', true) sa₂ ∧
        node = .function info name returnType params body' false ∧
        sa' = { sa₂ with current := sa₂.current.tail } := by
  unfold analyzeNode semanticScopeEnter semanticScopeExit
  simp [Prod.exists, Bool.exists_bool]
  grind

theorem returns_analyzeNodes_cons {nodes out : List ASTNode} :
    Returns (analyzeNodes (node :: nodes)) sa (out, true) sa' ↔
      ∃ node' nodes' sa₁, Returns (analyzeNode node) sa (node', true) sa₁ ∧
        Returns (analyzeNodes nodes) sa₁ (nodes', true) sa' ∧ out = node' :: nodes' := by
  rw [analyzeNodes]
  simp [Prod.exists, Bool.exists_bool]
  grind

theorem returns_declareParams_cons {line i : Nat} {param : Parameter} {params : List Parameter} :
    Returns (declareParams line (param :: params) i) sa true sa' ↔
      ∃ sa₁, Returns (semanticScopeDeclare ⟨param.name, param.type, false, line, .param i⟩) sa true
          sa₁ ∧ Returns (declareParams line params (i + 1)) sa₁ true sa' := by
  rw [declareParams]
  simp [Bool.exists_bool]

theorem returns_collectVisible {info : NodeInfo} {name : StringView} {returnType : DataType}
    {params : List Parameter} {body : ASTNode} {isPrototype : Bool} {nodes : List ASTNode} :
    Returns (collectVisible (.function info name returnType params body isPrototype :: nodes)) sa
        true sa' ↔
      if (sa.visibleFuncs.any fun f => svEq f name) = true then
        Returns (collectVisible nodes) sa true sa'
      else sa.visibleFuncs.length < maxFunctionCount ∧ Returns (collectVisible nodes)
        { sa with visibleFuncs := sa.visibleFuncs ++ [name] } true sa' := by
  rw [collectVisible]
  simp only [returns_bind, returns_get]
  by_cases hknown : (sa.visibleFuncs.any fun f => svEq f name) = true
  · simp [hknown]
  · by_cases hfull : maxFunctionCount ≤ sa.visibleFuncs.length
    · simp [hknown, hfull]
    · simp [hknown, hfull, Nat.lt_of_not_le hfull]

theorem returns_semanticAnalyze {nodes out : List ASTNode} :
    Returns (semanticAnalyze nodes) sa (out, true) sa' ↔
      ∃ sa₁, Returns (collectVisible nodes) sa true sa₁ ∧
        Returns (analyzeNodes nodes) sa₁ (out, true) sa' := by
  unfold semanticAnalyze
  simp [Bool.exists_bool]

end

end TinyCompile.Semantic
