import TinyCompile.Source.Types

set_option autoImplicit false

/-!
# Source: the abstract syntax tree

`incs/ast.h`.  An `ASTNode` here is an `ASTNode *` of the source: `null` is the
null pointer, which the parser leaves in a tree after an error and where a part
is optional.  The node kinds that share a union member (the fifteen binary and
the three unary operators) share a constructor.
-/

namespace TinyCompile.Source

/-- The binary operator node types, `AST_ADD` to `AST_RSHIFT`. -/
inductive BinaryOp where
  | add | sub | mul | div
  | equal | notEqual | less | lessEqual | greater | greaterEqual
  | bitAnd | bitOr | bitXor | lshift | rshift
  deriving DecidableEq, Repr

/-- The unary operator node types. -/
inductive UnaryOp where
  | negate | not | bitNot
  deriving DecidableEq, Repr

/-- The members every node has beside its type and its union, and the address
of the node, which tells two equal nodes apart. -/
structure NodeInfo where
  addr : Nat
  valueType : DataType
  line : Nat
  column : Nat
  deriving DecidableEq, Repr, Inhabited

/-- `Parameter`. -/
structure Parameter where
  name : StringView
  type : DataType
  deriving DecidableEq, Repr, Inhabited

/-- A pointer to an AST node. -/
inductive ASTNode where
  | null
  | number (info : NodeInfo) (value : StringView)
  | identifier (info : NodeInfo) (name : StringView)
  | binary (op : BinaryOp) (info : NodeInfo) (left right : ASTNode)
  | unary (op : UnaryOp) (info : NodeInfo) (operand : ASTNode)
  | varDecl (info : NodeInfo) (varName : StringView) (varType : DataType)
      (initializer : ASTNode)
  | assignment (info : NodeInfo) (varName : StringView) (value : ASTNode)
  | ifStmt (info : NodeInfo) (condition thenBranch elseBranch : ASTNode)
  | whileStmt (info : NodeInfo) (condition body : ASTNode)
  | block (info : NodeInfo) (statements : List ASTNode)
  | returnStmt (info : NodeInfo) (expression : ASTNode)
  | function (info : NodeInfo) (name : StringView) (returnType : DataType)
      (params : List Parameter) (body : ASTNode) (isPrototype : Bool)
  | translationUnit (info : NodeInfo) (declarations : List ASTNode)
  | call (info : NodeInfo) (functionName : StringView) (args : List ASTNode)
  deriving Inhabited

namespace ASTNode

/-- `node == NULL`. -/
def isNull : ASTNode → Bool
  | null => true
  | _ => false

theorem isNull_iff {node : ASTNode} : node.isNull = true ↔ node = null := by
  cases node <;> simp [isNull]

/-- The common members of a node; `none` for the null pointer. -/
def info? : ASTNode → Option NodeInfo
  | null => none
  | number info _ | identifier info _ | binary _ info _ _ | unary _ info _
  | varDecl info _ _ _ | assignment info _ _ | ifStmt info _ _ _ | whileStmt info _ _
  | block info _ | returnStmt info _ | function info _ _ _ _ _ | translationUnit info _
  | call info _ _ => some info

/-- `node->value_type`; `none` where the pointer is null. -/
def valueType? (node : ASTNode) : Option DataType := node.info?.map (·.valueType)

/-- The parameters of a function node. -/
def params : ASTNode → List Parameter
  | function _ _ _ ps _ _ => ps
  | _ => []

end ASTNode

/-- What declares a variable of a function: its parameter number `i`, or the
declaration node at an address. -/
inductive Decl where
  | param (i : Nat)
  | var (node : Nat)
  deriving DecidableEq, Repr

/-! ## Trees without missing parts -/

mutual

/-- An expression with every operand, as the parser builds it when it reports no
error: a call has at most `MAX_PARAMS_PER_FUNCTION` arguments. -/
def ASTNode.CompleteExpr : ASTNode → Prop
  | .number _ _ => True
  | .identifier _ _ => True
  | .binary _ _ left right => left.CompleteExpr ∧ right.CompleteExpr
  | .unary _ _ operand => operand.CompleteExpr
  | .assignment _ _ value => value.CompleteExpr
  | .call _ _ args => args.length ≤ maxParamsPerFunction ∧ CompleteArgs args
  | _ => False

/-- Every argument of a call is complete. -/
def CompleteArgs : List ASTNode → Prop
  | [] => True
  | arg :: rest => arg.CompleteExpr ∧ CompleteArgs rest

end

mutual

/-- A statement with every part the grammar requires. -/
def ASTNode.CompleteStmt : ASTNode → Prop
  | .varDecl _ _ _ initializer => initializer.isNull = true ∨ initializer.CompleteExpr
  | .returnStmt _ expression => expression.isNull = true ∨ expression.CompleteExpr
  | .ifStmt _ condition thenBranch elseBranch =>
      condition.CompleteExpr ∧ thenBranch.CompleteStmt ∧
        (elseBranch.isNull = true ∨ elseBranch.CompleteStmt)
  | .whileStmt _ condition body => condition.CompleteExpr ∧ body.CompleteStmt
  | .block _ statements => CompleteStmts statements
  | .null => False
  | .function _ _ _ _ _ _ => False
  | .translationUnit _ _ => False
  | .number info value => (ASTNode.number info value).CompleteExpr
  | .identifier info name => (ASTNode.identifier info name).CompleteExpr
  | .binary op info left right => (ASTNode.binary op info left right).CompleteExpr
  | .unary op info operand => (ASTNode.unary op info operand).CompleteExpr
  | .assignment info varName value => (ASTNode.assignment info varName value).CompleteExpr
  | .call info functionName args => (ASTNode.call info functionName args).CompleteExpr

/-- Every statement of a block is complete. -/
def CompleteStmts : List ASTNode → Prop
  | [] => True
  | stmt :: rest => stmt.CompleteStmt ∧ CompleteStmts rest

end

/-- A function definition as the parser builds it when it reports no error. -/
def ASTNode.CompleteFunction : ASTNode → Prop
  | .function _ _ _ _ (.block _ statements) isPrototype =>
      isPrototype = false ∧ CompleteStmts statements
  | _ => False

end TinyCompile.Source
