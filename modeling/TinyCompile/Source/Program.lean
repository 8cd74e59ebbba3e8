import TinyCompile.Source.Ast

set_option autoImplicit false

/-!
# Source: programs

The language without the parser's representation: no null pointers, no positions, no
annotations.  `ASTNode.expr?` and its companions read a tree back as a program, where
no required part is missing.
-/

namespace TinyCompile.Source

/-- Expressions. -/
inductive Expr where
  | number (text : StringView)
  | identifier (name : StringView)
  | binary (op : BinaryOp) (left right : Expr)
  | unary (op : UnaryOp) (operand : Expr)
  | assignment (varName : StringView) (value : Expr)
  | call (functionName : StringView) (args : List Expr)

/-- Statements. -/
inductive Stmt where
  | expr (e : Expr)
  | varDecl (varName : StringView) (varType : DataType) (initializer : Option Expr)
  | ifThen (condition : Expr) (thenBranch : Stmt)
  | ifElse (condition : Expr) (thenBranch elseBranch : Stmt)
  | whileLoop (condition : Expr) (body : Stmt)
  | block (statements : List Stmt)
  | ret (expression : Option Expr)

/-- A function; a prototype has no body. -/
structure Function where
  name : StringView
  returnType : DataType
  params : List Parameter
  body : Option (List Stmt)

/-- A translation unit. -/
abbrev TranslationUnit : Type := List Function

/-! ## Reading a tree back -/

mutual

/-- The expression a tree represents. -/
def ASTNode.expr? : ASTNode → Option Expr
  | .number _ value => some (.number value)
  | .identifier _ name => some (.identifier name)
  | .binary op _ left right => do return .binary op (← left.expr?) (← right.expr?)
  | .unary op _ operand => do return .unary op (← operand.expr?)
  | .assignment _ varName value => do return .assignment varName (← value.expr?)
  | .call _ functionName args => do return .call functionName (← exprs? args)
  | _ => none

/-- The expressions of a list of trees. -/
def exprs? : List ASTNode → Option (List Expr)
  | [] => some []
  | node :: rest => do return (← node.expr?) :: (← exprs? rest)

end

/-- An optional expression: the null pointer where it is absent. -/
def ASTNode.optionalExpr? (node : ASTNode) : Option (Option Expr) :=
  if node.isNull then some none else node.expr?.map some

mutual

/-- The statement a tree represents. -/
def ASTNode.stmt? : ASTNode → Option Stmt
  | .varDecl _ varName varType initializer =>
      initializer.optionalExpr?.map (.varDecl varName varType)
  | .ifStmt _ condition thenBranch elseBranch => do
      let c ← condition.expr?
      let t ← thenBranch.stmt?
      if elseBranch.isNull then return .ifThen c t
      else return .ifElse c t (← elseBranch.stmt?)
  | .whileStmt _ condition body => do return .whileLoop (← condition.expr?) (← body.stmt?)
  | .block _ statements => (stmts? statements).map .block
  | .returnStmt _ expression => expression.optionalExpr?.map .ret
  | node => node.expr?.map .expr

/-- The statements of a list of trees. -/
def stmts? : List ASTNode → Option (List Stmt)
  | [] => some []
  | node :: rest => do return (← node.stmt?) :: (← stmts? rest)

end

/-- The statements of a block. -/
def ASTNode.body? : ASTNode → Option (List Stmt)
  | .block _ statements => stmts? statements
  | _ => none

/-- The function a tree represents. -/
def ASTNode.function? : ASTNode → Option Function
  | .function _ name returnType params body isPrototype =>
      if isPrototype then some ⟨name, returnType, params, none⟩
      else body.body?.map fun b => ⟨name, returnType, params, some b⟩
  | _ => none

/-- The translation unit a tree represents. -/
def ASTNode.unit? : ASTNode → Option TranslationUnit
  | .translationUnit _ declarations => declarations.mapM ASTNode.function?
  | _ => none

/-! ## Lists of trees -/

theorem exprs?_eq (nodes : List ASTNode) : exprs? nodes = nodes.mapM ASTNode.expr? := by
  induction nodes with
  | nil => rfl
  | cons node nodes ih => simp [exprs?, ih]

theorem stmts?_eq (nodes : List ASTNode) : stmts? nodes = nodes.mapM ASTNode.stmt? := by
  induction nodes with
  | nil => rfl
  | cons node nodes ih => simp [stmts?, ih]

/-- One more tree at the end. -/
theorem mapM_snoc {α β : Type} {f : α → Option β} {l : List α} {a : α} {bs : List β} {b : β}
    (h : l.mapM f = some bs) (hb : f a = some b) : (l ++ [a]).mapM f = some (bs ++ [b]) := by
  simp [List.mapM_append, h, hb]

/-- What represents an expression is there. -/
theorem ASTNode.isNull_of_expr? {node : ASTNode} {e : Expr} (h : node.expr? = some e) :
    node.isNull = false := by
  cases node with
  | null => simp [expr?] at h
  | _ => rfl

theorem ASTNode.isNull_of_stmt? {node : ASTNode} {st : Stmt} (h : node.stmt? = some st) :
    node.isNull = false := by
  cases node with
  | null => simp [stmt?, expr?] at h
  | _ => rfl

/-- An expression as a statement. -/
theorem ASTNode.stmt?_of_expr? {node : ASTNode} {e : Expr} (h : node.expr? = some e) :
    node.stmt? = some (.expr e) := by
  cases node <;> simp_all [stmt?, expr?]

theorem ASTNode.optionalExpr?_of_expr? {node : ASTNode} {e : Expr} (h : node.expr? = some e) :
    node.optionalExpr? = some (some e) := by
  unfold optionalExpr?
  rw [node.isNull_of_expr? h, h]
  rfl

end TinyCompile.Source
