import TinyCompile.Source.Ast

set_option autoImplicit false

/-!
# Source: exchanging two operands

The operation on trees, and what the operands are asked for: that there is no call in them.
A node is named by its address.
-/

namespace TinyCompile.Source

/-- The operators whose operands may be exchanged in arithmetic. -/
def commutes : BinaryOp → Bool
  | .add | .mul | .bitAnd | .bitOr | .bitXor | .equal | .notEqual => true
  | _ => false

mutual

/-- The nodes of a tree. -/
def ASTNode.subnodes : ASTNode → List ASTNode
  | .null => []
  | .number info value => [.number info value]
  | .identifier info name => [.identifier info name]
  | .binary op info left right => .binary op info left right :: (left.subnodes ++ right.subnodes)
  | .unary op info operand => .unary op info operand :: operand.subnodes
  | .varDecl info varName varType initializer =>
      .varDecl info varName varType initializer :: initializer.subnodes
  | .assignment info varName value => .assignment info varName value :: value.subnodes
  | .ifStmt info condition thenBranch elseBranch =>
      .ifStmt info condition thenBranch elseBranch ::
        (condition.subnodes ++ thenBranch.subnodes ++ elseBranch.subnodes)
  | .whileStmt info condition body =>
      .whileStmt info condition body :: (condition.subnodes ++ body.subnodes)
  | .block info statements => .block info statements :: subnodesAll statements
  | .returnStmt info expression => .returnStmt info expression :: expression.subnodes
  | .function info name returnType params body isPrototype =>
      .function info name returnType params body isPrototype :: body.subnodes
  | .translationUnit info declarations =>
      .translationUnit info declarations :: subnodesAll declarations
  | .call info functionName args => .call info functionName args :: subnodesAll args

/-- The nodes of some trees. -/
def subnodesAll : List ASTNode → List ASTNode
  | [] => []
  | node :: rest => node.subnodes ++ subnodesAll rest

end

/-- The node is a call. -/
def ASTNode.isCall : ASTNode → Bool
  | .call _ _ _ => true
  | _ => false

/-- There is a call in the tree. -/
def ASTNode.hasCall (node : ASTNode) : Bool := node.subnodes.any ASTNode.isCall

mutual

/-- Exchange the operands of the binary operator at an address. -/
def ASTNode.exchange (addr : Nat) : ASTNode → ASTNode
  | .null => .null
  | .number info value => .number info value
  | .identifier info name => .identifier info name
  | .binary op info left right =>
      if info.addr = addr then .binary op info (right.exchange addr) (left.exchange addr)
      else .binary op info (left.exchange addr) (right.exchange addr)
  | .unary op info operand => .unary op info (operand.exchange addr)
  | .varDecl info varName varType initializer =>
      .varDecl info varName varType (initializer.exchange addr)
  | .assignment info varName value => .assignment info varName (value.exchange addr)
  | .ifStmt info condition thenBranch elseBranch =>
      .ifStmt info (condition.exchange addr) (thenBranch.exchange addr) (elseBranch.exchange addr)
  | .whileStmt info condition body =>
      .whileStmt info (condition.exchange addr) (body.exchange addr)
  | .block info statements => .block info (exchangeAll addr statements)
  | .returnStmt info expression => .returnStmt info (expression.exchange addr)
  | .function info name returnType params body isPrototype =>
      .function info name returnType params (body.exchange addr) isPrototype
  | .translationUnit info declarations =>
      .translationUnit info (exchangeAll addr declarations)
  | .call info functionName args => .call info functionName (exchangeAll addr args)

/-- Exchange in every tree of a list. -/
def exchangeAll (addr : Nat) : List ASTNode → List ASTNode
  | [] => []
  | node :: rest => node.exchange addr :: exchangeAll addr rest

end

section

variable (addr : Nat)

@[simp] theorem isNull_exchange (node : ASTNode) : (node.exchange addr).isNull = node.isNull := by
  cases node with
  | binary op info left right =>
    unfold ASTNode.exchange
    split <;> rfl
  | _ => rfl

theorem length_exchangeAll (nodes : List ASTNode) :
    (exchangeAll addr nodes).length = nodes.length := by
  induction nodes with
  | nil => rfl
  | cons node rest ih => exact congrArg Nat.succ ih

end

end TinyCompile.Source
