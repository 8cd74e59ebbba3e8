import TinyCompile.Parser.State

set_option autoImplicit false

/-!
# Parser: expressions, statements, files

`srcs/parser/parser_expr.c`, `srcs/parser/parser_stmt.c` and `srcs/parser/parser.c`.

The recursion goes through `parse_expression` and `parse_statement`.  Both take a bound
on the depth of their calls, which also bounds the turns of each loop; the functions in
between get them as `expr` and `stmt`.  The body of each loop is a definition of its own.
-/

namespace TinyCompile.Parser

open TinyCompile.Source TinyCompile.Logic

/-! ## Expressions -/

/-- `expr_depth++`. -/
def Parser.enterExpression (s : Parser) (h : s.exprDepth < maxExpressionDepth) : Parser :=
  { s with
    exprDepth := s.exprDepth + 1
    depthLe := h }

/-- `expr_depth--`. -/
def Parser.leaveExpression (s : Parser) : Parser :=
  { s with
    exprDepth := s.exprDepth - 1
    depthLe := Nat.le_trans (Nat.sub_le _ _) s.depthLe }

/-- The node type `parse_unary` selects. -/
def unaryOp : TokenType → Option UnaryOp
  | .minus => some .negate
  | .bang => some .not
  | .bitNot => some .bitNot
  | _ => none

/-- The node type `parse_binary` selects. -/
def binaryOp : TokenType → Option BinaryOp
  | .plus => some .add
  | .minus => some .sub
  | .star => some .mul
  | .slash => some .div
  | .equalEqual => some .equal
  | .bangEqual => some .notEqual
  | .less => some .less
  | .lessEqual => some .lessEqual
  | .greater => some .greater
  | .greaterEqual => some .greaterEqual
  | .lshift => some .lshift
  | .rshift => some .rshift
  | .bitAnd => some .bitAnd
  | .bitOr => some .bitOr
  | .bitXor => some .bitXor
  | _ => none

/-- `parse_number`. -/
def parseNumber : ParseM ASTNode := do
  let addr ← newNode
  let s ← get
  return .number ⟨addr, .void, s.current.line, 0⟩ s.current.text

/-- `parse_identifier`. -/
def parseIdentifier : ParseM ASTNode := do
  let addr ← newNode
  let s ← get
  return .identifier ⟨addr, .void, s.current.line, 0⟩ s.current.text

/-- `parse_unary`. -/
def parseUnary (expr : Precedence → ParseM ASTNode) : ParseM ASTNode := do
  let s ← get
  let addr ← newNode
  let operand ← expr .unary
  match unaryOp s.current.type with
  | some op => return .unary op ⟨addr, .void, 0, 0⟩ operand
  -- `AST_NUMBER`; the rule table has no such token
  | none => return .number ⟨addr, .void, 0, 0⟩ []

/-- `parse_grouping`. -/
def parseGrouping (expr : Precedence → ParseM ASTNode) : ParseM ASTNode := do
  let expression ← expr .none
  modify (parserConsume · .rparen "Expect ')' after expression.")
  return expression

/-- The call through `rules[...].prefix`. -/
def callPrefix (expr : Precedence → ParseM ASTNode) : PrefixFn → ParseM ASTNode
  | .parseNumber => parseNumber
  | .parseIdentifier => parseIdentifier
  | .parseUnary => parseUnary expr
  | .parseGrouping => parseGrouping expr

/-- `parse_binary`. -/
def parseBinary (expr : Precedence → ParseM ASTNode) (left : ASTNode) : ParseM ASTNode := do
  let s ← get
  let addr ← newNode
  match binaryOp s.current.type with
  | some op =>
      let right ← expr (getTokenPrecedence s.current.type)
      return .binary op ⟨addr, .void, 0, 0⟩ left right
  | none =>
      modify (parserError · "invalid binary operator")
      return .null

/-- `parse_assignment`. -/
def parseAssignment (expr : Precedence → ParseM ASTNode) (left : ASTNode) : ParseM ASTNode :=
  match left with
  | .null => throw .nullPointer
  | .identifier _ name => do
      let addr ← newNode
      let value ← expr .assignment
      return .assignment ⟨addr, .void, 0, 0⟩ name value
  | _ => do
      modify (parserError · "Invalid assignment target")
      return .null

/-- A turn of the loop over the arguments of `parse_call`. -/
def argTurn (expr : Precedence → ParseM ASTNode) (args : List ASTNode) :
    ParseM (Turn (List ASTNode) (List ASTNode)) := do
  if args.length ≥ maxParamsPerFunction then
    modify (parserError · s!"Too many arguments (max {maxParamsPerFunction})")
    modify parserSynchronize
    return .leave args
  let arg ← expr .assignment
  if arg.isNull then
    modify parserSynchronize
    return .leave args
  if ← matchToken .comma then return .again (args ++ [arg])
  else return .leave (args ++ [arg])

/-- `parse_call`. -/
def parseCall (expr : Precedence → ParseM ASTNode) (fuel : Nat) (callee : ASTNode) :
    ParseM ASTNode :=
  match callee with
  | .null => throw .nullPointer
  | .identifier info name => do
      let addr ← newNode
      let s ← get
      let args ← if s.next.type = .rparen then pure [] else loop .outOfFuel (argTurn expr) fuel []
      modify (parserConsume · .rparen "Expected ')' after arguments")
      return .call ⟨addr, .void, info.line, info.column⟩ name args
  | _ => do
      modify (parserError · "Can only call functions")
      return .null

/-- The call through `rules[...].infix`. -/
def callInfix (expr : Precedence → ParseM ASTNode) (fuel : Nat) (left : ASTNode) :
    InfixFn → ParseM ASTNode
  | .parseBinary => parseBinary expr left
  | .parseAssignment => parseAssignment expr left
  | .parseCall => parseCall expr fuel left

/-- A turn of the loop of `parse_expression`. -/
def infixTurn (expr : Precedence → ParseM ASTNode) (fuel : Nat) (precedence : Precedence)
    (left : ASTNode) : ParseM (Turn ASTNode ASTNode) := do
  let s ← get
  if precedence.rank < (getTokenPrecedence s.next.type).rank then
    set (parserAdvance s)
    match (rules s.next.type).infixFn with
    | some fn => return .again (← callInfix expr fuel left fn)
    | none => return .again left
  else return .leave left

/-- `parse_expression`. -/
def parseExpression : Nat → Precedence → ParseM ASTNode
  | 0, _ => throw .outOfFuel
  | fuel + 1, precedence => do
      let s ← get
      if h : s.exprDepth < maxExpressionDepth then
        set (parserAdvance (s.enterExpression h))
        match (rules s.next.type).prefixFn with
        | some fn =>
            let left ← callPrefix (parseExpression fuel) fn
            let left ← loop .outOfFuel (infixTurn (parseExpression fuel) fuel precedence) fuel left
            modify Parser.leaveExpression
            return left
        | none =>
            modify (parserError · "Expect expression")
            modify Parser.leaveExpression
            return .null
      else
        set (parserError s s!"Expression too deeply nested (max {maxExpressionDepth})")
        return .null

/-! ## Statements -/

/-- `parse_var_decl`. -/
def parseVarDecl (expr : Precedence → ParseM ASTNode) : ParseM ASTNode := do
  let varType ← parseType
  if (← get).panicMode then return .null
  modify (parserConsume · .identifier "expected variable name")
  let s ← get
  let initializer ← if ← matchToken .equal then expr .none else pure .null
  modify (parserConsume · .semicolon "expected ';'")
  let addr ← newNode
  return .varDecl ⟨addr, varType, s.current.line, 0⟩ s.current.text varType initializer

/-- `parse_return`. -/
def parseReturn (expr : Precedence → ParseM ASTNode) : ParseM ASTNode := do
  modify (parserConsume · .returnKw "expected 'return'")
  let s ← get
  let expression ← if s.next.type = .semicolon then pure .null else expr .none
  modify (parserConsume · .semicolon "expected ';'")
  let addr ← newNode
  return .returnStmt ⟨addr, .void, s.current.line, 0⟩ expression

/-- `parse_if`. -/
def parseIf (expr : Precedence → ParseM ASTNode) (stmt : ParseM ASTNode) : ParseM ASTNode := do
  modify (parserConsume · .ifKw "expected 'if'")
  let s ← get
  modify (parserConsume · .lparen "expected '('")
  let condition ← expr .none
  modify (parserConsume · .rparen "expected ')'")
  let thenBranch ← stmt
  let elseBranch ← if ← matchToken .elseKw then stmt else pure .null
  let addr ← newNode
  return .ifStmt ⟨addr, .void, s.current.line, 0⟩ condition thenBranch elseBranch

/-- `parse_while`. -/
def parseWhile (expr : Precedence → ParseM ASTNode) (stmt : ParseM ASTNode) :
    ParseM ASTNode := do
  modify (parserConsume · .whileKw "expected 'while'")
  let s ← get
  modify (parserConsume · .lparen "expected '('")
  let condition ← expr .none
  modify (parserConsume · .rparen "expected ')'")
  let body ← stmt
  let addr ← newNode
  return .whileStmt ⟨addr, .void, s.current.line, 0⟩ condition body

/-- `parse_expr_stmt`. -/
def parseExprStmt (expr : Precedence → ParseM ASTNode) : ParseM ASTNode := do
  let expression ← expr .none
  modify (parserConsume · .semicolon "expected ';'")
  return expression

/-- A turn of the loop of `parse_block`. -/
def blockTurn (stmt : ParseM ASTNode) (stmts : List ASTNode) :
    ParseM (Turn (List ASTNode) (List ASTNode)) := do
  let s ← get
  if s.next.type = .rbrace ∨ s.next.type = .eof then return .leave stmts
  if stmts.length ≥ maxBlockStatements then
    modify (parserError · s!"Block too large (max {maxBlockStatements} statements)")
    modify parserSynchronize
    return .leave stmts
  let node ← stmt
  if node.isNull then
    modify parserSynchronize
    return .again stmts
  else return .again (stmts ++ [node])

/-- `parse_block`. -/
def parseBlock (stmt : ParseM ASTNode) (fuel : Nat) : ParseM ASTNode := do
  modify (parserConsume · .lbrace "Expected '\x7b'")
  let stmts ← loop .outOfFuel (blockTurn stmt) fuel []
  modify (parserConsume · .rbrace "Expected '\x7d'")
  let addr ← newNode
  return .block ⟨addr, .void, 0, 0⟩ stmts

/-- `parse_statement`. -/
def parseStatement : Nat → ParseM ASTNode
  | 0 => throw .outOfFuel
  | fuel + 1 => do
      let s ← get
      match (rules s.next.type).stmtFn with
      | some .parseVarDecl => parseVarDecl (parseExpression (fuel + 1))
      | some .parseIf => parseIf (parseExpression (fuel + 1)) (parseStatement fuel)
      | some .parseWhile => parseWhile (parseExpression (fuel + 1)) (parseStatement fuel)
      | some .parseReturn => parseReturn (parseExpression (fuel + 1))
      | some .parseBlock => parseBlock (parseStatement fuel) fuel
      | none => parseExprStmt (parseExpression (fuel + 1))

/-! ## Functions and files -/

/-- The number of elements `parse_function` allocates for parameters. -/
def paramCapacity : Nat := 16

/-- A turn of the loop over the parameters of `parse_function`. -/
def paramTurn (params : List Parameter) :
    ParseM (Turn (List Parameter) (List Parameter)) := do
  let paramType ← parseType
  modify (parserConsume · .identifier "expected parameter name")
  let s ← get
  if params.length ≥ paramCapacity then
    set { s with overrun := true }
  let params := params ++ [⟨s.current.text, paramType⟩]
  if ← matchToken .comma then return .again params else return .leave params

/-- What stands between the parentheses of a function. -/
def parseParamList (fuel : Nat) : ParseM (List Parameter) := do
  let s ← get
  if s.next.type = .rparen then return []
  if s.next.type = .void then
    set (parserAdvance s)
    return []
  loop .outOfFuel paramTurn fuel []

/-- `parse_function`. -/
def parseFunction (fuel : Nat) : ParseM ASTNode := do
  let returnType ← parseType
  if (← get).panicMode then return .null
  modify (parserConsume · .identifier "expected function name.")
  let s ← get
  modify (parserConsume · .lparen "expected '(' after function name.")
  let params ← parseParamList fuel
  modify (parserConsume · .rparen "expected ')' after parameters.")
  let isPrototype ← matchToken .semicolon
  let body ← if isPrototype then pure .null else parseBlock (parseStatement fuel) fuel
  let addr ← newNode
  let s' ← get
  return .function ⟨addr, returnType, s.current.line, s'.current.column⟩ s.current.text
    returnType params body isPrototype

/-- A turn of the loop of `parser_parse`; it leaves with `none` where the source returns a
null pointer. -/
def declarationTurn (fuel : Nat) (declarations : List ASTNode) :
    ParseM (Turn (List ASTNode) (Option (List ASTNode))) := do
  let s ← get
  if s.next.type = .eof then return .leave (some declarations)
  if declarations.length ≥ maxFunctionCount then
    set (parserError s s!"too many global declarations (max {maxFunctionCount})")
    return .leave none
  if isTypeKeyword s.next.text then
    let node ← parseFunction fuel
    return .again (declarations ++ [node])
  else
    set (parserError s "expected function declaration.")
    return .leave none

/-- The state behind the first `parser_advance` of `parser_parse`. -/
def parserInit (lexer : TokenStream) (filename : String) (arena : Nat)
    (errors : ErrorContext) : Parser where
  lexer := lexer.nextProper.2
  filename := filename
  errors := errors
  current := .zero
  next := lexer.nextProper.1
  panicMode := false
  exprDepth := 0
  arena := arena
  overrun := false
  lexical := lexer.nextProper_lexical
  drained := lexer.nextProper_drained
  depthLe := Nat.zero_le _

/-- `parser_parse` from the state behind the first `parser_advance`. -/
def parseUnit (fuel : Nat) : ParseM ASTNode := do
  match ← loop .outOfFuel (declarationTurn fuel) (fuel + 1) [] with
  | some declarations =>
      let addr ← newNode
      return .translationUnit ⟨addr, .void, 0, 0⟩ declarations
  | none => return .null

/-- `parser_parse`; a call or a turn of a loop for every token is enough. -/
def parserParse (lexer : TokenStream) (filename : String) (arena : Nat)
    (errors : ErrorContext) : Except Stop (ASTNode × Parser) :=
  parseUnit (lexer.proper.length + 1) (parserInit lexer filename arena errors)

end TinyCompile.Parser
