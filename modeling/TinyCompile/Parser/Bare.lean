import TinyCompile.Logic.Yields
import TinyCompile.Parser.Parse

set_option autoImplicit false

/-!
# Parser: the trees it leaves

Whatever the parser returns, with errors or without, has expressions where expressions
belong and statements where statements belong; parts may be missing.  No expression has a
type yet.
-/

namespace TinyCompile.Parser

open TinyCompile.Source TinyCompile.Logic

mutual

/-- An expression as the parser leaves it. -/
def BareExpr : ASTNode → Prop
  | .null => True
  | .number info _ => info.valueType = .void
  | .identifier info _ => info.valueType = .void
  | .binary _ info left right => info.valueType = .void ∧ BareExpr left ∧ BareExpr right
  | .unary _ info operand => info.valueType = .void ∧ BareExpr operand
  | .assignment info _ value => info.valueType = .void ∧ BareExpr value
  | .call info _ args => info.valueType = .void ∧ BareExprs args
  | .varDecl _ _ _ _ | .ifStmt _ _ _ _ | .whileStmt _ _ _ | .block _ _ | .returnStmt _ _
  | .function _ _ _ _ _ _ | .translationUnit _ _ => False

/-- The arguments of a call as the parser leaves them. -/
def BareExprs : List ASTNode → Prop
  | [] => True
  | node :: rest => BareExpr node ∧ BareExprs rest

end

mutual

/-- A statement as the parser leaves it. -/
def BareStmt : ASTNode → Prop
  | .varDecl _ _ _ initializer => BareExpr initializer
  | .ifStmt _ condition thenBranch elseBranch =>
      BareExpr condition ∧ BareStmt thenBranch ∧ BareStmt elseBranch
  | .whileStmt _ condition body => BareExpr condition ∧ BareStmt body
  | .block _ statements => BareStmts statements
  | .returnStmt _ expression => BareExpr expression
  | .null => True
  | .function _ _ _ _ _ _ | .translationUnit _ _ => False
  | .number info value => BareExpr (.number info value)
  | .identifier info name => BareExpr (.identifier info name)
  | .binary op info left right => BareExpr (.binary op info left right)
  | .unary op info operand => BareExpr (.unary op info operand)
  | .assignment info name value => BareExpr (.assignment info name value)
  | .call info name args => BareExpr (.call info name args)

/-- The statements of a block as the parser leaves them. -/
def BareStmts : List ASTNode → Prop
  | [] => True
  | node :: rest => BareStmt node ∧ BareStmts rest

end

/-- A declaration as the parser leaves it: a function has a block, a prototype nothing. -/
def BareDeclaration : ASTNode → Prop
  | .null => True
  | .function _ _ _ _ .null isPrototype => isPrototype = true
  | .function _ _ _ _ (.block _ statements) isPrototype =>
      isPrototype = false ∧ BareStmts statements
  | _ => False

/-- A file as the parser leaves it. -/
def BareUnit : ASTNode → Prop
  | .null => True
  | .translationUnit _ declarations => ∀ node ∈ declarations, BareDeclaration node
  | _ => False

theorem bareExprs_nil : BareExprs [] := trivial

theorem bareStmts_nil : BareStmts [] := trivial

theorem bareExprs_append {nodes nodes' : List ASTNode} :
    BareExprs (nodes ++ nodes') ↔ BareExprs nodes ∧ BareExprs nodes' := by
  induction nodes with
  | nil => simp [BareExprs]
  | cons node nodes ih => simp [BareExprs, ih, and_assoc]

theorem bareStmts_append {nodes nodes' : List ASTNode} :
    BareStmts (nodes ++ nodes') ↔ BareStmts nodes ∧ BareStmts nodes' := by
  induction nodes with
  | nil => simp [BareStmts]
  | cons node nodes ih => simp [BareStmts, ih, and_assoc]

/-- An expression may stand for a statement. -/
theorem BareExpr.stmt {node : ASTNode} (h : BareExpr node) : BareStmt node := by
  cases node with
  | varDecl _ _ _ _ | ifStmt _ _ _ _ | whileStmt _ _ _ | block _ _ | returnStmt _ _
  | function _ _ _ _ _ _ | translationUnit _ _ => exact h.elim
  | _ => exact h

/-- A block of statements without types. -/
def BareBlock (node : ASTNode) : Prop :=
  ∃ info statements, node = .block info statements ∧ BareStmts statements

theorem BareBlock.stmt {node : ASTNode} (h : BareBlock node) : BareStmt node := by
  obtain ⟨info, statements, rfl, hstmts⟩ := h
  exact hstmts

/-! ## Expressions -/

/-- What `parse_expression` and its parts return. -/
abbrev YieldsExpr (x : ParseM ASTNode) : Prop := Yields BareExpr x

/-- What the part of `parse_expression` that is called again returns. -/
abbrev YieldsExprs (expr : Precedence → ParseM ASTNode) : Prop := ∀ p, YieldsExpr (expr p)

section

variable {expr : Precedence → ParseM ASTNode}

theorem parseUnary_bare (h : YieldsExprs expr) : YieldsExpr (parseUnary expr) := by
  unfold parseUnary
  apply yields_after
  intro s
  apply yields_after
  intro addr
  apply yields_seq (h .unary)
  intro operand hoperand
  split
  · exact yields_pure ⟨rfl, hoperand⟩
  · exact yields_pure rfl

theorem callPrefix_bare (h : YieldsExprs expr) (fn : PrefixFn) :
    YieldsExpr (callPrefix expr fn) := by
  cases fn with
  | parseNumber => exact yields_after fun _ => yields_after fun _ => yields_pure rfl
  | parseIdentifier => exact yields_after fun _ => yields_after fun _ => yields_pure rfl
  | parseUnary => exact parseUnary_bare h
  | parseGrouping =>
    exact yields_seq (h .none) fun expression hexpression =>
      yields_after fun _ => yields_pure hexpression

theorem parseBinary_bare (h : YieldsExprs expr) {left : ASTNode} (hleft : BareExpr left) :
    YieldsExpr (parseBinary expr left) := by
  unfold parseBinary
  apply yields_after
  intro s
  apply yields_after
  intro addr
  split
  · apply yields_seq (h _)
    intro right hright
    exact yields_pure ⟨rfl, hleft, hright⟩
  · exact yields_after fun _ => yields_pure trivial

theorem parseAssignment_bare (h : YieldsExprs expr) (left : ASTNode) :
    YieldsExpr (parseAssignment expr left) := by
  unfold parseAssignment
  split
  · exact yields_throw _
  · apply yields_after
    intro addr
    apply yields_seq (h .assignment)
    intro value hvalue
    exact yields_pure ⟨rfl, hvalue⟩
  · exact yields_after fun _ => yields_pure trivial

theorem argTurn_bare (h : YieldsExprs expr) {args : List ASTNode} (hargs : BareExprs args) :
    Yields (TurnYields BareExprs BareExprs) (argTurn expr args) := by
  unfold argTurn
  apply yields_ite
  · intro _
    exact yields_after fun _ => yields_after fun _ => yields_pure hargs
  intro _
  apply yields_seq (h .assignment)
  intro arg harg
  have hmore : BareExprs (args ++ [arg]) := bareExprs_append.mpr ⟨hargs, harg, trivial⟩
  apply yields_ite
  · intro _
    exact yields_after fun _ => yields_pure hargs
  intro _
  apply yields_after
  intro comma
  apply yields_ite
  · exact fun _ => yields_pure hmore
  · exact fun _ => yields_pure hmore

theorem parseCall_bare (h : YieldsExprs expr) (fuel : Nat) (callee : ASTNode) :
    YieldsExpr (parseCall expr fuel callee) := by
  unfold parseCall
  split
  · exact yields_throw _
  · apply yields_after
    intro addr
    apply yields_after
    intro s
    apply yields_ite
    · intro _
      apply yields_seq (yields_pure bareExprs_nil)
      intro args hargs
      exact yields_after fun _ => yields_pure ⟨rfl, hargs⟩
    · intro _
      apply yields_seq (yields_loop (fun args hargs => argTurn_bare h hargs) bareExprs_nil)
      intro args hargs
      exact yields_after fun _ => yields_pure ⟨rfl, hargs⟩
  · exact yields_after fun _ => yields_pure trivial

theorem callInfix_bare (h : YieldsExprs expr) (fuel : Nat) {left : ASTNode}
    (hleft : BareExpr left) (fn : InfixFn) : YieldsExpr (callInfix expr fuel left fn) := by
  cases fn with
  | parseBinary => exact parseBinary_bare h hleft
  | parseAssignment => exact parseAssignment_bare h left
  | parseCall => exact parseCall_bare h fuel left

theorem infixTurn_bare (h : YieldsExprs expr) (fuel : Nat) (precedence : Precedence)
    {left : ASTNode} (hleft : BareExpr left) :
    Yields (TurnYields BareExpr BareExpr) (infixTurn expr fuel precedence left) := by
  unfold infixTurn
  apply yields_after
  intro s
  apply yields_ite
  · intro _
    apply yields_after
    intro _
    split
    · exact yields_seq (callInfix_bare h fuel hleft _) fun _ hnode => yields_pure hnode
    · exact yields_pure hleft
  · exact fun _ => yields_pure hleft

end

/-- Whatever `parse_expression` returns is an expression without types. -/
theorem parseExpression_bare (fuel : Nat) : YieldsExprs (parseExpression fuel) := by
  induction fuel with
  | zero => exact fun p => yields_throw _
  | succ fuel ih =>
    intro precedence
    unfold parseExpression
    apply yields_after
    intro s
    split
    · apply yields_after
      intro _
      split
      · apply yields_seq (callPrefix_bare ih _)
        intro left hleft
        apply yields_seq
          (yields_loop (fun left hleft => infixTurn_bare ih fuel precedence hleft) hleft)
        intro left' hleft'
        exact yields_after fun _ => yields_pure hleft'
      · exact yields_after fun _ => yields_after fun _ => yields_pure trivial
    · exact yields_after fun _ => yields_pure trivial

/-! ## Statements -/

section

variable {expr : Precedence → ParseM ASTNode} {stmt : ParseM ASTNode}

theorem parseVarDecl_bare (h : YieldsExprs expr) : Yields BareStmt (parseVarDecl expr) := by
  unfold parseVarDecl
  apply yields_after
  intro varType
  apply yields_after
  intro s
  apply yields_ite
  · exact fun _ => yields_pure trivial
  intro _
  apply yields_after
  intro _
  apply yields_after
  intro s'
  apply yields_after
  intro equal
  apply yields_ite
  · intro _
    apply yields_seq (h .none)
    intro initializer hinit
    exact yields_after fun _ => yields_after fun _ => yields_pure hinit
  · intro _
    exact yields_seq (R := BareExpr) (yields_pure trivial) fun initializer hinit =>
      yields_after fun _ => yields_after fun _ => yields_pure hinit

theorem parseReturn_bare (h : YieldsExprs expr) : Yields BareStmt (parseReturn expr) := by
  unfold parseReturn
  apply yields_after
  intro _
  apply yields_after
  intro s
  apply yields_ite
  · intro _
    exact yields_seq (R := BareExpr) (yields_pure trivial) fun expression hexpression =>
      yields_after fun _ => yields_after fun _ => yields_pure hexpression
  · intro _
    apply yields_seq (h .none)
    intro expression hexpression
    exact yields_after fun _ => yields_after fun _ => yields_pure hexpression

theorem parseIf_bare (h : YieldsExprs expr) (hstmt : Yields BareStmt stmt) :
    Yields BareStmt (parseIf expr stmt) := by
  unfold parseIf
  apply yields_after
  intro _
  apply yields_after
  intro s
  apply yields_after
  intro _
  apply yields_seq (h .none)
  intro condition hcondition
  apply yields_after
  intro _
  apply yields_seq hstmt
  intro thenBranch hthen
  apply yields_after
  intro els
  apply yields_ite
  · intro _
    apply yields_seq hstmt
    intro elseBranch helse
    exact yields_after fun _ => yields_pure ⟨hcondition, hthen, helse⟩
  · intro _
    exact yields_seq (R := BareStmt) (yields_pure trivial) fun elseBranch helse =>
      yields_after fun _ => yields_pure ⟨hcondition, hthen, helse⟩

theorem parseWhile_bare (h : YieldsExprs expr) (hstmt : Yields BareStmt stmt) :
    Yields BareStmt (parseWhile expr stmt) := by
  unfold parseWhile
  apply yields_after
  intro _
  apply yields_after
  intro s
  apply yields_after
  intro _
  apply yields_seq (h .none)
  intro condition hcondition
  apply yields_after
  intro _
  apply yields_seq hstmt
  intro body hbody
  exact yields_after fun _ => yields_pure ⟨hcondition, hbody⟩

theorem parseExprStmt_bare (h : YieldsExprs expr) : Yields BareStmt (parseExprStmt expr) := by
  unfold parseExprStmt
  apply yields_seq (h .none)
  intro expression hexpression
  exact yields_after fun _ => yields_pure hexpression.stmt

theorem blockTurn_bare (hstmt : Yields BareStmt stmt) {stmts : List ASTNode}
    (hstmts : BareStmts stmts) :
    Yields (TurnYields BareStmts BareStmts) (blockTurn stmt stmts) := by
  unfold blockTurn
  apply yields_after
  intro s
  apply yields_ite
  · exact fun _ => yields_pure hstmts
  intro _
  apply yields_ite
  · intro _
    exact yields_after fun _ => yields_after fun _ => yields_pure hstmts
  intro _
  apply yields_seq hstmt
  intro node hnode
  apply yields_ite
  · intro _
    exact yields_after fun _ => yields_pure hstmts
  · intro _
    exact yields_pure (bareStmts_append.mpr ⟨hstmts, hnode, trivial⟩)

theorem parseBlock_bare (hstmt : Yields BareStmt stmt) (fuel : Nat) :
    Yields BareBlock (parseBlock stmt fuel) := by
  unfold parseBlock
  apply yields_after
  intro _
  apply yields_seq (yields_loop (fun stmts hstmts => blockTurn_bare hstmt hstmts) bareStmts_nil)
  intro stmts hstmts
  exact yields_after fun _ => yields_after fun _ => yields_pure ⟨_, stmts, rfl, hstmts⟩

end

/-- Whatever `parse_statement` returns is a statement without types. -/
theorem parseStatement_bare (fuel : Nat) : Yields BareStmt (parseStatement fuel) := by
  induction fuel with
  | zero => exact yields_throw _
  | succ fuel ih =>
    have hexpr := parseExpression_bare (fuel + 1)
    unfold parseStatement
    apply yields_after
    intro s
    split
    · exact parseVarDecl_bare hexpr
    · exact parseIf_bare hexpr ih
    · exact parseWhile_bare hexpr ih
    · exact parseReturn_bare hexpr
    · exact (parseBlock_bare ih fuel).mono fun _ => BareBlock.stmt
    · exact parseExprStmt_bare hexpr

/-! ## Files -/

theorem parseFunction_bare (fuel : Nat) : Yields BareDeclaration (parseFunction fuel) := by
  unfold parseFunction
  apply yields_after
  intro returnType
  apply yields_after
  intro s
  apply yields_ite
  · exact fun _ => yields_pure trivial
  intro _
  apply yields_after
  intro _
  apply yields_after
  intro s'
  apply yields_after
  intro _
  apply yields_after
  intro params
  apply yields_after
  intro _
  apply yields_after
  intro isPrototype
  apply yields_ite
  · intro hprototype
    apply yields_seq (R := fun body => body = .null) (yields_pure rfl)
    rintro body rfl
    exact yields_after fun _ => yields_after fun _ => yields_pure hprototype
  · intro hdefinition
    apply yields_seq (parseBlock_bare (parseStatement_bare fuel) fuel)
    rintro body ⟨info, statements, rfl, hstmts⟩
    exact yields_after fun _ => yields_after fun _ =>
      yields_pure ⟨Bool.eq_false_iff.mpr hdefinition, hstmts⟩

/-- Whatever `parser_parse` returns is a file without types. -/
theorem parserParse_bare {lexer : TokenStream} {filename : String} {arena : Nat}
    {errors : ErrorContext} {node : ASTNode} {s : Parser}
    (h : parserParse lexer filename arena errors = .ok (node, s)) : BareUnit node := by
  have hunit : ∀ fuel, Yields BareUnit (parseUnit fuel) := by
    intro fuel
    unfold parseUnit
    apply yields_seq (R := fun r => ∀ nodes, r = some nodes → ∀ node ∈ nodes, BareDeclaration node)
    · apply yields_loop (R := fun nodes => ∀ node ∈ nodes, BareDeclaration node)
      · intro nodes hnodes
        unfold declarationTurn
        apply yields_after
        intro s
        apply yields_ite
        · intro _
          apply yields_pure
          rintro _ ⟨⟩
          exact hnodes
        intro _
        apply yields_ite
        · exact fun _ => yields_after fun _ => yields_pure nofun
        intro _
        apply yields_ite
        · intro _
          apply yields_seq (parseFunction_bare fuel)
          intro node hnode
          apply yields_pure
          intro node' hnode'
          rcases List.mem_append.mp hnode' with hmem | hmem
          · exact hnodes node' hmem
          · rwa [List.mem_singleton.mp hmem]
        · exact fun _ => yields_after fun _ => yields_pure nofun
      · exact nofun
    · intro r hr
      split
      · exact yields_after fun _ => yields_pure (hr _ rfl)
      · exact yields_pure trivial
  exact (hunit _).of_ok h

end TinyCompile.Parser
