import TinyCompile.Parser.Bare
import TinyCompile.Semantic.Typing

set_option autoImplicit false

/-!
# Semantic: void operands

The analyzer compares types where a value is stored, passed or returned, and nowhere else:
it does not ask whether an operand of an operator or a condition has a value.  A tree that
it accepts has integers there if and only if the source has no expression without a value
in such a place, and nothing in it that the analyzer does not look at.
-/

namespace TinyCompile.Semantic

open TinyCompile.Source TinyCompile.Parser

/-! ## Operands and conditions -/

mutual

/-- The operands of operators and the conditions of `if` and `while` in a tree. -/
def operands : ASTNode → List ASTNode
  | .binary _ _ left right => left :: right :: (operands left ++ operands right)
  | .unary _ _ operand => operand :: operands operand
  | .assignment _ _ value => operands value
  | .call _ _ args => operandsAll args
  | .varDecl _ _ _ initializer => operands initializer
  | .ifStmt _ condition thenBranch elseBranch =>
      condition :: (operands condition ++ operands thenBranch ++ operands elseBranch)
  | .whileStmt _ condition body => condition :: (operands condition ++ operands body)
  | .block _ statements => operandsAll statements
  | .returnStmt _ expression => operands expression
  | .function _ _ _ _ body _ => operands body
  | .translationUnit _ declarations => operandsAll declarations
  | .null | .number _ _ | .identifier _ _ => []

/-- The operands and conditions in a list of trees. -/
def operandsAll : List ASTNode → List ASTNode
  | [] => []
  | node :: rest => operands node ++ operandsAll rest

end

/-- The `value_type` of a node is an integer type. -/
def HasIntegerType (node : ASTNode) : Prop :=
  ∃ type, node.valueType? = some type ∧ typeIsInteger type = true

/-- Every operand and every condition in a tree has an integer type. -/
def OperandsInteger (node : ASTNode) : Prop := ∀ o ∈ operands node, HasIntegerType o

/-- The same for a list of trees. -/
def AllOperandsInteger (nodes : List ASTNode) : Prop := ∀ o ∈ operandsAll nodes, HasIntegerType o

/-! ## Expressions without a value -/

/-- An expression without a value: a variable of type `void`, a call of a function of type
`void`, an assignment, or nothing at all.  `fns` are the types of the functions. -/
def isVoid (fns : StringView → Option DataType) (vars : Vars) : ASTNode → Bool
  | .identifier _ name => (vars.find name).any fun var => var.type == .void
  | .call _ functionName _ => fns functionName == some .void
  | .assignment _ _ _ => true
  | .null => true
  | _ => false

mutual

/-- No operand in an expression is without a value, the operator `>` does not occur, and no
operator stands inside an assignment that is an expression. -/
def VoidFreeExpr (fns : StringView → Option DataType) (vars : Vars) : ASTNode → Prop
  | .binary op _ left right =>
      op ≠ .greater ∧ isVoid fns vars left = false ∧ isVoid fns vars right = false ∧
        VoidFreeExpr fns vars left ∧ VoidFreeExpr fns vars right
  | .unary _ _ operand => isVoid fns vars operand = false ∧ VoidFreeExpr fns vars operand
  | .call _ _ args => VoidFreeExprs fns vars args
  | .assignment _ _ value => operands value = []
  | _ => True

/-- The same for the arguments of a call. -/
def VoidFreeExprs (fns : StringView → Option DataType) (vars : Vars) : List ASTNode → Prop
  | [] => True
  | node :: rest => VoidFreeExpr fns vars node ∧ VoidFreeExprs fns vars rest

end

/-- The variables in scope behind a statement. -/
def scopeAfter : Vars → ASTNode → Vars
  | vars, .varDecl info varName varType _ => declared info varName varType :: vars
  | vars, .ifStmt _ _ thenBranch elseBranch => scopeAfter (scopeAfter vars thenBranch) elseBranch
  | vars, .whileStmt _ _ body => scopeAfter vars body
  | vars, _ => vars

mutual

/-- No condition and no operand in a statement is without a value. -/
def VoidFreeStmt (fns : StringView → Option DataType) : Vars → ASTNode → Prop
  | vars, .varDecl _ _ _ initializer => VoidFreeExpr fns vars initializer
  | vars, .assignment _ _ value => VoidFreeExpr fns vars value
  | vars, .returnStmt _ expression => VoidFreeExpr fns vars expression
  | vars, .ifStmt _ condition thenBranch elseBranch =>
      isVoid fns vars condition = false ∧ VoidFreeExpr fns vars condition ∧
        VoidFreeStmt fns vars thenBranch ∧ VoidFreeStmt fns (scopeAfter vars thenBranch) elseBranch
  | vars, .whileStmt _ condition body =>
      isVoid fns vars condition = false ∧ VoidFreeExpr fns vars condition ∧
        VoidFreeStmt fns vars body
  | vars, .block _ statements => VoidFreeStmts fns vars statements
  | vars, .binary op info left right => VoidFreeExpr fns vars (.binary op info left right)
  | vars, .unary op info operand => VoidFreeExpr fns vars (.unary op info operand)
  | vars, .call info functionName args => VoidFreeExpr fns vars (.call info functionName args)
  | _, _ => True

/-- The same for the statements of a block, in order. -/
def VoidFreeStmts (fns : StringView → Option DataType) : Vars → List ASTNode → Prop
  | _, [] => True
  | vars, stmt :: rest => VoidFreeStmt fns vars stmt ∧ VoidFreeStmts fns (scopeAfter vars stmt) rest

end

/-- The same for the body of a function. -/
def VoidFreeFunction (fns : StringView → Option DataType) : ASTNode → Prop
  | .function info _ _ params (.block _ statements) _ =>
      VoidFreeStmts fns (paramVars info.line params 0 []) statements
  | _ => True

/-! ## Trees without types -/

theorem not_hasIntegerType_null : ¬ HasIntegerType .null := by
  rintro ⟨type, htype, -⟩
  cases htype

theorem hasIntegerType_iff {node : ASTNode} {type : DataType} (h : node.valueType? = some type) :
    HasIntegerType node ↔ type ≠ .void := by
  constructor
  · rintro ⟨type', htype', hinteger⟩ rfl
    rw [h] at htype'
    cases htype'
    cases hinteger
  · intro hne
    exact ⟨type, h, by simpa [typeIsInteger] using hne⟩

theorem bare_not_hasIntegerType {node : ASTNode} (h : BareExpr node) :
    ¬ HasIntegerType node := by
  rintro ⟨type, htype, hinteger⟩
  have hvoid : type = .void := by
    cases node with
    | null => cases htype
    | number info value | identifier info name =>
      cases htype
      exact h
    | binary op info left right =>
      cases htype
      exact h.1
    | unary op info operand =>
      cases htype
      exact h.1
    | assignment info varName value =>
      cases htype
      exact h.1
    | call info functionName args =>
      cases htype
      exact h.1
    | _ => exact h.elim
  rw [hvoid] at hinteger
  cases hinteger

mutual

/-- No operand of a tree without types has an integer type. -/
theorem bare_operands {node : ASTNode} (h : BareExpr node) :
    ∀ o ∈ operands node, BareExpr o := by
  cases node with
  | binary op info left right =>
    intro o ho
    simp only [operands, List.mem_cons, List.mem_append] at ho
    rcases ho with rfl | rfl | hleft | hright
    · exact h.2.1
    · exact h.2.2
    · exact bare_operands h.2.1 o hleft
    · exact bare_operands h.2.2 o hright
  | unary op info operand =>
    intro o ho
    simp only [operands, List.mem_cons] at ho
    rcases ho with rfl | hmem
    · exact h.2
    · exact bare_operands h.2 o hmem
  | assignment info varName value =>
    have hvalue := bare_operands (show BareExpr value from h.2)
    exact hvalue
  | call info functionName args => exact bare_operandsAll h.2
  | null | number _ _ | identifier _ _ => exact nofun
  | _ => exact h.elim

theorem bare_operandsAll {nodes : List ASTNode} (h : BareExprs nodes) :
    ∀ o ∈ operandsAll nodes, BareExpr o := by
  cases nodes with
  | nil => exact nofun
  | cons node rest =>
    intro o ho
    simp only [operandsAll, List.mem_append] at ho
    rcases ho with hnode | hrest
    · exact bare_operands h.1 o hnode
    · exact bare_operandsAll h.2 o hrest

end

/-- Operands without types are integers only where there are none. -/
theorem bare_operandsInteger_iff {node : ASTNode} (h : BareExpr node) :
    OperandsInteger node ↔ operands node = [] := by
  constructor
  · intro hall
    apply List.eq_nil_iff_forall_not_mem.mpr
    intro o ho
    exact bare_not_hasIntegerType (bare_operands h o ho) (hall o ho)
  · intro hnone o ho
    rw [hnone] at ho
    cases ho

/-! ## Expressions -/

section

variable {Γ : Context} {fns : StringView → Option DataType} {vars : Vars}

/-- The functions have the types `fns`. -/
def FunctionTypes (Γ : Context) (fns : StringView → Option DataType) : Prop :=
  ∀ name func, semanticGlobalLookupFunction Γ.global name = some func →
    fns name = some func.returnType

theorem operandsInteger_binary {op : BinaryOp} {info : NodeInfo} {left right : ASTNode} :
    OperandsInteger (.binary op info left right) ↔ HasIntegerType left ∧ HasIntegerType right ∧
      OperandsInteger left ∧ OperandsInteger right := by
  simp only [OperandsInteger, operands, List.forall_mem_cons, List.forall_mem_append]

theorem operandsInteger_unary {op : UnaryOp} {info : NodeInfo} {operand : ASTNode} :
    OperandsInteger (.unary op info operand) ↔
      HasIntegerType operand ∧ OperandsInteger operand := by
  simp only [OperandsInteger, operands, List.forall_mem_cons]

theorem largerType_ne_void {left right : DataType} (hleft : left ≠ .void) (hright : right ≠ .void) :
    largerType left right ≠ .void := by
  unfold largerType
  split
  · exact hleft
  · exact hright

theorem bitwiseType_ne_void {left : DataType} : bitwiseType left ≠ .void := by
  cases left <;> decide

/-- What the types of an accepted expression say about its source: the operands are
integers where the source has no operand without a value, and then the expression itself
is one unless it is without a value. -/
structure Tells (fns : StringView → Option DataType) (vars : Vars) (node node' : ASTNode) :
    Prop where
  operands : OperandsInteger node' ↔ VoidFreeExpr fns vars node
  self : OperandsInteger node' → (HasIntegerType node' ↔ isVoid fns vars node = false)

/-- A binary operator that the analyzer looks at. -/
theorem Tells.binary {op : BinaryOp} {info : NodeInfo} {left right left' right' : ASTNode}
    {type : DataType} (hop : op ≠ .greater) (hleft : Tells fns vars left left')
    (hright : Tells fns vars right right')
    (htype : HasIntegerType left' → HasIntegerType right' → type ≠ .void) :
    Tells fns vars (.binary op info left right) (.binary op (annotate info type) left' right') := by
  constructor
  · rw [operandsInteger_binary]
    constructor
    · rintro ⟨hl, hr, hlo, hro⟩
      exact ⟨hop, (hleft.self hlo).mp hl, (hright.self hro).mp hr, hleft.operands.mp hlo,
        hright.operands.mp hro⟩
    · rintro ⟨-, hl, hr, hlo, hro⟩
      have hlo' := hleft.operands.mpr hlo
      have hro' := hright.operands.mpr hro
      exact ⟨(hleft.self hlo').mpr hl, (hright.self hro').mpr hr, hlo', hro'⟩
  · intro hall
    obtain ⟨hl, hr, -, -⟩ := operandsInteger_binary.mp hall
    have hinteger : HasIntegerType (.binary op (annotate info type) left' right') :=
      (hasIntegerType_iff rfl).mpr (htype hl hr)
    simp only [hinteger, isVoid]

/-- A unary operator. -/
theorem Tells.unary {op : UnaryOp} {info : NodeInfo} {operand operand' : ASTNode}
    {type : DataType} (h : Tells fns vars operand operand')
    (htype : HasIntegerType operand' → type ≠ .void) :
    Tells fns vars (.unary op info operand) (.unary op (annotate info type) operand') := by
  constructor
  · rw [operandsInteger_unary]
    constructor
    · rintro ⟨ho, hoo⟩
      exact ⟨(h.self hoo).mp ho, h.operands.mp hoo⟩
    · rintro ⟨ho, hoo⟩
      have hoo' := h.operands.mpr hoo
      exact ⟨(h.self hoo').mpr ho, hoo'⟩
  · intro hall
    obtain ⟨ho, -⟩ := operandsInteger_unary.mp hall
    have hinteger : HasIntegerType (.unary op (annotate info type) operand') :=
      (hasIntegerType_iff rfl).mpr (htype ho)
    simp only [hinteger, isVoid]

mutual

/-- The types of an accepted expression and its source. -/
theorem TypesExpr.tells (hfns : FunctionTypes Γ fns) {node node' : ASTNode} {uses : Uses}
    (h : TypesExpr Γ vars node node' uses) (hbare : BareExpr node) :
    Tells fns vars node node' := by
  cases h with
  | null =>
    exact ⟨⟨fun _ => trivial, fun _ => nofun⟩, fun _ =>
      iff_of_false not_hasIntegerType_null nofun⟩
  | number info value =>
    refine ⟨⟨fun _ => trivial, fun _ => nofun⟩, fun _ => iff_of_true ?_ rfl⟩
    apply (hasIntegerType_iff rfl).mpr
    show numberType _ ≠ .void
    unfold numberType
    split <;> decide
  | @identifier info name var hvar =>
    refine ⟨⟨fun _ => trivial, fun _ => nofun⟩, fun _ => ?_⟩
    rw [hasIntegerType_iff rfl]
    show var.type ≠ .void ↔ _
    simp [isVoid, hvar]
  | @call info functionName args args' func _ hvisible hfunc hargs =>
    refine ⟨TypesArgs.tells hfns hargs hbare.2, fun _ => ?_⟩
    rw [hasIntegerType_iff rfl]
    show func.returnType ≠ .void ↔ _
    simp [isVoid, hfns functionName func hfunc]
  | arithmetic hop hleft hright hleftType hrightType =>
    have hne : ∀ {op : BinaryOp}, binaryCase op = .arithmetic → op ≠ .greater := by
      rintro op hop rfl
      cases hop
    refine .binary (hne hop) (TypesExpr.tells hfns hleft hbare.2.1)
      (TypesExpr.tells hfns hright hbare.2.2) fun hl hr => ?_
    exact largerType_ne_void ((hasIntegerType_iff hleftType).mp hl)
      ((hasIntegerType_iff hrightType).mp hr)
  | comparison hop hleft hright =>
    have hne : ∀ {op : BinaryOp}, binaryCase op = .comparison → op ≠ .greater := by
      rintro op hop rfl
      cases hop
    exact .binary (hne hop) (TypesExpr.tells hfns hleft hbare.2.1)
      (TypesExpr.tells hfns hright hbare.2.2) fun _ _ => by decide
  | bitwise hop hleft hright hleftType =>
    have hne : ∀ {op : BinaryOp}, binaryCase op = .bitwise → op ≠ .greater := by
      rintro op hop rfl
      cases hop
    exact .binary (hne hop) (TypesExpr.tells hfns hleft hbare.2.1)
      (TypesExpr.tells hfns hright hbare.2.2) fun _ _ => bitwiseType_ne_void
  | @unseen op hop info left right =>
    -- neither operand got a type
    have hnot : ¬ OperandsInteger (.binary op info left right) := by
      intro hall
      exact bare_not_hasIntegerType hbare.2.1 (operandsInteger_binary.mp hall).1
    have hgreater : op = .greater := by
      cases op <;> first | rfl | cases hop
    refine ⟨iff_of_false hnot fun hfree => ?_, fun hall => absurd hall hnot⟩
    exact hfree.1 hgreater
  | not hoperand => exact .unary (TypesExpr.tells hfns hoperand hbare.2) fun _ => by decide
  | sign hop hoperand htype =>
    exact .unary (TypesExpr.tells hfns hoperand hbare.2) (hasIntegerType_iff htype).mp
  | misplaced hstatement =>
    cases node with
    | assignment info varName value =>
      have hvalue := bare_operandsInteger_iff (show BareExpr value from hbare.2)
      refine ⟨hvalue, fun _ => iff_of_false ?_ nofun⟩
      exact bare_not_hasIntegerType hbare
    | null | number _ _ | identifier _ _ | binary _ _ _ _ | unary _ _ _ | call _ _ _ =>
      cases hstatement
    | _ => exact hbare.elim

theorem TypesArgs.tells (hfns : FunctionTypes Γ fns) {params : List Parameter}
    {args args' : List ASTNode} {uses : Uses} (h : TypesArgs Γ vars params args args' uses)
    (hbare : BareExprs args) : AllOperandsInteger args' ↔ VoidFreeExprs fns vars args := by
  cases h with
  | nil => exact ⟨fun _ => trivial, fun _ => nofun⟩
  | cons harg htype hcompatible hargs =>
    have hone := (TypesExpr.tells hfns harg hbare.1).operands
    have hall := TypesArgs.tells hfns hargs hbare.2
    unfold AllOperandsInteger at hall ⊢
    simp only [operandsAll, List.forall_mem_append, VoidFreeExprs]
    rw [hall]
    exact and_congr_left' hone

end

/-! ## Statements -/

/-- The variables behind an accepted statement. -/
theorem TypesStmt.scope {ret : DataType} {vars vars' : Vars} {node node' : ASTNode} {uses : Uses}
    (h : TypesStmt Γ ret vars node node' vars' uses) : vars' = scopeAfter vars node := by
  cases h with
  | null => rfl
  | varDecl => rfl
  | varInit => rfl
  | assignment => rfl
  | returnVoid => rfl
  | returnValue => rfl
  | ifThen hcondition hthen =>
    rw [TypesStmt.scope hthen]
    rfl
  | ifElse hcondition hthen hnull helse =>
    rw [TypesStmt.scope helse, TypesStmt.scope hthen]
    rfl
  | whileLoop hcondition hbody =>
    rw [TypesStmt.scope hbody]
    rfl
  | block hstatements => rfl
  | expr hnode h =>
    cases node with
    | varDecl _ _ _ _ | ifStmt _ _ _ _ | whileStmt _ _ _ => cases hnode
    | _ => rfl

theorem operandsInteger_if {info : NodeInfo} {condition thenBranch elseBranch : ASTNode} :
    OperandsInteger (.ifStmt info condition thenBranch elseBranch) ↔ HasIntegerType condition ∧
      OperandsInteger condition ∧ OperandsInteger thenBranch ∧ OperandsInteger elseBranch := by
  simp only [OperandsInteger, operands, List.forall_mem_cons, List.forall_mem_append, and_assoc]

theorem operandsInteger_while {info : NodeInfo} {condition body : ASTNode} :
    OperandsInteger (.whileStmt info condition body) ↔
      HasIntegerType condition ∧ OperandsInteger condition ∧ OperandsInteger body := by
  simp only [OperandsInteger, operands, List.forall_mem_cons, List.forall_mem_append]

/-- A condition: it is an integer, and so are its operands. -/
theorem Tells.condition {node node' : ASTNode} (h : Tells fns vars node node') :
    HasIntegerType node' ∧ OperandsInteger node' ↔
      isVoid fns vars node = false ∧ VoidFreeExpr fns vars node := by
  constructor
  · rintro ⟨hself, hall⟩
    exact ⟨(h.self hall).mp hself, h.operands.mp hall⟩
  · rintro ⟨hvoid, hfree⟩
    have hall := h.operands.mpr hfree
    exact ⟨(h.self hall).mpr hvoid, hall⟩

/-- An expression that stands for a statement. -/
theorem voidFreeStmt_expr {node : ASTNode} (hnode : hasStatementCase node = false)
    (hbare : BareStmt node) : VoidFreeStmt fns vars node ↔ VoidFreeExpr fns vars node := by
  cases node with
  | binary op info left right => exact Iff.rfl
  | unary op info operand => exact Iff.rfl
  | call info functionName args => exact Iff.rfl
  | number info value => exact Iff.rfl
  | identifier info name => exact Iff.rfl
  | function _ _ _ _ _ _ | translationUnit _ _ => exact hbare.elim
  | _ => cases hnode

mutual

/-- The types of an accepted statement and its source. -/
theorem TypesStmt.tells (hfns : FunctionTypes Γ fns) {ret : DataType} {vars vars' : Vars}
    {node node' : ASTNode} {uses : Uses} (h : TypesStmt Γ ret vars node node' vars' uses)
    (hbare : BareStmt node) : OperandsInteger node' ↔ VoidFreeStmt fns vars node := by
  cases h with
  | null => exact ⟨fun _ => trivial, fun _ => nofun⟩
  | varDecl => exact ⟨fun _ => trivial, fun _ => nofun⟩
  | varInit hnull hinit => exact (TypesExpr.tells hfns hinit.1 hbare).operands
  | assignment hvar hvalue => exact (TypesExpr.tells hfns hvalue.1 hbare.2).operands
  | returnVoid => exact ⟨fun _ => trivial, fun _ => nofun⟩
  | returnValue hnull hret hvalue => exact (TypesExpr.tells hfns hvalue.1 hbare).operands
  | ifThen hcondition hthen =>
    have hc := (TypesExpr.tells hfns hcondition hbare.1).condition
    have ht := TypesStmt.tells hfns hthen hbare.2.1
    have he : OperandsInteger .null := nofun
    rw [operandsInteger_if, ← and_assoc, hc, ht, and_assoc]
    simp only [VoidFreeStmt, he, and_true]
  | ifElse hcondition hthen hnull helse =>
    have hc := (TypesExpr.tells hfns hcondition hbare.1).condition
    have ht := TypesStmt.tells hfns hthen hbare.2.1
    have he := TypesStmt.tells hfns helse hbare.2.2
    rw [TypesStmt.scope hthen] at he
    rw [operandsInteger_if, ← and_assoc, hc, ht, he, and_assoc]
    rfl
  | whileLoop hcondition hbody =>
    have hc := (TypesExpr.tells hfns hcondition hbare.1).condition
    have hb := TypesStmt.tells hfns hbody hbare.2
    rw [operandsInteger_while, ← and_assoc, hc, hb, and_assoc]
    rfl
  | block hstatements => exact TypesStmts.tells hfns hstatements hbare
  | expr hnode h =>
    rw [voidFreeStmt_expr hnode hbare]
    have hexpr : BareExpr node := by
      cases node with
      | function _ _ _ _ _ _ | translationUnit _ _ => exact hbare.elim
      | varDecl _ _ _ _ | ifStmt _ _ _ _ | whileStmt _ _ _ | block _ _ | returnStmt _ _ | null
      | assignment _ _ _ => cases hnode
      | _ => exact hbare
    exact (TypesExpr.tells hfns h hexpr).operands

theorem TypesStmts.tells (hfns : FunctionTypes Γ fns) {ret : DataType} {vars vars' : Vars}
    {nodes nodes' : List ASTNode} {uses : Uses}
    (h : TypesStmts Γ ret vars nodes nodes' vars' uses) (hbare : BareStmts nodes) :
    AllOperandsInteger nodes' ↔ VoidFreeStmts fns vars nodes := by
  cases h with
  | nil => exact ⟨fun _ => trivial, fun _ => nofun⟩
  | cons hstmt hrest =>
    have hone := TypesStmt.tells hfns hstmt hbare.1
    have hall := TypesStmts.tells hfns hrest hbare.2
    rw [TypesStmt.scope hstmt] at hall
    unfold AllOperandsInteger at hall ⊢
    simp only [operandsAll, List.forall_mem_append, VoidFreeStmts]
    rw [hall]
    exact and_congr_left' hone

end

/-- The types of an accepted function and its source. -/
theorem TypesDeclaration.tells (hfns : FunctionTypes Γ fns) {node node' : ASTNode} {uses : Uses}
    (h : TypesDeclaration Γ node node' uses) (hbare : BareDeclaration node) :
    OperandsInteger node' ↔ VoidFreeFunction fns node := by
  cases h with
  | prototype info name returnType params body =>
    have hnull : body = .null := by
      cases body with
      | null => rfl
      | block info' statements => cases hbare.1
      | _ => exact hbare.elim
    subst hnull
    exact ⟨fun _ => trivial, fun _ => nofun⟩
  | definition h => exact TypesStmts.tells hfns h hbare.2
  | bodyless info name returnType params hnot =>
    rename_i body
    cases body with
    | null => cases hbare
    | block info' statements => exact absurd rfl (hnot info' statements)
    | _ => exact hbare.elim

end

end TinyCompile.Semantic
