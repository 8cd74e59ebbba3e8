import TinyCompile.Parser.Bare
import TinyCompile.Semantic.Complete

set_option autoImplicit false

/-!
# Semantic: the types that analysis leaves in a tree

Where declarations stand in blocks only, each occurrence of a variable in an accepted
function has the type of the variable that C takes it for.  What stands in an operand of `>`
is left as the parser made it.
-/

namespace TinyCompile.Semantic

open TinyCompile.Source TinyCompile.Parser

/-! ## Annotated trees -/

/-- The types of the variables in scope, innermost first. -/
abbrev Typing := List (StringView × DataType)

mutual

/-- The variables of an expression have the types they are declared with, or none where
analysis has not `seen` them. -/
def AnnotatedExpr (Δ : Typing) (seen : Bool) : ASTNode → Prop
  | .identifier info name =>
      if seen then Δ.lookup name = some info.valueType else info.valueType = .void
  | .call _ _ args => AnnotatedArgs Δ seen args
  | .unary _ _ operand => AnnotatedExpr Δ seen operand
  | .binary op _ left right =>
      AnnotatedExpr Δ (seen && op != .greater) left ∧
        AnnotatedExpr Δ (seen && op != .greater) right
  | _ => True

/-- The same for the arguments of a call. -/
def AnnotatedArgs (Δ : Typing) (seen : Bool) : List ASTNode → Prop
  | [] => True
  | arg :: rest => AnnotatedExpr Δ seen arg ∧ AnnotatedArgs Δ seen rest

end

/-- A declaration, which C allows in a block only. -/
def isDeclaration : ASTNode → Bool
  | .varDecl _ _ _ _ => true
  | _ => false

mutual

/-- The declarations in a statement stand in blocks, as C's grammar has it. -/
def declaresInBlocks : ASTNode → Bool
  | .ifStmt _ _ thenBranch elseBranch =>
      !isDeclaration thenBranch && !isDeclaration elseBranch && declaresInBlocks thenBranch &&
        declaresInBlocks elseBranch
  | .whileStmt _ _ body => !isDeclaration body && declaresInBlocks body
  | .block _ statements => allDeclareInBlocks statements
  | _ => true

/-- The same for the statements of a block. -/
def allDeclareInBlocks : List ASTNode → Bool
  | [] => true
  | stmt :: rest => declaresInBlocks stmt && allDeclareInBlocks rest

end

/-- The types of the variables in scope behind a statement. -/
def typingBehind (Δ : Typing) : ASTNode → Typing
  | .varDecl _ varName varType _ => (varName, varType) :: Δ
  | _ => Δ

mutual

/-- The variables in a statement have the types they are declared with. -/
def AnnotatedStmt (Δ : Typing) : ASTNode → Prop
  | .varDecl _ _ _ initializer => AnnotatedExpr Δ true initializer
  | .assignment info varName value =>
      Δ.lookup varName = some info.valueType ∧ AnnotatedExpr Δ true value
  | .returnStmt _ expression => AnnotatedExpr Δ true expression
  | .block _ statements => AnnotatedStmts Δ statements
  | .ifStmt _ condition thenBranch elseBranch =>
      AnnotatedExpr Δ true condition ∧ AnnotatedStmt Δ thenBranch ∧ AnnotatedStmt Δ elseBranch
  | .whileStmt _ condition body => AnnotatedExpr Δ true condition ∧ AnnotatedStmt Δ body
  | node => AnnotatedExpr Δ true node

/-- The same for the statements of a block in order. -/
def AnnotatedStmts (Δ : Typing) : List ASTNode → Prop
  | [] => True
  | stmt :: rest => AnnotatedStmt Δ stmt ∧ AnnotatedStmts (typingBehind Δ stmt) rest

end

/-! ## What analysis leaves -/

/-- The types of the analyzer's variables. -/
def typingOf (vars : Vars) : Typing := vars.map fun var => (var.name, var.type)

section

variable {Γ : Context} {vars : Vars} {ret : DataType}

theorem lookup_typing {name : StringView} {var : VarInfo} (h : vars.find name = some var) :
    (typingOf vars).lookup name = some var.type := by
  induction vars with
  | nil => cases h
  | cons v vars ih =>
    rw [Vars.find, List.find?_cons] at h
    by_cases hname : v.name = name
    · rw [(svEq_iff v.name name).mpr hname] at h
      obtain rfl := Option.some.inj h
      simp [typingOf, hname]
    · have hne : svEq v.name name = false := by simpa [svEq] using hname
      rw [hne] at h
      have hother : (name == v.name) = false := by simpa using fun heq => hname heq.symm
      show List.lookup name ((v.name, v.type) :: (typingOf vars)) = _
      rw [List.lookup_cons, hother]
      exact ih h

mutual

/-- What analysis does not look at has no types. -/
theorem bare_annotated (Δ : Typing) : ∀ node : ASTNode, BareExpr node →
    AnnotatedExpr Δ false node
  | .identifier _ _, h => h
  | .call _ _ args, h => bareArgs_annotated Δ args h.2
  | .unary _ _ operand, h => bare_annotated Δ operand h.2
  | .binary _ _ left right, h => ⟨bare_annotated Δ left h.2.1, bare_annotated Δ right h.2.2⟩
  | .null, _ => trivial
  | .number _ _, _ => trivial
  | .varDecl _ _ _ _, _ => trivial
  | .assignment _ _ _, _ => trivial
  | .returnStmt _ _, _ => trivial
  | .ifStmt _ _ _ _, _ => trivial
  | .whileStmt _ _ _, _ => trivial
  | .block _ _, _ => trivial
  | .function _ _ _ _ _ _, _ => trivial
  | .translationUnit _ _, _ => trivial

theorem bareArgs_annotated (Δ : Typing) : ∀ nodes : List ASTNode, BareExprs nodes →
    AnnotatedArgs Δ false nodes
  | [], _ => trivial
  | node :: nodes, h => ⟨bare_annotated Δ node h.1, bareArgs_annotated Δ nodes h.2⟩

end

/-- A statement that is no declaration brings nothing into scope. -/
theorem typingBehind_statement {Δ : Typing} {node : ASTNode} (h : isDeclaration node = false) :
    typingBehind Δ node = Δ := by
  cases node with
  | varDecl _ _ _ _ => cases h
  | _ => rfl

/-- A statement of the parser that is an expression. -/
theorem bareStmt_expression {node : ASTNode} (h : hasStatementCase node = false)
    (hbare : BareStmt node) : BareExpr node := by
  cases node with
  | null => trivial
  | varDecl _ _ _ _ => cases h
  | assignment _ _ _ => cases h
  | returnStmt _ _ => cases h
  | ifStmt _ _ _ _ => cases h
  | whileStmt _ _ _ => cases h
  | block _ _ => cases h
  | function _ _ _ _ _ _ => exact hbare.elim
  | translationUnit _ _ => exact hbare.elim
  | _ => exact hbare

theorem annotated_binary {op : BinaryOp} {info : NodeInfo} {left right : ASTNode}
    (hop : binaryCase op ≠ .default) (hleft : AnnotatedExpr (typingOf vars) true left)
    (hright : AnnotatedExpr (typingOf vars) true right) :
    AnnotatedExpr (typingOf vars) true (.binary op info left right) := by
  have hseen : (true && op != .greater) = true := by
    cases op with
    | greater => exact absurd rfl hop
    | _ => rfl
  rw [AnnotatedExpr, hseen]
  exact ⟨hleft, hright⟩

mutual

/-- The types in an accepted expression. -/
theorem typesExpr_annotated {node node' : ASTNode} {uses : Uses}
    (h : TypesExpr Γ vars node node' uses) (hbare : BareExpr node) :
    AnnotatedExpr (typingOf vars) true node' := by
  cases h with
  | null => trivial
  | number => trivial
  | identifier hvar => exact (if_pos rfl).mpr (lookup_typing hvar)
  | call _ _ hargs => exact typesArgs_annotated hargs hbare.2
  | arithmetic hop hleft hright =>
    exact annotated_binary (by simp [hop]) (typesExpr_annotated hleft hbare.2.1)
      (typesExpr_annotated hright hbare.2.2)
  | comparison hop hleft hright =>
    exact annotated_binary (by simp [hop]) (typesExpr_annotated hleft hbare.2.1)
      (typesExpr_annotated hright hbare.2.2)
  | bitwise hop hleft hright =>
    exact annotated_binary (by simp [hop]) (typesExpr_annotated hleft hbare.2.1)
      (typesExpr_annotated hright hbare.2.2)
  | @unseen op hop info left right =>
    have hseen : (true && op != .greater) = false := by
      cases op with
      | greater => rfl
      | _ => cases hop
    rw [AnnotatedExpr, hseen]
    exact ⟨bare_annotated _ left hbare.2.1, bare_annotated _ right hbare.2.2⟩
  | not hoperand => exact (typesExpr_annotated hoperand hbare.2 :)
  | sign _ hoperand => exact (typesExpr_annotated hoperand hbare.2 :)
  | misplaced h =>
    cases node with
    | number _ _ => cases h
    | identifier _ _ => cases h
    | call _ _ _ => cases h
    | unary _ _ _ => cases h
    | binary _ _ _ _ => cases h
    | _ => trivial
termination_by sizeOf node

theorem typesArgs_annotated {params : List Parameter} {args args' : List ASTNode} {uses : Uses}
    (h : TypesArgs Γ vars params args args' uses) (hbare : BareExprs args) :
    AnnotatedArgs (typingOf vars) true args' := by
  cases h with
  | nil => trivial
  | cons harg _ _ hargs =>
    exact ⟨typesExpr_annotated harg hbare.1, typesArgs_annotated hargs hbare.2⟩
termination_by sizeOf args

end

mutual

/-- The types in an accepted statement, and behind it. -/
theorem typesStmt_annotated {vars vars' : Vars} {node node' : ASTNode} {uses : Uses}
    (h : TypesStmt Γ ret vars node node' vars' uses) (hbare : BareStmt node)
    (hblocks : declaresInBlocks node' = true) : AnnotatedStmt (typingOf vars) node' ∧
      typingOf vars' = typingBehind (typingOf vars) node' := by
  cases h with
  | null => exact ⟨trivial, rfl⟩
  | varDecl => exact ⟨trivial, rfl⟩
  | varInit _ hinit => exact ⟨typesExpr_annotated hinit.1 hbare, rfl⟩
  | assignment hvar hvalue =>
    exact ⟨⟨lookup_typing hvar, typesExpr_annotated hvalue.1 hbare.2⟩, rfl⟩
  | returnVoid => exact ⟨trivial, rfl⟩
  | returnValue _ _ hvalue => exact ⟨typesExpr_annotated hvalue.1 hbare, rfl⟩
  | ifThen hcondition hthen =>
    simp only [declaresInBlocks, isDeclaration, Bool.and_eq_true, Bool.not_eq_true'] at hblocks
    obtain ⟨hthenTypes, hbehind⟩ := typesStmt_annotated hthen hbare.2.1 hblocks.1.2
    rw [typingBehind_statement hblocks.1.1.1] at hbehind
    exact ⟨⟨typesExpr_annotated hcondition hbare.1, hthenTypes, trivial⟩, hbehind⟩
  | ifElse hcondition hthen _ helse =>
    simp only [declaresInBlocks, Bool.and_eq_true, Bool.not_eq_true'] at hblocks
    obtain ⟨⟨⟨hthenStmt, helseStmt⟩, hthenBlocks⟩, helseBlocks⟩ := hblocks
    obtain ⟨hthenTypes, hbehind⟩ := typesStmt_annotated hthen hbare.2.1 hthenBlocks
    obtain ⟨helseTypes, hbehind'⟩ := typesStmt_annotated helse hbare.2.2 helseBlocks
    rw [typingBehind_statement hthenStmt] at hbehind
    rw [hbehind] at helseTypes hbehind'
    rw [typingBehind_statement helseStmt] at hbehind'
    exact ⟨⟨typesExpr_annotated hcondition hbare.1, hthenTypes, helseTypes⟩, hbehind'⟩
  | whileLoop hcondition hbody =>
    simp only [declaresInBlocks, Bool.and_eq_true, Bool.not_eq_true'] at hblocks
    obtain ⟨hbodyTypes, hbehind⟩ := typesStmt_annotated hbody hbare.2 hblocks.2
    rw [typingBehind_statement hblocks.1] at hbehind
    exact ⟨⟨typesExpr_annotated hcondition hbare.1, hbodyTypes⟩, hbehind⟩
  | block hstatements => exact ⟨typesStmts_annotated hstatements hbare hblocks, rfl⟩
  | expr hnode hexpr =>
    have hcase := hexpr.hasStatementCase.trans hnode
    have htypes := typesExpr_annotated hexpr (bareStmt_expression hnode hbare)
    cases node' with
    | null => cases hcase
    | varDecl _ _ _ _ => cases hcase
    | assignment _ _ _ => cases hcase
    | returnStmt _ _ => cases hcase
    | ifStmt _ _ _ _ => cases hcase
    | whileStmt _ _ _ => cases hcase
    | block _ _ => cases hcase
    | _ => exact ⟨htypes, rfl⟩
termination_by sizeOf node'

theorem typesStmts_annotated {vars vars' : Vars} {nodes nodes' : List ASTNode} {uses : Uses}
    (h : TypesStmts Γ ret vars nodes nodes' vars' uses) (hbare : BareStmts nodes)
    (hblocks : allDeclareInBlocks nodes' = true) : AnnotatedStmts (typingOf vars) nodes' := by
  cases h with
  | nil => trivial
  | cons hstmt hrest =>
    rw [allDeclareInBlocks, Bool.and_eq_true] at hblocks
    obtain ⟨htypes, hbehind⟩ := typesStmt_annotated hstmt hbare.1 hblocks.1
    refine ⟨htypes, ?_⟩
    rw [← hbehind]
    exact typesStmts_annotated hrest hbare.2 hblocks.2
termination_by sizeOf nodes'

end

end

end TinyCompile.Semantic
