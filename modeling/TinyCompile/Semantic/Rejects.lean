import TinyCompile.Semantic.Typing

set_option autoImplicit false

/-!
# Semantic: what is rejected is reported

Inside an open scope the analyzer returns false exactly where it has recorded an error.
-/

namespace TinyCompile.Semantic

open TinyCompile.Source TinyCompile.Logic

/-! ## Verdicts and errors -/

/-- Errors were recorded exactly where the result is false. -/
def Verdict (errors : ErrorContext) (ok : Bool) (errors' : ErrorContext) : Prop :=
  if ok then errors'.errorCount = errors.errorCount else errors.errorCount < errors'.errorCount

section

variable {errors errors₁ errors₂ : ErrorContext} {ok ok' : Bool}

theorem Verdict.refl (errors : ErrorContext) : Verdict errors true errors := rfl

theorem Verdict.and (h : Verdict errors ok errors₁) (h' : Verdict errors₁ ok' errors₂) :
    Verdict errors (ok && ok') errors₂ := by
  unfold Verdict at *
  cases ok <;> cases ok' <;> simp at * <;> omega

theorem verdict_error (errors : ErrorContext) (category : ErrorCategory) (filename : Option String)
    (line column : Nat) (message : String) :
    Verdict errors false (errorAdd errors category .error filename line column message) :=
  Nat.lt_succ_self _

theorem verdict_warning (errors : ErrorContext) (category : ErrorCategory)
    (filename : Option String) (line column : Nat) (message : String) :
    Verdict errors true (errorAdd errors category .warning filename line column message) := rfl

end

/-- The scopes are as many as before, and errors were recorded exactly where the result is
false. -/
structure Told (sa : SemanticAnalyzer) (ok : Bool) (sa' : SemanticAnalyzer) : Prop where
  scopes : sa'.current.length = sa.current.length
  verdict : Verdict sa.errors ok sa'.errors

section

variable {sa sa₁ sa₂ : SemanticAnalyzer} {ok ok' : Bool}

theorem Told.refl (sa : SemanticAnalyzer) : Told sa true sa := ⟨rfl, rfl⟩

theorem Told.and (h : Told sa ok sa₁) (h' : Told sa₁ ok' sa₂) : Told sa (ok && ok') sa₂ :=
  ⟨h'.scopes.trans h.scopes, h.verdict.and h'.verdict⟩

theorem Told.open (h : Told sa ok sa₁) (hopen : sa.current ≠ []) : sa₁.current ≠ [] := by
  rw [← List.length_pos_iff, h.scopes]
  exact List.length_pos_iff.mpr hopen

end

/-- A computation tells what it rejects. -/
def TellsBool (x : SemM Bool) : Prop :=
  ∀ sa, sa.current ≠ [] → wp Anyhow x (fun ok sa' => Told sa ok sa') sa

/-- A computation that returns a tree tells what it rejects. -/
def TellsTree {α : Type} (x : SemM (α × Bool)) : Prop :=
  ∀ sa, sa.current ≠ [] → wp Anyhow x (fun r sa' => Told sa r.2 sa') sa

/-! ## Expressions -/

theorem tells_checkTypeCompatibility (dest src : DataType) (node : ASTNode) :
    TellsBool (checkTypeCompatibility dest src node) := by
  intro sa _
  unfold checkTypeCompatibility
  refine wp_ite (fun _ => .refl sa) fun _ => wp_ite (fun _ => ?_) fun _ => wp_ite (fun _ => ?_)
    fun _ => ?_
  · apply wp_seq (infoOf_spec node sa)
    rintro info _ ⟨-, rfl⟩
    exact ⟨rfl, verdict_error ..⟩
  · refine wp_ite (fun _ => ?_) fun _ => .refl sa
    -- at most a warning is recorded
    apply wp_seq (R := fun _ sa' => sa' = sa) (wp_liftM (fun _ _ => rfl) fun _ _ => trivial)
    rintro value _ rfl
    refine wp_ite (fun _ => ?_) fun _ => .refl _
    apply wp_seq (infoOf_spec node _)
    rintro info _ ⟨-, rfl⟩
    exact ⟨rfl, verdict_warning ..⟩
  · apply wp_seq (infoOf_spec node sa)
    rintro info _ ⟨-, rfl⟩
    exact ⟨rfl, verdict_error ..⟩

theorem tells_analyzeIdentifier (info : NodeInfo) (name : StringView) :
    TellsTree (analyzeIdentifier info name) := by
  intro sa _
  unfold analyzeIdentifier
  rw [wp_bind, wp_get]
  split
  · exact ⟨rfl, verdict_error ..⟩
  · exact ⟨rfl, .refl _⟩

theorem tells_analyzeCall (info : NodeInfo) (functionName : StringView) (args : List ASTNode)
    {analyze : List Parameter → SemM (List ASTNode × Bool)}
    (hargs : ∀ params, TellsTree (analyze params)) :
    TellsTree (analyzeCall info functionName args analyze) := by
  intro sa hopen
  unfold analyzeCall
  rw [wp_bind, wp_get]
  refine wp_ite (fun _ => ⟨rfl, verdict_error ..⟩) fun _ => ?_
  split
  · exact ⟨rfl, verdict_error ..⟩
  · rename_i func _
    refine wp_ite (fun _ => ⟨rfl, verdict_error ..⟩) fun _ => ?_
    apply wp_seq (hargs func.params sa hopen)
    rintro ⟨args', allOk⟩ sa' htold
    exact htold

/-- Operands that are analyzed one behind the other. -/
theorem tells_operands {α β : Type} {x : SemM (α × Bool)} {y : SemM (β × Bool)}
    {f : α × Bool → β × Bool → SemM (ASTNode × Bool)} (hx : TellsTree x) (hy : TellsTree y)
    (hf : ∀ r r' sa, wp Anyhow (f r r')
      (fun out sa' => sa' = sa ∧ out.2 = (r.2 && r'.2)) sa) :
    TellsTree (do let r ← x; let r' ← y; f r r') := by
  intro sa hopen
  apply wp_seq (hx sa hopen)
  intro r sa₁ htold
  apply wp_seq (hy sa₁ (htold.open hopen))
  intro r' sa₂ htold'
  apply wp_mono (hf r r' sa₂)
  rintro out _ ⟨rfl, hout⟩
  rw [hout]
  exact htold.and htold'

theorem and_of_failed {ok ok' : Bool} (h : (!ok || !ok') = true) : false = (ok && ok') := by
  revert ok ok'
  decide

theorem and_of_passed {ok ok' : Bool} (h : ¬ (!ok || !ok') = true) : true = (ok && ok') := by
  revert ok ok'
  decide

theorem tells_analyzeBinary (op : BinaryOp) (info : NodeInfo) (left right : ASTNode)
    {analyzeLeft analyzeRight : SemM (ASTNode × Bool)} (hleft : TellsTree analyzeLeft)
    (hright : TellsTree analyzeRight) :
    TellsTree (analyzeBinary op info left right analyzeLeft analyzeRight) := by
  unfold analyzeBinary
  split
  · refine tells_operands hleft hright fun r r' sa => wp_ite (fun hfailed => ?_) fun hok => ?_
    · exact ⟨rfl, and_of_failed hfailed⟩
    · apply wp_seq (valueTypeOf_spec r.1 sa)
      rintro leftType _ ⟨-, rfl⟩
      apply wp_seq (valueTypeOf_spec r'.1 _)
      rintro rightType _ ⟨-, rfl⟩
      exact ⟨rfl, and_of_passed hok⟩
  · exact tells_operands hleft hright fun _ _ _ => ⟨rfl, rfl⟩
  · refine tells_operands hleft hright fun r r' sa => wp_ite (fun hfailed => ?_) fun hok => ?_
    · exact ⟨rfl, and_of_failed hfailed⟩
    · apply wp_seq (valueTypeOf_spec r.1 sa)
      rintro leftType _ ⟨-, rfl⟩
      exact ⟨rfl, and_of_passed hok⟩
  · exact fun sa _ => .refl sa

theorem tells_analyzeUnary (op : UnaryOp) (info : NodeInfo) {analyze : SemM (ASTNode × Bool)}
    (hoperand : TellsTree analyze) : TellsTree (analyzeUnary op info analyze) := by
  intro sa hopen
  unfold analyzeUnary
  apply wp_seq (hoperand sa hopen)
  rintro ⟨operand, ok⟩ sa₁ htold
  have hsign : wp Anyhow
      (if ok = true then do
        return (.unary op (annotate info (← valueTypeOf operand)) operand, true)
      else return (.unary op info operand, false) : SemM (ASTNode × Bool))
      (fun r sa' => Told sa r.2 sa') sa₁ := by
    refine wp_ite (fun hok => ?_) fun hfailed => ?_
    · apply wp_seq (valueTypeOf_spec operand sa₁)
      rintro type _ ⟨-, rfl⟩
      exact hok ▸ htold
    · exact Bool.eq_false_iff.mpr hfailed ▸ htold
  cases op with
  | not => exact htold
  | negate => exact hsign
  | bitNot => exact hsign

mutual

/-- `analyze_expression` tells what it rejects. -/
theorem tells_analyzeExpression : ∀ node : ASTNode, TellsTree (analyzeExpression node)
  | .null => fun sa _ => .refl sa
  | .number _ _ => fun sa _ => .refl sa
  | .identifier info name => tells_analyzeIdentifier info name
  | .call info functionName args =>
      tells_analyzeCall info functionName args (tells_analyzeArgs args)
  | .binary op info left right => tells_analyzeBinary op info left right
      (tells_analyzeExpression left) (tells_analyzeExpression right)
  | .unary op info operand => tells_analyzeUnary op info (tells_analyzeExpression operand)
  | .varDecl _ _ _ _ => fun sa _ => .refl sa
  | .assignment _ _ _ => fun sa _ => .refl sa
  | .returnStmt _ _ => fun sa _ => .refl sa
  | .ifStmt _ _ _ _ => fun sa _ => .refl sa
  | .whileStmt _ _ _ => fun sa _ => .refl sa
  | .block _ _ => fun sa _ => .refl sa
  | .function _ _ _ _ _ _ => fun sa _ => .refl sa
  | .translationUnit _ _ => fun sa _ => .refl sa

theorem tells_analyzeArgs : ∀ (args : List ASTNode) (params : List Parameter),
    TellsTree (analyzeArgs args params)
  | [], _ => fun sa _ => .refl sa
  | _ :: _, [] => fun sa _ => .refl sa
  | arg :: args, param :: params => by
      intro sa hopen
      unfold analyzeArgs
      apply wp_seq (tells_analyzeExpression arg sa hopen)
      rintro ⟨arg', ok⟩ sa₁ htold
      apply wp_seq (valueTypeOf_spec arg' sa₁)
      rintro type _ ⟨-, rfl⟩
      have hopen₁ := htold.open hopen
      apply wp_seq (tells_checkTypeCompatibility param.type type arg' _ hopen₁)
      intro compatible sa₂ hcompatible
      have hboth := htold.and hcompatible
      apply wp_seq (tells_analyzeArgs args params sa₂ (hboth.open hopen))
      rintro ⟨args', allOk⟩ sa₃ hrest
      exact hboth.and hrest

end

/-! ## Statements -/

theorem tells_analyzeValue (dest : DataType) (value : ASTNode) :
    TellsTree (analyzeValue dest value) := by
  intro sa hopen
  unfold analyzeValue
  apply wp_seq (tells_analyzeExpression value sa hopen)
  rintro ⟨value', ok⟩ sa₁ htold
  refine wp_ite (fun hok => ?_) fun hfailed => ?_
  · obtain rfl : ok = true := hok
    apply wp_seq (valueTypeOf_spec value' sa₁)
    rintro type _ ⟨-, rfl⟩
    apply wp_seq (tells_checkTypeCompatibility dest type value' _ (htold.open hopen))
    intro compatible sa₂ hcompatible
    exact htold.and hcompatible
  · exact Bool.eq_false_iff.mpr hfailed ▸ htold

theorem tells_semanticScopeDeclare (var : VarInfo) : TellsBool (semanticScopeDeclare var) := by
  intro sa hopen
  unfold semanticScopeDeclare
  rw [wp_bind, wp_get]
  split
  · rename_i hnone
    exact absurd hnone hopen
  · rename_i scope parents hcurrent
    split
    · exact ⟨by simp [hcurrent], .refl _⟩
    · exact ⟨rfl, verdict_error ..⟩
    · exact ⟨rfl, verdict_error ..⟩

theorem tells_analyzeVarDecl (info : NodeInfo) (varName : StringView) (varType : DataType)
    (initializer : ASTNode) : TellsTree (analyzeVarDecl info varName varType initializer) := by
  intro sa hopen
  unfold analyzeVarDecl
  have hinit : TellsTree (analyzeInitializer varType initializer) := by
    unfold analyzeInitializer
    split
    · exact fun sa _ => .refl sa
    · exact tells_analyzeValue varType initializer
  apply wp_seq (hinit sa hopen)
  rintro ⟨initializer', initOk⟩ sa₁ htold
  apply wp_seq (tells_semanticScopeDeclare _ sa₁ (htold.open hopen))
  intro declOk sa₂ hdeclared
  exact htold.and hdeclared

theorem tells_analyzeAssignment (info : NodeInfo) (varName : StringView) (value : ASTNode) :
    TellsTree (analyzeAssignment info varName value) := by
  intro sa hopen
  unfold analyzeAssignment
  rw [wp_bind, wp_get]
  split
  · exact ⟨rfl, verdict_error ..⟩
  · rename_i var _
    rw [wp_bind, wp_recordResolved]
    apply wp_seq (tells_analyzeValue var.type value _ (by exact hopen))
    rintro ⟨value', ok⟩ sa' htold
    exact ⟨htold.scopes, htold.verdict⟩

theorem tells_analyzeReturn (info : NodeInfo) (expression : ASTNode) :
    TellsTree (analyzeReturn info expression) := by
  intro sa hopen
  unfold analyzeReturn
  rw [wp_bind, wp_get]
  refine wp_ite (fun _ => wp_ite (fun _ => ⟨rfl, verdict_error ..⟩) fun _ => ?_) fun _ =>
    wp_ite (fun _ => ⟨rfl, verdict_error ..⟩) fun _ => .refl sa
  apply wp_seq (tells_analyzeValue sa.currentReturnType expression sa hopen)
  rintro ⟨expression', ok⟩ sa' htold
  exact htold

theorem tells_analyzeIf (info : NodeInfo) (condition elseBranch : ASTNode)
    {analyzeThen analyzeElse : SemM (ASTNode × Bool)} (hthen : TellsTree analyzeThen)
    (helse : TellsTree analyzeElse) :
    TellsTree (analyzeIf info condition elseBranch analyzeThen analyzeElse) := by
  intro sa hopen
  unfold analyzeIf
  apply wp_seq (tells_analyzeExpression condition sa hopen)
  rintro ⟨condition', condOk⟩ sa₁ htold
  apply wp_seq (hthen sa₁ (htold.open hopen))
  rintro ⟨thenBranch, thenOk⟩ sa₂ htold'
  have hboth := htold.and htold'
  have helseBranch : TellsTree (analyzeElseBranch elseBranch analyzeElse) := by
    unfold analyzeElseBranch
    split
    · exact fun sa _ => .refl sa
    · exact helse
  apply wp_seq (helseBranch sa₂ (hboth.open hopen))
  rintro ⟨elseBranch', elseOk⟩ sa₃ htold''
  exact hboth.and htold''

theorem tells_analyzeWhile (info : NodeInfo) (condition : ASTNode)
    {analyzeBody : SemM (ASTNode × Bool)} (hbody : TellsTree analyzeBody) :
    TellsTree (analyzeWhile info condition analyzeBody) := by
  intro sa hopen
  unfold analyzeWhile
  apply wp_seq (tells_analyzeExpression condition sa hopen)
  rintro ⟨condition', condOk⟩ sa₁ htold
  apply wp_seq (hbody sa₁ (htold.open hopen))
  rintro ⟨body, bodyOk⟩ sa₂ htold'
  exact htold.and htold'

theorem tells_analyzeBlock (info : NodeInfo) {analyze : SemM (List ASTNode × Bool)}
    (hstatements : TellsTree analyze) : TellsTree (analyzeBlock info analyze) := by
  intro sa _
  unfold analyzeBlock
  rw [wp_bind, wp_semanticScopeEnter]
  apply wp_seq (hstatements _ (List.cons_ne_nil _ _))
  rintro ⟨statements, allOk⟩ sa₁ htold
  refine ⟨?_, htold.verdict⟩
  have hscopes : sa₁.current.length = sa.current.length + 1 := htold.scopes
  show sa₁.current.tail.length = _
  rw [List.length_tail, hscopes, Nat.add_sub_cancel]

mutual

/-- `analyze_statement` tells what it rejects. -/
theorem tells_analyzeStatement : ∀ node : ASTNode, TellsTree (analyzeStatement node)
  | .null => fun sa _ => .refl sa
  | .varDecl info varName varType initializer =>
      tells_analyzeVarDecl info varName varType initializer
  | .assignment info varName value => tells_analyzeAssignment info varName value
  | .returnStmt info expression => tells_analyzeReturn info expression
  | .ifStmt info condition thenBranch elseBranch => tells_analyzeIf info condition elseBranch
      (tells_analyzeStatement thenBranch) (tells_analyzeStatement elseBranch)
  | .whileStmt info condition body =>
      tells_analyzeWhile info condition (tells_analyzeStatement body)
  | .block info statements => tells_analyzeBlock info (tells_analyzeStatements statements)
  | .number info value => tells_analyzeExpression (.number info value)
  | .identifier info name => tells_analyzeExpression (.identifier info name)
  | .binary op info left right => tells_analyzeExpression (.binary op info left right)
  | .unary op info operand => tells_analyzeExpression (.unary op info operand)
  | .call info name args => tells_analyzeExpression (.call info name args)
  | .function info name type params body isPrototype =>
      tells_analyzeExpression (.function info name type params body isPrototype)
  | .translationUnit info declarations =>
      tells_analyzeExpression (.translationUnit info declarations)

theorem tells_analyzeStatements : ∀ nodes : List ASTNode, TellsTree (analyzeStatements nodes)
  | [] => fun sa _ => .refl sa
  | node :: nodes => by
      intro sa hopen
      unfold analyzeStatements
      apply wp_seq (tells_analyzeStatement node sa hopen)
      rintro ⟨node', ok⟩ sa₁ htold
      apply wp_seq (tells_analyzeStatements nodes sa₁ (htold.open hopen))
      rintro ⟨nodes', allOk⟩ sa₂ htold'
      exact htold.and htold'

end

/-! ## Functions and files -/

theorem tells_declareParams (line : Nat) (params : List Parameter) (i : Nat) :
    TellsBool (declareParams line params i) := by
  induction params generalizing i with
  | nil => exact fun sa _ => .refl sa
  | cons param params ih =>
    intro sa hopen
    unfold declareParams
    apply wp_seq (tells_semanticScopeDeclare _ sa hopen)
    intro ok sa₁ htold
    apply wp_seq (ih (i + 1) sa₁ (htold.open hopen))
    intro paramsOk sa₂ htold'
    exact htold.and htold'

theorem tells_analyzeBody (body : ASTNode) : TellsTree (analyzeBody body) := by
  intro sa hopen
  unfold analyzeBody
  split
  · rename_i statements
    apply wp_seq (tells_analyzeStatements statements sa hopen)
    rintro ⟨statements', bodyOk⟩ sa' htold
    exact htold
  · exact .refl sa

/-- What the parser leaves in a file. -/
def isTopLevel : ASTNode → Bool
  | .null | .function _ _ _ _ _ _ => true
  | _ => false

/-- The analysis of functions tells what it rejects, outside of scopes as well. -/
theorem tells_analyzeNode {node : ASTNode} (htop : isTopLevel node = true)
    (sa : SemanticAnalyzer) : wp Anyhow (analyzeNode node) (fun r sa' => Told sa r.2 sa') sa := by
  cases node with
  | function info name returnType params body isPrototype =>
    unfold analyzeNode
    refine wp_ite (fun _ => .refl sa) fun _ => ?_
    rw [wp_bind, wp_modify, wp_bind, wp_semanticScopeEnter]
    apply wp_seq (tells_declareParams info.line params 0 _ (List.cons_ne_nil _ _))
    intro paramsOk sa₁ htold
    apply wp_seq (tells_analyzeBody body sa₁ (htold.open (List.cons_ne_nil _ _)))
    rintro ⟨body', bodyOk⟩ sa₂ htold'
    have hboth := htold.and htold'
    refine ⟨?_, hboth.verdict⟩
    have hscopes : sa₂.current.length = sa.current.length + 1 := hboth.scopes
    show sa₂.current.tail.length = _
    rw [List.length_tail, hscopes, Nat.add_sub_cancel]
  | null => exact trivial
  | _ => cases htop

theorem tells_collectVisible {nodes : List ASTNode} (sa : SemanticAnalyzer) :
    wp Anyhow (collectVisible nodes) (fun ok sa' => Told sa ok sa') sa := by
  induction nodes generalizing sa with
  | nil => exact .refl sa
  | cons node nodes ih =>
    cases node with
    | function info name returnType params body isPrototype =>
      unfold collectVisible
      rw [wp_bind, wp_get]
      refine wp_ite (fun _ => ih sa) fun _ => wp_ite (fun _ => ⟨rfl, verdict_error ..⟩) fun _ => ?_
      rw [wp_bind, wp_set]
      exact wp_mono (ih _) fun _ _ htold => ⟨htold.scopes, htold.verdict⟩
    | null => exact trivial
    | _ => exact ih sa

theorem tells_analyzeNodes {nodes : List ASTNode} (htop : ∀ node ∈ nodes,
    isTopLevel node = true) (sa : SemanticAnalyzer) :
    wp Anyhow (analyzeNodes nodes) (fun r sa' => Told sa r.2 sa') sa := by
  induction nodes generalizing sa with
  | nil => exact .refl sa
  | cons node nodes ih =>
    obtain ⟨hnode, hnodes⟩ := List.forall_mem_cons.mp htop
    unfold analyzeNodes
    apply wp_seq (tells_analyzeNode hnode sa)
    rintro ⟨node', ok⟩ sa₁ htold
    apply wp_seq (ih hnodes sa₁)
    rintro ⟨nodes', allOk⟩ sa₂ htold'
    exact htold.and htold'

/-- `semantic_analyze` on functions tells what it rejects. -/
theorem tells_semanticAnalyze {nodes : List ASTNode} (htop : ∀ node ∈ nodes,
    isTopLevel node = true) (sa : SemanticAnalyzer) :
    wp Anyhow (semanticAnalyze nodes) (fun r sa' => Told sa r.2 sa') sa := by
  unfold semanticAnalyze
  apply wp_seq (tells_collectVisible sa)
  intro ok sa₁ htold
  refine wp_ite (fun hok => ?_) fun hfailed => ?_
  · obtain rfl : ok = true := hok
    apply wp_mono (tells_analyzeNodes htop sa₁)
    intro r sa₂ htold'
    exact htold.and htold'
  · exact Bool.eq_false_iff.mpr hfailed ▸ htold

end TinyCompile.Semantic
