import TinyCompile.Logic.Wp
import TinyCompile.Semantic.Analyze

set_option autoImplicit false

/-!
# Semantic: what analysis accepts

The typing rules behind the analyzer, without tables, errors and state.  A judgement
relates a tree to the tree with types, under the variables in scope, and lists which
declaration each variable occurrence stands for.  What the analyzer accepts has a
derivation.
-/

namespace TinyCompile.Semantic

open TinyCompile.Source TinyCompile.Logic

/-- The functions a body may call. -/
structure Context where
  visible : List StringView
  global : GlobalScope

/-- Which declaration the occurrence at an address stands for. -/
abbrev Uses := List (Nat × Decl)

/-- A value of type `src` may go where type `dest` is wanted. -/
def Compatible (dest src : DataType) : Prop := dest = src ∨ src ≠ .void ∧ dest ≠ .void

/-- The nodes that are not expressions. -/
def isStatementNode : ASTNode → Bool
  | .varDecl _ _ _ _ | .assignment _ _ _ | .ifStmt _ _ _ _ | .whileStmt _ _ _ | .block _ _
  | .returnStmt _ _ | .function _ _ _ _ _ _ | .translationUnit _ _ => true
  | _ => false

/-- The nodes that have a case in `analyze_statement`, or are not there. -/
def hasStatementCase : ASTNode → Bool
  | .null | .varDecl _ _ _ _ | .assignment _ _ _ | .returnStmt _ _ | .ifStmt _ _ _ _
  | .whileStmt _ _ _ | .block _ _ => true
  | _ => false

mutual

/-- `TypesExpr Γ vars node node' uses`: the expression `node` is accepted and becomes
`node'`.  What no case of the analyzer mentions is accepted unseen. -/
inductive TypesExpr (Γ : Context) (vars : Vars) : ASTNode → ASTNode → Uses → Prop
  | null : TypesExpr Γ vars .null .null []
  | number (info : NodeInfo) (value : StringView) :
      TypesExpr Γ vars (.number info value)
        (.number (annotate info (numberType (svToInt64 value))) value) []
  | identifier {info : NodeInfo} {name : StringView} {var : VarInfo}
      (hvar : vars.find name = some var) :
      TypesExpr Γ vars (.identifier info name) (.identifier (annotate info var.type) name)
        [(info.addr, var.decl)]
  | call {info : NodeInfo} {functionName : StringView} {args args' : List ASTNode}
      {func : FunctionInfo} {uses : Uses}
      (hvisible : (Γ.visible.any fun f => svEq f functionName) = true)
      (hfunc : semanticGlobalLookupFunction Γ.global functionName = some func)
      (hargs : TypesArgs Γ vars func.params args args' uses) :
      TypesExpr Γ vars (.call info functionName args)
        (.call (annotate info func.returnType) functionName args') uses
  | arithmetic {op : BinaryOp} {info : NodeInfo} {left right left' right' : ASTNode}
      {leftType rightType : DataType} {uses uses' : Uses} (hop : binaryCase op = .arithmetic)
      (hleft : TypesExpr Γ vars left left' uses) (hright : TypesExpr Γ vars right right' uses')
      (hleftType : left'.valueType? = some leftType)
      (hrightType : right'.valueType? = some rightType) :
      TypesExpr Γ vars (.binary op info left right)
        (.binary op (annotate info (largerType leftType rightType)) left' right') (uses ++ uses')
  | comparison {op : BinaryOp} {info : NodeInfo} {left right left' right' : ASTNode}
      {uses uses' : Uses} (hop : binaryCase op = .comparison)
      (hleft : TypesExpr Γ vars left left' uses) (hright : TypesExpr Γ vars right right' uses') :
      TypesExpr Γ vars (.binary op info left right)
        (.binary op (annotate info .int64) left' right') (uses ++ uses')
  | bitwise {op : BinaryOp} {info : NodeInfo} {left right left' right' : ASTNode}
      {leftType : DataType} {uses uses' : Uses} (hop : binaryCase op = .bitwise)
      (hleft : TypesExpr Γ vars left left' uses) (hright : TypesExpr Γ vars right right' uses')
      (hleftType : left'.valueType? = some leftType) :
      TypesExpr Γ vars (.binary op info left right)
        (.binary op (annotate info (bitwiseType leftType)) left' right') (uses ++ uses')
  | unseen {op : BinaryOp} (hop : binaryCase op = .default) (info : NodeInfo)
      (left right : ASTNode) :
      TypesExpr Γ vars (.binary op info left right) (.binary op info left right) []
  | not {info : NodeInfo} {operand operand' : ASTNode} {uses : Uses}
      (hoperand : TypesExpr Γ vars operand operand' uses) :
      TypesExpr Γ vars (.unary .not info operand)
        (.unary .not (annotate info .int64) operand') uses
  | sign {op : UnaryOp} {info : NodeInfo} {operand operand' : ASTNode} {type : DataType}
      {uses : Uses} (hop : op ≠ .not) (hoperand : TypesExpr Γ vars operand operand' uses)
      (htype : operand'.valueType? = some type) :
      TypesExpr Γ vars (.unary op info operand) (.unary op (annotate info type) operand') uses
  | misplaced {node : ASTNode} (h : isStatementNode node = true) : TypesExpr Γ vars node node []

/-- The arguments of a call, against the parameters of the function. -/
inductive TypesArgs (Γ : Context) (vars : Vars) :
    List Parameter → List ASTNode → List ASTNode → Uses → Prop
  | nil : TypesArgs Γ vars [] [] [] []
  | cons {param : Parameter} {params : List Parameter} {arg arg' : ASTNode}
      {args args' : List ASTNode} {type : DataType} {uses uses' : Uses}
      (harg : TypesExpr Γ vars arg arg' uses) (htype : arg'.valueType? = some type)
      (hcompatible : Compatible param.type type)
      (hargs : TypesArgs Γ vars params args args' uses') :
      TypesArgs Γ vars (param :: params) (arg :: args) (arg' :: args') (uses ++ uses')

end

/-- A value that may go where type `dest` is wanted. -/
def TypesValue (Γ : Context) (vars : Vars) (dest : DataType) (node node' : ASTNode)
    (uses : Uses) : Prop :=
  TypesExpr Γ vars node node' uses ∧ ∃ type, node'.valueType? = some type ∧ Compatible dest type

/-- The variable that a declaration node declares. -/
def declared (info : NodeInfo) (varName : StringView) (varType : DataType) : VarInfo :=
  ⟨varName, varType, false, info.line, .var info.addr⟩

mutual

/-- `TypesStmt Γ ret vars node node' vars' uses`: in a function that returns `ret`, the
statement `node` is accepted and becomes `node'`; behind it the variables `vars'` are in
scope. -/
inductive TypesStmt (Γ : Context) (ret : DataType) :
    Vars → ASTNode → ASTNode → Vars → Uses → Prop
  | null (vars : Vars) : TypesStmt Γ ret vars .null .null vars []
  | varDecl (vars : Vars) (info : NodeInfo) (varName : StringView) (varType : DataType) :
      TypesStmt Γ ret vars (.varDecl info varName varType .null)
        (.varDecl info varName varType .null) (declared info varName varType :: vars) []
  | varInit {vars : Vars} {info : NodeInfo} {varName : StringView} {varType : DataType}
      {initializer initializer' : ASTNode} {uses : Uses} (hnull : initializer.isNull = false)
      (hinit : TypesValue Γ vars varType initializer initializer' uses) :
      TypesStmt Γ ret vars (.varDecl info varName varType initializer)
        (.varDecl info varName varType initializer') (declared info varName varType :: vars) uses
  | assignment {vars : Vars} {info : NodeInfo} {varName : StringView} {value value' : ASTNode}
      {var : VarInfo} {uses : Uses} (hvar : vars.find varName = some var)
      (hvalue : TypesValue Γ vars var.type value value' uses) :
      TypesStmt Γ ret vars (.assignment info varName value)
        (.assignment (annotate info var.type) varName value') vars ((info.addr, var.decl) :: uses)
  | returnVoid {vars : Vars} (info : NodeInfo) (hret : ret = .void) :
      TypesStmt Γ ret vars (.returnStmt info .null) (.returnStmt info .null) vars []
  | returnValue {vars : Vars} {info : NodeInfo} {expression expression' : ASTNode} {uses : Uses}
      (hnull : expression.isNull = false) (hret : ret ≠ .void)
      (hvalue : TypesValue Γ vars ret expression expression' uses) :
      TypesStmt Γ ret vars (.returnStmt info expression)
        (.returnStmt (annotate info ret) expression') vars uses
  | ifThen {vars vars' : Vars} {info : NodeInfo}
      {condition condition' thenBranch thenBranch' : ASTNode} {uses uses' : Uses}
      (hcondition : TypesExpr Γ vars condition condition' uses)
      (hthen : TypesStmt Γ ret vars thenBranch thenBranch' vars' uses') :
      TypesStmt Γ ret vars (.ifStmt info condition thenBranch .null)
        (.ifStmt info condition' thenBranch' .null) vars' (uses ++ uses')
  | ifElse {vars vars' vars'' : Vars} {info : NodeInfo}
      {condition condition' thenBranch thenBranch' elseBranch elseBranch' : ASTNode}
      {uses uses' uses'' : Uses} (hcondition : TypesExpr Γ vars condition condition' uses)
      (hthen : TypesStmt Γ ret vars thenBranch thenBranch' vars' uses')
      (hnull : elseBranch.isNull = false)
      (helse : TypesStmt Γ ret vars' elseBranch elseBranch' vars'' uses'') :
      TypesStmt Γ ret vars (.ifStmt info condition thenBranch elseBranch)
        (.ifStmt info condition' thenBranch' elseBranch') vars'' (uses ++ uses' ++ uses'')
  | whileLoop {vars vars' : Vars} {info : NodeInfo} {condition condition' body body' : ASTNode}
      {uses uses' : Uses} (hcondition : TypesExpr Γ vars condition condition' uses)
      (hbody : TypesStmt Γ ret vars body body' vars' uses') :
      TypesStmt Γ ret vars (.whileStmt info condition body)
        (.whileStmt info condition' body') vars' (uses ++ uses')
  | block {vars vars' : Vars} {info : NodeInfo} {statements statements' : List ASTNode}
      {uses : Uses} (hstatements : TypesStmts Γ ret vars statements statements' vars' uses) :
      TypesStmt Γ ret vars (.block info statements) (.block info statements') vars uses
  | expr {vars : Vars} {node node' : ASTNode} {uses : Uses}
      (hnode : hasStatementCase node = false) (h : TypesExpr Γ vars node node' uses) :
      TypesStmt Γ ret vars node node' vars uses

/-- The statements of a block in order. -/
inductive TypesStmts (Γ : Context) (ret : DataType) :
    Vars → List ASTNode → List ASTNode → Vars → Uses → Prop
  | nil (vars : Vars) : TypesStmts Γ ret vars [] [] vars []
  | cons {vars vars' vars'' : Vars} {stmt stmt' : ASTNode} {rest rest' : List ASTNode}
      {uses uses' : Uses} (hstmt : TypesStmt Γ ret vars stmt stmt' vars' uses)
      (hrest : TypesStmts Γ ret vars' rest rest' vars'' uses') :
      TypesStmts Γ ret vars (stmt :: rest) (stmt' :: rest') vars'' (uses ++ uses')

end

/-! ## The analyzer's state -/

/-- The functions a body may call, in a state of the analyzer. -/
def SemanticAnalyzer.context (sa : SemanticAnalyzer) : Context := ⟨sa.visibleFuncs, sa.global⟩

/-- Between two states, at most errors were reported. -/
def Reports (sa sa' : SemanticAnalyzer) : Prop := ∃ errors, sa' = { sa with errors := errors }

/-- Between two states, at most errors were reported and uses recorded. -/
def Records (uses : Uses) (sa sa' : SemanticAnalyzer) : Prop :=
  ∃ errors, sa' = { sa with errors := errors, history := sa.history ++ uses }

theorem Reports.refl (sa : SemanticAnalyzer) : Reports sa sa := ⟨sa.errors, rfl⟩

theorem Reports.records {sa sa' : SemanticAnalyzer} (h : Reports sa sa') : Records [] sa sa' := by
  obtain ⟨errors, rfl⟩ := h
  exact ⟨errors, by simp⟩

theorem Records.refl (sa : SemanticAnalyzer) : Records [] sa sa := (Reports.refl sa).records

theorem Records.trans {uses uses' : Uses} {sa sa₁ sa₂ : SemanticAnalyzer}
    (h : Records uses sa sa₁) (h' : Records uses' sa₁ sa₂) : Records (uses ++ uses') sa sa₂ := by
  obtain ⟨errors, rfl⟩ := h
  obtain ⟨errors', rfl⟩ := h'
  exact ⟨errors', by simp⟩

/-- Any way to end. -/
def Anyhow : Stop → Prop := fun _ => True

@[simp] theorem wp_errorSemantic {Q : Unit → SemanticAnalyzer → Prop} {sa : SemanticAnalyzer}
    (line column : Nat) (message : String) :
    wp Anyhow (errorSemantic line column message) Q sa ↔ Q () { sa with
      errors := errorAdd sa.errors .semantic .error (some sa.filename) line column message } :=
  Iff.rfl

@[simp] theorem wp_semanticScopeEnter {Q : Unit → SemanticAnalyzer → Prop}
    {sa : SemanticAnalyzer} :
    wp Anyhow semanticScopeEnter Q sa ↔ Q () { sa with current := .empty :: sa.current } :=
  Iff.rfl

@[simp] theorem wp_recordResolved {Q : Unit → SemanticAnalyzer → Prop} {sa : SemanticAnalyzer}
    (node : Nat) (var : VarInfo) :
    wp Anyhow (recordResolved node var) Q sa ↔
      Q () { sa with history := sa.history ++ [(node, var.decl)] } := Iff.rfl

theorem infoOf_spec (node : ASTNode) (sa : SemanticAnalyzer) :
    wp Anyhow (infoOf node) (fun info sa' => node.info? = some info ∧ sa' = sa) sa := by
  unfold infoOf
  split
  · rename_i info hinfo
    exact ⟨hinfo, rfl⟩
  · exact trivial

theorem valueTypeOf_spec (node : ASTNode) (sa : SemanticAnalyzer) :
    wp Anyhow (valueTypeOf node) (fun type sa' => node.valueType? = some type ∧ sa' = sa) sa := by
  unfold valueTypeOf
  apply wp_seq (infoOf_spec node sa)
  rintro info sa' ⟨hinfo, rfl⟩
  refine ⟨?_, rfl⟩
  rw [ASTNode.valueType?, hinfo]
  rfl

theorem Records.models {uses : Uses} {sa sa' : SemanticAnalyzer} (h : Records uses sa sa')
    {vars : Vars} (hmodels : Models sa.current vars) : Models sa'.current vars := by
  obtain ⟨errors, rfl⟩ := h
  exact hmodels

theorem Records.context_eq {uses : Uses} {sa sa' : SemanticAnalyzer} (h : Records uses sa sa') :
    sa'.context = sa.context := by
  obtain ⟨errors, rfl⟩ := h
  rfl

theorem Records.then_reports {uses : Uses} {sa sa₁ sa₂ : SemanticAnalyzer}
    (h : Records uses sa sa₁) (h' : Reports sa₁ sa₂) : Records uses sa sa₂ := by
  have htrans := h.trans h'.records
  rwa [List.append_nil] at htrans

/-! ## Types -/

/-- Types that pass the check are compatible. -/
theorem checkTypeCompatibility_spec (dest src : DataType) (node : ASTNode)
    (sa : SemanticAnalyzer) :
    wp Anyhow (checkTypeCompatibility dest src node) (fun ok sa' =>
      Reports sa sa' ∧ (ok = true → Compatible dest src)) sa := by
  unfold checkTypeCompatibility
  by_cases hsame : dest = src
  · rw [if_pos hsame]
    exact ⟨.refl sa, fun _ => .inl hsame⟩
  rw [if_neg hsame]
  by_cases hvoid : src = .void ∨ dest = .void
  · rw [if_pos hvoid]
    apply wp_seq (infoOf_spec node sa)
    rintro info sa' ⟨-, rfl⟩
    exact ⟨⟨_, rfl⟩, nofun⟩
  rw [if_neg hvoid]
  have hcompatible : Compatible dest src := .inr (not_or.mp hvoid)
  have hintegers : (typeIsInteger dest && typeIsInteger src) = true := by
    obtain ⟨hsrc, hdest⟩ := not_or.mp hvoid
    simp [typeIsInteger, hsrc, hdest]
  rw [if_pos hintegers]
  by_cases hnarrow : typeSize dest < typeSize src
  · -- at most a warning is reported
    rw [if_pos hnarrow]
    apply wp_seq (R := fun _ sa' => sa' = sa)
    · exact wp_liftM (fun _ _ => rfl) fun _ _ => trivial
    rintro value sa' rfl
    apply wp_ite
    · intro _
      apply wp_seq (infoOf_spec node sa')
      rintro info sa'' ⟨-, rfl⟩
      exact ⟨⟨_, rfl⟩, fun _ => hcompatible⟩
    · intro _
      exact ⟨.refl sa', fun _ => hcompatible⟩
  · rw [if_neg hnarrow]
    exact ⟨.refl sa, fun _ => hcompatible⟩

/-! ## Expressions -/

/-- A computation analyzes an expression: what it accepts has a derivation. -/
def AnalyzesExpr (vars : Vars) (node : ASTNode) (x : SemM (ASTNode × Bool)) : Prop :=
  ∀ sa, Models sa.current vars → wp Anyhow x (fun r sa' => ∃ uses, Records uses sa sa' ∧
    (r.2 = true → TypesExpr sa.context vars node r.1 uses)) sa

/-- The same for the arguments of a call. -/
def AnalyzesArgs (vars : Vars) (params : List Parameter) (args : List ASTNode)
    (x : SemM (List ASTNode × Bool)) : Prop :=
  ∀ sa, Models sa.current vars → wp Anyhow x (fun r sa' => ∃ uses, Records uses sa sa' ∧
    (r.2 = true → TypesArgs sa.context vars params args r.1 uses)) sa

theorem analyzeIdentifier_spec (vars : Vars) (info : NodeInfo) (name : StringView) :
    AnalyzesExpr vars (.identifier info name) (analyzeIdentifier info name) := by
  intro sa hmodels
  unfold analyzeIdentifier
  rw [wp_bind, wp_get, hmodels.lookup]
  split
  · exact ⟨[], Reports.records ⟨_, rfl⟩, nofun⟩
  · rename_i var hvar
    exact ⟨[(info.addr, var.decl)], ⟨sa.errors, rfl⟩, fun _ => .identifier hvar⟩

theorem analyzeCall_spec {vars : Vars} {args : List ASTNode} (info : NodeInfo)
    (functionName : StringView) {analyze : List Parameter → SemM (List ASTNode × Bool)}
    (hargs : ∀ params : List Parameter, args.length = params.length →
      AnalyzesArgs vars params args (analyze params)) :
    AnalyzesExpr vars (.call info functionName args)
      (analyzeCall info functionName args analyze) := by
  intro sa hmodels
  unfold analyzeCall
  rw [wp_bind, wp_get]
  by_cases hvisible : (sa.visibleFuncs.any fun f => svEq f functionName) = true
  · have hseen : ¬ (!(sa.visibleFuncs.any fun f => svEq f functionName)) = true := by
      simp [hvisible]
    rw [if_neg hseen]
    split
    · exact ⟨[], Reports.records ⟨_, rfl⟩, nofun⟩
    · rename_i func hfunc
      by_cases hlength : args.length = func.params.length
      · rw [if_neg (not_not.mpr hlength)]
        apply wp_seq (hargs func.params hlength sa hmodels)
        rintro ⟨args', allOk⟩ sa' ⟨uses, hrecords, htypes⟩
        exact ⟨uses, hrecords, fun hok => .call hvisible hfunc (htypes hok)⟩
      · rw [if_pos hlength]
        exact ⟨[], Reports.records ⟨_, rfl⟩, nofun⟩
  · have hunseen : (!(sa.visibleFuncs.any fun f => svEq f functionName)) = true := by
      rw [Bool.not_eq_true', Bool.eq_false_iff]
      exact hvisible
    rw [if_pos hunseen]
    exact ⟨[], Reports.records ⟨_, rfl⟩, nofun⟩

theorem analyzeBinary_spec {vars : Vars} {left right : ASTNode} (op : BinaryOp)
    (info : NodeInfo) {analyzeLeft analyzeRight : SemM (ASTNode × Bool)}
    (hleft : AnalyzesExpr vars left analyzeLeft) (hright : AnalyzesExpr vars right analyzeRight) :
    AnalyzesExpr vars (.binary op info left right)
      (analyzeBinary op info left right analyzeLeft analyzeRight) := by
  intro sa hmodels
  unfold analyzeBinary
  split
  · rename_i hop
    apply wp_seq (hleft sa hmodels)
    rintro ⟨left', leftOk⟩ sa₁ ⟨uses, hrecords, hl⟩
    apply wp_seq (hright sa₁ (hrecords.models hmodels))
    rintro ⟨right', rightOk⟩ sa₂ ⟨uses', hrecords', hr⟩
    have hboth := hrecords.trans hrecords'
    rw [hrecords.context_eq] at hr
    apply wp_ite
    · intro _
      exact ⟨uses ++ uses', hboth, nofun⟩
    · intro hok
      simp only [Bool.or_eq_true, Bool.not_eq_true', not_or, Bool.not_eq_false] at hok
      apply wp_seq (valueTypeOf_spec left' sa₂)
      rintro leftType _ ⟨hleftType, rfl⟩
      apply wp_seq (valueTypeOf_spec right' _)
      rintro rightType _ ⟨hrightType, rfl⟩
      exact ⟨uses ++ uses', hboth, fun _ =>
        .arithmetic hop (hl hok.1) (hr hok.2) hleftType hrightType⟩
  · rename_i hop
    apply wp_seq (hleft sa hmodels)
    rintro ⟨left', leftOk⟩ sa₁ ⟨uses, hrecords, hl⟩
    apply wp_seq (hright sa₁ (hrecords.models hmodels))
    rintro ⟨right', rightOk⟩ sa₂ ⟨uses', hrecords', hr⟩
    rw [hrecords.context_eq] at hr
    refine ⟨uses ++ uses', hrecords.trans hrecords', fun hok => ?_⟩
    obtain ⟨hleftOk, hrightOk⟩ := Bool.and_eq_true_iff.mp hok
    exact .comparison hop (hl hleftOk) (hr hrightOk)
  · rename_i hop
    apply wp_seq (hleft sa hmodels)
    rintro ⟨left', leftOk⟩ sa₁ ⟨uses, hrecords, hl⟩
    apply wp_seq (hright sa₁ (hrecords.models hmodels))
    rintro ⟨right', rightOk⟩ sa₂ ⟨uses', hrecords', hr⟩
    have hboth := hrecords.trans hrecords'
    rw [hrecords.context_eq] at hr
    apply wp_ite
    · intro _
      exact ⟨uses ++ uses', hboth, nofun⟩
    · intro hok
      simp only [Bool.or_eq_true, Bool.not_eq_true', not_or, Bool.not_eq_false] at hok
      apply wp_seq (valueTypeOf_spec left' sa₂)
      rintro leftType _ ⟨hleftType, rfl⟩
      exact ⟨uses ++ uses', hboth, fun _ => .bitwise hop (hl hok.1) (hr hok.2) hleftType⟩
  · rename_i hop
    exact ⟨[], .refl sa, fun _ => .unseen hop info left right⟩

theorem analyzeUnary_spec {vars : Vars} {operand : ASTNode} (op : UnaryOp) (info : NodeInfo)
    {analyze : SemM (ASTNode × Bool)} (hoperand : AnalyzesExpr vars operand analyze) :
    AnalyzesExpr vars (.unary op info operand) (analyzeUnary op info analyze) := by
  intro sa hmodels
  unfold analyzeUnary
  apply wp_seq (hoperand sa hmodels)
  rintro ⟨operand', ok⟩ sa₁ ⟨uses, hrecords, ho⟩
  have hsign : op ≠ .not → wp Anyhow
      (if ok = true then do
        return (.unary op (annotate info (← valueTypeOf operand')) operand', true)
      else return (.unary op info operand', false) : SemM (ASTNode × Bool))
      (fun r sa' => ∃ uses, Records uses sa sa' ∧
        (r.2 = true → TypesExpr sa.context vars (.unary op info operand) r.1 uses)) sa₁ := by
    intro hop
    apply wp_ite
    · intro hok
      apply wp_seq (valueTypeOf_spec operand' sa₁)
      rintro type _ ⟨htype, rfl⟩
      exact ⟨uses, hrecords, fun _ => .sign hop (ho hok) htype⟩
    · intro _
      exact ⟨uses, hrecords, nofun⟩
  cases op with
  | not => exact ⟨uses, hrecords, fun hok => .not (ho hok)⟩
  | negate => exact hsign nofun
  | bitNot => exact hsign nofun

mutual

/-- What `analyze_expression` accepts has a derivation. -/
theorem analyzeExpression_spec (vars : Vars) (node : ASTNode) :
    AnalyzesExpr vars node (analyzeExpression node) := by
  cases node with
  | null => exact fun sa _ => ⟨[], .refl sa, fun _ => .null⟩
  | number info value => exact fun sa _ => ⟨[], .refl sa, fun _ => .number info value⟩
  | identifier info name => exact analyzeIdentifier_spec vars info name
  | call info functionName args =>
    exact analyzeCall_spec info functionName fun params hlength =>
      analyzeArgs_spec vars args params hlength
  | binary op info left right =>
    exact analyzeBinary_spec op info (analyzeExpression_spec vars left)
      (analyzeExpression_spec vars right)
  | unary op info operand =>
    exact analyzeUnary_spec op info (analyzeExpression_spec vars operand)
  | _ => exact fun sa _ => ⟨[], .refl sa, fun _ => .misplaced rfl⟩

theorem analyzeArgs_spec (vars : Vars) (args : List ASTNode) (params : List Parameter)
    (hlength : args.length = params.length) :
    AnalyzesArgs vars params args (analyzeArgs args params) := by
  intro sa hmodels
  cases args with
  | nil =>
    obtain rfl := List.length_eq_zero_iff.mp hlength.symm
    exact ⟨[], .refl sa, fun _ => .nil⟩
  | cons arg rest =>
    obtain ⟨param, params, rfl⟩ := List.exists_cons_of_length_eq_add_one hlength.symm
    unfold analyzeArgs
    apply wp_seq (analyzeExpression_spec vars arg sa hmodels)
    rintro ⟨arg', ok⟩ sa₁ ⟨uses, hrecords, harg⟩
    apply wp_seq (valueTypeOf_spec arg' sa₁)
    rintro type _ ⟨htype, rfl⟩
    apply wp_seq (checkTypeCompatibility_spec param.type type arg' _)
    rintro compatible sa₂ ⟨hreports, hcompatible⟩
    have hrecords' := hrecords.then_reports hreports
    apply wp_seq (analyzeArgs_spec vars rest params (Nat.succ.inj hlength) sa₂
      (hrecords'.models hmodels))
    rintro ⟨rest', allOk⟩ sa₃ ⟨uses', hrecords'', hrest⟩
    rw [hrecords'.context_eq] at hrest
    refine ⟨uses ++ uses', hrecords'.trans hrecords'', fun hall => ?_⟩
    simp only [Bool.and_eq_true] at hall
    exact .cons (harg hall.1.1) htype (hcompatible hall.1.2) (hrest hall.2)

end

/-! ## Statements -/

/-- Between two states, errors were reported and uses recorded, and the open scopes became
`chain`. -/
def Moves (uses : Uses) (chain : List Scope) (sa sa' : SemanticAnalyzer) : Prop :=
  ∃ errors,
    sa' = { sa with current := chain, errors := errors, history := sa.history ++ uses }

theorem Records.moves {uses : Uses} {sa sa' : SemanticAnalyzer} (h : Records uses sa sa') :
    Moves uses sa.current sa sa' := by
  obtain ⟨errors, rfl⟩ := h
  exact ⟨errors, rfl⟩

theorem Moves.trans {uses uses' : Uses} {chain chain' : List Scope}
    {sa sa₁ sa₂ : SemanticAnalyzer} (h : Moves uses chain sa sa₁)
    (h' : Moves uses' chain' sa₁ sa₂) : Moves (uses ++ uses') chain' sa sa₂ := by
  obtain ⟨errors, rfl⟩ := h
  obtain ⟨errors', rfl⟩ := h'
  exact ⟨errors', by simp⟩

theorem Records.then_moves {uses uses' : Uses} {chain : List Scope}
    {sa sa₁ sa₂ : SemanticAnalyzer} (h : Records uses sa sa₁) (h' : Moves uses' chain sa₁ sa₂) :
    Moves (uses ++ uses') chain sa sa₂ := h.moves.trans h'

/-- A computation analyzes a statement: the innermost scope grows, and what is accepted
has a derivation. -/
def AnalyzesStmt (vars : Vars) (node : ASTNode) (x : SemM (ASTNode × Bool)) : Prop :=
  ∀ sa scope parents, sa.current = scope :: parents → Models sa.current vars →
    wp Anyhow x (fun r sa' => ∃ uses scope' vars', Moves uses (scope' :: parents) sa sa' ∧
      Models (scope' :: parents) vars' ∧ (r.2 = true →
        TypesStmt sa.context sa.currentReturnType vars node r.1 vars' uses)) sa

/-- The same for the statements of a block. -/
def AnalyzesStmts (vars : Vars) (nodes : List ASTNode) (x : SemM (List ASTNode × Bool)) : Prop :=
  ∀ sa scope parents, sa.current = scope :: parents → Models sa.current vars →
    wp Anyhow x (fun r sa' => ∃ uses scope' vars', Moves uses (scope' :: parents) sa sa' ∧
      Models (scope' :: parents) vars' ∧ (r.2 = true →
        TypesStmts sa.context sa.currentReturnType vars nodes r.1 vars' uses)) sa

theorem AnalyzesExpr.stmt {vars : Vars} {node : ASTNode} {x : SemM (ASTNode × Bool)}
    (h : AnalyzesExpr vars node x) (hnode : hasStatementCase node = false) :
    AnalyzesStmt vars node x := by
  intro sa scope parents hcurrent hmodels
  apply wp_mono (h sa hmodels)
  rintro r sa' ⟨uses, hrecords, htypes⟩
  rw [hcurrent] at hmodels
  refine ⟨uses, scope, vars, ?_, hmodels, fun hok => .expr hnode (htypes hok)⟩
  rw [← hcurrent]
  exact hrecords.moves

/-- A declaration puts its variable in scope unless it is refused. -/
theorem semanticScopeDeclare_spec {vars : Vars} (var : VarInfo) {sa : SemanticAnalyzer}
    {scope : Scope} {parents : List Scope} (hcurrent : sa.current = scope :: parents)
    (hmodels : Models sa.current vars) :
    wp Anyhow (semanticScopeDeclare var) (fun ok sa' => ∃ scope' vars',
      Moves [] (scope' :: parents) sa sa' ∧ Models (scope' :: parents) vars' ∧
        (ok = true → vars' = var :: vars)) sa := by
  unfold semanticScopeDeclare
  rw [wp_bind, wp_get, hcurrent]
  rw [hcurrent] at hmodels
  dsimp only
  split
  · rename_i scope' hdeclare
    exact ⟨scope', var :: vars, ⟨sa.errors, by simp⟩, hmodels.declare hdeclare, fun _ => rfl⟩
  · exact ⟨scope, vars, ⟨_, by simp [← hcurrent]; rfl⟩, hmodels, nofun⟩
  · exact ⟨scope, vars, ⟨_, by simp [← hcurrent]; rfl⟩, hmodels, nofun⟩

theorem analyzeValue_spec (vars : Vars) (dest : DataType) (value : ASTNode)
    (sa : SemanticAnalyzer) (hmodels : Models sa.current vars) :
    wp Anyhow (analyzeValue dest value) (fun r sa' => ∃ uses, Records uses sa sa' ∧
      (r.2 = true → TypesValue sa.context vars dest value r.1 uses)) sa := by
  unfold analyzeValue
  apply wp_seq (analyzeExpression_spec vars value sa hmodels)
  rintro ⟨value', ok⟩ sa₁ ⟨uses, hrecords, htypes⟩
  apply wp_ite
  · intro hok
    apply wp_seq (valueTypeOf_spec value' sa₁)
    rintro type _ ⟨htype, rfl⟩
    apply wp_seq (checkTypeCompatibility_spec dest type value' _)
    rintro compatible sa₂ ⟨hreports, hcompatible⟩
    exact ⟨uses, hrecords.then_reports hreports, fun h =>
      ⟨htypes hok, type, htype, hcompatible h⟩⟩
  · intro _
    exact ⟨uses, hrecords, nofun⟩

theorem analyzeInitializer_spec {vars : Vars} (info : NodeInfo) (varName : StringView)
    (varType : DataType) (initializer : ASTNode) {sa : SemanticAnalyzer}
    (hmodels : Models sa.current vars) :
    wp Anyhow (analyzeInitializer varType initializer) (fun r sa' => ∃ uses,
      Records uses sa sa' ∧ (r.2 = true →
        TypesStmt sa.context sa.currentReturnType vars
          (.varDecl info varName varType initializer) (.varDecl info varName varType r.1)
          (declared info varName varType :: vars) uses)) sa := by
  unfold analyzeInitializer
  apply wp_ite
  · intro hnull
    obtain rfl := ASTNode.isNull_iff.mp hnull
    exact ⟨[], .refl sa, fun _ => .varDecl vars info varName varType⟩
  · intro hnull
    apply wp_mono (analyzeValue_spec vars varType initializer sa hmodels)
    rintro r sa' ⟨uses, hrecords, htypes⟩
    exact ⟨uses, hrecords, fun hok => .varInit (Bool.eq_false_iff.mpr hnull) (htypes hok)⟩

theorem analyzeVarDecl_spec (vars : Vars) (info : NodeInfo) (varName : StringView)
    (varType : DataType) (initializer : ASTNode) :
    AnalyzesStmt vars (.varDecl info varName varType initializer)
      (analyzeVarDecl info varName varType initializer) := by
  intro sa scope parents hcurrent hmodels
  unfold analyzeVarDecl
  apply wp_seq (analyzeInitializer_spec info varName varType initializer hmodels)
  rintro ⟨initializer', initOk⟩ sa₁ ⟨uses, hrecords, htypes⟩
  have hcurrent' : sa₁.current = scope :: parents := by
    obtain ⟨errors, rfl⟩ := hrecords
    exact hcurrent
  apply wp_seq (semanticScopeDeclare_spec (declared info varName varType) hcurrent'
    (hrecords.models hmodels))
  rintro declOk sa₂ ⟨scope', vars', hmoves, hmodels', hvars⟩
  refine ⟨uses, scope', vars', ?_, hmodels', fun hok => ?_⟩
  · have htrans := hrecords.then_moves hmoves
    rwa [List.append_nil] at htrans
  · obtain ⟨hinit, hdecl⟩ := Bool.and_eq_true_iff.mp hok
    rw [hvars hdecl]
    exact htypes hinit

theorem analyzeAssignment_spec (vars : Vars) (info : NodeInfo) (varName : StringView)
    (value : ASTNode) :
    AnalyzesStmt vars (.assignment info varName value)
      (analyzeAssignment info varName value) := by
  intro sa scope parents hcurrent hmodels
  unfold analyzeAssignment
  rw [wp_bind, wp_get, hmodels.lookup]
  have hmodels' := hmodels
  rw [hcurrent] at hmodels'
  split
  · refine ⟨[], scope, vars, ?_, hmodels', nofun⟩
    rw [← hcurrent]
    exact (Reports.records ⟨_, rfl⟩).moves
  · rename_i var hvar
    set sa₀ : SemanticAnalyzer := { sa with history := sa.history ++ [(info.addr, var.decl)] }
    have hrecorded : Records [(info.addr, var.decl)] sa sa₀ := ⟨sa.errors, rfl⟩
    rw [wp_bind, wp_recordResolved]
    apply wp_seq (analyzeValue_spec vars var.type value sa₀ hmodels)
    rintro ⟨value', ok⟩ sa₁ ⟨uses, hrecords, htypes⟩
    have hall := (hrecorded.trans hrecords).moves
    rw [hcurrent] at hall
    exact ⟨(info.addr, var.decl) :: uses, scope, vars, hall, hmodels', fun hok =>
      .assignment hvar (htypes hok)⟩

theorem analyzeReturn_spec (vars : Vars) (info : NodeInfo) (expression : ASTNode) :
    AnalyzesStmt vars (.returnStmt info expression) (analyzeReturn info expression) := by
  intro sa scope parents hcurrent hmodels
  unfold analyzeReturn
  rw [wp_bind, wp_get]
  have hmodels' := hmodels
  rw [hcurrent] at hmodels'
  have hstays : ∀ {uses sa'}, Records uses sa sa' → Moves uses (scope :: parents) sa sa' := by
    intro uses sa' h
    rw [← hcurrent]
    exact h.moves
  by_cases hnull : expression.isNull = true
  · obtain rfl := ASTNode.isNull_iff.mp hnull
    rw [if_neg (by simp [ASTNode.isNull])]
    by_cases hret : sa.currentReturnType = .void
    · rw [if_neg (not_not.mpr hret)]
      exact ⟨[], scope, vars, hstays (.refl sa), hmodels', fun _ => .returnVoid info hret⟩
    · rw [if_pos hret]
      exact ⟨[], scope, vars, hstays (Reports.records ⟨_, rfl⟩), hmodels',
        fun hok => absurd hok Bool.false_ne_true⟩
  · rw [if_pos (by simpa using hnull)]
    by_cases hret : sa.currentReturnType = .void
    · rw [if_pos hret]
      exact ⟨[], scope, vars, hstays (Reports.records ⟨_, rfl⟩), hmodels',
        fun hok => absurd hok Bool.false_ne_true⟩
    · rw [if_neg hret]
      apply wp_seq (analyzeValue_spec vars sa.currentReturnType expression sa hmodels)
      rintro ⟨expression', ok⟩ sa₁ ⟨uses, hrecords, htypes⟩
      exact ⟨uses, scope, vars, hstays hrecords, hmodels', fun hok =>
        .returnValue (Bool.eq_false_iff.mpr hnull) hret (htypes hok)⟩

/-- Where a statement follows, the scopes are those that the part in front left. -/
theorem Moves.current_eq {uses : Uses} {chain : List Scope} {sa sa' : SemanticAnalyzer}
    (h : Moves uses chain sa sa') : sa'.current = chain := by
  obtain ⟨errors, rfl⟩ := h
  rfl

theorem Moves.context_eq {uses : Uses} {chain : List Scope} {sa sa' : SemanticAnalyzer}
    (h : Moves uses chain sa sa') : sa'.context = sa.context := by
  obtain ⟨errors, rfl⟩ := h
  rfl

theorem Moves.returnType_eq {uses : Uses} {chain : List Scope} {sa sa' : SemanticAnalyzer}
    (h : Moves uses chain sa sa') : sa'.currentReturnType = sa.currentReturnType := by
  obtain ⟨errors, rfl⟩ := h
  rfl

/-- A statement behind a part that left the variables `vars`. -/
theorem AnalyzesStmt.after {vars : Vars} {node : ASTNode} {x : SemM (ASTNode × Bool)}
    (h : AnalyzesStmt vars node x) {uses : Uses} {scope : Scope} {parents : List Scope}
    {sa sa₁ : SemanticAnalyzer} (hmoves : Moves uses (scope :: parents) sa sa₁)
    (hmodels : Models (scope :: parents) vars) :
    wp Anyhow x (fun r sa' => ∃ uses' scope' vars',
      Moves (uses ++ uses') (scope' :: parents) sa sa' ∧ Models (scope' :: parents) vars' ∧
      (r.2 = true → TypesStmt sa.context sa.currentReturnType vars node r.1 vars' uses')) sa₁ := by
  have hcurrent := hmoves.current_eq
  apply wp_mono (h sa₁ scope parents hcurrent (by rwa [hcurrent]))
  rintro r sa' ⟨uses', scope', vars', hmoves', hmodels', htypes⟩
  rw [hmoves.context_eq, hmoves.returnType_eq] at htypes
  exact ⟨uses', scope', vars', hmoves.trans hmoves', hmodels', htypes⟩

theorem analyzeIf_spec (vars : Vars) (info : NodeInfo) (condition thenBranch elseBranch : ASTNode)
    {analyzeThen analyzeElse : SemM (ASTNode × Bool)}
    (hthen : AnalyzesStmt vars thenBranch analyzeThen)
    (helse : ∀ vars', AnalyzesStmt vars' elseBranch analyzeElse) :
    AnalyzesStmt vars (.ifStmt info condition thenBranch elseBranch)
      (analyzeIf info condition elseBranch analyzeThen analyzeElse) := by
  intro sa scope parents hcurrent hmodels
  unfold analyzeIf
  apply wp_seq (analyzeExpression_spec vars condition sa hmodels)
  rintro ⟨condition', condOk⟩ sa₁ ⟨uses, hrecords, hcondition⟩
  have hmoves := hrecords.moves
  rw [hcurrent] at hmoves hmodels
  apply wp_seq (hthen.after hmoves hmodels)
  rintro ⟨thenBranch', thenOk⟩ sa₂ ⟨uses', scope', vars', hmoves', hmodels', hthen'⟩
  dsimp only
  by_cases hnull : elseBranch.isNull = true
  · obtain rfl := ASTNode.isNull_iff.mp hnull
    rw [wp_bind, analyzeElseBranch, if_pos hnull]
    refine ⟨uses ++ uses', scope', vars', hmoves', hmodels', fun hok => ?_⟩
    simp only [Bool.and_eq_true] at hok
    exact .ifThen (hcondition hok.1.1) (hthen' hok.1.2)
  · rw [analyzeElseBranch, if_neg hnull]
    apply wp_seq ((helse vars').after hmoves' hmodels')
    rintro ⟨elseBranch', elseOk⟩ sa₃ ⟨uses'', scope'', vars'', hmoves'', hmodels'', helse'⟩
    refine ⟨uses ++ uses' ++ uses'', scope'', vars'', hmoves'', hmodels'', fun hok => ?_⟩
    simp only [Bool.and_eq_true] at hok
    exact .ifElse (hcondition hok.1.1) (hthen' hok.1.2) (Bool.eq_false_iff.mpr hnull)
      (helse' hok.2)

theorem analyzeWhile_spec (vars : Vars) (info : NodeInfo) (condition body : ASTNode)
    {analyzeBody : SemM (ASTNode × Bool)} (hbody : AnalyzesStmt vars body analyzeBody) :
    AnalyzesStmt vars (.whileStmt info condition body)
      (analyzeWhile info condition analyzeBody) := by
  intro sa scope parents hcurrent hmodels
  unfold analyzeWhile
  apply wp_seq (analyzeExpression_spec vars condition sa hmodels)
  rintro ⟨condition', condOk⟩ sa₁ ⟨uses, hrecords, hcondition⟩
  have hmoves := hrecords.moves
  rw [hcurrent] at hmoves hmodels
  apply wp_seq (hbody.after hmoves hmodels)
  rintro ⟨body', bodyOk⟩ sa₂ ⟨uses', scope', vars', hmoves', hmodels', hbody'⟩
  refine ⟨uses ++ uses', scope', vars', hmoves', hmodels', fun hok => ?_⟩
  obtain ⟨hcond, hb⟩ := Bool.and_eq_true_iff.mp hok
  exact .whileLoop (hcondition hcond) (hbody' hb)

theorem analyzeBlock_spec (vars : Vars) (info : NodeInfo) (statements : List ASTNode)
    {analyze : SemM (List ASTNode × Bool)} (hstatements : AnalyzesStmts vars statements analyze) :
    AnalyzesStmt vars (.block info statements) (analyzeBlock info analyze) := by
  intro sa scope parents hcurrent hmodels
  unfold analyzeBlock
  set sa₀ : SemanticAnalyzer := { sa with current := .empty :: sa.current } with hsa₀
  have hcurrent' : sa₀.current = .empty :: scope :: parents := by rw [hsa₀, hcurrent]
  rw [wp_bind, wp_semanticScopeEnter]
  apply wp_seq (hstatements sa₀ .empty (scope :: parents) hcurrent' hmodels.enter)
  rintro ⟨statements', allOk⟩ sa₁ ⟨uses, scope', vars', hmoves, -, htypes⟩
  have hclosed : Moves uses (scope :: parents) sa { sa₁ with current := sa₁.current.tail } := by
    obtain ⟨errors, rfl⟩ := hmoves
    exact ⟨errors, rfl⟩
  rw [hcurrent] at hmodels
  exact ⟨uses, scope, vars, hclosed, hmodels, fun hok => .block (htypes hok)⟩

mutual

/-- What `analyze_statement` accepts has a derivation. -/
theorem analyzeStatement_spec (vars : Vars) (node : ASTNode) :
    AnalyzesStmt vars node (analyzeStatement node) := by
  cases node with
  | null =>
    intro sa scope parents hcurrent hmodels
    have hmoves := (Records.refl sa).moves
    rw [hcurrent] at hmoves hmodels
    exact ⟨[], scope, vars, hmoves, hmodels, fun _ => .null vars⟩
  | varDecl info varName varType initializer =>
    exact analyzeVarDecl_spec vars info varName varType initializer
  | assignment info varName value => exact analyzeAssignment_spec vars info varName value
  | returnStmt info expression => exact analyzeReturn_spec vars info expression
  | ifStmt info condition thenBranch elseBranch =>
    exact analyzeIf_spec vars info condition thenBranch elseBranch
      (analyzeStatement_spec vars thenBranch) fun vars' => analyzeStatement_spec vars' elseBranch
  | whileStmt info condition body =>
    exact analyzeWhile_spec vars info condition body (analyzeStatement_spec vars body)
  | block info statements =>
    exact analyzeBlock_spec vars info statements (analyzeStatements_spec vars statements)
  | number info value => exact (analyzeExpression_spec vars (.number info value)).stmt rfl
  | identifier info name => exact (analyzeExpression_spec vars (.identifier info name)).stmt rfl
  | binary op info left right =>
    exact (analyzeExpression_spec vars (.binary op info left right)).stmt rfl
  | unary op info operand => exact (analyzeExpression_spec vars (.unary op info operand)).stmt rfl
  | function info name returnType params body isPrototype =>
    exact (analyzeExpression_spec vars
      (.function info name returnType params body isPrototype)).stmt rfl
  | translationUnit info declarations =>
    exact (analyzeExpression_spec vars (.translationUnit info declarations)).stmt rfl
  | call info functionName args =>
    exact (analyzeExpression_spec vars (.call info functionName args)).stmt rfl

theorem analyzeStatements_spec (vars : Vars) (nodes : List ASTNode) :
    AnalyzesStmts vars nodes (analyzeStatements nodes) := by
  intro sa scope parents hcurrent hmodels
  cases nodes with
  | nil =>
    have hmoves := (Records.refl sa).moves
    rw [hcurrent] at hmoves hmodels
    exact ⟨[], scope, vars, hmoves, hmodels, fun _ => .nil vars⟩
  | cons stmt rest =>
    unfold analyzeStatements
    apply wp_seq (analyzeStatement_spec vars stmt sa scope parents hcurrent hmodels)
    rintro ⟨stmt', ok⟩ sa₁ ⟨uses, scope', vars', hmoves, hmodels', hstmt⟩
    have hcurrent' := hmoves.current_eq
    apply wp_seq (analyzeStatements_spec vars' rest sa₁ scope' parents hcurrent'
      (by rwa [hcurrent']))
    rintro ⟨rest', allOk⟩ sa₂ ⟨uses', scope'', vars'', hmoves', hmodels'', hrest⟩
    rw [hmoves.context_eq, hmoves.returnType_eq] at hrest
    refine ⟨uses ++ uses', scope'', vars'', hmoves.trans hmoves', hmodels'', fun hok => ?_⟩
    obtain ⟨hone, hall⟩ := Bool.and_eq_true_iff.mp hok
    exact .cons (hstmt hone) (hrest hall)

end

/-! ## Functions and files -/

/-- The variables that parameters declare, from parameter `i` on, in front of `vars`. -/
def paramVars (line : Nat) : List Parameter → Nat → Vars → Vars
  | [], _, vars => vars
  | param :: params, i, vars =>
      paramVars line params (i + 1) (⟨param.name, param.type, false, line, .param i⟩ :: vars)

/-- A declaration is accepted; the body of a function must be a block to be looked at. -/
inductive TypesDeclaration (Γ : Context) : ASTNode → ASTNode → Uses → Prop
  | prototype (info : NodeInfo) (name : StringView) (returnType : DataType)
      (params : List Parameter) (body : ASTNode) :
      TypesDeclaration Γ (.function info name returnType params body true)
        (.function info name returnType params body true) []
  | definition {info info' : NodeInfo} {name : StringView} {returnType : DataType}
      {params : List Parameter} {statements statements' : List ASTNode} {vars : Vars} {uses : Uses}
      (h : TypesStmts Γ returnType (paramVars info.line params 0 []) statements statements' vars
        uses) :
      TypesDeclaration Γ (.function info name returnType params (.block info' statements) false)
        (.function info name returnType params (.block info' statements') false) uses
  | bodyless (info : NodeInfo) (name : StringView) (returnType : DataType)
      (params : List Parameter) {body : ASTNode}
      (h : ∀ info' statements, body ≠ .block info' statements) :
      TypesDeclaration Γ (.function info name returnType params body false)
        (.function info name returnType params body false) []

/-- The parameters are put in scope unless one is refused. -/
theorem declareParams_spec (line : Nat) (params : List Parameter) (i : Nat) {vars : Vars}
    {sa : SemanticAnalyzer} {scope : Scope} {parents : List Scope}
    (hcurrent : sa.current = scope :: parents) (hmodels : Models sa.current vars) :
    wp Anyhow (declareParams line params i) (fun ok sa' => ∃ scope' vars',
      Moves [] (scope' :: parents) sa sa' ∧ Models (scope' :: parents) vars' ∧
        (ok = true → vars' = paramVars line params i vars)) sa := by
  induction params generalizing i vars sa scope with
  | nil =>
    have hmoves := (Records.refl sa).moves
    rw [hcurrent] at hmoves hmodels
    exact ⟨scope, vars, hmoves, hmodels, fun _ => rfl⟩
  | cons param params ih =>
    unfold declareParams
    apply wp_seq (semanticScopeDeclare_spec _ hcurrent hmodels)
    rintro ok sa₁ ⟨scope', vars', hmoves, hmodels', hvars⟩
    have hcurrent' := hmoves.current_eq
    apply wp_seq (ih (i + 1) hcurrent' (by rwa [hcurrent']))
    rintro paramsOk sa₂ ⟨scope'', vars'', hmoves', hmodels'', hvars'⟩
    refine ⟨scope'', vars'', hmoves.trans hmoves', hmodels'', fun hok => ?_⟩
    obtain ⟨hone, hall⟩ := Bool.and_eq_true_iff.mp hok
    rw [hvars' hall, hvars hone]
    rfl

theorem analyzeBody_spec {vars : Vars} (info : NodeInfo) (name : StringView)
    (params : List Parameter) (body : ASTNode) {sa : SemanticAnalyzer} {scope : Scope}
    (hcurrent : sa.current = [scope]) (hmodels : Models sa.current vars) :
    wp Anyhow (analyzeBody body) (fun r sa' => ∃ uses scope', Moves uses [scope'] sa sa' ∧
      (vars = paramVars info.line params 0 [] → r.2 = true → TypesDeclaration sa.context
        (.function info name sa.currentReturnType params body false)
        (.function info name sa.currentReturnType params r.1 false) uses)) sa := by
  unfold analyzeBody
  split
  · rename_i info' statements
    apply wp_seq (analyzeStatements_spec vars statements sa scope [] hcurrent hmodels)
    rintro ⟨statements', bodyOk⟩ sa' ⟨uses, scope', vars', hmoves, -, htypes⟩
    refine ⟨uses, scope', hmoves, ?_⟩
    rintro rfl hok
    exact .definition (htypes hok)
  · rename_i hnot
    have hmoves := (Records.refl sa).moves
    rw [hcurrent] at hmoves
    refine ⟨[], scope, hmoves, fun _ _ => ?_⟩
    exact .bodyless info name _ params fun info' statements heq => hnot info' statements heq

/-- What the analysis of a function leaves alone. -/
def Stays (uses : Uses) (sa sa' : SemanticAnalyzer) : Prop :=
  ∃ returnType errors, sa' =
    { sa with currentReturnType := returnType, errors := errors, history := sa.history ++ uses }

theorem Stays.trans {uses uses' : Uses} {sa sa₁ sa₂ : SemanticAnalyzer}
    (h : Stays uses sa sa₁) (h' : Stays uses' sa₁ sa₂) : Stays (uses ++ uses') sa sa₂ := by
  obtain ⟨returnType, errors, rfl⟩ := h
  obtain ⟨returnType', errors', rfl⟩ := h'
  exact ⟨returnType', errors', by simp⟩

theorem Stays.current_eq {uses : Uses} {sa sa' : SemanticAnalyzer} (h : Stays uses sa sa') :
    sa'.current = sa.current := by
  obtain ⟨returnType, errors, rfl⟩ := h
  rfl

theorem Stays.context_eq {uses : Uses} {sa sa' : SemanticAnalyzer} (h : Stays uses sa sa') :
    sa'.context = sa.context := by
  obtain ⟨returnType, errors, rfl⟩ := h
  rfl

/-- What `analyze_node` accepts has a derivation. -/
theorem analyzeNode_spec (node : ASTNode) (sa : SemanticAnalyzer) (hempty : sa.current = []) :
    wp Anyhow (analyzeNode node) (fun r sa' => ∃ uses, Stays uses sa sa' ∧
      (r.2 = true → TypesDeclaration sa.context node r.1 uses)) sa := by
  cases node with
  | null => exact trivial
  | function info name returnType params body isPrototype =>
    unfold analyzeNode
    cases isPrototype with
    | true =>
      exact ⟨[], ⟨sa.currentReturnType, sa.errors, by simp⟩, fun _ =>
        .prototype info name returnType params body⟩
    | false =>
      set sa₀ : SemanticAnalyzer :=
        { sa with currentReturnType := returnType, current := [.empty] } with hsa₀
      have hstart : ({ sa with currentReturnType := returnType, current := .empty :: sa.current } :
          SemanticAnalyzer) = sa₀ := by rw [hsa₀, hempty]
      dsimp only
      rw [if_neg Bool.false_ne_true, wp_bind, wp_modify, wp_bind, wp_semanticScopeEnter]
      dsimp only
      rw [hstart]
      apply wp_seq (declareParams_spec info.line params 0 (rfl : sa₀.current = [.empty])
        models_nil.enter)
      rintro paramsOk sa₁ ⟨scope, vars, hmoves, hmodels, hvars⟩
      have hcurrent := hmoves.current_eq
      have hbody := analyzeBody_spec info name params body hcurrent (by rwa [hcurrent])
      apply wp_seq hbody
      rintro ⟨body', bodyOk⟩ sa₂ ⟨uses, scope', hmoves', htypes⟩
      have hboth := hmoves.trans hmoves'
      rw [hmoves.context_eq, hmoves.returnType_eq] at htypes
      refine ⟨uses, ?_, fun hok => ?_⟩
      · obtain ⟨errors, rfl⟩ := hboth
        exact ⟨returnType, errors, by simp [hsa₀, hempty]⟩
      · obtain ⟨hparams, hb⟩ := Bool.and_eq_true_iff.mp hok
        exact htypes (hvars hparams) hb
  | _ => exact ⟨[], ⟨sa.currentReturnType, sa.errors, by simp⟩, nofun⟩

/-- Declarations are accepted one by one. -/
def TypesDeclarations (Γ : Context) : List ASTNode → List ASTNode → Prop :=
  List.Forall₂ fun node node' => ∃ uses, TypesDeclaration Γ node node' uses

theorem analyzeNodes_spec (nodes : List ASTNode) (sa : SemanticAnalyzer)
    (hempty : sa.current = []) :
    wp Anyhow (analyzeNodes nodes) (fun r sa' => ∃ uses, Stays uses sa sa' ∧
      (r.2 = true → TypesDeclarations sa.context nodes r.1)) sa := by
  induction nodes generalizing sa with
  | nil => exact ⟨[], ⟨sa.currentReturnType, sa.errors, by simp⟩, fun _ => .nil⟩
  | cons node nodes ih =>
    unfold analyzeNodes
    apply wp_seq (analyzeNode_spec node sa hempty)
    rintro ⟨node', ok⟩ sa₁ ⟨uses, hstays, hnode⟩
    apply wp_seq (ih sa₁ (hstays.current_eq.trans hempty))
    rintro ⟨nodes', allOk⟩ sa₂ ⟨uses', hstays', hnodes⟩
    rw [hstays.context_eq] at hnodes
    refine ⟨uses ++ uses', hstays.trans hstays', fun hok => ?_⟩
    obtain ⟨hone, hall⟩ := Bool.and_eq_true_iff.mp hok
    exact .cons ⟨uses, hnode hone⟩ (hnodes hall)

theorem collectVisible_spec (nodes : List ASTNode) (sa : SemanticAnalyzer) :
    wp Anyhow (collectVisible nodes) (fun _ sa' => ∃ errors visible,
      sa' = { sa with errors := errors, visibleFuncs := visible }) sa := by
  induction nodes generalizing sa with
  | nil => exact ⟨sa.errors, sa.visibleFuncs, rfl⟩
  | cons node nodes ih =>
    cases node with
    | function info name returnType params body isPrototype =>
      unfold collectVisible
      rw [wp_bind, wp_get]
      apply wp_ite
      · intro _
        exact ih sa
      intro _
      apply wp_ite
      · intro _
        exact ⟨_, sa.visibleFuncs, rfl⟩
      · intro _
        rw [wp_bind, wp_set]
        apply wp_mono (ih _)
        rintro _ sa' ⟨errors, visible, rfl⟩
        exact ⟨errors, visible, rfl⟩
    | null => exact trivial
    | _ => exact ih sa

/-- What `semantic_analyze` accepts has a derivation. -/
theorem semanticAnalyze_spec (nodes : List ASTNode) (filename : String) (errors : ErrorContext)
    (global : GlobalScope) :
    wp Anyhow (semanticAnalyze nodes) (fun r _ => r.2 = true →
      ∃ visible, TypesDeclarations ⟨visible, global⟩ nodes r.1)
      (.init filename errors global) := by
  unfold semanticAnalyze
  apply wp_seq (collectVisible_spec nodes _)
  rintro ok sa ⟨errors', visible, rfl⟩
  apply wp_ite
  · intro _
    apply wp_mono (analyzeNodes_spec nodes _ rfl)
    rintro r sa' ⟨uses, -, htypes⟩ hok
    exact ⟨visible, htypes hok⟩
  · intro _
    exact nofun

end TinyCompile.Semantic
