import TinyCompile.Semantic.Runs
import TinyCompile.Semantic.Scoping
import TinyCompile.Semantic.Typing

set_option autoImplicit false

/-!
# Semantic: exactly what analysis accepts

The typing rules leave out one thing the analyzer looks at: that no block declares a name
twice, or more names than its table holds.  With it, the rules are all there is: what has a
derivation and declares its names well is accepted, and nothing else is.
-/

namespace TinyCompile.Semantic

open TinyCompile.Source TinyCompile.Logic

/-! ## Names -/

/-- The names of a block with one more; `none` where the block has the name or is full. -/
def declareName (names : List StringView) (name : StringView) : Option (List StringView) :=
  if name ∈ names ∨ scopeHashSize ≤ names.length then none else some (name :: names)

mutual

/-- The names that the innermost block has behind a statement; `none` where a block declares a
name twice, or too many. -/
def declares (names : List StringView) : ASTNode → Option (List StringView)
  | .varDecl _ varName _ _ => declareName names varName
  | .ifStmt _ _ thenBranch elseBranch => do declares (← declares names thenBranch) elseBranch
  | .whileStmt _ _ body => declares names body
  | .block _ statements => (declaresAll [] statements).map fun _ => names
  | _ => some names

/-- The same behind the statements of a block. -/
def declaresAll (names : List StringView) : List ASTNode → Option (List StringView)
  | [] => some names
  | stmt :: rest => do declaresAll (← declares names stmt) rest

end

/-- A table holds variables of these names. -/
def Scope.HasNames (scope : Scope) (names : List StringView) : Prop :=
  ∃ vars, scope.Holds vars ∧ vars.map (·.name) = names

theorem Scope.hasNames_empty : Scope.empty.HasNames [] := ⟨[], Scope.holds_empty, rfl⟩

theorem declareName_map (vars : Vars) (name : StringView) :
    declareName (vars.map (·.name)) name =
      if Rejects vars name then none else some (name :: vars.map (·.name)) :=
  if_congr (by rw [List.length_map]; exact Iff.rfl) rfl rfl

theorem Scope.HasNames.stored {scope : Scope} {names names' : List StringView}
    (h : scope.HasNames names) {var : VarInfo} (hname : declareName names var.name = some names') :
    ∃ scope', scope.declare var = .stored scope' ∧ scope'.HasNames names' := by
  obtain ⟨vars, hholds, rfl⟩ := h
  have hdeclare := hholds.declare var
  rw [declareName_map] at hname
  split at hname
  · cases hname
  · rename_i haccept
    rw [if_neg haccept] at hdeclare
    obtain ⟨scope', hstored, hholds'⟩ := hdeclare
    exact ⟨scope', hstored, var :: vars, hholds', Option.some.inj hname⟩

theorem Scope.HasNames.of_stored {scope scope' : Scope} {names : List StringView}
    (h : scope.HasNames names) {var : VarInfo} (hstored : scope.declare var = .stored scope') :
    ∃ names', declareName names var.name = some names' ∧ scope'.HasNames names' := by
  obtain ⟨vars, hholds, rfl⟩ := h
  have hdeclare := hholds.declare var
  rw [declareName_map]
  split
  · rename_i hreject
    rw [if_pos hreject] at hdeclare
    exact absurd hstored (hdeclare scope')
  · rename_i haccept
    rw [if_neg haccept] at hdeclare
    obtain ⟨scope'', hstored', hholds'⟩ := hdeclare
    cases hstored.symm.trans hstored'
    exact ⟨_, rfl, var :: vars, hholds', rfl⟩

/-- The innermost block has these names, and these variables are in scope. -/
structure Opens (parents : List Scope) (names : List StringView) (vars : Vars)
    (sa : SemanticAnalyzer) : Prop where
  table : ∃ scope, sa.current = scope :: parents ∧ scope.HasNames names
  models : Models sa.current vars

section

variable {parents : List Scope} {names : List StringView} {vars : Vars}
  {sa sa' : SemanticAnalyzer}

theorem Records.opens {uses : Uses} (h : Records uses sa sa')
    (hopens : Opens parents names vars sa) : Opens parents names vars sa' := by
  obtain ⟨errors, rfl⟩ := h
  exact ⟨hopens.table, hopens.models⟩

theorem Records.returnType_eq {uses : Uses} (h : Records uses sa sa') :
    sa'.currentReturnType = sa.currentReturnType := by
  obtain ⟨errors, rfl⟩ := h
  rfl

/-- A new block. -/
theorem Opens.enter (h : Opens parents names vars sa) :
    Opens sa.current [] vars { sa with current := .empty :: sa.current } :=
  ⟨⟨.empty, rfl, Scope.hasNames_empty⟩, h.models.enter⟩

end

/-! ## What is accepted declares its names well -/

section

variable {parents : List Scope} {names : List StringView} {vars : Vars}
  {sa sa' : SemanticAnalyzer}

theorem Opens.declared {var : VarInfo} (hopens : Opens parents names vars sa)
    (h : Returns (semanticScopeDeclare var) sa true sa') :
    ∃ names', declareName names var.name = some names' ∧
      Opens parents names' (var :: vars) sa' := by
  obtain ⟨⟨scope, hcurrent, hnames⟩, hmodels⟩ := hopens
  obtain ⟨scope₀, parents₀, scope', hcurrent', hstored, rfl⟩ := returns_semanticScopeDeclare.mp h
  cases hcurrent.symm.trans hcurrent'
  obtain ⟨names', hname, hnames'⟩ := hnames.of_stored hstored
  rw [hcurrent] at hmodels
  exact ⟨names', hname, ⟨scope', rfl, hnames'⟩, hmodels.declare hstored⟩

theorem Opens.expression {node : ASTNode} {r : ASTNode × Bool}
    (hopens : Opens parents names vars sa) (h : Returns (analyzeExpression node) sa r sa') :
    Opens parents names vars sa' := by
  obtain ⟨uses, hrecords, -⟩ := wp_of_ok h (analyzeExpression_spec vars node sa hopens.models)
  exact hrecords.opens hopens

theorem Opens.value {dest : DataType} {value : ASTNode} {r : ASTNode × Bool}
    (hopens : Opens parents names vars sa) (h : Returns (analyzeValue dest value) sa r sa') :
    Opens parents names vars sa' := by
  obtain ⟨uses, hrecords, -⟩ := wp_of_ok h (analyzeValue_spec vars dest value sa hopens.models)
  exact hrecords.opens hopens

theorem Opens.initializer {varType : DataType} {initializer : ASTNode} {r : ASTNode × Bool}
    (hopens : Opens parents names vars sa)
    (h : Returns (analyzeInitializer varType initializer) sa r sa') :
    Opens parents names vars sa' := by
  obtain ⟨uses, hrecords, -⟩ :=
    wp_of_ok h (analyzeInitializer_spec default [] varType initializer hopens.models)
  exact hrecords.opens hopens

end

mutual

/-- The names of a statement that is accepted fit. -/
theorem declares_of_returns (node : ASTNode) {parents : List Scope} {names : List StringView}
    {vars : Vars} {sa sa' : SemanticAnalyzer} {node' : ASTNode}
    (hopens : Opens parents names vars sa)
    (h : Returns (analyzeStatement node) sa (node', true) sa') :
    ∃ names' vars', declares names node = some names' ∧ Opens parents names' vars' sa' := by
  cases node with
  | null =>
    cases h
    exact ⟨names, vars, rfl, hopens⟩
  | varDecl info varName varType initializer =>
    obtain ⟨initializer', sa₁, hinit, hdeclare, -⟩ := returns_analyzeVarDecl.mp h
    obtain ⟨names', hname, hopens'⟩ := (hopens.initializer hinit).declared hdeclare
    exact ⟨names', _, hname, hopens'⟩
  | assignment info varName value =>
    obtain ⟨var, value', -, hvalue, -⟩ := returns_analyzeAssignment.mp h
    have hrecorded : Records [(info.addr, var.decl)] sa
        { sa with history := sa.history ++ [(info.addr, var.decl)] } := ⟨sa.errors, rfl⟩
    exact ⟨names, vars, rfl, (hrecorded.opens hopens).value hvalue⟩
  | returnStmt info expression =>
    have hreturn := returns_analyzeReturn.mp h
    split at hreturn
    · obtain ⟨-, -, rfl⟩ := hreturn
      exact ⟨names, vars, rfl, hopens⟩
    · obtain ⟨-, expression', hvalue, -⟩ := hreturn
      exact ⟨names, vars, rfl, hopens.value hvalue⟩
  | ifStmt info condition thenBranch elseBranch =>
    obtain ⟨condition', thenBranch', elseBranch', sa₁, sa₂, hcondition, hthen, helse, -⟩ :=
      returns_analyzeIf.mp h
    obtain ⟨names₁, vars₁, hnames₁, hopens₁⟩ :=
      declares_of_returns thenBranch (hopens.expression hcondition) hthen
    unfold analyzeElseBranch at helse
    split at helse
    · rename_i hnull
      obtain rfl := ASTNode.isNull_iff.mp hnull
      cases helse
      refine ⟨names₁, vars₁, ?_, hopens₁⟩
      show (declares names thenBranch >>= fun names => declares names .null) = _
      rw [hnames₁]
      rfl
    · obtain ⟨names₂, vars₂, hnames₂, hopens₂⟩ := declares_of_returns elseBranch hopens₁ helse
      refine ⟨names₂, vars₂, ?_, hopens₂⟩
      show (declares names thenBranch >>= fun names => declares names elseBranch) = _
      rw [hnames₁]
      exact hnames₂
  | whileStmt info condition body =>
    obtain ⟨condition', body', sa₁, hcondition, hbody, -⟩ := returns_analyzeWhile.mp h
    exact declares_of_returns body (hopens.expression hcondition) hbody
  | block info statements =>
    obtain ⟨statements', sa₁, hstatements, -, rfl⟩ := returns_analyzeBlock.mp h
    obtain ⟨names₁, vars₁, hnames₁, ⟨scope, hcurrent, -⟩, hmodels⟩ :=
      declaresAll_of_returns statements hopens.enter hstatements
    refine ⟨names, vars, ?_, ?_⟩
    · show (declaresAll [] statements).map _ = _
      rw [hnames₁]
      rfl
    · have hchain : sa₁.current.tail = sa.current := by rw [hcurrent]; rfl
      exact ⟨by rw [hchain]; exact hopens.table, by rw [hchain]; exact hopens.models⟩
  | _ => exact ⟨names, vars, rfl, hopens.expression h⟩

/-- The names of the statements of a block that are accepted fit. -/
theorem declaresAll_of_returns (nodes : List ASTNode) {parents : List Scope}
    {names : List StringView} {vars : Vars} {sa sa' : SemanticAnalyzer} {nodes' : List ASTNode}
    (hopens : Opens parents names vars sa)
    (h : Returns (analyzeStatements nodes) sa (nodes', true) sa') :
    ∃ names' vars', declaresAll names nodes = some names' ∧ Opens parents names' vars' sa' := by
  cases nodes with
  | nil =>
    cases h
    exact ⟨names, vars, rfl, hopens⟩
  | cons stmt rest =>
    obtain ⟨stmt', rest', sa₁, hstmt, hrest, -⟩ := returns_analyzeStatements_cons.mp h
    obtain ⟨names₁, vars₁, hnames₁, hopens₁⟩ := declares_of_returns stmt hopens hstmt
    obtain ⟨names₂, vars₂, hnames₂, hopens₂⟩ := declaresAll_of_returns rest hopens₁ hrest
    refine ⟨names₂, vars₂, ?_, hopens₂⟩
    show (declares names stmt >>= fun names => declaresAll names rest) = _
    rw [hnames₁]
    exact hnames₂

end

/-! ## What has a derivation is accepted -/

/-- If the analysis of a tree comes to an end, it accepts the tree and makes `a` of it. -/
def Accepts {α : Type} (x : SemM (α × Bool)) (sa : SemanticAnalyzer) (a : α) : Prop :=
  wp Anyhow x (fun r _ => r = (a, true)) sa

theorem passes_checkTypeCompatibility {dest src : DataType} (h : Compatible dest src)
    (node : ASTNode) (sa : SemanticAnalyzer) :
    wp Anyhow (checkTypeCompatibility dest src node) (fun ok _ => ok = true) sa := by
  unfold checkTypeCompatibility
  refine wp_ite (fun _ => rfl) fun hdiffer => wp_ite (fun hvoid => ?_) fun hvoid => ?_
  · obtain ⟨hsrc, hdest⟩ := h.resolve_left hdiffer
    exact absurd hvoid (not_or.mpr ⟨hsrc, hdest⟩)
  · obtain ⟨hsrc, hdest⟩ := not_or.mp hvoid
    rw [if_pos (by simp [typeIsInteger, hsrc, hdest])]
    refine wp_ite (fun _ => ?_) fun _ => rfl
    apply wp_seq (R := fun _ sa' => sa' = sa) (wp_liftM (fun _ _ => rfl) fun _ _ => trivial)
    rintro value _ rfl
    refine wp_ite (fun _ => ?_) fun _ => rfl
    apply wp_seq (infoOf_spec node _)
    rintro info _ ⟨-, rfl⟩
    exact rfl

section

variable {vars : Vars} {sa : SemanticAnalyzer}

theorem valueTypeOf_pure {node : ASTNode} {type : DataType} (h : node.valueType? = some type) :
    valueTypeOf node = pure type := by
  obtain ⟨info, hinfo, rfl⟩ := Option.map_eq_some_iff.mp h
  unfold valueTypeOf infoOf
  rw [hinfo]
  rfl

/-- A value that may go where type `dest` is wanted passes the check. -/
theorem wp_check {α : Type} {dest type : DataType} {node : ASTNode} {f : Bool → SemM α}
    {Q : α → SemanticAnalyzer → Prop} (h : Compatible dest type)
    (hf : ∀ sa', Reports sa sa' → wp Anyhow (f true) Q sa') :
    wp Anyhow (checkTypeCompatibility dest type node >>= f) Q sa := by
  apply wp_seq (wp_and (passes_checkTypeCompatibility h node sa)
    (checkTypeCompatibility_spec dest type node sa))
  rintro ok sa' ⟨rfl, hreports, -⟩
  exact hf sa' hreports

/-- What stands behind an expression that is accepted. -/
theorem Accepts.seq {α : Type} {node node' : ASTNode} {f : ASTNode × Bool → SemM α}
    {Q : α → SemanticAnalyzer → Prop} (h : Accepts (analyzeExpression node) sa node')
    (hmodels : Models sa.current vars)
    (hf : ∀ uses sa', Records uses sa sa' → wp Anyhow (f (node', true)) Q sa') :
    wp Anyhow (analyzeExpression node >>= f) Q sa := by
  apply wp_seq (wp_and h (analyzeExpression_spec vars node sa hmodels))
  rintro r sa' ⟨rfl, uses, hrecords, -⟩
  exact hf uses sa' hrecords

end

theorem TypesArgs.length_params {Γ : Context} {vars : Vars} {params : List Parameter}
    {args args' : List ASTNode} {uses : Uses} (h : TypesArgs Γ vars params args args' uses) :
    args.length = params.length := by
  induction args generalizing params args' uses with
  | nil =>
    cases h
    rfl
  | cons arg args ih =>
    cases h with
    | cons harg htype hcompatible hargs => exact congrArg (· + 1) (ih hargs)

mutual

/-- An expression that has a derivation is accepted. -/
theorem accepts_expression (node : ASTNode) {vars : Vars} {sa : SemanticAnalyzer}
    {node' : ASTNode} {uses : Uses} (hmodels : Models sa.current vars)
    (h : TypesExpr sa.context vars node node' uses) :
    Accepts (analyzeExpression node) sa node' := by
  cases node with
  | null =>
    cases h with
    | null => exact rfl
    | misplaced hnode => cases hnode
  | number info value =>
    cases h with
    | number => exact rfl
    | misplaced hnode => cases hnode
  | identifier info name =>
    cases h with
    | identifier hvar =>
      show wp Anyhow (analyzeIdentifier info name) _ sa
      unfold analyzeIdentifier
      rw [wp_bind, wp_get, hmodels.lookup, hvar]
      exact rfl
    | misplaced hnode => cases hnode
  | call info functionName args =>
    cases h with
    | @call _ _ _ _ func _ hvisible hfunc hargs =>
      have hseen : (sa.visibleFuncs.any fun f => svEq f functionName) = true := hvisible
      have hfound : semanticGlobalLookupFunction sa.global functionName = some func := hfunc
      show wp Anyhow (analyzeCall info functionName args _) _ sa
      unfold analyzeCall
      rw [wp_bind, wp_get, hseen, hfound, if_neg (by decide)]
      dsimp only
      rw [if_neg (not_not.mpr hargs.length_params)]
      apply wp_seq (accepts_args args hmodels hargs)
      rintro _ sa' rfl
      exact rfl
    | misplaced hnode => cases hnode
  | binary op info left right =>
    show wp Anyhow (analyzeBinary op info left right _ _) _ sa
    unfold analyzeBinary
    cases h with
    | arithmetic hop hleft hright hleftType hrightType =>
      rw [hop]
      refine (accepts_expression left hmodels hleft).seq hmodels fun uses sa₁ hrecords => ?_
      rw [← hrecords.context_eq] at hright
      have hmodels' := hrecords.models hmodels
      refine (accepts_expression right hmodels' hright).seq hmodels' fun uses' sa₂ hrecords' => ?_
      dsimp only
      rw [valueTypeOf_pure hleftType, valueTypeOf_pure hrightType]
      exact rfl
    | comparison hop hleft hright =>
      rw [hop]
      refine (accepts_expression left hmodels hleft).seq hmodels fun uses sa₁ hrecords => ?_
      rw [← hrecords.context_eq] at hright
      have hmodels' := hrecords.models hmodels
      exact (accepts_expression right hmodels' hright).seq hmodels' fun uses' sa₂ hrecords' => rfl
    | bitwise hop hleft hright hleftType =>
      rw [hop]
      refine (accepts_expression left hmodels hleft).seq hmodels fun uses sa₁ hrecords => ?_
      rw [← hrecords.context_eq] at hright
      have hmodels' := hrecords.models hmodels
      refine (accepts_expression right hmodels' hright).seq hmodels' fun uses' sa₂ hrecords' => ?_
      rw [valueTypeOf_pure hleftType]
      exact rfl
    | unseen hop =>
      rw [hop]
      exact rfl
    | misplaced hnode => cases hnode
  | unary op info operand =>
    show wp Anyhow (analyzeUnary op info _) _ sa
    unfold analyzeUnary
    cases h with
    | not hoperand =>
      exact (accepts_expression operand hmodels hoperand).seq hmodels fun uses sa₁ hrecords => rfl
    | sign hop hoperand htype =>
      refine (accepts_expression operand hmodels hoperand).seq hmodels fun uses sa₁ hrecords => ?_
      dsimp only
      rw [valueTypeOf_pure htype]
      cases op with
      | not => exact absurd rfl hop
      | negate => exact rfl
      | bitNot => exact rfl
    | misplaced hnode => cases hnode
  | _ =>
    cases h with
    | misplaced => exact rfl

/-- Arguments that have a derivation are accepted. -/
theorem accepts_args (args : List ASTNode) {params : List Parameter} {vars : Vars}
    {sa : SemanticAnalyzer} {args' : List ASTNode} {uses : Uses}
    (hmodels : Models sa.current vars)
    (h : TypesArgs sa.context vars params args args' uses) :
    Accepts (analyzeArgs args params) sa args' := by
  cases args with
  | nil =>
    cases h
    exact rfl
  | cons arg args =>
    cases h with
    | cons harg htype hcompatible hargs =>
      unfold analyzeArgs
      refine (accepts_expression arg hmodels harg).seq hmodels fun uses sa₁ hrecords => ?_
      dsimp only
      rw [valueTypeOf_pure htype, pure_bind]
      refine wp_check hcompatible fun sa₂ hreports => ?_
      have hrecords' := hrecords.then_reports hreports
      rw [← hrecords'.context_eq] at hargs
      apply wp_seq (accepts_args args (hrecords'.models hmodels) hargs)
      rintro _ sa₃ rfl
      exact rfl

end

/-! ## Statements that have a derivation are accepted -/

/-- Behind a part of a function the innermost block has these names, these variables are in
scope, and the rest is as it was. -/
structure Behind (parents : List Scope) (names : List StringView) (vars : Vars)
    (sa sa' : SemanticAnalyzer) : Prop where
  opens : Opens parents names vars sa'
  context : sa'.context = sa.context
  returnType : sa'.currentReturnType = sa.currentReturnType

section

variable {parents : List Scope} {names names' : List StringView} {vars vars' : Vars}
  {sa sa₁ sa' : SemanticAnalyzer}

theorem Records.behind {uses : Uses} (h : Records uses sa sa')
    (hopens : Opens parents names vars sa) : Behind parents names vars sa sa' :=
  ⟨h.opens hopens, h.context_eq, h.returnType_eq⟩

theorem Behind.trans (h : Behind parents names vars sa sa₁)
    (h' : Behind parents names' vars' sa₁ sa') : Behind parents names' vars' sa sa' :=
  ⟨h'.opens, h'.context.trans h.context, h'.returnType.trans h.returnType⟩

theorem accepts_value {dest : DataType} {value value' : ASTNode} {uses : Uses}
    (hopens : Opens parents names vars sa) (h : TypesValue sa.context vars dest value value' uses) :
    wp Anyhow (analyzeValue dest value)
      (fun r sa' => r = (value', true) ∧ Behind parents names vars sa sa') sa := by
  obtain ⟨htypes, type, htype, hcompatible⟩ := h
  unfold analyzeValue
  refine (accepts_expression value hopens.models htypes).seq hopens.models
    fun uses sa₁ hrecords => ?_
  dsimp only
  rw [if_pos rfl, valueTypeOf_pure htype, pure_bind]
  refine wp_check hcompatible fun sa₂ hreports => ?_
  exact ⟨rfl, (hrecords.then_reports hreports).behind hopens⟩

theorem accepts_declare {var : VarInfo} (hopens : Opens parents names vars sa)
    (hname : declareName names var.name = some names') :
    wp Anyhow (semanticScopeDeclare var)
      (fun ok sa' => ok = true ∧ Behind parents names' (var :: vars) sa sa') sa := by
  obtain ⟨⟨scope, hcurrent, hnames⟩, hmodels⟩ := hopens
  obtain ⟨scope', hstored, hnames'⟩ := hnames.stored hname
  unfold semanticScopeDeclare
  rw [wp_bind, wp_get, hcurrent]
  dsimp only
  rw [hstored]
  rw [hcurrent] at hmodels
  exact ⟨rfl, ⟨⟨scope', rfl, hnames'⟩, hmodels.declare hstored⟩, rfl, rfl⟩

end

mutual

/-- A statement that has a derivation is accepted if its names fit. -/
theorem accepts_statement (node : ASTNode) {parents : List Scope}
    {names names' : List StringView} {vars vars' : Vars} {sa : SemanticAnalyzer}
    {node' : ASTNode} {uses : Uses} (hopens : Opens parents names vars sa)
    (h : TypesStmt sa.context sa.currentReturnType vars node node' vars' uses)
    (hnames : declares names node = some names') :
    wp Anyhow (analyzeStatement node)
      (fun r sa' => r = (node', true) ∧ Behind parents names' vars' sa sa') sa := by
  cases node with
  | null =>
    cases h with
    | null =>
      cases hnames
      exact ⟨rfl, hopens, rfl, rfl⟩
    | expr hnode => cases hnode
  | varDecl info varName varType initializer =>
    show wp Anyhow (analyzeVarDecl info varName varType initializer) _ sa
    unfold analyzeVarDecl analyzeInitializer
    have hname : declareName names (declared info varName varType).name = some names' := hnames
    cases h with
    | varDecl =>
      rw [if_pos (ASTNode.isNull_iff.mpr rfl), pure_bind]
      apply wp_seq (accepts_declare hopens hname)
      rintro _ sa' ⟨rfl, hbehind⟩
      exact ⟨rfl, hbehind⟩
    | varInit hnull hinit =>
      rw [if_neg (Bool.eq_false_iff.mp hnull)]
      apply wp_seq (accepts_value hopens hinit)
      rintro _ sa₁ ⟨rfl, hbehind⟩
      apply wp_seq (accepts_declare hbehind.opens hname)
      rintro _ sa' ⟨rfl, hbehind'⟩
      exact ⟨rfl, hbehind.trans hbehind'⟩
    | expr hnode => cases hnode
  | assignment info varName value =>
    cases hnames
    show wp Anyhow (analyzeAssignment info varName value) _ sa
    unfold analyzeAssignment
    cases h with
    | @assignment _ _ _ _ _ var _ hvar hvalue =>
      rw [wp_bind, wp_get, hopens.models.lookup, hvar]
      rw [wp_bind, wp_recordResolved]
      have hrecorded : Records [(info.addr, var.decl)] sa
          { sa with history := sa.history ++ [(info.addr, var.decl)] } := ⟨sa.errors, rfl⟩
      have hbehind := hrecorded.behind hopens
      apply wp_seq (accepts_value hbehind.opens hvalue)
      rintro _ sa' ⟨rfl, hbehind'⟩
      exact ⟨rfl, hbehind.trans hbehind'⟩
    | expr hnode => cases hnode
  | returnStmt info expression =>
    cases hnames
    show wp Anyhow (analyzeReturn info expression) _ sa
    unfold analyzeReturn
    rw [wp_bind, wp_get]
    cases h with
    | returnVoid _ hret =>
      rw [if_neg (by decide), if_neg (not_not.mpr hret)]
      exact ⟨rfl, hopens, rfl, rfl⟩
    | returnValue hnull hret hvalue =>
      rw [if_pos (by rw [hnull]; rfl), if_neg hret]
      apply wp_seq (accepts_value hopens hvalue)
      rintro _ sa' ⟨rfl, hbehind⟩
      exact ⟨rfl, hbehind⟩
    | expr hnode => cases hnode
  | ifStmt info condition thenBranch elseBranch =>
    obtain ⟨names₁, hthenNames, helseNames⟩ := Option.bind_eq_some_iff.mp hnames
    show wp Anyhow (analyzeIf info condition elseBranch _ _) _ sa
    unfold analyzeIf analyzeElseBranch
    cases h with
    | ifThen hcondition hthen =>
      cases helseNames
      refine (accepts_expression condition hopens.models hcondition).seq hopens.models
        fun uses sa₁ hrecords => ?_
      have hbehind := hrecords.behind hopens
      rw [← hbehind.context, ← hbehind.returnType] at hthen
      apply wp_seq (accepts_statement thenBranch hbehind.opens hthen hthenNames)
      rintro _ sa₂ ⟨rfl, hbehind'⟩
      exact ⟨rfl, hbehind.trans hbehind'⟩
    | ifElse hcondition hthen hnull helse =>
      refine (accepts_expression condition hopens.models hcondition).seq hopens.models
        fun uses sa₁ hrecords => ?_
      have hbehind := hrecords.behind hopens
      rw [← hbehind.context, ← hbehind.returnType] at hthen
      apply wp_seq (accepts_statement thenBranch hbehind.opens hthen hthenNames)
      rintro _ sa₂ ⟨rfl, hbehind'⟩
      have hboth := hbehind.trans hbehind'
      rw [← hboth.context, ← hboth.returnType] at helse
      rw [if_neg (Bool.eq_false_iff.mp hnull)]
      apply wp_seq (accepts_statement elseBranch hboth.opens helse helseNames)
      rintro _ sa₃ ⟨rfl, hbehind''⟩
      exact ⟨rfl, hboth.trans hbehind''⟩
    | expr hnode => cases hnode
  | whileStmt info condition body =>
    show wp Anyhow (analyzeWhile info condition _) _ sa
    unfold analyzeWhile
    cases h with
    | whileLoop hcondition hbody =>
      refine (accepts_expression condition hopens.models hcondition).seq hopens.models
        fun uses sa₁ hrecords => ?_
      have hbehind := hrecords.behind hopens
      rw [← hbehind.context, ← hbehind.returnType] at hbody
      apply wp_seq (accepts_statement body hbehind.opens hbody hnames)
      rintro _ sa₂ ⟨rfl, hbehind'⟩
      exact ⟨rfl, hbehind.trans hbehind'⟩
    | expr hnode => cases hnode
  | block info statements =>
    obtain ⟨inner, hinner, rfl⟩ := Option.map_eq_some_iff.mp hnames
    show wp Anyhow (analyzeBlock info _) _ sa
    unfold analyzeBlock
    cases h with
    | block hstatements =>
      rw [wp_bind, wp_semanticScopeEnter]
      apply wp_seq (accepts_statements statements hopens.enter hstatements hinner)
      rintro _ sa₁ ⟨rfl, hbehind⟩
      obtain ⟨scope, hcurrent, -⟩ := hbehind.opens.table
      have hchain : sa₁.current.tail = sa.current := by rw [hcurrent]; rfl
      refine ⟨rfl, ⟨?_, ?_⟩, hbehind.context, hbehind.returnType⟩
      · show ∃ scope, sa₁.current.tail = _ ∧ _
        rw [hchain]
        exact hopens.table
      · show Models sa₁.current.tail vars
        rw [hchain]
        exact hopens.models
    | expr hnode => cases hnode
  | _ =>
    cases hnames
    cases h with
    | expr hnode htypes =>
      refine wp_mono (wp_and (accepts_expression _ hopens.models htypes)
        (analyzeExpression_spec vars _ sa hopens.models)) ?_
      rintro r sa' ⟨rfl, uses, hrecords, -⟩
      exact ⟨rfl, hrecords.behind hopens⟩

/-- The statements of a block that have a derivation are accepted if their names fit. -/
theorem accepts_statements (nodes : List ASTNode) {parents : List Scope}
    {names names' : List StringView} {vars vars' : Vars} {sa : SemanticAnalyzer}
    {nodes' : List ASTNode} {uses : Uses} (hopens : Opens parents names vars sa)
    (h : TypesStmts sa.context sa.currentReturnType vars nodes nodes' vars' uses)
    (hnames : declaresAll names nodes = some names') :
    wp Anyhow (analyzeStatements nodes)
      (fun r sa' => r = (nodes', true) ∧ Behind parents names' vars' sa sa') sa := by
  cases nodes with
  | nil =>
    cases h
    cases hnames
    exact ⟨rfl, hopens, rfl, rfl⟩
  | cons stmt rest =>
    obtain ⟨names₁, hstmtNames, hrestNames⟩ := Option.bind_eq_some_iff.mp hnames
    cases h with
    | cons hstmt hrest =>
      unfold analyzeStatements
      apply wp_seq (accepts_statement stmt hopens hstmt hstmtNames)
      rintro _ sa₁ ⟨rfl, hbehind⟩
      rw [← hbehind.context, ← hbehind.returnType] at hrest
      apply wp_seq (accepts_statements rest hbehind.opens hrest hrestNames)
      rintro _ sa₂ ⟨rfl, hbehind'⟩
      exact ⟨rfl, hbehind.trans hbehind'⟩

end

/-! ## Functions and files -/

end TinyCompile.Semantic
