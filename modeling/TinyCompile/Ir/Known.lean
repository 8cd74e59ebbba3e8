import TinyCompile.Ir.Room
import TinyCompile.Semantic.Complete

set_option autoImplicit false

/-!
# Ir: what analysis leaves to the generator

The analyzer puts the variables in scope that the generator puts in scope, but it looks
neither into the operands of `>` nor at an assignment inside an expression.  What it accepts
the generator gives up exactly there.
-/

namespace TinyCompile.Ir

open TinyCompile.Source TinyCompile.Semantic

/-! ## What can be resolved -/

mutual

/-- The generator gives nothing of an expression up, where the names that analysis has `seen`
are in scope. -/
def resolvesExpr (names : List StringView) (seen : Bool) : ASTNode → Bool
  | .number _ _ => true
  | .identifier _ name => seen || names.contains name
  | .call _ _ args => resolvesArgs names seen args
  | .unary _ _ operand => resolvesExpr names seen operand
  | .binary op _ left right =>
      resolvesExpr names (seen && op != .greater) left &&
        resolvesExpr names (seen && op != .greater) right
  | _ => false

/-- The generator gives nothing of the arguments of a call up. -/
def resolvesArgs (names : List StringView) (seen : Bool) : List ASTNode → Bool
  | [] => true
  | arg :: rest => resolvesExpr names seen arg && resolvesArgs names seen rest

end

mutual

/-- The generator gives nothing of an accepted statement up. -/
def resolvesStmt (names : List StringView) : ASTNode → Bool
  | .null => true
  | .varDecl _ varName _ initializer =>
      initializer.isNull || resolvesExpr (varName :: names) true initializer
  | .assignment _ _ value => resolvesExpr names true value
  | .returnStmt _ expression => expression.isNull || resolvesExpr names true expression
  | .block _ statements => resolvesStmts names statements
  | .ifStmt _ condition thenBranch elseBranch =>
      resolvesExpr names true condition && resolvesStmt names thenBranch &&
        (elseBranch.isNull || resolvesStmt (namesBehind names thenBranch) elseBranch)
  | .whileStmt _ condition body => resolvesExpr names true condition && resolvesStmt names body
  | node => resolvesExpr names true node

/-- The generator gives nothing of accepted statements up. -/
def resolvesStmts (names : List StringView) : List ASTNode → Bool
  | [] => true
  | stmt :: rest => resolvesStmt names stmt && resolvesStmts (namesBehind names stmt) rest

end

/-! ## The same variables in scope -/

/-- A variable of the analyzer is the entry of the generator. -/
structure SameVariable (var : VarInfo) (entry : StringView × Entry) : Prop where
  name : var.name = entry.1
  decl : var.decl = entry.2.decl
  type : var.type = entry.2.type

/-- Both passes have the same variables in scope. -/
abbrev InScope : Vars → Env → Prop := List.Forall₂ SameVariable

section

variable {vars : Vars} {env : Env}

/-- Both passes find the same variable. -/
theorem InScope.lookup (h : InScope vars env) {name : StringView} {var : VarInfo}
    (hvar : vars.find name = some var) :
    ∃ e, env.lookup name = some e ∧ var.decl = e.decl ∧ var.type = e.type := by
  induction h with
  | nil => cases hvar
  | @cons v entry vars env hsame _ ih =>
    obtain ⟨other, e⟩ := entry
    obtain rfl : v.name = other := hsame.name
    rw [Vars.find, List.find?_cons] at hvar
    by_cases hname : v.name = name
    · subst hname
      rw [(svEq_iff v.name v.name).mpr rfl] at hvar
      obtain rfl := Option.some.inj hvar
      exact ⟨e, by simp, hsame.decl, hsame.type⟩
    · have hne : svEq v.name name = false := by simpa [svEq] using hname
      rw [hne] at hvar
      obtain ⟨e', hlookup, htells⟩ := ih hvar
      refine ⟨e', ?_, htells⟩
      rw [List.lookup_cons, ← hlookup]
      have hother : (name == v.name) = false := by simpa using fun heq => hname heq.symm
      rw [hother]

theorem lookup_isSome (env : Env) (name : StringView) :
    (env.lookup name).isSome = (env.map (·.1)).contains name := by
  induction env with
  | nil => rfl
  | cons entry env ih =>
    obtain ⟨other, e⟩ := entry
    rw [List.lookup_cons, List.map_cons, List.contains_cons, ← ih]
    cases name == other <;> rfl

/-- The generator knows every name the analyzer knows. -/
def Knows (env : Env) (vars : Vars) : Prop :=
  ∀ name, (vars.find name).isSome = true → (env.lookup name).isSome = true

theorem InScope.knows (h : InScope vars env) : Knows env vars := by
  intro name hsome
  obtain ⟨var, hvar⟩ := Option.isSome_iff_exists.mp hsome
  obtain ⟨e, hlookup, -⟩ := h.lookup hvar
  rw [hlookup]
  rfl

theorem Knows.cons (h : Knows env vars) (name : StringView) (e : Entry) :
    Knows ((name, e) :: env) vars := by
  intro other hsome
  rw [List.lookup_cons]
  split
  · rfl
  · exact h other hsome

theorem InScope.params (line : Nat) (params : List Parameter) (i : Nat) {vars : Vars} {env : Env}
    (h : InScope vars env) : InScope (paramVars line params i vars) (paramEnv env params i) := by
  induction params generalizing i vars env with
  | nil => exact h
  | cons param params ih => exact ih (i + 1) (.cons ⟨rfl, rfl, rfl⟩ h)

theorem InScope.declare (h : InScope vars env) (info : NodeInfo) (varName : StringView)
    (varType : DataType) (stack : Nat) :
    InScope (declared info varName varType :: vars)
      ((varName, ⟨.var info.addr, varType, ⟨stack, true⟩⟩) :: env) :=
  .cons ⟨rfl, rfl, rfl⟩ h

end

/-! ## Expressions -/

section

variable {env : Env}

mutual

/-- What the generator makes of an expression that analysis did not see. -/
theorem hasValue_unseen : ∀ node : ASTNode,
    hasValue env node = resolvesExpr (env.map (·.1)) false node
  | .number _ _ => rfl
  | .identifier _ name => lookup_isSome env name
  | .call _ _ args => haveValues_unseen args
  | .unary _ _ operand => hasValue_unseen operand
  | .binary op _ left right => by
      rw [hasValue, resolvesExpr, Bool.false_and, hasValue_unseen left, hasValue_unseen right]
  | .null => rfl
  | .varDecl _ _ _ _ => rfl
  | .assignment _ _ _ => rfl
  | .returnStmt _ _ => rfl
  | .ifStmt _ _ _ _ => rfl
  | .whileStmt _ _ _ => rfl
  | .block _ _ => rfl
  | .function _ _ _ _ _ _ => rfl
  | .translationUnit _ _ => rfl

theorem haveValues_unseen : ∀ args : List ASTNode,
    haveValues env args = resolvesArgs (env.map (·.1)) false args
  | [] => rfl
  | arg :: rest => by rw [haveValues, resolvesArgs, hasValue_unseen arg, haveValues_unseen rest]

end

variable {Γ : Context} {vars : Vars}

theorem hasValue_binary {op : BinaryOp} {info : NodeInfo} {left right : ASTNode}
    (hop : binaryCase op ≠ .default)
    (hleft : hasValue env left = resolvesExpr (env.map (·.1)) true left)
    (hright : hasValue env right = resolvesExpr (env.map (·.1)) true right) :
    hasValue env (.binary op info left right) =
      resolvesExpr (env.map (·.1)) true (.binary op info left right) := by
  have hseen : (true && op != .greater) = true := by
    cases op with
    | greater => exact absurd rfl hop
    | _ => rfl
  rw [hasValue, resolvesExpr, hseen, hleft, hright]

mutual

/-- What the generator makes of an expression that analysis accepted. -/
theorem hasValue_accepted (henv : Knows env vars) : ∀ {node node' : ASTNode} {uses : Uses},
    TypesExpr Γ vars node node' uses →
    hasValue env node' = resolvesExpr (env.map (·.1)) true node'
  | _, _, _, .null => rfl
  | _, _, _, .number _ _ => rfl
  | _, _, _, .identifier hvar => by
      rw [hasValue, henv _ (by rw [hvar]; rfl)]
      rfl
  | _, _, _, .call _ _ hargs => haveValues_accepted henv hargs
  | _, _, _, .arithmetic hop hleft hright _ _ =>
      hasValue_binary (by simp [hop]) (hasValue_accepted henv hleft)
        (hasValue_accepted henv hright)
  | _, _, _, .comparison hop hleft hright =>
      hasValue_binary (by simp [hop]) (hasValue_accepted henv hleft)
        (hasValue_accepted henv hright)
  | _, _, _, .bitwise hop hleft hright _ =>
      hasValue_binary (by simp [hop]) (hasValue_accepted henv hleft)
        (hasValue_accepted henv hright)
  | _, _, _, @TypesExpr.unseen _ _ op hop _ left right => by
      have hseen : (true && op != .greater) = false := by
        cases op with
        | greater => rfl
        | _ => cases hop
      rw [hasValue, resolvesExpr, hseen, hasValue_unseen left, hasValue_unseen right]
  | _, _, _, .not hoperand => (hasValue_accepted henv hoperand :)
  | _, _, _, .sign _ hoperand _ => (hasValue_accepted henv hoperand :)
  | node, _, _, .misplaced h => by
      cases node with
      | number _ _ => cases h
      | identifier _ _ => cases h
      | call _ _ _ => cases h
      | unary _ _ _ => cases h
      | binary _ _ _ _ => cases h
      | _ => rfl

theorem haveValues_accepted (henv : Knows env vars) : ∀ {params : List Parameter}
    {args args' : List ASTNode} {uses : Uses}, TypesArgs Γ vars params args args' uses →
    haveValues env args' = resolvesArgs (env.map (·.1)) true args'
  | _, _, _, _, .nil => rfl
  | _, _, _, _, .cons harg _ _ hargs => by
      rw [haveValues, resolvesArgs, hasValue_accepted henv harg, haveValues_accepted henv hargs]

end

end

/-! ## Statements -/

section

variable {Γ : Context} {ret : DataType}

theorem isNull_typesExpr {vars : Vars} {node node' : ASTNode} {uses : Uses}
    (h : TypesExpr Γ vars node node' uses) : node'.isNull = node.isNull := by
  cases h <;> rfl

theorem isNull_typesStmt {vars vars' : Vars} {node node' : ASTNode} {uses : Uses}
    (h : TypesStmt Γ ret vars node node' vars' uses) : node'.isNull = node.isNull := by
  cases h with
  | expr _ hexpr => exact isNull_typesExpr hexpr
  | _ => rfl

/-- An expression brings no name into scope. -/
theorem scopeStmt_expression {node : ASTNode} (h : hasStatementCase node = false) (env : Env)
    (stack : Nat) : scopeStmt env node stack = (env, stack) := by
  cases node with
  | varDecl _ _ _ _ => cases h
  | ifStmt _ _ _ _ => cases h
  | whileStmt _ _ _ => cases h
  | block _ _ => cases h
  | _ => rfl

/-- Both passes have the same variables in scope behind a statement. -/
theorem inScope_behind {vars vars' : Vars} {node node' : ASTNode} {uses : Uses} {env : Env}
    {stack : Nat} (h : TypesStmt Γ ret vars node node' vars' uses) (henv : InScope vars env)
    (hvalued : Valued env node' stack) : InScope vars' (scopeStmt env node' stack).1 := by
  cases h with
  | null => exact henv
  | varDecl => exact henv.declare _ _ _ _
  | varInit => exact henv.declare _ _ _ _
  | assignment => exact henv
  | returnVoid => exact henv
  | returnValue => exact henv
  | ifThen _ hthen =>
    rw [scopeStmt, if_pos hvalued.1]
    exact inScope_behind hthen henv hvalued.2.1
  | ifElse _ hthen hnull helse =>
    have hnull' := (isNull_typesStmt helse).trans hnull
    rw [scopeStmt, if_pos hvalued.1]
    dsimp only
    rw [hnull', if_neg Bool.false_ne_true]
    exact inScope_behind helse (inScope_behind hthen henv hvalued.2.1)
      (hvalued.2.2.resolve_left (by rw [hnull']; exact Bool.false_ne_true))
  | whileLoop _ hbody =>
    rw [scopeStmt, if_pos hvalued.1]
    exact inScope_behind hbody henv hvalued.2
  | block => exact henv
  | expr hnode hexpr =>
    rw [scopeStmt_expression (hexpr.hasStatementCase.trans hnode)]
    exact henv
termination_by sizeOf node'

mutual

/-- Of an accepted statement nothing is given up exactly where everything can be resolved. -/
theorem valued_iff : ∀ {vars vars' : Vars} {node node' : ASTNode} {uses : Uses} {env : Env}
    (stack : Nat), TypesStmt Γ ret vars node node' vars' uses → InScope vars env →
    (Valued env node' stack ↔ resolvesStmt (env.map (·.1)) node' = true)
  | _, _, _, _, _, _, _, .null _, _ => iff_of_true trivial rfl
  | _, _, _, _, _, _, _, .varDecl _ _ _ _, _ => iff_of_true (.inl rfl) rfl
  | _, _, _, .varDecl info varName varType _, _, env, stack, .varInit _ hinit, henv => by
      -- an operand of `>` in the initializer may mention the variable that is declared
      rw [Valued, resolvesStmt, Bool.or_eq_true]
      rw [hasValue_accepted (henv.knows.cons varName _) hinit.1]
      rfl
  | _, _, _, _, _, _, _, .assignment hvar hvalue, henv => by
      obtain ⟨e, hlookup, -⟩ := henv.lookup hvar
      rw [Valued, resolvesStmt, hlookup, hasValue_accepted henv.knows hvalue.1]
      exact and_iff_right rfl
  | _, _, _, _, _, _, _, .returnVoid _ _, _ => iff_of_true (.inl rfl) rfl
  | _, _, _, _, _, _, _, .returnValue _ _ hvalue, henv => by
      rw [Valued, resolvesStmt, Bool.or_eq_true, hasValue_accepted henv.knows hvalue.1]
  | _, _, _, _, _, _, _, .ifThen hcondition hthen, henv => by
      rw [Valued, resolvesStmt, hasValue_accepted henv.knows hcondition, valued_iff _ hthen henv]
      simp [ASTNode.isNull]
  | _, _, _, .ifStmt _ _ _ elseBranch', _, env, stack, .ifElse hcondition hthen hnull helse,
      henv => by
      have hnull' : elseBranch'.isNull = false := (isNull_typesStmt helse).trans hnull
      rw [Valued, resolvesStmt, hasValue_accepted henv.knows hcondition, hnull', Bool.false_or,
        Bool.and_eq_true, Bool.and_eq_true, and_assoc]
      refine and_congr_right fun _ => ?_
      rw [← valued_iff stack hthen henv]
      refine and_congr_right fun hvalued => ?_
      rw [valued_iff _ helse (inScope_behind hthen henv hvalued), names_scopeStmt _ _ _ hvalued]
      simp
  | _, _, _, _, _, _, _, .whileLoop hcondition hbody, henv => by
      rw [Valued, resolvesStmt, hasValue_accepted henv.knows hcondition, valued_iff _ hbody henv,
        Bool.and_eq_true]
  | _, _, _, _, _, _, _, .block hstatements, henv => by
      rw [Valued, resolvesStmt, valuedAll_iff _ hstatements henv]
  | _, _, _, node', _, _, _, .expr hnode hexpr, henv => by
      have hcase := hexpr.hasStatementCase.trans hnode
      have hvalue := hasValue_accepted henv.knows hexpr
      cases node' with
      | null => cases hcase
      | varDecl _ _ _ _ => cases hcase
      | assignment _ _ _ => cases hcase
      | returnStmt _ _ => cases hcase
      | ifStmt _ _ _ _ => cases hcase
      | whileStmt _ _ _ => cases hcase
      | block _ _ => cases hcase
      | _ =>
        rw [Valued, resolvesStmt, hvalue]
        all_goals simp

theorem valuedAll_iff : ∀ {vars vars' : Vars} {nodes nodes' : List ASTNode} {uses : Uses}
    {env : Env} (stack : Nat), TypesStmts Γ ret vars nodes nodes' vars' uses → InScope vars env →
    (ValuedAll env nodes' stack ↔ resolvesStmts (env.map (·.1)) nodes' = true)
  | _, _, _, _, _, _, _, .nil _, _ => iff_of_true trivial rfl
  | _, _, _, _, _, _, stack, .cons hstmt hrest, henv => by
      rw [ValuedAll, resolvesStmts, Bool.and_eq_true, ← valued_iff stack hstmt henv]
      refine and_congr_right fun hvalued => ?_
      rw [valuedAll_iff _ hrest (inScope_behind hstmt henv hvalued), names_scopeStmt _ _ _ hvalued]

end

end

/-! ## Functions -/

/-- The generator gives nothing of an accepted function up. -/
def resolvesFunction : ASTNode → Bool
  | .function _ _ _ params (.block _ statements) _ =>
      resolvesStmts ((paramEnv [] params 0).map (·.1)) statements
  | _ => true

/-- Of an accepted function nothing is given up exactly where everything can be resolved. -/
theorem valuedFunction_iff {Γ : Context} {func func' : ASTNode} {uses : Uses} {stack : Nat}
    (h : TypesDeclaration Γ func func' uses) (hcomplete : func'.CompleteFunction) :
    ValuedFunction stack func' ↔ resolvesFunction func' = true := by
  cases h with
  | prototype =>
    rename_i body
    cases body with
    | block _ _ => cases hcomplete.1
    | _ => exact absurd hcomplete id
  | definition hstatements => exact valuedAll_iff _ hstatements (.params _ _ 0 .nil)
  | bodyless _ _ _ _ hbody =>
    rename_i body
    cases body with
    | block info statements => exact absurd rfl (hbody info statements)
    | _ => exact absurd hcomplete id

end TinyCompile.Ir
