import TinyCompile.Ir.StmtRuns
import TinyCompile.Ir.Tables
import TinyCompile.Semantic.Exchange

set_option autoImplicit false

/-!
# Ir: exchanging two operands

What trees that are alike mean, and what they are lowered to.
-/

namespace TinyCompile.Ir

open TinyCompile.Machine TinyCompile.Source TinyCompile.Logic TinyCompile.Semantic

/-! ## The tree and the names in scope -/

section

variable {node node' : ASTNode} {nodes nodes' : List ASTNode}

theorem isUnsigned_typeOf_like (h : Like node node') :
    typeIsUnsigned (typeOf node) = typeIsUnsigned (typeOf node') := by
  cases hnone : node.valueType? with
  | some type =>
    obtain ⟨type', htype', halike⟩ := h.valueType hnone
    unfold typeOf
    rw [hnone, htype']
    exact halike.2
  | none =>
    cases h with
    | refl => rfl
    | _ => cases hnone

theorem binaryOpcode_like (op : BinaryOp) (h : Like node node') :
    binaryOpcode op (typeOf node) = binaryOpcode op (typeOf node') := by
  cases op with
  | rshift => rw [binaryOpcode, binaryOpcode, isUnsigned_typeOf_like h]
  | _ => rfl

mutual

/-- Trees that are alike are given up alike. -/
theorem hasValue_like (env : Env) : ∀ {node node' : ASTNode}, Like node node' →
    hasValue env node' = hasValue env node
  | _, _, .refl _ => rfl
  | _, _, .exchange _ _ hleft hright _ _ => by
      rw [hasValue, hasValue, hasValue_like env hleft, hasValue_like env hright, Bool.and_comm]
  | _, _, .binary _ hleft hright => by
      rw [hasValue, hasValue, hasValue_like env hleft, hasValue_like env hright]
  | _, _, .unary _ hoperand => by rw [hasValue, hasValue, hasValue_like env hoperand]
  | _, _, .call hargs => by rw [hasValue, hasValue, haveValues_like env hargs]
  | _, _, .varDecl _ => rfl
  | _, _, .assignment _ => rfl
  | _, _, .ifStmt _ _ _ => rfl
  | _, _, .whileStmt _ _ => rfl
  | _, _, .block _ => rfl
  | _, _, .returnStmt _ => rfl
  | _, _, .function _ => rfl
  | _, _, .translationUnit _ => rfl

theorem haveValues_like (env : Env) : ∀ {nodes nodes' : List ASTNode}, LikeAll nodes nodes' →
    haveValues env nodes' = haveValues env nodes
  | _, _, .nil => rfl
  | _, _, .cons hnode hrest => by
      rw [haveValues, haveValues, hasValue_like env hnode, haveValues_like env hrest]

end

mutual

/-- Trees that are alike cost the same. -/
theorem cost_like (env : Env) (arg : Nat) : ∀ {node node' : ASTNode}, Like node node' →
    cost env arg node' = cost env arg node
  | _, _, .refl _ => rfl
  | _, _, .exchange _ _ hleft hright _ _ => by
      rw [cost, cost, cost_like env arg hleft, cost_like env arg hright, Nat.add_comm (cost _ _ _)]
  | _, _, .binary _ hleft hright => by
      rw [cost, cost, cost_like env arg hleft, cost_like env arg hright]
  | _, _, .unary _ hoperand => by rw [cost, cost, cost_like env arg hoperand]
  | _, _, .call hargs => by rw [cost, cost, costAll_like env arg hargs]
  | _, _, .varDecl _ => rfl
  | _, _, .assignment _ => rfl
  | _, _, .ifStmt _ _ _ => rfl
  | _, _, .whileStmt _ _ => rfl
  | _, _, .block _ => rfl
  | _, _, .returnStmt _ => rfl
  | _, _, .function _ => rfl
  | _, _, .translationUnit _ => rfl

theorem costAll_like (env : Env) (arg : Nat) : ∀ {nodes nodes' : List ASTNode},
    LikeAll nodes nodes' → costAll env arg nodes' = costAll env arg nodes
  | _, _, .nil => rfl
  | _, _, .cons hnode hrest => by
      rw [costAll, costAll, cost_like env arg hnode, costAll_like env arg hrest]

end

mutual

/-- Trees that are alike leave the same names behind. -/
theorem scopeStmt_like : ∀ {node node' : ASTNode}, Like node node' → ∀ (env : Env) (stack : Nat),
    scopeStmt env node' stack = scopeStmt env node stack
  | _, _, .refl _, _, _ => rfl
  | _, _, .exchange _ _ _ _ _ _, _, _ => rfl
  | _, _, .binary _ _ _, _, _ => rfl
  | _, _, .unary _ _, _, _ => rfl
  | _, _, .call _, _, _ => rfl
  | _, _, .varDecl _, _, _ => rfl
  | _, _, .assignment _, _, _ => rfl
  | _, _, .ifStmt hcondition hthen helse, env, stack => by
      simp only [scopeStmt, hasValue_like env hcondition, helse.isNull,
        scopeStmt_like hthen env stack, scopeStmt_like helse]
  | _, _, .whileStmt hcondition hbody, env, stack => by
      rw [scopeStmt, scopeStmt, hasValue_like env hcondition, scopeStmt_like hbody env stack]
  | _, _, .block hstatements, env, stack => by
      rw [scopeStmt, scopeStmt, scopeStmts_like hstatements env stack]
  | _, _, .returnStmt _, _, _ => rfl
  | _, _, .function _, _, _ => rfl
  | _, _, .translationUnit _, _, _ => rfl

theorem scopeStmts_like : ∀ {nodes nodes' : List ASTNode}, LikeAll nodes nodes' →
    ∀ (env : Env) (stack : Nat), scopeStmts env nodes' stack = scopeStmts env nodes stack
  | _, _, .nil, _, _ => rfl
  | _, _, .cons hnode hrest, env, stack => by
      rw [scopeStmts, scopeStmts, scopeStmt_like hnode env stack, scopeStmts_like hrest]

end

mutual

/-- Trees that are alike are complete alike, as expressions. -/
theorem completeExpr_like : ∀ {node node' : ASTNode}, Like node node' →
    node.CompleteExpr → node'.CompleteExpr
  | _, _, .refl _, h => h
  | _, _, .exchange _ _ hleft hright _ _, h =>
      ⟨completeExpr_like hright h.2, completeExpr_like hleft h.1⟩
  | _, _, .binary _ hleft hright, h => ⟨completeExpr_like hleft h.1, completeExpr_like hright h.2⟩
  | _, _, .unary _ hoperand, h => (completeExpr_like hoperand h :)
  | _, _, .call hargs, h => ⟨Nat.le_trans (Nat.le_of_eq (length_likeAll hargs)) h.1,
      completeArgs_like hargs h.2⟩
  | _, _, .assignment hvalue, h => (completeExpr_like hvalue h :)
  | _, _, .varDecl _, h => h
  | _, _, .ifStmt _ _ _, h => h
  | _, _, .whileStmt _ _, h => h
  | _, _, .block _, h => h
  | _, _, .returnStmt _, h => h
  | _, _, .function _, h => h
  | _, _, .translationUnit _, h => h

theorem completeArgs_like : ∀ {nodes nodes' : List ASTNode}, LikeAll nodes nodes' →
    CompleteArgs nodes → CompleteArgs nodes'
  | _, _, .nil, h => h
  | _, _, .cons hnode hrest, h => ⟨completeExpr_like hnode h.1, completeArgs_like hrest h.2⟩

theorem length_likeAll : ∀ {nodes nodes' : List ASTNode}, LikeAll nodes nodes' →
    nodes'.length = nodes.length
  | _, _, .nil => rfl
  | _, _, .cons _ hrest => congrArg Nat.succ (length_likeAll hrest)

end

mutual

/-- Trees that are alike are complete alike, as statements. -/
theorem completeStmt_like : ∀ {node node' : ASTNode}, Like node node' →
    node.CompleteStmt → node'.CompleteStmt
  | _, _, .refl _, h => h
  | _, _, .exchange hop htype hleft hright hl hr, h =>
      completeExpr_like (.exchange hop htype hleft hright hl hr) h
  | _, _, .binary htype hleft hright, h => completeExpr_like (.binary htype hleft hright) h
  | _, _, .unary htype hoperand, h => completeExpr_like (.unary htype hoperand) h
  | _, _, .call hargs, h => completeExpr_like (.call hargs) h
  | _, _, .assignment hvalue, h => completeExpr_like (.assignment hvalue) h
  | _, _, .varDecl hinit, h =>
      h.imp (fun hnull => hinit.isNull.trans hnull) (completeExpr_like hinit)
  | _, _, .returnStmt hexpression, h =>
      h.imp (fun hnull => hexpression.isNull.trans hnull) (completeExpr_like hexpression)
  | _, _, .ifStmt hcondition hthen helse, h =>
      ⟨completeExpr_like hcondition h.1, completeStmt_like hthen h.2.1,
        h.2.2.imp (fun hnull => helse.isNull.trans hnull) (completeStmt_like helse)⟩
  | _, _, .whileStmt hcondition hbody, h =>
      ⟨completeExpr_like hcondition h.1, completeStmt_like hbody h.2⟩
  | _, _, .block hstatements, h => (completeStmts_like hstatements h :)
  | _, _, .function _, h => h
  | _, _, .translationUnit _, h => h

theorem completeStmts_like : ∀ {nodes nodes' : List ASTNode}, LikeAll nodes nodes' →
    CompleteStmts nodes → CompleteStmts nodes'
  | _, _, .nil, h => h
  | _, _, .cons hnode hrest, h => ⟨completeStmt_like hnode h.1, completeStmts_like hrest h.2⟩

end

end

/-! ## Values -/

section

variable (oracle : Oracle) {env : Env}

theorem evalOp_comm {op : BinaryOp} (h : commutes op = true) (a b : Word)
    (leftType rightType : DataType) :
    evalOp a b (binaryOpcode op leftType) = evalOp b a (binaryOpcode op rightType) := by
  cases op with
  | add => exact congrArg some (BitVec.add_comm a b)
  | mul => exact congrArg some (BitVec.mul_comm a b)
  | bitAnd => exact congrArg some (BitVec.and_comm a b)
  | bitOr => exact congrArg some (BitVec.or_comm a b)
  | bitXor => exact congrArg some (BitVec.xor_comm a b)
  | equal =>
    show some (truth (decide (a.toInt = b.toInt))) = some (truth (decide (b.toInt = a.toInt)))
    simp only [eq_comm]
  | notEqual =>
    show some (truth (decide (a.toInt ≠ b.toInt))) = some (truth (decide (b.toInt ≠ a.toInt)))
    simp only [ne_comm]
  | _ => cases h

theorem withValue_map {α β : Type} (value : Option α) (m : Store)
    (f : α → Store → Evaluation β) :
    Evaluation.withValue (value.map fun v => (some v, m)) f = value.bind fun v => f v m := by
  cases value <;> rfl

/-- An expression without a call leaves the store as it is. -/
theorem evalExpr_noCall : ∀ {node : ASTNode}, node.hasCall = false →
    hasValue env node = true → ∀ m : Store,
      ∃ value : Option Word, evalExpr oracle env node m = value.map fun v => (some v, m)
  | .number _ value, _, _, _ => ⟨some (svToInt64 value), rfl⟩
  | .identifier info name, _, hvalue, m => by
      obtain ⟨e, hname⟩ := Option.isSome_iff_exists.mp hvalue
      exact ⟨some (m.read e.binding info.valueType), by rw [evalExpr, hname]; rfl⟩
  | .unary op info operand, hcall, hvalue, m => by
      have hcall' : operand.hasCall = false := hcall
      obtain ⟨value, heval⟩ := evalExpr_noCall hcall' hvalue m
      rw [evalExpr, heval]
      cases value with
      | none => exact ⟨none, rfl⟩
      | some a => exact ⟨evalOp a 0 (unaryOpcode op), rfl⟩
  | .binary op info left right, hcall, hvalue, m => by
      obtain ⟨hleft, hright⟩ := Bool.and_eq_true_iff.mp hvalue
      simp only [ASTNode.hasCall, ASTNode.subnodes, List.any_cons, ASTNode.isCall,
        Bool.false_or, List.any_append, Bool.or_eq_false_iff] at hcall
      obtain ⟨a, ha⟩ := evalExpr_noCall hcall.1 hleft m
      obtain ⟨b, hb⟩ := evalExpr_noCall hcall.2 hright m
      refine ⟨a.bind fun a => b.bind fun b => evalOp a b (binaryOpcode op (typeOf left)), ?_⟩
      simp only [evalExpr, ha, hb, withValue_map, Option.map_bind, Function.comp_def]
  | .call _ _ _, hcall, _, _ => by cases hcall

mutual

/-- Trees that are alike have the same value. -/
theorem evalExpr_like : ∀ {node node' : ASTNode}, Like node node' → hasValue env node = true →
    ∀ m : Store, evalExpr oracle env node' m = evalExpr oracle env node m
  | _, _, .refl _, _, _ => rfl
  | _, _, @Like.exchange op _ _ left left' right right' hop _ hleft hright hleftOperand
      hrightOperand, hvalue, m => by
      obtain ⟨hl, hr⟩ := Bool.and_eq_true_iff.mp hvalue
      obtain ⟨a, ha⟩ := evalExpr_noCall oracle hleftOperand.noCall hl m
      obtain ⟨b, hb⟩ := evalExpr_noCall oracle hrightOperand.noCall hr m
      have hl' := evalExpr_like hleft hl
      have hr' := evalExpr_like hright hr
      simp only [evalExpr, hl', hr', ha, hb, withValue_map]
      cases a with
      | none => cases b <;> rfl
      | some a =>
        cases b with
        | none => rfl
        | some b =>
          show (evalOp b a _).map _ = (evalOp a b _).map _
          rw [evalOp_comm hop b a (typeOf right') (typeOf left)]
  | _, _, @Like.binary op _ _ left left' right right' _ hleft hright, hvalue, m => by
      obtain ⟨hl, hr⟩ := Bool.and_eq_true_iff.mp hvalue
      have hl' := evalExpr_like hleft hl
      have hr' := evalExpr_like hright hr
      simp only [evalExpr, hl', hr', binaryOpcode_like op hleft]
  | _, _, .unary _ hoperand, hvalue, m => by
      simp only [evalExpr, evalExpr_like hoperand hvalue m]
  | _, _, .call hargs, hvalue, m => by simp only [evalExpr, evalArgs_like hargs hvalue m]
  | _, _, .varDecl _, hvalue, _ => nomatch hvalue
  | _, _, .assignment _, hvalue, _ => nomatch hvalue
  | _, _, .ifStmt _ _ _, hvalue, _ => nomatch hvalue
  | _, _, .whileStmt _ _, hvalue, _ => nomatch hvalue
  | _, _, .block _, hvalue, _ => nomatch hvalue
  | _, _, .returnStmt _, hvalue, _ => nomatch hvalue
  | _, _, .function _, hvalue, _ => nomatch hvalue
  | _, _, .translationUnit _, hvalue, _ => nomatch hvalue

theorem evalArgs_like : ∀ {nodes nodes' : List ASTNode}, LikeAll nodes nodes' →
    haveValues env nodes = true →
    ∀ m : Store, evalArgs oracle env nodes' m = evalArgs oracle env nodes m
  | _, _, .nil, _, _ => rfl
  | _, _, .cons hnode hrest, hvalues, m => by
      obtain ⟨hvalue, hvalues⟩ := Bool.and_eq_true_iff.mp hvalues
      have hnode' := evalExpr_like hnode hvalue
      have hrest' := evalArgs_like hrest hvalues
      simp only [evalArgs, hnode', hrest']

end

/-! ## Effects -/

mutual

/-- Statements that are alike do the same. -/
theorem evalStmt_like (fuel : Nat) : ∀ {node node' : ASTNode}, Like node node' →
    ∀ (env : Env) (stack : Nat) (m : Store), Valued env node stack →
      evalStmt oracle fuel env node' stack m = evalStmt oracle fuel env node stack m
  | _, _, .refl _, _, _, _, _ => rfl
  | _, _, .exchange hop htype hleft hright hl hr, _, _, m, hvalue => by
      simp only [evalStmt, evalExpr_like oracle (.exchange hop htype hleft hright hl hr) hvalue m]
  | _, _, .binary htype hleft hright, _, _, m, hvalue => by
      simp only [evalStmt, evalExpr_like oracle (.binary htype hleft hright) hvalue m]
  | _, _, .unary htype hoperand, _, _, m, hvalue => by
      simp only [evalStmt, evalExpr_like oracle (.unary htype hoperand) hvalue m]
  | _, _, .call hargs, _, _, m, hvalue => by
      simp only [evalStmt, evalExpr_like oracle (.call hargs) hvalue m]
  | _, _, .varDecl hinit, env, stack, m, hvalued => by
      simp only [evalStmt, evalInit, hinit.isNull]
      split
      · rfl
      · rename_i hnull
        rw [evalExpr_like oracle hinit (hvalued.resolve_left hnull) m]
  | _, _, @Like.assignment info varName value value' hvalue, env, stack, m, hvalued => by
      simp only [evalStmt, evalExpr_like oracle hvalue hvalued.2 m]
  | _, _, .returnStmt hexpression, env, stack, m, hvalued => by
      simp only [evalStmt, hexpression.isNull]
      split
      · rfl
      · rename_i hnull
        rw [evalExpr_like oracle hexpression (hvalued.resolve_left hnull) m]
  | _, _, @Like.ifStmt _ _ _ _ _ elseBranch _ hcondition hthen helse, env, stack, m,
      ⟨hcond, hvthen, hvelse⟩ => by
      have ht := fun m => evalStmt_like fuel hthen env stack m hvthen
      simp only [evalStmt, evalExpr_like oracle hcondition hcond m, ht, helse.isNull,
        scopeStmt_like hthen]
      by_cases hnull : elseBranch.isNull = true
      · simp only [hnull, if_true]
      · have he := fun m => evalStmt_like fuel helse _ _ m (hvelse.resolve_left hnull)
        simp only [hnull, he]
  | _, _, .whileStmt hcondition hbody, env, stack, m, ⟨hcond, hvbody⟩ => by
      have hb := fun m => evalStmt_like fuel hbody env stack m hvbody
      have hc := evalExpr_like oracle hcondition hcond
      simp only [evalStmt, hc, hb]
  | _, _, .block hstatements, env, stack, m, hvalued => by
      rw [evalStmt, evalStmt, evalStmts_like fuel hstatements env stack m hvalued]
  | _, _, .function _, _, _, _, hvalue => nomatch hvalue
  | _, _, .translationUnit _, _, _, _, hvalue => nomatch hvalue

/-- Lists of statements that are alike do the same. -/
theorem evalStmts_like (fuel : Nat) : ∀ {nodes nodes' : List ASTNode}, LikeAll nodes nodes' →
    ∀ (env : Env) (stack : Nat) (m : Store), ValuedAll env nodes stack →
      evalStmts oracle fuel env nodes' stack m = evalStmts oracle fuel env nodes stack m
  | _, _, .nil, _, _, _, _ => rfl
  | _, _, .cons hnode hrest, env, stack, m, ⟨hvnode, hvrest⟩ => by
      have hs := fun m => evalStmts_like fuel hrest _ _ m hvrest
      simp only [evalStmts, evalStmt_like fuel hnode env stack m hvnode, scopeStmt_like hnode, hs]

end

end

/-! ## Lowering -/

/-- Two expressions have values and take as much. -/
structure ExprAlike (o o' : ExprOut) : Prop where
  reg : o.reg ≠ 0
  reg' : o'.reg ≠ 0
  next : o'.next = o.next
  length : o'.code.length = o.code.length
  quiet : Quiet o'.history

/-- Two statements leave the same behind and take as much. -/
structure StmtAlike (o o' : StmtOut) : Prop where
  env : o'.env = o.env
  counters : o'.counters = o.counters
  length : o'.code.length = o.code.length
  unreported : Unreported o'.history

theorem StmtAlike.refl {o : StmtOut} (h : Unreported o.history) : StmtAlike o o :=
  ⟨rfl, rfl, rfl, h⟩

section

variable {p stack : Nat} {env : Env} {node node' : ASTNode}

theorem lowerExpr_like {n : Nat} (henv : EnvFits p stack env) (hn : p < n)
    (hle : n ≤ maxVregsPerFunction) (h : Like node node') (hvalue : hasValue env node = true)
    (hok : ¬ OutOfVregs (lowerExpr env node n).history) :
    ExprAlike (lowerExpr env node n) (lowerExpr env node' n) := by
  have hvalue' : hasValue env node' = true := (hasValue_like env h).trans hvalue
  have hok' : ¬ OutOfVregs (lowerExpr env node' n).history := by
    rw [outOfVregs_iff henv hn hle hvalue] at hok
    rwa [outOfVregs_iff henv hn hle hvalue', cost_like env 0 h]
  have htakes := lowerExpr_takes henv node n hn hvalue hok
  have htakes' := lowerExpr_takes henv node' n hn hvalue' hok'
  refine ⟨(lowerExpr_reg henv node n hn hok).mpr hvalue,
    (lowerExpr_reg henv node' n hn hok').mpr hvalue', ?_, ?_, htakes'.quiet⟩
  · rw [htakes'.next, htakes.next, cost_like env 0 h]
  · rw [htakes'.length, htakes.length, cost_like env 1 h]

/-- The first free register stays within the limit. -/
theorem lowerExpr_limit {n : Nat} (henv : EnvFits p stack env) (hle : n ≤ maxVregsPerFunction)
    (hok : ¬ OutOfVregs (lowerExpr env node n).history) :
    (lowerExpr env node n).next ≤ maxVregsPerFunction := by
  have hlimit := (lowerExpr_sound henv node n hok).facts.limit
  rwa [Nat.max_eq_right hle] at hlimit

/-- What is left to show of a statement that is an expression. -/
theorem stmtAlike_expr {c : Counters} (henv : EnvFits p c.stack env) (hp : p < c.vreg)
    (hle : c.vreg ≤ maxVregsPerFunction) (h : Like node node') (hvalue : hasValue env node = true)
    (hlower : ∀ n, n = node ∨ n = node' →
      lowerStmt env n c = exprStmt env (lowerExpr env n c.vreg) c)
    (hreported : Unreported (lowerStmt env node c).history) :
    StmtAlike (lowerStmt env node c) (lowerStmt env node' c) := by
  rw [hlower node (.inl rfl)] at hreported ⊢
  rw [hlower node' (.inr rfl)]
  obtain ⟨-, -, hnext, hlength, hquiet⟩ := lowerExpr_like henv hp hle h hvalue hreported.hasVregs
  refine ⟨rfl, ?_, hlength, hquiet.unreported⟩
  show ({ c with vreg := _ } : Counters) = _
  rw [hnext]
  rfl

theorem stmtAlike_varDecl {info : NodeInfo} {varName : StringView} {varType : DataType}
    {initializer initializer' : ASTNode} {c : Counters} (hp : p < c.vreg)
    (hle : c.vreg ≤ maxVregsPerFunction) (henv : EnvFits p c.stack env)
    (hinit : Like initializer initializer')
    (hvalued : Valued env (.varDecl info varName varType initializer) c.stack)
    (hreported : Unreported (lowerStmt env (.varDecl info varName varType initializer) c).history) :
    StmtAlike (lowerStmt env (.varDecl info varName varType initializer) c)
      (lowerStmt env (.varDecl info varName varType initializer') c) := by
  simp only [lowerStmt, lowerInit, hinit.isNull] at hreported ⊢
  by_cases hnull : initializer.isNull = true
  · simp only [hnull, if_true] at hreported ⊢
    exact .refl hreported
  · simp only [hnull, Bool.false_eq_true, if_false] at hreported ⊢
    have hfits : EnvFits p (c.stack + 1)
        ((varName, ⟨.var info.addr, varType, ⟨c.stack, true⟩⟩) :: env) :=
      (henv.mono (Nat.le_succ _)).cons (by simp)
    have hvalue := hvalued.resolve_left hnull
    have hok : Unreported (lowerExpr ((varName, ⟨.var info.addr, varType, ⟨c.stack, true⟩⟩) :: env)
        initializer c.vreg).history := fun reason hmem => hreported reason (by simp [hmem])
    obtain ⟨hreg, hreg', hnext, hlength, hquiet⟩ :=
      lowerExpr_like hfits hp hle hinit hvalue hok.hasVregs
    refine ⟨rfl, ?_, ?_, fun reason hmem => ?_⟩
    · simp only [hnext]
    · simp only [if_neg hreg, if_neg hreg', List.length_append, hlength, List.length_cons,
        List.length_nil]
    · simp only [List.mem_cons, reduceCtorEq, false_or] at hmem
      exact hquiet.unreported reason hmem

theorem stmtAlike_assignment {info : NodeInfo} {varName : StringView} {value value' : ASTNode}
    {c : Counters} (hp : p < c.vreg) (hle : c.vreg ≤ maxVregsPerFunction)
    (henv : EnvFits p c.stack env) (hvalue : Like value value')
    (hvalued : Valued env (.assignment info varName value) c.stack)
    (hreported : Unreported (lowerStmt env (.assignment info varName value) c).history) :
    StmtAlike (lowerStmt env (.assignment info varName value) c)
      (lowerStmt env (.assignment info varName value') c) := by
  obtain ⟨e, hname⟩ := Option.isSome_iff_exists.mp hvalued.1
  simp only [lowerStmt, hname] at hreported ⊢
  have hok : Unreported (lowerExpr env value c.vreg).history := fun reason hmem =>
    hreported reason (by simp [hmem])
  obtain ⟨hreg, hreg', hnext, hlength, hquiet⟩ :=
    lowerExpr_like henv hp hle hvalue hvalued.2 hok.hasVregs
  refine ⟨rfl, ?_, ?_, fun reason hmem => ?_⟩
  · simp only [hnext]
  · simp only [if_neg hreg, if_neg hreg', List.length_append, hlength, List.length_cons,
      List.length_nil]
  · simp only [List.mem_cons, reduceCtorEq, false_or] at hmem
    exact hquiet.unreported reason hmem

theorem stmtAlike_return {info : NodeInfo} {expression expression' : ASTNode} {c : Counters}
    (hp : p < c.vreg) (hle : c.vreg ≤ maxVregsPerFunction) (henv : EnvFits p c.stack env)
    (hexpression : Like expression expression')
    (hvalued : Valued env (.returnStmt info expression) c.stack)
    (hreported : Unreported (lowerStmt env (.returnStmt info expression) c).history) :
    StmtAlike (lowerStmt env (.returnStmt info expression) c)
      (lowerStmt env (.returnStmt info expression') c) := by
  simp only [lowerStmt, lowerReturned, hexpression.isNull] at hreported ⊢
  by_cases hnull : expression.isNull = true
  · simp only [hnull, if_true] at hreported ⊢
    exact .refl hreported
  · simp only [hnull, Bool.false_eq_true, if_false] at hreported ⊢
    obtain ⟨hreg, hreg', hnext, hlength, hquiet⟩ :=
      lowerExpr_like henv hp hle hexpression (hvalued.resolve_left hnull) hreported.hasVregs
    refine ⟨rfl, ?_, ?_, hquiet.unreported⟩
    · simp only [hnext]
    · simp only [if_neg hreg, if_neg hreg', List.length_append, hlength, List.length_cons,
        List.length_nil]

/-- What holds of two statements wherever they stand. -/
def LowersAlike (p : Nat) (node node' : ASTNode) : Prop :=
  ∀ (env : Env) (c : Counters), p < c.vreg → c.vreg ≤ maxVregsPerFunction →
    EnvFits p c.stack env → Valued env node c.stack → Unreported (lowerStmt env node c).history →
    StmtAlike (lowerStmt env node c) (lowerStmt env node' c)

theorem stmtAlike_if {info : NodeInfo}
    {condition condition' thenBranch thenBranch' elseBranch elseBranch' : ASTNode}
    (hcondition : Like condition condition') (hnull : elseBranch'.isNull = elseBranch.isNull)
    (iht : LowersAlike p thenBranch thenBranch') (ihe : LowersAlike p elseBranch elseBranch') :
    LowersAlike p (.ifStmt info condition thenBranch elseBranch)
      (.ifStmt info condition' thenBranch' elseBranch') := by
  intro env c hp hle henv ⟨hcond, hvthen, hvelse⟩ hreported
  have hlike := lowerExpr_like henv hp hle hcondition hcond
  have hlimit := @lowerExpr_limit p c.stack env condition c.vreg henv hle
  have hsound := lowerExpr_sound henv condition c.vreg
  simp only [lowerStmt] at hreported ⊢
  set o := lowerExpr env condition c.vreg
  set o' := lowerExpr env condition' c.vreg
  have ho : Unreported o.history := by
    intro reason hmem
    refine hreported reason ?_
    split <;> split <;> simp [hmem]
  obtain ⟨hreg, hreg', hnext, hlength, hquiet⟩ := hlike ho.hasVregs
  have hp' : p < o.next := Nat.lt_of_lt_of_le hp (hsound ho.hasVregs).facts.le
  have hle' := hlimit ho.hasVregs
  simp only [hnull, hnext, if_neg hreg, if_neg hreg'] at hreported ⊢
  by_cases hnone : elseBranch.isNull = true
  · simp only [hnone, if_true] at hreported ⊢
    obtain ⟨henv', hcounters, hlength', hthen⟩ :=
      iht env ⟨o.next, c.stack, c.label + 1⟩ hp' hle' henv hvthen hreported.right
    refine ⟨henv', hcounters, ?_, hquiet.unreported.append hthen⟩
    simp only [List.length_append, hlength, hlength', List.length_cons, List.length_nil]
  · simp only [hnone, Bool.false_eq_true, if_false] at hreported ⊢
    have ht := hreported.left.right
    obtain ⟨henv', hcounters, hlength', hthen⟩ :=
      iht env ⟨o.next, c.stack, c.label + 2⟩ hp' hle' henv hvthen ht
    have hstmt := lowerStmt_sound thenBranch env ⟨o.next, c.stack, c.label + 2⟩ hp' henv
      ht.hasVregs
    obtain ⟨hnames, hslots⟩ :=
      lowerStmt_scopes thenBranch env ⟨o.next, c.stack, c.label + 2⟩ hp' henv ht.hasVregs
    have hlimit' := hstmt.piece.limit
    have hle'' : o.next ≤ maxVregsPerFunction := hle'
    rw [Nat.max_eq_right hle''] at hlimit'
    have hvelse := hvelse.resolve_left hnone
    rw [← hnames, ← hslots] at hvelse
    obtain ⟨henv'', hcounters', hlength'', helse⟩ :=
      ihe _ _ (Nat.lt_of_lt_of_le hp' hstmt.piece.le) hlimit' hstmt.env hvelse hreported.right
    rw [henv', hcounters]
    refine ⟨henv'', hcounters', ?_, (hquiet.unreported.append hthen).append helse⟩
    simp only [List.length_append, hlength, hlength', hlength'', List.length_cons,
      List.length_nil]

theorem stmtAlike_while {info : NodeInfo} {condition condition' body body' : ASTNode}
    (hcondition : Like condition condition') (ih : LowersAlike p body body') :
    LowersAlike p (.whileStmt info condition body) (.whileStmt info condition' body') := by
  intro env c hp hle henv ⟨hcond, hvbody⟩ hreported
  have hlike := lowerExpr_like henv hp hle hcondition hcond
  have hlimit := @lowerExpr_limit p c.stack env condition c.vreg henv hle
  have hsound := lowerExpr_sound henv condition c.vreg
  simp only [lowerStmt] at hreported ⊢
  set o := lowerExpr env condition c.vreg
  set o' := lowerExpr env condition' c.vreg
  have ho : Unreported o.history := by
    split at hreported
    · exact hreported
    · exact hreported.left
  obtain ⟨hreg, hreg', hnext, hlength, hquiet⟩ := hlike ho.hasVregs
  simp only [hnext, if_neg hreg, if_neg hreg'] at hreported ⊢
  obtain ⟨henv', hcounters, hlength', hbody⟩ := ih env ⟨o.next, c.stack, c.label + 2⟩
    (Nat.lt_of_lt_of_le hp (hsound ho.hasVregs).facts.le) (hlimit ho.hasVregs) henv hvbody
    hreported.right
  refine ⟨henv', hcounters, ?_, hquiet.unreported.append hbody⟩
  simp only [List.length_append, hlength, hlength', List.length_cons, List.length_nil]

mutual

/-- Statements that are alike are lowered alike. -/
theorem lowerStmt_like : ∀ {node node' : ASTNode}, Like node node' → LowersAlike p node node'
  | _, _, .refl _ => fun _ _ _ _ _ _ hreported => .refl hreported
  | _, _, .exchange hop htype hleft hright hl hr => fun _ _ hp hle henv hvalue =>
      stmtAlike_expr henv hp hle (.exchange hop htype hleft hright hl hr) hvalue
        fun _ h => by obtain rfl | rfl := h <;> rfl
  | _, _, .binary htype hleft hright => fun _ _ hp hle henv hvalue =>
      stmtAlike_expr henv hp hle (.binary htype hleft hright) hvalue
        fun _ h => by obtain rfl | rfl := h <;> rfl
  | _, _, .unary htype hoperand => fun _ _ hp hle henv hvalue =>
      stmtAlike_expr henv hp hle (.unary htype hoperand) hvalue
        fun _ h => by obtain rfl | rfl := h <;> rfl
  | _, _, .call hargs => fun _ _ hp hle henv hvalue =>
      stmtAlike_expr henv hp hle (.call hargs) hvalue
        fun _ h => by obtain rfl | rfl := h <;> rfl
  | _, _, .varDecl hinit => fun _ _ hp hle henv => stmtAlike_varDecl hp hle henv hinit
  | _, _, .assignment hvalue => fun _ _ hp hle henv => stmtAlike_assignment hp hle henv hvalue
  | _, _, .returnStmt hexpression => fun _ _ hp hle henv =>
      stmtAlike_return hp hle henv hexpression
  | _, _, .ifStmt hcondition hthen helse =>
      stmtAlike_if hcondition helse.isNull (lowerStmt_like hthen) (lowerStmt_like helse)
  | _, _, .whileStmt hcondition hbody => stmtAlike_while hcondition (lowerStmt_like hbody)
  | _, _, .block hstatements => fun env c hp hle henv hvalued hreported => by
      have hlike := lowerStmts_like hstatements env c hp hle henv hvalued hreported
      exact ⟨rfl, hlike.counters, hlike.length, hlike.unreported⟩
  | _, _, .function _ => fun _ _ _ _ _ hvalue => nomatch hvalue
  | _, _, .translationUnit _ => fun _ _ _ _ _ hvalue => nomatch hvalue

/-- Lists of statements that are alike are lowered alike. -/
theorem lowerStmts_like : ∀ {nodes nodes' : List ASTNode}, LikeAll nodes nodes' →
    ∀ (env : Env) (c : Counters), p < c.vreg → c.vreg ≤ maxVregsPerFunction →
      EnvFits p c.stack env → ValuedAll env nodes c.stack →
      Unreported (lowerStmts env nodes c).history →
      StmtAlike (lowerStmts env nodes c) (lowerStmts env nodes' c)
  | _, _, .nil, _, _, _, _, _, _, hreported => .refl hreported
  | _, _, @LikeAll.cons node _ rest _ hnode hrest, env, c, hp, hle, henv, ⟨hvnode, hvrest⟩,
      hreported => by
      simp only [lowerStmts] at hreported ⊢
      have hok := hreported.left.hasVregs
      obtain ⟨henv', hcounters, hlength, hfirst⟩ :=
        lowerStmt_like hnode env c hp hle henv hvnode hreported.left
      have hstmt := lowerStmt_sound (p := p) node env c hp henv hok
      obtain ⟨hnames, hslots⟩ := lowerStmt_scopes node env c hp henv hok
      have hlimit := hstmt.piece.limit
      rw [Nat.max_eq_right hle] at hlimit
      rw [← hnames, ← hslots] at hvrest
      obtain ⟨henv'', hcounters', hlength', hothers⟩ := lowerStmts_like hrest _ _
        (Nat.lt_of_lt_of_le hp hstmt.piece.le) hlimit hstmt.env hvrest hreported.right
      rw [henv', hcounters]
      refine ⟨henv'', hcounters', ?_, hfirst.append hothers⟩
      rw [List.length_append, List.length_append, hlength, hlength']

end

end

/-! ## Functions -/

mutual

/-- Statements that are alike leave the same table. -/
theorem tableStmt_like : ∀ {node node' : ASTNode}, Like node node' → ∀ t : Taken,
    tableStmt node' t = tableStmt node t
  | _, _, .refl _, _ => rfl
  | _, _, .exchange _ _ _ _ _ _, _ => rfl
  | _, _, .binary _ _ _, _ => rfl
  | _, _, .unary _ _, _ => rfl
  | _, _, .call _, _ => rfl
  | _, _, .varDecl _, _ => rfl
  | _, _, .assignment _, _ => rfl
  | _, _, .returnStmt _, _ => rfl
  | _, _, .ifStmt _ hthen helse, t => by
      have he := tableStmt_like helse
      simp only [tableStmt, tableStmt_like hthen t, helse.isNull, he]
  | _, _, .whileStmt _ hbody, t => by rw [tableStmt, tableStmt, tableStmt_like hbody t]
  | _, _, .block hstatements, t => by rw [tableStmt, tableStmt, tableStmts_like hstatements t]
  | _, _, .function _, _ => rfl
  | _, _, .translationUnit _, _ => rfl

theorem tableStmts_like : ∀ {nodes nodes' : List ASTNode}, LikeAll nodes nodes' → ∀ t : Taken,
    tableStmts nodes' t = tableStmts nodes t
  | _, _, .nil, _ => rfl
  | _, _, .cons hnode hrest, t => by
      have hs := fun t => tableStmts_like hrest t
      simp only [tableStmts, tableStmt_like hnode t, funext hs]

end

/-- A function of which nothing is missing has a block for its body. -/
theorem LikeAll.of_function {info : NodeInfo} {name : StringView} {returnType : DataType}
    {params : List Parameter} {body body' : ASTNode} {isPrototype : Bool} (h : Like body body')
    (hcomplete : (ASTNode.function info name returnType params body isPrototype).CompleteFunction) :
    isPrototype = false ∧ ∃ bodyInfo statements statements',
      body = .block bodyInfo statements ∧ body' = .block bodyInfo statements' ∧
        CompleteStmts statements ∧ LikeAll statements statements' := by
  cases body with
  | block bodyInfo statements =>
    cases h with
    | refl =>
      exact ⟨hcomplete.1, bodyInfo, statements, statements, rfl, rfl, hcomplete.2, .refl statements⟩
    | block hstatements =>
      exact ⟨hcomplete.1, bodyInfo, statements, _, rfl, rfl, hcomplete.2, hstatements⟩
  | _ => exact absurd hcomplete id

/-- Functions that are alike are generated alike, and their code returns the same values after
the same calls. -/
theorem irGen_like {func func' : ASTNode} {fresh : IRFunction} {errors : ErrorContext}
    {filename : Option String} {s : GenState} (h : Like func func')
    (hcomplete : func.CompleteFunction)
    (hrun : irGen fresh func errors filename = .ok (true, s)) (hnone : s.f.errors = errors)
    (errors' : ErrorContext) :
    ∃ s', irGen fresh func' errors' filename = .ok (true, s') ∧ s'.f.errors = errors' ∧
      ∀ (oracle : Oracle) (start : RunState) (v : Word) (calls : List Call), start.args = [] →
        ((∃ t, Results (runStep oracle s'.f.instructions) (0, start) (v, t) ∧ t.calls = calls) ↔
          ∃ t, Results (runStep oracle s.f.instructions) (0, start) (v, t) ∧
            t.calls = calls) := by
  obtain ⟨hgen, hlength, hparams⟩ := irGen_returns hrun
  cases func with
  | function info name returnType params body isPrototype =>
    have hbody : ∃ body', func' = .function info name returnType params body' isPrototype ∧
        Like body body' := by
      cases h with
      | refl => exact ⟨body, rfl, .refl body⟩
      | function hbody => exact ⟨_, rfl, hbody⟩
    obtain ⟨body', rfl, hbody⟩ := hbody
    obtain ⟨rfl, bodyInfo, statements, statements', rfl, rfl, hstmts, hlike⟩ :=
      LikeAll.of_function hbody hcomplete
    have hreported : Unreported (lowerRoot fresh.stackCount
        (.function info name returnType params (.block bodyInfo statements) false)).history :=
      fun _ hmem => drops_of_no_error (hgen.errors.symm.trans hnone) hmem
    have hfits : EnvFits params.length fresh.stackCount (paramEnv [] params 0) :=
      envFits_params params 0 (fun _ _ h => nomatch h) (by omega)
    have hp : params.length < 1 + params.length := by omega
    have hvalued := valuedAll_of_unreported statements (paramEnv [] params 0)
      ⟨1 + params.length, fresh.stackCount, 0⟩ hp hfits hstmts hreported
    have halike : StmtAlike
        (lowerRoot fresh.stackCount
          (.function info name returnType params (.block bodyInfo statements) false))
        (lowerRoot fresh.stackCount
          (.function info name returnType params (.block bodyInfo statements') false)) :=
      lowerStmts_like hlike (paramEnv [] params 0) ⟨1 + params.length, fresh.stackCount, 0⟩ hp
        hparams hfits hvalued hreported
    have htable : tableRoot fresh.stackCount
        (.function info name returnType params (.block bodyInfo statements') false) =
        tableRoot fresh.stackCount
          (.function info name returnType params (.block bodyInfo statements) false) := by
      have hs := fun t => tableStmts_like hlike t
      simp only [tableRoot, hs]
    obtain ⟨hsome, -⟩ := (irGen_iff hcomplete hparams hreported).mp ⟨s, hrun⟩
    have hcomplete' : (ASTNode.function info name returnType params
        (.block bodyInfo statements') false).CompleteFunction :=
      ⟨rfl, completeStmts_like hlike hstmts⟩
    have hlength' := halike.length ▸ hlength
    obtain ⟨s', hrun'⟩ := (@irGen_iff fresh _ errors' filename hcomplete' hparams
      halike.unreported).mpr ⟨htable ▸ hsome, hlength'⟩
    have hgen' := (irGen_returns hrun').1
    refine ⟨s', hrun', ?_, fun oracle start v calls hargs => ?_⟩
    · exact hgen'.errors.trans (noteHistory_unreported halike.unreported _ _ _)
    · rw [function_returns_iff oracle (hgen'.code (Nat.le_of_lt hlength'))
          halike.unreported.hasVregs hargs,
        function_returns_iff oracle (hgen.code (Nat.le_of_lt hlength)) hreported.hasVregs hargs]
      simp only [evalStmts_like oracle _ hlike _ _ _ hvalued]
  | _ => exact absurd hcomplete id

end TinyCompile.Ir
