import TinyCompile.Ir.Cost
import TinyCompile.Ir.Generated

set_option autoImplicit false

/-!
# Ir: statements of which nothing is given up

Where no part of a function is missing and no error is reported, every expression in it has
a value.
-/

namespace TinyCompile.Ir

open TinyCompile.Source

/-! ## Histories without errors -/

/-- Nothing was given up for a reason that is reported. -/
def Unreported (history : List Event) : Prop :=
  ∀ reason, Event.drop reason ∈ history →
    reason = .missingNode ∨ reason = .returnWithoutExpression

section

variable {history history' : List Event}

theorem Unreported.left (h : Unreported (history ++ history')) : Unreported history :=
  fun reason hmem => h reason (List.mem_append_left _ hmem)

theorem Unreported.right (h : Unreported (history ++ history')) : Unreported history' :=
  fun reason hmem => h reason (List.mem_append_right _ hmem)

theorem Unreported.append (h : Unreported history) (h' : Unreported history') :
    Unreported (history ++ history') := fun reason hmem =>
  (List.mem_append.mp hmem).elim (h reason) (h' reason)

theorem Unreported.hasVregs (h : Unreported history) : ¬ OutOfVregs history := fun hmem =>
  (h .vregLimit hmem).elim nofun nofun

theorem Quiet.unreported (h : Quiet history) : Unreported history := fun reason hmem =>
  absurd hmem (h reason)

theorem Unreported.finish {code : List IRInstruction} {next : Nat} {inst : Nat → IRInstruction}
    (h : Unreported (finish code next history inst).history) : Unreported history := by
  unfold Ir.finish at h
  split at h
  · exact h.left
  · exact h

/-- Such a history adds nothing to the errors. -/
theorem noteHistory_unreported (h : Unreported history) (name : StringView)
    (filename : Option String) (errors : ErrorContext) :
    noteHistory name filename errors history = errors := by
  induction history with
  | nil => rfl
  | cons e history ih =>
    have hstep : noteEvent name filename errors e = errors := by
      cases e with
      | drop reason => obtain rfl | rfl := h reason (by simp) <;> rfl
      | declared _ _ _ => rfl
      | resolved _ _ => rfl
    show noteHistory name filename (noteEvent name filename errors e) history = errors
    rw [hstep]
    exact ih fun reason hmem => h reason (by simp [hmem])

end

/-! ## Expressions -/

section

variable {p stack : Nat} {env : Env}

mutual

/-- An expression without a value is reported. -/
theorem hasValue_of_unreported (henv : EnvFits p stack env) : ∀ (node : ASTNode) (n : Nat),
    p < n → node.CompleteExpr → Unreported (lowerExpr env node n).history →
    hasValue env node = true
  | .number _ _, _, _, _, _ => rfl
  | .identifier info name, n, _, _, h => by
      simp only [lowerExpr] at h
      show (env.lookup name).isSome = true
      cases hname : env.lookup name with
      | some e => rfl
      | none =>
        simp only [hname] at h
        exact (h (.undefinedVariable info name) (by simp)).elim nofun nofun
  | .unary op info operand, n, hn, hcomplete, h => by
      have ih := hasValue_of_unreported henv operand n hn hcomplete
      simp only [lowerExpr] at h
      split at h
      · exact ih h
      · exact ih h.finish
  | .binary op info left right, n, hn, hcomplete, h => by
      have ihl := hasValue_of_unreported henv left n hn hcomplete.1
      have ihr := hasValue_of_unreported henv right
      have hreg := lowerExpr_reg henv left n hn
      have hsound := lowerExpr_sound henv left n
      simp only [lowerExpr] at h
      set l := lowerExpr env left n
      have hleft : Unreported l.history := by
        split at h
        · exact h
        · split at h
          · exact h.left
          · exact h.finish.left
      have hlreg := (hreg hleft.hasVregs).mpr (ihl hleft)
      rw [if_neg hlreg] at h
      have hn' := Nat.lt_of_lt_of_le hn (hsound hleft.hasVregs).facts.le
      have hright : Unreported (lowerExpr env right l.next).history := by
        split at h
        · exact h.right
        · exact h.finish.right
      exact Bool.and_eq_true_iff.mpr ⟨ihl hleft, ihr l.next hn' hcomplete.2 hright⟩
  | .call info functionName args, n, hn, hcomplete, h => by
      have ih := haveValues_of_unreported henv args n hn hcomplete.2
      simp only [lowerExpr] at h
      split at h
      · exact ih h
      · exact ih h.finish
  | .assignment info _ _, _, _, _, h =>
      (h (.statementInExpression info) (by simp [lowerExpr])).elim nofun nofun

/-- An argument without a value is reported. -/
theorem haveValues_of_unreported (henv : EnvFits p stack env) :
    ∀ (args : List ASTNode) (n : Nat), p < n → CompleteArgs args →
    Unreported (lowerArgs env args n).history → haveValues env args = true
  | [], _, _, _, _ => rfl
  | arg :: rest, n, hn, hcomplete, h => by
      have ih := hasValue_of_unreported henv arg n hn hcomplete.1
      have ihs := haveValues_of_unreported henv rest
      have hreg := lowerExpr_reg henv arg n hn
      have hsound := lowerExpr_sound henv arg n
      simp only [lowerArgs] at h
      set o := lowerExpr env arg n
      have harg : Unreported o.history := by
        split at h
        · exact h
        · exact h.left
      rw [if_neg ((hreg harg.hasVregs).mpr (ih harg))] at h
      have hn' := Nat.lt_of_lt_of_le hn (hsound harg.hasVregs).facts.le
      exact Bool.and_eq_true_iff.mpr ⟨ih harg, ihs o.next hn' hcomplete.2 h.right⟩

end

end

/-! ## Statements -/

mutual

/-- Every expression of a statement has a value. -/
def Valued (env : Env) : ASTNode → Nat → Prop
  | .null, _ => True
  | .varDecl info varName varType initializer, stack =>
      initializer.isNull = true ∨
        hasValue ((varName, ⟨.var info.addr, varType, ⟨stack, true⟩⟩) :: env) initializer = true
  | .assignment _ varName value, _ =>
      (env.lookup varName).isSome = true ∧ hasValue env value = true
  | .returnStmt _ expression, _ => expression.isNull = true ∨ hasValue env expression = true
  | .block _ statements, stack => ValuedAll env statements stack
  | .ifStmt _ condition thenBranch elseBranch, stack =>
      hasValue env condition = true ∧ Valued env thenBranch stack ∧
        (elseBranch.isNull = true ∨
          Valued (scopeStmt env thenBranch stack).1 elseBranch (scopeStmt env thenBranch stack).2)
  | .whileStmt _ condition body, stack =>
      hasValue env condition = true ∧ Valued env body stack
  | node, _ => hasValue env node = true

/-- Every expression of some statements has a value. -/
def ValuedAll (env : Env) : List ASTNode → Nat → Prop
  | [], _ => True
  | stmt :: rest, stack =>
      Valued env stmt stack ∧
        ValuedAll (scopeStmt env stmt stack).1 rest (scopeStmt env stmt stack).2

end

section

variable {p : Nat} {env : Env}

theorem valued_varDecl {info : NodeInfo} {varName : StringView} {varType : DataType}
    {initializer : ASTNode} {c : Counters} (hp : p < c.vreg) (henv : EnvFits p c.stack env)
    (hcomplete : (ASTNode.varDecl info varName varType initializer).CompleteStmt)
    (h : Unreported (lowerStmt env (.varDecl info varName varType initializer) c).history) :
    Valued env (.varDecl info varName varType initializer) c.stack := by
  refine hcomplete.imp id fun hcomplete => ?_
  by_cases hnull : initializer.isNull = true
  · cases initializer with
    | null => exact absurd hcomplete id
    | _ => cases hnull
  · have hfits : EnvFits p (c.stack + 1)
        ((varName, ⟨.var info.addr, varType, ⟨c.stack, true⟩⟩) :: env) :=
      (henv.mono (Nat.le_succ _)).cons (by simp)
    simp only [lowerStmt, lowerInit] at h
    rw [if_neg hnull] at h
    exact hasValue_of_unreported hfits initializer c.vreg hp hcomplete fun reason hmem =>
      h reason (by simp [hmem])

theorem valued_assignment {info : NodeInfo} {varName : StringView} {value : ASTNode}
    {c : Counters} (hp : p < c.vreg) (henv : EnvFits p c.stack env)
    (hcomplete : (ASTNode.assignment info varName value).CompleteStmt)
    (h : Unreported (lowerStmt env (.assignment info varName value) c).history) :
    Valued env (.assignment info varName value) c.stack := by
  simp only [lowerStmt] at h
  cases hname : env.lookup varName with
  | none =>
    simp only [hname] at h
    exact (h (.undefinedTarget info varName) (by simp)).elim nofun nofun
  | some e =>
    simp only [hname] at h
    refine ⟨by rw [hname]; rfl, ?_⟩
    exact hasValue_of_unreported henv value c.vreg hp hcomplete fun reason hmem =>
      h reason (by simp [hmem])

theorem valued_return {info : NodeInfo} {expression : ASTNode} {c : Counters} (hp : p < c.vreg)
    (henv : EnvFits p c.stack env)
    (hcomplete : (ASTNode.returnStmt info expression).CompleteStmt)
    (h : Unreported (lowerStmt env (.returnStmt info expression) c).history) :
    Valued env (.returnStmt info expression) c.stack := by
  refine hcomplete.imp id fun hcomplete => ?_
  simp only [lowerStmt, lowerReturned] at h
  split at h
  · rename_i hnull
    cases expression with
    | null => exact absurd hcomplete id
    | _ => cases hnull
  · exact hasValue_of_unreported henv expression c.vreg hp hcomplete h

theorem valued_if {info : NodeInfo} {condition thenBranch elseBranch : ASTNode} {c : Counters}
    (hp : p < c.vreg) (henv : EnvFits p c.stack env)
    (iht : ∀ env c, p < c.vreg → EnvFits p c.stack env → thenBranch.CompleteStmt →
      Unreported (lowerStmt env thenBranch c).history → Valued env thenBranch c.stack)
    (ihe : ∀ env c, p < c.vreg → EnvFits p c.stack env → elseBranch.CompleteStmt →
      Unreported (lowerStmt env elseBranch c).history → Valued env elseBranch c.stack)
    (hcomplete : (ASTNode.ifStmt info condition thenBranch elseBranch).CompleteStmt)
    (h : Unreported (lowerStmt env (.ifStmt info condition thenBranch elseBranch) c).history) :
    Valued env (.ifStmt info condition thenBranch elseBranch) c.stack := by
  obtain ⟨hcond, hthen, helse⟩ := hcomplete
  have hvalue := hasValue_of_unreported henv condition c.vreg hp hcond
  have hreg := lowerExpr_reg henv condition c.vreg hp
  have hsound := lowerExpr_sound henv condition c.vreg
  simp only [lowerStmt] at h
  set o := lowerExpr env condition c.vreg
  have ho : Unreported o.history := by
    intro reason hmem
    refine h reason ?_
    split <;> split <;> simp [hmem]
  have hvalue := hvalue ho
  have hle := (hsound ho.hasVregs).facts.le
  rw [if_neg ((hreg ho.hasVregs).mpr hvalue), if_neg ((hreg ho.hasVregs).mpr hvalue)] at h
  by_cases hnull : elseBranch.isNull = true
  · rw [if_pos hnull] at h
    exact ⟨hvalue, iht env ⟨o.next, c.stack, c.label + 1⟩ (Nat.lt_of_lt_of_le hp hle) henv hthen
      h.right, .inl hnull⟩
  · rw [if_neg hnull] at h
    have ht : Unreported (lowerStmt env thenBranch ⟨o.next, c.stack, c.label + 2⟩).history :=
      h.left.right
    have hp' : p < (⟨o.next, c.stack, c.label + 2⟩ : Counters).vreg := Nat.lt_of_lt_of_le hp hle
    have hthen' := iht env ⟨o.next, c.stack, c.label + 2⟩ hp' henv hthen ht
    have hstmt := lowerStmt_sound thenBranch env ⟨o.next, c.stack, c.label + 2⟩ hp' henv ht.hasVregs
    obtain ⟨henv', hstack⟩ :=
      lowerStmt_scopes thenBranch env ⟨o.next, c.stack, c.label + 2⟩ hp' henv ht.hasVregs
    have helse' := ihe _ _ (Nat.lt_of_lt_of_le hp' hstmt.piece.le) hstmt.env
      (helse.resolve_left hnull) h.right
    rw [henv', hstack] at helse'
    exact ⟨hvalue, hthen', .inr helse'⟩

theorem valued_while {info : NodeInfo} {condition body : ASTNode} {c : Counters}
    (hp : p < c.vreg) (henv : EnvFits p c.stack env)
    (ih : ∀ env c, p < c.vreg → EnvFits p c.stack env → body.CompleteStmt →
      Unreported (lowerStmt env body c).history → Valued env body c.stack)
    (hcomplete : (ASTNode.whileStmt info condition body).CompleteStmt)
    (h : Unreported (lowerStmt env (.whileStmt info condition body) c).history) :
    Valued env (.whileStmt info condition body) c.stack := by
  obtain ⟨hcond, hbody⟩ := hcomplete
  have hvalue := hasValue_of_unreported henv condition c.vreg hp hcond
  have hreg := lowerExpr_reg henv condition c.vreg hp
  have hsound := lowerExpr_sound henv condition c.vreg
  simp only [lowerStmt] at h
  set o := lowerExpr env condition c.vreg
  have ho : Unreported o.history := by
    split at h
    · exact h
    · exact h.left
  have hvalue := hvalue ho
  rw [if_neg ((hreg ho.hasVregs).mpr hvalue)] at h
  exact ⟨hvalue, ih env ⟨o.next, c.stack, c.label + 2⟩
    (Nat.lt_of_lt_of_le hp (hsound ho.hasVregs).facts.le) henv hbody h.right⟩

mutual

/-- Every expression of a statement has a value where nothing is reported. -/
theorem valued_of_unreported : ∀ (node : ASTNode) (env : Env) (c : Counters), p < c.vreg →
    EnvFits p c.stack env → node.CompleteStmt → Unreported (lowerStmt env node c).history →
    Valued env node c.stack
  | .varDecl _ _ _ _, _, _, hp, henv, hcomplete, h => valued_varDecl hp henv hcomplete h
  | .assignment _ _ _, _, _, hp, henv, hcomplete, h => valued_assignment hp henv hcomplete h
  | .returnStmt _ _, _, _, hp, henv, hcomplete, h => valued_return hp henv hcomplete h
  | .block _ statements, env, c, hp, henv, hcomplete, h =>
      valuedAll_of_unreported statements env c hp henv hcomplete h
  | .ifStmt _ _ thenBranch elseBranch, _, _, hp, henv, hcomplete, h =>
      valued_if hp henv (valued_of_unreported thenBranch) (valued_of_unreported elseBranch)
        hcomplete h
  | .whileStmt _ _ body, _, _, hp, henv, hcomplete, h =>
      valued_while hp henv (valued_of_unreported body) hcomplete h
  | .number info value, _, c, hp, henv, hcomplete, h =>
      hasValue_of_unreported henv (.number info value) c.vreg hp hcomplete h
  | .identifier info name, _, c, hp, henv, hcomplete, h =>
      hasValue_of_unreported henv (.identifier info name) c.vreg hp hcomplete h
  | .binary op info left right, _, c, hp, henv, hcomplete, h =>
      hasValue_of_unreported henv (.binary op info left right) c.vreg hp hcomplete h
  | .unary op info operand, _, c, hp, henv, hcomplete, h =>
      hasValue_of_unreported henv (.unary op info operand) c.vreg hp hcomplete h
  | .call info functionName args, _, c, hp, henv, hcomplete, h =>
      hasValue_of_unreported henv (.call info functionName args) c.vreg hp hcomplete h

/-- Every expression of some statements has a value where nothing is reported. -/
theorem valuedAll_of_unreported : ∀ (nodes : List ASTNode) (env : Env) (c : Counters),
    p < c.vreg → EnvFits p c.stack env → CompleteStmts nodes →
    Unreported (lowerStmts env nodes c).history → ValuedAll env nodes c.stack
  | [], _, _, _, _, _, _ => trivial
  | stmt :: rest, env, c, hp, henv, hcomplete, h => by
      simp only [lowerStmts] at h
      have hstmt := lowerStmt_sound (p := p) stmt env c hp henv h.left.hasVregs
      obtain ⟨henv', hstack⟩ := lowerStmt_scopes stmt env c hp henv h.left.hasVregs
      have hrest := valuedAll_of_unreported rest _ _ (Nat.lt_of_lt_of_le hp hstmt.piece.le)
        hstmt.env hcomplete.2 h.right
      rw [henv', hstack] at hrest
      exact ⟨valued_of_unreported stmt env c hp henv hcomplete.1 h.left, hrest⟩

end

end

end TinyCompile.Ir
