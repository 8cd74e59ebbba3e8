import TinyCompile.Ir.Valued

set_option autoImplicit false

/-!
# Ir: how many slots a function takes

Every declared variable is stored to, so a function without reported errors has at most as
many slots as instructions, and the limit on instructions is one on slots too.
-/

namespace TinyCompile.Ir

open TinyCompile.Source

section

variable {p : Nat}

/-- A statement takes at most as many slots as it has instructions. -/
def Framed (c : Counters) (o : StmtOut) : Prop := o.counters.stack ≤ c.stack + o.code.length

theorem framed_varDecl {env : Env} {info : NodeInfo} {varName : StringView} {varType : DataType}
    {initializer : ASTNode} {c : Counters} (hp : p < c.vreg) (henv : EnvFits p c.stack env)
    (hcomplete : (ASTNode.varDecl info varName varType initializer).CompleteStmt)
    (h : Unreported (lowerStmt env (.varDecl info varName varType initializer) c).history) :
    Framed c (lowerStmt env (.varDecl info varName varType initializer) c) := by
  have hfits : EnvFits p (c.stack + 1)
      ((varName, ⟨.var info.addr, varType, ⟨c.stack, true⟩⟩) :: env) :=
    (henv.mono (Nat.le_succ _)).cons (by simp)
  have hvalued := valued_varDecl hp henv hcomplete h
  simp only [lowerStmt, lowerInit] at h
  have hreg : (lowerInit ((varName, ⟨.var info.addr, varType, ⟨c.stack, true⟩⟩) :: env) varType
      initializer c.vreg).reg ≠ 0 := by
    unfold lowerInit
    have hok := fun hm => h.hasVregs (List.mem_cons_of_mem _ hm)
    split
    · rename_i hnull
      rw [if_pos hnull] at hok
      exact finish_reg_ne hp hok
    · rename_i hnull
      rw [if_neg hnull] at hok
      exact (lowerExpr_reg hfits initializer c.vreg hp hok).mpr (hvalued.resolve_left hnull)
  unfold Framed
  simp only [lowerStmt, if_neg hreg, List.length_append, List.length_singleton]
  omega

theorem framed_if {env : Env} {info : NodeInfo} {condition thenBranch elseBranch : ASTNode}
    {c : Counters} (hp : p < c.vreg) (henv : EnvFits p c.stack env)
    (iht : ∀ env c, p < c.vreg → EnvFits p c.stack env → thenBranch.CompleteStmt →
      Unreported (lowerStmt env thenBranch c).history → Framed c (lowerStmt env thenBranch c))
    (ihe : ∀ env c, p < c.vreg → EnvFits p c.stack env → elseBranch.CompleteStmt →
      Unreported (lowerStmt env elseBranch c).history → Framed c (lowerStmt env elseBranch c))
    (hcomplete : (ASTNode.ifStmt info condition thenBranch elseBranch).CompleteStmt)
    (h : Unreported (lowerStmt env (.ifStmt info condition thenBranch elseBranch) c).history) :
    Framed c (lowerStmt env (.ifStmt info condition thenBranch elseBranch) c) := by
  obtain ⟨-, hthen, helse⟩ := hcomplete
  have hsound := lowerExpr_sound henv condition c.vreg
  unfold Framed at iht ihe ⊢
  simp only [lowerStmt] at h ⊢
  set o := lowerExpr env condition c.vreg
  have ho : Unreported o.history := by
    intro reason hmem
    refine h reason ?_
    split <;> split <;> simp [hmem]
  have hle := Nat.lt_of_lt_of_le hp (hsound ho.hasVregs).facts.le
  by_cases hreg : o.reg = 0
  · simp only [if_pos hreg]
    split <;> exact Nat.le_add_right _ _
  · simp only [if_neg hreg] at h ⊢
    by_cases hnull : elseBranch.isNull = true
    · simp only [if_pos hnull] at h ⊢
      have ht := iht env ⟨o.next, c.stack, c.label + 1⟩ hle henv hthen h.right
      simp only [List.length_append] at ht ⊢
      omega
    · simp only [if_neg hnull] at h ⊢
      have hthen' : Unreported (lowerStmt env thenBranch ⟨o.next, c.stack, c.label + 2⟩).history :=
        h.left.right
      have ht := iht env ⟨o.next, c.stack, c.label + 2⟩ hle henv hthen hthen'
      have hstmt := lowerStmt_sound (p := p) thenBranch env ⟨o.next, c.stack, c.label + 2⟩ hle henv
        hthen'.hasVregs
      have he := ihe _ _ (Nat.lt_of_lt_of_le hle hstmt.piece.le) hstmt.env
        (helse.resolve_left hnull) h.right
      simp only [List.length_append] at ht he ⊢
      omega

theorem framed_while {env : Env} {info : NodeInfo} {condition body : ASTNode} {c : Counters}
    (hp : p < c.vreg) (henv : EnvFits p c.stack env)
    (ih : ∀ env c, p < c.vreg → EnvFits p c.stack env → body.CompleteStmt →
      Unreported (lowerStmt env body c).history → Framed c (lowerStmt env body c))
    (hcomplete : (ASTNode.whileStmt info condition body).CompleteStmt)
    (h : Unreported (lowerStmt env (.whileStmt info condition body) c).history) :
    Framed c (lowerStmt env (.whileStmt info condition body) c) := by
  have hsound := lowerExpr_sound henv condition c.vreg
  unfold Framed at ih ⊢
  simp only [lowerStmt] at h ⊢
  set o := lowerExpr env condition c.vreg
  by_cases hreg : o.reg = 0
  · simp only [if_pos hreg]
    exact Nat.le_add_right _ _
  · simp only [if_neg hreg] at h ⊢
    have hle := (hsound h.left.hasVregs).facts.le
    have hb := ih env ⟨o.next, c.stack, c.label + 2⟩ (Nat.lt_of_lt_of_le hp hle) henv hcomplete.2
      h.right
    simp only [List.length_append] at hb ⊢
    omega

mutual

theorem lowerStmt_framed : ∀ (node : ASTNode) (env : Env) (c : Counters), p < c.vreg →
    EnvFits p c.stack env → node.CompleteStmt → Unreported (lowerStmt env node c).history →
    Framed c (lowerStmt env node c)
  | .varDecl _ _ _ _, _, _, hp, henv, hcomplete, h => framed_varDecl hp henv hcomplete h
  | .ifStmt _ _ thenBranch elseBranch, _, _, hp, henv, hcomplete, h =>
      framed_if hp henv (lowerStmt_framed thenBranch) (lowerStmt_framed elseBranch) hcomplete h
  | .whileStmt _ _ body, _, _, hp, henv, hcomplete, h =>
      framed_while hp henv (lowerStmt_framed body) hcomplete h
  | .block _ statements, env, c, hp, henv, hcomplete, h =>
      lowerStmts_framed statements env c hp henv hcomplete h
  | .assignment _ varName _, env, _, _, _, _, _ => by
      unfold Framed lowerStmt
      cases env.lookup varName <;> exact Nat.le_add_right _ _
  | .returnStmt _ _, _, _, _, _, _, _ => Nat.le_add_right _ _
  | .number _ _, _, _, _, _, _, _ => Nat.le_add_right _ _
  | .identifier _ _, _, _, _, _, _, _ => Nat.le_add_right _ _
  | .binary _ _ _ _, _, _, _, _, _, _ => Nat.le_add_right _ _
  | .unary _ _ _, _, _, _, _, _, _ => Nat.le_add_right _ _
  | .call _ _ _, _, _, _, _, _, _ => Nat.le_add_right _ _

theorem lowerStmts_framed : ∀ (nodes : List ASTNode) (env : Env) (c : Counters), p < c.vreg →
    EnvFits p c.stack env → CompleteStmts nodes → Unreported (lowerStmts env nodes c).history →
    Framed c (lowerStmts env nodes c)
  | [], _, _, _, _, _, _ => Nat.le_add_right _ _
  | stmt :: rest, env, c, hp, henv, hcomplete, h => by
      simp only [lowerStmts] at h
      have hstmt := lowerStmt_sound (p := p) stmt env c hp henv h.left.hasVregs
      have hfirst := lowerStmt_framed stmt env c hp henv hcomplete.1 h.left
      have hrest := lowerStmts_framed rest _ _ (Nat.lt_of_lt_of_le hp hstmt.piece.le) hstmt.env
        hcomplete.2 h.right
      unfold Framed at hfirst hrest ⊢
      simp only [lowerStmts, List.length_append] at hfirst hrest ⊢
      omega

end

end

/-- The slots of a function that is returned without an error fit into a frame. -/
theorem irGen_stackCount {fresh : IRFunction} {func : ASTNode} {errors : ErrorContext}
    {filename : Option String} {s : GenState} (hcomplete : func.CompleteFunction)
    (h : irGen fresh func errors filename = .ok (true, s)) (herrors : s.f.errors = errors) :
    s.f.stackCount ≤ fresh.stackCount + maxIrInstructionsPerFunction := by
  obtain ⟨hf, hcode, hcounters, hquiet⟩ := irGen_wellFormed h herrors
  have hstack : s.f.stackCount = (lowerRoot fresh.stackCount func).counters.stack :=
    congrArg Counters.stack hcounters
  have hlimit := hf.limit
  rw [hcode] at hlimit
  cases func with
  | function info name returnType params body isPrototype =>
    cases body with
    | block bodyInfo statements =>
      have henv : EnvFits params.length fresh.stackCount (paramEnv [] params 0) :=
        envFits_params params 0 (fun name e he => by simp at he) (by omega)
      have hframed := lowerStmts_framed (p := params.length) statements (paramEnv [] params 0)
        ⟨1 + params.length, fresh.stackCount, 0⟩ (by simp) henv hcomplete.2 hquiet
      unfold Framed at hframed
      simp only [lowerRoot] at hstack hlimit hframed
      omega
    | _ => exact absurd hcomplete id
  | _ => exact absurd hcomplete id

end TinyCompile.Ir
