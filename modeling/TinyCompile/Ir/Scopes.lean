import TinyCompile.Ir.CodeFacts
import TinyCompile.Ir.Meaning

set_option autoImplicit false

/-!
# Ir: what the lowering gives up, and the names it leaves behind

Both depend on the tree and the names in scope only, as long as registers are left.
-/

namespace TinyCompile.Ir

open TinyCompile.Source

section

variable {p stack : Nat} {env : Env}

theorem finish_reg_ne {code : List IRInstruction} {next : Nat} {history : List Event}
    {inst : Nat → IRInstruction} (hn : p < next)
    (hok : ¬ OutOfVregs (finish code next history inst).history) :
    (finish code next history inst).reg ≠ 0 := by
  unfold finish at hok ⊢
  split
  · rename_i hfull
    rw [if_pos hfull] at hok
    exact absurd (by simp [OutOfVregs]) hok
  · exact Nat.ne_of_gt (Nat.lt_of_le_of_lt (Nat.zero_le p) hn)

mutual

/-- An expression has a register exactly where the generator does not give it up. -/
theorem lowerExpr_reg (henv : EnvFits p stack env) : ∀ (node : ASTNode) (n : Nat), p < n →
    ¬ OutOfVregs (lowerExpr env node n).history →
    ((lowerExpr env node n).reg ≠ 0 ↔ hasValue env node = true)
  | .number info value, n, hn, hok => by
      simp only [lowerExpr] at hok ⊢
      exact iff_of_true (finish_reg_ne hn hok) rfl
  | .identifier info name, n, hn, hok => by
      simp only [lowerExpr, hasValue] at hok ⊢
      cases hname : env.lookup name with
      | none => exact iff_of_false (fun h => h rfl) nofun
      | some e =>
        have he := henv name e hname
        simp only [hname, Option.isSome_some] at hok ⊢
        refine iff_of_true ?_ trivial
        split
        · rename_i hstack
          rw [if_pos hstack] at hok
          exact finish_reg_ne hn hok
        · rename_i hstack
          rw [if_neg hstack] at he
          exact Nat.ne_of_gt he.1
  | .unary op info operand, n, hn, hok => by
      have ih := lowerExpr_reg henv operand n hn
      simp only [lowerExpr, hasValue] at hok ⊢
      split
      · rename_i hzero
        rw [if_pos hzero] at hok
        exact ih hok
      · rename_i hreg
        rw [if_neg hreg] at hok
        have hok' := not_outOfVregs_finish hok
        have hle := (lowerExpr_sound henv operand n hok').facts.le
        exact iff_of_true (finish_reg_ne (Nat.lt_of_lt_of_le hn hle) hok) ((ih hok').mp hreg)
  | .binary op info left right, n, hn, hok => by
      have ihl := lowerExpr_reg henv left n hn
      have ihr := lowerExpr_reg henv right
      simp only [lowerExpr, hasValue, Bool.and_eq_true] at hok ⊢
      split
      · rename_i hzero
        rw [if_pos hzero] at hok
        exact iff_of_false (fun h => h hzero) fun h => (ihl hok).mpr h.1 hzero
      · rename_i hlreg
        rw [if_neg hlreg] at hok
        have hok₁ : ¬ OutOfVregs (lowerExpr env left n).history := by
          split at hok
          · exact not_outOfVregs_left hok
          · exact not_outOfVregs_left (not_outOfVregs_finish hok)
        have hle := (lowerExpr_sound henv left n hok₁).facts.le
        have hn' := Nat.lt_of_lt_of_le hn hle
        have hok₂ : ¬ OutOfVregs (lowerExpr env right (lowerExpr env left n).next).history := by
          split at hok
          · exact not_outOfVregs_right hok
          · exact not_outOfVregs_right (not_outOfVregs_finish hok)
        split
        · rename_i hzero
          exact iff_of_false (fun h => h rfl) fun h => (ihr _ hn' hok₂).mpr h.2 hzero
        · rename_i hrreg
          rw [if_neg hrreg] at hok
          have hle' := (lowerExpr_sound henv right _ hok₂).facts.le
          exact iff_of_true (finish_reg_ne (Nat.lt_of_lt_of_le hn' hle') hok)
            ⟨(ihl hok₁).mp hlreg, (ihr _ hn' hok₂).mp hrreg⟩
  | .call info functionName args, n, hn, hok => by
      have ih := lowerArgs_regs henv args n hn
      simp only [lowerExpr, hasValue] at hok ⊢
      cases hregs : (lowerArgs env args n).regs with
      | none =>
        simp only [hregs] at hok ⊢
        rw [← ih hok, hregs]
        exact iff_of_false (fun h => h rfl) nofun
      | some regs =>
        simp only [hregs] at hok ⊢
        have hok' := not_outOfVregs_finish hok
        have hle := (lowerArgs_sound henv args n hok').facts.le
        rw [← ih hok', hregs]
        exact iff_of_true (finish_reg_ne (Nat.lt_of_lt_of_le hn hle) hok) rfl
  | .null, _, _, _ => iff_of_false (fun h => h rfl) nofun
  | .varDecl _ _ _ _, _, _, _ => iff_of_false (fun h => h rfl) nofun
  | .assignment _ _ _, _, _, _ => iff_of_false (fun h => h rfl) nofun
  | .returnStmt _ _, _, _, _ => iff_of_false (fun h => h rfl) nofun
  | .ifStmt _ _ _ _, _, _, _ => iff_of_false (fun h => h rfl) nofun
  | .whileStmt _ _ _, _, _, _ => iff_of_false (fun h => h rfl) nofun
  | .block _ _, _, _, _ => iff_of_false (fun h => h rfl) nofun
  | .function _ _ _ _ _ _, _, _, _ => iff_of_false (fun h => h rfl) nofun
  | .translationUnit _ _, _, _, _ => iff_of_false (fun h => h rfl) nofun

theorem lowerArgs_regs (henv : EnvFits p stack env) : ∀ (args : List ASTNode) (n : Nat), p < n →
    ¬ OutOfVregs (lowerArgs env args n).history →
    ((lowerArgs env args n).regs.isSome = true ↔ haveValues env args = true)
  | [], _, _, _ => iff_of_true rfl rfl
  | arg :: rest, n, hn, hok => by
      have ih := lowerExpr_reg henv arg n hn
      have ihs := lowerArgs_regs henv rest
      simp only [lowerArgs, haveValues, Bool.and_eq_true] at hok ⊢
      split
      · rename_i hzero
        rw [if_pos hzero] at hok
        exact iff_of_false nofun fun h => (ih hok).mpr h.1 hzero
      · rename_i hreg
        rw [if_neg hreg] at hok
        have hok₁ := not_outOfVregs_left hok
        have hle := (lowerExpr_sound henv arg n hok₁).facts.le
        rw [Option.isSome_map, ihs _ (Nat.lt_of_lt_of_le hn hle) (not_outOfVregs_right hok)]
        exact ⟨fun h => ⟨(ih hok₁).mp hreg, h⟩, fun h => h.2⟩

end

end

/-! ## The names behind a statement -/

/-- The names in scope behind a statement, and the slots taken, are those `scopeStmt` tells. -/
def Scopes (o : StmtOut) (t : Env × Nat) : Prop := o.env = t.1 ∧ o.counters.stack = t.2

section

variable {p : Nat} {env : Env}

theorem scopes_if {info : NodeInfo} {condition thenBranch elseBranch : ASTNode} {c : Counters}
    (hp : p < c.vreg) (henv : EnvFits p c.stack env)
    (iht : ∀ env c, p < c.vreg → EnvFits p c.stack env →
      ¬ OutOfVregs (lowerStmt env thenBranch c).history →
      Scopes (lowerStmt env thenBranch c) (scopeStmt env thenBranch c.stack))
    (ihe : ∀ env c, p < c.vreg → EnvFits p c.stack env →
      ¬ OutOfVregs (lowerStmt env elseBranch c).history →
      Scopes (lowerStmt env elseBranch c) (scopeStmt env elseBranch c.stack))
    (hok : ¬ OutOfVregs
      (lowerStmt env (.ifStmt info condition thenBranch elseBranch) c).history) :
    Scopes (lowerStmt env (.ifStmt info condition thenBranch elseBranch) c)
      (scopeStmt env (.ifStmt info condition thenBranch elseBranch) c.stack) := by
  simp only [lowerStmt, scopeStmt] at hok ⊢
  have hvalue := lowerExpr_reg henv condition c.vreg hp
  have hfacts := lowerExpr_sound henv condition c.vreg
  set o := lowerExpr env condition c.vreg
  have hcond : ¬ OutOfVregs o.history := by
    intro hout
    apply hok
    split <;> split <;> simp_all [OutOfVregs]
  have hle := (hfacts hcond).facts.le
  by_cases hreg : o.reg = 0
  · have hfalse : ¬ hasValue env condition = true := fun h => (hvalue hcond).mpr h hreg
    rw [if_neg hfalse]
    simp only [hreg, if_true]
    split <;> exact ⟨rfl, rfl⟩
  · rw [if_pos ((hvalue hcond).mp hreg)]
    cases hnull : elseBranch.isNull with
    | true =>
      simp only [hnull, hreg, if_true, if_false] at hok ⊢
      exact iht env ⟨o.next, c.stack, c.label + 1⟩ (Nat.lt_of_lt_of_le hp hle) henv
        (not_outOfVregs_right hok)
    | false =>
      simp only [hnull, hreg, Bool.false_eq_true, if_false] at hok ⊢
      have hok₁ := not_outOfVregs_right (not_outOfVregs_left hok)
      have hp' : p < (⟨o.next, c.stack, c.label + 2⟩ : Counters).vreg :=
        Nat.lt_of_lt_of_le hp hle
      obtain ⟨ht, ht'⟩ := iht env ⟨o.next, c.stack, c.label + 2⟩ hp' henv hok₁
      have hsound := lowerStmt_sound thenBranch env ⟨o.next, c.stack, c.label + 2⟩ hp' henv hok₁
      have he := ihe _ _ (Nat.lt_of_lt_of_le hp' hsound.piece.le) hsound.env
        (not_outOfVregs_right hok)
      rw [← ht, ← ht']
      exact he

theorem scopes_while {info : NodeInfo} {condition body : ASTNode} {c : Counters}
    (hp : p < c.vreg) (henv : EnvFits p c.stack env)
    (ih : ∀ env c, p < c.vreg → EnvFits p c.stack env →
      ¬ OutOfVregs (lowerStmt env body c).history →
      Scopes (lowerStmt env body c) (scopeStmt env body c.stack))
    (hok : ¬ OutOfVregs (lowerStmt env (.whileStmt info condition body) c).history) :
    Scopes (lowerStmt env (.whileStmt info condition body) c)
      (scopeStmt env (.whileStmt info condition body) c.stack) := by
  simp only [lowerStmt, scopeStmt] at hok ⊢
  have hvalue := lowerExpr_reg henv condition c.vreg hp
  have hfacts := lowerExpr_sound henv condition c.vreg
  set o := lowerExpr env condition c.vreg
  by_cases hreg : o.reg = 0
  · rw [if_pos hreg] at hok ⊢
    have hfalse : ¬ hasValue env condition = true := fun h => (hvalue hok).mpr h hreg
    rw [if_neg hfalse]
    exact ⟨rfl, rfl⟩
  · rw [if_neg hreg] at hok ⊢
    have hcond := not_outOfVregs_left hok
    rw [if_pos ((hvalue hcond).mp hreg)]
    exact ih env ⟨o.next, c.stack, c.label + 2⟩
      (Nat.lt_of_lt_of_le hp (hfacts hcond).facts.le) henv (not_outOfVregs_right hok)

mutual

theorem lowerStmt_scopes : ∀ (node : ASTNode) (env : Env) (c : Counters), p < c.vreg →
    EnvFits p c.stack env → ¬ OutOfVregs (lowerStmt env node c).history →
    Scopes (lowerStmt env node c) (scopeStmt env node c.stack)
  | .ifStmt _ condition thenBranch elseBranch, _, _, hp, henv, hok =>
      scopes_if hp henv (lowerStmt_scopes thenBranch) (lowerStmt_scopes elseBranch) hok
  | .whileStmt _ condition body, _, _, hp, henv, hok =>
      scopes_while hp henv (lowerStmt_scopes body) hok
  | .block _ statements, env, c, hp, henv, hok =>
      ⟨rfl, (lowerStmts_scopes statements env c hp henv hok).2⟩
  | .null, _, _, _, _, _ => ⟨rfl, rfl⟩
  | .varDecl _ _ _ _, _, _, _, _, _ => ⟨rfl, rfl⟩
  | .assignment _ varName _, env, _, _, _, _ => by
      unfold lowerStmt
      cases env.lookup varName <;> exact ⟨rfl, rfl⟩
  | .returnStmt _ _, _, _, _, _, _ => ⟨rfl, rfl⟩
  | .number _ _, _, _, _, _, _ => ⟨rfl, rfl⟩
  | .identifier _ _, _, _, _, _, _ => ⟨rfl, rfl⟩
  | .binary _ _ _ _, _, _, _, _, _ => ⟨rfl, rfl⟩
  | .unary _ _ _, _, _, _, _, _ => ⟨rfl, rfl⟩
  | .call _ _ _, _, _, _, _, _ => ⟨rfl, rfl⟩
  | .function _ _ _ _ _ _, _, _, _, _, _ => ⟨rfl, rfl⟩
  | .translationUnit _ _, _, _, _, _, _ => ⟨rfl, rfl⟩

theorem lowerStmts_scopes : ∀ (nodes : List ASTNode) (env : Env) (c : Counters), p < c.vreg →
    EnvFits p c.stack env → ¬ OutOfVregs (lowerStmts env nodes c).history →
    Scopes (lowerStmts env nodes c) (scopeStmts env nodes c.stack)
  | [], _, _, _, _, _ => ⟨rfl, rfl⟩
  | node :: rest, env, c, hp, henv, hok => by
      simp only [lowerStmts, scopeStmts] at hok ⊢
      have hok₁ := not_outOfVregs_left hok
      obtain ⟨henv', hstack⟩ := lowerStmt_scopes node env c hp henv hok₁
      have hsound := lowerStmt_sound (p := p) node env c hp henv hok₁
      have hrest := lowerStmts_scopes rest _ _ (Nat.lt_of_lt_of_le hp hsound.piece.le) hsound.env
        (not_outOfVregs_right hok)
      rw [← henv', ← hstack]
      exact hrest

end

end

end TinyCompile.Ir
