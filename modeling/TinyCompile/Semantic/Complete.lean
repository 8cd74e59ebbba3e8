import TinyCompile.Semantic.Typing

set_option autoImplicit false

/-!
# Semantic: no part of a tree is lost

A tree of which no part is missing has none missing behind the analyzer.
-/

namespace TinyCompile.Semantic

open TinyCompile.Source

section

variable {Γ : Context}

mutual

theorem TypesExpr.complete {vars : Vars} : ∀ {node node' : ASTNode} {uses : Uses},
    TypesExpr Γ vars node node' uses → node.CompleteExpr → node'.CompleteExpr
  | _, _, _, .null, h => h
  | _, _, _, .number _ _, _ => trivial
  | _, _, _, .identifier _, _ => trivial
  | _, _, _, .call _ _ hargs, h => ⟨Nat.le_trans (Nat.le_of_eq hargs.length) h.1,
      hargs.complete h.2⟩
  | _, _, _, .arithmetic _ hleft hright _ _, h => ⟨hleft.complete h.1, hright.complete h.2⟩
  | _, _, _, .comparison _ hleft hright, h => ⟨hleft.complete h.1, hright.complete h.2⟩
  | _, _, _, .bitwise _ hleft hright _, h => ⟨hleft.complete h.1, hright.complete h.2⟩
  | _, _, _, .unseen _ _ _ _, h => h
  | _, _, _, .not hoperand, h => (hoperand.complete h :)
  | _, _, _, .sign _ hoperand _, h => (hoperand.complete h :)
  | _, _, _, .misplaced _, h => h

theorem TypesArgs.complete {vars : Vars} : ∀ {params : List Parameter} {args args' : List ASTNode}
    {uses : Uses}, TypesArgs Γ vars params args args' uses → CompleteArgs args →
    CompleteArgs args'
  | _, _, _, _, .nil, h => h
  | _, _, _, _, .cons harg _ _ hargs, h => ⟨harg.complete h.1, hargs.complete h.2⟩

theorem TypesArgs.length {vars : Vars} : ∀ {params : List Parameter} {args args' : List ASTNode}
    {uses : Uses}, TypesArgs Γ vars params args args' uses → args'.length = args.length
  | _, _, _, _, .nil => rfl
  | _, _, _, _, .cons _ _ _ hargs => congrArg Nat.succ hargs.length

end

theorem TypesExpr.hasStatementCase {vars : Vars} {node node' : ASTNode} {uses : Uses}
    (h : TypesExpr Γ vars node node' uses) :
    hasStatementCase node' = hasStatementCase node := by
  cases h <;> rfl

theorem completeStmt_iff {node : ASTNode} (h : hasStatementCase node = false) :
    node.CompleteStmt ↔ node.CompleteExpr := by
  cases node <;> first | exact Iff.rfl | cases h

mutual

theorem TypesStmt.complete {ret : DataType} : ∀ {vars vars' : Vars} {node node' : ASTNode}
    {uses : Uses}, TypesStmt Γ ret vars node node' vars' uses → node.CompleteStmt →
    node'.CompleteStmt
  | _, _, _, _, _, .null _, h => h
  | _, _, _, _, _, .varDecl _ _ _ _, h => h
  | _, _, _, _, _, .varInit hnull hinit, h =>
      .inr (hinit.1.complete (h.resolve_left (by rw [hnull]; exact nofun)))
  | _, _, _, _, _, .assignment _ hvalue, h => (hvalue.1.complete h :)
  | _, _, _, _, _, .returnVoid _ _, h => h
  | _, _, _, _, _, .returnValue hnull _ hvalue, h =>
      .inr (hvalue.1.complete (h.resolve_left (by rw [hnull]; exact nofun)))
  | _, _, _, _, _, .ifThen hcondition hthen, h =>
      ⟨hcondition.complete h.1, hthen.complete h.2.1, .inl rfl⟩
  | _, _, _, _, _, .ifElse hcondition hthen hnull helse, h =>
      ⟨hcondition.complete h.1, hthen.complete h.2.1,
        .inr (helse.complete (h.2.2.resolve_left (by rw [hnull]; exact nofun)))⟩
  | _, _, _, _, _, .whileLoop hcondition hbody, h =>
      ⟨hcondition.complete h.1, hbody.complete h.2⟩
  | _, _, _, _, _, .block hstatements, h => (hstatements.complete h :)
  | _, _, _, _, _, .expr hnode hexpr, h =>
      (completeStmt_iff (hexpr.hasStatementCase.trans hnode)).mpr
        (hexpr.complete ((completeStmt_iff hnode).mp h))

theorem TypesStmts.complete {ret : DataType} : ∀ {vars vars' : Vars} {nodes nodes' : List ASTNode}
    {uses : Uses}, TypesStmts Γ ret vars nodes nodes' vars' uses → CompleteStmts nodes →
    CompleteStmts nodes'
  | _, _, _, _, _, .nil _, h => h
  | _, _, _, _, _, .cons hstmt hrest, h => ⟨hstmt.complete h.1, hrest.complete h.2⟩

end

theorem TypesDeclaration.complete {node node' : ASTNode} {uses : Uses}
    (h : TypesDeclaration Γ node node' uses) (hcomplete : node.CompleteFunction) :
    node'.CompleteFunction := by
  cases h with
  | prototype => exact hcomplete
  | definition hstatements => exact ⟨rfl, hstatements.complete hcomplete.2⟩
  | bodyless => exact hcomplete

end

end TinyCompile.Semantic
