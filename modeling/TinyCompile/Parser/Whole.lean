import TinyCompile.Parser.Grammar
import TinyCompile.Source.Program

set_option autoImplicit false

/-!
# Parser: trees of the grammar

A tree that represents what the grammar derives misses no part, and its calls have no more
arguments than a call may have.
-/

namespace TinyCompile.Parser

open TinyCompile.Source

/-! ## Expressions -/

section

variable {node : ASTNode} {e e' : Expr} {es : List Expr} {nodes : List ASTNode}

theorem binary_of_expr? {op : BinaryOp} (h : node.expr? = some (.binary op e e')) :
    ∃ info left right, node = .binary op info left right ∧ left.expr? = some e ∧
      right.expr? = some e' := by
  cases node with
  | binary op' info left right =>
    obtain ⟨l, hl, hrest⟩ := Option.bind_eq_some_iff.mp h
    obtain ⟨r, hr, heq⟩ := Option.bind_eq_some_iff.mp hrest
    cases heq
    exact ⟨info, left, right, rfl, hl, hr⟩
  | _ => simp [ASTNode.expr?, Option.bind_eq_some_iff] at h

theorem unary_of_expr? {op : UnaryOp} (h : node.expr? = some (.unary op e)) :
    ∃ info operand, node = .unary op info operand ∧ operand.expr? = some e := by
  cases node with
  | unary op' info operand =>
    obtain ⟨e', he, heq⟩ := Option.bind_eq_some_iff.mp h
    cases heq
    exact ⟨info, operand, rfl, he⟩
  | _ => simp [ASTNode.expr?, Option.bind_eq_some_iff] at h

theorem assignment_of_expr? {name : StringView} (h : node.expr? = some (.assignment name e)) :
    ∃ info value, node = .assignment info name value ∧ value.expr? = some e := by
  cases node with
  | assignment info varName value =>
    obtain ⟨e', he, heq⟩ := Option.bind_eq_some_iff.mp h
    cases heq
    exact ⟨info, value, rfl, he⟩
  | _ => simp [ASTNode.expr?, Option.bind_eq_some_iff] at h

theorem call_of_expr? {name : StringView} (h : node.expr? = some (.call name es)) :
    ∃ info args, node = .call info name args ∧ exprs? args = some es := by
  cases node with
  | call info functionName args =>
    obtain ⟨es', hes, heq⟩ := Option.bind_eq_some_iff.mp h
    cases heq
    exact ⟨info, args, rfl, hes⟩
  | _ => simp [ASTNode.expr?, Option.bind_eq_some_iff] at h

/-- Trees of expressions that only have complete trees. -/
theorem completeArgs_of_exprs? (h : exprs? nodes = some es)
    (hes : ∀ e ∈ es, ∀ node : ASTNode, node.expr? = some e → node.CompleteExpr) :
    nodes.length = es.length ∧ CompleteArgs nodes := by
  induction nodes generalizing es with
  | nil =>
    cases h
    exact ⟨rfl, trivial⟩
  | cons node nodes ih =>
    obtain ⟨e, he, hrest⟩ := Option.bind_eq_some_iff.mp h
    obtain ⟨es', hes', hcons⟩ := Option.bind_eq_some_iff.mp hrest
    cases hcons
    obtain ⟨hlength, hcomplete⟩ := ih hes' fun e' he' => hes e' (List.mem_cons_of_mem _ he')
    exact ⟨congrArg (· + 1) hlength, hes e (List.mem_cons_self ..) node he, hcomplete⟩

end

/-- Trees of the expressions of the grammar are complete. -/
theorem DerivesExpr.complete {d p : Nat} {ts : List Token} {e : Expr}
    (h : DerivesExpr d p ts e) {node : ASTNode} (hnode : node.expr? = some e) :
    node.CompleteExpr := by
  induction h generalizing node with
  | number ht =>
    cases node <;> simp_all [ASTNode.expr?, ASTNode.CompleteExpr, Option.bind_eq_some_iff]
  | identifier ht =>
    cases node <;> simp_all [ASTNode.expr?, ASTNode.CompleteExpr, Option.bind_eq_some_iff]
  | grouping hl hr h ih => exact ih hnode
  | unary hop h ih =>
    obtain ⟨info, operand, rfl, hoperand⟩ := unary_of_expr? hnode
    exact (ih hoperand :)
  | binary hop hp hleft hright ihleft ihright =>
    obtain ⟨info, left, right, rfl, hl, hr⟩ := binary_of_expr? hnode
    exact ⟨ihleft hl, ihright hr⟩
  | assignment ht hp hname hvalue ihname ihvalue =>
    obtain ⟨info, value, rfl, hv⟩ := assignment_of_expr? hnode
    exact (ihvalue hv :)
  | @call d p q l r fs ts name args hl hr hp hname hargs hcount hseparated ihname ihargs =>
    obtain ⟨info, nodes, rfl, hnodes⟩ := call_of_expr? hnode
    have hall : ∀ e ∈ args.map (·.2), ∀ node : ASTNode, node.expr? = some e →
        node.CompleteExpr := by
      intro e he node hnode
      obtain ⟨arg, harg, rfl⟩ := List.mem_map.mp he
      exact ihargs arg harg hnode
    obtain ⟨hlength, hcomplete⟩ := completeArgs_of_exprs? hnodes hall
    rw [List.length_map] at hlength
    exact ⟨hlength ▸ hcount, hcomplete⟩

/-! ## Statements -/

section

variable {node : ASTNode} {c e : Expr} {st st' : Stmt} {sts : List Stmt} {o : Option Expr}

/-- What an `if` represents. -/
theorem stmt?_ifStmt {info : NodeInfo} {condition thenBranch elseBranch : ASTNode}
    (h : (ASTNode.ifStmt info condition thenBranch elseBranch).stmt? = some st) :
    ∃ c t, condition.expr? = some c ∧ thenBranch.stmt? = some t ∧
      (elseBranch.isNull = true ∧ st = .ifThen c t ∨
        ∃ e, elseBranch.stmt? = some e ∧ st = .ifElse c t e) := by
  unfold ASTNode.stmt? at h
  obtain ⟨c, hc, hrest⟩ := Option.bind_eq_some_iff.mp h
  obtain ⟨t, ht, hend⟩ := Option.bind_eq_some_iff.mp hrest
  refine ⟨c, t, hc, ht, ?_⟩
  split at hend
  · cases hend
    exact .inl ⟨‹_›, rfl⟩
  · obtain ⟨e, he, heq⟩ := Option.bind_eq_some_iff.mp hend
    cases heq
    exact .inr ⟨e, he, rfl⟩

/-- The tree of an expression as a statement. -/
theorem expr_of_stmt? (h : node.stmt? = some (.expr e)) : node.expr? = some e := by
  cases node with
  | ifStmt info condition thenBranch elseBranch =>
    obtain ⟨c, t, -, -, ⟨-, heq⟩ | ⟨e, -, heq⟩⟩ := stmt?_ifStmt h <;> cases heq
  | _ => simp_all [ASTNode.stmt?, ASTNode.expr?, Option.bind_eq_some_iff]

theorem varDecl_of_stmt? {name : StringView} {type : DataType}
    (h : node.stmt? = some (.varDecl name type o)) :
    ∃ info initializer, node = .varDecl info name type initializer ∧
      initializer.optionalExpr? = some o := by
  cases node with
  | varDecl info name' type' initializer =>
    obtain ⟨o', ho, heq⟩ := Option.map_eq_some_iff.mp h
    cases heq
    exact ⟨info, initializer, rfl, ho⟩
  | ifStmt info condition thenBranch elseBranch =>
    obtain ⟨c, t, -, -, ⟨-, heq⟩ | ⟨e, -, heq⟩⟩ := stmt?_ifStmt h <;> cases heq
  | _ => simp [ASTNode.stmt?, Option.bind_eq_some_iff] at h

theorem ret_of_stmt? (h : node.stmt? = some (.ret o)) :
    ∃ info expression, node = .returnStmt info expression ∧
      expression.optionalExpr? = some o := by
  cases node with
  | returnStmt info expression =>
    obtain ⟨o', ho, heq⟩ := Option.map_eq_some_iff.mp h
    cases heq
    exact ⟨info, expression, rfl, ho⟩
  | ifStmt info condition thenBranch elseBranch =>
    obtain ⟨c, t, -, -, ⟨-, heq⟩ | ⟨e, -, heq⟩⟩ := stmt?_ifStmt h <;> cases heq
  | _ => simp [ASTNode.stmt?, Option.bind_eq_some_iff] at h

/-- What represents an `if`, with or without `else`. -/
theorem ifStmt_of_stmt? (hif : st = .ifThen c st' ∨ ∃ st'', st = .ifElse c st' st'')
    (h : node.stmt? = some st) : ∃ info condition thenBranch elseBranch,
      node = .ifStmt info condition thenBranch elseBranch := by
  cases node with
  | ifStmt info condition thenBranch elseBranch =>
    exact ⟨info, condition, thenBranch, elseBranch, rfl⟩
  | _ =>
    obtain rfl | ⟨st'', rfl⟩ := hif <;> simp [ASTNode.stmt?, Option.bind_eq_some_iff] at h

theorem whileLoop_of_stmt? (h : node.stmt? = some (.whileLoop c st)) :
    ∃ info condition body, node = .whileStmt info condition body ∧ condition.expr? = some c ∧
      body.stmt? = some st := by
  cases node with
  | whileStmt info condition body =>
    obtain ⟨c', hc, hrest⟩ := Option.bind_eq_some_iff.mp h
    obtain ⟨b, hb, heq⟩ := Option.bind_eq_some_iff.mp hrest
    cases heq
    exact ⟨info, condition, body, rfl, hc, hb⟩
  | ifStmt info condition thenBranch elseBranch =>
    obtain ⟨c, t, -, -, ⟨-, heq⟩ | ⟨e, -, heq⟩⟩ := stmt?_ifStmt h <;> cases heq
  | _ => simp [ASTNode.stmt?] at h

theorem block_of_stmt? (h : node.stmt? = some (.block sts)) :
    ∃ info statements, node = .block info statements ∧ stmts? statements = some sts := by
  cases node with
  | block info statements =>
    obtain ⟨sts', hsts, heq⟩ := Option.map_eq_some_iff.mp h
    cases heq
    exact ⟨info, statements, rfl, hsts⟩
  | ifStmt info condition thenBranch elseBranch =>
    obtain ⟨c, t, -, -, ⟨-, heq⟩ | ⟨e, -, heq⟩⟩ := stmt?_ifStmt h <;> cases heq
  | _ => simp [ASTNode.stmt?, Option.bind_eq_some_iff] at h

theorem completeStmt_of_completeExpr (h : node.CompleteExpr) : node.CompleteStmt := by
  cases node <;> first | exact h | exact absurd h not_false

/-- Trees of an optional expression whose trees are complete. -/
theorem complete_of_optionalExpr? (h : node.optionalExpr? = some o)
    (ho : ∀ e, o = some e → ∀ node : ASTNode, node.expr? = some e → node.CompleteExpr) :
    node.isNull = true ∨ node.CompleteExpr := by
  unfold ASTNode.optionalExpr? at h
  split at h
  · exact .inl ‹_›
  · obtain ⟨e, he, rfl⟩ := Option.map_eq_some_iff.mp h
    exact .inr (ho e rfl node he)

/-- Trees of statements whose trees are complete. -/
theorem completeStmts_of_stmts? {nodes : List ASTNode} (h : stmts? nodes = some sts)
    (hsts : ∀ st ∈ sts, ∀ node : ASTNode, node.stmt? = some st → node.CompleteStmt) :
    CompleteStmts nodes := by
  induction nodes generalizing sts with
  | nil => exact trivial
  | cons node nodes ih =>
    obtain ⟨st, hst, hrest⟩ := Option.bind_eq_some_iff.mp h
    obtain ⟨sts', hsts', hcons⟩ := Option.bind_eq_some_iff.mp hrest
    cases hcons
    exact ⟨hsts st (List.mem_cons_self ..) node hst,
      ih hsts' fun st' hst' => hsts st' (List.mem_cons_of_mem _ hst')⟩

end

/-- Trees of the statements of the grammar are complete. -/
theorem DerivesStmt.complete {ts : List Token} {st : Stmt} (h : DerivesStmt ts st)
    {node : ASTNode} (hnode : node.stmt? = some st) : node.CompleteStmt := by
  induction h generalizing node with
  | expr hsemi he => exact completeStmt_of_completeExpr (he.complete (expr_of_stmt? hnode))
  | varDecl hty hname hsemi =>
    obtain ⟨info, initializer, rfl, hinit⟩ := varDecl_of_stmt? hnode
    exact complete_of_optionalExpr? hinit nofun
  | varInit hty hname heq he hsemi =>
    obtain ⟨info, initializer, rfl, hinit⟩ := varDecl_of_stmt? hnode
    refine complete_of_optionalExpr? hinit fun e hsome node hnode => ?_
    cases hsome
    exact he.complete hnode
  | ret hkw hsemi =>
    obtain ⟨info, expression, rfl, hexpr⟩ := ret_of_stmt? hnode
    exact complete_of_optionalExpr? hexpr nofun
  | retValue hkw he hsemi =>
    obtain ⟨info, expression, rfl, hexpr⟩ := ret_of_stmt? hnode
    refine complete_of_optionalExpr? hexpr fun e hsome node hnode => ?_
    cases hsome
    exact he.complete hnode
  | ifThen hkw hl hc hr ht iht =>
    obtain ⟨info, condition, thenBranch, elseBranch, rfl⟩ := ifStmt_of_stmt? (.inl rfl) hnode
    obtain ⟨c, t, hcond, hthen, ⟨hnull, heq⟩ | ⟨e, -, heq⟩⟩ := stmt?_ifStmt hnode
    · cases heq
      exact ⟨hc.complete hcond, iht hthen, .inl hnull⟩
    · cases heq
  | ifElse hkw hl hc hr ht hclosed hkw' he iht ihe =>
    obtain ⟨info, condition, thenBranch, elseBranch, rfl⟩ :=
      ifStmt_of_stmt? (.inr ⟨_, rfl⟩) hnode
    obtain ⟨c, t, hcond, hthen, ⟨-, heq⟩ | ⟨e, helse, heq⟩⟩ := stmt?_ifStmt hnode
    · cases heq
    · cases heq
      exact ⟨hc.complete hcond, iht hthen, .inr (ihe helse)⟩
  | whileLoop hkw hl hc hr hbody ih =>
    obtain ⟨info, condition, body, rfl, hcond, hb⟩ := whileLoop_of_stmt? hnode
    exact ⟨hc.complete hcond, ih hb⟩
  | @block l r parts hl hr hparts hcount ih =>
    obtain ⟨info, statements, rfl, hstmts⟩ := block_of_stmt? hnode
    refine completeStmts_of_stmts? hstmts fun st hst node hnode => ?_
    obtain ⟨part, hpart, rfl⟩ := List.mem_map.mp hst
    exact ih part hpart hnode

/-! ## Functions -/

/-- Trees of the definitions of the grammar are complete. -/
theorem DerivesFunction.complete {ts : List Token} {f : Function} (h : DerivesFunction ts f)
    {node : ASTNode} (hnode : node.function? = some f) (hbody : f.body ≠ none) :
    node.CompleteFunction := by
  cases h with
  | prototype => exact absurd rfl hbody
  | definition hty hname hl hparams hr hstmt =>
    cases node with
    | function info name returnType params body isPrototype =>
      simp only [ASTNode.function?] at hnode
      split at hnode
      · cases hnode
      · rename_i hdefinition
        obtain ⟨stmts, hstmts, heq⟩ := Option.map_eq_some_iff.mp hnode
        cases heq
        cases body with
        | block info' statements =>
          refine ⟨by simpa using hdefinition, ?_⟩
          have hblock : (ASTNode.block info' statements).stmt? = (some _).map Stmt.block :=
            congrArg (Option.map Stmt.block) hstmts
          exact hstmt.complete hblock
        | _ => cases hstmts
    | _ => cases hnode

theorem mem_of_functions {nodes : List ASTNode} {fs : TranslationUnit}
    (h : nodes.mapM ASTNode.function? = some fs) {node : ASTNode} (hnode : node ∈ nodes) :
    ∃ f ∈ fs, node.function? = some f := by
  induction nodes generalizing fs with
  | nil => cases hnode
  | cons first rest ih =>
    rw [List.mapM_cons] at h
    obtain ⟨f, hf, hrest⟩ := Option.bind_eq_some_iff.mp h
    obtain ⟨fs', hfs', hcons⟩ := Option.bind_eq_some_iff.mp hrest
    cases hcons
    cases hnode with
    | head => exact ⟨f, List.mem_cons_self .., hf⟩
    | tail _ hmem =>
      obtain ⟨g, hg, hnode⟩ := ih hfs' hmem
      exact ⟨g, List.mem_cons_of_mem _ hg, hnode⟩

/-- Trees of the definitions in a file of the grammar are complete. -/
theorem DerivesUnit.complete {ts : List Token} {u : TranslationUnit} (h : DerivesUnit ts u)
    {declarations : List ASTNode} (hu : declarations.mapM ASTNode.function? = some u)
    {node : ASTNode} (hnode : node ∈ declarations) {f : Function}
    (hf : node.function? = some f) (hbody : f.body ≠ none) : node.CompleteFunction := by
  obtain ⟨g, hg, hfunction⟩ := mem_of_functions hu hnode
  cases hf.symm.trans hfunction
  cases h with
  | mk hparts hcount =>
    obtain ⟨part, hpart, rfl⟩ := List.mem_map.mp hg
    exact (hparts part hpart).complete hf hbody

end TinyCompile.Parser
