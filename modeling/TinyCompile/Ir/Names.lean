import TinyCompile.Ir.Scoping
import TinyCompile.Ir.Valued

set_option autoImplicit false

/-!
# Ir: when the symbol table is full

The process ends in the generator exactly where a declaration would put more names in scope
than the symbol table has entries.  The names in scope are counted on the tree.
-/

namespace TinyCompile.Ir

open TinyCompile.Source

/-! ## Names -/

/-- The names in scope behind a statement that the generator does not give up. -/
def namesBehind (names : List StringView) : ASTNode → List StringView
  | .varDecl _ varName _ _ => varName :: names
  | .ifStmt _ _ thenBranch elseBranch =>
      if elseBranch.isNull then namesBehind names thenBranch
      else namesBehind (namesBehind names thenBranch) elseBranch
  | .whileStmt _ _ body => namesBehind names body
  | _ => names

/-- There is an entry for a name beside those in scope. -/
def nameFits (names : List StringView) (name : StringView) : Bool :=
  decide ((name :: names).toFinset.card ≤ symbolTableSize)

mutual

/-- There are entries for all names of a statement. -/
def namesFit (names : List StringView) : ASTNode → Bool
  | .varDecl _ varName _ _ => nameFits names varName
  | .block _ statements => namesFitAll names statements
  | .ifStmt _ _ thenBranch elseBranch =>
      namesFit names thenBranch &&
        (elseBranch.isNull || namesFit (namesBehind names thenBranch) elseBranch)
  | .whileStmt _ _ body => namesFit names body
  | _ => true

/-- There are entries for all names of some statements. -/
def namesFitAll (names : List StringView) : List ASTNode → Bool
  | [] => true
  | stmt :: rest => namesFit names stmt && namesFitAll (namesBehind names stmt) rest

end

/-- There are entries for the names of the parameters. -/
def paramsFit (names : List StringView) : List Parameter → Bool
  | [] => true
  | param :: rest => nameFits names param.name && paramsFit (param.name :: names) rest

/-- The names in scope, as the generator has them behind a statement. -/
theorem names_scopeStmt : ∀ (node : ASTNode) (env : Env) (stack : Nat), Valued env node stack →
    (scopeStmt env node stack).1.map (·.1) = namesBehind (env.map (·.1)) node
  | .ifStmt _ condition thenBranch elseBranch, env, stack, hvalued => by
      rw [scopeStmt, namesBehind, if_pos hvalued.1]
      dsimp only
      have hthen := names_scopeStmt thenBranch env stack hvalued.2.1
      split
      · exact hthen
      · rename_i hnull
        rw [← hthen]
        exact names_scopeStmt elseBranch _ _ (hvalued.2.2.resolve_left hnull)
  | .whileStmt _ condition body, env, stack, hvalued => by
      rw [scopeStmt, namesBehind, if_pos hvalued.1]
      exact names_scopeStmt body env stack hvalued.2
  | .null, _, _, _ => rfl
  | .varDecl _ _ _ _, _, _, _ => rfl
  | .assignment _ _ _, _, _, _ => rfl
  | .returnStmt _ _, _, _, _ => rfl
  | .block _ _, _, _, _ => rfl
  | .number _ _, _, _, _ => rfl
  | .identifier _ _, _, _, _ => rfl
  | .binary _ _ _ _, _, _, _ => rfl
  | .unary _ _ _, _, _, _ => rfl
  | .call _ _ _, _, _, _ => rfl
  | .function _ _ _ _ _ _, _, _, _ => rfl
  | .translationUnit _ _, _, _, _ => rfl

/-! ## One name -/

section

variable {st : SymbolTable} {env : Env}

/-- The bindings of the names in scope. -/
def bindingsOf (env : Env) : SymbolTable.Bindings :=
  env.map fun entry => (entry.1, entry.2.binding)

theorem lookup_bindingsOf (env : Env) (name : StringView) :
    (bindingsOf env).lookup name = (env.lookup name).map (·.binding) := by
  induction env with
  | nil => rfl
  | cons entry env ih =>
    obtain ⟨other, e⟩ := entry
    rw [bindingsOf, List.map_cons, List.lookup_cons, List.lookup_cons]
    cases name == other with
    | true => rfl
    | false => exact ih

/-- The names in a table are those in scope. -/
theorem SymbolTable.Binds.names (h : st.Binds env) (name : StringView) :
    name ∈ (env.map (·.1)).toFinset ↔ ∃ s, st.keyAt s = some name := by
  have hholds : st.Holds (bindingsOf env) :=
    ⟨h.consistent, fun other => (h.binds other).trans (lookup_bindingsOf env other).symm⟩
  rw [← hholds.names]
  simp [SymbolTable.liveNames, bindingsOf, List.map_map, Function.comp_def]

/-- A name is refused exactly where there is no entry for it. -/
theorem bind_eq_none_iff (h : st.Binds env) (name : StringView) (b : SymbolTable.Binding) :
    st.bind name b = none ↔ nameFits (env.map (·.1)) name = false := by
  have hslot : st.bind name b = none ↔ st.slotOf name = none := by
    unfold SymbolTable.bind symbolTableAdd
    rw [Option.map_eq_none_iff]
    cases st.slotOf name <;> simp
  rw [hslot, nameFits, decide_eq_false_iff_not, Nat.not_le, List.toFinset_cons]
  refine (h.consistent.find_eq_none SymbolTable.covers h.names name).trans ?_
  have hcard := h.consistent.card_taken SymbolTable.covers h.names
  have hle : ((env.map (·.1)).toFinset).card ≤ symbolTableSize := by
    rw [← hcard]
    exact (Finset.card_filter_le _ _).trans (Finset.card_range _).le
  constructor
  · rintro ⟨habsent, hfull⟩
    rw [Finset.card_insert_of_notMem habsent]
    exact Nat.lt_succ_of_le hfull
  · intro hfull
    have habsent : name ∉ (env.map (·.1)).toFinset := by
      intro hmem
      rw [Finset.insert_eq_of_mem hmem] at hfull
      exact absurd hle (Nat.not_le_of_lt hfull)
    rw [Finset.card_insert_of_notMem habsent] at hfull
    exact ⟨habsent, Nat.le_of_lt_succ hfull⟩

end

/-! ## The generator -/

/-- A computation stops exactly where the names do not fit. -/
def Tabled {α : Type} (m : GenM α) (s : GenState) (fits : Bool) : Prop :=
  Ensures m s (fun _ _ => fits = true) fun _ => fits = false

section

variable {α β : Type} {m : GenM α} {s : GenState} {fits fits' : Bool}

/-- A computation that returns, in front of another one. -/
theorem Tabled.after_run {k : α → GenM β} {a : α} {s' : GenState} (hrun : m s = .ok (a, s'))
    (h : Tabled (k a) s' fits) : Tabled (m >>= k) s fits := by
  unfold Tabled
  rw [ensures_bind, ensures_of_eq hrun]
  exact h

/-- A statement in front of another computation. -/
theorem StmtEnsures.tabled {m k : GenM Unit} {o : StmtOut} {complete : Prop}
    (hspec : StmtEnsures m s o complete) (hm : Tabled m s fits)
    (hk : ∀ st', s.symbolTable.Leaves o.env st' → Tabled k (s.afterStmt o st') fits') :
    Tabled (m >>= fun _ => k) s (fits && fits') := by
  unfold Tabled at hm ⊢
  rw [ensures_bind]
  cases hrun : m s with
  | error stop =>
    have hstop := hm.of_error hrun
    simp only [Ensures, hrun, hstop, Bool.false_and]
  | ok p =>
    obtain ⟨a, s'⟩ := p
    obtain ⟨st', hleaves, rfl⟩ := hspec.of_ok hrun
    have hfits := hm.of_ok hrun
    rw [ensures_of_eq hrun, hfits, Bool.true_and]
    exact hk st' hleaves

end

section

variable {env : Env} {p : Nat}

/-- A complete expression is generated. -/
theorem genExpression_run {node : ASTNode} {s : GenState} (hst : s.symbolTable.Binds env)
    (hcomplete : node.CompleteExpr) :
    genExpression node s = .ok ((lowerExpr env node s.f.vregCount).reg,
      s.afterExpr (lowerExpr env node s.f.vregCount)) := by
  have hspec := genExpression_ensures node s hst
  cases hrun : genExpression node s with
  | error stop => exact absurd hcomplete (hspec.of_error hrun).2
  | ok r =>
    obtain ⟨reg, s'⟩ := r
    obtain ⟨hreg, hs'⟩ := hspec.of_ok hrun
    rw [hreg, hs']

/-- A value and the instruction that uses it leave the table alone. -/
theorem tabled_value {m : GenM Nat} {s s' : GenState} {reg : Nat}
    (inst : Nat → IRInstruction) (hrun : m s = .ok (reg, s')) :
    Tabled (do
      let reg ← m
      if reg = 0 then return ()
      emitInst (inst reg)) s true := by
  refine Tabled.after_run hrun ?_
  unfold Tabled
  split
  · rw [ensures_pure]
  · rw [ensures_emitInst]

theorem tabled_return {info : NodeInfo} {expression : ASTNode} {s : GenState}
    (hst : s.symbolTable.Binds env)
    (hcomplete : (ASTNode.returnStmt info expression).CompleteStmt) :
    Tabled (genStatement (.returnStmt info expression)) s true := by
  have hrun : ∃ reg s', genReturned expression s = .ok (reg, s') := by
    unfold genReturned
    split
    · exact ⟨_, _, giveUp_run .returnWithoutExpression s rfl⟩
    · rename_i hnull
      exact ⟨_, _, genExpression_run hst (hcomplete.resolve_left hnull)⟩
  obtain ⟨reg, s', hrun⟩ := hrun
  simp only [genStatement, genReturn]
  exact tabled_value _ hrun

theorem tabled_assignment {info : NodeInfo} {varName : StringView} {value : ASTNode}
    {s : GenState} (hst : s.symbolTable.Binds env)
    (hcomplete : (ASTNode.assignment info varName value).CompleteStmt)
    (hname : (env.lookup varName).isSome = true) :
    Tabled (genStatement (.assignment info varName value)) s true := by
  obtain ⟨e, henv⟩ := Option.isSome_iff_exists.mp hname
  obtain ⟨sym, hsym, hbinding⟩ := hst.lookup_some henv
  have hlookup : lookupSymbol varName s = .ok (some sym, s) := by
    show Except.ok (symbolTableLookup s.symbolTable varName, s) = _
    rw [hsym]
  have hget : ∀ s : GenState, (get : GenM GenState) s = .ok (s, s) := fun _ => rfl
  simp only [genStatement, genAssignment]
  refine Tabled.after_run hlookup ?_
  refine Tabled.after_run (hget s) ?_
  refine Tabled.after_run (record_run (e := .resolved info.addr _) s rfl) ?_
  set s₁ := s.after [] [.resolved info.addr (s.symbolTable.bindingAt sym)] s.f.counters
    s.symbolTable
  have hs₁ : s₁.symbolTable.Binds env := hst
  refine Tabled.after_run (genExpression_run hs₁ hcomplete) ?_
  unfold Tabled
  split
  · rw [ensures_pure]
  · rw [ensures_bind, ensures_of_eq (hget _), ensures_emitInst]

theorem genInitializer_run (varType : DataType) {initializer : ASTNode} {s : GenState}
    (hst : s.symbolTable.Binds env)
    (hcomplete : initializer.isNull = true ∨ initializer.CompleteExpr) :
    ∃ reg s', genInitializer varType initializer s = .ok (reg, s') := by
  have hspec := genInitializer_ensures varType initializer hst
  cases hrun : genInitializer varType initializer s with
  | error stop => exact absurd hcomplete (hspec.of_error hrun).2
  | ok r => exact ⟨r.1, r.2, rfl⟩

theorem tabled_varDecl {info : NodeInfo} {varName : StringView} {varType : DataType}
    {initializer : ASTNode} {s : GenState} (hst : s.symbolTable.Binds env)
    (hcomplete : (ASTNode.varDecl info varName varType initializer).CompleteStmt) :
    Tabled (genStatement (.varDecl info varName varType initializer)) s
      (nameFits (env.map (·.1)) varName) := by
  simp only [genStatement, genVarDecl]
  refine Tabled.after_run (newStackSlot_run s) ?_
  unfold Tabled
  refine ensures_addLocal (fun hnone => ?_) fun st' hbind => ?_
  · exact (bind_eq_none_iff hst varName _).mp hnone
  · have hfits : nameFits (env.map (·.1)) varName = true := by
      rw [← Bool.not_eq_false]
      intro hfull
      have hnone := (bind_eq_none_iff hst varName ⟨s.f.stackCount, true⟩).mpr hfull
      rw [GenState.after_symbolTable] at hbind
      rw [hnone] at hbind
      cases hbind
    rw [hfits]
    set s₁ := (s.after [] [] { s.f.counters with stack := s.f.stackCount + 1 }
      s.symbolTable).after [] [] _ st'
    have hbinds : s₁.symbolTable.Binds
        ((varName, ⟨.var info.addr, varType, ⟨s.f.stackCount, true⟩⟩) :: env) := hst.bind hbind
    refine Tabled.after_run
      (record_run (e := .declared info.addr varType s.f.stackCount) s₁ rfl) ?_
    set s₂ := s₁.after [] [.declared info.addr varType s.f.stackCount] s₁.f.counters
      s₁.symbolTable
    have hs₂ : s₂.symbolTable.Binds
        ((varName, ⟨.var info.addr, varType, ⟨s.f.stackCount, true⟩⟩) :: env) := hbinds
    obtain ⟨reg, s', hrun⟩ := genInitializer_run varType hs₂ hcomplete
    exact tabled_value _ hrun

theorem tabled_block {info : NodeInfo} {statements : List ASTNode} {s : GenState} {fits : Bool}
    (ih : Tabled (genStatements statements) s fits) :
    Tabled (genStatement (.block info statements)) s fits := by
  have hget : (get : GenM GenState) s = .ok (s, s) := rfl
  simp only [genStatement, genBlock]
  refine Tabled.after_run hget ?_
  unfold Tabled
  rw [ensures_bind]
  exact Ensures.imp ih (fun _ _ h => h) fun _ h => h

/-- The names in scope behind a statement of which nothing is reported. -/
theorem names_lowerStmt {node : ASTNode} {c : Counters} (hp : p < c.vreg)
    (henv : EnvFits p c.stack env) (hcomplete : node.CompleteStmt)
    (h : Unreported (lowerStmt env node c).history) :
    (lowerStmt env node c).env.map (·.1) = namesBehind (env.map (·.1)) node := by
  rw [(lowerStmt_scopes node env c hp henv h.hasVregs).1]
  exact names_scopeStmt node env c.stack (valued_of_unreported node env c hp henv hcomplete h)

/-- The generator stops in a statement exactly where its names do not fit. -/
def TabledStmt (p : Nat) (env : Env) (node : ASTNode) (s : GenState) : Prop :=
  s.symbolTable.Binds env → p < s.f.counters.vreg → EnvFits p s.f.counters.stack env →
    node.CompleteStmt → Unreported (lowerStmt env node s.f.counters).history →
    Tabled (genStatement node) s (namesFit (env.map (·.1)) node)

/-- A branch in front of what follows it. -/
theorem tabled_branch {node : ASTNode} {c : Counters} {s : GenState} {k : GenM Unit}
    {fits : Bool} (ih : ∀ s, TabledStmt p env node s) (hst : s.symbolTable.Binds env)
    (hc : s.f.counters = c) (hp : p < c.vreg) (henv : EnvFits p c.stack env)
    (hcomplete : node.CompleteStmt) (h : Unreported (lowerStmt env node c).history)
    (hk : ∀ st', st'.Binds (lowerStmt env node c).env →
      Tabled k (s.afterStmt (lowerStmt env node c) st') fits) :
    Tabled (genStatement node >>= fun _ => k) s (namesFit (env.map (·.1)) node && fits) := by
  subst hc
  exact (genStatement_ensures env node s hst).tabled (ih s hst hp henv hcomplete h)
    fun st' hleaves => hk st' hleaves.binds

theorem tabled_emit (inst : IRInstruction) (s : GenState) : Tabled (emitInst inst) s true :=
  (ensures_emitInst inst).mpr rfl

theorem tabled_if {info : NodeInfo} {condition thenBranch elseBranch : ASTNode} {s : GenState}
    (iht : ∀ s, TabledStmt p env thenBranch s) (ihe : ∀ env s, TabledStmt p env elseBranch s) :
    TabledStmt p env (.ifStmt info condition thenBranch elseBranch) s := by
  intro hst hp henv hcomplete h
  obtain ⟨hcond, hthen, helse⟩ := hcomplete
  have hrun := genExpression_run hst hcond
  have hvalued := hasValue_of_unreported henv condition s.f.counters.vreg hp hcond
  have hreg := lowerExpr_reg henv condition s.f.counters.vreg hp
  have hsound := lowerExpr_sound henv condition s.f.counters.vreg
  have hv : s.f.counters.vreg = s.f.vregCount := rfl
  simp only [lowerStmt] at h
  rw [hv] at hvalued hreg hsound h
  set o := lowerExpr env condition s.f.vregCount
  have ho : Unreported o.history := by
    intro reason hmem
    refine h reason ?_
    split <;> split <;> simp [hmem]
  have hne := (hreg ho.hasVregs).mpr (hvalued ho)
  have htype := valueType?_of_lowerExpr hne
  have hle := Nat.lt_of_lt_of_le hp (hsound ho.hasVregs).facts.le
  simp only [if_neg hne] at h
  simp only [genStatement, genIf, namesFit]
  refine Tabled.after_run hrun ?_
  rw [valueTypeOf_eq htype, pure_bind]
  by_cases hnull : elseBranch.isNull = true
  · simp only [if_pos hnull] at h ⊢
    refine Tabled.after_run (newLabel_run _) ?_
    rw [if_neg hne, hnull, Bool.true_or]
    refine Tabled.after_run (emitInst_run _ _) ?_
    exact tabled_branch iht hst rfl hle henv hthen h.right fun st' _ => tabled_emit _ _
  · simp only [if_neg hnull] at h ⊢
    refine Tabled.after_run (newLabel_run _) (Tabled.after_run (newLabel_run _) ?_)
    rw [if_neg hne, Bool.eq_false_iff.mpr hnull, Bool.false_or]
    refine Tabled.after_run (emitInst_run _ _) ?_
    have ht : Unreported
        (lowerStmt env thenBranch ⟨o.next, s.f.counters.stack, s.f.counters.label + 2⟩).history :=
      h.left.right
    have hle' : p < (⟨o.next, s.f.counters.stack, s.f.counters.label + 2⟩ : Counters).vreg := hle
    have hstmt := lowerStmt_sound (p := p) thenBranch env _ hle' henv ht.hasVregs
    have hnames := names_lowerStmt hle' henv hthen ht
    refine tabled_branch iht hst rfl hle' henv hthen ht fun st' hbinds => ?_
    refine Tabled.after_run (emitInst_run _ _) (Tabled.after_run (emitInst_run _ _) ?_)
    rw [← hnames, ← Bool.and_true (namesFit _ elseBranch)]
    exact tabled_branch (ihe _) hbinds rfl (Nat.lt_of_lt_of_le hle' hstmt.piece.le) hstmt.env
      (helse.resolve_left hnull) h.right fun st' _ => tabled_emit _ _

theorem tabled_while {info : NodeInfo} {condition body : ASTNode} {s : GenState}
    (ih : ∀ s, TabledStmt p env body s) : TabledStmt p env (.whileStmt info condition body) s := by
  intro hst hp henv hcomplete h
  obtain ⟨hcond, hbody⟩ := hcomplete
  have hvalued := hasValue_of_unreported henv condition s.f.counters.vreg hp hcond
  have hreg := lowerExpr_reg henv condition s.f.counters.vreg hp
  have hsound := lowerExpr_sound henv condition s.f.counters.vreg
  have hv : s.f.counters.vreg = s.f.vregCount := rfl
  simp only [lowerStmt] at h
  rw [hv] at hvalued hreg hsound h
  have ho : Unreported (lowerExpr env condition s.f.vregCount).history := by
    split at h
    · exact h
    · exact h.left
  have hne := (hreg ho.hasVregs).mpr (hvalued ho)
  have htype := valueType?_of_lowerExpr hne
  have hle := Nat.lt_of_lt_of_le hp (hsound ho.hasVregs).facts.le
  simp only [if_neg hne] at h
  simp only [genStatement, genWhile, namesFit]
  refine Tabled.after_run (newLabel_run _) (Tabled.after_run (newLabel_run _) ?_)
  rw [valueTypeOf_eq htype, pure_bind]
  refine Tabled.after_run (emitInst_run _ _) ?_
  refine Tabled.after_run (a := (lowerExpr env condition s.f.vregCount).reg)
    (genExpression_run hst hcond) ?_
  rw [if_neg hne, ← Bool.and_true (namesFit _ body)]
  refine Tabled.after_run (emitInst_run _ _) ?_
  refine tabled_branch ih hst rfl hle henv hbody h.right fun st' _ => ?_
  exact Tabled.after_run (emitInst_run _ _) (tabled_emit _ _)

theorem tabled_expr {node : ASTNode} {s : GenState} (hst : s.symbolTable.Binds env)
    (hcomplete : node.CompleteExpr)
    (hgen : genStatement node = discard (genExpression node)) :
    Tabled (genStatement node) s true := by
  have hdiscard : discard (genExpression node) = genExpression node >>= fun _ => pure () := by
    rw [bind_pure_comp]
    rfl
  rw [hgen, hdiscard]
  exact Tabled.after_run (genExpression_run hst hcomplete) ((ensures_pure ()).mpr rfl)

mutual

theorem genStatement_tabled : ∀ (env : Env) (node : ASTNode) (s : GenState),
    TabledStmt p env node s
  | _, .varDecl _ _ _ _, _ => fun hst _ _ hcomplete _ => tabled_varDecl hst hcomplete
  | _, .assignment _ _ _, _ => fun hst hp henv hcomplete h =>
      tabled_assignment hst hcomplete (valued_assignment hp henv hcomplete h).1
  | _, .returnStmt _ _, _ => fun hst _ _ hcomplete _ => tabled_return hst hcomplete
  | env, .block _ statements, s => fun hst hp henv hcomplete h =>
      tabled_block (genStatements_tabled env statements s hst hp henv hcomplete h)
  | env, .ifStmt _ _ thenBranch elseBranch, _ =>
      tabled_if (fun s => genStatement_tabled env thenBranch s)
        fun env s => genStatement_tabled env elseBranch s
  | env, .whileStmt _ _ body, _ => tabled_while fun s => genStatement_tabled env body s
  | _, .number _ _, _ => fun hst _ _ hcomplete _ => tabled_expr hst hcomplete rfl
  | _, .identifier _ _, _ => fun hst _ _ hcomplete _ => tabled_expr hst hcomplete rfl
  | _, .call _ _ _, _ => fun hst _ _ hcomplete _ => tabled_expr hst hcomplete rfl
  | _, .unary _ _ _, _ => fun hst _ _ hcomplete _ => tabled_expr hst hcomplete rfl
  | _, .binary _ _ _ _, _ => fun hst _ _ hcomplete _ => tabled_expr hst hcomplete rfl
  | _, .null, _ => fun _ _ _ hcomplete _ => absurd hcomplete id
  | _, .function _ _ _ _ _ _, _ => fun _ _ _ hcomplete _ => absurd hcomplete id
  | _, .translationUnit _ _, _ => fun _ _ _ hcomplete _ => absurd hcomplete id

/-- The generator stops in the statements of a block exactly where their names do not fit. -/
theorem genStatements_tabled : ∀ (env : Env) (nodes : List ASTNode) (s : GenState),
    s.symbolTable.Binds env → p < s.f.counters.vreg → EnvFits p s.f.counters.stack env →
    CompleteStmts nodes → Unreported (lowerStmts env nodes s.f.counters).history →
    Tabled (genStatements nodes) s (namesFitAll (env.map (·.1)) nodes)
  | _, [], _, _, _, _, _, _ => (ensures_pure ()).mpr rfl
  | env, stmt :: rest, s, hst, hp, henv, hcomplete, h => by
      simp only [lowerStmts] at h
      have hstmt := lowerStmt_sound (p := p) stmt env s.f.counters hp henv h.left.hasVregs
      rw [namesFitAll, ← names_lowerStmt hp henv hcomplete.1 h.left]
      exact tabled_branch (genStatement_tabled env stmt) hst rfl hp henv hcomplete.1 h.left
        fun st' hbinds => genStatements_tabled _ rest _ hbinds
          (Nat.lt_of_lt_of_le hp hstmt.piece.le) hstmt.env hcomplete.2 h.right

end

/-- The generator stops at the parameters exactly where their names do not fit, if there are
registers for them. -/
theorem genParams_tabled (params : List Parameter) (i : Nat) {s : GenState}
    (hst : s.symbolTable.Binds env) (hi : s.f.vregCount = 1 + i)
    (hlimit : 1 + i + params.length ≤ maxVregsPerFunction) :
    Ensures (genParams params) s
      (fun generated _ => generated = true ∧ paramsFit (env.map (·.1)) params = true)
      (fun _ => paramsFit (env.map (·.1)) params = false) := by
  induction params generalizing env i s with
  | nil => exact (ensures_pure true).mpr ⟨rfl, rfl⟩
  | cons param rest ih =>
    rw [List.length_cons] at hlimit
    have hroom : ¬ s.f.vregCount ≥ maxVregsPerFunction := by omega
    simp only [genParams, paramsFit]
    rw [ensures_bind, ensures_of_eq (allocVreg_run s hroom)]
    dsimp only
    rw [ensures_bind]
    refine ensures_addSymbol (fun hnone => ?_) fun st' hbind => ?_
    · rw [(bind_eq_none_iff hst param.name _).mp hnone, Bool.false_and]
    · have hfits : nameFits (env.map (·.1)) param.name = true := by
        rw [← Bool.not_eq_false]
        intro hfull
        rw [GenState.after_symbolTable, (bind_eq_none_iff hst param.name _).mpr hfull] at hbind
        cases hbind
      set entry : Entry := ⟨.param i, param.type, ⟨s.f.vregCount, false⟩⟩
      have hbinds : st'.Binds ((param.name, entry) :: env) := hst.bind hbind
      rw [hfits, Bool.true_and]
      have hnames : param.name :: env.map (·.1) = ((param.name, entry) :: env).map (·.1) := rfl
      rw [hnames]
      refine ih (i + 1) hbinds ?_ (by omega)
      show s.f.vregCount + 1 = 1 + (i + 1)
      omega

end

/-! ## Functions -/

/-- There are entries for all names of a function. -/
def namesFitFunction : ASTNode → Bool
  | .function _ _ _ params (.block _ statements) _ =>
      paramsFit [] params && namesFitAll ((paramEnv [] params 0).map (·.1)) statements
  | _ => true

/-- With registers for the parameters, the generator stops in a function exactly where its
names do not fit. -/
theorem genRoot_tabled {fresh : IRFunction} {func : ASTNode} (errors : ErrorContext)
    (filename : Option String) (hcomplete : func.CompleteFunction)
    (hlimit : 1 + func.params.length ≤ maxVregsPerFunction)
    (h : Unreported (lowerRoot fresh.stackCount func).history) :
    Ensures (genRoot func) (initState fresh func errors filename)
      (fun generated _ => generated = true ∧ namesFitFunction func = true)
      (fun _ => namesFitFunction func = false) := by
  cases func with
  | function info name returnType params body isPrototype =>
    cases body with
    | block bodyInfo statements =>
      set s := initState fresh (.function info name returnType params (.block bodyInfo statements)
        isPrototype) errors filename
      have hst : s.symbolTable.Binds [] := SymbolTable.binds_init
      have hvreg : s.f.vregCount = 1 + 0 := rfl
      have hparams := genParams_tabled params 0 hst hvreg hlimit
      have hspec := genParams_ensures [] params 0 s hst hvreg (by decide)
      simp only [genRoot, namesFitFunction]
      rw [ensures_bind]
      cases hrun : genParams params s with
      | error stop =>
        have hstop := hparams.of_error hrun
        simp only [Ensures, hrun]
        rw [show paramsFit [] params = false from hstop, Bool.false_and]
      | ok r =>
        obtain ⟨generated, s'⟩ := r
        obtain ⟨rfl, hfits⟩ := hparams.of_ok hrun
        obtain ⟨st', hbinds, -, rfl⟩ := hspec.of_ok hrun
        rw [ensures_of_eq hrun, if_pos rfl, ensures_bind,
          show paramsFit [] params = true from hfits, Bool.true_and]
        have henv : EnvFits params.length fresh.stackCount (paramEnv [] params 0) :=
          envFits_params params 0 (fun name e he => by simp at he) (by omega)
        have hbody := genStatements_tabled (p := params.length) (paramEnv [] params 0) statements
          (s.after [] [] { s.f.counters with vreg := 1 + 0 + params.length } st') hbinds
          (by show params.length < 1 + 0 + params.length; omega) henv hcomplete.2
          (by
            have hcounters : (1 + 0 + params.length) = 1 + params.length := by omega
            rw [hcounters]
            exact h)
        exact Ensures.imp hbody (fun _ _ hfit => (ensures_pure true).mpr ⟨rfl, hfit⟩) fun _ h => h
    | _ => exact absurd hcomplete id
  | _ => exact absurd hcomplete id

end TinyCompile.Ir
