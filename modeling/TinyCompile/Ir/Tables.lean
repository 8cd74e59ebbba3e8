import TinyCompile.Ir.Valued

set_option autoImplicit false

/-!
# Ir: where the symbol table overflows

The table behind a statement, read off the tree.  The generator stops on a function of which
no part is missing and nothing is given up exactly where there is no such table.
-/

namespace TinyCompile.Ir

open TinyCompile.Source

/-! ## The table behind a statement -/

/-- A table, and the number of slots taken. -/
abbrev Taken := SymbolTable × Nat

mutual

/-- The table behind a statement; `none` where it overflows. -/
def tableStmt : ASTNode → Taken → Option Taken
  | .varDecl _ varName _ _, t =>
      (t.1.bind varName ⟨t.2, true⟩).map fun st => (st, t.2 + 1)
  | .block _ statements, t => (tableStmts statements t).map fun t' => (t.1, t'.2)
  | .ifStmt _ _ thenBranch elseBranch, t =>
      (tableStmt thenBranch t).bind fun t' =>
        if elseBranch.isNull then some t' else tableStmt elseBranch t'
  | .whileStmt _ _ body, t => tableStmt body t
  | _, t => some t

/-- The table behind the statements of a block, before it is restored. -/
def tableStmts : List ASTNode → Taken → Option Taken
  | [], t => some t
  | stmt :: rest, t => (tableStmt stmt t).bind (tableStmts rest)

end

/-- The table that binds the parameters, the first of which has number `i`. -/
def tableParams : List Parameter → Nat → SymbolTable → Option SymbolTable
  | [], _, st => some st
  | param :: rest, i, st => (st.bind param.name ⟨i + 1, false⟩).bind (tableParams rest (i + 1))

/-- The table and the slots of a state. -/
def GenState.taken (s : GenState) : Taken := (s.symbolTable, s.f.stackCount)

/-! ## Computations and tables -/

/-- The computation leaves the table `t`, and stops if there is none. -/
def TableEnsures {α : Type} (m : GenM α) (s : GenState) (t : Option Taken) : Prop :=
  Ensures m s (fun _ s' => t = some s'.taken) (fun _ => t = none)

section

variable {α β : Type} {m : GenM α} {s : GenState} {t : Option Taken}

theorem Ensures.and {P Q : α → GenState → Prop} {E F : Stop → Prop} (h : Ensures m s P E)
    (h' : Ensures m s Q F) :
    Ensures m s (fun a s' => P a s' ∧ Q a s') (fun stop => E stop ∧ F stop) := by
  unfold Ensures at *
  split
  · rename_i heq
    rw [heq] at h h'
    exact ⟨h, h'⟩
  · rename_i heq
    rw [heq] at h h'
    exact ⟨h, h'⟩

theorem tableEnsures_pure (a : α) : TableEnsures (pure a) s (some s.taken) := rfl

/-- Behind a computation that returns in a known state. -/
theorem TableEnsures.step {k : α → GenM β} {a : α} {s' : GenState} (hrun : m s = .ok (a, s'))
    (h : TableEnsures (k a) s' t) : TableEnsures (m >>= k) s t := by
  unfold TableEnsures
  rwa [ensures_bind, ensures_of_eq hrun]

/-- An instruction changes no table. -/
theorem TableEnsures.emit {k : Unit → GenM β} {inst : IRInstruction}
    (h : TableEnsures (k ()) (s.after [inst] [] s.f.counters s.symbolTable) t) :
    TableEnsures (emitInst inst >>= k) s t := .step (emitInst_run inst s) h

theorem tableEnsures_emit (inst : IRInstruction) :
    TableEnsures (emitInst inst) s (some s.taken) := by
  unfold TableEnsures
  rw [ensures_emitInst]
  rfl

/-- An expression of which no part is missing changes no table. -/
theorem TableEnsures.expr (env : Env) {node : ASTNode} {k : Nat → GenM β}
    (hst : s.symbolTable.Binds env) (hcomplete : node.CompleteExpr)
    (h : TableEnsures (k (lowerExpr env node s.f.vregCount).reg)
      (s.afterExpr (lowerExpr env node s.f.vregCount)) t) :
    TableEnsures (genExpression node >>= k) s t := by
  unfold TableEnsures
  rw [ensures_bind]
  refine (genExpression_ensures node s hst).imp ?_ fun stop hstop => absurd hcomplete hstop.2
  rintro reg s' ⟨rfl, rfl⟩
  exact h

/-- A value and the instruction that uses it change no table. -/
theorem tableEnsures_value {m : GenM Nat} {o : ExprOut} {complete : Prop}
    (inst : Nat → IRInstruction)
    (hm : Ensures m s (fun reg s' => reg = o.reg ∧ s' = s.afterExpr o)
      (fun stop => stop = .argumentOverflow ∧ ¬ complete)) (hcomplete : complete) :
    TableEnsures (do
      let reg ← m
      if reg = 0 then return ()
      emitInst (inst reg)) s (some s.taken) := by
  unfold TableEnsures
  rw [ensures_bind]
  refine hm.imp ?_ fun stop hstop => absurd hcomplete hstop.2
  rintro reg s' ⟨rfl, rfl⟩
  split
  · exact tableEnsures_pure ()
  · exact tableEnsures_emit (inst o.reg)

end

/-- One computation behind another. -/
theorem TableEnsures.andThen {m : GenM Unit} {k : GenM Unit} {s : GenState} {t : Option Taken}
    {f : Taken → Option Taken} {P : GenState → Prop}
    (hm : Ensures m s (fun _ s' => P s' ∧ t = some s'.taken) (fun _ => t = none))
    (hk : ∀ s', P s' → TableEnsures k s' (f s'.taken)) :
    TableEnsures (m >>= fun _ => k) s (t.bind f) := by
  unfold TableEnsures
  rw [ensures_bind]
  refine hm.imp ?_ ?_
  · rintro _ s' ⟨hp, rfl⟩
    exact hk s' hp
  · rintro stop rfl
    rfl

/-! ## Statements -/

/-- The state in front of a statement of which no part is missing and nothing is given up. -/
structure Ready (p : Nat) (env : Env) (node : ASTNode) (s : GenState) : Prop where
  binds : s.symbolTable.Binds env
  fits : EnvFits p s.f.stackCount env
  params : p < s.f.vregCount
  complete : node.CompleteStmt
  valued : Valued env node s.f.stackCount
  vregs : ¬ OutOfVregs (lowerStmt env node s.f.counters).history

/-- What a statement must do to the table. -/
def TableSpec (node : ASTNode) : Prop :=
  ∀ (p : Nat) (env : Env) (s : GenState), Ready p env node s →
    TableEnsures (genStatement node) s (tableStmt node s.taken)

attribute [local simp] tableStmt tableStmts

theorem tableSpec_expr {node : ASTNode}
    (hgen : genStatement node = discard (genExpression node))
    (htable : ∀ t, tableStmt node t = some t) (hcomplete : node.CompleteStmt → node.CompleteExpr) :
    TableSpec node := by
  intro p env s hready
  have hdiscard : discard (genExpression node) = genExpression node >>= fun _ => pure () := by
    rw [bind_pure_comp]
    rfl
  rw [hgen, htable, hdiscard]
  exact .expr env hready.binds (hcomplete hready.complete) (tableEnsures_pure ())

theorem tableSpec_return {info : NodeInfo} {expression : ASTNode} :
    TableSpec (.returnStmt info expression) := by
  intro p env s hready
  simp only [genStatement, genReturn, tableStmt]
  refine tableEnsures_value (fun reg =>
    ({ opcode := .ret, type := info.valueType, src1 := reg } : IRInstruction))
    (o := lowerReturned env expression s.f.vregCount) ?_ hready.complete
  unfold genReturned lowerReturned
  split
  · rw [ensures_of_eq (giveUp_run .returnWithoutExpression s rfl)]
    exact ⟨rfl, rfl⟩
  · rename_i hnull
    refine (genExpression_ensures expression s hready.binds).imp (fun _ _ h => h) ?_
    exact fun stop h => ⟨h.1, fun hc => h.2 (hc.resolve_left hnull)⟩

theorem get_run (s : GenState) : (get : GenM GenState) s = .ok (s, s) := rfl

theorem tableSpec_assignment {info : NodeInfo} {varName : StringView} {value : ASTNode} :
    TableSpec (.assignment info varName value) := by
  intro p env s hready
  obtain ⟨e, hname⟩ := Option.isSome_iff_exists.mp hready.valued.1
  obtain ⟨sym, hsym, hbinding⟩ := hready.binds.lookup_some hname
  have hlookup : lookupSymbol varName s = .ok (some sym, s) := by
    show Except.ok (symbolTableLookup s.symbolTable varName, s) = _
    rw [hsym]
  simp only [genStatement, genAssignment, tableStmt]
  refine .step hlookup (.step (get_run s) ?_)
  refine .step (record_run (e := .resolved info.addr (s.symbolTable.bindingAt sym)) s rfl) ?_
  refine TableEnsures.expr env hready.binds hready.complete ?_
  split
  · exact tableEnsures_pure ()
  · exact .step (get_run _) (tableEnsures_emit _)

theorem tableSpec_varDecl {info : NodeInfo} {varName : StringView} {varType : DataType}
    {initializer : ASTNode} : TableSpec (.varDecl info varName varType initializer) := by
  intro p env s hready
  simp only [genStatement, genVarDecl, tableStmt]
  refine .step (newStackSlot_run s) (ensures_addLocal ?_ fun st' hbind => ?_)
  · intro hnone
    rw [GenState.after_symbolTable] at hnone
    show Option.map _ (s.symbolTable.bind varName ⟨s.f.stackCount, true⟩) = none
    rw [hnone]
    rfl
  · rw [GenState.after_symbolTable] at hbind
    rw [GenState.after_after, List.append_nil, List.append_nil, GenState.after_counters]
    set entry : Entry := ⟨.var info.addr, varType, ⟨s.f.stackCount, true⟩⟩
    have hbinds : st'.Binds ((varName, entry) :: env) := hready.binds.bind hbind
    set s₁ := s.after [] [] { s.f.counters with stack := s.f.stackCount + 1 } st'
    have htable : Option.map (fun st => (st, s.f.stackCount + 1))
        (s.symbolTable.bind varName ⟨s.f.stackCount, true⟩) = some s₁.taken := by
      rw [hbind]
      rfl
    show TableEnsures _ s₁ (Option.map (fun st => (st, s.f.stackCount + 1))
      (s.symbolTable.bind varName ⟨s.f.stackCount, true⟩))
    rw [htable]
    refine .step (record_run (e := .declared info.addr varType s.f.stackCount) s₁ rfl) ?_
    exact tableEnsures_value (fun reg =>
      ({ opcode := .store, type := varType, dest := s.f.stackCount, src1 := reg } : IRInstruction))
      (genInitializer_ensures varType initializer hbinds) hready.complete

theorem tableSpec_block {info : NodeInfo} {statements : List ASTNode}
    (ih : ∀ (p : Nat) (env : Env) (s : GenState), Ready p env (.block info statements) s →
      TableEnsures (genStatements statements) s (tableStmts statements s.taken)) :
    TableSpec (.block info statements) := by
  intro p env s hready
  have hspec := (genStatements_ensures env statements s hready.binds).and (ih p env s hready)
  simp only [genStatement, genBlock, tableStmt]
  refine .step (get_run s) ?_
  unfold TableEnsures
  rw [ensures_bind]
  refine hspec.imp ?_ fun stop h => by rw [h.2, Option.map_none]
  rintro _ s' ⟨⟨st', hleaves, rfl⟩, htable⟩
  have hrestore := (hleaves.since s.symbolTable (SymbolTable.Since.refl _)).restore
  rw [htable]
  show some (s.symbolTable, _) = some (symbolTableRestore st' _, _)
  rw [hrestore]
  rfl

/-- What is known behind a statement, and of the table. -/
theorem TableSpec.ensures {p : Nat} {env : Env} {node : ASTNode} {s : GenState}
    (h : TableSpec node) (hready : Ready p env node s) :
    Ensures (genStatement node) s
      (fun _ s' => (∃ st', s.symbolTable.Leaves (lowerStmt env node s.f.counters).env st' ∧
        s' = s.afterStmt (lowerStmt env node s.f.counters) st') ∧
          tableStmt node s.taken = some s'.taken)
      (fun _ => tableStmt node s.taken = none) :=
  ((genStatement_ensures env node s hready.binds).and (h p env s hready)).imp
    (fun _ _ h => h) fun _ h => h.2

theorem tableSpec_if {info : NodeInfo} {condition thenBranch elseBranch : ASTNode}
    (iht : TableSpec thenBranch) (ihe : TableSpec elseBranch) :
    TableSpec (.ifStmt info condition thenBranch elseBranch) := by
  intro p env s hready
  obtain ⟨hcond, hthen, helse⟩ := hready.complete
  obtain ⟨hvalue, hvthen, hvelse⟩ := hready.valued
  have hok := hready.vregs
  have hreg := lowerExpr_reg hready.fits condition s.f.vregCount hready.params
  have hsound := lowerExpr_sound hready.fits condition s.f.vregCount
  have hv : s.f.counters.vreg = s.f.vregCount := rfl
  simp only [genStatement, genIf, tableStmt]
  simp only [lowerStmt, hv] at hok
  refine TableEnsures.expr env hready.binds hcond ?_
  set o := lowerExpr env condition s.f.vregCount with ho
  have hok₁ : ¬ OutOfVregs o.history := by
    intro hout
    apply hok
    split <;> split <;> simp_all [OutOfVregs]
  have hreg := (hreg hok₁).mpr hvalue
  have hp : p < o.next := Nat.lt_of_lt_of_le hready.params (hsound hok₁).facts.le
  rw [valueTypeOf_eq (valueType?_of_lowerExpr hreg), pure_bind]
  have hlabel := newLabel_run (s.afterExpr o)
  rw [GenState.afterExpr, GenState.after_after, List.append_nil, List.append_nil] at hlabel
  simp only [if_neg hreg] at hok ⊢
  split
  · rename_i hnull
    rw [if_pos hnull] at hok
    refine .step hlabel (.emit ?_)
    rw [GenState.after_after]
    refine TableEnsures.andThen (iht.ensures
      ⟨hready.binds, hready.fits, hp, hthen, hvthen, not_outOfVregs_right hok⟩) ?_
    exact fun s' _ => tableEnsures_emit _
  · rename_i hnull
    rw [if_neg hnull] at hok
    refine .step hlabel (.step (newLabel_run _) (.emit ?_))
    rw [GenState.after_after, GenState.after_after]
    have hok₂ := not_outOfVregs_right (not_outOfVregs_left hok)
    have hok₃ := not_outOfVregs_right hok
    refine TableEnsures.andThen (iht.ensures
      ⟨hready.binds, hready.fits, hp, hthen, hvthen, hok₂⟩) ?_
    rintro s' ⟨st', hleaves, rfl⟩
    set t := lowerStmt env thenBranch ⟨o.next, s.f.stackCount, s.f.labelCount + 2⟩ with ht
    have hstmt := lowerStmt_sound thenBranch env ⟨o.next, s.f.stackCount, s.f.labelCount + 2⟩ hp
      hready.fits hok₂
    obtain ⟨hnames, hslots⟩ := lowerStmt_scopes thenBranch env
      ⟨o.next, s.f.stackCount, s.f.labelCount + 2⟩ hp hready.fits hok₂
    have hvelse := hvelse.resolve_left hnull
    rw [← hnames, ← hslots] at hvelse
    refine .emit (.emit ?_)
    rw [GenState.after_after]
    rw [← Option.bind_fun_some (tableStmt elseBranch _)]
    refine TableEnsures.andThen (f := some) (ihe.ensures (?_ : Ready p t.env elseBranch _))
      fun s' _ => tableEnsures_emit _
    exact ⟨hleaves.binds, hstmt.env, Nat.lt_of_lt_of_le hp hstmt.piece.le,
      helse.resolve_left hnull, hvelse, hok₃⟩

theorem tableSpec_while {info : NodeInfo} {condition body : ASTNode} (ih : TableSpec body) :
    TableSpec (.whileStmt info condition body) := by
  intro p env s hready
  obtain ⟨hcond, hbody⟩ := hready.complete
  obtain ⟨hvalue, hvbody⟩ := hready.valued
  have hok := hready.vregs
  have hreg := lowerExpr_reg hready.fits condition s.f.vregCount hready.params
  have hsound := lowerExpr_sound hready.fits condition s.f.vregCount
  have hv : s.f.counters.vreg = s.f.vregCount := rfl
  simp only [lowerStmt, hv] at hok
  have hok₁ : ¬ OutOfVregs (lowerExpr env condition s.f.vregCount).history := by
    split at hok
    · exact hok
    · exact not_outOfVregs_left hok
  have hreg := (hreg hok₁).mpr hvalue
  rw [if_neg hreg] at hok
  have hok₂ := not_outOfVregs_right hok
  simp only [genStatement, genWhile, tableStmt]
  refine .step (newLabel_run s) (.step (newLabel_run _) ?_)
  rw [valueTypeOf_eq (valueType?_of_lowerExpr hreg), pure_bind]
  refine .emit (TableEnsures.expr env hready.binds hcond ?_)
  show TableEnsures (if (lowerExpr env condition s.f.vregCount).reg = 0 then _ else _) _ _
  rw [if_neg hreg]
  refine .emit ?_
  rw [← Option.bind_fun_some (tableStmt body s.taken)]
  refine TableEnsures.andThen (f := some) (ih.ensures (?_ : Ready p env body _))
    fun s' _ => .emit (tableEnsures_emit _)
  exact ⟨hready.binds, hready.fits, Nat.lt_of_lt_of_le hready.params (hsound hok₁).facts.le, hbody,
    hvbody, hok₂⟩

mutual

/-- The table behind a statement is the one read off the tree. -/
theorem genStatement_table : ∀ node : ASTNode, TableSpec node
  | .null => fun _ _ _ hready => absurd hready.complete id
  | .varDecl _ _ _ _ => tableSpec_varDecl
  | .assignment _ _ _ => tableSpec_assignment
  | .returnStmt _ _ => tableSpec_return
  | .block _ statements => tableSpec_block fun p env s hready =>
      genStatements_table statements p env s hready.binds hready.fits hready.params
        hready.complete hready.valued hready.vregs
  | .ifStmt _ _ thenBranch elseBranch =>
      tableSpec_if (genStatement_table thenBranch) (genStatement_table elseBranch)
  | .whileStmt _ _ body => tableSpec_while (genStatement_table body)
  | .number _ _ => tableSpec_expr rfl (fun _ => rfl) id
  | .identifier _ _ => tableSpec_expr rfl (fun _ => rfl) id
  | .call _ _ _ => tableSpec_expr rfl (fun _ => rfl) id
  | .unary _ _ _ => tableSpec_expr rfl (fun _ => rfl) id
  | .binary _ _ _ _ => tableSpec_expr rfl (fun _ => rfl) id
  | .function _ _ _ _ _ _ => tableSpec_expr rfl (fun _ => rfl) id
  | .translationUnit _ _ => tableSpec_expr rfl (fun _ => rfl) id

/-- The table behind the statements of a block is the one read off the trees. -/
theorem genStatements_table : ∀ (nodes : List ASTNode) (p : Nat) (env : Env) (s : GenState),
    s.symbolTable.Binds env → EnvFits p s.f.stackCount env → p < s.f.vregCount →
    CompleteStmts nodes → ValuedAll env nodes s.f.stackCount →
    ¬ OutOfVregs (lowerStmts env nodes s.f.counters).history →
    TableEnsures (genStatements nodes) s (tableStmts nodes s.taken)
  | [], _, _, _, _, _, _, _, _, _ => tableEnsures_pure ()
  | stmt :: rest, p, env, s, hbinds, hfits, hp, hcomplete, hvalued, hok => by
      simp only [lowerStmts] at hok
      simp only [genStatements, tableStmts]
      have hok₁ := not_outOfVregs_left hok
      have hok₂ := not_outOfVregs_right hok
      have hstmt := lowerStmt_sound stmt env s.f.counters hp hfits hok₁
      obtain ⟨hnames, hslots⟩ := lowerStmt_scopes stmt env s.f.counters hp hfits hok₁
      have hvrest := hvalued.2
      have hstack : s.f.stackCount = s.f.counters.stack := rfl
      rw [hstack, ← hnames, ← hslots] at hvrest
      refine TableEnsures.andThen ((genStatement_table stmt).ensures
        ⟨hbinds, hfits, hp, hcomplete.1, hvalued.1, hok₁⟩) ?_
      rintro s' ⟨st', hleaves, rfl⟩
      exact genStatements_table rest p _ _ hleaves.binds hstmt.env
        (Nat.lt_of_lt_of_le hp hstmt.piece.le) hcomplete.2 hvrest hok₂

end

/-! ## Functions -/

/-- The table behind the parameters is the one read off them. -/
theorem genParams_table (params : List Parameter) (i : Nat) (s : GenState)
    (hi : s.f.vregCount = 1 + i) (hroom : 1 + i + params.length ≤ maxVregsPerFunction) :
    Ensures (genParams params) s
      (fun generated s' => generated = true ∧
        tableParams params i s.symbolTable = some s'.symbolTable)
      (fun _ => tableParams params i s.symbolTable = none) := by
  induction params generalizing i s with
  | nil => exact ⟨rfl, rfl⟩
  | cons param rest ih =>
    rw [List.length_cons] at hroom
    have hfree : ¬ s.f.vregCount ≥ maxVregsPerFunction := by omega
    simp only [genParams, tableParams]
    rw [ensures_bind, ensures_of_eq (allocVreg_run s hfree)]
    simp only []
    rw [ensures_bind]
    have hindex : (⟨i + 1, false⟩ : SymbolTable.Binding) = ⟨s.f.vregCount, false⟩ := by
      rw [hi, Nat.add_comm]
    rw [hindex]
    refine ensures_addSymbol (fun hnone => ?_) fun st' hbind => ?_
    · rw [GenState.after_symbolTable] at hnone
      rw [hnone]
      rfl
    · rw [GenState.after_symbolTable] at hbind
      rw [hbind, GenState.after_after]
      refine ih (i + 1) _ ?_ (by omega)
      show s.f.vregCount + 1 = _
      omega

/-- The table behind a function, on whose stack `stack` slots are taken. -/
def tableRoot (stack : Nat) : ASTNode → Option Taken
  | .function _ _ _ params (.block _ statements) _ =>
      (tableParams params 0 .init).bind fun st => tableStmts statements (st, stack)
  | _ => none

section

variable {fresh : IRFunction} {root : ASTNode} {errors : ErrorContext}
  {filename : Option String}

/-- The table behind a definition is the one read off the tree. -/
theorem genRoot_table (hcomplete : root.CompleteFunction)
    (hparams : 1 + root.params.length ≤ maxVregsPerFunction)
    (hreported : Unreported (lowerRoot fresh.stackCount root).history) :
    Ensures (genRoot root) (initState fresh root errors filename)
      (fun generated s' => generated = true ∧
        tableRoot fresh.stackCount root = some s'.taken)
      (fun _ => tableRoot fresh.stackCount root = none) := by
  cases root with
  | function info name returnType params body isPrototype =>
    cases body with
    | block bodyInfo statements =>
      simp only [genRoot, tableRoot]
      rw [ensures_bind]
      have hfits : EnvFits params.length fresh.stackCount (paramEnv [] params 0) :=
        envFits_params params 0 (fun _ _ h => by cases h) (by omega)
      have hspec := (genParams_ensures [] params 0 _ SymbolTable.binds_init rfl (by decide)).and
        (genParams_table params 0 (initState fresh (.function info name returnType params
          (.block bodyInfo statements) isPrototype) errors filename) rfl hparams)
      refine hspec.imp ?_ fun stop h => by
        rw [show tableParams params 0 .init = none from h.2]
        rfl
      rintro generated s' ⟨⟨st', h⟩, rfl, htable⟩
      obtain ⟨hbinds, -, rfl⟩ := h
      have hstart : tableParams params 0 .init = some st' := htable
      rw [hstart, if_pos rfl, ensures_bind]
      have hvalued := valuedAll_of_unreported (p := params.length) statements
        (paramEnv [] params 0) ⟨1 + params.length, fresh.stackCount, 0⟩
        (by simp only []; omega) hfits hcomplete.2 hreported
      refine (genStatements_table statements params.length (paramEnv [] params 0) _ hbinds hfits
        ?_ hcomplete.2 hvalued ?_).imp ?_ fun stop h => h
      · show params.length < 1 + 0 + params.length
        omega
      · have hok : ¬ OutOfVregs (lowerStmts (paramEnv [] params 0) statements
          ⟨1 + params.length, fresh.stackCount, 0⟩).history := hreported.hasVregs
        exact hok
      · exact fun _ s' h => ⟨rfl, h⟩
    | _ => exact absurd hcomplete id
  | _ => exact absurd hcomplete id

/-- Exactly when a definition is generated, where nothing is given up: when the table does not
overflow and the instructions do not reach their limit. -/
theorem irGen_iff (hcomplete : root.CompleteFunction)
    (hparams : 1 + root.params.length ≤ maxVregsPerFunction)
    (hreported : Unreported (lowerRoot fresh.stackCount root).history) :
    (∃ s, irGen fresh root errors filename = .ok (true, s)) ↔
      (tableRoot fresh.stackCount root).isSome = true ∧
        (lowerRoot fresh.stackCount root).code.length < maxIrInstructionsPerFunction := by
  have hnull : root.isNull = false := by
    cases root with
    | null => exact absurd hcomplete id
    | _ => rfl
  have htable := @genRoot_table fresh root errors filename hcomplete hparams hreported
  have hspec := rootSpec_init fresh root errors filename
  constructor
  · rintro ⟨s, hrun⟩
    refine ⟨?_, (irGen_returns hrun).2.1⟩
    rw [irGen_eq hnull] at hrun
    cases hroot : genRoot root (initState fresh root errors filename) with
    | error stop =>
      rw [hroot] at hrun
      cases hrun
    | ok r => rw [(htable.of_ok hroot).2, Option.isSome_some]
  · rintro ⟨hsome, hlength⟩
    rw [irGen_eq hnull]
    cases hroot : genRoot root (initState fresh root errors filename) with
    | error stop =>
      rw [htable.of_error hroot] at hsome
      cases hsome
    | ok r =>
      obtain ⟨generated, s⟩ := r
      obtain ⟨rfl, -⟩ := htable.of_ok hroot
      obtain ⟨st', ⟨hs, -⟩ | ⟨hfalse, -⟩⟩ := hspec.of_ok hroot
      · have htotal := (@GeneratedFrom.of_after (initState fresh root errors filename)
          (lowerRoot fresh.stackCount root) st' rfl rfl rfl).total
        have hs' : s = (initState fresh root errors filename).afterStmt
          (lowerRoot fresh.stackCount root) st' := hs
        have hfits : s.f.totalCount < maxIrInstructionsPerFunction := by
          rw [hs']
          refine Nat.lt_of_le_of_lt (Nat.le_of_eq htotal) ?_
          omega
        refine ⟨s, ?_⟩
        show Except.ok (checkLimit true s) = _
        unfold checkLimit
        rw [if_neg (by simpa using hfits)]
      · cases hfalse

end

end TinyCompile.Ir
